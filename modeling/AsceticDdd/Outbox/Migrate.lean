import AsceticDdd.Outbox.Reclaim

/-!
# Making the ring

A transaction of its own fixes the bound the ring's step copies from: it takes every position's
row, advances the positions nothing is new to, and reads the least id some position may still
need. The step copies the rows from it on in a later transaction, under the table's lock.
-/

namespace AsceticDdd.Outbox

open Postgres

inductive Migrating
  | begun
  | held
  | locking (keys : List PositionKey)
  | locked
  | advanced
  | read (next bound : Nat) (rows : List Row)
  | sessions (next bound : Nat) (rows : List Row)
  | bounded (bound : Nat) (rows : List Row)
  | counted (bound : Nat)
  | recorded (bound goneBelow intactFrom : Nat)
  | made
  | fixed (bound : Nat)
  | copying (bound : Nat)
  | copied (bound : Nat) (rows : List Row)

namespace PgOutbox

variable (o : PgOutbox) (d : Database) (s : Nat)

/-- No epoch, and no row of its selection new to it: the position advances as an idle look would. -/
def advances (rows : List Row) (now : Snapshot) (key : PositionKey) (row : PositionRow) : Bool :=
  row.epoch.isNone &&
  !rows.any (fun m => decide (o.Covers key m ∧ row.delivered.xmax ≤ m.transactionId ∧
    now.visible m.transactionId)) &&
  !row.delivered.xip.any fun xid => now.visible xid &&
    rows.any fun m => decide (o.Covers key m ∧ m.transactionId = xid)

/-- A position's row after the update that advances. -/
def advanced (key : PositionKey) : Cell :=
  let cell := d.cells key
  match cell.seenBy s with
  | none => cell
  | some row =>
    if cell.lock = some s ∧ o.advances (d.visibleRows s) (d.snapshot s) key row then
      { cell with pending := some (row.ack (some (d.snapshot s)) none) }
    else cell

/-- The update that advances, once every position's row is the session's. -/
def advance : Option Database :=
  if ∀ key ∈ d.keys, (d.cells key).committed.isSome → (d.cells key).lock = some s then
    some { d with cells := o.advanced d s }
  else none

theorem advance_eq {o : PgOutbox} {d d' : Database} {s : Nat}
    (hstep : o.advance d s = some d') : d' = { d with cells := o.advanced d s } := by
  rw [advance] at hstep
  split at hstep
  · cases hstep
    rfl
  · cases hstep

/-- What the bound's statement reads under its snapshot: every `delivered`'s `xmax`, and the ids
of an in-progress list that have a row. -/
def boundRead (rows : List Row) (positions : List (PositionKey × PositionRow)) : List Nat :=
  positions.map (·.2.delivered.xmax) ++
    (positions.flatMap (·.2.delivered.xip)).filter fun xid =>
      rows.any fun row => row.transactionId = xid

/-- The next statement of `fix_copy_bound`, and of the ring's step after it. -/
def migrate : Migrating → Option (Database × Migrating)
  | .begun => (d.reclamationKey.lock s).map fun key => ({ d with reclamationKey := key }, .held)
  | .held =>
    if d.ringMade then some (d, .made)
    else some (d, .locking (d.keys.filter fun key => ((d.cells key).seenBy s).isSome))
  | .locking [] => some (d, .locked)
  | .locking (key :: keys) => (d.lockCell s key).map fun r => (r.1, .locking keys)
  | .locked => (o.advance d s).map fun d => (d, .advanced)
  | .advanced =>
    let next := (d.snapshot s).xmax
    some (d, .read next ((boundRead (d.visibleRows s) (d.positions s)).foldl min next)
      (d.visibleRows s))
  | .read next bound rows => (openHere next d.transactions.sessionXids).map fun ids =>
      (d, .sessions next (ids.foldl min bound) rows)
  | .sessions next bound rows => (openHere next d.transactions.preparedXids).map fun ids =>
      (d, .bounded (ids.foldl min bound) rows)
  | .bounded bound rows =>
    if (rows.filter fun row => decide (bound ≤ row.transactionId)).length ≤ o.copyLimit then
      some (d, .counted bound)
    else none
  | .counted bound => some (d, .recorded bound (min (d.metaRow.goneBelow.getD bound) bound)
      (max (d.metaRow.intactFrom.getD bound) bound))
  | .fixed bound =>
    if d.ringMade then some (d, .made)
    else if (∀ generation < o.ring.generations, d.partitions generation = none) ∧
        ∀ row ∈ d.table, d.transactions.Ended row.transactionId then
      some ({ d with partitions := fun generation =>
        if generation < o.ring.generations then some s else d.partitions generation },
        .copying bound)
    else none
  | .copying bound => some (d, .copied bound
      ((d.visibleRows s).filter fun row => decide (bound ≤ row.transactionId)))
  | .recorded _ _ _ | .made | .copied _ _ => none

end PgOutbox

end AsceticDdd.Outbox
