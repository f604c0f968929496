import AsceticDdd.Outbox.Dispatch

/-!
# Moving a selection

A call of `set_position` inside a session's transaction: one statement that reads the ring's
bound under its snapshot and then waits for the reclamation's key, the check, the position rows
created where none are, and the update, one row at a time.
-/

namespace AsceticDdd.Outbox

open Postgres

/-- `kept` says whether the transaction held the key exclusively before the call. -/
inductive Moving
  | holding (kept : Bool) (move : Move) (intactFrom : Option Nat)
  | granted (kept : Bool) (move : Move) (intactFrom : Option Nat)
  | ensuring (move : Move) (ensuring : Ensuring)
  | ensured (move : Move)
  | rows (move : Move) (now : Snapshot) (slots : List Nat)

/-- The transaction a rewind lands on. -/
def Move.landing : Move → Option Nat
  | .start => some 1
  | .fromId xid => some xid
  | .now => none

/-- The move the ring's bound allows: none below it, and back to the start lands on it. -/
def Move.onRing : Move → Option Nat → Option Move
  | .fromId requested, some intactFrom =>
    if requested < intactFrom then none else some (.fromId requested)
  | .start, some intactFrom => some (.fromId intactFrom)
  | move, _ => some move

/-- The transactions a call lands on, once the bound allowed it. -/
def Moving.landings (m : Moving) (next : Option Moving) (landings : List Nat) : List Nat :=
  match m, next with
  | .granted _ _ _, some (.ensuring move _) => move.landing.toList ++ landings
  | _, _ => landings

namespace PgOutbox

variable (o : PgOutbox) (d : Database) (s : Nat) (selection : Selection)

/-- A call that fails returns to its savepoint: a key it took is let go. -/
def unhold (kept : Bool) : Database :=
  if kept then d else { d with reclamationKey := d.reclamationKey.unlock s }

/-- A call stopped once it holds the key. -/
def stopPosition : Moving → Option Database
  | .granted kept _ _ => some (unhold d s kept)
  | _ => none

/-- The next statement of a call: none for the next when it returned. -/
def setPosition : Moving → Option (Database × Option Moving)
  | .holding kept move intactFrom => (d.reclamationKey.lock s).map fun key =>
      ({ d with reclamationKey := key }, some (.granted kept move intactFrom))
  | .granted kept move intactFrom => match move.onRing intactFrom with
    | none => some (unhold d s kept, none)
    | some move => some (d, some (.ensuring move .hold))
  | .ensuring move ensuring => (o.ensurePositions d s selection ensuring).map fun r =>
      (r.1, some (r.2.elim (.ensured move) (.ensuring move)))
  | .ensured move => some (d, some (.rows move (d.snapshot s) ((List.range o.slots).filter fun slot =>
      ((d.cells (.of selection slot)).seenBy s).isSome)))
  | .rows _ _ [] => some (d, none)
  | .rows move now (slot :: slots) => do
    let (d, row) ← d.lockCell s (.of selection slot)
    let row ← row.moved move now
    return (d.move s (.of selection slot) row, some (.rows move now slots))

end PgOutbox

end AsceticDdd.Outbox
