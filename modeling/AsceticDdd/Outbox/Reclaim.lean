import AsceticDdd.Outbox.Database

/-!
# The ring's reclamation

A pass, statement by statement: the generation of the oldest row left is checked without its
partition's lock, then checked again under it, emptied, and both bounds recorded.
-/

namespace AsceticDdd.Outbox

open Postgres

structure Candidate where
  generation : Nat
  oldest : Nat
  newest : Nat

inductive Reclaiming
  | begun
  | held
  | checked
  | oldest (generation oldest : Nat)
  | candidate (c : Candidate)
  | past (c : Candidate)
  | sessions (c : Candidate) (open_ : List Nat)
  | closed (c : Candidate)
  | passed (c : Candidate)
  | locked (c : Candidate)
  | final (c : Candidate)
  | rechecked (c : Candidate)
  | truncated (c : Candidate)
  | bounded (c : Candidate) (goneBelow : Nat)
  | left (c : Candidate) (goneBelow : Nat)
  | leftSessions (c : Candidate) (goneBelow : Nat) (open_ : List Nat)
  | opened (c : Candidate) (goneBelow : Nat)
  | emptied (c : Candidate) (goneBelow intactFrom : Nat)
  | done
  | refusing

/-- The text of a widened id is read as an unsigned number. -/
def transactionId (xid : Int) : Option Nat := if 0 ≤ xid then some xid.toNat else none

namespace PgOutbox

variable (o : PgOutbox) (d : Database) (s : Nat)

/-- The least id of a generation's rows. -/
def leastOf (rows : List Row) (generation : Nat) : Option Nat :=
  ((rows.filter fun row => o.generationOf row = generation).map (·.transactionId)).min?

def newestOf (rows : List Row) (generation : Nat) : Option Nat :=
  ((rows.filter fun row => o.generationOf row = generation).map (·.transactionId)).max?

/-- The least ids of the generations that have a row, in the generations' order. -/
def leastPerGeneration (rows : List Row) : List (Nat × Nat) :=
  (List.range o.ring.generations).filterMap fun generation =>
    (o.leastOf rows generation).map fun xid => (generation, xid)

/-- The generation of the oldest row: the first of those with the least id. -/
def oldestGeneration (rows : List Row) : Option (Nat × Nat) :=
  (o.leastPerGeneration rows).foldl (fun oldest entry =>
    match oldest with
    | none => some entry
    | some least => if entry.2 < least.2 then some entry else some least) none

/-- The ids a view shows, widened against the next. -/
def openHere (next : Nat) (xids : List Nat) : Option (List Nat) :=
  xids.mapM fun xid : Nat => transactionId (widened next xid)

/-- A position whose `delivered` does not see every row of the candidate. -/
def pinned (rows : List Row) (positions : List (PositionKey × PositionRow)) (c : Candidate) :
    Option (PositionKey × PositionRow) :=
  positions.find? fun p => decide (p.2.delivered.xmax ≤ c.newest) ||
    p.2.delivered.xip.any fun xid => decide (xid ≤ c.newest ∧
      ∃ row ∈ rows, o.generationOf row = c.generation ∧ row.transactionId = xid)

/-- The rows left to a pass that truncated a generation. -/
def rowsLeft (generation : Nat) : List Row :=
  (d.visibleRows s).filter fun row => o.generationOf row ≠ generation

/-- The next statement of a pass. -/
def pass : Reclaiming → Option (Database × Reclaiming)
  | .begun => match d.reclamationKey.lock s with
    | some key => some ({ d with reclamationKey := key }, .held)
    | none => some (d, .done)
  | .held =>
    if d.metaRow.refused.isSome then some (d, .refusing)
    else if d.reset s then some (d.refuse counterReset, .refusing)
    else some (d, .checked)
  | .checked => match o.oldestGeneration (d.visibleRows s) with
    | none => some (d, .done)
    | some (generation, oldest) => some (d, .oldest generation oldest)
  | .oldest generation oldest => some (d, .candidate
      ⟨generation, oldest, (o.newestOf (d.visibleRows s) generation).getD oldest⟩)
  | .candidate c =>
    if (d.snapshot s).xmax / o.ring.window - c.newest / o.ring.window < o.margin then some (d, .done)
    else some (d, .past c)
  | .past c => (openHere (d.snapshot s).xmax d.transactions.sessionXids).map fun ids =>
      (d, .sessions c ids)
  | .sessions c ids =>
    (openHere (d.snapshot s).xmax d.transactions.preparedXids).map fun prepared =>
      if (ids ++ prepared).any fun xid => o.ring.generationOf xid = c.generation then (d, .done)
      else (d, .closed c)
  | .closed c => match o.pinned (d.visibleRows s) (d.positions s) c with
    | some _ => some (d, .done)
    | none => some (d, .passed c)
  | .passed c => (d.lockPartition o s c.generation).map fun d => (d, .locked c)
  | .locked c => some (d, .final
      { c with newest := (o.newestOf (d.visibleRows s) c.generation).getD c.newest })
  | .final c => match o.pinned (d.visibleRows s) (d.positions s) c with
    | some _ => some (d, .done)
    | none => some (d, .rechecked c)
  | .rechecked c => some (d, .truncated c)
  | .truncated c => some (d, .bounded c (d.snapshot s).xmax)
  | .bounded c goneBelow => some (d, .left c
      (((o.leastPerGeneration (o.rowsLeft d s c.generation)).map (·.2)).foldl min goneBelow))
  | .left c goneBelow => (openHere (d.snapshot s).xmax d.transactions.sessionXids).map fun ids =>
      (d, .leftSessions c goneBelow ids)
  | .leftSessions c goneBelow ids =>
    (openHere (d.snapshot s).xmax d.transactions.preparedXids).map fun prepared =>
      (d, .opened c ((ids ++ prepared).foldl min goneBelow))
  | .opened c goneBelow => some (d, .emptied c goneBelow
      (max (d.metaRow.intactFrom.getD (c.newest + 1)) (c.newest + 1)))
  | .emptied _ _ _ | .done | .refusing => none

/-- What a pass that emptied a generation commits, beside its transaction's end. -/
def emptied (c : Candidate) (goneBelow intactFrom : Nat) : Database :=
  { d with
    table := d.table.filter fun row => o.generationOf row ≠ c.generation
    metaRow := { d.metaRow with goneBelow := some goneBelow, intactFrom := some intactFrom } }

end PgOutbox

end AsceticDdd.Outbox
