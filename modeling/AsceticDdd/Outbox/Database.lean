import AsceticDdd.Outbox.Store
import AsceticDdd.Postgres.Locks
import AsceticDdd.Postgres.Transactions

/-!
# The outbox's tables, and what their statements write

The state every session shares. A row of the positions' table is its last committed version,
and the version its locker's transaction leaves it. Beside what the server keeps, it has the
history the results speak of: every row ever written, every call of a subscriber, and, for each
position, where it began and what was handed on since.
-/

namespace AsceticDdd.Outbox

open Postgres

structure Cell where
  committed : Option PositionRow
  pending : Option PositionRow
  lock : Option Nat
  /-- Where the position began, at its creation or its last move. -/
  began : Position
  /-- What was handed on since, in dispatches that committed. -/
  handed : List Row
  /-- Where it begins anew with the pending version, created or moved. -/
  anew : Option Position
  /-- What the pending version adds to what was handed on. -/
  handing : List Row
  /-- What the locker handed on and has not acknowledged. -/
  calling : List Row

namespace Cell

/-- No row. -/
def absent : Cell := ⟨none, none, none, ⟨nothing, none⟩, [], none, [], []⟩

variable (c : Cell) (s : Nat)

/-- The version a statement of session `s` reads. -/
def seenBy : Option PositionRow := if c.lock = some s then c.pending.or c.committed else c.committed

def beganNext : Position := c.anew.getD c.began

def handedNext : List Row := (if c.anew.isSome then [] else c.handed) ++ c.handing

/-- The end of session `s`'s transaction. -/
def finish (commits : Bool) : Cell :=
  if c.lock = some s then
    match commits, c.pending with
    | true, some row => ⟨some row, none, none, c.beganNext, c.handedNext, none, [], []⟩
    | _, _ => ⟨c.committed, none, none, c.began, c.handed, none, [], []⟩
  else c

end Cell

/-- The row of `outbox_meta`, the ring's bounds and the recorded counter reset. -/
structure MetaRow where
  goneBelow : Option Nat
  intactFrom : Option Nat
  refused : Option String
deriving DecidableEq

structure Call where
  key : PositionKey
  row : Row
deriving DecidableEq

structure Database where
  transactions : Transactions
  /-- The next value of the positions' sequence. -/
  nextPosition : Int
  /-- Who drew a position and has not written its row. -/
  drawn : Int → Option Nat
  table : List Row
  written : List Row
  cells : PositionKey → Cell
  keys : List PositionKey
  metaRow : MetaRow
  reclamationKey : AdvisoryLock
  /-- Who holds a generation's partition in `ACCESS EXCLUSIVE` mode. -/
  partitions : Nat → Option Nat
  ringMade : Bool
  calls : List Call
  /-- The bounds fixed for the ring's copy. -/
  bounds : List Nat

/-- Why a counter reset stops the relay and the reclamation. -/
def counterReset : String :=
  "a position delivered past the server's transaction ids: the database was moved by dump and restore"

namespace Database

variable (o : PgOutbox) (d : Database) (s : Nat)

/-- The row's transaction committed, or is session `s`'s own. -/
def Visible (row : Row) : Prop :=
  d.transactions.Committed row.transactionId ∨ d.transactions.own s = some row.transactionId

instance : DecidablePred (d.Visible s) := fun _ => inferInstanceAs (Decidable (_ ∨ _))

/-- The rows a statement of session `s` reads now. -/
def visibleRows : List Row := d.table.filter fun row => decide (d.Visible s row)

def snapshot : Snapshot := d.transactions.snapshot s

/-- The positions a statement of session `s` reads now. -/
def positions : List (PositionKey × PositionRow) :=
  d.keys.filterMap fun key => ((d.cells key).seenBy s).map fun row => (key, row)

def setCell (key : PositionKey) (cell : Cell) : Database :=
  { d with cells := Function.update d.cells key cell }

/-- `nextval`: the sequence is not cached, and ends at the largest `bigint`. -/
def draw : Option (Database × Int) :=
  if d.nextPosition ≤ maxI64 then
    some ({ d with
      nextPosition := d.nextPosition + 1
      drawn := Function.update d.drawn d.nextPosition (some s) }, d.nextPosition)
  else none

/-- The row of an `INSERT` lands in its generation's partition, once nobody has it locked. -/
def insert (message : Message) (createdAt : String) (position : Int) : Option Database :=
  match d.transactions.own s with
  | none => none
  | some transactionId =>
    let row : Row := { message with createdAt, position, transactionId }
    let partition := d.partitions (o.generationOf row)
    if partition = none ∨ partition = some s then
      some { d with
        drawn := Function.update d.drawn position none
        table := d.table ++ [row]
        written := d.written ++ [row] }
    else none

/-- `FOR UPDATE` of a position row as last committed, when nobody else holds it. -/
def lockCell (key : PositionKey) : Option (Database × PositionRow) :=
  let cell := d.cells key
  if cell.lock = none ∨ cell.lock = some s then
    (cell.pending.or cell.committed).map fun row =>
      (d.setCell key { cell with lock := some s }, row)
  else none

/-- `INSERT … ON CONFLICT DO NOTHING` of a position row: none while another session is inserting
it. -/
def createCell (key : PositionKey) (delivered : Snapshot) : Option Database :=
  let cell := d.cells key
  if cell.committed.isSome ∨ cell.lock = some s ∧ cell.pending.isSome then some d
  else if cell.lock = none then
    some { d.setCell key { cell with
        pending := some (.created delivered)
        lock := some s
        anew := some ⟨delivered, none⟩ } with
      keys := key :: d.keys }
  else none

/-- The subscriber is called with a row of a batch. -/
def call (key : PositionKey) (row : Row) : Database :=
  let cell := d.cells key
  { d.setCell key { cell with calling := cell.calling ++ [row] } with
    calls := d.calls ++ [⟨key, row⟩] }

/-- An acknowledgement: the batch's calls count once the transaction commits. -/
def acknowledge (key : PositionKey) (row : PositionRow) : Database :=
  let cell := d.cells key
  d.setCell key { cell with
    pending := some row, handing := cell.handing ++ cell.calling, calling := [] }

/-- A move's update: the position begins anew. -/
def move (key : PositionKey) (row : PositionRow) : Database :=
  d.setCell key { d.cells key with
    pending := some row, lock := some s, anew := some row.toPosition, handing := [], calling := [] }

/-- `LOCK TABLE … IN ACCESS EXCLUSIVE MODE` of a generation's partition: no other session is
writing it. -/
def lockPartition (generation : Nat) : Option Database :=
  if (d.partitions generation = none ∨ d.partitions generation = some s) ∧
      ∀ row ∈ d.table, o.generationOf row = generation →
        d.transactions.Ended row.transactionId ∨ d.transactions.own s = some row.transactionId then
    some { d with partitions := Function.update d.partitions generation (some s) }
  else none

/-- The refusal is recorded by a transaction of its own, once. -/
def refuse (reason : String) : Database :=
  { d with metaRow := { d.metaRow with refused := d.metaRow.refused.or (some reason) } }

/-- The end of session `s`'s transaction, with all it held. -/
def finish (commits : Bool) : Database :=
  { d with
    transactions := d.transactions.finish s commits
    cells := fun key => (d.cells key).finish s commits
    reclamationKey := d.reclamationKey.release s
    partitions := fun generation =>
      if d.partitions generation = some s then none else d.partitions generation }

/-- Whether a position delivered past the server's ids. -/
def reset : Bool :=
  (d.positions s).any fun p => decide ((d.snapshot s).xmax < p.2.delivered.xmax)

end Database

end AsceticDdd.Outbox
