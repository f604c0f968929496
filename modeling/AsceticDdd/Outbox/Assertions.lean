import AsceticDdd.Outbox.Guarantee

/-!
# What each process knows between its statements

One assertion for each point a session may be at, about the shared state and what it read. No
guarantee of another session undoes one; two rest on what the others do meanwhile: a call of
`set_position` waiting for the key, and the bound of the ring's copy being read.
-/

namespace AsceticDdd.Outbox

open Postgres

namespace Database

variable (o : PgOutbox) (d : Database) (s : Nat)

def Exclusive : Prop := d.reclamationKey.exclusive = some s

/-- The session holds nothing and is in no transaction. -/
structure Quiet : Prop where
  cells : ∀ key, (d.cells key).lock ≠ some s
  key : ¬d.reclamationKey.Holds s
  partitions : ∀ generation, d.partitions generation ≠ some s
  own : d.transactions.own s = none

/-- The session's transaction has written no row. -/
def Rowless : Prop := ∀ x, d.transactions.own s = some x → ∀ r ∈ d.written, r.transactionId ≠ x

/-- Nothing is handed on in the session's transaction so far. -/
def Uncalled : Prop :=
  ∀ key, (d.cells key).lock = some s → (d.cells key).calling = [] ∧ (d.cells key).handing = []

/-- Nothing is, but of one position. -/
def UncalledBut (key : PositionKey) : Prop := ∀ key', key' ≠ key →
  (d.cells key').lock = some s → (d.cells key').calling = [] ∧ (d.cells key').handing = []

/-- What was handed on is acknowledged. -/
def Acknowledged : Prop := ∀ key, (d.cells key).lock = some s → (d.cells key).calling = []

/-- Every version a producer writes begins anew, under the key held exclusively. -/
def Anew : Prop := ∀ key row, (d.cells key).lock = some s → (d.cells key).pending = some row →
  row.epoch = none ∧ (d.cells key).anew = some row.toPosition ∧ (d.cells key).handing = [] ∧
    d.Exclusive s

/-- The row the session locked, as it reads it. -/
def HasRow (key : PositionKey) (row : PositionRow) : Prop :=
  (d.cells key).lock = some s ∧ (d.cells key).pending.or (d.cells key).committed = some row

/-- A snapshot of the session that every spent row is visible in. -/
def Recent (fair : Nat → Prop) (now : Snapshot) : Prop := (∀ x, now.visible x → d.Sees s x) ∧
  ∀ r, d.Spent r → fair r.transactionId → now.visible r.transactionId

/-- Every committed row of the generation has an id of at most `newest`. -/
def NewestOf (generation newest : Nat) : Prop := ∀ r ∈ d.table, o.generationOf r = generation →
  d.transactions.Committed r.transactionId → r.transactionId ≤ newest

/-- Every position has delivered every committed row of the generation. -/
def PassedBy (generation : Nat) : Prop := ∀ key row, (d.cells key).committed = some row →
  ∀ r ∈ d.table, o.generationOf r = generation → d.transactions.Committed r.transactionId →
    row.delivered.visible r.transactionId

/-- Every position's row is the session's. -/
def LockedAll : Prop :=
  ∀ key row, (d.cells key).committed = some row → (d.cells key).lock = some s

/-- Every position, as the session reads it, has delivered every committed row below the bound. -/
def DeliveredBelow (fair : Nat → Prop) (bound : Nat) : Prop := ∀ r ∈ d.written,
  d.transactions.Committed r.transactionId → fair r.transactionId → r.transactionId < bound →
    ∀ key row, (d.cells key).seenBy s = some row → row.delivered.visible r.transactionId

/-- No session of this database is in a transaction below the bound. -/
def SessionsFrom (bound : Nat) : Prop := ∀ x < d.transactions.next, ¬d.transactions.Ended x →
  d.transactions.seat x = .session ∨ d.transactions.seat x = .preparing → bound ≤ x

/-- No transaction of this database is running below the bound. -/
def RunningFrom (bound : Nat) : Prop := bound ≤ d.transactions.next ∧
  ∀ x < d.transactions.next, ¬d.transactions.Ended x → d.transactions.seat x ≠ .elsewhere →
    bound ≤ x

def IntactAtMost (v : Nat) : Prop := ∀ u, d.metaRow.intactFrom = some u → u ≤ v

end Database

namespace Move

/-- The move asked for is refused, or lands where rows are intact. -/
def Allowed (move : Move) (read intactFrom : Option Nat) : Prop := match move with
  | .fromId xid => (∃ v, read = some v ∧ xid < v) ∨ ∀ v, intactFrom = some v → v ≤ xid
  | .start => read = intactFrom
  | .now => True

/-- The move the ring's bound allowed lands where rows are intact. -/
def Lands (move : Move) (intactFrom : Option Nat) : Prop := match move with
  | .fromId xid => ∀ v, intactFrom = some v → v ≤ xid
  | .start => intactFrom = none
  | .now => True

end Move

section Ok

variable (o : PgOutbox) (fair : Nat → Prop) (d : Database) (s : Nat)

def Ensuring.Ok : Ensuring → Prop
  | .hold => True
  | .read => d.reclamationKey.Holds s
  | .insert rows => d.reclamationKey.Holds s ∧ ∀ entry ∈ rows, d.Recent s fair entry.2

def Moving.Ok : Moving → Prop
  | .holding kept move read => (kept = false → ∀ key, (d.cells key).lock = some s →
      (d.cells key).pending = none) ∧ move.Allowed read d.metaRow.intactFrom
  | .granted kept move read => (kept = false → ∀ key, (d.cells key).lock = some s →
      (d.cells key).pending = none) ∧ move.Allowed read d.metaRow.intactFrom ∧ d.Exclusive s
  | .ensuring move e => d.Exclusive s ∧ move.Lands d.metaRow.intactFrom ∧ e.Ok fair d s
  | .ensured move => d.Exclusive s ∧ move.Lands d.metaRow.intactFrom
  | .rows move now _ => d.Exclusive s ∧ move.Lands d.metaRow.intactFrom ∧ d.Recent s fair now

/-- Whether a call in progress leaves the key as the transaction had it. -/
def Moving.kept : Moving → Bool
  | .holding kept _ _ | .granted kept _ _ => kept
  | _ => true

def Producing.Ok (landings : List Nat) : Producing → Prop
  | .ready => landings ≠ [] → d.Exclusive s
  | .inserting _ _ position => d.drawn position = some s ∧ (landings ≠ [] → d.Exclusive s)
  | .preparing => landings = [] ∧ (∀ key, (d.cells key).lock ≠ some s) ∧ ¬d.reclamationKey.Holds s
  | .moving _ m => m.Ok fair d s ∧ (landings ≠ [] → m.kept = true ∧ d.Exclusive s)

def Dispatching.Ok (selection : Selection) (limit : Nat) : Dispatching → Prop
  | .begun _ | .named _ _ | .looked _ _ => d.Uncalled s
  | .contacting e => d.Uncalled s ∧ e.Ok fair d s
  | .taken slot row => d.Uncalled s ∧ d.HasRow s (.of selection slot) row
  | .snapped slot row now => d.Uncalled s ∧ d.HasRow s (.of selection slot) row ∧
      row.epoch = none ∧ (∀ x, now.visible x → d.Sees s x) ∧
      ∀ x, row.delivered.visible x → now.visible x
  | .ready slot row epoch => d.Uncalled s ∧ d.HasRow s (.of selection slot) row ∧
      epoch.endAt ≠ none ∧
      Sound o fair (.of selection slot) d.written (d.Sees s) (d.Live s) ⟨row.delivered, some epoch⟩
        (d.cells (.of selection slot)).beganNext (d.cells (.of selection slot)).handedNext
  | .handing slot row epoch batch rest => d.HasRow s (.of selection slot) row ∧
      d.UncalledBut s (.of selection slot) ∧ (d.cells (.of selection slot)).handing = [] ∧
      (d.cells (.of selection slot)).calling ++ rest = batch ∧
      Sound o fair (.of selection slot) d.written (d.Sees s) (d.Live s) ⟨row.delivered, some epoch⟩
        (d.cells (.of selection slot)).beganNext (d.cells (.of selection slot)).handedNext ∧
      BatchOf o fair (.of selection slot) d.written (d.Live s) row.delivered epoch limit batch
  | .done | .refusing => d.Acknowledged s

def Reclaiming.Ok : Reclaiming → Prop
  | .begun | .done | .refusing => True
  | .held | .checked | .oldest _ _ | .candidate _ | .past _ | .sessions _ _ | .closed _
  | .passed _ => d.Exclusive s
  | .locked c => d.Exclusive s ∧ d.partitions c.generation = some s
  | .final c => d.Exclusive s ∧ d.partitions c.generation = some s ∧
      d.NewestOf o c.generation c.newest
  | .rechecked c | .truncated c | .bounded c _ | .left c _ | .leftSessions c _ _ | .opened c _ =>
      d.Exclusive s ∧ d.partitions c.generation = some s ∧ d.NewestOf o c.generation c.newest ∧
      d.PassedBy o c.generation
  | .emptied c _ intactFrom =>
      d.Exclusive s ∧ d.partitions c.generation = some s ∧ d.NewestOf o c.generation c.newest ∧
      d.PassedBy o c.generation ∧ c.newest < intactFrom ∧ d.IntactAtMost intactFrom

/-- A version a migrator writes adds nothing to what was handed on. -/
def Database.Plain : Prop := ∀ key, (d.cells key).lock = some s →
  (d.cells key).anew = none ∧ (d.cells key).calling = [] ∧ (d.cells key).handing = []

def Migrating.Ok : Migrating → Prop
  | .begun => d.Plain s
  | .held => d.Plain s ∧ d.Exclusive s
  | .locking keys => d.Plain s ∧ d.Exclusive s ∧ ∀ key row, (d.cells key).committed = some row →
      (d.cells key).lock = some s ∨ key ∈ keys
  | .locked | .advanced => d.Plain s ∧ d.Exclusive s ∧ d.LockedAll s
  | .read next bound _ => d.Exclusive s ∧ d.LockedAll s ∧ next ≤ d.transactions.next ∧
      bound ≤ next ∧ d.DeliveredBelow s fair bound
  | .sessions next bound _ => d.Exclusive s ∧ d.LockedAll s ∧ next ≤ d.transactions.next ∧
      bound ≤ next ∧ d.DeliveredBelow s fair bound ∧ d.SessionsFrom bound
  | .bounded bound _ | .counted bound => d.Exclusive s ∧ d.LockedAll s ∧ d.DeliveredBelow s fair bound ∧
      d.RunningFrom bound
  | .recorded bound _ intactFrom => d.Exclusive s ∧ d.LockedAll s ∧ d.DeliveredBelow s fair bound ∧
      d.RunningFrom bound ∧ bound ≤ intactFrom ∧ d.IntactAtMost intactFrom
  | .made => True
  | .fixed bound => bound ∈ d.bounds ∧ d.Quiet s
  | .copying bound => bound ∈ d.bounds ∧
      ∀ generation < o.ring.generations, d.partitions generation = some s
  | .copied bound rows => bound ∈ d.bounds ∧
      (∀ generation < o.ring.generations, d.partitions generation = some s) ∧
      rows.Sublist d.written ∧ (∀ r ∈ rows, r ∈ d.table) ∧
      ∀ r ∈ d.table, d.transactions.Committed r.transactionId → bound ≤ r.transactionId → r ∈ rows

structure ProducerOk (landings : List Nat) : Prop where
  anew : d.Anew s
  uncalled : d.Uncalled s
  partitions : ∀ generation, d.partitions generation ≠ some s
  here : ∀ x, d.transactions.own s = some x → d.transactions.seat x ≠ .elsewhere
  landings : ∀ xid ∈ landings, ∀ v, d.metaRow.intactFrom = some v → v ≤ xid

def Process.Ok : Process → Prop
  | .idle => d.Quiet s
  | .elsewhere => ∀ key, (d.cells key).lock ≠ some s
  | .producer landings producing => ProducerOk d s landings ∧ producing.Ok fair d s landings
  | .dispatcher selection limit dispatching => d.Rowless s ∧ 0 < limit ∧
      dispatching.Ok o fair d s selection limit
  | .reclaimer reclaiming => d.Rowless s ∧ (∀ key, (d.cells key).lock ≠ some s) ∧
      reclaiming.Ok o d s
  | .migrator migrating => d.Rowless s ∧ d.Uncalled s ∧ migrating.Ok o fair d s

end Ok

end AsceticDdd.Outbox
