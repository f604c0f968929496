import AsceticDdd.Inbox.Store
import Mathlib.Logic.Function.Basic

/-!
# The inbox's tables under transactions

A row has its committed version and, where a transaction holds its lock, the version that one has
made of it. A transaction's effects and marks are in its journal until it commits.
-/

namespace AsceticDdd.Inbox

/-- What a transaction did that others go by once it has committed. -/
inductive Event
  | effects (row : Row)
  | marked (row : Row) (position : Nat)
  | resolved (row : Row) (position : Nat)
  | forgotten (row : Row)
deriving DecidableEq

/-- A row by its identity. A version pending is the holder's: none where it has deleted the row. -/
structure Cell where
  committed : Option Row
  lock : Option Nat
  pending : Option (Option Row)
deriving DecidableEq

namespace Cell

def free : Cell := ⟨none, none, none⟩

/-- The version session `s` sees: its own, or the committed one. -/
def seen (c : Cell) (s : Nat) : Option Row :=
  if c.lock = some s then c.pending.getD c.committed else c.committed

/-- The end of session `s`'s transaction. -/
def finish (c : Cell) (s : Nat) (commits : Bool) : Cell :=
  if c.lock = some s then
    ⟨if commits then c.pending.getD c.committed else c.committed, none, none⟩
  else c

/-- Another transaction has made a version of the row, its first or a later one. -/
def changing (c : Cell) (s : Nat) : Bool :=
  c.lock.any (· ≠ s) && (c.pending.isSome || c.committed.isNone)

end Cell

/-- A slot's row: when it was served, and when by the transaction that holds it. -/
structure SlotRow where
  servedAt : Nat
  lock : Option Nat
  touched : Nat
deriving DecidableEq

def SlotRow.finish (slot : SlotRow) (s : Nat) (commits : Bool) : SlotRow :=
  if slot.lock = some s then ⟨if commits then slot.touched else slot.servedAt, none, slot.touched⟩
  else slot

/-- `identities` are those a row was ever inserted under, `statements` numbers the snapshots of marks
and resolves. -/
structure Database where
  cells : CausalDependency → Cell
  identities : List CausalDependency
  slots : Nat → SlotRow
  advisory : BitVec 32 → Option Nat
  sweeping : Option Nat
  journal : Nat → List Event
  log : List Event
  next : Nat
  statements : Nat
  now : Nat

namespace Database

variable (d : Database) (s : Nat)

/-- The tables as they are made, at a time. -/
def fresh (now : Nat) : Database where
  cells _ := Cell.free
  identities := []
  slots _ := ⟨now, none, now⟩
  advisory _ := none
  sweeping := none
  journal _ := []
  log := []
  next := 1
  statements := 0
  now := now

def setCell (identity : CausalDependency) (c : Cell) : Database :=
  { d with cells := Function.update d.cells identity c }

def committed (identity : CausalDependency) : Option Row := (d.cells identity).committed

def seen (identity : CausalDependency) : Option Row := (d.cells identity).seen s

/-- What a statement of session `s` sees. -/
def rows : List Row := d.identities.filterMap (d.seen s)

def isProcessed (identity : CausalDependency) : Bool :=
  (d.seen s identity).any (·.processedPosition.isSome)

/-- A row found in a snapshot is locked and read again, in its latest version: the row may be gone, and
another transaction's lock is waited for. -/
def claim (row : Row) : Option (Database × Option Row) :=
  let c := d.cells row.identity
  match c.seen s with
  | some latest =>
    if latest.receivedPosition ≠ row.receivedPosition then some (d, none)
    else if c.lock = none ∨ c.lock = some s then
      some (d.setCell row.identity { c with lock := some s }, some latest)
    else none
  | none => some (d, none)

/-- The same with `SKIP LOCKED`. -/
def claimUnlocked (row : Row) : Database × Option Row := (d.claim s row).getD (d, none)

/-- A version of a row whose lock the writer holds. -/
def write (identity : CausalDependency) (version : Option Row) : Database :=
  d.setCell identity { d.cells identity with pending := some version }

def record (event : Event) : Database :=
  { d with journal := Function.update d.journal s (d.journal s ++ [event]) }

/-- `pg_advisory_xact_lock`, when it is granted. -/
def lockIdentity (key : BitVec 32) : Option Database :=
  if d.advisory key = none ∨ d.advisory key = some s then
    some { d with advisory := Function.update d.advisory key (some s) }
  else none

def takeSlot (slot now : Nat) : Database :=
  { d with slots := Function.update d.slots slot ⟨(d.slots slot).servedAt, some s, now⟩ }

/-- The insert of a row no other transaction has an insert of, under its lock. -/
def insert (row : Row) : Database :=
  { d with
    cells := Function.update d.cells row.identity ⟨none, some s, some (some row)⟩
    identities := if row.identity ∈ d.identities then d.identities else d.identities ++ [row.identity] }

/-- The end of session `s`'s transaction. -/
def finish (commits : Bool) : Database :=
  { d with
    cells := fun identity => (d.cells identity).finish s commits
    slots := fun slot => (d.slots slot).finish s commits
    advisory := fun key => if d.advisory key = some s then none else d.advisory key
    sweeping := if d.sweeping = some s then none else d.sweeping
    journal := Function.update d.journal s []
    log := if commits then d.log ++ d.journal s else d.log }

end Database

end AsceticDdd.Inbox
