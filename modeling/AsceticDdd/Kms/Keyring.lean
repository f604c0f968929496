import AsceticDdd.Kms.Error
import Mathlib.Data.List.MinMax
import Mathlib.Logic.Function.Basic

/-!
# The rows of one key

A row is a version of the key. A transaction sees the committed rows it has not deleted and the one it has
inserted; its inserts and deletes are committed with it. Whoever makes, rotates or retires holds the key's
advisory lock to the end of the transaction.
-/

namespace AsceticDdd.Kms

/-- A version, and its own material: two rows of one version are two keys. -/
structure Kek where
  version : Nat
  material : Nat
deriving DecidableEq

structure Keyring where
  committed : List Kek
  inserted : Nat → Option Kek
  deleter : Kek → Option Nat
  lock : Option Nat
  next : Nat

/-- The row of the latest version. -/
def currentKek (rows : List Kek) : Option Kek := rows.argmax (·.version)

/-- The latest version among rows. -/
def latestVersion (rows : List Kek) : Option Nat := (rows.map (·.version)).max?

namespace Keyring

variable (k : Keyring) (s : Nat)

/-- The rows a statement of `s` sees. -/
def seen : List Kek := k.committed.filter (fun row => k.deleter row ≠ some s) ++ (k.inserted s).toList

/-- The advisory lock on the key, if no other transaction holds it. -/
def lockKey : Option Keyring :=
  if k.lock = none ∨ k.lock = some s then some { k with lock := some s } else none

def insert (version : Nat) : Keyring :=
  { k with inserted := Function.update k.inserted s (some ⟨version, k.next⟩), next := k.next + 1 }

/-- A row found by a `DELETE` is deleted if it is still there, once no other transaction deletes it. -/
def delete (row : Kek) : Option Keyring :=
  if row ∈ k.committed then
    if k.deleter row = none ∨ k.deleter row = some s then
      some { k with deleter := Function.update k.deleter row (some s) }
    else none
  else some k

/-- The end of a transaction. -/
def finish (commits : Bool) : Keyring where
  committed :=
    if commits then k.committed.filter (fun row => k.deleter row ≠ some s) ++ (k.inserted s).toList
    else k.committed
  inserted := Function.update k.inserted s none
  deleter row := if k.deleter row = some s then none else k.deleter row
  lock := if k.lock = some s then none else k.lock
  next := k.next

variable {k s} {k' : Keyring} {row : Kek} {version : Nat}

theorem mem_seen : row ∈ k.seen s ↔ row ∈ k.committed ∧ k.deleter row ≠ some s ∨ k.inserted s = some row := by
  simp [seen]

theorem finish_committed : (k.finish s true).committed = k.seen s := rfl

theorem mem_finish : row ∈ (k.finish s true).committed ↔
    row ∈ k.committed ∧ k.deleter row ≠ some s ∨ k.inserted s = some row := by
  simp [finish]

/-- What another transaction sees of what is committed still, it sees still. -/
theorem mem_seen_finish {s' : Nat} {commits : Bool} (hs : s' ≠ s) (h : row ∈ k.seen s')
    (hcommitted : row ∈ k.committed → row ∈ (k.finish s commits).committed) :
    row ∈ (k.finish s commits).seen s' := by
  rw [mem_seen] at h ⊢
  rcases h with ⟨hmem, hdeleter⟩ | hinserted
  · refine Or.inl ⟨hcommitted hmem, ?_⟩
    simp only [finish]
    split
    · exact fun h => by cases h
    · exact hdeleter
  · exact Or.inr ((Function.update_of_ne hs ..).trans hinserted)

/-- The end of a transaction leaves the others' lock. -/
theorem finish_lock {s' : Nat} {commits : Bool} (hs : s' ≠ s) (h : k.lock = some s') :
    (k.finish s commits).lock = some s' := by
  simp [finish, h, hs]

theorem lockKey_eq_some (h : k.lockKey s = some k') :
    (k.lock = none ∨ k.lock = some s) ∧ k' = { k with lock := some s } := by
  obtain ⟨hfree, h⟩ := Option.ite_none_right_eq_some.mp h
  cases h
  exact ⟨hfree, rfl⟩

theorem delete_eq_some (h : k.delete s row = some k') :
    row ∉ k.committed ∧ k' = k ∨ row ∈ k.committed ∧ (k.deleter row = none ∨ k.deleter row = some s) ∧
      k' = { k with deleter := Function.update k.deleter row (some s) } := by
  unfold delete at h
  split at h
  · rename_i hmem
    obtain ⟨hfree, h⟩ := Option.ite_none_right_eq_some.mp h
    cases h
    exact Or.inr ⟨hmem, hfree, rfl⟩
  · rename_i hmem
    cases h
    exact Or.inl ⟨hmem, rfl⟩

theorem currentKek_eq_none {rows : List Kek} : currentKek rows = none ↔ rows = [] := List.argmax_eq_none

/-- The current row is there, and no row's version is higher. -/
theorem currentKek_spec {rows : List Kek} (h : currentKek rows = some row) :
    row ∈ rows ∧ ∀ other ∈ rows, other.version ≤ row.version :=
  ⟨List.argmax_mem h, fun _ hother => List.le_of_mem_argmax hother h⟩

end Keyring

/-- What a use of a key asks for the current row: it reads it, and makes the first one under the lock. -/
inductive Getting
  | current
  | locking
  | locked
  | making
deriving DecidableEq

/-- The current row, made if there is none unless the keys are managed elsewhere. A step of it by `s`. -/
def getOrCreateCurrentKek (managedKeys : Bool) (missing : Error) (k : Keyring) (s : Nat) :
    Getting → Option (Keyring × (Getting ⊕ Except Error Kek))
  | .current =>
    match currentKek (k.seen s) with
    | some kek => some (k, .inr (.ok kek))
    | none => if managedKeys then some (k, .inr (.error missing)) else some (k, .inl .locking)
  | .locking => (k.lockKey s).map fun k => (k, .inl .locked)
  | .locked =>
    match currentKek (k.seen s) with
    | some kek => some (k, .inr (.ok kek))
    | none => some (k, .inl .making)
  | .making => some (k.insert s 1, .inr (.ok ⟨1, k.next⟩))

end AsceticDdd.Kms
