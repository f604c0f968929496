import Mathlib.Data.List.Basic

/-!
# An advisory lock held to the end of a transaction

Exclusively by one session, or shared by any number. A session never waits for itself.
-/

namespace AsceticDdd.Postgres

structure AdvisoryLock where
  exclusive : Option Nat
  shared : List Nat
  alone : ∀ s, exclusive = some s → ∀ s' ∈ shared, s' = s

namespace AdvisoryLock

def free : AdvisoryLock := ⟨none, [], by simp⟩

variable (l : AdvisoryLock) (s : Nat)

/-- `pg_advisory_xact_lock`, when it is granted. -/
def lock : Option AdvisoryLock :=
  if h : (l.exclusive = none ∨ l.exclusive = some s) ∧ ∀ s' ∈ l.shared, s' = s then
    some ⟨some s, l.shared, fun s' hs' s'' hs'' => by
      cases hs'
      exact h.2 s'' hs''⟩
  else none

/-- `pg_advisory_xact_lock_shared`, when it is granted. -/
def lockShared : Option AdvisoryLock :=
  if h : l.exclusive = none ∨ l.exclusive = some s then
    some ⟨l.exclusive, s :: l.shared, fun s' hs' s'' hs'' => by
      rcases List.mem_cons.mp hs'' with rfl | hs''
      · rcases h with h | h
        · rw [h] at hs'
          cases hs'
        · rw [h] at hs'
          cases hs'
          rfl
      · exact l.alone s' hs' s'' hs''⟩
  else none

/-- A return to a savepoint from before an exclusive lock. -/
def unlock : AdvisoryLock :=
  if l.exclusive = some s then ⟨none, l.shared, by simp⟩ else l

/-- The end of session `s`'s transaction. -/
def release : AdvisoryLock where
  exclusive := if l.exclusive = some s then none else l.exclusive
  shared := l.shared.filter (· ≠ s)
  alone s' hs' s'' hs'' := by
    split at hs'
    · cases hs'
    · exact l.alone s' hs' s'' (List.mem_of_mem_filter hs'')

def Holds (l : AdvisoryLock) (s : Nat) : Prop := l.exclusive = some s ∨ s ∈ l.shared

/-- What the others hold, a step of session `s` neither takes nor gives. -/
structure Keeps (s : Nat) (l l' : AdvisoryLock) : Prop where
  exclusive : ∀ s', s' ≠ s → (l'.exclusive = some s' ↔ l.exclusive = some s')
  shared : ∀ s', s' ≠ s → (s' ∈ l'.shared ↔ s' ∈ l.shared)

variable {l s} {l' : AdvisoryLock}

theorem Keeps.refl (s : Nat) (l : AdvisoryLock) : Keeps s l l := ⟨fun _ _ => .rfl, fun _ _ => .rfl⟩

theorem Keeps.holds (h : Keeps s l l') {s' : Nat} (hs : s' ≠ s) : l'.Holds s' ↔ l.Holds s' :=
  or_congr (h.exclusive s' hs) (h.shared s' hs)

/-- Nobody else holds a lock held exclusively. -/
theorem eq_of_holds {s' : Nat} (h : l.exclusive = some s) (h' : l.Holds s') : s' = s := by
  rcases h' with h' | h'
  · rw [h, Option.some.injEq] at h'
    exact h'.symm
  · exact l.alone s h s' h'

theorem lock_eq_some (h : l.lock s = some l') :
    l'.exclusive = some s ∧ l'.shared = l.shared ∧ (l.exclusive = none ∨ l.exclusive = some s) ∧
      ∀ s' ∈ l.shared, s' = s := by
  rw [lock] at h
  split at h
  · rename_i hguard
    cases h
    exact ⟨rfl, rfl, hguard.1, hguard.2⟩
  · cases h

theorem lock_keeps (h : l.lock s = some l') : Keeps s l l' := by
  obtain ⟨hexclusive, hshared, hfree, _⟩ := lock_eq_some h
  refine ⟨fun s' hs => ?_, fun s' _ => by rw [hshared]⟩
  rw [hexclusive, Option.some.injEq]
  rcases hfree with hfree | hfree <;> simp [hfree, Ne.symm hs]

theorem lockShared_eq_some (h : l.lockShared s = some l') :
    l'.exclusive = l.exclusive ∧ l'.shared = s :: l.shared ∧
      (l.exclusive = none ∨ l.exclusive = some s) := by
  rw [lockShared] at h
  split at h
  · rename_i hguard
    cases h
    exact ⟨rfl, rfl, hguard⟩
  · cases h

theorem lockShared_keeps (h : l.lockShared s = some l') : Keeps s l l' := by
  obtain ⟨hexclusive, hshared, _⟩ := lockShared_eq_some h
  refine ⟨fun s' _ => by rw [hexclusive], fun s' hs => ?_⟩
  rw [hshared, List.mem_cons]
  simp [hs]

theorem unlock_keeps : Keeps s l (l.unlock s) := by
  rw [unlock]
  split
  · rename_i hheld
    refine ⟨fun s' hs => ?_, fun _ _ => .rfl⟩
    simp [hheld, Ne.symm hs]
  · exact Keeps.refl s l

theorem release_keeps : Keeps s l (l.release s) := by
  refine ⟨fun s' hs => ?_, fun s' hs => ?_⟩
  · change (if l.exclusive = some s then none else l.exclusive) = some s' ↔ _
    split
    · rename_i hheld
      simp [hheld, Ne.symm hs]
    · rfl
  · simp [release, hs]

theorem not_holds_release : ¬(l.release s).Holds s := by
  rintro (h | h)
  · change (if l.exclusive = some s then none else l.exclusive) = some s at h
    split at h
    · cases h
    · contradiction
  · simp [release] at h

theorem not_holds_free {s : Nat} : ¬free.Holds s := by
  rintro (h | h) <;> cases h

end AdvisoryLock

end AsceticDdd.Postgres
