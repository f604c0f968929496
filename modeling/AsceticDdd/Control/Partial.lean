import Mathlib.Data.Option.Basic

/-!
# Computations that return a value, or nothing, or fail
-/

namespace AsceticDdd.Control

variable {ε α β : Type}

def Returns (x : OptionT (Except ε) α) (a : α) : Prop := x.run = .ok (some a)

def Fails (x : OptionT (Except ε) α) : Prop := ∃ error, x.run = .error error

variable {x : OptionT (Except ε) α} {f : α → OptionT (Except ε) β} {a a' : α} {b : β} {p : Prop} [Decidable p]

theorem Returns.unique (h : Returns x a) (h' : Returns x a') : a = a' := by
  have hsame := h.symm.trans h'
  cases hsame
  rfl

theorem Returns.not_fails (h : Returns x a) : ¬ Fails x := by
  rintro ⟨error, herror⟩
  cases h.symm.trans herror

@[simp] theorem returns_bind : Returns (x >>= f) b ↔ ∃ a, Returns x a ∧ Returns (f a) b := by
  rw [Returns, OptionT.run_bind]
  cases hx : x.run with
  | error error =>
    constructor
    · rintro ⟨⟩
    · rintro ⟨a, ha, _⟩
      cases hx.symm.trans ha
  | ok value =>
    cases value with
    | none =>
      constructor
      · rintro ⟨⟩
      · rintro ⟨a, ha, _⟩
        cases hx.symm.trans ha
    | some a =>
      constructor
      · exact fun h => ⟨a, hx, h⟩
      · rintro ⟨a', ha, h⟩
        cases hx.symm.trans ha
        exact h

@[simp] theorem fails_bind : Fails (x >>= f) ↔ Fails x ∨ ∃ a, Returns x a ∧ Fails (f a) := by
  unfold Fails
  rw [OptionT.run_bind]
  cases hx : x.run with
  | error error =>
    constructor
    · exact fun _ => .inl ⟨error, rfl⟩
    · exact fun _ => ⟨error, rfl⟩
  | ok value =>
    cases value with
    | none =>
      constructor
      · rintro ⟨_, ⟨⟩⟩
      · rintro (⟨_, ⟨⟩⟩ | ⟨a, ha, _⟩)
        cases hx.symm.trans ha
    | some a =>
      constructor
      · exact fun h => .inr ⟨a, hx, h⟩
      · rintro (⟨_, ⟨⟩⟩ | ⟨a', ha, h⟩)
        cases hx.symm.trans ha
        exact h

@[simp] theorem returns_pure : Returns (pure a : OptionT (Except ε) α) a' ↔ a = a' := by
  constructor
  · rintro ⟨⟩
    rfl
  · rintro rfl
    rfl

@[simp] theorem not_fails_pure : ¬ Fails (pure a : OptionT (Except ε) α) := by
  rintro ⟨_, ⟨⟩⟩

@[simp] theorem not_returns_failure : ¬ Returns (failure : OptionT (Except ε) α) a := by
  rintro ⟨⟩

@[simp] theorem not_fails_failure : ¬ Fails (failure : OptionT (Except ε) α) := by
  rintro ⟨_, ⟨⟩⟩

@[simp] theorem returns_guard {u : Unit} : Returns (guard p : OptionT (Except ε) Unit) u ↔ p := by
  unfold guard
  split
  · rename_i hp
    exact ⟨fun _ => hp, fun _ => rfl⟩
  · rename_i hp
    exact ⟨fun h => absurd h not_returns_failure, fun h => absurd h hp⟩

@[simp] theorem not_fails_guard : ¬ Fails (guard p : OptionT (Except ε) Unit) := by
  unfold guard
  split
  · exact not_fails_pure
  · exact not_fails_failure

end AsceticDdd.Control
