import Mathlib.Data.Nat.Basic

/-!
# Runs without end

A machine takes one action at a time. An invariant is a fact about its finite runs; that something comes about
at last is a fact about its endless ones, and needs that some action is taken again and again.
-/

namespace AsceticDdd.Concurrency

universe u v

variable {σ : Type u} {α : Type v}

/-- One partial step: none where the action is not possible. -/
structure Machine (σ : Type u) (α : Type v) where
  step : σ → α → Option σ

namespace Machine

variable {M : Machine σ α} {ok : σ → α → Prop}

/-- The states reached by steps that `ok` allows. -/
inductive Reach (M : Machine σ α) (ok : σ → α → Prop) (start : σ) : σ → Prop
  | refl : Reach M ok start start
  | step {s s' : σ} {a : α} : Reach M ok start s → ok s a → M.step s a = some s' → Reach M ok start s'

theorem Reach.invariant {I : σ → Prop} {start s : σ}
    (kept : ∀ s a s', I s → ok s a → M.step s a = some s' → I s') (reach : M.Reach ok start s) (first : I start) :
    I s := by
  induction reach with
  | refl => exact first
  | step _ allowed taken ih => exact kept _ _ _ ih allowed taken

/-- The state a list of actions that pass a check leads to. -/
def exec (M : Machine σ α) (check : σ → α → Bool) : σ → List α → Option σ
  | s, [] => some s
  | s, a :: rest => if check s a then (M.step s a).bind fun s' => exec M check s' rest else none

theorem reach_of_exec {check : σ → α → Bool} {start s : σ} {actions : List α} (allowed : ∀ s a, check s a → ok s a)
    (done : M.exec check start actions = some s) : M.Reach ok start s := by
  suffices reach : ∀ middle, M.Reach ok start middle → M.exec check middle actions = some s → M.Reach ok start s from
    reach start .refl done
  clear done
  induction actions with
  | nil =>
    intro middle before done
    cases done
    exact before
  | cons a rest ih =>
    intro middle before done
    simp only [exec, Option.ite_none_right_eq_some] at done
    obtain ⟨checked, done⟩ := done
    obtain ⟨next, taken, done⟩ := Option.bind_eq_some_iff.mp done
    exact ih next (before.step (allowed _ _ checked) taken) done

/-- A run without end, which may stand still between two actions. -/
structure Behaviour (M : Machine σ α) (ok : σ → α → Prop) where
  state : Nat → σ
  action : Nat → Option α
  stand : ∀ n, action n = none → state (n + 1) = state n
  move : ∀ n a, action n = some a → ok (state n) a ∧ M.step (state n) a = some (state (n + 1))

namespace Behaviour

theorem always {I : σ → Prop} (b : M.Behaviour ok) (kept : ∀ s a s', I s → ok s a → M.step s a = some s' → I s')
    {n m : Nat} (here : I (b.state n)) (later : n ≤ m) : I (b.state m) := by
  induction later with
  | refl => exact here
  | @step m _ ih =>
    cases taken : b.action m with
    | none => rwa [b.stand m taken]
    | some a =>
      obtain ⟨allowed, stepped⟩ := b.move m a taken
      exact kept _ _ _ ih allowed stepped

/-- What holds goes on holding until the goal is reached. -/
theorem until_goal {P Q : σ → Prop} (b : M.Behaviour ok)
    (kept : ∀ s a s', P s → ok s a → M.step s a = some s' → Q s' ∨ P s') {n m : Nat} (here : P (b.state n))
    (later : n ≤ m) : P (b.state m) ∨ ∃ k, n ≤ k ∧ Q (b.state k) := by
  induction later with
  | refl => exact .inl here
  | @step m later ih =>
    obtain holds | reached := ih
    · cases taken : b.action m with
      | none => exact .inl (by rwa [b.stand m taken])
      | some a =>
        obtain ⟨allowed, stepped⟩ := b.move m a taken
        obtain goal | holds := kept _ _ _ holds allowed stepped
        · exact .inr ⟨m + 1, Nat.le_succ_of_le later, goal⟩
        · exact .inl holds
    · exact .inr reached

/-- A rank that no step raises and each helpful one lowers comes to the goal, where helpful steps are taken for
as long as the goal is not reached. -/
theorem leads_to (b : M.Behaviour ok) (P Q : σ → Prop) (helpful : α → Prop) (rank : σ → Nat)
    (kept : ∀ s a s', P s → ok s a → M.step s a = some s' → Q s' ∨ P s' ∧ rank s' ≤ rank s)
    (lowered : ∀ s a s', P s → helpful a → ok s a → M.step s a = some s' → Q s' ∨ rank s' < rank s)
    (fair : ∀ n, P (b.state n) → ∃ m, n ≤ m ∧ ((∃ a, b.action m = some a ∧ helpful a) ∨ ¬P (b.state m)))
    {n : Nat} (here : P (b.state n)) : ∃ m, n ≤ m ∧ Q (b.state m) := by
  induction level : rank (b.state n) using Nat.strongRecOn generalizing n with
  | ind level' ih =>
    subst level
    obtain ⟨m, later, helps⟩ := fair n here
    have kept' : ∀ s a s', P s ∧ rank s ≤ rank (b.state n) → ok s a → M.step s a = some s' →
        Q s' ∨ P s' ∧ rank s' ≤ rank (b.state n) := by
      rintro s a s' ⟨holds, below⟩ allowed stepped
      obtain goal | ⟨holds, lower⟩ := kept s a s' holds allowed stepped
      · exact .inl goal
      · exact .inr ⟨holds, Nat.le_trans lower below⟩
    obtain ⟨holds, below⟩ | reached :=
      b.until_goal (P := fun s => P s ∧ rank s ≤ rank (b.state n)) kept' ⟨here, Nat.le_refl _⟩ later
    · obtain ⟨a, taken, useful⟩ | fails := helps
      · obtain ⟨allowed, stepped⟩ := b.move m a taken
        obtain goal | less := lowered _ _ _ holds useful allowed stepped
        · exact ⟨m + 1, Nat.le_succ_of_le later, goal⟩
        · obtain goal | ⟨holds', -⟩ := kept _ _ _ holds allowed stepped
          · exact ⟨m + 1, Nat.le_succ_of_le later, goal⟩
          · obtain ⟨k, after, goal⟩ := ih _ (Nat.lt_of_lt_of_le less below) holds' rfl
            exact ⟨k, by omega, goal⟩
      · exact absurd holds fails
    · exact reached

end Behaviour

end Machine

end AsceticDdd.Concurrency
