import Mathlib.Logic.Relation

/-!
# Cycles of who waits for whom

On a cycle each has another waiting for it, which is on the cycle too. A rank that rises from one to
the next on cycles alone rules them out.
-/

namespace AsceticDdd.WaitsFor

open Relation

universe u

variable {α : Type u} {r : α → α → Prop} {a b : α}

/-- One of those who wait for each other. -/
def OnCycle (r : α → α → Prop) (a : α) : Prop := TransGen r a a

theorem OnCycle.pred (h : OnCycle r a) : ∃ b, r b a ∧ OnCycle r b := by
  obtain ⟨b, hab, hba⟩ := TransGen.tail'_iff.mp h
  exact ⟨b, hba, TransGen.head' hba hab⟩

/-- What is between two of a cycle is on it. -/
theorem rank_lt {rank : α → Nat} (hrank : ∀ a b, r a b → OnCycle r a → OnCycle r b → rank a < rank b)
    (h : TransGen r a b) (hback : ReflTransGen r b a) : rank a < rank b := by
  induction h with
  | single hab =>
    exact hrank _ _ hab (TransGen.head' hab hback) (TransGen.tail' hback hab)
  | @tail b c hab hbc ih =>
    have hb : OnCycle r b := TransGen.head' hbc (hback.trans hab.to_reflTransGen)
    have hc : OnCycle r c := TransGen.tail' (hback.trans hab.to_reflTransGen) hbc
    exact Nat.lt_trans (ih (ReflTransGen.head hbc hback)) (hrank b c hbc hb hc)

theorem no_cycle {rank : α → Nat}
    (hrank : ∀ a b, r a b → OnCycle r a → OnCycle r b → rank a < rank b) (a : α) : ¬TransGen r a a :=
  fun h => Nat.lt_irrefl _ (rank_lt hrank h .refl)

end AsceticDdd.WaitsFor
