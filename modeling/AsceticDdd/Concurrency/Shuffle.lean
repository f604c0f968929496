import Mathlib.Data.List.Basic

/-!
# Traces run side by side
-/

namespace AsceticDdd

variable {ε : Type}

/-- The third trace runs the first two side by side, each in its own order. -/
inductive Shuffle : List ε → List ε → List ε → Prop
  | nil : Shuffle [] [] []
  | left {e : ε} {s t w : List ε} : Shuffle s t w → Shuffle (e :: s) t (e :: w)
  | right {e : ε} {s t w : List ε} : Shuffle s t w → Shuffle s (e :: t) (e :: w)

namespace Shuffle

variable {s t w : List ε}

theorem nil_right (s : List ε) : Shuffle s [] s := by
  induction s with
  | nil => exact .nil
  | cons e s ih => exact ih.left

theorem symm (h : Shuffle s t w) : Shuffle t s w := by
  induction h with
  | nil => exact .nil
  | left _ ih => exact ih.right
  | right _ ih => exact ih.left

theorem mem_iff (h : Shuffle s t w) {e : ε} : e ∈ w ↔ e ∈ s ∨ e ∈ t := by
  induction h with
  | nil => simp
  | left _ ih =>
    simp only [List.mem_cons, ih]
    rw [or_assoc]
  | right _ ih =>
    simp only [List.mem_cons, ih]
    rw [or_left_comm]

theorem count_eq [DecidableEq ε] (h : Shuffle s t w) (e : ε) : w.count e = s.count e + t.count e := by
  induction h with
  | nil => rfl
  | left _ ih =>
    rw [List.count_cons, List.count_cons, ih]
    omega
  | right _ ih =>
    rw [List.count_cons, List.count_cons, ih]
    omega

/-- A cut of the trace cuts both of its parts. -/
theorem split {x y : List ε} (h : Shuffle s t (x ++ y)) :
    ∃ s₁ s₂ t₁ t₂, s = s₁ ++ s₂ ∧ t = t₁ ++ t₂ ∧ Shuffle s₁ t₁ x ∧ Shuffle s₂ t₂ y := by
  induction x generalizing s t with
  | nil => exact ⟨[], s, [], t, rfl, rfl, .nil, h⟩
  | cons e x ih =>
    cases h with
    | left h =>
      obtain ⟨s₁, s₂, t₁, t₂, rfl, rfl, hx, hy⟩ := ih h
      exact ⟨e :: s₁, s₂, t₁, t₂, rfl, rfl, hx.left, hy⟩
    | right h =>
      obtain ⟨s₁, s₂, t₁, t₂, rfl, rfl, hx, hy⟩ := ih h
      exact ⟨s₁, s₂, e :: t₁, t₂, rfl, rfl, hx.right, hy⟩

end Shuffle

/-- Two traces that take turns, as long as both have events. -/
def alternate : List ε → List ε → List ε
  | [], t => t
  | s, [] => s
  | a :: s, b :: t => a :: b :: alternate s t

theorem shuffle_alternate : ∀ s t : List ε, Shuffle s t (alternate s t)
  | [], t => (Shuffle.nil_right t).symm
  | a :: s, [] => .nil_right (a :: s)
  | _ :: s, _ :: t => .left (.right (shuffle_alternate s t))

end AsceticDdd
