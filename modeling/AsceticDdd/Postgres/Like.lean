import Mathlib.Algebra.Ring.Nat
import Mathlib.Data.List.Infix

/-!
# `LIKE`

`%` matches any text, `_` any character, and `\` makes the next character of the pattern stand
for itself.
-/

namespace AsceticDdd.Postgres

/-- `text LIKE pattern`, the pattern first. -/
def like : List Char → List Char → Bool
  | [], text => text.isEmpty
  | '%' :: pattern, text => text.tails.any (like pattern)
  | '_' :: pattern, text => match text with
    | [] => false
    | _ :: rest => like pattern rest
  | '\\' :: c :: pattern, text => match text with
    | [] => false
    | d :: rest => c == d && like pattern rest
  | c :: pattern, text => match text with
    | [] => false
    | d :: rest => c == d && like pattern rest

example : like "kafka://a\\_b/%".toList "kafka://a_b/7".toList = true := by decide

/-- A character that stands for itself in a pattern. -/
def Literal (c : Char) : Prop := c ≠ '%' ∧ c ≠ '_' ∧ c ≠ '\\'

instance (c : Char) : Decidable (Literal c) := inferInstanceAs (Decidable (_ ∧ _))

variable {pattern text rest : List Char} {c : Char}

theorem like_literal (literal : Literal c) :
    like (c :: pattern) text = true ↔ ∃ rest, text = c :: rest ∧ like pattern rest = true := by
  obtain ⟨any, one, escape⟩ := literal
  have single : ∀ d rest, c = '\\' → pattern = d :: rest → False := fun _ _ here _ => escape here
  cases text with
  | nil => simp [like.eq_7 _ _ any one single]
  | cons d text =>
    rw [like.eq_8 _ _ _ _ any one single, Bool.and_eq_true, beq_iff_eq]
    constructor
    · rintro ⟨rfl, matched⟩
      exact ⟨text, rfl, matched⟩
    · rintro ⟨rest, same, matched⟩
      cases same
      exact ⟨rfl, matched⟩

theorem like_append_literal (literal : ∀ c ∈ text, Literal c) :
    like (text ++ pattern) rest = true ↔ ∃ last, rest = text ++ last ∧ like pattern last = true := by
  induction text generalizing rest with
  | nil => simp
  | cons c text ih =>
    have others : ∀ d ∈ text, Literal d := fun d hd => literal d (List.mem_cons_of_mem _ hd)
    rw [List.cons_append, like_literal (literal c List.mem_cons_self)]
    constructor
    · rintro ⟨rest, rfl, whole⟩
      obtain ⟨last, rfl, matched⟩ := (ih others).mp whole
      exact ⟨last, rfl, matched⟩
    · rintro ⟨last, rfl, matched⟩
      exact ⟨text ++ last, rfl, (ih others).mpr ⟨last, rfl, matched⟩⟩

theorem like_any : like ['%'] text = true := by
  rw [like]
  exact List.any_eq_true.mpr ⟨[], (List.mem_tails _ _).mpr List.nil_suffix, rfl⟩

/-- A text that a pattern matches: nothing for `%`, a letter for `_`. -/
def sample : List Char → List Char
  | [] => []
  | '%' :: pattern => sample pattern
  | '_' :: pattern => 'a' :: sample pattern
  | '\\' :: c :: pattern => c :: sample pattern
  | c :: pattern => c :: sample pattern

theorem like_sample : like pattern (sample pattern) = true := by
  fun_induction sample pattern with
  | case1 => rfl
  | case2 pattern ih =>
    rw [like]
    exact List.any_eq_true.mpr ⟨_, (List.mem_tails _ _).mpr (List.suffix_refl _), ih⟩
  | case3 pattern ih => rwa [like]
  | case4 c pattern ih => simpa [like] using ih
  | case5 c pattern any one escape ih => simpa [like.eq_8 _ _ _ _ any one escape] using ih

/-- A weight by which a special character is more than what stands for it. -/
def weight (text : List Char) : Nat := (text.map fun c => if c = '_' then 2 else 1).sum

@[simp] theorem weight_cons : weight (c :: text) = (if c = '_' then 2 else 1) + weight text := rfl

@[simp] theorem weight_append : weight (text ++ rest) = weight text + weight rest := by
  simp [weight]

theorem sample_literal (literal : Literal c) : sample (c :: pattern) = c :: sample pattern := by
  obtain ⟨any, one, escape⟩ := literal
  exact sample.eq_5 _ _ any one fun _ _ here _ => escape here

/-- What stands for a pattern has the `/` it ends with, and weighs no more than it; a pattern with a special character
weighs more. -/
theorem sample_spec (text : List Char) :
    (sample (text ++ ['/', '%'])).count '/' = text.count '/' + 1 ∧
      weight (sample (text ++ ['/', '%'])) ≤ weight text + 1 ∧
      ((∃ c ∈ text, ¬ Literal c) → weight (sample (text ++ ['/', '%'])) < weight text + 1) := by
  fun_induction sample text with
  | case1 => exact ⟨rfl, le_rfl, by simp⟩
  | case2 text ih =>
    obtain ⟨count, light, _⟩ := ih
    simp only [List.cons_append, sample, weight_cons]
    refine ⟨by rw [count]; rfl, by omega, fun _ => ?_⟩
    simp
    omega
  | case3 text ih =>
    obtain ⟨count, light, _⟩ := ih
    simp only [List.cons_append, sample, weight_cons]
    refine ⟨?_, ?_, fun _ => ?_⟩
    · rw [List.count_cons_of_ne (by decide), List.count_cons_of_ne (by decide), count]
    · simp
      omega
    · simp
      omega
  | case4 c text ih =>
    obtain ⟨count, light, _⟩ := ih
    simp only [List.cons_append, sample, weight_cons]
    refine ⟨?_, ?_, fun _ => ?_⟩
    · rw [List.count_cons, List.count_cons_of_ne (show '\\' ≠ '/' by decide), List.count_cons, count]
      omega
    · simp
      omega
    · simp
      omega
  | case5 c text any one escape ih =>
    by_cases escaped : c = '\\'
    · subst escaped
      cases text with
      | nil => exact ⟨rfl, by decide, fun _ => by decide⟩
      | cons d text => exact (escape d text rfl rfl).elim
    · obtain ⟨count, light, lighter⟩ := ih
      rw [List.cons_append, sample_literal ⟨any, one, escaped⟩, List.count_cons, List.count_cons, count, weight_cons,
        weight_cons]
      refine ⟨by omega, by omega, ?_⟩
      rintro ⟨d, hd, special⟩
      obtain rfl | hd := List.mem_cons.mp hd
      · exact absurd ⟨any, one, escaped⟩ special
      · have := lighter ⟨d, hd, special⟩
        omega

end AsceticDdd.Postgres
