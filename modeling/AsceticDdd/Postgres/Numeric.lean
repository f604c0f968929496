import AsceticDdd.Text.Decimal

/-!
# `numeric`

A number keeps how many digits it has after the point: `1` and `1.0` are equal, and print apart.
-/

namespace AsceticDdd.Postgres

open Text

/-- `unscaled / 10 ^ scale` -/
structure Numeric where
  unscaled : Int
  scale : Nat
deriving DecidableEq

/-- A number as a text spells it: `mantissa`, its last `fraction` digits after the point, and an exponent. -/
structure Numeral where
  negative : Bool
  mantissa : Nat
  fraction : Nat
  exponent : Int
deriving DecidableEq

/-- `numeric_in` -/
def Numeral.numeric (n : Numeral) : Numeric :=
  let scale := (n.fraction - n.exponent).toNat
  let digits := n.mantissa * 10 ^ (scale - (n.fraction - n.exponent)).toNat
  ⟨if n.negative then -digits else digits, scale⟩

namespace Numeric

/-- The server's equality. -/
def Same (a b : Numeric) : Prop := a.unscaled * 10 ^ b.scale = b.unscaled * 10 ^ a.scale

instance (a b : Numeric) : Decidable (Same a b) := inferInstanceAs (Decidable (_ = _))

/-- The last `scale` digits of a number. -/
def fraction : Nat → Nat → List Char
  | 0, _ => []
  | scale + 1, n => fraction scale (n / 10) ++ [Nat.digitChar (n % 10)]

/-- `numeric_out` -/
def text (n : Numeric) : List Char :=
  (if n.unscaled < 0 then ['-'] else []) ++ digits (n.unscaled.natAbs / 10 ^ n.scale) ++
    if n.scale = 0 then [] else '.' :: fraction n.scale n.unscaled.natAbs

variable {a b : Numeric}

theorem eq_of_same (same : Same a b) (scale : a.scale = b.scale) : a = b := by
  cases a
  cases b
  subst scale
  rw [Same] at same
  exact congrArg (Numeric.mk · _) (Int.eq_of_mul_eq_mul_right (Int.pow_ne_zero (by decide)) same)

theorem Same.symm (same : Same a b) : Same b a := Eq.symm same

theorem Same.trans {c : Numeric} (first : Same a b) (second : Same b c) : Same a c := by
  unfold Same at *
  apply Int.eq_of_mul_eq_mul_right (Int.pow_ne_zero (by decide) : (10 : Int) ^ b.scale ≠ 0)
  calc a.unscaled * 10 ^ c.scale * 10 ^ b.scale
      = a.unscaled * 10 ^ b.scale * 10 ^ c.scale := Int.mul_right_comm ..
    _ = b.unscaled * 10 ^ c.scale * 10 ^ a.scale := by rw [first, Int.mul_right_comm]
    _ = c.unscaled * 10 ^ a.scale * 10 ^ b.scale := by rw [second, Int.mul_right_comm]

@[simp] theorem length_fraction (scale n : Nat) : (fraction scale n).length = scale := by
  induction scale generalizing n with
  | zero => rfl
  | succ scale ih => rw [fraction, List.length_append, ih]; rfl

/-- How many characters are after the point of a text. -/
def scaleOf (text : List Char) : Nat := ((text.dropWhile (· ≠ '.')).drop 1).length

theorem scaleOf_text (n : Numeric) : scaleOf n.text = n.scale := by
  have before : ∀ c ∈ (if n.unscaled < 0 then ['-'] else []) ++ digits (n.unscaled.natAbs / 10 ^ n.scale), c ≠ '.' := by
    rintro c hc rfl
    obtain sign | digit := List.mem_append.mp hc
    · split at sign
      · exact absurd (List.mem_singleton.mp sign) (by decide)
      · cases sign
    · exact not_mem_digits (by decide) digit
  have past : ∀ rest : List Char, n.text = (if n.unscaled < 0 then ['-'] else []) ++
      digits (n.unscaled.natAbs / 10 ^ n.scale) ++ rest → (n.text.dropWhile (· ≠ '.')) = rest.dropWhile (· ≠ '.') := by
    intro rest same
    rw [same]
    exact List.dropWhile_append_of_pos fun c hc => decide_eq_true (before c hc)
  rw [scaleOf, past _ rfl]
  split
  · simp [*]
  · simp

theorem same_scale_of_text (same : a.text = b.text) : a.scale = b.scale := by
  rw [← scaleOf_text a, same, scaleOf_text]

/-- A character of a number's text. -/
def IsPart (c : Char) : Prop := c.isDigit ∨ c = '-' ∨ c = '.'

theorem isDigit_of_mem_fraction {scale n : Nat} {c : Char} (h : c ∈ fraction scale n) : c.isDigit := by
  induction scale generalizing n with
  | zero => cases h
  | succ scale ih =>
    obtain h | h := List.mem_append.mp h
    · exact ih h
    · obtain rfl := List.mem_singleton.mp h
      exact Nat.isDigit_digitChar.trans (decide_eq_true (Nat.mod_lt _ (by decide)))

theorem isPart_of_mem_text {c : Char} (h : c ∈ a.text) : IsPart c := by
  rw [text, List.mem_append, List.mem_append] at h
  obtain (sign | digit) | point := h
  · split at sign
    · exact .inr (.inl (List.mem_singleton.mp sign))
    · cases sign
  · exact .inl (isDigit_of_mem_digits digit)
  · split at point
    · cases point
    · obtain rfl | digit := List.mem_cons.mp point
      · exact .inr (.inr rfl)
      · exact .inl (isDigit_of_mem_fraction digit)

end Numeric

end AsceticDdd.Postgres
