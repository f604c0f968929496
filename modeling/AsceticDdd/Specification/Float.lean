import AsceticDdd.Specification.Compute
import AsceticDdd.Text.Decimal

/-!
# Doubles in decimal
-/

namespace AsceticDdd.Specification.F64

open Text

/-- The power of two that brings a ratio between `2 ^ 52` and `2 ^ 53`. -/
def scale (numerator denominator : Nat) : Int :=
  let power : Int := Nat.log2 numerator - Nat.log2 denominator
  if numerator * 2 ^ (-power).toNat < denominator * 2 ^ power.toNat then power - 53 else power - 52

/-- A ratio to the nearest whole number, of two the even one. -/
def roundHalfEven (numerator denominator : Nat) : Nat :=
  let quotient := numerator / denominator
  let remainder := numerator % denominator
  if 2 * remainder < denominator ∨ 2 * remainder = denominator ∧ quotient % 2 = 0 then quotient else quotient + 1

/-- The bits of the double nearest to a ratio, or of infinity. -/
def nearestBits (numerator denominator : Nat) : Nat :=
  if numerator = 0 then 0
  else
    let power := max (scale numerator denominator) (-1074)
    let rounded := roundHalfEven (numerator * 2 ^ (-power).toNat) (denominator * 2 ^ power.toNat)
    min ((power + 1074).toNat * 2 ^ 52 + rounded) infinity

/-- The double nearest to `mantissa * 10 ^ exponent`, or infinity. -/
def nearest (negative : Bool) (mantissa : Nat) (exponent : Int) : F64 :=
  let bits := nearestBits (mantissa * 10 ^ exponent.toNat) (10 ^ (-exponent).toNat)
  ⟨BitVec.ofNat 64 (if negative then 2 ^ 63 + bits else bits)⟩

example : nearest false 1 (-1) = ⟨0x3fb999999999999a⟩ := by decide +kernel

example : (nearest false 17976931348623157 292).isFinite ∧ ¬(nearest false 17976931348623159 292).isFinite := by
  decide +kernel

/-- Digits, and a fraction, and the text after them. -/
def mantissa (text : List Char) : List Char × List Char × List Char :=
  let whole := text.takeWhile Char.isDigit
  match text.dropWhile Char.isDigit with
  | '.' :: rest => (whole, rest.takeWhile Char.isDigit, rest.dropWhile Char.isDigit)
  | rest => (whole, [], rest)

/-- The power of ten at the end of a number. -/
def exponent : List Char → Option Int
  | [] => some 0
  | 'e' :: text | 'E' :: text => signed text
  | _ => none

def sign : List Char → Bool × List Char
  | '-' :: text => (true, text)
  | '+' :: text => (false, text)
  | text => (false, text)

/-- `f64::from_str`, of a number in digits. -/
def parse (text : List Char) : Option F64 :=
  let (negative, text) := sign text
  let (whole, fraction, rest) := mantissa text
  if whole = [] ∧ fraction = [] then none
  else (exponent rest).map fun power =>
    nearest negative (Nat.ofDigitChars 10 (whole ++ fraction) 0) (power - fraction.length)

end AsceticDdd.Specification.F64
