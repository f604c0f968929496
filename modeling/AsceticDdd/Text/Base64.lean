import Mathlib.Data.List.Basic

/-!
# Base64

For a library's encoding, that bytes are read back from it; and one of the standard alphabet, with padding.
-/

namespace AsceticDdd.Text

/-- What does not decode is refused with the reason. -/
structure Base64 where
  encode : List UInt8 → List Char
  decode : List Char → Except String (List UInt8)
  decode_encode : ∀ bytes, decode (encode bytes) = .ok bytes

namespace Base64

def digit (n : Nat) : Char :=
  if n < 26 then Char.ofNat (65 + n)
  else if n < 52 then Char.ofNat (71 + n)
  else if n < 62 then Char.ofNat (n - 4)
  else if n = 62 then '+' else '/'

def value (c : Char) : Option Nat :=
  if c.isUpper then some (c.toNat - 65)
  else if c.isLower then some (c.toNat - 71)
  else if c.isDigit then some (c.toNat + 4)
  else if c = '+' then some 62
  else if c = '/' then some 63
  else none

def encodeStandard : List UInt8 → List Char
  | [] => []
  | [a] => [digit (a.toNat / 4), digit (a.toNat % 4 * 16), '=', '=']
  | [a, b] => [digit (a.toNat / 4), digit (a.toNat % 4 * 16 + b.toNat / 16), digit (b.toNat % 16 * 4), '=']
  | a :: b :: c :: rest =>
    digit (a.toNat / 4) :: digit (a.toNat % 4 * 16 + b.toNat / 16) :: digit (b.toNat % 16 * 4 + c.toNat / 64) ::
      digit (c.toNat % 64) :: encodeStandard rest

/-- The bits left over are zero. -/
def decodeOne (w x : Char) : Option (List UInt8) := do
  let w ← value w
  let x ← value x
  if x % 16 = 0 then some [UInt8.ofNat (w * 4 + x / 16)] else none

def decodeTwo (w x y : Char) : Option (List UInt8) := do
  let w ← value w
  let x ← value x
  let y ← value y
  if y % 4 = 0 then some [UInt8.ofNat (w * 4 + x / 16), UInt8.ofNat (x % 16 * 16 + y / 4)] else none

def decodeThree (w x y z : Char) : Option (List UInt8) := do
  let w ← value w
  let x ← value x
  let y ← value y
  let z ← value z
  some [UInt8.ofNat (w * 4 + x / 16), UInt8.ofNat (x % 16 * 16 + y / 4), UInt8.ofNat (y % 4 * 64 + z)]

def decodeStandard : List Char → Option (List UInt8)
  | [] => some []
  | w :: x :: y :: z :: rest =>
    if rest = [] ∧ z = '=' then
      if y = '=' then decodeOne w x else decodeTwo w x y
    else do
      let bytes ← decodeThree w x y z
      return bytes ++ (← decodeStandard rest)
  | _ => none

theorem value_digit {n : Nat} (small : n < 64) : value (digit n) = some n := by
  have values : ∀ i : Fin 64, value (digit i) = some i.val := by decide
  exact values ⟨n, small⟩

theorem digit_ne {n : Nat} (small : n < 64) : digit n ≠ '=' := by
  intro padding
  have values := value_digit small
  rw [padding] at values
  cases values

theorem ofNat_eq {n : Nat} (byte : UInt8) (same : n = byte.toNat) : UInt8.ofNat n = byte := by
  rw [same, UInt8.ofNat_toNat]

theorem decodeStandard_encodeStandard (bytes : List UInt8) :
    decodeStandard (encodeStandard bytes) = some bytes := by
  induction bytes using encodeStandard.induct with
  | case1 => rfl
  | case2 a =>
    have ha := a.toNat_lt
    rw [encodeStandard, decodeStandard, if_pos ⟨rfl, rfl⟩, if_pos rfl, decodeOne, value_digit (by omega), value_digit (by omega)]
    show (if a.toNat % 4 * 16 % 16 = 0 then _ else _) = _
    rw [if_pos (by omega), ofNat_eq a (by omega)]
  | case3 a b =>
    have ha := a.toNat_lt
    have hb := b.toNat_lt
    rw [encodeStandard, decodeStandard, if_pos ⟨rfl, rfl⟩, if_neg (digit_ne (by omega)), decodeTwo, value_digit (by omega),
      value_digit (by omega), value_digit (by omega)]
    show (if b.toNat % 16 * 4 % 4 = 0 then _ else _) = _
    rw [if_pos (by omega), ofNat_eq a (by omega), ofNat_eq b (by omega)]
  | case4 a b c rest ih =>
    have ha := a.toNat_lt
    have hb := b.toNat_lt
    have hc := c.toNat_lt
    rw [encodeStandard, decodeStandard, if_neg fun h => digit_ne (by omega) h.2, decodeThree, value_digit (by omega),
      value_digit (by omega), value_digit (by omega), value_digit (by omega), ih]
    show some ([_, _, _] ++ rest) = _
    rw [ofNat_eq a (by omega), ofNat_eq b (by omega), ofNat_eq c (by omega)]
    rfl

example : encodeStandard [77, 97] = "TWE=".toList := by decide

/-- The reason is not said. -/
def standard : Base64 where
  encode := encodeStandard
  decode text := (decodeStandard text).elim (.error "") .ok
  decode_encode bytes := by rw [decodeStandard_encodeStandard]; rfl

end Base64

end AsceticDdd.Text
