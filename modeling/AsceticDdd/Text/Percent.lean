import AsceticDdd.Text.Code
import AsceticDdd.Text.Utf8

/-!
# Percent-encoding

A text's bytes, with those outside ASCII and those of a set encoded: for a library's, what is known of it, and one that
writes two digits in hexadecimal.
-/

namespace AsceticDdd.Text

/-- Texts stay apart if the sign is in the set, and one of characters that are kept is its own encoding. -/
class PercentEncoding where
  encode : (set : UInt8 → Bool) → (text : List Char) → List Char
  injective : ∀ {set}, set '%'.toUInt8 = true → Function.Injective (encode set)
  kept : ∀ {set text}, (∀ c ∈ text, c.toNat < 128 ∧ set c.toUInt8 = false) → encode set text = text

theorem toUpper_digitChar_inj {m n : Nat} (hm : m < 16) (hn : n < 16)
    (same : (Nat.digitChar m).toUpper = (Nat.digitChar n).toUpper) : m = n := by
  have digits : ∀ i j : Fin 16, (Nat.digitChar i).toUpper = (Nat.digitChar j).toUpper → i = j := by decide
  exact congrArg Fin.val (digits ⟨m, hm⟩ ⟨n, hn⟩ same)

/-- A sign, and two digits in hexadecimal. -/
def hexByte (byte : UInt8) : List Char :=
  ['%', (Nat.digitChar (byte.toNat / 16)).toUpper, (Nat.digitChar (byte.toNat % 16)).toUpper]

theorem hexByte_injective {byte other : UInt8} (same : hexByte byte = hexByte other) : byte = other := by
  simp only [hexByte, List.cons.injEq, and_true, true_and] at same
  have small := byte.toNat_lt
  have small' := other.toNat_lt
  have high := toUpper_digitChar_inj (by omega) (by omega) same.1
  have low := toUpper_digitChar_inj (by omega) (by omega) same.2
  apply UInt8.toNat_inj.mp
  omega

theorem ofUInt8_injective {byte other : UInt8} (same : Char.ofUInt8 byte = Char.ofUInt8 other) : byte = other :=
  UInt8.toNat_inj.mp (congrArg Char.toNat same)

theorem ofUInt8_toUInt8 {c : Char} (ascii : c.toNat < 128) : Char.ofUInt8 c.toUInt8 = c := by
  apply Char.ext
  apply UInt32.toNat_inj.mp
  exact Nat.mod_eq_of_lt (Nat.lt_trans ascii (by decide))

section Encode

variable {set : UInt8 → Bool} {a b text : List Char}

def percentEncodeByte (set : UInt8 → Bool) (byte : UInt8) : List Char :=
  if byte.toNat < 128 ∧ set byte = false then [Char.ofUInt8 byte] else hexByte byte

def percentEncode (set : UInt8 → Bool) (text : List Char) : List Char :=
  (utf8 text).flatMap (percentEncodeByte set)

theorem percentEncodeByte_isCode (sign : set '%'.toUInt8 = true) : IsCode (percentEncodeByte set) where
  nonempty byte := by
    unfold percentEncodeByte
    split
    · exact List.cons_ne_nil _ _
    · exact List.cons_ne_nil _ _
  cancel {byte other s t} same := by
    have kept : ∀ byte : UInt8, set byte = false → Char.ofUInt8 byte ≠ '%' := by
      intro byte out heq
      have hsign : byte = '%'.toUInt8 := ofUInt8_injective heq
      rw [hsign, sign] at out
      cases out
    unfold percentEncodeByte at same
    split at same
    case isTrue first =>
      split at same
      case isTrue second =>
        obtain ⟨chars, rest⟩ := List.cons.inj same
        exact ⟨ofUInt8_injective chars, rest⟩
      case isFalse second => exact absurd (List.cons.inj same).1 (kept byte first.2)
    case isFalse first =>
      split at same
      case isTrue second => exact absurd (List.cons.inj same).1.symm (kept other second.2)
      case isFalse second =>
        obtain ⟨codes, rest⟩ := List.append_inj same rfl
        exact ⟨hexByte_injective codes, rest⟩

theorem percentEncode_injective (sign : set '%'.toUInt8 = true) (same : percentEncode set a = percentEncode set b) :
    a = b :=
  utf8_injective ((percentEncodeByte_isCode sign).flatMap_injective same)

theorem percentEncode_eq_self (kept : ∀ c ∈ text, c.toNat < 128 ∧ set c.toUInt8 = false) :
    percentEncode set text = text := by
  induction text with
  | nil => rfl
  | cons c text ih =>
    obtain ⟨ascii, out⟩ := kept c List.mem_cons_self
    have value : c.toUInt8.toNat = c.toNat := Nat.mod_eq_of_lt (Nat.lt_trans ascii (by decide))
    have first : percentEncodeByte set c.toUInt8 = [c] := by
      rw [percentEncodeByte, if_pos ⟨value ▸ ascii, out⟩, ofUInt8_toUInt8 ascii]
    rw [percentEncode, utf8_cons, encodeChar_ascii ascii, List.flatMap_append, List.flatMap_singleton, first]
    exact congrArg (c :: ·) (ih fun d hd => kept d (List.mem_cons_of_mem _ hd))

/-- Two digits in hexadecimal. -/
@[reducible] def PercentEncoding.hex : PercentEncoding where
  encode := percentEncode
  injective sign _ _ := percentEncode_injective sign
  kept := percentEncode_eq_self

end Encode

end AsceticDdd.Text
