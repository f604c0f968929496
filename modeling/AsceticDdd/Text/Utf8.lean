import Mathlib.Data.List.Basic

/-!
# Texts in UTF-8

A text is read back from its bytes. The one character with a zero byte is NUL, and a character of ASCII is one byte.
-/

namespace AsceticDdd.Text

def utf8 (text : List Char) : List UInt8 := text.flatMap String.utf8EncodeChar

variable {a b text : List Char} {c : Char}

@[simp] theorem utf8_nil : utf8 [] = [] := rfl

@[simp] theorem utf8_cons (c : Char) (text : List Char) : utf8 (c :: text) = String.utf8EncodeChar c ++ utf8 text := rfl

@[simp] theorem utf8_append (a b : List Char) : utf8 (a ++ b) = utf8 a ++ utf8 b := List.flatMap_append

theorem utf8_injective (same : utf8 a = utf8 b) : a = b := by
  have texts : String.ofList a = String.ofList b := by
    apply String.toByteArray_inj.mp
    rw [String.toByteArray_ofList, String.toByteArray_ofList]
    exact congrArg List.toByteArray same
  exact String.ofList_inj.mp texts

/-- `str::from_utf8` -/
def fromUtf8 (bytes : List UInt8) : Option String :=
  if valid : bytes.toByteArray.IsValidUTF8 then some ⟨bytes.toByteArray, valid⟩ else none

theorem toByteArray_utf8 (text : String) : (utf8 text.toList).toByteArray = text.toByteArray := by
  have bytes := String.toByteArray_ofList (l := text.toList)
  rw [String.ofList_toList] at bytes
  exact bytes.symm

theorem fromUtf8_eq_some {bytes : List UInt8} {text : String} :
    fromUtf8 bytes = some text ↔ utf8 text.toList = bytes := by
  rw [← List.toByteArray_inj, toByteArray_utf8]
  unfold fromUtf8
  constructor
  · intro h
    split at h
    · cases h
      rfl
    · cases h
  · intro same
    rw [dif_pos (same ▸ text.isValidUTF8)]
    exact congrArg some (String.toByteArray_inj.mp same.symm)

theorem length_utf8_le (text : List Char) : (utf8 text).length ≤ 4 * text.length := by
  induction text with
  | nil => exact Nat.le_refl 0
  | cons c text ih =>
    have size := c.utf8Size_le_four
    rw [utf8_cons, List.length_append, String.length_utf8EncodeChar, List.length_cons]
    omega

theorem encodeChar_ascii (ascii : c.toNat < 128) : String.utf8EncodeChar c = [c.toUInt8] := by
  apply String.utf8EncodeChar_eq_singleton
  rw [Char.utf8Size_eq_one_iff, UInt32.le_iff_toNat_le]
  exact Nat.le_of_lt_succ ascii

theorem eq_zero_of_ofNat {n : Nat} (small : n < 256) (h : 0 = UInt8.ofNat n) : n = 0 := by
  have value : 0 = n % 256 := congrArg UInt8.toNat h
  rw [Nat.mod_eq_of_lt small] at value
  exact value.symm

/-- A byte of a character of several has its highest bit. -/
theorem zero_mem_encodeChar (h : 0 ∈ String.utf8EncodeChar c) : c = '\x00' := by
  have high : ∀ {n : Nat}, n < 128 → (0 : UInt8) ≠ UInt8.ofNat (n + 128) := by
    intro n small zero
    cases eq_zero_of_ofNat (Nat.add_lt_add_right small 128) zero
  unfold String.utf8EncodeChar at h
  dsimp only at h
  split at h
  · have value := eq_zero_of_ofNat (by omega) (List.mem_singleton.mp h)
    exact Char.ext (UInt32.toNat_inj.mp value)
  · split at h
    · simp only [List.mem_cons, List.not_mem_nil, or_false] at h
      obtain h | h := h
      · exact (high (n := c.val.toNat / 64 % 0x20 + 64) (by omega) h).elim
      · exact (high (by omega) h).elim
    · split at h
      · simp only [List.mem_cons, List.not_mem_nil, or_false] at h
        obtain h | h | h := h
        · exact (high (n := c.val.toNat / 4096 % 0x10 + 96) (by omega) h).elim
        · exact (high (by omega) h).elim
        · exact (high (by omega) h).elim
      · simp only [List.mem_cons, List.not_mem_nil, or_false] at h
        obtain h | h | h | h := h
        · exact (high (n := c.val.toNat / 262144 % 0x08 + 112) (by omega) h).elim
        · exact (high (by omega) h).elim
        · exact (high (by omega) h).elim
        · exact (high (by omega) h).elim

theorem nul_mem (h : 0 ∈ utf8 text) : '\x00' ∈ text := by
  obtain ⟨c, hc, zero⟩ := List.mem_flatMap.mp h
  exact zero_mem_encodeChar zero ▸ hc

end AsceticDdd.Text
