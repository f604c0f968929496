import Mathlib.Algebra.Group.Int.Defs
import Mathlib.Algebra.Group.Nat.Defs
import Mathlib.Data.Int.Basic

/-!
# Checked arithmetic on 64-bit integers

The machine's result and its overflow, and that together they are the exact result or none.
-/

namespace AsceticDdd.Machine

/-- The wrapped result, unless it overflowed. -/
def checked (overflow : Bool) (wrapped : Int64) : Option Int64 := if overflow then none else some wrapped

def checkedAdd (left right : Int64) : Option Int64 :=
  checked (left.toBitVec.saddOverflow right.toBitVec) (left + right)

def checkedSub (left right : Int64) : Option Int64 :=
  checked (left.toBitVec.ssubOverflow right.toBitVec) (left - right)

def checkedMul (left right : Int64) : Option Int64 :=
  checked (left.toBitVec.smulOverflow right.toBitVec) (left * right)

def checkedNeg (value : Int64) : Option Int64 := checked value.toBitVec.negOverflow (-value)

/-- The least integer has no opposite. -/
def divOverflow (left right : Int64) : Bool := left = Int64.minValue ∧ right = -1

def checkedDiv (left right : Int64) : Option Int64 :=
  if right = 0 then none else checked (divOverflow left right) (left / right)

def checkedRem (left right : Int64) : Option Int64 :=
  if right = 0 then none else checked (divOverflow left right) (left % right)

/-- The low half of the bits. -/
def asU32 (value : Int64) : UInt32 := ⟨value.toBitVec.setWidth 32⟩

def wrappingShl (value : Int64) (count : UInt32) : Int64 := ⟨⟨value.toBitVec <<< (count.toNat % 64)⟩⟩

def wrappingShr (value : Int64) (count : UInt32) : Int64 := ⟨⟨value.toBitVec.sshiftRight (count.toNat % 64)⟩⟩

def Fits (n : Int) : Prop := -2 ^ 63 ≤ n ∧ n < 2 ^ 63

instance (n : Int) : Decidable (Fits n) := inferInstanceAs (Decidable (_ ∧ _))

/-- The integer itself, if it fits. -/
def exact (n : Int) : Option Int64 := if Fits n then some (Int64.ofInt n) else none

theorem fits (value : Int64) : Fits value.toInt := ⟨value.le_toInt, value.toInt_lt⟩

theorem toInt_ofInt {n : Int} (h : Fits n) : (Int64.ofInt n).toInt = n := by
  obtain ⟨hlow, hhigh⟩ := h
  rw [Int64.toInt_ofInt, Int64.size]
  exact Int.bmod_eq_of_le (by omega) (by omega)

theorem ofInt_bmod (n : Int) : Int64.ofInt (n.bmod (2 ^ 64)) = Int64.ofInt n := by
  apply Int64.toInt_inj.mp
  rw [Int64.toInt_ofInt, Int64.toInt_ofInt]
  exact Int.bmod_bmod

/-- A wrapped result that overflows exactly when the integer does not fit is the exact one. -/
theorem checked_eq {overflow : Bool} {wrapped : Int64} {n : Int} (hoverflow : overflow = true ↔ ¬ Fits n)
    (hwrapped : wrapped.toInt = n.bmod (2 ^ 64)) : checked overflow wrapped = exact n := by
  have hsame : wrapped = Int64.ofInt n := by
    rw [← Int64.ofInt_toInt wrapped, hwrapped, ofInt_bmod]
  by_cases h : Fits n
  · have hnot : overflow = false := Bool.eq_false_iff.mpr fun hover => hoverflow.mp hover h
    rw [checked, exact, if_pos h, hnot, hsame]
    rfl
  · rw [checked, exact, if_neg h, hoverflow.mpr h]
    rfl

theorem checkedAdd_eq (left right : Int64) : checkedAdd left right = exact (left.toInt + right.toInt) := by
  apply checked_eq
  · simp only [BitVec.saddOverflow, Fits, Int64.toInt, Bool.or_eq_true, decide_eq_true_eq]
    omega
  · exact Int64.toInt_add left right

theorem checkedSub_eq (left right : Int64) : checkedSub left right = exact (left.toInt - right.toInt) := by
  apply checked_eq
  · simp only [BitVec.ssubOverflow, Fits, Int64.toInt, Bool.or_eq_true, decide_eq_true_eq]
    omega
  · exact Int64.toInt_sub left right

theorem checkedMul_eq (left right : Int64) : checkedMul left right = exact (left.toInt * right.toInt) := by
  apply checked_eq
  · simp only [BitVec.smulOverflow, Fits, Int64.toInt, Bool.or_eq_true, decide_eq_true_eq]
    omega
  · exact Int64.toInt_mul left right

theorem checkedNeg_eq (value : Int64) : checkedNeg value = exact (-value.toInt) := by
  have hrange := fits value
  apply checked_eq
  · simp only [BitVec.negOverflow, Fits, Int64.toInt, beq_iff_eq] at hrange ⊢
    omega
  · exact Int64.toInt_neg value

theorem divOverflow_iff {left right : Int64} :
    divOverflow left right = true ↔ left = Int64.minValue ∧ right = -1 := decide_eq_true_iff

theorem toInt_div {left right : Int64} (h : divOverflow left right = false) :
    (left / right).toInt = left.toInt.tdiv right.toInt := by
  obtain hleft | hright := not_and_or.mp fun hboth => Bool.eq_false_iff.mp h (divOverflow_iff.mpr hboth)
  · exact Int64.toInt_div_of_ne_left _ _ hleft
  · exact Int64.toInt_div_of_ne_right _ _ hright

theorem checkedDiv_eq (left : Int64) {right : Int64} (h : right ≠ 0) :
    checkedDiv left right = exact (left.toInt.tdiv right.toInt) := by
  rw [checkedDiv, if_neg h]
  apply checked_eq
  · constructor
    · intro hover
      obtain ⟨rfl, rfl⟩ := divOverflow_iff.mp hover
      decide
    · intro hnot
      by_contra hover
      have hdiv := toInt_div (Bool.eq_false_iff.mpr hover)
      exact hnot (hdiv ▸ fits (left / right))
  · exact Int64.toInt_div left right

theorem checkedRem_eq (left : Int64) {right : Int64} (h : right ≠ 0) :
    (checkedRem left right).getD 0 = Int64.ofInt (left.toInt.tmod right.toInt) := by
  rw [checkedRem, if_neg h]
  cases hover : divOverflow left right with
  | true =>
    obtain ⟨rfl, rfl⟩ := divOverflow_iff.mp hover
    decide
  | false =>
    apply Int64.toInt_inj.mp
    have hfits : Fits (left.toInt.tmod right.toInt) := Int64.toInt_mod left right ▸ fits (left % right)
    rw [toInt_ofInt hfits]
    exact Int64.toInt_mod left right

/-- The count modulo 64, of a negative one too. -/
theorem asU32_mod (count : Int64) : (asU32 count).toNat % 64 = (count.toInt % 64).toNat := by
  have hcount : (asU32 count).toNat = count.toBitVec.toNat % 2 ^ 32 := BitVec.toNat_setWidth ..
  have hint : count.toInt = (count.toBitVec.toNat : Int) ∨ count.toInt = count.toBitVec.toNat - 2 ^ 64 := by
    rw [Int64.toInt, BitVec.toInt]
    split
    · exact .inl rfl
    · exact .inr rfl
  rw [hcount]
  obtain hint | hint := hint
  · omega
  · omega

theorem wrappingShl_eq (value count : Int64) :
    wrappingShl value (asU32 count) = Int64.ofInt (value.toInt * 2 ^ (count.toInt % 64).toNat) := by
  rw [← asU32_mod]
  apply Int64.toBitVec.inj
  calc value.toBitVec <<< ((asU32 count).toNat % 64)
      = value.toBitVec * BitVec.twoPow 64 ((asU32 count).toNat % 64) := BitVec.shiftLeft_eq_mul_twoPow ..
    _ = BitVec.ofInt 64 value.toInt * BitVec.ofInt 64 (2 ^ ((asU32 count).toNat % 64)) := by
      have hpow : BitVec.ofInt 64 (2 ^ ((asU32 count).toNat % 64)) = .twoPow 64 ((asU32 count).toNat % 64) := by
        have hcast : (2 : Int) ^ ((asU32 count).toNat % 64) = ((2 ^ ((asU32 count).toNat % 64) : Nat) : Int) := by
          simp
        rw [hcast, BitVec.ofInt_natCast]
        apply BitVec.eq_of_toNat_eq
        rw [BitVec.toNat_twoPow, BitVec.toNat_ofNat]
      rw [Int64.toInt, BitVec.ofInt_toInt, hpow]
    _ = BitVec.ofInt 64 (value.toInt * 2 ^ ((asU32 count).toNat % 64)) := (BitVec.ofInt_mul ..).symm

theorem wrappingShr_eq (value count : Int64) :
    wrappingShr value (asU32 count) = Int64.ofInt (value.toInt / 2 ^ (count.toInt % 64).toNat) := by
  rw [← asU32_mod]
  apply Int64.toBitVec.inj
  have hshift := BitVec.toInt_sshiftRight (x := value.toBitVec) (n := (asU32 count).toNat % 64)
  rw [Int.shiftRight_eq_div_pow] at hshift
  calc value.toBitVec.sshiftRight ((asU32 count).toNat % 64)
      = BitVec.ofInt 64 (value.toBitVec.sshiftRight ((asU32 count).toNat % 64)).toInt := BitVec.ofInt_toInt.symm
    _ = BitVec.ofInt 64 (value.toInt / 2 ^ ((asU32 count).toNat % 64)) := by
      rw [hshift]
      rfl

end AsceticDdd.Machine
