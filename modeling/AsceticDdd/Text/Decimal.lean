import Mathlib.Algebra.Group.Int.Defs
import Mathlib.Algebra.Group.Nat.Defs
import Mathlib.Data.List.Basic

/-!
# Decimal numbers in text

Numbers as their digits, lists of them between commas, and texts cut at a character. Reading
what was printed gives back what was printed.
-/

namespace AsceticDdd.Text

def digits (n : Nat) : List Char := Nat.toDigits 10 n

/-- Some digit, and digits only. -/
def number (text : List Char) : Option Nat :=
  if text ≠ [] ∧ text.all Char.isDigit then some (Nat.ofDigitChars 10 text 0) else none

theorem digits_ne_nil (n : Nat) : digits n ≠ [] := Nat.toDigits_ne_nil

theorem isDigit_of_mem_digits {n : Nat} {c : Char} (h : c ∈ digits n) : c.isDigit :=
  Nat.isDigit_of_mem_toDigits (by decide) (by decide) h

theorem not_mem_digits {n : Nat} {c : Char} (h : c.isDigit = false) : c ∉ digits n := by
  intro hmem
  rw [isDigit_of_mem_digits hmem] at h
  cases h

@[simp] theorem number_digits (n : Nat) : number (digits n) = some n := by
  have hall : (digits n).all Char.isDigit := List.all_eq_true.mpr fun _ hc => isDigit_of_mem_digits hc
  rw [number, if_pos ⟨digits_ne_nil n, hall⟩]
  exact congrArg some Nat.ofDigitChars_ten_toDigits

def commaSeparated (ns : List Nat) : List Char := [','].intercalate (ns.map digits)

theorem splitOn_commaSeparated {ns : List Nat} (h : ns ≠ []) :
    (commaSeparated ns).splitOn ',' = ns.map digits := by
  apply List.splitOn_intercalate
  · intro field hfield
    obtain ⟨n, _, rfl⟩ := List.mem_map.mp hfield
    exact not_mem_digits (by decide)
  · simpa using h

/-- The text before the first `c`, and the text after it. -/
def cutAt (c : Char) : List Char → Option (List Char × List Char)
  | [] => none
  | d :: text => if d = c then some ([], text) else (cutAt c text).map fun r => (d :: r.1, r.2)

theorem cutAt_append {c : Char} {before after : List Char} (h : c ∉ before) :
    cutAt c (before ++ c :: after) = some (before, after) := by
  induction before with
  | nil => simp [cutAt]
  | cons d before ih =>
    obtain ⟨hd, hbefore⟩ := not_or.mp (List.mem_cons.not.mp h)
    rw [List.cons_append, cutAt, if_neg (Ne.symm hd), ih hbefore]
    rfl

/-- A sign, or none, and digits. -/
def signed : List Char → Option Int
  | '-' :: text => (number text).map fun n : Nat => -(n : Int)
  | '+' :: text => (number text).map fun n : Nat => (n : Int)
  | text => (number text).map fun n : Nat => (n : Int)

/-- `i32::from_str`. -/
def i32 (text : List Char) : Option Int :=
  (signed text).filter fun z => -2147483648 ≤ z && z ≤ 2147483647

/-- `i32::to_string`. -/
def display (z : Int) : List Char :=
  if z < 0 then '-' :: digits z.natAbs else digits z.natAbs

theorem signed_digits (n : Nat) : signed (digits n) = some (n : Int) := by
  obtain ⟨c, cs, hcs⟩ := List.exists_cons_of_ne_nil (digits_ne_nil n)
  have hsign : ∀ sign : Char, sign.isDigit = false → c ≠ sign := by
    rintro sign hsign rfl
    apply not_mem_digits (n := n) hsign
    rw [hcs]
    exact List.mem_cons_self
  have hnumber : (number (c :: cs)).map (fun n : Nat => (n : Int)) = some (n : Int) := by
    rw [← hcs, number_digits, Option.map_some]
  rw [hcs]
  unfold signed
  split
  · exact absurd (List.cons.inj ‹_›).1 (hsign '-' rfl)
  · exact absurd (List.cons.inj ‹_›).1 (hsign '+' rfl)
  · exact hnumber

theorem signed_display (z : Int) : signed (display z) = some z := by
  by_cases hneg : z < 0
  · rw [display, if_pos hneg, signed, number_digits, Option.map_some]
    apply congrArg some
    omega
  · rw [display, if_neg hneg, signed_digits]
    apply congrArg some
    omega

end AsceticDdd.Text
