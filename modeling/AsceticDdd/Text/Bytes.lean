import AsceticDdd.Text.Decimal

/-!
# Texts cut at byte offsets

A text is in UTF-8: a cut inside a character is no cut.
-/

namespace AsceticDdd.Text

def bytes : List Char → Nat
  | [] => 0
  | c :: text => c.utf8Size + bytes text

/-- The first `n` bytes and the rest. -/
def splitAtByte : Nat → List Char → Option (List Char × List Char)
  | 0, text => some ([], text)
  | _ + 1, [] => none
  | n + 1, c :: text =>
    if c.utf8Size ≤ n + 1 then (splitAtByte (n + 1 - c.utf8Size) text).map fun r => (c :: r.1, r.2) else none

/-- The bytes from `i` on and before `j`. -/
def slice (i j : Nat) (text : List Char) : Option (List Char) :=
  (splitAtByte j text).bind fun r => (splitAtByte i r.1).map (·.2)

/-- A text and the last character of it that is in the set with all after it. -/
def splitLast (p : Char → Bool) : List Char → Option (List Char × List Char)
  | [] => none
  | c :: text =>
    match splitLast p text with
    | some (before, found) => some (c :: before, found)
    | none => if p c then some ([], c :: text) else none

variable {a b a' b' m text : List Char} {n i j : Nat}

@[simp] theorem bytes_append (a b : List Char) : bytes (a ++ b) = bytes a + bytes b := by
  induction a with
  | nil => exact (Nat.zero_add _).symm
  | cons c a ih => rw [List.cons_append, bytes, bytes, ih, Nat.add_assoc]

theorem bytes_eq_zero (h : bytes a = 0) : a = [] := by
  cases a with
  | nil => rfl
  | cons c a =>
    have hpos := c.utf8Size_pos
    rw [bytes] at h
    omega

theorem splitAtByte_zero (text : List Char) : splitAtByte 0 text = some ([], text) := by
  cases text with
  | nil => rfl
  | cons c text => rfl

theorem splitAtByte_eq_some : splitAtByte n text = some (a, b) ↔ text = a ++ b ∧ bytes a = n := by
  induction text generalizing n a with
  | nil =>
    cases n with
    | zero =>
      rw [splitAtByte_zero]
      constructor
      · rintro ⟨⟩
        exact ⟨rfl, rfl⟩
      · rintro ⟨htext, hbytes⟩
        obtain ⟨rfl, rfl⟩ := List.append_eq_nil_iff.mp htext.symm
        rfl
    | succ n =>
      constructor
      · rintro ⟨⟩
      · rintro ⟨htext, hbytes⟩
        rw [(List.append_eq_nil_iff.mp htext.symm).1] at hbytes
        cases hbytes
  | cons c text ih =>
    cases n with
    | zero =>
      rw [splitAtByte_zero]
      constructor
      · rintro ⟨⟩
        exact ⟨rfl, rfl⟩
      · rintro ⟨htext, hbytes⟩
        rw [htext, bytes_eq_zero hbytes]
        rfl
    | succ n =>
      rw [splitAtByte, Option.ite_none_right_eq_some, Option.map_eq_some_iff]
      constructor
      · rintro ⟨hsize, ⟨a', b'⟩, hsplit, heq⟩
        obtain ⟨rfl, rfl⟩ := Prod.mk.inj heq
        obtain ⟨rfl, hbytes⟩ := ih.mp hsplit
        refine ⟨rfl, ?_⟩
        show c.utf8Size + bytes a' = n + 1
        omega
      · rintro ⟨htext, hbytes⟩
        cases a with
        | nil => cases hbytes
        | cons d a =>
          obtain ⟨rfl, rfl⟩ := List.cons.inj htext
          rw [bytes] at hbytes
          exact ⟨by omega, (a, b), ih.mpr ⟨rfl, by omega⟩, rfl⟩

theorem slice_eq_some : slice i j text = some m ↔ ∃ a b, text = a ++ m ++ b ∧ bytes a = i ∧ bytes (a ++ m) = j := by
  rw [slice, Option.bind_eq_some_iff]
  constructor
  · rintro ⟨⟨r, b⟩, hright, hleft⟩
    obtain ⟨⟨a, m'⟩, hsplit, rfl⟩ := Option.map_eq_some_iff.mp hleft
    obtain ⟨rfl, hj⟩ := splitAtByte_eq_some.mp hright
    obtain ⟨rfl, hi⟩ := splitAtByte_eq_some.mp hsplit
    exact ⟨a, b, rfl, hi, hj⟩
  · rintro ⟨a, b, rfl, hi, hj⟩
    refine ⟨(a ++ m, b), splitAtByte_eq_some.mpr ⟨rfl, hj⟩, ?_⟩
    rw [splitAtByte_eq_some.mpr ⟨rfl, hi⟩]
    rfl

/-- Of two cuts of a text, the later one is in the rest of the earlier one. -/
theorem append_eq_append_of_bytes_le (h : a ++ b = a' ++ b') (hle : bytes a ≤ bytes a') :
    ∃ x, a' = a ++ x ∧ b = x ++ b' := by
  obtain ⟨x, hx, hb⟩ | ⟨x, hx, hb⟩ := List.append_eq_append_iff.mp h
  · exact ⟨x, hx, hb⟩
  · rw [hx, bytes_append] at hle
    have hnil : x = [] := bytes_eq_zero (by omega)
    subst hnil
    exact ⟨[], by simpa using hx.symm, by simpa using hb.symm⟩

theorem append_inj_of_bytes (h : a ++ b = a' ++ b') (heq : bytes a = bytes a') : a = a' ∧ b = b' := by
  obtain ⟨x, rfl, rfl⟩ := append_eq_append_of_bytes_le h (Nat.le_of_eq heq)
  rw [bytes_append] at heq
  have hnil : x = [] := bytes_eq_zero (by omega)
  subst hnil
  exact ⟨(List.append_nil a).symm, rfl⟩

theorem splitLast_eq_none {p : Char → Bool} : splitLast p text = none ↔ ∀ c ∈ text, p c = false := by
  induction text with
  | nil => simp [splitLast]
  | cons c text ih =>
    rw [splitLast]
    cases hlast : splitLast p text with
    | some r =>
      have hnot : ¬ ∀ d ∈ text, p d = false := fun hall => by simp [ih.mpr hall] at hlast
      simp [hnot]
    | none =>
      have hall := ih.mp hlast
      simpa using fun _ => hall

theorem splitLast_eq_some {p : Char → Bool} :
    splitLast p text = some (a, b) ↔ text = a ++ b ∧ ∃ c rest, b = c :: rest ∧ p c ∧ ∀ d ∈ rest, p d = false := by
  induction text generalizing a with
  | nil =>
    constructor
    · rintro ⟨⟩
    · rintro ⟨htext, c, rest, rfl, _⟩
      cases (List.append_eq_nil_iff.mp htext.symm).2
  | cons c text ih =>
    rw [splitLast]
    cases hlast : splitLast p text with
    | some r =>
      obtain ⟨before, found⟩ := r
      constructor
      · rintro ⟨⟩
        obtain ⟨rfl, hfound⟩ := ih.mp hlast
        exact ⟨rfl, hfound⟩
      · rintro ⟨htext, hfound⟩
        cases a with
        | nil =>
          obtain ⟨d, rest, rfl, _, hrest⟩ := hfound
          obtain ⟨rfl, rfl⟩ := List.cons.inj htext
          rw [splitLast_eq_none.mpr hrest] at hlast
          cases hlast
        | cons d a =>
          obtain ⟨rfl, htail⟩ := List.cons.inj htext
          have hsame := hlast.symm.trans (ih.mpr ⟨htail, hfound⟩)
          cases hsame
          rfl
    | none =>
      have hall := splitLast_eq_none.mp hlast
      rw [Option.ite_none_right_eq_some]
      constructor
      · rintro ⟨hc, ⟨⟩⟩
        exact ⟨rfl, c, text, rfl, hc, hall⟩
      · rintro ⟨htext, d, rest, rfl, hd, hrest⟩
        cases a with
        | nil =>
          obtain ⟨rfl, rfl⟩ := List.cons.inj htext
          exact ⟨hd, rfl⟩
        | cons e a =>
          obtain ⟨rfl, rfl⟩ := List.cons.inj htext
          have hd' := hall d (List.mem_append_right _ List.mem_cons_self)
          rw [hd] at hd'
          cases hd'

/-- A digit is one byte. -/
theorem bytes_digits (h : a.all Char.isDigit) : bytes a = a.length := by
  induction a with
  | nil => rfl
  | cons c a ih =>
    rw [List.all_cons, Bool.and_eq_true] at h
    have hsize : c.utf8Size = 1 := by
      have hdigit := h.1
      simp only [Char.isDigit, Bool.and_eq_true, decide_eq_true_eq, ge_iff_le] at hdigit
      rw [Char.utf8Size_eq_one_iff]
      exact UInt32.le_trans hdigit.2 (by decide)
    rw [bytes, ih h.2, hsize, List.length_cons, Nat.add_comm]

end AsceticDdd.Text
