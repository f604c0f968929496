import AsceticDdd.Control.Partial
import AsceticDdd.Specification.Reading

/-!
# The texts that are read as points in time

What each part of the reading accepts, and where it panics.
-/

namespace AsceticDdd.Specification.Reading

open Control Text

/-- So many digits, and their number. -/
def Spells (n : Nat) (text : List Char) (value : Nat) : Prop := text.length = n ∧ number text = some value

inductive DateSpelled : List Char → Nat × Nat × Nat → Prop
  | mk {y m d : List Char} {year month day : Nat} : Spells 4 y year → Spells 2 m month → Spells 2 d day →
      DateSpelled (y ++ '-' :: m ++ '-' :: d) (year, month, day)

/-- Seconds, and a fraction of one to six digits. -/
inductive SecondsSpelled : List Char → Nat × Nat → Prop
  | none : SecondsSpelled [] (0, 0)
  | seconds {s : List Char} {second : Nat} : Spells 2 s second → SecondsSpelled (':' :: s) (second, 0)
  | fraction {s f : List Char} {second part : Nat} : Spells 2 s second → Spells f.length f part → f.length ≤ 6 →
      SecondsSpelled (':' :: s ++ '.' :: f) (second, part * 10 ^ (6 - f.length))

inductive ClockSpelled : List Char → Nat × Nat × Nat × Nat → Prop
  | mk {h m s : List Char} {hour minute second micros : Nat} : Spells 2 h hour → Spells 2 m minute →
      SecondsSpelled s (second, micros) → ClockSpelled (h ++ ':' :: m ++ s) (hour, minute, second, micros)

inductive Zone
  | none
  | utc
  | offset (mark : Char) (hours minutes : Nat)

/-- The seconds east. The session's time zone is UTC, which is what a text without an offset is read in. -/
def Zone.seconds : Zone → Int
  | none | utc => 0
  | offset mark hours minutes =>
    if mark = '-' then -(((hours * 60 + minutes) * 60 : Nat) : Int) else ((hours * 60 + minutes) * 60 : Nat)

inductive ZoneSpelled : List Char → Zone → Prop
  | none : ZoneSpelled [] .none
  | utc : ZoneSpelled ['Z'] .utc
  | offset {mark : Char} {h m : List Char} {hours minutes : Nat} : isMark mark → Spells 2 h hours →
      Spells 2 m minutes → ZoneSpelled (mark :: h ++ ':' :: m) (.offset mark hours minutes)

/-- After the date: nothing, or a time of day and an offset. -/
inductive RestSpelled : List Char → Nat × Nat × Nat × Nat → Zone → Prop
  | none : RestSpelled [] (0, 0, 0, 0) .none
  | time {c o : List Char} {separator : Char} {time : Nat × Nat × Nat × Nat} {zone : Zone} :
      separator = 'T' ∨ separator = ' ' → ClockSpelled c time → ZoneSpelled o zone →
      RestSpelled (separator :: (c ++ o)) time zone

/-- A date, alone or with a time of day and an offset. -/
inductive Spelled : List Char → Nat × Nat × Nat → Nat × Nat × Nat × Nat → Zone → Prop
  | mk {d rest : List Char} {date : Nat × Nat × Nat} {time : Nat × Nat × Nat × Nat} {zone : Zone} :
      DateSpelled d date → RestSpelled rest time zone → Spelled (d ++ rest) date time zone

variable {text a b m : List Char} {i j n : Nat}

@[simp] theorem returns_ofOption {α : Type} {value : Option α} {x : α} : Returns (ofOption value) x ↔ value = some x := by
  constructor
  · intro h
    cases h
    rfl
  · rintro rfl
    rfl

@[simp] theorem not_fails_ofOption {α : Type} {value : Option α} : ¬ Fails (ofOption value) := by
  rintro ⟨_, ⟨⟩⟩

@[simp] theorem returns_orPanic {α : Type} {value : Option α} {x : α} : Returns (orPanic value) x ↔ value = some x := by
  cases value with
  | none =>
    constructor
    · rintro ⟨⟩
    · rintro ⟨⟩
  | some y =>
    constructor
    · rintro ⟨⟩
      rfl
    · rintro ⟨⟩
      rfl

@[simp] theorem fails_orPanic {α : Type} {value : Option α} : Fails (orPanic value) ↔ value = none := by
  cases value with
  | none => exact ⟨fun _ => rfl, fun _ => ⟨.slice, rfl⟩⟩
  | some y =>
    constructor
    · rintro ⟨_, ⟨⟩⟩
    · rintro ⟨⟩

theorem all_of_number (h : number m = some n) : m.all Char.isDigit := by
  rw [number, Option.ite_none_right_eq_some] at h
  exact h.1.2

theorem bytes_of_number (h : number m = some n) : bytes m = m.length := bytes_digits (all_of_number h)

theorem returns_digits : Returns (digits i j text) n ↔
    ∃ a m b, text = a ++ m ++ b ∧ bytes a = i ∧ bytes a + m.length = j ∧ number m = some n := by
  rw [digits, returns_ofOption, Option.bind_eq_some_iff]
  constructor
  · rintro ⟨m, hslice, hnumber⟩
    obtain ⟨a, b, htext, hi, hj⟩ := slice_eq_some.mp hslice
    rw [bytes_append, bytes_of_number hnumber] at hj
    exact ⟨a, m, b, htext, hi, hj, hnumber⟩
  · rintro ⟨a, m, b, htext, hi, hj, hnumber⟩
    refine ⟨m, slice_eq_some.mpr ⟨a, b, htext, hi, ?_⟩, hnumber⟩
    rw [bytes_append, bytes_of_number hnumber, hj]

@[simp] theorem not_fails_digits : ¬ Fails (digits i j text) := not_fails_ofOption

theorem returns_index : Returns (index i j text) m ↔ slice i j text = some m := returns_orPanic

theorem fails_index : Fails (index i j text) ↔ slice i j text = none := fails_orPanic

theorem returns_indexFrom : Returns (indexFrom i text) m ↔ ∃ a, text = a ++ m ∧ bytes a = i := by
  rw [indexFrom, returns_orPanic, Option.map_eq_some_iff]
  constructor
  · rintro ⟨⟨a, _⟩, hsplit, rfl⟩
    exact ⟨a, splitAtByte_eq_some.mp hsplit⟩
  · rintro ⟨a, hsplit⟩
    exact ⟨(a, m), splitAtByte_eq_some.mpr hsplit, rfl⟩

theorem not_fails_indexFrom (h : ∃ a m, text = a ++ m ∧ bytes a = i) : ¬ Fails (indexFrom i text) := by
  obtain ⟨a, m, hm⟩ := h
  exact (returns_indexFrom.mpr ⟨a, hm⟩).not_fails

/-- Two fields of digits a character apart, and what is between them. -/
theorem digits_between {k l : Nat} {first second : Nat} (hfirst : Returns (digits i j text) first)
    (hsecond : Returns (digits k l text) second) (hjk : j ≤ k) :
    ∃ a m x m' b, text = a ++ m ++ x ++ m' ++ b ∧ bytes a = i ∧ bytes a + m.length = j ∧ number m = some first ∧
      j + bytes x = k ∧ k + m'.length = l ∧ number m' = some second ∧ slice j k text = some x := by
  obtain ⟨a, m, b, rfl, hi, hj, hnumber⟩ := returns_digits.mp hfirst
  obtain ⟨a', m', b', htext, hk, hl, hnumber'⟩ := returns_digits.mp hsecond
  have hbytes : bytes (a ++ m) = j := by rw [bytes_append, bytes_of_number hnumber, hj]
  have hsplit : (a ++ m) ++ b = a' ++ (m' ++ b') := by rw [htext, List.append_assoc]
  obtain ⟨x, hx, hb⟩ := append_eq_append_of_bytes_le hsplit (by omega)
  subst hx
  rw [bytes_append, hbytes] at hk
  refine ⟨a, m, x, m', b', by rw [hb]; simp, hi, hj, hnumber, hk, by rw [← hl, bytes_append, hbytes, hk], hnumber',
    slice_eq_some.mpr ⟨a ++ m, m' ++ b', by rw [hb]; simp, hbytes, ?_⟩⟩
  rw [bytes_append, hbytes, hk]

theorem Spells.bytes {value : Nat} (h : Spells n m value) : Text.bytes m = n := by
  rw [bytes_of_number h.2, h.1]

/-- The digits of a text made of them and of what is around them. -/
theorem Spells.returns_digits {value : Nat} (h : Spells n m value) (hi : Text.bytes a = i) (hj : i + n = j) :
    Returns (digits i j (a ++ m ++ b)) value :=
  Reading.returns_digits.mpr ⟨a, m, b, rfl, hi, by rw [hi, h.1, hj], h.2⟩

theorem returns_ymd {date : List Char} {ymd : Nat × Nat × Nat} : Returns (Reading.ymd date) ymd ↔ DateSpelled date ymd := by
  constructor
  · intro h
    simp only [Reading.ymd, returns_bind, returns_guard, returns_pure, returns_index] at h
    obtain ⟨year, hyear, month, hmonth, day, hday, _, hbytes, first, hfirst, _, hdash, last, hlast, _, hdash', rfl⟩ := h
    obtain ⟨a, y, x, m, b, hdate, ha, hy, hyear', hx, hm, hmonth', hslice⟩ := digits_between hyear hmonth (by decide)
    obtain ⟨a', m', x', d, b', hdate', ha', hm', hmonth'', hx', hd, hday', hslice'⟩ :=
      digits_between hmonth hday (by decide)
    have hfirst' : x = first := Option.some.inj (hslice.symm.trans hfirst)
    have hlast' : x' = last := Option.some.inj (hslice'.symm.trans hlast)
    subst hfirst' hlast'
    have ha0 := bytes_eq_zero ha
    subst ha0
    have hb : b' = [] := by
      apply bytes_eq_zero
      rw [hdate'] at hbytes
      simp only [bytes_append, bytes_of_number hmonth'', bytes_of_number hday'] at hbytes
      omega
    subst hb
    have hsplit : ([] ++ y ++ x) ++ (m ++ b) = a' ++ (m' ++ (x' ++ (d ++ []))) := by
      simpa using hdate.symm.trans hdate'
    obtain ⟨hleft, hright⟩ := append_inj_of_bytes hsplit (by
      simp only [bytes_append, bytes_of_number hyear', ha', Text.bytes] at hy ⊢
      omega)
    obtain ⟨hmm, _⟩ := append_inj_of_bytes hright (by
      rw [bytes_of_number hmonth', bytes_of_number hmonth'']
      omega)
    subst hleft hmm
    rw [hdate', hdash, hdash']
    rw [Text.bytes, Nat.zero_add] at hy
    have hspelled := DateSpelled.mk (y := y) (d := d) ⟨hy, hyear'⟩ ⟨by omega, hmonth'⟩ ⟨by omega, hday'⟩
    simpa using hspelled
  · rintro ⟨hyear, hmonth, hday⟩
    rename_i y m d year month day
    have hy := hyear.bytes
    have hm := hmonth.bytes
    have hd := hday.bytes
    have hdash : '-'.utf8Size = 1 := by decide
    simp only [Reading.ymd, returns_bind, returns_guard, returns_pure, returns_index]
    refine ⟨year, ?_, month, ?_, day, ?_, (), ?_, ['-'], ?_, (), rfl, ['-'], ?_, (), rfl, rfl⟩
    · simpa using hyear.returns_digits (a := []) (b := '-' :: m ++ '-' :: d) (i := 0) (j := 4) rfl rfl
    · simpa using hmonth.returns_digits (a := y ++ ['-']) (b := '-' :: d) (i := 5) (by simp [Text.bytes, hy, hdash]) rfl
    · simpa using hday.returns_digits (a := y ++ '-' :: m ++ ['-']) (b := []) (i := 8)
        (by simp [Text.bytes, hy, hm, hdash]) rfl
    · simp [Text.bytes, hy, hm, hd, hdash]
    · exact slice_eq_some.mpr ⟨y, m ++ '-' :: d, by simp, hy, by simp [Text.bytes, hy, hdash]⟩
    · exact slice_eq_some.mpr ⟨y ++ '-' :: m, d, by simp, by simp [Text.bytes, hy, hm, hdash],
        by simp [Text.bytes, hy, hm, hdash]⟩

theorem not_fails_ymd {date : List Char} : ¬ Fails (Reading.ymd date) := by
  intro h
  simp only [Reading.ymd, fails_bind, not_fails_digits, false_or, not_fails_guard, fails_index, returns_guard,
    returns_index, not_fails_pure, and_false, exists_false, or_false] at h
  obtain ⟨year, hyear, month, hmonth, day, hday, _, hbytes, hnone | ⟨first, hfirst, _, hdash, hnone⟩⟩ := h
  · obtain ⟨a, y, x, m, b, _, _, _, _, _, _, _, hslice⟩ := digits_between hyear hmonth (by decide)
    cases hnone.symm.trans hslice
  · obtain ⟨a, y, x, m, b, _, _, _, _, _, _, _, hslice⟩ := digits_between hmonth hday (by decide)
    cases hnone.symm.trans hslice

theorem number_append_zeros {k : Nat} (h : m ≠ []) :
    number (m ++ List.replicate k '0') = (number m).map (· * 10 ^ k) := by
  have hzeros : (List.replicate k '0').all Char.isDigit := by
    rw [List.all_replicate]
    split
    · rfl
    · rfl
  by_cases hall : m.all Char.isDigit
  · have hboth : (m ++ List.replicate k '0').all Char.isDigit := by
      rw [List.all_append, hall, hzeros]
      rfl
    rw [number, number, if_pos ⟨by simp [h], hboth⟩, if_pos ⟨h, hall⟩, Nat.ofDigitChars_append,
      Nat.ofDigitChars_replicate_zero, Nat.mul_comm]
    rfl
  · have hnot : ¬ (m ++ List.replicate k '0').all Char.isDigit := by
      rw [List.all_append, hzeros, Bool.and_true]
      exact hall
    rw [number, number, if_neg fun hboth => hnot hboth.2, if_neg fun hboth => hall hboth.2]
    rfl

/-- The microseconds of a fraction. -/
theorem returns_padded {f : List Char} {micros : Nat} (hpos : f ≠ []) (hbytes : bytes f ≤ 6) :
    Returns (digits 0 6 (padded f)) micros ↔
      ∃ part, Spells f.length f part ∧ f.length ≤ 6 ∧ micros = part * 10 ^ (6 - f.length) := by
  constructor
  · intro h
    obtain ⟨a, m, b, htext, ha, hm, hnumber⟩ := returns_digits.mp h
    have hnil := bytes_eq_zero ha
    subst hnil
    rw [Text.bytes, Nat.zero_add] at hm
    have hsplit : f ++ List.replicate (6 - f.length) '0' = m ++ b := by simpa [padded] using htext
    obtain ⟨x, hx, hzeros⟩ := append_eq_append_of_bytes_le hsplit (by rw [bytes_of_number hnumber]; omega)
    have hlength : (x ++ b).length = 6 - f.length := by rw [← hzeros, List.length_replicate]
    have hmlength : f.length + x.length = 6 := by rw [← hm, hx, List.length_append]
    have hb : b = [] := by
      rw [List.length_append] at hlength
      exact List.length_eq_zero_iff.mp (by omega)
    rw [hb, List.append_nil] at hzeros
    rw [hx, ← hzeros, number_append_zeros hpos, Option.map_eq_some_iff] at hnumber
    obtain ⟨part, hpart, rfl⟩ := hnumber
    exact ⟨part, ⟨rfl, hpart⟩, by omega, rfl⟩
  · rintro ⟨part, ⟨_, hpart⟩, hlength, rfl⟩
    refine returns_digits.mpr ⟨[], padded f, [], by simp, rfl, ?_, ?_⟩
    · rw [padded, List.length_append, List.length_replicate, Text.bytes]
      omega
    · rw [padded, number_append_zeros hpos, hpart]
      rfl

theorem colon_size : ':'.utf8Size = 1 := by decide

theorem dot_size : '.'.utf8Size = 1 := by decide

/-- After the colon, two digits and what is left. -/
theorem returns_second {rest left : List Char} {second : Nat} :
    (Returns (digits 1 3 (':' :: rest)) second ∧ Returns (indexFrom 3 (':' :: rest)) left) ↔
      ∃ s, rest = s ++ left ∧ Spells 2 s second := by
  constructor
  · rintro ⟨hdigits, hfrom⟩
    obtain ⟨a, s, b, htext, ha, hs, hnumber⟩ := returns_digits.mp hdigits
    obtain ⟨a', htext', ha'⟩ := returns_indexFrom.mp hfrom
    have hcolon : [':'] ++ rest = a ++ (s ++ b) := by simpa using htext
    obtain ⟨rfl, hrest⟩ := append_inj_of_bytes hcolon (by rw [ha]; exact colon_size)
    have hsame : ([':'] ++ s) ++ b = a' ++ left := by rw [← htext', hrest, List.append_assoc]; rfl
    obtain ⟨_, rfl⟩ := append_inj_of_bytes hsame (by
      rw [bytes_append, ha, bytes_of_number hnumber, ha']
      omega)
    exact ⟨s, hrest, by omega, hnumber⟩
  · rintro ⟨s, rfl, hs⟩
    refine ⟨?_, returns_indexFrom.mpr ⟨':' :: s, rfl, ?_⟩⟩
    · simpa using hs.returns_digits (a := [':']) (b := left) (i := 1) (j := 3) colon_size rfl
    · rw [Text.bytes, hs.bytes, colon_size]

theorem returns_secondsOf {result : Nat × Nat} : Returns (secondsOf text) result ↔ SecondsSpelled text result := by
  unfold secondsOf
  split
  · rw [returns_pure]
    constructor
    · rintro rfl
      exact .none
    · rintro ⟨⟩
      rfl
  · rename_i rest
    simp only [returns_bind]
    constructor
    · rintro ⟨second, hsecond, left, hleft, h⟩
      obtain ⟨s, rfl, hs⟩ := returns_second.mp ⟨hsecond, hleft⟩
      split at h
      · rw [returns_pure] at h
        subst h
        simpa using SecondsSpelled.seconds hs
      · rename_i fraction
        simp only [returns_bind, returns_guard, returns_pure] at h
        obtain ⟨_, ⟨hlow, hhigh⟩, f, hf, micros, hmicros, rfl⟩ := h
        obtain ⟨a, hdot, ha⟩ := returns_indexFrom.mp hf
        obtain ⟨_, rfl⟩ := append_inj_of_bytes (a := ['.']) (b := fraction) hdot (by rw [ha]; exact dot_size)
        rw [Text.bytes, dot_size] at hlow hhigh
        have hpos : fraction ≠ [] := by
          rintro rfl
          rw [Text.bytes] at hlow
          omega
        obtain ⟨part, hpart, hlength, rfl⟩ := (returns_padded hpos (by omega)).mp hmicros
        exact .fraction hs hpart hlength
      · exact absurd h not_returns_failure
    · intro h
      cases h with
      | seconds hs =>
        obtain ⟨hsecond, hleft⟩ := returns_second.mpr ⟨rest, (List.append_nil rest).symm, hs⟩
        exact ⟨_, hsecond, [], hleft, rfl⟩
      | fraction hs hpart hlength =>
        rename_i s f second part
        obtain ⟨hsecond, hleft⟩ := returns_second.mpr ⟨s, rfl, hs⟩
        have hpos : f ≠ [] := by
          rintro rfl
          cases hpart.2
        have hbytes := hpart.bytes
        have hne := List.length_pos_iff.mpr hpos
        refine ⟨_, hsecond, '.' :: f, hleft, ?_⟩
        simp only [returns_bind, returns_guard, returns_pure]
        refine ⟨(), ?_, f, returns_indexFrom.mpr ⟨['.'], rfl, dot_size⟩, _,
          (returns_padded hpos (by omega)).mpr ⟨part, hpart, hlength, rfl⟩, rfl⟩
        rw [Text.bytes, dot_size]
        omega
  · rename_i hnil hcolon
    constructor
    · exact fun h => absurd h not_returns_failure
    · rintro (_ | _ | _)
      · exact absurd rfl hnil
      · exact absurd rfl (hcolon _)
      · exact absurd rfl (hcolon _)

theorem not_fails_secondsOf : ¬ Fails (secondsOf text) := by
  unfold secondsOf
  split
  · exact not_fails_pure
  · rename_i rest
    simp only [fails_bind, not_fails_digits, false_or, not_exists, not_and]
    intro second hsecond hfails
    obtain ⟨a, s, b, htext, ha, hs, hnumber⟩ := returns_digits.mp hsecond
    have hcut : Returns (indexFrom 3 (':' :: rest)) b :=
      returns_indexFrom.mpr ⟨a ++ s, htext, by rw [bytes_append, bytes_of_number hnumber, hs]⟩
    obtain hfails | ⟨left, _, hfails⟩ := hfails
    · exact hcut.not_fails hfails
    · split at hfails
      · exact not_fails_pure hfails
      · simp only [fails_bind, not_fails_guard, false_or, not_fails_digits, not_fails_pure, and_false, exists_false,
          or_false] at hfails
        obtain ⟨_, _, hfails⟩ := hfails
        exact not_fails_indexFrom ⟨['.'], _, rfl, dot_size⟩ hfails
      · exact not_fails_failure hfails
  · exact not_fails_failure

theorem returns_clock {rest : List Char} {time : Nat × Nat × Nat × Nat} :
    Returns (clock rest) time ↔ ClockSpelled rest time := by
  constructor
  · intro h
    simp only [clock, returns_bind, returns_guard, returns_pure, returns_index] at h
    obtain ⟨hour, hhour, minute, hminute, _, _, colon, hcolon, _, hcolon', left, hleft, ⟨second, micros⟩, hseconds, rfl⟩ := h
    obtain ⟨a, h, x, m, b, hrest, ha, hh, hhour', hx, hm, hminute', hslice⟩ := digits_between hhour hminute (by decide)
    have hsame : x = colon := Option.some.inj (hslice.symm.trans hcolon)
    subst hsame hcolon'
    have ha0 := bytes_eq_zero ha
    subst ha0
    obtain ⟨a', hrest', ha'⟩ := returns_indexFrom.mp hleft
    rw [Text.bytes, Nat.zero_add] at hh
    have hjoin : ([] ++ h ++ [':'] ++ m) ++ b = a' ++ left := by rw [← hrest', hrest]
    obtain ⟨_, rfl⟩ := append_inj_of_bytes hjoin (by
      simp only [bytes_append, Text.bytes, bytes_of_number hhour', bytes_of_number hminute', ha', colon_size]
      omega)
    have hspelled := ClockSpelled.mk (h := h) (m := m) ⟨hh, hhour'⟩ ⟨by omega, hminute'⟩ (returns_secondsOf.mp hseconds)
    rw [hrest]
    simpa using hspelled
  · rintro ⟨hhour, hminute, hseconds⟩
    rename_i h m s hour minute second micros
    have hh := hhour.bytes
    have hm := hminute.bytes
    simp only [clock, returns_bind, returns_guard, returns_pure, returns_index]
    refine ⟨hour, ?_, minute, ?_, (), ?_, [':'], ?_, (), rfl, s, ?_, (second, micros), returns_secondsOf.mpr hseconds, rfl⟩
    · simpa using hhour.returns_digits (a := []) (b := ':' :: m ++ s) (i := 0) (j := 2) rfl rfl
    · simpa using hminute.returns_digits (a := h ++ [':']) (b := s) (i := 3) (j := 5)
        (by simp [Text.bytes, hh, colon_size]) rfl
    · simp only [bytes_append, Text.bytes, hh, hm, colon_size]
      omega
    · exact slice_eq_some.mpr ⟨h, m ++ s, by simp, hh, by simp [Text.bytes, hh, colon_size]⟩
    · exact returns_indexFrom.mpr ⟨h ++ ':' :: m, by simp, by simp [Text.bytes, hh, hm, colon_size]⟩

theorem not_fails_clock {rest : List Char} : ¬ Fails (clock rest) := by
  intro hfails
  simp only [clock, fails_bind, not_fails_digits, false_or, not_fails_guard, fails_index, returns_guard,
    returns_index, not_fails_pure, not_fails_secondsOf, and_false, exists_false, or_false] at hfails
  obtain ⟨hour, hhour, minute, hminute, _, _, hnone | ⟨colon, _, _, _, hfrom⟩⟩ := hfails
  · obtain ⟨a, h, x, m, b, _, _, _, _, _, _, _, hslice⟩ := digits_between hhour hminute (by decide)
    cases hnone.symm.trans hslice
  · obtain ⟨a, m, b, hrest, ha, hm, hnumber⟩ := returns_digits.mp hminute
    refine not_fails_indexFrom ⟨a ++ m, b, hrest, ?_⟩ hfrom
    rw [bytes_append, bytes_of_number hnumber, hm]

theorem isMark_iff {c : Char} : isMark c = true ↔ c = 'Z' ∨ c = '+' ∨ c = '-' := decide_eq_true_iff

theorem mark_size {c : Char} (h : isMark c) : c.utf8Size = 1 := by
  obtain rfl | rfl | rfl := isMark_iff.mp h
  · decide
  · decide
  · decide

theorem not_mark_of_digit {c : Char} (h : c.isDigit) : isMark c = false := by
  rw [Bool.eq_false_iff]
  intro hmark
  obtain rfl | rfl | rfl := isMark_iff.mp hmark
  · cases h
  · cases h
  · cases h

theorem Spells.no_mark {value : Nat} (h : Spells n m value) : ∀ c ∈ m, isMark c = false :=
  fun c hc => not_mark_of_digit (List.all_eq_true.mp (all_of_number h.2) c hc)

theorem SecondsSpelled.no_mark {result : Nat × Nat} (h : SecondsSpelled text result) : ∀ c ∈ text, isMark c = false := by
  cases h with
  | none => rintro _ ⟨⟩
  | seconds hs =>
    intro c hc
    obtain rfl | hc := List.mem_cons.mp hc
    · decide
    · exact hs.no_mark c hc
  | fraction hs hf _ =>
    intro c hc
    obtain hc | hc := List.mem_append.mp hc
    · obtain rfl | hc := List.mem_cons.mp hc
      · decide
      · exact hs.no_mark c hc
    · obtain rfl | hc := List.mem_cons.mp hc
      · decide
      · exact hf.no_mark c hc

theorem ClockSpelled.no_mark {time : Nat × Nat × Nat × Nat} (h : ClockSpelled text time) :
    ∀ c ∈ text, isMark c = false := by
  obtain ⟨hhour, hminute, hseconds⟩ := h
  intro c hc
  obtain hc | hc := List.mem_append.mp hc
  · obtain hc | hc := List.mem_append.mp hc
    · exact hhour.no_mark c hc
    · obtain rfl | hc := List.mem_cons.mp hc
      · decide
      · exact hminute.no_mark c hc
  · exact hseconds.no_mark c hc

/-- A mark, and no other after it. -/
def Marked (o : List Char) : Prop := ∃ mark rest, o = mark :: rest ∧ isMark mark ∧ ∀ c ∈ rest, isMark c = false

theorem ZoneSpelled.marked {o : List Char} {zone : Zone} (h : ZoneSpelled o zone) : o = [] ∨ Marked o := by
  cases h with
  | none => exact .inl rfl
  | utc => exact .inr ⟨'Z', [], rfl, by decide, by rintro _ ⟨⟩⟩
  | offset hmark hh hm =>
    refine .inr ⟨_, _, rfl, hmark, fun c hc => ?_⟩
    obtain hc | hc := List.mem_append.mp hc
    · exact hh.no_mark c hc
    · obtain rfl | hc := List.mem_cons.mp hc
      · decide
      · exact hm.no_mark c hc

theorem splitOffset_none {c : List Char} (h : ∀ d ∈ c, isMark d = false) : splitOffset c = (c, none) := by
  rw [splitOffset, splitLast_eq_none.mpr h]

theorem splitOffset_some {c o : List Char} (h : Marked o) : splitOffset (c ++ o) = (c, some o) := by
  rw [splitOffset, splitLast_eq_some.mpr ⟨rfl, h⟩]

theorem splitOffset_cases (rest : List Char) :
    splitOffset rest = (rest, none) ∨ ∃ c o, rest = c ++ o ∧ Marked o ∧ splitOffset rest = (c, some o) := by
  rw [splitOffset]
  cases hlast : splitLast isMark rest with
  | none => exact .inl rfl
  | some r =>
    obtain ⟨hrest, hmarked⟩ := splitLast_eq_some.mp hlast
    exact .inr ⟨r.1, r.2, hrest, hmarked, rfl⟩

theorem zoneSpelled_iff {o : List Char} {zone : Zone} : ZoneSpelled o zone ↔
    o = [] ∧ zone = .none ∨ o = ['Z'] ∧ zone = .utc ∨ ∃ mark h m hours minutes, o = mark :: h ++ ':' :: m ∧
      isMark mark ∧ Spells 2 h hours ∧ Spells 2 m minutes ∧ zone = .offset mark hours minutes := by
  constructor
  · rintro (_ | _ | ⟨hmark, hh, hm⟩)
    · exact .inl ⟨rfl, rfl⟩
    · exact .inr (.inl ⟨rfl, rfl⟩)
    · exact .inr (.inr ⟨_, _, _, _, _, rfl, hmark, hh, hm, rfl⟩)
  · rintro (⟨rfl, rfl⟩ | ⟨rfl, rfl⟩ | ⟨mark, h, m, hours, minutes, rfl, hmark, hh, hm, rfl⟩)
    · exact .none
    · exact .utc
    · exact .offset hmark hh hm

/-- Two digits, a colon and two digits after a mark. -/
theorem returns_offsetOf {o : List Char} (hmarked : Marked o) {seconds : Int} :
    Returns (offsetOf (some o)) seconds ↔ ∃ zone, ZoneSpelled o zone ∧ zone.seconds = seconds := by
  obtain ⟨mark, rest, rfl, hmark, _⟩ := hmarked
  have hsize := mark_size hmark
  unfold offsetOf
  split
  · rename_i heq
    cases heq
  · rename_i heq
    cases heq
    rw [returns_pure]
    constructor
    · rintro rfl
      exact ⟨.utc, .utc, rfl⟩
    · rintro ⟨zone, hspelled, rfl⟩
      obtain ⟨hnil, _⟩ | ⟨_, rfl⟩ | ⟨_, h, m, _, _, ho, _⟩ := zoneSpelled_iff.mp hspelled
      · cases hnil
      · rfl
      · cases (List.append_eq_nil_iff.mp (List.cons.inj ho).2.symm).2
  · rename_i offset hnotUtc heq
    obtain rfl := Option.some.inj heq
    simp only [returns_bind, returns_guard, returns_pure, returns_index]
    constructor
    · rintro ⟨_, hbytes, colon, hcolon, _, hcolon', hours, hhours, minutes, hminutes, rfl⟩
      obtain ⟨a, h, x, m, b, ho, ha, hh, hhours', hx, hm, hminutes', hslice⟩ := digits_between hhours hminutes (by decide)
      have hsame : x = colon := Option.some.inj (hslice.symm.trans hcolon)
      subst hsame hcolon'
      have hb : b = [] := by
        apply bytes_eq_zero
        rw [ho] at hbytes
        simp only [bytes_append, bytes_of_number hhours', bytes_of_number hminutes', colon_size, Text.bytes] at hbytes
        omega
      subst hb
      have hjoin : [mark] ++ rest = a ++ (h ++ ([':'] ++ m)) := by simpa using ho
      obtain ⟨rfl, hrest⟩ := append_inj_of_bytes hjoin (by rw [ha]; simpa [Text.bytes] using hsize)
      refine ⟨.offset mark hours minutes, ?_, ?_⟩
      · rw [hrest]
        exact .offset (m := m) hmark ⟨by omega, hhours'⟩ ⟨by omega, hminutes'⟩
      · rw [Zone.seconds]
        simp
    · rintro ⟨zone, hspelled, rfl⟩
      obtain ⟨hnil, _⟩ | ⟨hutc, rfl⟩ | ⟨_, h, m, hours, minutes, ho, _, hh, hm, rfl⟩ := zoneSpelled_iff.mp hspelled
      · cases hnil
      · exact absurd hutc (fun h => hnotUtc (by rw [h]))
      · obtain ⟨rfl, rfl⟩ := List.cons.inj ho
        have hhb := hh.bytes
        have hmb := hm.bytes
        refine ⟨(), ?_, [':'], ?_, (), rfl, hours, ?_, minutes, ?_, ?_⟩
        · simp [Text.bytes, hhb, hmb, hsize, colon_size]
        · exact slice_eq_some.mpr ⟨mark :: h, m, by simp, by simp [Text.bytes, hhb, hsize],
            by simp [Text.bytes, hhb, hsize, colon_size]⟩
        · simpa using hh.returns_digits (a := [mark]) (b := ':' :: m) (i := 1) (j := 3) (by simp [Text.bytes, hsize]) rfl
        · simpa using hm.returns_digits (a := mark :: h ++ [':']) (b := []) (i := 4) (j := 6)
            (by simp [Text.bytes, hhb, hsize, colon_size]) rfl
        · rw [Zone.seconds]
          simp

/-- Six bytes from the mark whose fourth is not a character. -/
theorem fails_offsetOf {o : List Char} :
    Fails (offsetOf (some o)) ↔ bytes o = 6 ∧ slice 3 4 o = none := by
  unfold offsetOf
  split
  · rename_i heq
    cases heq
  · rename_i heq
    cases heq
    constructor
    · exact fun h => absurd h not_fails_pure
    · rintro ⟨hbytes, _⟩
      cases hbytes
  · rename_i offset _ heq
    obtain rfl := Option.some.inj heq
    simp only [fails_bind, not_fails_guard, false_or, fails_index, returns_guard, not_fails_digits, not_fails_pure,
      and_false, exists_false, or_false, exists_const]

end AsceticDdd.Specification.Reading
