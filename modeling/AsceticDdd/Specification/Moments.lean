import AsceticDdd.Specification.Spelling
import Mathlib.Data.List.Induction

/-!
# What is read in memory, and what the server reads

The server's form has years from one on and offsets of a sign and up to fifteen hours.
-/

namespace AsceticDdd.Specification.Reading

open Control Text

variable {text rest : List Char} {time : Nat × Nat × Nat × Nat} {seconds : Int}

theorem returns_timeOfDay : Returns (timeOfDay rest) (time, seconds) ↔
    ∃ zone, RestSpelled rest time zone ∧ zone.seconds = seconds := by
  cases rest with
  | nil =>
    rw [timeOfDay, returns_pure]
    constructor
    · rintro ⟨⟩
      exact ⟨.none, .none, rfl⟩
    · rintro ⟨_, ⟨⟩, rfl⟩
      rfl
  | cons separator rest =>
    simp only [timeOfDay, returns_bind, returns_guard, returns_pure, returns_clock]
    constructor
    · rintro ⟨_, hseparator, _, hclock, _, hoffset, ⟨⟩⟩
      obtain hsplit | ⟨c, o, rfl, hmarked, hsplit⟩ := splitOffset_cases rest
      · rw [hsplit] at hclock hoffset
        refine ⟨.none, ?_, returns_pure.mp hoffset⟩
        simpa using RestSpelled.time hseparator hclock .none
      · rw [hsplit] at hclock hoffset
        obtain ⟨zone, hzone, hseconds⟩ := (returns_offsetOf hmarked).mp hoffset
        exact ⟨zone, .time hseparator hclock hzone, hseconds⟩
    · rintro ⟨zone, hrest, rfl⟩
      obtain _ | ⟨hseparator, hclock, hzone⟩ := hrest
      obtain rfl | hmarked := hzone.marked
      · rw [List.append_nil, splitOffset_none hclock.no_mark]
        obtain ⟨_, rfl⟩ | ⟨⟨⟩, _⟩ | ⟨_, _, _, _, _, ⟨⟩, _⟩ := zoneSpelled_iff.mp hzone
        exact ⟨(), hseparator, time, hclock, 0, rfl, rfl⟩
      · rw [splitOffset_some hmarked]
        exact ⟨(), hseparator, time, hclock, _, (returns_offsetOf hmarked).mpr ⟨zone, hzone, rfl⟩, rfl⟩

/-- A mark and five bytes, of which the fourth byte of the six is not a character. -/
def Uncut (o : List Char) : Prop := Marked o ∧ bytes o = 6 ∧ slice 3 4 o = none

theorem fails_timeOfDay : Fails (timeOfDay rest) ↔
    ∃ separator c o time, rest = separator :: (c ++ o) ∧ (separator = 'T' ∨ separator = ' ') ∧
      ClockSpelled c time ∧ Uncut o := by
  cases rest with
  | nil =>
    constructor
    · exact fun h => absurd h not_fails_pure
    · rintro ⟨_, _, _, _, ⟨⟩, _⟩
  | cons separator rest =>
    simp only [timeOfDay, fails_bind, not_fails_guard, false_or, returns_guard, not_fails_clock, returns_clock,
      not_fails_pure, and_false, exists_false, or_false, exists_const]
    constructor
    · rintro ⟨hseparator, time, hclock, hoffset⟩
      obtain hsplit | ⟨c, o, rfl, hmarked, hsplit⟩ := splitOffset_cases rest
      · rw [hsplit] at hoffset
        exact absurd hoffset not_fails_pure
      · rw [hsplit] at hclock hoffset
        obtain ⟨hbytes, hslice⟩ := fails_offsetOf.mp hoffset
        exact ⟨separator, c, o, time, rfl, hseparator, hclock, hmarked, hbytes, hslice⟩
    · rintro ⟨_, c, o, time, heq, hseparator, hclock, hmarked, hbytes, hslice⟩
      obtain ⟨rfl, rfl⟩ := List.cons.inj heq
      rw [splitOffset_some hmarked]
      exact ⟨hseparator, time, hclock, fails_offsetOf.mpr ⟨hbytes, hslice⟩⟩

theorem DateSpelled.bytes {d : List Char} {date : Nat × Nat × Nat} (h : DateSpelled d date) : Text.bytes d = 10 := by
  obtain ⟨hyear, hmonth, hday⟩ := h
  have hdash : '-'.utf8Size = 1 := by decide
  simp [Text.bytes, hyear.bytes, hmonth.bytes, hday.bytes, hdash]

/-- The date is the first ten bytes. -/
theorem split_date {d : List Char} {date : Nat × Nat × Nat} (h : DateSpelled d date) :
    splitAtByte (min (bytes (d ++ rest)) 10) (d ++ rest) = some (d, rest) := by
  refine splitAtByte_eq_some.mpr ⟨rfl, ?_⟩
  rw [bytes_append, h.bytes]
  omega

variable [Chrono] {day micros : Int}

/-- The texts that are read: the date is one of the calendar, and the time one of the day. -/
theorem returns_parse : Returns (parse text) ((day, micros), seconds) ↔
    ∃ year month d hour minute second micro zone,
      Spelled text (year, month, d) (hour, minute, second, micro) zone ∧
      Chrono.fromYmdOpt year month d = some day ∧ Chrono.hmsMicroOpt hour minute second micro = some micros ∧
      zone.seconds = seconds := by
  simp only [parse, returns_bind, returns_orPanic, returns_ofOption, returns_pure, returns_ymd]
  constructor
  · rintro ⟨⟨d, rest⟩, hsplit, ⟨year, month, dayOf⟩, hdate, _, hday, ⟨⟨hour, minute, second, micro⟩, _⟩, htime, _, hmicros, ⟨⟩⟩
    obtain ⟨rfl, _⟩ := splitAtByte_eq_some.mp hsplit
    obtain ⟨zone, hrest, hseconds⟩ := returns_timeOfDay.mp htime
    exact ⟨year, month, dayOf, hour, minute, second, micro, zone, .mk hdate hrest, hday, hmicros, hseconds⟩
  · rintro ⟨year, month, dayOf, hour, minute, second, micro, zone, ⟨hdate, hrest⟩, hday, hmicros, rfl⟩
    exact ⟨(_, _), split_date hdate, (year, month, dayOf), hdate, day, hday, ((hour, minute, second, micro), zone.seconds),
      returns_timeOfDay.mpr ⟨zone, hrest, rfl⟩, micros, hmicros, rfl⟩

/-- Where a text is not cut: in its eleventh byte, or in an offset after a date and a time. -/
def Miscut (text : List Char) : Prop :=
  splitAtByte (min (bytes text) 10) text = none ∨
    ∃ d year month day separator c o time, text = d ++ separator :: (c ++ o) ∧ DateSpelled d (year, month, day) ∧
      (Chrono.fromYmdOpt year month day).isSome ∧ (separator = 'T' ∨ separator = ' ') ∧ ClockSpelled c time ∧ Uncut o

theorem fails_parse : Fails (parse text) ↔ Miscut text := by
  simp only [parse, fails_bind, fails_orPanic, returns_orPanic, not_fails_ymd, false_or, not_fails_ofOption,
    returns_ofOption, returns_ymd, not_fails_pure, and_false, exists_false, or_false, fails_timeOfDay]
  refine or_congr Iff.rfl ?_
  constructor
  · rintro ⟨⟨d, rest⟩, hsplit, ⟨year, month, dayOf⟩, hdate, day, hday, separator, c, o, time, hrest, hseparator, hclock, huncut⟩
    obtain ⟨rfl, _⟩ := splitAtByte_eq_some.mp hsplit
    exact ⟨d, year, month, dayOf, separator, c, o, time, by rw [← hrest], hdate, Option.isSome_iff_exists.mpr ⟨day, hday⟩,
      hseparator, hclock, huncut⟩
  · rintro ⟨d, year, month, dayOf, separator, c, o, time, rfl, hdate, hday, hseparator, hclock, huncut⟩
    obtain ⟨day, hday⟩ := Option.isSome_iff_exists.mp hday
    exact ⟨(d, _), split_date hdate, (year, month, dayOf), hdate, day, hday, separator, c, o, time, rfl, hseparator,
      hclock, huncut⟩

omit [Chrono] in
theorem ZoneSpelled.unique {o : List Char} {zone zone' : Zone} (h : ZoneSpelled o zone) (h' : ZoneSpelled o zone') :
    zone = zone' := by
  obtain ⟨rfl, rfl⟩ | ⟨rfl, rfl⟩ | ⟨mark, h, m, hours, minutes, rfl, _, hh, hm, rfl⟩ := zoneSpelled_iff.mp h
  · obtain ⟨_, rfl⟩ | ⟨⟨⟩, _⟩ | ⟨_, _, _, _, _, ⟨⟩, _⟩ := zoneSpelled_iff.mp h'
    rfl
  · obtain ⟨⟨⟩, _⟩ | ⟨_, rfl⟩ | ⟨_, _, _, _, _, ho, _⟩ := zoneSpelled_iff.mp h'
    · rfl
    · cases (List.append_eq_nil_iff.mp (List.cons.inj ho).2.symm).2
  · obtain ⟨⟨⟩, _⟩ | ⟨ho, _⟩ | ⟨_, h'', m'', _, _, ho, _, hh'', hm'', rfl⟩ := zoneSpelled_iff.mp h'
    · cases (List.append_eq_nil_iff.mp (List.cons.inj ho).2).2
    · obtain ⟨rfl, hrest⟩ := List.cons.inj ho
      obtain ⟨rfl, hm'⟩ := List.append_inj hrest (hh.1.trans hh''.1.symm)
      obtain ⟨_, rfl⟩ := List.cons.inj hm'
      rw [Option.some.inj (hh.2.symm.trans hh''.2), Option.some.inj (hm.2.symm.trans hm''.2)]

omit [Chrono] in
theorem DateSpelled.unique {date date' : Nat × Nat × Nat} (h : DateSpelled text date) (h' : DateSpelled text date') :
    date = date' := (returns_ymd.mpr h).unique (returns_ymd.mpr h')

omit [Chrono] in
theorem ClockSpelled.unique {time time' : Nat × Nat × Nat × Nat} (h : ClockSpelled text time)
    (h' : ClockSpelled text time') : time = time' := (returns_clock.mpr h).unique (returns_clock.mpr h')

omit [Chrono] in
theorem RestSpelled.unique {time' : Nat × Nat × Nat × Nat} {zone zone' : Zone} (h : RestSpelled rest time zone)
    (h' : RestSpelled rest time' zone') : time = time' ∧ zone = zone' := by
  cases h with
  | none =>
    cases h'
    exact ⟨rfl, rfl⟩
  | time hseparator hclock hzone =>
    rename_i c o separator
    generalize hrest : separator :: (c ++ o) = rest' at h'
    cases h' with
    | none => cases hrest
    | time hseparator' hclock' hzone' =>
      rename_i c' o' separator'
      have hjoin : c ++ o = c' ++ o' := (List.cons.inj hrest).2
      have hsplit : ∀ {c o : List Char} {time zone}, ClockSpelled c time → ZoneSpelled o zone →
          splitOffset (c ++ o) = (c, if o = [] then Option.none else some o) := by
        intro c o time zone hclock hzone
        obtain rfl | hmarked := hzone.marked
        · rw [List.append_nil, splitOffset_none hclock.no_mark, if_pos rfl]
        · obtain ⟨mark, rest, rfl, _⟩ := id hmarked
          rw [splitOffset_some hmarked, if_neg (List.cons_ne_nil _ _)]
      have hsame := (hsplit hclock hzone).symm.trans (hjoin ▸ hsplit hclock' hzone')
      obtain ⟨rfl, _⟩ := Prod.mk.inj hsame
      obtain rfl := List.append_cancel_left hjoin
      exact ⟨hclock.unique hclock', hzone.unique hzone'⟩

omit [Chrono] in
theorem Spelled.unique {date date' : Nat × Nat × Nat} {time' : Nat × Nat × Nat × Nat} {zone zone' : Zone}
    (h : Spelled text date time zone) (h' : Spelled text date' time' zone') :
    date = date' ∧ time = time' ∧ zone = zone' := by
  obtain ⟨hdate, hrest⟩ := h
  rename_i d rest
  generalize htext : d ++ rest = text' at h'
  obtain ⟨hdate', hrest'⟩ := h'
  obtain ⟨rfl, rfl⟩ := append_inj_of_bytes htext (hdate.bytes.trans hdate'.bytes.symm)
  exact ⟨hdate.unique hdate', hrest.unique hrest'⟩

omit [Chrono] in
theorem number_lt {m : List Char} {n : Nat} (h : number m = some n) : n < 10 ^ m.length := by
  have hall := all_of_number h
  rw [number, Option.ite_none_right_eq_some] at h
  obtain rfl := Option.some.inj h.2
  clear h
  induction m using List.reverseRecOn with
  | nil => decide
  | append_singleton m c ih =>
    rw [List.all_append, Bool.and_eq_true] at hall
    have hlt := ih hall.1
    have hdigit : c.isDigit := by simpa using hall.2
    have hc : c.toNat - '0'.toNat < 10 := by
      simp only [Char.isDigit, Bool.and_eq_true, decide_eq_true_eq, ge_iff_le, UInt32.le_iff_toNat_le] at hdigit
      have hnine : c.toNat ≤ 57 := hdigit.2
      have hzero : '0'.toNat = 48 := rfl
      omega
    rw [Nat.ofDigitChars_append, Nat.ofDigitChars_cons, Nat.ofDigitChars_nil, List.length_append, List.length_singleton,
      Nat.pow_succ]
    omega

omit [Chrono] in
theorem SecondsSpelled.micros_lt {result : Nat × Nat} (h : SecondsSpelled text result) : result.2 < 1000000 := by
  cases h with
  | none => decide
  | seconds => exact Nat.zero_lt_succ _
  | fraction hs hpart hlength =>
    rename_i s f second part
    calc part * 10 ^ (6 - f.length)
        < 10 ^ f.length * 10 ^ (6 - f.length) := Nat.mul_lt_mul_of_pos_right (number_lt hpart.2) (Nat.pow_pos (by decide))
      _ = 1000000 := by rw [← Nat.pow_add, Nat.add_sub_cancel' hlength]

omit [Chrono] in
theorem Spelled.micros_lt {date : Nat × Nat × Nat} {zone : Zone} (h : Spelled text date time zone) :
    time.2.2.2 < 1000000 := by
  obtain ⟨_, hrest⟩ := h
  cases hrest with
  | none => decide
  | time _ hclock _ =>
    obtain ⟨_, _, hseconds⟩ := hclock
    exact hseconds.micros_lt

/-- A time of the day. -/
def InDay (hour minute second : Nat) : Prop := hour < 24 ∧ minute < 60 ∧ second < 60

def microsOf (hour minute second micro : Nat) : Int := (((hour * 60 + minute) * 60 + second) * 1000000 + micro : Nat)

theorem hms_iff {date : Nat × Nat × Nat} {hour minute second micro : Nat} {zone : Zone}
    (h : Spelled text date (hour, minute, second, micro) zone) :
    Chrono.hmsMicroOpt hour minute second micro = some micros ↔
      InDay hour minute second ∧ micros = microsOf hour minute second micro := by
  rw [Chrono.hmsMicroOpt_eq _ _ _ _ h.micros_lt, Option.ite_none_right_eq_some]
  constructor
  · rintro ⟨hday, ⟨⟩⟩
    exact ⟨hday, rfl⟩
  · rintro ⟨hday, rfl⟩
    exact ⟨hday, rfl⟩

/-- The offsets the server takes: none, `Z`, or a sign and up to fifteen hours. -/
def Zone.Server : Zone → Prop
  | none | utc => True
  | offset mark hours minutes => (mark = '+' ∨ mark = '-') ∧ hours ≤ 15 ∧ minutes ≤ 59

/-- The texts of the documented form, with the day, the microsecond of the day and the offset that a server reads
whose session's time zone is UTC. -/
def Server (text : List Char) (day micros : Int) (zone : Zone) : Prop :=
  ∃ year month d hour minute second micro,
    Spelled text (year, month, d) (hour, minute, second, micro) zone ∧ 1 ≤ year ∧
    Chrono.fromYmdOpt year month d = some day ∧ InDay hour minute second ∧
    micros = microsOf hour minute second micro ∧ zone.Server

/-- What is read in memory is what the server reads. -/
def ReadAsServer (text : List Char) : Prop :=
  (∀ v, Returns (pointInTime text) v ↔ ∃ day micros zone, Server text day micros zone ∧
    v = timestampMicros (day, micros) - zone.seconds * 1000000) ∧
  (∀ v, Returns (withoutZone text) v ↔ ∃ day micros zone, Server text day micros zone ∧
    v = timestampMicros (day, micros)) ∧
  ∀ v, Returns (calendarDate text) v ↔ ∃ day micros zone, Server text day micros zone ∧ v = day - UNIX_EPOCH_FROM_CE

/-- A year and an offset the server takes, where the text is of the form with any. -/
def InLimits (text : List Char) : Prop :=
  ∀ year month d hour minute second micro zone, Spelled text (year, month, d) (hour, minute, second, micro) zone →
    (Chrono.fromYmdOpt year month d).isSome → InDay hour minute second → 1 ≤ year ∧ zone.Server

theorem parse_iff_server (h : InLimits text) : Returns (parse text) ((day, micros), seconds) ↔
    ∃ zone, Server text day micros zone ∧ zone.seconds = seconds := by
  rw [returns_parse]
  constructor
  · rintro ⟨year, month, d, hour, minute, second, micro, zone, hspelled, hday, hmicros, rfl⟩
    obtain ⟨hinDay, rfl⟩ := (hms_iff hspelled).mp hmicros
    obtain ⟨hyear, hzone⟩ := h _ _ _ _ _ _ _ _ hspelled (Option.isSome_iff_exists.mpr ⟨day, hday⟩) hinDay
    exact ⟨zone, ⟨year, month, d, hour, minute, second, micro, hspelled, hyear, hday, hinDay, rfl, hzone⟩, rfl⟩
  · rintro ⟨zone, ⟨year, month, d, hour, minute, second, micro, hspelled, _, hday, hinDay, rfl, _⟩, rfl⟩
    exact ⟨year, month, d, hour, minute, second, micro, zone, hspelled, hday, (hms_iff hspelled).mpr ⟨hinDay, rfl⟩, rfl⟩

/-- An offset the server takes is one of the calendar library. -/
theorem Zone.Server.eastOpt {zone : Zone} (h : zone.Server) : Chrono.eastOpt zone.seconds = some zone.seconds := by
  rw [Chrono.eastOpt_eq, if_pos]
  cases zone with
  | none => decide
  | utc => decide
  | offset mark hours minutes =>
    obtain ⟨_, hhours, hminutes⟩ := h
    rw [Zone.seconds]
    split <;> omega

theorem eastOpt_eq_some {seconds' : Int} (h : Chrono.eastOpt seconds = some seconds') : seconds = seconds' := by
  rw [Chrono.eastOpt_eq, Option.ite_none_right_eq_some] at h
  exact Option.some.inj h.2

theorem InLimits.readAsServer (h : InLimits text) : ReadAsServer text := by
  refine ⟨fun v => ?_, fun v => ?_, fun v => ?_⟩
  · simp only [pointInTime, returns_bind, returns_ofOption, returns_pure, Prod.exists, parse_iff_server h]
    constructor
    · rintro ⟨day, micros, _, ⟨zone, hserver, rfl⟩, _, heast, rfl⟩
      rw [← eastOpt_eq_some heast]
      exact ⟨day, micros, zone, hserver, rfl⟩
    · rintro ⟨day, micros, zone, hserver, rfl⟩
      obtain ⟨_, _, _, _, _, _, _, _, _, _, _, _, hzone⟩ := id hserver
      exact ⟨day, micros, _, ⟨zone, hserver, rfl⟩, _, hzone.eastOpt, rfl⟩
  · simp only [withoutZone, returns_bind, returns_pure, Prod.exists, parse_iff_server h]
    constructor
    · rintro ⟨day, micros, _, ⟨zone, hserver, rfl⟩, rfl⟩
      exact ⟨day, micros, zone, hserver, rfl⟩
    · rintro ⟨day, micros, zone, hserver, rfl⟩
      exact ⟨day, micros, _, ⟨zone, hserver, rfl⟩, rfl⟩
  · simp only [calendarDate, returns_bind, returns_pure, Prod.exists, parse_iff_server h]
    constructor
    · rintro ⟨day, micros, _, ⟨zone, hserver, rfl⟩, rfl⟩
      exact ⟨day, micros, zone, hserver, rfl⟩
    · rintro ⟨day, micros, zone, hserver, rfl⟩
      exact ⟨day, micros, _, ⟨zone, hserver, rfl⟩, rfl⟩

/-- Reading a text panics exactly when the text is miscut. -/
theorem reading_panics_iff :
    (Fails (pointInTime text) ↔ Miscut text) ∧ (Fails (withoutZone text) ↔ Miscut text) ∧
      (Fails (calendarDate text) ↔ Miscut text) := by
  simp only [pointInTime, withoutZone, calendarDate, fails_bind, not_fails_ofOption, not_fails_pure, and_false,
    exists_false, or_false, fails_parse, and_self]

/-- What is read in memory is what the server reads, exactly where the year and the offset are ones the
server takes. -/
theorem readAsServer_iff : ReadAsServer text ↔ InLimits text := by
  refine ⟨fun h year month d hour minute second micro zone hspelled hday hinDay => ?_, InLimits.readAsServer⟩
  obtain ⟨day, hday⟩ := Option.isSome_iff_exists.mp hday
  have hparse := returns_parse.mpr ⟨year, month, d, hour, minute, second, micro, zone, hspelled, hday,
    (hms_iff hspelled).mpr ⟨hinDay, rfl⟩, rfl⟩
  have hread : Returns (withoutZone text) (timestampMicros (day, microsOf hour minute second micro)) := by
    simp only [withoutZone, returns_bind, returns_pure]
    exact ⟨_, hparse, rfl⟩
  obtain ⟨_, _, _, ⟨year', _, _, _, _, _, _, hspelled', hyear, _, _, _, hzone⟩, _⟩ := (h.2.1 _).mp hread
  obtain ⟨hdate, _, rfl⟩ := hspelled.unique hspelled'
  exact ⟨(Prod.mk.inj hdate).1 ▸ hyear, hzone⟩

/-- A day with a letter of two bytes for its second digit. -/
def accented : List Char := ['2', '0', '2', '6', '-', '0', '1', '-', '0', 'é']

omit [Chrono] in
theorem accented_panics : ¬ ∀ (_ : Chrono) (text : List Char), ¬ Fails (pointInTime text) :=
  fun h => h civil accented ⟨.slice, rfl⟩

/-- An offset of two digits and two digits after a `Z`. -/
def afterUtc : List Char :=
  ['2', '0', '2', '6', '-', '0', '1', '-', '0', '1', 'T', '1', '0', ':', '0', '0', 'Z', '1', '2', ':', '3', '4']

omit [Chrono] in
theorem offset_after_utc : ¬ ∀ (_ : Chrono) (text : List Char), ReadAsServer text := by
  intro h
  have hspelled : Spelled afterUtc (2026, 1, 1) (10, 0, 0, 0) (.offset 'Z' 12 34) :=
    .mk (d := ['2', '0', '2', '6', '-', '0', '1', '-', '0', '1'])
      (.mk (y := ['2', '0', '2', '6']) (m := ['0', '1']) (d := ['0', '1']) ⟨rfl, rfl⟩ ⟨rfl, rfl⟩ ⟨rfl, rfl⟩)
      (.time (c := ['1', '0', ':', '0', '0']) (.inl rfl)
        (.mk (h := ['1', '0']) (m := ['0', '0']) ⟨rfl, rfl⟩ ⟨rfl, rfl⟩ .none)
        (.offset (h := ['1', '2']) (m := ['3', '4']) (by decide) ⟨rfl, rfl⟩ ⟨rfl, rfl⟩))
  let chrono := civil
  obtain ⟨_, _, _, ⟨_, _, _, _, _, _, _, hspelled', _, _, _, _, hzone⟩, _⟩ :=
    ((h civil afterUtc).2.1 _).mp (rfl : Returns (withoutZone afterUtc) 1767261600000000)
  obtain ⟨_, _, rfl⟩ := hspelled.unique hspelled'
  obtain ⟨hmark | hmark, _⟩ := hzone
  · cases hmark
  · cases hmark

end AsceticDdd.Specification.Reading
