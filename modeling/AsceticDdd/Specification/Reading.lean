import AsceticDdd.Text.Bytes
import Mathlib.Algebra.Ring.Nat

/-!
# A string constant read as the kind of the value beside it

The code slices by byte offsets: a slice that is not at the boundaries of characters panics, where one
asked for with `get` is none.
-/

namespace AsceticDdd.Specification

open Text

inductive Panic
  | slice
deriving DecidableEq

/-- A value, or none, or a panic. -/
abbrev Reading := OptionT (Except Panic)

/-- Dates, times of day and offsets, as the calendar library has them. -/
class Chrono where
  /-- The day of a year, a month and a day, counted from the day before 0001-01-01. -/
  fromYmdOpt : Nat → Nat → Nat → Option Int
  /-- The microsecond of the day at an hour, a minute, a second and a microsecond. -/
  hmsMicroOpt : Nat → Nat → Nat → Nat → Option Int
  hmsMicroOpt_eq : ∀ hour minute second micros, micros < 1000000 →
    hmsMicroOpt hour minute second micros =
      if hour < 24 ∧ minute < 60 ∧ second < 60 then
        some ((((hour * 60 + minute) * 60 + second) * 1000000 + micros : Nat) : Int)
      else none
  /-- The offset of some seconds to the east. -/
  eastOpt : Int → Option Int
  eastOpt_eq : ∀ seconds, eastOpt seconds = if -86400 < seconds ∧ seconds < 86400 then some seconds else none

namespace Reading

/-- The last day of a month of the Gregorian calendar. -/
def lastDay (year month : Nat) : Nat :=
  if month = 2 then if year % 4 = 0 ∧ (year % 100 ≠ 0 ∨ year % 400 = 0) then 29 else 28
  else if month = 4 ∨ month = 6 ∨ month = 9 ∨ month = 11 then 30
  else 31

def fromCe (year : Int) (month day : Nat) : Int :=
  365 * (year - 1) + (year - 1) / 4 - (year - 1) / 100 + (year - 1) / 400 +
    ((List.range (month - 1)).map fun m => lastDay year.toNat (m + 1)).sum + day

@[reducible] def civil : Chrono where
  fromYmdOpt year month day :=
    if 1 ≤ month ∧ month ≤ 12 ∧ 1 ≤ day ∧ day ≤ lastDay year month then some (fromCe year month day) else none
  hmsMicroOpt hour minute second micros :=
    if hour < 24 ∧ minute < 60 ∧ second < 60 ∧ micros < 1000000 then
      some ((((hour * 60 + minute) * 60 + second) * 1000000 + micros : Nat) : Int)
    else none
  hmsMicroOpt_eq hour minute second micros h := by simp [h]
  eastOpt seconds := if -86400 < seconds ∧ seconds < 86400 then some seconds else none
  eastOpt_eq _ := rfl

variable {α : Type}

def ofOption (value : Option α) : Reading α := OptionT.mk (.ok value)

def orPanic (value : Option α) : Reading α := OptionT.mk (value.elim (.error .slice) fun a => .ok (some a))

def index (i j : Nat) (text : List Char) : Reading (List Char) := orPanic (slice i j text)

def indexFrom (i : Nat) (text : List Char) : Reading (List Char) := orPanic ((splitAtByte i text).map (·.2))

/-- The number the digits at the bytes spell: at most six of them, so that it fits. -/
def digits (i j : Nat) (text : List Char) : Reading Nat := ofOption ((slice i j text).bind number)

/-- Days from 0001-01-01, the day the library counts from, to the Unix epoch. -/
def UNIX_EPOCH_FROM_CE : Int := 719163

def isMark (c : Char) : Bool := c = 'Z' ∨ c = '+' ∨ c = '-'

/-- `text` to six characters, with zeros after it. -/
def padded (text : List Char) : List Char := text ++ List.replicate (6 - text.length) '0'

/-- What comes after the minutes: seconds, and a fraction of up to six digits. -/
def secondsOf : List Char → Reading (Nat × Nat)
  | [] => pure (0, 0)
  | ':' :: rest => do
    let second ← digits 1 3 (':' :: rest)
    match ← indexFrom 3 (':' :: rest) with
    | [] => pure (second, 0)
    | '.' :: fraction => do
      guard (2 ≤ bytes ('.' :: fraction) ∧ bytes ('.' :: fraction) ≤ 7)
      let micros ← digits 0 6 (padded (← indexFrom 1 ('.' :: fraction)))
      pure (second, micros)
    | _ => failure
  | _ => failure

/-- The seconds of the offset, zero for `Z` and for none. -/
def offsetOf : Option (List Char) → Reading Int
  | none => pure 0
  | some ['Z'] => pure 0
  | some offset => do
    guard (bytes offset = 6)
    guard ((← index 3 4 offset) = [':'])
    let hours ← digits 1 3 offset
    let minutes ← digits 4 6 offset
    let seconds : Int := (hours * 60 + minutes) * 60
    pure (if offset.head? = some '-' then -seconds else seconds)

/-- The text before the last mark of an offset, and the text from it. -/
def splitOffset (rest : List Char) : List Char × Option (List Char) :=
  match splitLast isMark rest with
  | some (before, found) => (before, some found)
  | none => (rest, none)

/-- Hours and minutes, and what comes after them. -/
def clock (rest : List Char) : Reading (Nat × Nat × Nat × Nat) := do
  let hour ← digits 0 2 rest
  let minute ← digits 3 5 rest
  guard (5 ≤ bytes rest)
  guard ((← index 2 3 rest) = [':'])
  let (second, micros) ← secondsOf (← indexFrom 5 rest)
  pure (hour, minute, second, micros)

/-- The time of day after the date; midnight in UTC where there is none. -/
def timeOfDay : List Char → Reading ((Nat × Nat × Nat × Nat) × Int)
  | [] => pure ((0, 0, 0, 0), 0)
  | first :: rest => do
    guard (first = 'T' ∨ first = ' ')
    let time ← clock (splitOffset rest).1
    let offset ← offsetOf (splitOffset rest).2
    pure (time, offset)

/-- The year, the month and the day a text of ten bytes spells. -/
def ymd (date : List Char) : Reading (Nat × Nat × Nat) := do
  let year ← digits 0 4 date
  let month ← digits 5 7 date
  let day ← digits 8 10 date
  guard (bytes date = 10)
  guard ((← index 4 5 date) = ['-'])
  guard ((← index 7 8 date) = ['-'])
  pure (year, month, day)

variable [Chrono]

/-- The date and the time of day `text` spells, and its offset in seconds. -/
def parse (text : List Char) : Reading ((Int × Int) × Int) := do
  let (date, rest) ← orPanic (splitAtByte (min (bytes text) 10) text)
  let (year, month, day) ← ymd date
  let date ← ofOption (Chrono.fromYmdOpt year month day)
  let ((hour, minute, second, micros), offset) ← timeOfDay rest
  let time ← ofOption (Chrono.hmsMicroOpt hour minute second micros)
  pure ((date, time), offset)

/-- Microseconds since the Unix epoch. -/
def timestampMicros (moment : Int × Int) : Int := (moment.1 - UNIX_EPOCH_FROM_CE) * 86400000000 + moment.2

/-- `text` as a point in time, with its offset applied. -/
def pointInTime (text : List Char) : Reading Int := do
  let (moment, offset) ← parse text
  let offset ← ofOption (Chrono.eastOpt offset)
  pure (timestampMicros moment - offset * 1000000)

/-- `text` as a point in time with its offset dropped. -/
def withoutZone (text : List Char) : Reading Int := do
  let (moment, _) ← parse text
  pure (timestampMicros moment)

/-- The date `text` starts with. -/
def calendarDate (text : List Char) : Reading Int := do
  let (moment, _) ← parse text
  pure (moment.1 - UNIX_EPOCH_FROM_CE)

end Reading

end AsceticDdd.Specification
