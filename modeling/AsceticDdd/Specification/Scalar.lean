import AsceticDdd.Specification.Compute
import AsceticDdd.Specification.Reading

/-!
# The scalar values as operands
-/

namespace AsceticDdd.Specification

open Text

/-- The form a point in time is read in. -/
def POINT_IN_TIME : String := "YYYY-MM-DD, or that with THH:MM[:SS[.ffffff]] and Z or an offset"

/-- The form a UUID is read in. -/
def UUID : String := "8-4-4-4-12 hexadecimal digits"

namespace Reading

def hexDigit (c : Char) : Option Nat :=
  if c.isDigit then some (c.toNat - '0'.toNat)
  else if 'a' ≤ c ∧ c ≤ 'f' then some (c.toNat - 'a'.toNat + 10)
  else if 'A' ≤ c ∧ c ≤ 'F' then some (c.toNat - 'A'.toNat + 10)
  else none

/-- `text` as a UUID, if it is the canonical form. -/
def uuid (text : List Char) : Option (BitVec 128) :=
  let canonical := bytes text = 36 ∧ (text.zipIdx).all fun (c, i) =>
    if i ∈ [8, 13, 18, 23] then c = '-' else (hexDigit c).isSome
  if canonical then
    some (BitVec.ofNat 128 ((text.filterMap hexDigit).foldl (fun code digit => code * 16 + digit) 0))
  else none

/-- What was read, or that it is not of the form, or the panic. -/
def orUnreadable {α : Type} (text : String) (kind form : String) (reading : Reading α) (wrap : α → Value) :
    Except Fault (Option Value) :=
  match reading.run with
  | .error _ => .error .panicked
  | .ok none => .error (.failed (.unreadable text kind form))
  | .ok (some read) => .ok (some (wrap read))

end Reading

namespace Value

variable [FloatArithmetic] [Chrono]

/-- A text, read as the kind of the value beside it. -/
def readBeside (value other : Value) : Except Fault (Option Value) :=
  match value, other with
  | .text t, .timestamp _ =>
    Reading.orUnreadable t other.kind POINT_IN_TIME (Reading.pointInTime t.toList) fun micros =>
      .timestamp (Int64.ofInt micros)
  | .text t, .date _ =>
    Reading.orUnreadable t other.kind POINT_IN_TIME (Reading.calendarDate t.toList) fun days =>
      .date (Int32.ofInt days)
  | .text t, .uuid _ =>
    Reading.orUnreadable t other.kind UUID (Reading.ofOption (Reading.uuid t.toList)) .uuid
  | _, _ => .ok none

instance : Operand Value where
  null := .null
  isNull value := value matches .null
  fromBool := .bool
  asBool
    | .bool value => some value
    | _ => none
  kind := Value.kind
  equals := Value.equals
  compare := Value.compare
  negate := Value.negate
  compute := Value.compute
  readBeside := Value.readBeside

instance : LawfulOperand Value where
  isNull_null := rfl
  isNull_fromBool _ := rfl
  asBool_fromBool _ := rfl
  readBeside_null left right h := by
    obtain h | h := h
    · cases left with
      | null => rfl
      | _ => cases h
    · cases right with
      | null => cases left <;> rfl
      | _ => cases h

end Value

end AsceticDdd.Specification
