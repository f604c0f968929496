import Mathlib.Algebra.Group.Int.Defs
import Mathlib.Algebra.Group.Nat.Defs
import Mathlib.Data.Nat.Basic

/-!
# The scalar values
-/

namespace AsceticDdd.Specification

/-- A `double precision`, by its bits. -/
structure F64 where
  bits : BitVec 64
deriving DecidableEq

inductive Value
  | null
  | bool (value : Bool)
  | int (value : Int64)
  | float (value : F64)
  | text (value : String)
  | timestamp (micros : Int64)
  | date (days : Int32)
  | interval (micros : Int64)
  | uuid (bytes : BitVec 128)
deriving DecidableEq

def Value.kind : Value → String
  | .null => "null"
  | .bool _ => "boolean"
  | .int _ => "integer"
  | .float _ => "float"
  | .text _ => "text"
  | .timestamp _ => "timestamp"
  | .date _ => "date"
  | .interval _ => "interval"
  | .uuid _ => "uuid"

end AsceticDdd.Specification
