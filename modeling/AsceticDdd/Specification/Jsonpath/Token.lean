import AsceticDdd.Specification.Ast
import AsceticDdd.Specification.Value

/-!
# The tokens of a template
-/

namespace AsceticDdd.Specification.Jsonpath

/-- How a placeholder names its parameter. -/
inductive ParamKey
  | position (position : Nat)
  | name (name : String)
deriving DecidableEq

/-- What a placeholder's letter asks of its parameter: `%s`, `%d` and `%f`. -/
inductive ParamKind
  | any
  | integer
  | number
deriving DecidableEq

structure Param where
  key : ParamKey
  kind : ParamKind
deriving DecidableEq

/-- What stands where a value will. -/
inductive Slot
  | literal (value : Value)
  | param (param : Param)
deriving DecidableEq

inductive Kind
  | dollar
  | at
  | dot
  | leftBracket
  | rightBracket
  | leftParen
  | rightParen
  | question
  | star
  | and
  | or
  | not
  | eq
  | ne
  | gt
  | ge
  | lt
  | le
  | int (value : Int64)
  | float (value : F64)
  | text (value : String)
  | name (name : String)
  | placeholder (param : Param)
deriving DecidableEq

structure Token where
  kind : Kind
  /-- The index of the token's first character. -/
  position : Nat
deriving DecidableEq

structure SyntaxError where
  message : String
  position : Nat
  expected : String
  expression : String
deriving DecidableEq

def SyntaxError.new (message : String) (position : Nat) (expected : String) : SyntaxError :=
  ⟨message, position, expected, ""⟩

end AsceticDdd.Specification.Jsonpath
