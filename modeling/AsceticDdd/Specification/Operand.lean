import AsceticDdd.Specification.Ast

/-!
# What the evaluator needs of a value
-/

namespace AsceticDdd.Specification

instance : ToString Prefix where
  toString
    | .not => "NOT"
    | .neg => "-"

instance : ToString Comparison where
  toString
    | .eq => "="
    | .ne => "!="
    | .gt => ">"
    | .lt => "<"
    | .ge => ">="
    | .le => "<="

instance : ToString Logical where
  toString
    | .and => "AND"
    | .or => "OR"

instance : ToString Arithmetic where
  toString
    | .add => "+"
    | .sub => "-"
    | .mul => "*"
    | .div => "/"
    | .mod => "%"
    | .shl => "<<"
    | .shr => ">>"

instance : ToString Infix where
  toString
    | .comparison op => toString op
    | .is => "IS"
    | .logical op => toString op
    | .arithmetic op => toString op

/-- An operator could not be applied. -/
inductive OperandError
  | unsupported (operator left : String) (right : Option String)
  | divisionByZero
  | outOfRange
  | unreadable (text kind form : String)
deriving DecidableEq

/-- A method that reads a text may panic. -/
inductive Fault
  | failed (error : OperandError)
  | panicked
deriving DecidableEq

/-- A value a specification can be evaluated over. -/
class Operand (V : Type) where
  null : V
  isNull : V → Bool
  fromBool : Bool → V
  asBool : V → Option Bool
  kind : V → String
  equals : V → V → Except OperandError Bool
  compare : V → V → Except OperandError Ordering
  negate : V → Except OperandError V
  compute : Arithmetic → V → V → Except OperandError V
  /-- The first, read as the kind of the second, where there is something to read. -/
  readBeside : V → V → Except Fault (Option V)

/-- What the evaluator relies on: the null and the two truth values are told apart, and nothing is
read beside a null. -/
class LawfulOperand (V : Type) [Operand V] : Prop where
  isNull_null : Operand.isNull (Operand.null : V) = true
  isNull_fromBool : ∀ value, Operand.isNull (Operand.fromBool value : V) = false
  asBool_fromBool : ∀ value, Operand.asBool (Operand.fromBool value : V) = some value
  readBeside_null : ∀ left right : V, Operand.isNull left ∨ Operand.isNull right →
    Operand.readBeside left right = .ok none

end AsceticDdd.Specification
