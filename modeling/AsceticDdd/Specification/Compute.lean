import AsceticDdd.Machine.Checked
import AsceticDdd.Specification.Operand
import AsceticDdd.Specification.Value

/-!
# The operators of the scalar values

They follow PostgreSQL: an integer division truncates, and an overflow is an error, not a wrapped
result.
-/

namespace AsceticDdd.Specification

open Machine

namespace F64

def magnitude (x : F64) : Nat := x.bits.toNat % 2 ^ 63

def infinity : Nat := 0x7FF * 2 ^ 52

def isNan (x : F64) : Bool := infinity < x.magnitude

def isInfinite (x : F64) : Bool := x.magnitude = infinity

def isFinite (x : F64) : Bool := x.magnitude < infinity

def isZero (x : F64) : Bool := x.magnitude = 0

def neg (x : F64) : F64 := ⟨x.bits ^^^ (1 <<< 63)⟩

/-- Where a number stands among the numbers; the two zeros stand together. -/
def rank (x : F64) : Int := if x.bits.msb then -x.magnitude else x.magnitude

def partialCmp (left right : F64) : Option Ordering :=
  if left.isNan || right.isNan then none else some (Ord.compare left.rank right.rank)

end F64

/-- The machine's arithmetic of floats. -/
class FloatArithmetic where
  add : F64 → F64 → F64
  sub : F64 → F64 → F64
  mul : F64 → F64 → F64
  div : F64 → F64 → F64
  ofInt : Int64 → F64

/-- `NaN` equals itself and is greater than everything else. -/
def floatOrder (left right : F64) : Ordering :=
  (left.partialCmp right).getD (Ord.compare left.isNan right.isNan)

def fitting {α : Type} (result : Option α) : Except OperandError α :=
  result.elim (.error .outOfRange) .ok

/-- Every operator is defined for two integers. -/
def integer (op : Arithmetic) (left right : Int64) : Except OperandError Int64 :=
  match op with
  | .add => fitting (checkedAdd left right)
  | .sub => fitting (checkedSub left right)
  | .mul => fitting (checkedMul left right)
  | .div => if right = 0 then .error .divisionByZero else fitting (checkedDiv left right)
  | .mod => if right = 0 then .error .divisionByZero else .ok ((checkedRem left right).getD 0)
  | .shl => .ok (wrappingShl left (asU32 right))
  | .shr => .ok (wrappingShr left (asU32 right))

section

variable [FloatArithmetic]

def floatResult (op : Arithmetic) (left right result : F64) : Except OperandError Value :=
  let overflow := result.isInfinite && left.isFinite && right.isFinite
  let underflow := result.isZero &&
    match op with
    | .mul => !left.isZero && !right.isZero
    | .div => !left.isZero && right.isFinite
    | _ => false
  if overflow || underflow then .error .outOfRange else .ok (.float result)

/-- None if the operator is not one of floats. -/
def float (op : Arithmetic) (left right : F64) : Option (Except OperandError Value) :=
  match op with
  | .add => some (floatResult op left right (FloatArithmetic.add left right))
  | .sub => some (floatResult op left right (FloatArithmetic.sub left right))
  | .mul => some (floatResult op left right (FloatArithmetic.mul left right))
  | .div =>
    if right.isZero && !left.isNan then some (.error .divisionByZero)
    else some (floatResult op left right (FloatArithmetic.div left right))
  | .mod | .shl | .shr => none

end

def measured (wrap : Int64 → Value) (result : Option Int64) : Option (Except OperandError Value) :=
  some (fitting (result.map wrap))

/-- A point less a point is a span; a point and a span make a point; spans add up. -/
def temporal (op : Arithmetic) (left right : Value) : Option (Except OperandError Value) :=
  match left, op, right with
  | .timestamp l, .sub, .timestamp r => measured .interval (checkedSub l r)
  | .timestamp l, .add, .interval r => measured .timestamp (checkedAdd l r)
  | .interval r, .add, .timestamp l => measured .timestamp (checkedAdd l r)
  | .timestamp l, .sub, .interval r => measured .timestamp (checkedSub l r)
  | .interval l, .add, .interval r => measured .interval (checkedAdd l r)
  | .interval l, .sub, .interval r => measured .interval (checkedSub l r)
  | _, _, _ => none

namespace Value

def unsupported (op : String) (left right : Value) : OperandError := .unsupported op left.kind (some right.kind)

section

variable [FloatArithmetic]

def compare (left right : Value) : Except OperandError Ordering :=
  match left, right with
  | .bool l, .bool r => .ok (Ord.compare l r)
  | .int l, .int r => .ok (Ord.compare l r)
  | .float l, .float r => .ok (floatOrder l r)
  | .int l, .float r => .ok (floatOrder (FloatArithmetic.ofInt l) r)
  | .float l, .int r => .ok (floatOrder l (FloatArithmetic.ofInt r))
  | .text l, .text r => .ok (Ord.compare l r)
  | .timestamp l, .timestamp r => .ok (Ord.compare l r)
  | .date l, .date r => .ok (Ord.compare l r)
  | .interval l, .interval r => .ok (Ord.compare l r)
  | .uuid l, .uuid r => .ok (Ord.compare l r)
  | _, _ => .error (unsupported (toString Comparison.lt) left right)

def equals (left right : Value) : Except OperandError Bool := (left.compare right).map Ordering.isEq

def negate : Value → Except OperandError Value
  | .int value => fitting ((checkedNeg value).map Value.int)
  | .float value => .ok (.float value.neg)
  | .interval micros => fitting ((checkedNeg micros).map Value.interval)
  | value => .error (.unsupported (toString Prefix.neg) value.kind none)

def compute (op : Arithmetic) (left right : Value) : Except OperandError Value :=
  let defined :=
    match left, right with
    | .int l, .int r => some ((integer op l r).map Value.int)
    | .float l, .float r => Specification.float op l r
    | .int l, .float r => Specification.float op (FloatArithmetic.ofInt l) r
    | .float l, .int r => Specification.float op l (FloatArithmetic.ofInt r)
    | _, _ => temporal op left right
  defined.getD (.error (unsupported (toString op) left right))

end

/-- What is exact, if it is in the range. -/
def exactly (wrap : Int64 → Value) (n : Int) : Except OperandError Value :=
  if Fits n then .ok (wrap (Int64.ofInt n)) else .error .outOfRange

theorem fitting_exact (wrap : Int64 → Value) (n : Int) : fitting ((exact n).map wrap) = exactly wrap n := by
  rw [exact, exactly]
  split
  · rfl
  · rfl

theorem map_fitting (wrap : Int64 → Value) (n : Int) : (fitting (exact n)).map wrap = exactly wrap n := by
  rw [exact, exactly]
  split
  · rfl
  · rfl

section

variable [FloatArithmetic] (left right : Int64)

theorem compute_int (op : Arithmetic) : compute op (.int left) (.int right) = (integer op left right).map .int := rfl

theorem compute_add : compute .add (.int left) (.int right) = exactly .int (left.toInt + right.toInt) := by
  rw [compute_int, integer, checkedAdd_eq, map_fitting]

theorem compute_sub : compute .sub (.int left) (.int right) = exactly .int (left.toInt - right.toInt) := by
  rw [compute_int, integer, checkedSub_eq, map_fitting]

theorem compute_mul : compute .mul (.int left) (.int right) = exactly .int (left.toInt * right.toInt) := by
  rw [compute_int, integer, checkedMul_eq, map_fitting]

theorem compute_div :
    compute .div (.int left) (.int right) =
      if right = 0 then .error .divisionByZero else exactly .int (left.toInt.tdiv right.toInt) := by
  rw [compute_int, integer]
  split
  · rfl
  · rename_i hright
    rw [checkedDiv_eq left hright, map_fitting]

theorem compute_mod :
    compute .mod (.int left) (.int right) =
      if right = 0 then .error .divisionByZero else .ok (.int (Int64.ofInt (left.toInt.tmod right.toInt))) := by
  rw [compute_int, integer]
  split
  · rfl
  · rename_i hright
    rw [checkedRem_eq left hright]
    rfl

theorem compute_shl :
    compute .shl (.int left) (.int right) =
      .ok (.int (Int64.ofInt (left.toInt * 2 ^ (right.toInt % 64).toNat))) := by
  rw [compute_int, integer, wrappingShl_eq]
  rfl

theorem compute_shr :
    compute .shr (.int left) (.int right) =
      .ok (.int (Int64.ofInt (left.toInt / 2 ^ (right.toInt % 64).toNat))) := by
  rw [compute_int, integer, wrappingShr_eq]
  rfl

end

end Value

end AsceticDdd.Specification
