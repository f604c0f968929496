import AsceticDdd.Specification.Operand

/-!
# The reader that decides in memory

`AND` and `OR` do not evaluate their right side once the left has decided the result, and `any` stops at its
first witness.
-/

namespace AsceticDdd.Specification

/-- A context has no such member, or has it as something else. -/
inductive ContextError
  | missing (name : String)
  | notAValue (name : String)
  | notAnObject (name : String)
  | notACollection (name : String)
deriving DecidableEq

inductive EvalError
  | context (error : ContextError)
  | noCurrentItem
  | notBoolean (kind : String)
  | operand (error : OperandError)
  /-- No error of the evaluator's: the panic of a method unwinds through it. -/
  | panicked
deriving DecidableEq

/-- An item of a collection: an object, which has members, or a value, which is one. -/
inductive Element (C V : Type)
  | object (context : C)
  | value (value : V)

/-- What a specification is evaluated against. -/
class Context (C : Type) (V : outParam Type) where
  field : C → String → Except ContextError V
  object : C → String → Except ContextError C
  collection : C → String → Except ContextError (List (Element C V))

/-- The item of one collection's predicate, and the collection's name for an error to say. -/
structure Frame (C V : Type) where
  element : Element C V
  collection : String

/-- What the roots of a path stand for: the items under test from the nearest out. -/
structure Scope (C V : Type) where
  global : C
  items : List (Frame C V)

variable {C V : Type} [Operand V]

open Operand (null isNull fromBool asBool)

namespace Evaluate

def context {α : Type} : Except ContextError α → Except EvalError α := Except.mapError .context

/-- The item `up` collections out. -/
def frame (scope : Scope C V) (up : Nat) : Except EvalError (Frame C V) :=
  match scope.items[up]? with
  | some frame => .ok frame
  | none => .error .noCurrentItem

/-- The context that has the member the path names. -/
def owner [Context C V] (scope : Scope C V) (path : Path) : Except EvalError C := do
  let root ←
    match path.root with
    | .global => .ok scope.global
    | .item up => do
      match ← frame scope up with
      | ⟨.object context, _⟩ => .ok context
      | ⟨.value _, collection⟩ => .error (.context (.notAnObject (collection ++ "[*]")))
  context (path.objects.foldlM Context.object root)

def member [Context C V] (scope : Scope C V) (path : Path) : Except EvalError V := do
  context (Context.field (← owner scope path) path.name)

/-- The item itself: a value, or no value to give. -/
def itself (scope : Scope C V) (up : Nat) : Except EvalError V := do
  match ← frame scope up with
  | ⟨.value value, _⟩ => .ok value
  | ⟨.object _, collection⟩ => .error (.context (.notAValue (collection ++ "[*]")))

/-- The items of the collection, each with its scope. -/
def scopes [Context C V] (scope : Scope C V) (source : Path) : Except EvalError (List (Scope C V)) := do
  let elements ← context (Context.collection (← owner scope source) source.name)
  return elements.map fun element => { scope with items := ⟨element, source.name⟩ :: scope.items }

/-- True, false or unknown. -/
def truth (value : V) : Except EvalError (Option Bool) :=
  if isNull value then .ok none
  else
    match asBool value with
    | some value => .ok (some value)
    | none => .error (.notBoolean (Operand.kind value))

def fromTruth (truth : Option Bool) : V := truth.elim null fromBool

/-- The value that settles the result whatever the other side is. -/
def deciding : Logical → Bool
  | .and => false
  | .or => true

/-- Three-valued `AND` and `OR`. -/
def connective (op : Logical) (left : Option Bool) (right : Unit → Except EvalError (Option Bool)) :
    Except EvalError (Option Bool) :=
  if left = some (deciding op) then .ok left
  else do
    let right ← right ()
    if right = some (deciding op) then return some (deciding op)
    else if left.isSome ∧ right.isSome then return some !(deciding op)
    else return none

/-- A null operand makes a null result. -/
def strict (left right : V) (f : V → V → Except OperandError V) : Except OperandError V :=
  if isNull left || isNull right then .ok null else f left right

def compare (left : V) (op : Comparison) (right : V) : Except OperandError Bool :=
  match op with
  | .eq => Operand.equals left right
  | .ne => (Operand.equals left right).map not
  | .gt => (Operand.compare left right).map Ordering.isGT
  | .lt => (Operand.compare left right).map Ordering.isLT
  | .ge => (Operand.compare left right).map Ordering.isGE
  | .le => (Operand.compare left right).map Ordering.isLE

/-- The error names the operator the tree has. -/
def named (op : Infix) : OperandError → EvalError
  | .unsupported _ left right => .operand (.unsupported (toString op) left right)
  | error => .operand error

def faulted (op : Infix) : Fault → EvalError
  | .failed error => named op error
  | .panicked => .panicked

def isValue : Expr V → Bool
  | .value _ => true
  | _ => false

/-- The operands of a comparison, a constant among them read as the kind of the other. -/
def readConstants (leftExpr rightExpr : Expr V) (left right : V) : Except Fault (V × V) := do
  if isValue leftExpr then
    if let some read ← Operand.readBeside left right then return (read, right)
  if isValue rightExpr then
    if let some read ← Operand.readBeside right left then return (left, read)
  return (left, right)

def prefixed (op : Prefix) (operand : V) : Except EvalError V :=
  match op with
  | .not => do return fromTruth ((← truth operand).map not)
  | .neg => if isNull operand then .ok null else (Operand.negate operand).mapError .operand

/-- An operator of values, applied to both operands. -/
def infixed (leftExpr : Expr V) (op : Infix) (rightExpr : Expr V) (left right : V) : Except EvalError V :=
  match op with
  | .is => do
    let (left, right) ← (readConstants leftExpr rightExpr left right).mapError (faulted op)
    if isNull left || isNull right then return fromBool (isNull left && isNull right)
    else ((Operand.equals left right).map fromBool).mapError (named op)
  | .comparison comparison => do
    let (left, right) ← (readConstants leftExpr rightExpr left right).mapError (faulted op)
    (strict left right fun left right => (compare left comparison right).map fromBool).mapError (named op)
  | .arithmetic arithmetic => (strict left right fun left right => Operand.compute arithmetic left right).mapError (named op)
  | .logical logical => do return fromTruth (← connective logical (← truth left) fun _ => truth right)

/-- Whether the operand is null: a member is asked about whatever it is. -/
def nullTest [Context C V] (scope : Scope C V) (operand : Expr V) (value : Except EvalError V) :
    Except EvalError Bool :=
  match operand with
  | .field path => do
    let owner ← owner scope path
    match Context.field owner path.name with
    | .ok value => return isNull value
    | .error (.notAValue _) => do
      let _ ← context (Context.object owner path.name)
      return false
    | .error error => .error (.context error)
  | _ => do return isNull (← value)

def postfixed (op : Postfix) (null : Bool) : V :=
  fromBool (match op with | .isNull => null | .isNotNull => !null)

/-- The first outcome that is not a false. -/
def firstWitness : List (Except EvalError Bool) → Except EvalError Bool
  | [] => .ok false
  | .ok false :: rest => firstWitness rest
  | outcome :: _ => outcome

def witness (value : Except EvalError V) : Except EvalError Bool := do
  return (← truth (← value)) = some true

def eval [Context C V] : Expr V → Scope C V → Except EvalError V
  | .value value, _ => .ok value
  | .field path, scope => member scope path
  | .item up, scope => itself scope up
  | .prefixed op operand, scope => do prefixed op (← eval operand scope)
  | .postfixed operand op, scope => do return postfixed op (← nullTest scope operand (eval operand scope))
  | .infixed left op right, scope =>
    match op with
    | .logical op => do
      return fromTruth (← connective op (← truth (← eval left scope)) fun _ => do truth (← eval right scope))
    | op => do infixed left op right (← eval left scope) (← eval right scope)
  | .any source predicate, scope => do
    let scopes ← scopes scope source
    return fromBool (← firstWitness (scopes.map fun scope => witness (eval predicate scope)))

/-- The value of `expr` for `candidate`. -/
def evaluate [Context C V] (expr : Expr V) (candidate : C) : Except EvalError V := eval expr ⟨candidate, []⟩

def isSatisfiedBy [Context C V] (specification : Expr V) (candidate : C) : Except EvalError Bool :=
  witness (evaluate specification candidate)

end Evaluate

end AsceticDdd.Specification
