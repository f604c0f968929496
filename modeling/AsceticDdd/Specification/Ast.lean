import Mathlib.Data.List.Basic

/-!
# The tree of a specification

The tree is generic in its values: a template with placeholders, a bound one and a specification over domain
values are trees of one type.
-/

namespace AsceticDdd.Specification

inductive Prefix
  | not
  | neg
deriving DecidableEq

inductive Postfix
  | isNull
  | isNotNull
deriving DecidableEq

inductive Comparison
  | eq
  | ne
  | gt
  | lt
  | ge
  | le
deriving DecidableEq

inductive Logical
  | and
  | or
deriving DecidableEq

inductive Arithmetic
  | add
  | sub
  | mul
  | div
  | mod
  | shl
  | shr
deriving DecidableEq

inductive Infix
  | comparison (op : Comparison)
  | is
  | logical (op : Logical)
  | arithmetic (op : Arithmetic)
deriving DecidableEq

/-- Where a path starts: at the candidate, or at the item under test in the collection `up` collections out. -/
inductive Root
  | global
  | item (up : Nat)
deriving DecidableEq

/-- A member reached through nested objects. -/
structure Path where
  root : Root
  objects : List String
  name : String
deriving DecidableEq

namespace Path

def new (root : Root) (name : String) : Path := ⟨root, [], name⟩

def child (path : Path) (name : String) : Path := ⟨path.root, path.objects ++ [path.name], name⟩

def names (path : Path) : List String := path.objects ++ [path.name]

end Path

variable {V : Type}

inductive Expr (V : Type)
  | value (value : V)
  | field (path : Path)
  | prefixed (op : Prefix) (operand : Expr V)
  | infixed (left : Expr V) (op : Infix) (right : Expr V)
  | postfixed (operand : Expr V) (op : Postfix)
  | any (source : Path) (predicate : Expr V)
  | item (up : Nat)
deriving DecidableEq

namespace Expr

def not (operand : Expr V) : Expr V := .prefixed .not operand

def and (left right : Expr V) : Expr V := .infixed left (.logical .and) right

def or (left right : Expr V) : Expr V := .infixed left (.logical .or) right

/-- The levels of the longest way down. -/
def height : Expr V → Nat
  | .value _ | .field _ | .item _ => 1
  | .prefixed _ operand | .postfixed operand _ | .any _ operand => operand.height + 1
  | .infixed left _ right => max left.height right.height + 1

/-- The constants, left to right. -/
def values : Expr V → List V
  | .value v => [v]
  | .field _ | .item _ => []
  | .prefixed _ operand | .postfixed operand _ | .any _ operand => operand.values
  | .infixed left _ right => left.values ++ right.values

def mapValues {W : Type} (f : V → W) : Expr V → Expr W
  | .value v => .value (f v)
  | .field path => .field path
  | .item up => .item up
  | .prefixed op operand => .prefixed op (operand.mapValues f)
  | .infixed left op right => .infixed (left.mapValues f) op (right.mapValues f)
  | .postfixed operand op => .postfixed (operand.mapValues f) op
  | .any source predicate => .any source (predicate.mapValues f)

/-- The same tree over other values. Each constant goes through `f`, left to right, and the first failure is the
result. -/
def tryMapValues {W ε : Type} (f : V → Except ε W) : Expr V → Except ε (Expr W)
  | .value v => (f v).map .value
  | .field path => .ok (.field path)
  | .item up => .ok (.item up)
  | .prefixed op operand => (operand.tryMapValues f).map (.prefixed op)
  | .infixed left op right => do
    let left ← left.tryMapValues f
    (right.tryMapValues f).map (.infixed left op)
  | .postfixed operand op => (operand.tryMapValues f).map (.postfixed · op)
  | .any source predicate => (predicate.tryMapValues f).map (.any source)

end Expr

end AsceticDdd.Specification
