import AsceticDdd.Control.Except
import AsceticDdd.Specification.Evaluate

/-!
# Equality with the null, where null is a value

In the tree a comparison with null is null. A notation in which null is a value means the null test by it, and its
trees are rewritten once their constants are known.
-/

namespace AsceticDdd.Specification

open Control

open Operand (isNull)

variable {C V : Type} [Operand V]

namespace NullTest

def isNullConstant : Expr V → Bool
  | .value value => isNull value
  | _ => false

/-- `test` of the operand beside the null constant, or `compare` of the two if neither is one. -/
def testOrCompare (left right : Expr V) (test : Expr V → Expr V) (compare : Expr V → Expr V → Expr V) : Expr V :=
  if isNullConstant right then test left
  else if isNullConstant left then test right
  else compare left right

def equal (left right : Expr V) : Expr V :=
  testOrCompare left right (.postfixed · .isNull) (.infixed · (.comparison .eq) ·)

def notEqual (left right : Expr V) : Expr V :=
  testOrCompare left right (.postfixed · .isNotNull) (.infixed · (.comparison .ne) ·)

/-- Every equality of the tree read by `equal` and `notEqual`. -/
def throughout : Expr V → Expr V
  | .infixed left (.comparison .eq) right => equal (throughout left) (throughout right)
  | .infixed left (.comparison .ne) right => notEqual (throughout left) (throughout right)
  | .infixed left op right => .infixed (throughout left) op (throughout right)
  | .prefixed op operand => .prefixed op (throughout operand)
  | .postfixed operand op => .postfixed (throughout operand) op
  | .any source predicate => .any source (throughout predicate)
  | leaf => leaf

/-- What an operator asks of the operand beside the null constant. -/
def asks : Infix → Option Postfix
  | .comparison .eq => some .isNull
  | .comparison .ne => some .isNotNull
  | _ => none

theorem throughout_infixed (left : Expr V) (op : Infix) (right : Expr V) : throughout (.infixed left op right) =
    match asks op with
    | some test => testOrCompare (throughout left) (throughout right) (.postfixed · test) (.infixed · op ·)
    | none => .infixed (throughout left) op (throughout right) := by
  obtain op | _ | _ | _ := op
  · obtain _ | _ | _ | _ | _ | _ := op <;> rfl
  all_goals rfl

/-- An equality becomes the test of an operand, or it stays, and has no null constant beside it. -/
theorem throughout_infixed_cases (left : Expr V) (op : Infix) (right : Expr V) :
    (∃ operand test, (operand = left ∨ operand = right) ∧
      throughout (.infixed left op right) = .postfixed (throughout operand) test) ∨
      throughout (.infixed left op right) = .infixed (throughout left) op (throughout right) ∧
        ((asks op).isSome → ¬ isNullConstant (throughout left) ∧ ¬ isNullConstant (throughout right)) := by
  rw [throughout_infixed]
  cases asks op with
  | none => exact .inr ⟨rfl, fun h => absurd h Bool.false_ne_true⟩
  | some test =>
    dsimp only [testOrCompare]
    split_ifs with hright hleft
    · exact .inl ⟨left, test, .inl rfl, rfl⟩
    · exact .inl ⟨right, test, .inr rfl, rfl⟩
    · exact .inr ⟨rfl, fun _ => ⟨hleft, hright⟩⟩

@[simp]
theorem isNullConstant_throughout (expr : Expr V) : isNullConstant (throughout expr) = isNullConstant expr := by
  cases expr with
  | infixed left op right =>
    obtain ⟨operand, test, -, h⟩ | ⟨h, -⟩ := throughout_infixed_cases left op right <;> rw [h] <;> rfl
  | _ => rfl

@[simp]
theorem isValue_throughout (expr : Expr V) : Evaluate.isValue (throughout expr) = Evaluate.isValue expr := by
  cases expr with
  | infixed left op right =>
    obtain ⟨operand, test, -, h⟩ | ⟨h, -⟩ := throughout_infixed_cases left op right <;> rw [h] <;> rfl
  | _ => rfl

/-- No equality of the tree has the null constant beside it. -/
def Tested : Expr V → Prop
  | .value _ | .field _ | .item _ => True
  | .prefixed _ operand | .postfixed operand _ | .any _ operand => Tested operand
  | .infixed left op right =>
    ((asks op).isSome → ¬ isNullConstant left ∧ ¬ isNullConstant right) ∧ Tested left ∧ Tested right

theorem throughout_tested (expr : Expr V) : Tested (throughout expr) := by
  induction expr with
  | value | field | item => trivial
  | prefixed _ _ ih | postfixed _ _ ih | any _ _ ih => exact ih
  | infixed left op right ihl ihr =>
    obtain ⟨operand, test, rfl | rfl, h⟩ | ⟨h, other⟩ := throughout_infixed_cases left op right
    · rw [h]
      exact ihl
    · rw [h]
      exact ihr
    · rw [h]
      exact ⟨other, ihl, ihr⟩

/-- Where nothing is to be rewritten, nothing is. -/
theorem throughout_of_tested {expr : Expr V} (h : Tested expr) : throughout expr = expr := by
  induction expr with
  | value | field | item => rfl
  | prefixed op operand ih | postfixed operand op ih | any source predicate ih =>
    rw [throughout, ih h]
  | infixed left op right ihl ihr =>
    obtain ⟨other, hleft, hright⟩ := h
    rw [throughout_infixed, ihl hleft, ihr hright]
    cases hasks : asks op with
    | none => rfl
    | some test =>
      rw [hasks] at other
      obtain ⟨notLeft, notRight⟩ := other rfl
      exact (if_neg notRight).trans (if_neg notLeft)

theorem throughout_height (expr : Expr V) : (throughout expr).height ≤ expr.height := by
  induction expr with
  | value | field | item => exact Nat.le_refl _
  | prefixed op operand ih | postfixed operand op ih | any source predicate ih => exact Nat.succ_le_succ ih
  | infixed left op right ihl ihr =>
    obtain ⟨operand, test, rfl | rfl, h⟩ | ⟨h, -⟩ := throughout_infixed_cases left op right
    · rw [h]
      exact Nat.succ_le_succ (Nat.le_trans ihl (Nat.le_max_left _ _))
    · rw [h]
      exact Nat.succ_le_succ (Nat.le_trans ihr (Nat.le_max_right _ _))
    · rw [h]
      exact Nat.succ_le_succ (Nat.max_le.mpr
        ⟨Nat.le_trans ihl (Nat.le_max_left _ _), Nat.le_trans ihr (Nat.le_max_right _ _)⟩)

end NullTest

namespace Evaluate

open NullTest

variable [Context C V]

omit [Context C V] in
/-- An operator of two operands that are evaluated in turn, the second where it is needed. -/
def operate (left : Expr V) (op : Infix) (right : Expr V) (leftValue rightValue : Except EvalError V) :
    Except EvalError V :=
  match op with
  | .logical op => do return fromTruth (← connective op (← truth (← leftValue)) fun _ => do truth (← rightValue))
  | op => do infixed left op right (← leftValue) (← rightValue)

/-- What a tree means where null is a value: beside the null constant, an equality asks whether the other operand is
null. -/
def meaning : Expr V → Scope C V → Except EvalError V
  | .value value, _ => .ok value
  | .field path, scope => member scope path
  | .item up, scope => itself scope up
  | .prefixed op operand, scope => do prefixed op (← meaning operand scope)
  | .postfixed operand op, scope => do return postfixed op (← nullTest scope operand (meaning operand scope))
  | .infixed left op right, scope =>
    match asks op with
    | some test =>
      if isNullConstant right then do return postfixed test (← nullTest scope left (meaning left scope))
      else if isNullConstant left then do return postfixed test (← nullTest scope right (meaning right scope))
      else operate left op right (meaning left scope) (meaning right scope)
    | none => operate left op right (meaning left scope) (meaning right scope)
  | .any source predicate, scope => do
    let scopes ← scopes scope source
    return Operand.fromBool (← firstWitness (scopes.map fun scope => witness (meaning predicate scope)))

theorem eval_infixed (left : Expr V) (op : Infix) (right : Expr V) (scope : Scope C V) :
    eval (.infixed left op right) scope = operate left op right (eval left scope) (eval right scope) := by
  cases op <;> rfl

@[simp]
theorem nullTest_throughout (scope : Scope C V) (expr : Expr V) (value : Except EvalError V) :
    nullTest scope (throughout expr) value = nullTest scope expr value := by
  cases expr with
  | infixed left op right =>
    obtain ⟨operand, test, -, h⟩ | ⟨h, -⟩ := throughout_infixed_cases left op right <;> rw [h] <;> rfl
  | _ => rfl

omit [Context C V] in
@[simp]
theorem operate_throughout (left : Expr V) (op : Infix) (right : Expr V) :
    operate (throughout left) op (throughout right) = operate left op right := by
  funext leftValue rightValue
  simp only [operate, infixed, readConstants, isValue_throughout]

theorem eval_testOrCompare (left right : Expr V) (test : Postfix) (op : Infix) (scope : Scope C V) :
    eval (testOrCompare left right (.postfixed · test) (.infixed · op ·)) scope =
      if isNullConstant right then do return postfixed test (← nullTest scope left (eval left scope))
      else if isNullConstant left then do return postfixed test (← nullTest scope right (eval right scope))
      else operate left op right (eval left scope) (eval right scope) := by
  rw [← eval_infixed]
  unfold testOrCompare
  split_ifs <;> rfl

/-- The rewritten tree is evaluated to what the tree means. -/
theorem eval_throughout (expr : Expr V) (scope : Scope C V) : eval (throughout expr) scope = meaning expr scope := by
  induction expr generalizing scope with
  | value | field | item => rfl
  | prefixed op operand ih =>
    show (do prefixed op (← eval (throughout operand) scope)) = _
    rw [ih]
    rfl
  | postfixed operand op ih =>
    show (do return postfixed op (← nullTest scope (throughout operand) (eval (throughout operand) scope))) = _
    rw [ih, nullTest_throughout]
    rfl
  | any source predicate ih =>
    show (do
      let scopes ← scopes scope source
      return Operand.fromBool (← firstWitness (scopes.map fun scope => witness (eval (throughout predicate) scope)))) = _
    simp only [ih]
    rfl
  | infixed left op right ihl ihr =>
    rw [throughout_infixed, meaning]
    cases asks op with
    | some test =>
      simp only [eval_testOrCompare, isNullConstant_throughout, nullTest_throughout, operate_throughout, ihl, ihr]
    | none => simp only [eval_infixed, operate_throughout, ihl, ihr]

/-- The rewriting keeps what the tree means, leaves no equality beside the null, has nothing to do on a tree it has
been through, and makes no tree taller. -/
theorem throughout_keeps_meaning (expr : Expr V) :
    (∀ scope : Scope C V, eval (throughout expr) scope = meaning expr scope) ∧ Tested (throughout expr) ∧
      throughout (throughout expr) = throughout expr ∧ (throughout expr).height ≤ expr.height :=
  ⟨eval_throughout expr, throughout_tested expr, throughout_of_tested (throughout_tested expr), throughout_height expr⟩

end Evaluate

end AsceticDdd.Specification
