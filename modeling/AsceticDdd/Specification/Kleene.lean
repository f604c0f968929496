import AsceticDdd.Control.Except
import AsceticDdd.Logic.ThreeValued
import AsceticDdd.Specification.Evaluate
import AsceticDdd.Specification.Scalar

/-!
# Short-circuit evaluation is Kleene evaluation

Wherever the strict three-valued semantics has a value, the evaluator gives it. Regrouping a run of `AND` or of
`OR` changes neither the value nor the error.
-/

namespace AsceticDdd.Specification

open Control ThreeValued

open Operand (null isNull fromBool asBool)

variable {C V : Type} [Operand V]

omit [Operand V] in
/-- Every item satisfies the predicate: no item that does not. -/
def Expr.all (source : Path) (predicate : Expr V) : Expr V := .not (.any source (.not predicate))

namespace Evaluate

/-- The truth of a value, unknown for what has none. -/
def reading (value : V) : Option Bool := (truth value).toOption.join

theorem reading_of_truth {value : V} {truth : Option Bool} (h : Evaluate.truth value = .ok truth) : reading value = truth := by
  rw [reading, h]
  rfl

section

variable [LawfulOperand V]

theorem truth_fromTruth (truth : Option Bool) : Evaluate.truth (fromTruth truth : V) = .ok truth := by
  cases truth with
  | none => exact if_pos LawfulOperand.isNull_null
  | some value =>
    have hnull : isNull (fromBool value : V) = false := LawfulOperand.isNull_fromBool value
    simp [Evaluate.truth, fromTruth, hnull, LawfulOperand.asBool_fromBool]

theorem reading_fromTruth (truth : Option Bool) : reading (fromTruth truth : V) = truth :=
  reading_of_truth (truth_fromTruth truth)

end

/-- How the connectives read a value's truth: what a truth is stored as is read as that truth. -/
structure Truths (V : Type) [Operand V] where
  read : V → Except EvalError (Option Bool)
  read_fromTruth : ∀ truth, read (fromTruth truth) = .ok truth

/-- What is no truth value is refused. -/
def Truths.strict [LawfulOperand V] : Truths V := ⟨truth, truth_fromTruth⟩

/-- What is no truth value is taken for unknown. -/
def Truths.lenient [LawfulOperand V] : Truths V :=
  ⟨fun value => .ok (reading value), fun truth => congrArg _ (reading_fromTruth truth)⟩

variable [Context C V]

/-- The strict semantics: every subtree is evaluated, and the connectives are Kleene's tables. -/
def kleene (truths : Truths V) : Expr V → Scope C V → Except EvalError V
  | .value value, _ => .ok value
  | .field path, scope => member scope path
  | .item up, scope => itself scope up
  | .prefixed op operand, scope => do
    let operand ← kleene truths operand scope
    match op with
    | .not => return fromTruth (ThreeValued.not (← truths.read operand))
    | .neg => if isNull operand then return null else (Operand.negate operand).mapError .operand
  | .postfixed operand op, scope => do return postfixed op (isNull (← kleene truths operand scope))
  | .infixed left op right, scope => do
    let leftValue ← kleene truths left scope
    let rightValue ← kleene truths right scope
    match op with
    | .logical op =>
      return fromTruth (connect (deciding op) (← truths.read leftValue) (← truths.read rightValue))
    | .is => infixed left .is right leftValue rightValue
    | .comparison op =>
      if isNull leftValue || isNull rightValue then return null
      else infixed left (.comparison op) right leftValue rightValue
    | .arithmetic op =>
      if isNull leftValue || isNull rightValue then return null
      else infixed left (.arithmetic op) right leftValue rightValue
  | .any source predicate, scope => do
    let scopes ← scopes scope source
    let values ← scopes.mapM fun scope => kleene truths predicate scope
    let found ← values.mapM truths.read
    return fromBool (found.any fun truth => truth = some true)

/-- Evaluating every subtree succeeds, a predicate's on every item. -/
def Succeeds : Expr V → Scope C V → Prop
  | .value _, _ => True
  | .field path, scope => ∃ value, eval (.field path) scope = .ok value
  | .item up, scope => ∃ value, eval (.item up) scope = .ok value
  | .prefixed op operand, scope =>
    (∃ value, eval (.prefixed op operand) scope = .ok value) ∧ Succeeds operand scope
  | .postfixed operand op, scope =>
    (∃ value, eval (.postfixed operand op) scope = .ok value) ∧ Succeeds operand scope
  | .infixed left op right, scope =>
    (∃ value, eval (.infixed left op right) scope = .ok value) ∧ Succeeds left scope ∧ Succeeds right scope
  | .any source predicate, scope =>
    (∃ value, eval (.any source predicate) scope = .ok value) ∧
      ∀ inner, scopes scope source = .ok inner → ∀ scope ∈ inner, Succeeds predicate scope

theorem Succeeds.value {expr : Expr V} {scope : Scope C V} (h : Succeeds expr scope) : ∃ value, eval expr scope = .ok value := by
  cases expr with
  | value value => exact ⟨value, rfl⟩
  | field path => exact h
  | item up => exact h
  | prefixed op operand => exact h.1
  | postfixed operand op => exact h.1
  | infixed left op right => exact h.1
  | any source predicate => exact h.1

variable [LawfulOperand V]

omit [Operand V] [Context C V] [LawfulOperand V] in
theorem connective_ok (op : Logical) (left right : Option Bool) :
    connective op left (fun _ => .ok right) = .ok (connect (deciding op) left right) := by
  obtain _ | _ := op <;> obtain _ | _ | _ := left <;> obtain _ | _ | _ := right <;> rfl

omit [Operand V] [Context C V] [LawfulOperand V] in
theorem connective_deciding {op : Logical} {left : Option Bool} (h : left = some (deciding op))
    (right : Unit → Except EvalError (Option Bool)) : connective op left right = .ok left := if_pos h

omit [Operand V] [Context C V] [LawfulOperand V] in
theorem connective_ne {op : Logical} {left : Option Bool} (h : left ≠ some (deciding op))
    {right : Unit → Except EvalError (Option Bool)} {result : Option Bool} (hresult : connective op left right = .ok result) :
    ∃ truth, right () = .ok truth ∧ result = connect (deciding op) left truth := by
  have hright : ∃ truth, right () = .ok truth := by
    rw [connective, if_neg h] at hresult
    obtain ⟨truth, htruth, _⟩ := bind_eq_ok.mp hresult
    exact ⟨truth, htruth⟩
  obtain ⟨truth, htruth⟩ := hright
  refine ⟨truth, htruth, ?_⟩
  have hsame : connective op left right = connective op left fun _ => .ok truth := by
    rw [connective, connective, htruth]
  rw [hsame, connective_ok] at hresult
  exact (Except.ok.inj hresult).symm

/-- Nothing is read beside a null. -/
theorem readConstants_null (leftExpr rightExpr : Expr V) {left right : V} (h : isNull left ∨ isNull right) :
    readConstants leftExpr rightExpr left right = .ok (left, right) := by
  unfold readConstants
  rw [LawfulOperand.readBeside_null left right h, LawfulOperand.readBeside_null right left h.symm]
  split <;> split <;> rfl

theorem infixed_comparison_null (leftExpr rightExpr : Expr V) (op : Comparison) {left right : V}
    (h : isNull left ∨ isNull right) : infixed leftExpr (.comparison op) rightExpr left right = .ok null := by
  have hnull : (isNull left || isNull right) = true := by simpa using h
  simp only [infixed, readConstants_null leftExpr rightExpr h, Except.mapError, ok_bind, Evaluate.strict, hnull,
    if_true]

omit [LawfulOperand V] in
theorem infixed_arithmetic_null (leftExpr rightExpr : Expr V) (op : Arithmetic) {left right : V}
    (h : isNull left ∨ isNull right) : infixed leftExpr (.arithmetic op) rightExpr left right = .ok null := by
  have hnull : (isNull left || isNull right) = true := by simpa using h
  simp only [infixed, Evaluate.strict, hnull, if_true]
  rfl

omit [LawfulOperand V] in
/-- A member that has a value is null when its value is. -/
theorem nullTest_ok {scope : Scope C V} {operand : Expr V} {value : V} (h : eval operand scope = .ok value) :
    nullTest scope operand (eval operand scope) = .ok (isNull value) := by
  cases operand with
  | field path =>
    obtain ⟨object, howner, hfield⟩ := bind_eq_ok.mp h
    have hvalue : Context.field object path.name = .ok value := by
      cases hmember : Context.field object path.name with
      | error error =>
        rw [hmember] at hfield
        cases hfield
      | ok found =>
        rw [hmember] at hfield
        cases hfield
        rfl
    rw [nullTest, howner, ok_bind, hvalue]
    rfl
  | _ =>
    rw [h]
    rfl

section

variable {truths : Truths V} {left right : Expr V} {op : Infix} {scope : Scope C V} {a b : V}

/-- An operator of values does in the strict semantics what the evaluator does. -/
theorem kleene_infixed_values (hop : ∀ logical, op ≠ .logical logical) (ha : kleene truths left scope = .ok a)
    (hb : kleene truths right scope = .ok b) :
    kleene truths (.infixed left op right) scope = infixed left op right a b := by
  rw [kleene, ha, hb, ok_bind, ok_bind]
  cases op with
  | logical op => exact absurd rfl (hop op)
  | is => rfl
  | comparison op =>
    dsimp only
    split
    · next hnull => exact (infixed_comparison_null left right op (by simpa using hnull)).symm
    · rfl
  | arithmetic op =>
    dsimp only
    split
    · next hnull => exact (infixed_arithmetic_null left right op (by simpa using hnull)).symm
    · rfl

omit [LawfulOperand V] in
theorem eval_infixed_values (hop : ∀ logical, op ≠ .logical logical) (ha : eval left scope = .ok a)
    (hb : eval right scope = .ok b) : eval (.infixed left op right) scope = infixed left op right a b := by
  cases op with
  | logical op => exact absurd rfl (hop op)
  | _ => simp only [eval, ha, hb, ok_bind]

omit [LawfulOperand V] in
/-- Where both sides are truth values the connective is Kleene's table. -/
theorem eval_connect (op : Logical) {truth truth' : Option Bool} (ha : eval left scope = .ok a)
    (hb : eval right scope = .ok b) (htruth : Evaluate.truth a = .ok truth) (htruth' : Evaluate.truth b = .ok truth') :
    eval (.infixed left (.logical op) right) scope = .ok (fromTruth (connect (deciding op) truth truth')) := by
  simp only [eval, ha, hb, ok_bind, htruth, htruth', connective_ok]
  rfl

end

omit [LawfulOperand V] in
/-- There is a witness exactly if a value of the predicate is true. -/
theorem firstWitness_truths {truths : Truths V} {predicate : Expr V} {inner : List (Scope C V)} {values : List V}
    {found : List (Option Bool)} (hvalues : inner.mapM (fun scope => kleene truths predicate scope) = .ok values)
    (heval : ∀ scope ∈ inner, ∀ value, kleene truths predicate scope = .ok value → eval predicate scope = .ok value)
    (hfound : values.mapM truth = .ok found) :
    firstWitness (inner.map fun scope => witness (eval predicate scope)) =
      .ok (found.any fun truth => truth = some true) := by
  induction inner generalizing values found with
  | nil =>
    cases hvalues
    cases hfound
    rfl
  | cons scope inner ih =>
    rw [List.mapM_cons] at hvalues
    obtain ⟨value, hvalue, hvalues⟩ := bind_eq_ok.mp hvalues
    obtain ⟨rest, hrest, hvalues⟩ := bind_eq_ok.mp hvalues
    cases hvalues
    rw [List.mapM_cons] at hfound
    obtain ⟨truth, htruth, hfound⟩ := bind_eq_ok.mp hfound
    obtain ⟨founds, hfounds, hfound⟩ := bind_eq_ok.mp hfound
    cases hfound
    have hfirst : witness (eval predicate scope) = .ok (decide (truth = some true)) := by
      rw [heval scope List.mem_cons_self value hvalue, witness, ok_bind, htruth]
      rfl
    have hlater := ih hrest (fun scope' hscope' => heval scope' (List.mem_cons_of_mem _ hscope')) hfounds
    rw [List.map_cons, hfirst, List.any_cons]
    cases decide (truth = some true) with
    | true => rfl
    | false => exact hlater

/-- Where the strict semantics has a value every subtree has one, and the tree's is the strict semantics'. -/
theorem eval_of_kleene {expr : Expr V} {scope : Scope C V} {value : V} (h : kleene .strict expr scope = .ok value) :
    Succeeds expr scope ∧ eval expr scope = .ok value := by
  induction expr generalizing scope value with
  | value v => exact ⟨trivial, h⟩
  | field path => exact ⟨⟨value, h⟩, h⟩
  | item up => exact ⟨⟨value, h⟩, h⟩
  | prefixed op operand ih =>
    obtain ⟨a, ha, h⟩ := bind_eq_ok.mp h
    obtain ⟨hoperand, heval⟩ := ih ha
    have hvalue : eval (.prefixed op operand) scope = .ok value := by
      rw [eval, heval, ok_bind]
      cases op with
      | not => exact h
      | neg => exact h
    exact ⟨⟨⟨value, hvalue⟩, hoperand⟩, hvalue⟩
  | postfixed operand op ih =>
    obtain ⟨a, ha, h⟩ := bind_eq_ok.mp h
    obtain ⟨hoperand, heval⟩ := ih ha
    have hvalue : eval (.postfixed operand op) scope = .ok value := by
      rw [eval, nullTest_ok heval]
      exact h
    exact ⟨⟨⟨value, hvalue⟩, hoperand⟩, hvalue⟩
  | infixed left op right ihl ihr =>
    obtain ⟨a, ha, hb⟩ := bind_eq_ok.mp h
    obtain ⟨b, hb, hresult⟩ := bind_eq_ok.mp hb
    obtain ⟨hleft, hevall⟩ := ihl ha
    obtain ⟨hright, hevalr⟩ := ihr hb
    have hvalue : eval (.infixed left op right) scope = .ok value := by
      by_cases hop : ∃ logical, op = .logical logical
      · obtain ⟨logical, rfl⟩ := hop
        obtain ⟨truth, htruth, hresult⟩ := bind_eq_ok.mp hresult
        obtain ⟨truth', htruth', hresult⟩ := bind_eq_ok.mp hresult
        exact (eval_connect logical hevall hevalr htruth htruth').trans hresult
      · rw [eval_infixed_values (not_exists.mp hop) hevall hevalr, ← kleene_infixed_values (not_exists.mp hop) ha hb]
        exact h
    exact ⟨⟨⟨value, hvalue⟩, hleft, hright⟩, hvalue⟩
  | any source predicate ih =>
    obtain ⟨inner, hscopes, h⟩ := bind_eq_ok.mp h
    obtain ⟨values, hvalues, h⟩ := bind_eq_ok.mp h
    obtain ⟨found, hfound, h⟩ := bind_eq_ok.mp h
    have hvalue : eval (.any source predicate) scope = .ok value := by
      rw [eval, hscopes, ok_bind, firstWitness_truths hvalues (fun _ _ _ hkleene => (ih hkleene).2) hfound]
      exact h
    refine ⟨⟨⟨value, hvalue⟩, fun inner' hscopes' scope hscope => ?_⟩, hvalue⟩
    cases hscopes.symm.trans hscopes'
    obtain ⟨inside, hinside, -⟩ := mem_of_mapM_eq_ok hvalues hscope
    exact (ih hinside).1

omit [LawfulOperand V] in
/-- What the evaluator finds is what the values of the predicate read as. -/
theorem firstWitness_readings {truths : Truths V} {predicate : Expr V} {inner : List (Scope C V)} {found : Bool}
    (hvalues : ∀ scope ∈ inner, ∃ value, eval predicate scope = .ok value ∧ kleene truths predicate scope = .ok value)
    (h : firstWitness (inner.map fun scope => witness (eval predicate scope)) = .ok found) :
    ∃ values, inner.mapM (fun scope => kleene truths predicate scope) = .ok values ∧
      found = (values.map reading).any fun truth => truth = some true := by
  induction inner with
  | nil =>
    cases h
    exact ⟨[], rfl, rfl⟩
  | cons scope inner ih =>
    obtain ⟨value, heval, hkleene⟩ := hvalues scope List.mem_cons_self
    have hrest := fun scope' hscope' => hvalues scope' (List.mem_cons_of_mem _ hscope')
    rw [List.map_cons, heval, witness, ok_bind] at h
    cases htruth : Evaluate.truth value with
    | error error =>
      rw [htruth] at h
      cases h
    | ok truth =>
      have hreading := reading_of_truth htruth
      rw [htruth, ok_bind] at h
      by_cases htrue : truth = some true
      · obtain ⟨values, hvalues'⟩ := mapM_eq_ok fun scope' hscope' => (hrest scope' hscope').imp fun _ h => h.2
        subst htrue
        cases h
        refine ⟨value :: values, by rw [List.mapM_cons, hkleene, ok_bind, hvalues']; rfl, ?_⟩
        simp [hreading]
      · have hfalse : decide (truth = some true) = false := decide_eq_false htrue
        rw [hfalse] at h
        obtain ⟨values, hvalues', hfound⟩ := ih hrest h
        refine ⟨value :: values, by rw [List.mapM_cons, hkleene, ok_bind, hvalues']; rfl, ?_⟩
        rw [List.map_cons, List.any_cons, hreading, hfalse, Bool.false_or]
        exact hfound

/-- Where every subtree has a value, the strict semantics has the evaluator's, whatever an operand that nothing
asks for may be. -/
theorem kleene_of_eval {expr : Expr V} {scope : Scope C V} {value : V} (hsucceeds : Succeeds expr scope)
    (h : eval expr scope = .ok value) : kleene .lenient expr scope = .ok value := by
  induction expr generalizing scope value with
  | value v => exact h
  | field path => exact h
  | item up => exact h
  | prefixed op operand ih =>
    obtain ⟨_, hoperand⟩ := hsucceeds
    obtain ⟨a, ha⟩ := hoperand.value
    rw [eval, ha, ok_bind] at h
    rw [kleene, ih hoperand ha, ok_bind]
    cases op with
    | not =>
      obtain ⟨truth, htruth, hvalue⟩ := bind_eq_ok.mp h
      cases hvalue
      simp only [Truths.lenient, reading_of_truth htruth]
      rfl
    | neg => exact h
  | postfixed operand op ih =>
    obtain ⟨_, hoperand⟩ := hsucceeds
    obtain ⟨a, ha⟩ := hoperand.value
    rw [eval, nullTest_ok ha] at h
    rw [kleene, ih hoperand ha]
    exact h
  | infixed left op right ihl ihr =>
    obtain ⟨_, hleft, hright⟩ := hsucceeds
    obtain ⟨a, ha⟩ := hleft.value
    obtain ⟨b, hb⟩ := hright.value
    by_cases hop : ∃ logical, op = .logical logical
    · obtain ⟨op, rfl⟩ := hop
      rw [kleene, ihl hleft ha, ihr hright hb, ok_bind, ok_bind]
      simp only [eval, ha, hb, ok_bind] at h
      obtain ⟨truth, htruth, h⟩ := bind_eq_ok.mp h
      obtain ⟨result, hresult, hvalue⟩ := bind_eq_ok.mp h
      cases hvalue
      simp only [Truths.lenient, reading_of_truth htruth, ok_bind]
      by_cases hdecides : truth = some (deciding op)
      · rw [connective_deciding hdecides] at hresult
        cases hresult
        exact congrArg (fun truth => Except.ok (fromTruth truth)) ((connect_deciding hdecides).trans hdecides.symm)
      · obtain ⟨truth', htruth', rfl⟩ := connective_ne hdecides hresult
        rw [reading_of_truth htruth']
        rfl
    · rw [kleene_infixed_values (not_exists.mp hop) (ihl hleft ha) (ihr hright hb),
        ← eval_infixed_values (not_exists.mp hop) ha hb]
      exact h
  | any source predicate ih =>
    obtain ⟨_, hinner⟩ := hsucceeds
    obtain ⟨inner, hscopes, h⟩ := bind_eq_ok.mp h
    obtain ⟨found, hfound, hvalue⟩ := bind_eq_ok.mp h
    cases hvalue
    have hvalues : ∀ scope ∈ inner, ∃ value, eval predicate scope = .ok value ∧
        kleene .lenient predicate scope = .ok value := by
      intro scope hscope
      obtain ⟨v, hv⟩ := (hinner inner hscopes scope hscope).value
      exact ⟨v, hv, ih (hinner inner hscopes scope hscope) hv⟩
    obtain ⟨values, hmap, rfl⟩ := firstWitness_readings hvalues hfound
    have hreadings : values.mapM (Truths.lenient (V := V)).read = .ok (values.map reading) :=
      mapM_eq_ok_map fun _ _ => rfl
    rw [kleene, hscopes, ok_bind, hmap, ok_bind, hreadings]
    rfl

section

omit [LawfulOperand V]

variable {truths : Truths V} {source : Path} {predicate : Expr V} {scope : Scope C V} {inner : List (Scope C V)}
  {values : List V} {found : List (Option Bool)}

/-- What the predicate's values make of `any` and of `all`. -/
theorem kleene_any (hscopes : scopes scope source = .ok inner)
    (hvalues : inner.mapM (fun scope => kleene truths predicate scope) = .ok values)
    (hfound : values.mapM truths.read = .ok found) :
    kleene truths (.any source predicate) scope = .ok (fromBool (found.any fun truth => truth = some true)) := by
  rw [kleene, hscopes, ok_bind, hvalues, ok_bind, hfound]
  rfl

theorem kleene_nots (hvalues : inner.mapM (fun scope => kleene truths predicate scope) = .ok values)
    (hfound : values.mapM truths.read = .ok found) :
    inner.mapM (fun scope => kleene truths (.prefixed .not predicate) scope) =
      .ok (found.map fun truth => fromTruth (ThreeValued.not truth)) := by
  induction inner generalizing values found with
  | nil =>
    cases hvalues
    cases hfound
    rfl
  | cons scope inner ih =>
    rw [List.mapM_cons] at hvalues
    obtain ⟨value, hvalue, hvalues⟩ := bind_eq_ok.mp hvalues
    obtain ⟨rest, hrest, hvalues⟩ := bind_eq_ok.mp hvalues
    cases hvalues
    rw [List.mapM_cons] at hfound
    obtain ⟨truth, htruth, hfound⟩ := bind_eq_ok.mp hfound
    obtain ⟨founds, hfounds, hfound⟩ := bind_eq_ok.mp hfound
    cases hfound
    rw [List.mapM_cons, ih hrest hfounds, kleene, hvalue, ok_bind]
    simp only [htruth]
    rfl

theorem kleene_all (hscopes : scopes scope source = .ok inner)
    (hvalues : inner.mapM (fun scope => kleene truths predicate scope) = .ok values)
    (hfound : values.mapM truths.read = .ok found) :
    kleene truths (.all source predicate) scope = .ok (fromBool (found.all fun truth => truth ≠ some false)) := by
  have hnots : (found.map fun truth => (fromTruth (ThreeValued.not truth) : V)).mapM truths.read =
      .ok (found.map ThreeValued.not) := by
    rw [List.mapM_map]
    exact mapM_eq_ok_map fun truth _ => truths.read_fromTruth (ThreeValued.not truth)
  have hany := kleene_any hscopes (kleene_nots hvalues hfound) hnots
  have hsame : (found.map ThreeValued.not).any (fun truth => truth = some true) =
      !found.all fun truth => truth ≠ some false := by
    rw [List.any_map, List.not_all_eq_any_not]
    congr 1
    funext truth
    obtain _ | _ | _ := truth <;> rfl
  have hread := truths.read_fromTruth (some !found.all fun truth => truth ≠ some false)
  rw [hsame] at hany
  rw [Expr.all, Expr.not, Expr.not, kleene, hany, ok_bind]
  change (do return fromTruth (ThreeValued.not (← truths.read (fromTruth (some _)))) : Except EvalError V) = _
  rw [hread, ok_bind, ThreeValued.not, Option.map_some, Bool.not_not]
  rfl

end

/-! ### Runs regrouped -/

/-- One operand's truth after the other's, if it is asked for. -/
def sequence (op : Logical) (left right : Except EvalError (Option Bool)) : Except EvalError (Option Bool) := do
  connective op (← left) fun _ => right

section

omit [Operand V] [Context C V] [LawfulOperand V]

variable {op : Logical} {left truth truth' : Option Bool}

theorem sequence_ok (right : Except EvalError (Option Bool)) :
    sequence op (.ok left) right = connective op left fun _ => right := rfl

theorem sequence_deciding (h : left = some (deciding op)) (right : Except EvalError (Option Bool)) :
    sequence op (.ok left) right = .ok left := (sequence_ok right).trans (connective_deciding h _)

theorem sequence_error (h : left ≠ some (deciding op)) (error : EvalError) :
    sequence op (.ok left) (.error error) = .error error := by
  rw [sequence_ok, connective, if_neg h]
  rfl

theorem sequence_values : sequence op (.ok truth) (.ok truth') = .ok (connect (deciding op) truth truth') :=
  (sequence_ok _).trans (connective_ok op truth truth')

theorem sequence_assoc (a b c : Except EvalError (Option Bool)) :
    sequence op (sequence op a b) c = sequence op a (sequence op b c) := by
  cases a with
  | error error => rfl
  | ok a =>
    by_cases ha : a = some (deciding op)
    · rw [sequence_deciding ha, sequence_deciding ha, sequence_deciding ha]
    · cases b with
      | error error =>
        have hb : sequence op (.error error) c = .error error := rfl
        rw [hb, sequence_error ha, hb]
      | ok b =>
        rw [sequence_values]
        by_cases hb : b = some (deciding op)
        · rw [sequence_deciding (connect_eq_deciding.mpr (.inr hb)), sequence_deciding hb, sequence_values]
        · have hab : connect (deciding op) a b ≠ some (deciding op) := fun h =>
            (connect_eq_deciding.mp h).elim ha hb
          cases c with
          | error error => rw [sequence_error hab, sequence_error hb, sequence_error ha]
          | ok c => rw [sequence_values, sequence_values, sequence_values, connect_assoc]

end

def truthOf (expr : Expr V) (scope : Scope C V) : Except EvalError (Option Bool) := do truth (← eval expr scope)

omit [LawfulOperand V] in
theorem eval_logical (left right : Expr V) (op : Logical) (scope : Scope C V) :
    eval (.infixed left (.logical op) right) scope =
      (sequence op (truthOf left scope) (truthOf right scope)).map fromTruth := by
  simp only [eval, truthOf, sequence]
  cases eval left scope with
  | error error => rfl
  | ok value =>
    simp only [ok_bind]
    cases truth value with
    | error error => rfl
    | ok truth =>
      simp only [ok_bind]
      cases connective op truth fun _ => truthOf right scope <;> rfl

theorem truthOf_logical (left right : Expr V) (op : Logical) (scope : Scope C V) :
    truthOf (.infixed left (.logical op) right) scope = sequence op (truthOf left scope) (truthOf right scope) := by
  rw [truthOf, eval_logical]
  cases sequence op (truthOf left scope) (truthOf right scope) with
  | error error => rfl
  | ok truth => exact truth_fromTruth truth

/-- Trees that differ in how their runs of `AND` and of `OR` are grouped. -/
inductive Regroups : Expr V → Expr V → Prop
  | refl (expr : Expr V) : Regroups expr expr
  | symm {left right : Expr V} : Regroups left right → Regroups right left
  | trans {a b c : Expr V} : Regroups a b → Regroups b c → Regroups a c
  | group (op : Logical) (a b c : Expr V) :
      Regroups (.infixed (.infixed a (.logical op) b) (.logical op) c)
        (.infixed a (.logical op) (.infixed b (.logical op) c))
  | prefixed (op : Prefix) {a b : Expr V} : Regroups a b → Regroups (.prefixed op a) (.prefixed op b)
  | postfixed (op : Postfix) {a b : Expr V} : Regroups a b → Regroups (.postfixed a op) (.postfixed b op)
  | infixed (op : Infix) {a b a' b' : Expr V} : Regroups a a' → Regroups b b' →
      Regroups (.infixed a op b) (.infixed a' op b')
  | any (source : Path) {a b : Expr V} : Regroups a b → Regroups (.any source a) (.any source b)

omit [Operand V] [Context C V] [LawfulOperand V] in
/-- Constants and members are what they are. -/
theorem Regroups.leaf {a b : Expr V} (h : Regroups a b) :
    isValue a = isValue b ∧ ∀ path, a = .field path ↔ b = .field path := by
  induction h with
  | refl => exact ⟨rfl, fun _ => Iff.rfl⟩
  | symm _ ih => exact ⟨ih.1.symm, fun path => (ih.2 path).symm⟩
  | trans _ _ ih ih' => exact ⟨ih.1.trans ih'.1, fun path => (ih.2 path).trans (ih'.2 path)⟩
  | _ =>
    refine ⟨rfl, fun path => ?_⟩
    constructor
    · rintro ⟨⟩
    · rintro ⟨⟩

omit [LawfulOperand V] in
theorem nullTest_of_not_field {operand : Expr V} (h : ∀ path, operand ≠ .field path) (scope : Scope C V)
    (value : Except EvalError V) : nullTest scope operand value = value.map isNull := by
  cases operand with
  | field path => exact absurd rfl (h path)
  | _ => cases value <;> rfl

omit [LawfulOperand V] in
theorem Regroups.nullTest {a b : Expr V} (h : Regroups a b) (scope : Scope C V) (value : Except EvalError V) :
    Evaluate.nullTest scope a value = Evaluate.nullTest scope b value := by
  by_cases hfield : ∃ path, a = .field path
  · obtain ⟨path, hpath⟩ := hfield
    rw [(h.leaf.2 path).mp hpath, hpath]
  · have ha := not_exists.mp hfield
    have hb : ∀ path, b ≠ .field path := fun path hpath => ha path ((h.leaf.2 path).mpr hpath)
    rw [nullTest_of_not_field ha, nullTest_of_not_field hb]

omit [Context C V] [LawfulOperand V] in
theorem Regroups.infixed_eq {a b a' b' : Expr V} (h : Regroups a a') (h' : Regroups b b') (op : Infix) (left right : V) :
    Evaluate.infixed a op b left right = Evaluate.infixed a' op b' left right := by
  have hread : readConstants a b left right = readConstants a' b' left right := by
    rw [readConstants, readConstants, h.leaf.1, h'.leaf.1]
  cases op with
  | is => rw [Evaluate.infixed, hread]; rfl
  | comparison op => rw [Evaluate.infixed, hread]; rfl
  | logical op => rfl
  | arithmetic op => rfl

/-- Regrouping changes neither the value nor the error. -/
theorem Regroups.eval_eq {a b : Expr V} (h : Regroups a b) (scope : Scope C V) : eval a scope = eval b scope := by
  induction h generalizing scope with
  | refl => rfl
  | symm _ ih => exact (ih scope).symm
  | trans _ _ ih ih' => exact (ih scope).trans (ih' scope)
  | group op a b c =>
    rw [eval_logical, eval_logical, truthOf_logical, truthOf_logical, sequence_assoc]
  | prefixed op _ ih => rw [eval, eval, ih]
  | postfixed op hregroups ih => rw [eval, eval, ih, hregroups.nullTest]
  | infixed op hleft hright ihl ihr =>
    cases op with
    | logical op => rw [eval_logical, eval_logical, truthOf, truthOf, truthOf, truthOf, ihl, ihr]
    | _ => simp only [eval, ihl, ihr, hleft.infixed_eq hright]
  | any source _ ih => simp only [eval, ih]

/-- The evaluator gives the value wherever the strict semantics has one, on every subtree; where evaluating every
subtree succeeds its value is the tables', whatever nothing asks for may be; and grouping never matters. -/
theorem short_circuit :
    (∀ (expr : Expr V) (scope : Scope C V) (value : V), kleene .strict expr scope = .ok value →
      Succeeds expr scope ∧ eval expr scope = .ok value) ∧
    (∀ (expr : Expr V) (candidate : C), Succeeds expr ⟨candidate, []⟩ →
      ∃ value, evaluate expr candidate = .ok value ∧ kleene .lenient expr ⟨candidate, []⟩ = .ok value) ∧
    (∀ (truths : Truths V) (source : Path) (predicate : Expr V) (scope : Scope C V) (inner : List (Scope C V))
        (values : List V) (found : List (Option Bool)), scopes scope source = .ok inner →
      inner.mapM (fun scope => kleene truths predicate scope) = .ok values → values.mapM truths.read = .ok found →
      kleene truths (.any source predicate) scope = .ok (fromBool (found.any fun truth => truth = some true)) ∧
      kleene truths (.all source predicate) scope = .ok (fromBool (found.all fun truth => truth ≠ some false))) ∧
    ∀ (expr expr' : Expr V), Regroups expr expr' → ∀ candidate : C, evaluate expr candidate = evaluate expr' candidate := by
  refine ⟨fun expr scope value h => eval_of_kleene h, fun expr candidate hsucceeds => ?_,
    fun truths source predicate scope inner values found hscopes hvalues hfound => ?_,
    fun expr expr' h candidate => h.eval_eq _⟩
  · obtain ⟨value, hvalue⟩ := hsucceeds.value
    exact ⟨value, hvalue, kleene_of_eval hsucceeds hvalue⟩
  · exact ⟨kleene_any hscopes hvalues hfound, kleene_all hscopes hvalues hfound⟩

/-- A candidate without members. -/
@[reducible] def memberless : Context Unit Value :=
  ⟨fun _ name => .error (.missing name), fun _ name => .error (.missing name), fun _ name => .error (.missing name)⟩

@[reducible] def wholeFloats : FloatArithmetic :=
  ⟨fun x _ => x, fun x _ => x, fun x _ => x, fun x _ => x, fun n => ⟨n.toBitVec⟩⟩

/-- A candidate with one collection of values. -/
@[reducible] def graded : Context Unit Value where
  field _ name := .error (.missing name)
  object _ name := .error (.missing name)
  collection _ _ := .ok [.value (.int 3), .value .null, .value (.int 5)]

@[reducible] def civilOperand : Operand Value := @Value.instOperand wholeFloats Reading.civil

theorem civilLawful : @LawfulOperand Value civilOperand := @Value.instLawfulOperand wholeFloats Reading.civil

def marks : Path := .new .global "marks"

def aboveFour : Expr Value := .infixed (.item 0) (.comparison .gt) (.value (.int 4))

/-- `ANY marks > 4 AND (NULL OR TRUE)`. -/
def passed : Expr Value :=
  .infixed (.any marks aboveFour) (.logical .and) (.infixed (.value .null) (.logical .or) (.value (.bool true)))

/-- `FALSE AND 3`: the right side is no truth value, and nothing asks for it. -/
def decided : Expr Value := .infixed (.value (.bool false)) (.logical .and) (.value (.int 3))

/-- A member the candidate does not have. -/
def missing : Expr Value := .field (.new .global "missing")

/-- One mark of 3, 5 and an unknown one is above 4, not all are, and the missing member is the
error of the run in both groupings. -/
theorem short_circuit_graded :
    @evaluate Unit Value civilOperand graded passed () = .ok (.bool true) ∧
    (∃ value, @evaluate Unit Value civilOperand graded decided () = .ok value ∧
      @kleene Unit Value civilOperand graded (@Truths.lenient Value civilOperand civilLawful) decided ⟨(), []⟩ =
        .ok value) ∧
    @kleene Unit Value civilOperand graded (@Truths.strict Value civilOperand civilLawful)
      (@Expr.all Value marks aboveFour) ⟨(), []⟩ = .ok (.bool false) ∧
    @evaluate Unit Value civilOperand graded
        (.infixed (.infixed passed (.logical .and) (.value .null)) (.logical .and) missing) () =
      @evaluate Unit Value civilOperand graded
        (.infixed passed (.logical .and) (.infixed (.value .null) (.logical .and) missing)) () := by
  obtain ⟨hstrict, hsucceeds, hquantified, hgrouped⟩ := @short_circuit Unit Value civilOperand graded civilLawful
  refine ⟨(hstrict passed ⟨(), []⟩ (.bool true) rfl).2, ?_, ?_, hgrouped _ _ (.group .and _ _ _) ()⟩
  · exact hsucceeds decided () ⟨⟨.bool false, rfl⟩, trivial, trivial⟩
  · exact (hquantified (@Truths.strict Value civilOperand civilLawful) marks aboveFour ⟨(), []⟩ _
      [.bool false, .null, .bool true] [some false, none, some true] rfl rfl rfl).2

end Evaluate

end AsceticDdd.Specification
