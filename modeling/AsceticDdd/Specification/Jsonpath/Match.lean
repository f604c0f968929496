import AsceticDdd.Specification.Jsonpath.Bind

/-!
# What a template matches

A bound template is evaluated to what its text means, and asks for no item where there is none.
-/

namespace AsceticDdd.Specification

open Control

variable {V W ε : Type}

/-- A root inside `depth` collections has an item. -/
def Root.InScope (depth : Nat) : Root → Prop
  | .global => True
  | .item up => up < depth

namespace Expr

/-- Inside `depth` collections, every item the tree names is there. -/
def Scoped (depth : Nat) : Expr V → Prop
  | .value _ => True
  | .field path => path.root.InScope depth
  | .item up => up < depth
  | .prefixed _ operand | .postfixed operand _ => operand.Scoped depth
  | .infixed left _ right => left.Scoped depth ∧ right.Scoped depth
  | .any source predicate => source.root.InScope depth ∧ predicate.Scoped (depth + 1)

/-- Other values make no other tree. -/
theorem tryMapValues_shape {f : V → Except ε W} {expr : Expr V} {mapped : Expr W}
    (h : expr.tryMapValues f = .ok mapped) :
    mapped.height = expr.height ∧ ∀ depth, mapped.Scoped depth ↔ expr.Scoped depth := by
  induction expr generalizing mapped with
  | value v =>
    obtain ⟨w, -, rfl⟩ := map_eq_ok.mp h
    exact ⟨rfl, fun _ => Iff.rfl⟩
  | field | item =>
    cases h
    exact ⟨rfl, fun _ => Iff.rfl⟩
  | prefixed op operand ih | postfixed operand op ih =>
    obtain ⟨inner, hinner, rfl⟩ := map_eq_ok.mp h
    obtain ⟨height, names⟩ := ih hinner
    exact ⟨congrArg (· + 1) height, names⟩
  | any source predicate ih =>
    obtain ⟨inner, hinner, rfl⟩ := map_eq_ok.mp h
    obtain ⟨height, names⟩ := ih hinner
    exact ⟨congrArg (· + 1) height, fun depth => and_congr_right fun _ => names (depth + 1)⟩
  | infixed left op right ihl ihr =>
    obtain ⟨leftMapped, hleft, h⟩ := bind_eq_ok.mp h
    obtain ⟨rightMapped, hright, rfl⟩ := map_eq_ok.mp h
    obtain ⟨leftHeight, leftScoped⟩ := ihl hleft
    obtain ⟨rightHeight, rightScoped⟩ := ihr hright
    exact ⟨by rw [height, height, leftHeight, rightHeight],
      fun depth => and_congr (leftScoped depth) (rightScoped depth)⟩

end Expr

namespace NullTest

variable [Operand V]

theorem throughout_scoped {expr : Expr V} {depth : Nat} (h : expr.Scoped depth) : (throughout expr).Scoped depth := by
  induction expr generalizing depth with
  | value | field | item => exact h
  | prefixed op operand ih | postfixed operand op ih => exact ih h
  | any source predicate ih => exact ⟨h.1, ih h.2⟩
  | infixed left op right ihl ihr =>
    obtain ⟨operand, test, rfl | rfl, same⟩ | ⟨same, -⟩ := throughout_infixed_cases left op right
    · rw [same]
      exact ihl h.1
    · rw [same]
      exact ihr h.2
    · rw [same]
      exact ⟨ihl h.1, ihr h.2⟩

end NullTest

namespace Evaluate

variable {C : Type} [Operand V] [Context C V]

/-- The computation does not ask for an item where there is none. -/
def HasItem {α : Type} (x : Except EvalError α) : Prop := x ≠ .error .noCurrentItem

omit [Operand V] [Context C V]

theorem HasItem.ok {α : Type} (a : α) : HasItem (.ok a) := by
  rintro ⟨⟩

theorem HasItem.bind {α β : Type} {x : Except EvalError α} {f : α → Except EvalError β} (hx : HasItem x)
    (hf : ∀ a, HasItem (f a)) : HasItem (x >>= f) := by
  cases x with
  | error error =>
    intro same
    cases same
    exact hx rfl
  | ok a => exact hf a

theorem HasItem.mapError {α ε' : Type} {f : ε' → EvalError} (x : Except ε' α) (hf : ∀ error, f error ≠ .noCurrentItem) :
    HasItem (x.mapError f) := by
  cases x with
  | error error => exact fun same => hf error (Except.error.inj same)
  | ok a => exact .ok a

theorem HasItem.context {α : Type} (x : Except ContextError α) : HasItem (context x) :=
  .mapError x fun _ => EvalError.noConfusion

theorem frame_hasItem {scope : Scope C V} {up : Nat} (h : up < scope.items.length) : HasItem (frame scope up) := by
  rw [frame, List.getElem?_eq_getElem h]
  exact .ok _

theorem firstWitness_hasItem {outcomes : List (Except EvalError Bool)} (h : ∀ outcome ∈ outcomes, HasItem outcome) :
    HasItem (firstWitness outcomes) := by
  induction outcomes with
  | nil => exact .ok _
  | cons outcome rest ih =>
    obtain error | _ | _ := outcome
    · exact h _ List.mem_cons_self
    · exact ih fun outcome member => h outcome (List.mem_cons_of_mem _ member)
    · exact .ok _

theorem named_ne (op : Infix) (error : OperandError) : named op error ≠ .noCurrentItem := by
  cases error <;> rintro ⟨⟩

theorem faulted_ne (op : Infix) (fault : Fault) : faulted op fault ≠ .noCurrentItem := by
  cases fault with
  | failed error => exact named_ne op error
  | panicked => rintro ⟨⟩

variable [Operand V]

theorem truth_hasItem (value : V) : HasItem (truth value) := by
  unfold truth
  split
  · exact .ok _
  · split
    · exact .ok _
    · rintro ⟨⟩

theorem connective_hasItem {op : Logical} {left : Option Bool} {right : Unit → Except EvalError (Option Bool)}
    (h : HasItem (right ())) : HasItem (connective op left right) := by
  unfold connective
  split
  · exact .ok _
  · refine h.bind fun right => ?_
    split
    · exact .ok _
    · split <;> exact .ok _

theorem prefixed_hasItem (op : Prefix) (operand : V) : HasItem (prefixed op operand) := by
  cases op with
  | not => exact (truth_hasItem operand).bind fun _ => .ok _
  | neg =>
    rw [prefixed]
    split
    · exact .ok _
    · exact .mapError _ fun _ => EvalError.noConfusion

theorem infixed_hasItem (left : Expr V) (op : Infix) (right : Expr V) (leftValue rightValue : V) :
    HasItem (infixed left op right leftValue rightValue) := by
  cases op with
  | is =>
    refine (HasItem.mapError _ (faulted_ne _)).bind fun _ => ?_
    dsimp only
    split
    · exact .ok _
    · exact .mapError _ (named_ne _)
  | comparison => exact (HasItem.mapError _ (faulted_ne _)).bind fun _ => .mapError _ (named_ne _)
  | arithmetic => exact .mapError _ (named_ne _)
  | logical =>
    exact (truth_hasItem leftValue).bind fun _ => (connective_hasItem (truth_hasItem rightValue)).bind fun _ => .ok _

theorem operate_hasItem {left right : Expr V} {op : Infix} {leftValue rightValue : Except EvalError V}
    (hleft : HasItem leftValue) (hright : HasItem rightValue) :
    HasItem (operate left op right leftValue rightValue) := by
  cases op with
  | logical =>
    exact hleft.bind fun value => (truth_hasItem value).bind fun _ =>
      (connective_hasItem (hright.bind truth_hasItem)).bind fun _ => .ok _
  | _ => exact hleft.bind fun leftValue => hright.bind fun rightValue => infixed_hasItem _ _ _ leftValue rightValue

theorem witness_hasItem {value : Except EvalError V} (h : HasItem value) : HasItem (witness value) :=
  h.bind fun value => (truth_hasItem value).bind fun _ => .ok _

variable [Context C V]

omit [Operand V] in
theorem owner_hasItem {scope : Scope C V} {path : Path} (h : path.root.InScope scope.items.length) :
    HasItem (owner scope path) := by
  unfold owner
  dsimp only
  cases hroot : path.root with
  | global => exact .context _
  | item up =>
    rw [hroot] at h
    refine (frame_hasItem h).bind fun found => ?_
    split
    · exact .context _
    · rintro ⟨⟩

omit [Operand V] in
/-- Inside a collection there is one item more. -/
theorem scopes_cases {scope : Scope C V} {source : Path} (h : source.root.InScope scope.items.length) :
    (∃ error, scopes scope source = .error error ∧ error ≠ .noCurrentItem) ∨
      ∃ inner, scopes scope source = .ok inner ∧ ∀ scope' ∈ inner, scope'.items.length = scope.items.length + 1 := by
  have hasItem : HasItem (scopes scope source) :=
    (owner_hasItem h).bind fun _ => (HasItem.context _).bind fun _ => .ok _
  cases hscopes : scopes scope source with
  | error error => exact .inl ⟨error, rfl, fun same => hasItem (by rw [hscopes, same])⟩
  | ok inner =>
    obtain ⟨_, _, rest⟩ := bind_eq_ok.mp hscopes
    obtain ⟨elements, _, rest⟩ := bind_eq_ok.mp rest
    cases rest
    refine .inr ⟨_, rfl, fun scope' member => ?_⟩
    obtain ⟨element, _, rfl⟩ := List.mem_map.mp member
    rfl

theorem nullTest_hasItem {scope : Scope C V} {operand : Expr V} {value : Except EvalError V}
    (h : operand.Scoped scope.items.length) (hvalue : HasItem value) : HasItem (nullTest scope operand value) := by
  cases operand with
  | field path =>
    refine (owner_hasItem h).bind fun owner => ?_
    split
    · exact .ok _
    · exact (HasItem.context _).bind fun _ => .ok _
    · rintro ⟨⟩
  | _ => exact hvalue.bind fun _ => .ok _

/-- A tree that names no item out of scope is evaluated without asking for one. -/
theorem eval_hasItem {expr : Expr V} {scope : Scope C V} (h : expr.Scoped scope.items.length) :
    HasItem (eval expr scope) := by
  induction expr generalizing scope with
  | value value => exact .ok value
  | field path => exact (owner_hasItem h).bind fun _ => .context _
  | item up =>
    refine (frame_hasItem h).bind fun found => ?_
    split
    · exact .ok _
    · rintro ⟨⟩
  | prefixed op operand ih => exact (ih h).bind fun value => prefixed_hasItem op value
  | postfixed operand op ih =>
    have inner : operand.Scoped scope.items.length := h
    exact (nullTest_hasItem inner (ih inner)).bind fun _ => .ok _
  | infixed left op right ihl ihr =>
    rw [eval_infixed]
    exact operate_hasItem (ihl h.1) (ihr h.2)
  | any source predicate ih =>
    rw [eval]
    obtain ⟨error, hscopes, other⟩ | ⟨inner, hscopes, length⟩ := scopes_cases h.1
    · rw [hscopes]
      exact fun same => other (Except.error.inj same)
    · rw [hscopes, ok_bind]
      refine (firstWitness_hasItem fun outcome member => ?_).bind fun _ => .ok _
      obtain ⟨scope', hscope', rfl⟩ := List.mem_map.mp member
      exact witness_hasItem (ih (by rw [length scope' hscope']; exact h.2))

end Evaluate

namespace Jsonpath

variable {source : String} {parsed : Parsed} {ks : List Kind} {expr : Expr Slot} {scope : Root} {n : Nat}

theorem start_inScope {k : Kind} {root : Root} (h : start scope k = some root) {depth : Nat}
    (known : scope.InScope depth) : root.InScope depth := by
  unfold start at h
  split at h
  case h_1 =>
    cases h
    exact known
  case h_2 =>
    cases h
    trivial
  case h_3 => cases h

/-- What is derived where `@` means `scope` names no item but that, and those of its own collections. -/
theorem Derives.scoped {rule : Rule} (h : Derives keyword rule scope ks expr n) {depth : Nat}
    (known : scope.InScope depth) : expr.Scoped depth := by
  induction h generalizing depth with
  | disjunct _ ih | conjunct _ ih | unary _ ih | truth _ ih | query _ ih | not _ ih | group _ ih | filter _ ih =>
    exact ih known
  | or _ _ ihl ihr | and _ _ ihl ihr | comparison _ _ _ ihl ihr => exact ⟨ihl known, ihr known⟩
  | literal | placeholder => trivial
  | item => exact known
  | field h => exact start_inScope h known
  | any h _ ih => exact ⟨start_inScope h known, ih (Nat.succ_pos depth)⟩

theorem Template.scoped (h : Template keyword ks expr n) : expr.Scoped 0 := by
  cases h with
  | filter h => exact h.scoped trivial
  | any h => exact ⟨trivial, h.scoped (Nat.succ_pos 0)⟩

variable [FloatArithmetic] [Chrono] {params : Params} {bound : Expr Value}

/-- Binding is the map of the slots and then the null test. -/
theorem exists_of_bind (h : parsed.bind params = .ok bound) :
    ∃ filled, parsed.expr.tryMapValues params.fill = .ok filled ∧ NullTest.throughout filled = bound := by
  obtain ⟨filled, hfilled, h⟩ := bind_eq_ok.mp h
  cases params with
  | positional values =>
    dsimp only at h
    split_ifs at h
    exact ⟨filled, hfilled, Except.ok.inj h⟩
  | named values => exact ⟨filled, hfilled, Except.ok.inj h⟩

/-- A bound template is no taller than a template may be, names no item out of scope, and has no equality beside the
null. -/
theorem Spells.wellBound {tokens : List Token} (h : Spells source tokens parsed)
    (hbind : parsed.bind params = .ok bound) :
    bound.height ≤ 128 ∧ bound.Scoped 0 ∧ NullTest.Tested bound := by
  obtain ⟨n, tree, -⟩ := h.tree
  obtain ⟨filled, hfilled, rfl⟩ := exists_of_bind hbind
  obtain ⟨height, names⟩ := Expr.tryMapValues_shape hfilled
  refine ⟨?_, NullTest.throughout_scoped ((names 0).mpr tree.scoped), NullTest.throughout_tested filled⟩
  calc
    (NullTest.throughout filled).height ≤ filled.height := NullTest.throughout_height filled
    _ = parsed.expr.height := height
    _ ≤ 128 := h.tall

variable [ToString F64] {C : Type} [Context C Value]

/-- Whatever its parameters and the candidate, a template read from a text is bound to a tree that is no taller than a
template may be and has no equality beside the null, and asks for no item where there is none. -/
theorem isMatch_hasItem (h : Parsed.parse source = .ok parsed) (params : Params) (candidate : C) :
    (∀ bound, parsed.bind params = .ok bound → bound.height ≤ 128 ∧ NullTest.Tested bound) ∧
      parsed.isMatch candidate params ≠ .error (.eval .noCurrentItem) := by
  obtain ⟨tokens, spells⟩ := spells_of_parse h
  refine ⟨fun bound hbind => ⟨(spells.wellBound hbind).1, (spells.wellBound hbind).2.2⟩, ?_⟩
  unfold Parsed.isMatch
  cases hbind : parsed.bind params with
  | error error => rintro ⟨⟩
  | ok bound =>
    have names : bound.Scoped (⟨candidate, []⟩ : Scope C Value).items.length := (spells.wellBound hbind).2.1
    have hasItem : Evaluate.HasItem (Evaluate.isSatisfiedBy bound candidate) :=
      Evaluate.witness_hasItem (Evaluate.eval_hasItem names)
    rw [Except.mapError, ok_bind]
    cases hvalue : Evaluate.isSatisfiedBy bound candidate with
    | ok verdict => rintro ⟨⟩
    | error error =>
      rintro ⟨⟩
      exact hasItem hvalue

/-- `$.grades[*][?@==%s]` -/
def gradedAs : Parsed where
  source := "$.grades[*][?@==%s]"
  expr := .any ⟨.global, [], "grades"⟩
    (.infixed (.item 0) (.comparison .eq) (.value (.param ⟨.position 0, .any⟩)))
  positional := 1

def gradedTokens : List Token :=
  [⟨.dollar, 0⟩, ⟨.dot, 1⟩, ⟨.name "grades", 2⟩, ⟨.leftBracket, 8⟩, ⟨.star, 9⟩, ⟨.rightBracket, 10⟩,
    ⟨.leftBracket, 11⟩, ⟨.question, 12⟩, ⟨.at, 13⟩, ⟨.eq, 14⟩, ⟨.placeholder ⟨.position 0, .any⟩, 16⟩,
    ⟨.rightBracket, 18⟩]

omit [FloatArithmetic] [Chrono] [ToString F64] in
theorem graded_tokenized : tokenize gradedAs.source = .ok gradedTokens :=
  tokenizeFrom_step rfl rfl (tokenizeFrom_step rfl rfl (tokenizeFrom_step rfl rfl (tokenizeFrom_step rfl rfl
    (tokenizeFrom_step rfl rfl (tokenizeFrom_step rfl rfl (tokenizeFrom_step rfl rfl (tokenizeFrom_step rfl rfl
      (tokenizeFrom_step rfl rfl (tokenizeFrom_step rfl rfl (tokenizeFrom_step rfl rfl (tokenizeFrom_step rfl rfl
        (tokenizeFrom_blank rfl))))))))))))

omit [FloatArithmetic] [Chrono] [ToString F64] in
theorem graded_spelled : Spells gradedAs.source gradedTokens gradedAs where
  short := by decide
  split := (tokenizeFrom_eq_ok rfl).mp graded_tokenized
  oneStyle := by simp [OneStyle, gradedTokens]
  tree := ⟨1, @Template.any keyword [] "grades" _ _ _
    (.filter (.disjunct (.conjunct (.unary (.comparison (.query .item) .placeholder rfl))))), by decide⟩
  tall := by decide
  text := rfl
  takes := rfl

omit [FloatArithmetic] [Chrono] [ToString F64] in
theorem isMatch_hasItem_graded :
    (∀ bound, @Parsed.bind Evaluate.wholeFloats Reading.civil gradedAs (.positional [.null]) = .ok bound →
      bound.height ≤ 128 ∧ @NullTest.Tested Value Evaluate.civilOperand bound) ∧
      @Parsed.isMatch Evaluate.wholeFloats Reading.civil Unit Evaluate.graded gradedAs () (.positional [.null]) ≠
        .error (.eval .noCurrentItem) := by
  let : ToString F64 := ⟨fun _ => ""⟩
  exact @isMatch_hasItem _ _ Evaluate.wholeFloats Reading.civil _ Unit Evaluate.graded graded_spelled.parse _ ()

/-- From the text to the verdict: the parameters stand at the placeholders in the order of the text, and the tree is
decided as it reads where null is a value. -/
theorem isMatch_iff (h : Parsed.parse source = .ok parsed) {candidate : C} {values : List Value} {verdict : Bool} :
    parsed.isMatch candidate (.positional values) = .ok verdict ↔
      ∃ filled, take parsed.expr values = some (filled, []) ∧
        Evaluate.witness (Evaluate.meaning filled ⟨candidate, []⟩) = .ok verdict := by
  obtain ⟨tokens, spells⟩ := spells_of_parse h
  have satisfied (filled : Expr Value) : Evaluate.isSatisfiedBy (NullTest.throughout filled) candidate =
      Evaluate.witness (Evaluate.meaning filled ⟨candidate, []⟩) := by
    rw [Evaluate.isSatisfiedBy, Evaluate.evaluate, Evaluate.eval_throughout]
  unfold Parsed.isMatch
  constructor
  · intro hmatch
    obtain ⟨bound, hbind, hmatch⟩ := bind_eq_ok.mp hmatch
    obtain ⟨filled, htake, rfl⟩ := spells.take_of_bind (mapError_eq_ok.mp hbind)
    exact ⟨filled, htake, by rw [← satisfied]; exact mapError_eq_ok.mp hmatch⟩
  · rintro ⟨filled, htake, hmeaning⟩
    rw [spells.bind_of_take htake, Except.mapError, ok_bind, satisfied, hmeaning]
    rfl

omit [FloatArithmetic] [Chrono] [ToString F64] in
theorem isMatch_iff_pair : @Parsed.isMatch Evaluate.wholeFloats Reading.civil Unit Evaluate.memberless pair ()
    (.positional [.null, .null]) = .ok true := by
  let : ToString F64 := ⟨fun _ => ""⟩
  exact (@isMatch_iff _ _ Evaluate.wholeFloats Reading.civil _ Unit Evaluate.memberless pair_spelled.parse _ _ _).mpr
    ⟨_, rfl, rfl⟩

end Jsonpath

end AsceticDdd.Specification
