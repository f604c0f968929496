import AsceticDdd.Specification.Kleene
import AsceticDdd.Specification.Placed

/-!
# The candidate, seen through an item of it

A path from the candidate into a collection names a member of each of its items. The view is the candidate with
one item in the collection's place: there such a path has one meaning, and a tree placed from the item has the
same.
-/

namespace AsceticDdd.Specification

open Control

variable {C V E : Type}

/-- An object away from the way to the collection, or one on it: the object itself, the names that are left
and the item at their end. -/
inductive View (C : Type)
  | aside (context : C)
  | toward (context : Except ContextError C) (next : String) (rest : List String) (item : Except ContextError C)

namespace View

def element : Element C V → Element (View C) V
  | .object context => .object (.aside context)
  | .value value => .value value

variable [Context C V]

def field : View C → String → Except ContextError V
  | .aside context, name => Context.field context name
  | .toward context _ _ _, name => do Context.field (← context) name

/-- The way to the collection ends at the item, whatever the objects on it are. -/
def object : View C → String → Except ContextError (View C)
  | .aside context, name => (Context.object context name).map aside
  | .toward context next rest item, name =>
    if name = next then
      match rest with
      | [] => item.map aside
      | after :: rest => .ok (.toward (do Context.object (← context) name) after rest item)
    else do return aside (← Context.object (← context) name)

def collection : View C → String → Except ContextError (List (Element (View C) V))
  | .aside context, name => (Context.collection context name).map (List.map element)
  | .toward context _ _ _, name => do return (← Context.collection (← context) name).map element

instance : Context (View C) V where
  field := field
  object := object
  collection := collection

theorem foldlM_aside (context : C) (names : List String) :
    names.foldlM Context.object (aside context) = (names.foldlM Context.object context).map aside := by
  induction names generalizing context with
  | nil => rfl
  | cons name names ih =>
    rw [List.foldlM_cons, List.foldlM_cons]
    show ((Context.object context name).map aside >>= _) = _
    cases Context.object context name with
    | error error => rfl
    | ok next => exact ih next

/-- In the collection the way goes on from the item. -/
theorem foldlM_toward (context : Except ContextError C) (next : String) (rest names : List String)
    (item : Except ContextError C) :
    (next :: rest ++ names).foldlM Context.object (toward context next rest item) =
      item >>= fun item => (names.foldlM Context.object item).map aside := by
  induction rest generalizing context next with
  | nil =>
    rw [List.cons_append, List.nil_append, List.foldlM_cons]
    show ((if next = next then item.map aside else _) >>= _) = _
    rw [if_pos rfl]
    cases item with
    | error error => rfl
    | ok item => exact foldlM_aside item names
  | cons after rest ih =>
    rw [List.cons_append, List.foldlM_cons]
    show ((if next = next then _ else _) >>= _) = _
    rw [if_pos rfl]
    exact ih _ after

/-- Out of the collection the way is the candidate's, to a collection of the candidate's. -/
theorem collection_toward {context : Except ContextError C} {next : String} {rest names : List String}
    {item : Except ContextError C} (outside : ¬next :: rest <+: names) (name : String) :
    (names.foldlM Context.object (toward context next rest item) >>= fun object => Context.collection object name) =
      (context >>= fun context => names.foldlM Context.object context >>= fun object =>
        (Context.collection object name).map (List.map element)) := by
  induction names generalizing context next rest with
  | nil => rfl
  | cons first names ih =>
    rw [List.foldlM_cons]
    show (((if first = next then _ else _) >>= _) >>= _) = _
    split
    case isTrue same =>
      subst same
      cases rest with
      | nil => exact absurd (List.cons_prefix_cons.mpr ⟨rfl, List.nil_prefix⟩) outside
      | cons after rest =>
        have beyond : ¬after :: rest <+: names := fun inside => outside (List.cons_prefix_cons.mpr ⟨rfl, inside⟩)
        rw [show ((Except.ok (toward (do Context.object (← context) first) after rest item) >>= fun object =>
          names.foldlM Context.object object) >>= fun object => Context.collection object name) = _ from ih beyond]
        cases context with
        | error error => rfl
        | ok context => simp [List.foldlM_cons, ok_bind]
    case isFalse =>
      cases context with
      | error error => rfl
      | ok context =>
        simp only [ok_bind, List.foldlM_cons]
        cases Context.object context first with
        | error error => rfl
        | ok object =>
          show (names.foldlM Context.object (aside object) >>= _) = _
          rw [foldlM_aside]
          show _ = names.foldlM Context.object object >>= _
          cases names.foldlM Context.object object <;> rfl

/-- The candidate, the collection at `storage` in it seen through the item. -/
def start (candidate : C) (storage : List String) (item : Except ContextError C) : View C :=
  match storage with
  | [] => .aside candidate
  | next :: rest => .toward (.ok candidate) next rest item

end View

/-- The item as an object. -/
def Frame.object (frame : Frame C V) : Except ContextError C :=
  match frame.element with
  | .object context => .ok context
  | .value _ => .error (.notAnObject (frame.collection ++ "[*]"))

/-- The scope of an answer read from the candidate through an item: the candidate's view, and the items of the
`within` collections that the answer is inside of itself. -/
def Scope.seen (storage : List String) (item : Frame C V) (within : Nat) (scope : Scope C V) : Scope (View C) V where
  global := .start scope.global storage item.object
  items := (scope.items.take within).map fun frame => ⟨View.element frame.element, frame.collection⟩

/-- The tree names no item but those of its own collections. -/
def Path.Closed (within : Nat) (path : Path) : Prop := ∀ up, path.root = .item up → up < within

def Expr.Closed (within : Nat) : Expr V → Prop
  | .value _ => True
  | .field path => path.Closed within
  | .item up => up < within
  | .prefixed _ operand | .postfixed operand _ => operand.Closed within
  | .infixed left _ right => left.Closed within ∧ right.Closed within
  | .any source predicate => source.Closed within ∧ predicate.Closed (within + 1)

namespace Evaluate

variable [Context C V]

variable {storage : List String} {item : Frame C V} {up within : Nat} {scope : Scope C V}

theorem context_map {α β : Type} (outcome : Except ContextError α) (f : α → β) :
    context (outcome.map f) = (context outcome).map f := by
  cases outcome <;> rfl

theorem context_bind {α β : Type} (outcome : Except ContextError α) (f : α → Except ContextError β) :
    (context outcome >>= fun value => context (f value)) = context (outcome >>= f) := by
  cases outcome <;> rfl

omit [Context C V] in
theorem frame_seen {n : Nat} (own : n < within) :
    frame (scope.seen storage item within) n =
      (frame scope n).map fun frame => ⟨View.element frame.element, frame.collection⟩ := by
  simp only [frame, Scope.seen, List.getElem?_map, List.getElem?_take_of_lt own]
  cases scope.items[n]? <;> rfl

theorem owner_item {n : Nat} {path : Path} (root : path.root = .item n) :
    owner scope path = (frame scope n >>= fun frame =>
      context (frame.object >>= fun object => path.objects.foldlM Context.object object)) := by
  simp only [owner, root]
  cases frame scope n with
  | error error => rfl
  | ok frame =>
    obtain ⟨element, collection⟩ := frame
    cases element <;> rfl

theorem owner_seen_item {n : Nat} {path : Path} (root : path.root = .item n) (own : n < within) :
    owner (scope.seen storage item within) path = (owner scope path).map View.aside := by
  rw [owner_item root, owner_item root, frame_seen own]
  cases frame scope n with
  | error error => rfl
  | ok frame =>
    obtain ⟨element, collection⟩ := frame
    cases element with
    | value value => rfl
    | object object =>
      show context (path.objects.foldlM Context.object (View.aside object)) = _
      rw [View.foldlM_aside, context_map]
      rfl

/-- The way to a member of the collection is the way from the item. -/
theorem owner_seen_under {path : Path} (under : path.Under storage) (nonempty : storage ≠ [])
    (here : scope.items[up + within]? = some item) :
    owner (scope.seen storage item within) path =
      (owner scope (path.through storage (up + within))).map View.aside := by
  obtain ⟨root, objects, name⟩ := path
  obtain ⟨rfl, beyond, rfl⟩ := under
  have through : Path.through storage (up + within) ⟨.global, storage ++ beyond, name⟩ =
      ⟨.item (up + within), beyond, name⟩ := by
    rw [Path.through, if_pos ⟨rfl, List.prefix_append _ _⟩, List.drop_left]
  have root : Path.root ⟨.item (up + within), beyond, name⟩ = .item (up + within) := rfl
  rw [through, owner_item root, frame, here]
  cases storage with
  | nil => exact absurd rfl nonempty
  | cons next rest =>
    show context ((next :: rest ++ beyond).foldlM Context.object (View.toward (.ok scope.global) next rest item.object)) = _
    rw [View.foldlM_toward]
    show _ = (context (item.object >>= fun object => beyond.foldlM Context.object object)).map View.aside
    cases item.object with
    | error error => rfl
    | ok object =>
      show context ((beyond.foldlM Context.object object).map View.aside) = _
      rw [context_map]
      rfl

/-- The elements of the collection. -/
def elements (scope : Scope C V) (source : Path) : Except EvalError (List (Element C V)) := do
  context (Context.collection (← owner scope source) source.name)

theorem scopes_eq (scope : Scope C V) (source : Path) :
    scopes scope source = (elements scope source).map
      (List.map fun element => { scope with items := ⟨element, source.name⟩ :: scope.items }) := by
  simp only [scopes, elements]
  cases owner scope source with
  | error error => rfl
  | ok owner =>
    simp only [ok_bind]
    cases context (Context.collection owner source.name) <;> rfl

/-- A path's owner, where the path is in the collection or of an item of the answer's own. -/
theorem owner_seen {path : Path} (closed : path.Closed within) (inside : path.root = .global → path.Under storage)
    (nonempty : storage ≠ []) (here : scope.items[up + within]? = some item) :
    owner (scope.seen storage item within) path =
      (owner scope (path.through storage (up + within))).map View.aside := by
  cases root : path.root with
  | global => exact owner_seen_under (inside root) nonempty here
  | item n =>
    have outside : ¬path.Under storage := by simp [Path.Under, root]
    rw [Path.through_eq_self.mpr outside, owner_seen_item root (closed n root)]

theorem name_through (path : Path) (up : Nat) : (path.through storage up).name = path.name := by
  unfold Path.through
  split <;> rfl

theorem elements_seen {source : Path} (closed : source.Closed within) (nonempty : storage ≠ [])
    (here : scope.items[up + within]? = some item) :
    elements (scope.seen storage item within) source =
      (elements scope (source.through storage (up + within))).map (List.map View.element) := by
  by_cases inside : source.root = .global → source.Under storage
  case pos =>
    simp only [elements, owner_seen closed inside nonempty here, name_through]
    cases owner scope (source.through storage (up + within)) with
    | error error => rfl
    | ok owner =>
      show context ((Context.collection owner source.name).map (List.map View.element)) = _
      rw [context_map]
      rfl
  case neg =>
    obtain ⟨global, outside⟩ := Classical.not_imp.mp inside
    rw [Path.through_eq_self.mpr outside]
    have beyond : ¬storage <+: source.objects := fun under => outside ⟨global, under⟩
    cases storage with
    | nil => exact absurd rfl nonempty
    | cons next rest =>
      have same := @View.collection_toward C V _ (.ok scope.global) next rest source.objects item.object beyond source.name
      simp only [elements, owner, global]
      show (context (source.objects.foldlM Context.object (View.toward (.ok scope.global) next rest item.object)) >>=
        fun owner => context (Context.collection owner source.name)) =
        (context (source.objects.foldlM Context.object scope.global) >>=
          fun owner => context (Context.collection owner source.name)).map (List.map View.element)
      rw [context_bind, context_bind, same, ← context_map, ok_bind]
      cases source.objects.foldlM Context.object scope.global <;> rfl

theorem nullTest_seen (nonempty : storage ≠ []) (operand : Expr V) (closed : operand.Closed within)
    (inside : operand.Within storage) (here : scope.items[up + within]? = some item) [Operand V]
    (value : Except EvalError V) :
    nullTest scope (operand.through storage (up + within)) value =
      nullTest (scope.seen storage item within) operand value := by
  cases operand with
  | field path =>
    simp only [Expr.through, nullTest, owner_seen closed inside nonempty here, name_through]
    cases owner scope (path.through storage (up + within)) with
    | error error => rfl
    | ok owner =>
      have hfield : Context.field (View.aside owner) path.name = Context.field owner path.name := rfl
      have hobject : Context.object (View.aside owner) path.name = (Context.object owner path.name).map View.aside := rfl
      simp only [ok_bind, Except.map, hfield, hobject]
      cases Context.field owner path.name with
      | ok value => rfl
      | error error =>
        cases error with
        | notAValue name => cases Context.object owner path.name <;> rfl
        | missing name => rfl
        | notAnObject name => rfl
        | notACollection name => rfl
  | value constant => rfl
  | item n => rfl
  | prefixed op operand => rfl
  | postfixed operand op => rfl
  | infixed left op right => rfl
  | any source predicate => rfl

theorem isValue_through (expr : Expr V) (up : Nat) : isValue (expr.through storage up) = isValue expr := by
  cases expr <;> rfl

/-- A tree read through an item has the value of the tree read from the candidate, the collection seen through
that item. -/
theorem eval_through [Operand V] (nonempty : storage ≠ []) {expr : Expr V} (closed : expr.Closed within)
    (inside : expr.Within storage) (here : scope.items[up + within]? = some item) :
    eval (expr.through storage (up + within)) scope = eval expr (scope.seen storage item within) := by
  induction expr generalizing within scope with
  | value constant => rfl
  | item n =>
    simp only [Expr.through, eval, itself, frame_seen closed]
    cases frame scope n with
    | error error => rfl
    | ok frame =>
      obtain ⟨element, collection⟩ := frame
      cases element <;> rfl
  | field path =>
    simp only [Expr.through, eval, member, owner_seen closed inside nonempty here, name_through]
    cases owner scope (path.through storage (up + within)) <;> rfl
  | prefixed op operand ih => simp only [Expr.through, eval, ih closed inside here]
  | postfixed operand op ih =>
    simp only [Expr.through, eval, ih closed inside here]
    rw [nullTest_seen nonempty operand closed inside here]
  | infixed left op right left_ih right_ih =>
    simp only [Expr.through, eval, left_ih closed.1 inside.1 here, right_ih closed.2 inside.2 here, infixed,
      readConstants, isValue_through]
  | any source predicate ih =>
    simp only [Expr.through, eval, scopes_eq, elements_seen closed.1 nonempty here]
    cases elements scope (source.through storage (up + within)) with
    | error error => rfl
    | ok elements =>
      have each (element : Element C V) :
          eval (predicate.through storage (up + within + 1))
            { scope with items := ⟨element, source.name⟩ :: scope.items } =
          eval predicate { scope.seen storage item within with
            items := ⟨View.element element, source.name⟩ :: (scope.seen storage item within).items } :=
        @ih (within + 1) { scope with items := ⟨element, source.name⟩ :: scope.items } closed.2 inside
          (List.getElem?_cons_succ.trans here)
      simp only [Except.map, ok_bind, List.map_map, Function.comp_def, name_through, each]

end Evaluate

/-- The answer names no item but those of its own collections. -/
def Mapped.Closed (mapped : Mapped V) : Prop := ∀ expr ∈ mapped.leaves, expr.Closed 0

namespace Mapping

open Evaluate (eval)

/-- What is put in the tree is the answer read through the item exactly when no `any` of an answer that is placed
names anything in the collection; and read through the item an answer has the values it has read from the
candidate, the collection seen through that item. -/
theorem placed_keeps_meaning {inside : List Collection} {up : Nat} {collection : Collection}
    (found : ofItem inside up = some collection) (mapped : Mapped V) :
    ((∀ result, (placed mapped (.item up) inside : Except (TransformError E) _) = .ok result →
        result = mapped.through collection.storage up) ↔
      (mapped.Within collection.storage → mapped.Apart collection.storage)) ∧
    (mapped.Closed → mapped.Within collection.storage →
      ∀ (C : Type) [Context C V] [Operand V] (scope : Scope C V) (item : Frame C V), scope.items[up]? = some item →
        (mapped.through collection.storage up).leaves.map (eval · scope) =
          mapped.leaves.map (eval · (scope.seen collection.storage item 0))) := by
  refine ⟨⟨fun means within => ?_, fun apart result answer => ?_⟩, fun closed within C _ _ scope item here => ?_⟩
  · obtain ⟨result, answer⟩ := (placed_eq_ok_iff (E := E) found mapped).mpr within
    exact (placed_eq_through found answer).mp (means result answer)
  · exact (placed_eq_through found answer).mpr (apart ((placed_eq_ok_iff found mapped).mp ⟨result, answer⟩))
  · rw [Mapped.leaves_through, List.map_map]
    apply List.map_congr_left
    intro expr leaf
    exact Evaluate.eval_through collection.storage_ne_nil (closed expr leaf) (within expr leaf) here

/-- A row with one item, and an item with one tag. -/
inductive Shelf
  | row
  | item

@[reducible] def shelf : Context Shelf Value where
  field
    | .item, "fresh" => .ok (.bool true)
    | _, name => .error (.missing name)
  object _ name := .error (.notAnObject name)
  collection
    | .row, "items" => .ok [.object .item]
    | .row, "labels" => .ok [.value (.bool true)]
    | .item, "tags" => .ok [.value (.bool true)]
    | _, name => .error (.notACollection name)

def shelved : Scope Shelf Value := ⟨.row, [⟨.object .item, "items"⟩]⟩

/-- A member of an item of `items`, and whether the row itself has a label that is true. -/
def freshAndLabelled : Expr Value :=
  .infixed (.field ⟨.global, ["items"], "fresh"⟩) (.logical .and) (.any ⟨.global, [], "labels"⟩ (.item 0))

theorem placed_label_keeps_meaning :
    (placed (.scalar freshAndLabelled) (.item 0) [⟨["items"], ["items"], by decide⟩] :
        Except (TransformError Empty) _) =
      .ok (.scalar (.infixed (.field ⟨.item 0, [], "fresh"⟩) (.logical .and)
        (.any ⟨.global, [], "labels"⟩ (.item 0)))) ∧
    .infixed (.field ⟨.item 0, [], "fresh"⟩) (.logical .and) (.any ⟨.global, [], "labels"⟩ (.item 0)) =
      freshAndLabelled.through ["items"] 0 ∧
    @eval Shelf Value (@Value.instOperand Evaluate.wholeFloats Reading.civil) shelf
        (freshAndLabelled.through ["items"] 0) shelved = .ok (.bool true) ∧
    @eval (View Shelf) Value (@Value.instOperand Evaluate.wholeFloats Reading.civil)
        (@View.instContext Shelf Value shelf) freshAndLabelled
        (shelved.seen ["items"] ⟨.object .item, "items"⟩ 0) = .ok (.bool true) := by
  have found : ofItem [⟨["items"], ["items"], by decide⟩] 0 = some ⟨["items"], ["items"], by decide⟩ := rfl
  have apart : (Mapped.scalar freshAndLabelled).Apart ["items"] := by
    simp [freshAndLabelled, Mapped.Apart, Mapped.leaves, Expr.Apart, Expr.paths, Path.Under]
  have within : (Mapped.scalar freshAndLabelled).Within ["items"] := by
    simp [freshAndLabelled, Mapped.Within, Mapped.leaves, Expr.Within, Path.Under]
  have closed : (Mapped.scalar freshAndLabelled).Closed := by
    simp [freshAndLabelled, Mapped.Closed, Mapped.leaves, Expr.Closed, Path.Closed]
  obtain ⟨means, sees⟩ := placed_keeps_meaning (E := Empty) found (.scalar freshAndLabelled)
  have same := @sees closed within Shelf shelf (@Value.instOperand Evaluate.wholeFloats Reading.civil) shelved
    ⟨.object .item, "items"⟩ rfl
  simp only [Mapped.through, Mapped.leaves, List.map_cons, List.map_nil, List.cons.injEq, and_true] at same
  have seen : @eval (View Shelf) Value (@Value.instOperand Evaluate.wholeFloats Reading.civil)
      (@View.instContext Shelf Value shelf) freshAndLabelled
      (shelved.seen ["items"] ⟨.object .item, "items"⟩ 0) = .ok (.bool true) := rfl
  exact ⟨rfl, Mapped.scalar.inj (means.mpr (fun _ => apart) _ rfl), same.trans seen, seen⟩

/-- Whether an item of `items` has a tag that is true. -/
def tagged : Expr Value := .any ⟨.global, ["items"], "tags"⟩ (.item 0)

/-- The source is left at the candidate, where there is no such collection. -/
theorem tagged_misplaced :
    (placed (.scalar tagged) (.item 0) [⟨["items"], ["items"], by decide⟩] : Except (TransformError Empty) _) =
      .ok (.scalar tagged) ∧
    @eval Shelf Value (@Value.instOperand Evaluate.wholeFloats Reading.civil) shelf tagged shelved =
      .error (.context (.notAnObject "items")) ∧
    @eval (View Shelf) Value (@Value.instOperand Evaluate.wholeFloats Reading.civil) (@View.instContext Shelf Value shelf)
      tagged (shelved.seen ["items"] ⟨.object .item, "items"⟩ 0) = .ok (.bool true) :=
  ⟨rfl, rfl, rfl⟩

end Mapping

end AsceticDdd.Specification
