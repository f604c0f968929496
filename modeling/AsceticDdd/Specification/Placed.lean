import AsceticDdd.Specification.Evaluate
import AsceticDdd.Specification.Mapping
import AsceticDdd.Control.Except

/-!
# An answer of a mapping, read through an item

What a mapping answers for a member of an item is a path from the candidate. Read through the item it is the
same tree with each path under the collection's made a path from that item, one further out for each `any`
it stands under.
-/

namespace AsceticDdd.Specification

open Control

variable {S E : Type}

namespace Path

/-- The path from the candidate names something in the collection. -/
def Under (storage : List String) (path : Path) : Prop := path.root = .global ∧ storage <+: path.objects

instance (storage : List String) (path : Path) : Decidable (path.Under storage) :=
  inferInstanceAs (Decidable (_ ∧ _))

/-- The path under the collection, from the item `up` collections out. -/
def through (storage : List String) (up : Nat) (path : Path) : Path :=
  if path.Under storage then ⟨.item up, path.objects.drop storage.length, path.name⟩ else path

theorem through_eq_self {storage : List String} {up : Nat} {path : Path} :
    path.through storage up = path ↔ ¬path.Under storage := by
  unfold through
  split
  case isTrue under =>
    constructor
    · intro same
      rw [← same] at under
      exact absurd under.1 (by simp)
    · intro outside
      exact absurd under outside
  case isFalse outside => simp [outside]

theorem foldl_child (path : Path) (names : List String) (name : String) :
    (names ++ [name]).foldl child path = ⟨path.root, path.objects ++ path.name :: names, name⟩ := by
  induction names generalizing path with
  | nil => rfl
  | cons next names ih => simp [ih, child]

/-- A path is its names, from its root. -/
theorem foldl_child_names {path : Path} {first : String} {rest : List String} (root : Root)
    (names : path.names = first :: rest) : rest.foldl child (new root first) = ⟨root, path.objects, path.name⟩ := by
  obtain ⟨_, objects, name⟩ := path
  cases objects with
  | nil =>
    obtain ⟨rfl, rfl⟩ : name = first ∧ [] = rest := by simpa [Path.names] using names
    rfl
  | cons object objects =>
    obtain ⟨rfl, rfl⟩ : object = first ∧ objects ++ [name] = rest := by simpa [Path.names] using names
    rw [foldl_child]
    rfl

end Path

namespace Expr

/-- The tree read through the item `up` collections out. -/
def through (storage : List String) (up : Nat) : Expr S → Expr S
  | .value constant => .value constant
  | .field path => .field (path.through storage up)
  | .item n => .item n
  | .prefixed op operand => .prefixed op (operand.through storage up)
  | .postfixed operand op => .postfixed (operand.through storage up) op
  | .infixed left op right => .infixed (left.through storage up) op (right.through storage up)
  | .any source predicate => .any (source.through storage up) (predicate.through storage (up + 1))

/-- Every path of the tree, the sources of its collections among them. -/
def paths : Expr S → List Path
  | .value _ | .item _ => []
  | .field path => [path]
  | .prefixed _ operand | .postfixed operand _ => operand.paths
  | .infixed left _ right => left.paths ++ right.paths
  | .any source predicate => source :: predicate.paths

/-- Every member of the candidate the tree reads is in the collection. -/
def Within (storage : List String) : Expr S → Prop
  | .value _ | .item _ => True
  | .field path => path.root = .global → path.Under storage
  | .prefixed _ operand | .postfixed operand _ | .any _ operand => operand.Within storage
  | .infixed left _ right => left.Within storage ∧ right.Within storage

/-- No `any` of the tree names anything in the collection, as its source or in its predicate. -/
def Apart (storage : List String) : Expr S → Prop
  | .value _ | .item _ | .field _ => True
  | .prefixed _ operand | .postfixed operand _ => operand.Apart storage
  | .infixed left _ right => left.Apart storage ∧ right.Apart storage
  | .any source predicate => ¬source.Under storage ∧ ∀ path ∈ predicate.paths, ¬path.Under storage

end Expr

namespace Mapped

mutual

/-- The answer read through the item `up` collections out. -/
def through (storage : List String) (up : Nat) : Mapped S → Mapped S
  | .scalar expr => .scalar (expr.through storage up)
  | .composite parts => .composite (throughParts storage up parts)
  | .null value => .null value

def throughParts (storage : List String) (up : Nat) : List (Mapped S) → List (Mapped S)
  | [] => []
  | part :: parts => part.through storage up :: throughParts storage up parts

end

mutual

/-- The expressions an answer is made of. -/
def leaves : Mapped S → List (Expr S)
  | .scalar expr => [expr]
  | .composite parts => leavesOf parts
  | .null value => [.value value]

def leavesOf : List (Mapped S) → List (Expr S)
  | [] => []
  | part :: parts => part.leaves ++ leavesOf parts

end

def Within (storage : List String) (mapped : Mapped S) : Prop := ∀ expr ∈ mapped.leaves, expr.Within storage

def Apart (storage : List String) (mapped : Mapped S) : Prop := ∀ expr ∈ mapped.leaves, expr.Apart storage

mutual

theorem leaves_through (storage : List String) (up : Nat) (mapped : Mapped S) :
    (mapped.through storage up).leaves = mapped.leaves.map (Expr.through storage up) := by
  match mapped with
  | .scalar expr => rfl
  | .null value => rfl
  | .composite parts => exact leavesOf_through storage up parts

theorem leavesOf_through (storage : List String) (up : Nat) (parts : List (Mapped S)) :
    leavesOf (throughParts storage up parts) = (leavesOf parts).map (Expr.through storage up) := by
  match parts with
  | [] => rfl
  | part :: parts =>
    rw [throughParts, leavesOf, leavesOf, List.map_append, leaves_through storage up part,
      leavesOf_through storage up parts]

end

end Mapped

namespace Mapping

theorem stripPrefix_eq_ok {storage names rest : List String} :
    (stripPrefix storage names : Except (TransformError E) _) = .ok rest ↔ names = storage ++ rest := by
  induction storage generalizing names with
  | nil => simp [stripPrefix]
  | cons first storage ih =>
    cases names with
    | nil => simp [stripPrefix]
    | cons name names =>
      simp only [stripPrefix]
      split
      case isTrue same => simp [ih, same]
      case isFalse different => simp [Ne.symm different]

/-- A path from the candidate is placed when it is in the collection. -/
theorem placedExpr_field_global {path : Path} {storage : List String} {up : Nat} {placed : Expr S}
    (global : path.root = .global) :
    (placedExpr (.field path) storage up : Except (TransformError E) _) = .ok placed ↔
      path.Under storage ∧ placed = .field (path.through storage up) := by
  obtain ⟨root, objects, name⟩ := path
  obtain rfl : root = .global := global
  constructor
  · intro answer
    simp only [placedExpr] at answer
    obtain ⟨rest, stripped, folded⟩ := bind_eq_ok.mp answer
    have whole := stripPrefix_eq_ok.mp stripped
    cases rest with
    | nil => cases folded
    | cons first rest =>
      have under : Path.Under storage ⟨.global, objects, name⟩ := by
        have shorter : storage.length ≤ objects.length := by
          have lengths := congrArg List.length whole
          simp only [Path.names, List.length_append, List.length_cons, List.length_nil] at lengths
          omega
        exact ⟨rfl, List.prefix_of_prefix_length_le ⟨first :: rest, whole.symm⟩ ⟨[name], rfl⟩ shorter⟩
      refine ⟨under, ?_⟩
      obtain ⟨beyond, rfl⟩ := under.2
      have names : Path.names ⟨.item up, beyond, name⟩ = first :: rest := by
        simpa [Path.names] using whole
      rw [Path.through, if_pos under, ← Except.ok.inj folded, Path.foldl_child_names _ names, List.drop_left]
  · rintro ⟨⟨-, beyond, rfl⟩, rfl⟩
    have stripped : (stripPrefix storage (Path.names ⟨.global, storage ++ beyond, name⟩) :
        Except (TransformError E) _) = .ok (Path.names ⟨.item up, beyond, name⟩) :=
      stripPrefix_eq_ok.mpr (List.append_assoc _ _ _)
    have under : Path.Under storage ⟨.global, storage ++ beyond, name⟩ := ⟨rfl, List.prefix_append _ _⟩
    simp only [placedExpr, stripped, ok_bind]
    cases names : Path.names ⟨.item up, beyond, name⟩ with
    | nil => simp [Path.names] at names
    | cons first rest =>
      simp only [Path.foldl_child_names _ names]
      rw [Path.through, if_pos under, List.drop_left]

/-- An answer is refused exactly for a member of the candidate outside the collection. -/
theorem placedExpr_eq_ok_iff (expr : Expr S) (storage : List String) (up : Nat) :
    (∃ placed, (placedExpr expr storage up : Except (TransformError E) _) = .ok placed) ↔ expr.Within storage := by
  induction expr with
  | value constant => exact ⟨fun _ => trivial, fun _ => ⟨_, rfl⟩⟩
  | item n => exact ⟨fun _ => trivial, fun _ => ⟨_, rfl⟩⟩
  | field path =>
    simp only [Expr.Within]
    cases root : path.root with
    | global => simp [placedExpr_field_global root]
    | item n => simp [placedExpr, root]
  | prefixed op operand ih =>
    simp only [Expr.Within, ← ih, placedExpr, bind_eq_ok]
    exact ⟨fun ⟨_, operand, placed, _⟩ => ⟨operand, placed⟩, fun ⟨operand, placed⟩ => ⟨_, operand, placed, rfl⟩⟩
  | postfixed operand op ih =>
    simp only [Expr.Within, ← ih, placedExpr, bind_eq_ok]
    exact ⟨fun ⟨_, operand, placed, _⟩ => ⟨operand, placed⟩, fun ⟨operand, placed⟩ => ⟨_, operand, placed, rfl⟩⟩
  | any source predicate ih =>
    simp only [Expr.Within, ← ih, placedExpr, bind_eq_ok]
    exact ⟨fun ⟨_, operand, placed, _⟩ => ⟨operand, placed⟩, fun ⟨operand, placed⟩ => ⟨_, operand, placed, rfl⟩⟩
  | infixed left op right left_ih right_ih =>
    simp only [Expr.Within, ← left_ih, ← right_ih, placedExpr, bind_eq_ok]
    constructor
    · rintro ⟨_, left, placedLeft, right, placedRight, _⟩
      exact ⟨⟨left, placedLeft⟩, right, placedRight⟩
    · rintro ⟨⟨left, placedLeft⟩, right, placedRight⟩
      exact ⟨_, left, placedLeft, right, placedRight, rfl⟩

/-- Placed from one item, a tree is the one read through an item further out only if it names nothing in the
collection. -/
theorem placedExpr_eq_through_deeper {expr placed : Expr S} {storage : List String} {up deeper : Nat}
    (answer : (placedExpr expr storage up : Except (TransformError E) _) = .ok placed) (further : up < deeper) :
    placed = expr.through storage deeper ↔ ∀ path ∈ expr.paths, ¬path.Under storage := by
  induction expr generalizing placed deeper with
  | value constant =>
    cases answer
    simp [Expr.through, Expr.paths]
  | item n =>
    cases answer
    simp [Expr.through, Expr.paths]
  | field path =>
    simp only [Expr.through, Expr.paths, List.mem_singleton, forall_eq]
    cases root : path.root with
    | global =>
      obtain ⟨under, rfl⟩ := (placedExpr_field_global root).mp answer
      simp [Path.through, under, Nat.ne_of_lt further]
    | item n =>
      have outside : ¬path.Under storage := by simp [Path.Under, root]
      simp only [placedExpr, root] at answer
      cases answer
      simp [outside, Path.through_eq_self.mpr outside]
  | prefixed op operand ih =>
    obtain ⟨operand, placedOperand, built⟩ := bind_eq_ok.mp answer
    cases built
    simpa [Expr.through, Expr.paths] using ih placedOperand further
  | postfixed operand op ih =>
    obtain ⟨operand, placedOperand, built⟩ := bind_eq_ok.mp answer
    cases built
    simpa [Expr.through, Expr.paths] using ih placedOperand further
  | infixed left op right left_ih right_ih =>
    obtain ⟨left, placedLeft, rest⟩ := bind_eq_ok.mp answer
    obtain ⟨right, placedRight, built⟩ := bind_eq_ok.mp rest
    cases built
    simp only [Expr.through, Expr.paths, Expr.infixed.injEq, true_and, List.mem_append, or_imp, forall_and]
    rw [left_ih placedLeft further, right_ih placedRight further]
  | any source predicate ih =>
    obtain ⟨predicate, placedPredicate, built⟩ := bind_eq_ok.mp answer
    cases built
    simp only [Expr.through, Expr.paths, Expr.any.injEq, List.mem_cons, forall_eq_or_imp]
    rw [ih placedPredicate (Nat.lt_succ_of_lt further), eq_comm, Path.through_eq_self]

/-- What is put in the tree is the answer read through the item, unless an `any` of the answer names something
in the collection: its source is left at the candidate, and its predicate counts no collection more. -/
theorem placedExpr_eq_through {expr placed : Expr S} {storage : List String} {up : Nat}
    (answer : (placedExpr expr storage up : Except (TransformError E) _) = .ok placed) :
    placed = expr.through storage up ↔ expr.Apart storage := by
  induction expr generalizing placed with
  | value constant =>
    cases answer
    simp [Expr.through, Expr.Apart]
  | item n =>
    cases answer
    simp [Expr.through, Expr.Apart]
  | field path =>
    simp only [Expr.through, Expr.Apart, iff_true]
    cases root : path.root with
    | global => exact ((placedExpr_field_global root).mp answer).2
    | item n =>
      have outside : ¬path.Under storage := by simp [Path.Under, root]
      simp only [placedExpr, root] at answer
      cases answer
      rw [Path.through_eq_self.mpr outside]
  | prefixed op operand ih =>
    obtain ⟨operand, placedOperand, built⟩ := bind_eq_ok.mp answer
    cases built
    simpa [Expr.through, Expr.Apart] using ih placedOperand
  | postfixed operand op ih =>
    obtain ⟨operand, placedOperand, built⟩ := bind_eq_ok.mp answer
    cases built
    simpa [Expr.through, Expr.Apart] using ih placedOperand
  | infixed left op right left_ih right_ih =>
    obtain ⟨left, placedLeft, rest⟩ := bind_eq_ok.mp answer
    obtain ⟨right, placedRight, built⟩ := bind_eq_ok.mp rest
    cases built
    simp only [Expr.through, Expr.Apart, Expr.infixed.injEq, true_and]
    rw [left_ih placedLeft, right_ih placedRight]
  | any source predicate ih =>
    obtain ⟨predicate, placedPredicate, built⟩ := bind_eq_ok.mp answer
    cases built
    simp only [Expr.through, Expr.Apart, Expr.any.injEq]
    rw [placedExpr_eq_through_deeper placedPredicate (Nat.lt_succ_self up), eq_comm, Path.through_eq_self]

mutual

theorem placed_eq_ok_iff {inside : List Collection} {up : Nat} {collection : Collection}
    (found : ofItem inside up = some collection) (mapped : Mapped S) :
    (∃ result, (placed mapped (.item up) inside : Except (TransformError E) _) = .ok result) ↔
      mapped.Within collection.storage := by
  match mapped with
  | .null value => simp [placed, found, Mapped.Within, Mapped.leaves, Expr.Within]
  | .scalar expr =>
    simp only [placed, found, Mapped.Within, Mapped.leaves, List.mem_singleton, forall_eq]
    rw [← placedExpr_eq_ok_iff (E := E) expr collection.storage up]
    simp only [bind_eq_ok]
    exact ⟨fun ⟨_, expr, placed, _⟩ => ⟨expr, placed⟩, fun ⟨expr, placed⟩ => ⟨_, expr, placed, rfl⟩⟩
  | .composite parts =>
    simp only [placed, found, Mapped.Within, Mapped.leaves, bind_eq_ok]
    rw [← placedParts_eq_ok_iff found parts]
    exact ⟨fun ⟨_, parts, placed, _⟩ => ⟨parts, placed⟩, fun ⟨parts, placed⟩ => ⟨_, parts, placed, rfl⟩⟩

theorem placedParts_eq_ok_iff {inside : List Collection} {up : Nat} {collection : Collection}
    (found : ofItem inside up = some collection) (parts : List (Mapped S)) :
    (∃ results, (placedParts parts (.item up) inside : Except (TransformError E) _) = .ok results) ↔
      ∀ expr ∈ Mapped.leavesOf parts, expr.Within collection.storage := by
  match parts with
  | [] => simp [placedParts, Mapped.leavesOf]
  | part :: parts =>
    have first := placed_eq_ok_iff found part
    have rest := placedParts_eq_ok_iff found parts
    simp only [Mapped.leavesOf, List.mem_append, or_imp, forall_and, placedParts, bind_eq_ok]
    rw [← rest]
    constructor
    · rintro ⟨_, result, placed, results, placedRest, _⟩
      exact ⟨first.mp ⟨result, placed⟩, results, placedRest⟩
    · rintro ⟨within, results, placedRest⟩
      obtain ⟨result, placed⟩ := first.mpr within
      exact ⟨_, result, placed, results, placedRest, rfl⟩

end

mutual

theorem placed_eq_through {inside : List Collection} {up : Nat} {collection : Collection}
    (found : ofItem inside up = some collection) {mapped result : Mapped S}
    (answer : (placed mapped (.item up) inside : Except (TransformError E) _) = .ok result) :
    result = mapped.through collection.storage up ↔ mapped.Apart collection.storage := by
  match mapped with
  | .null value =>
    simp only [placed, found] at answer
    cases answer
    simp [Mapped.through, Mapped.Apart, Mapped.leaves, Expr.Apart]
  | .scalar expr =>
    simp only [placed, found] at answer
    obtain ⟨placedExpr, placed, built⟩ := bind_eq_ok.mp answer
    cases built
    simpa [Mapped.through, Mapped.Apart, Mapped.leaves] using placedExpr_eq_through placed
  | .composite parts =>
    simp only [placed, found] at answer
    obtain ⟨results, placed, built⟩ := bind_eq_ok.mp answer
    cases built
    simpa [Mapped.through, Mapped.Apart, Mapped.leaves] using placedParts_eq_through found placed

theorem placedParts_eq_through {inside : List Collection} {up : Nat} {collection : Collection}
    (found : ofItem inside up = some collection) {parts results : List (Mapped S)}
    (answer : (placedParts parts (.item up) inside : Except (TransformError E) _) = .ok results) :
    results = Mapped.throughParts collection.storage up parts ↔
      ∀ expr ∈ Mapped.leavesOf parts, expr.Apart collection.storage := by
  match parts with
  | [] =>
    cases answer
    simp [Mapped.throughParts, Mapped.leavesOf]
  | part :: parts =>
    simp only [placedParts] at answer
    obtain ⟨result, placed, rest⟩ := bind_eq_ok.mp answer
    obtain ⟨results, placedRest, built⟩ := bind_eq_ok.mp rest
    cases built
    have first := placed_eq_through found placed
    simp only [Mapped.throughParts, Mapped.leavesOf, List.cons.injEq, List.mem_append, or_imp, forall_and]
    rw [first, placedParts_eq_through found placedRest]
    rfl

end

end Mapping

end AsceticDdd.Specification
