import AsceticDdd.Specification.Jsonpath.Parser

/-!
# The grammar of templates

A derivation counts how deep groups, `!` and the filters of collections nest in it. What a rule's function reads
has a derivation, and what a rule derives is read, where nothing follows that the rule would go on with.
-/

namespace AsceticDdd.Specification.Jsonpath

inductive Rule
  | or
  | and
  | unary
  | comparison
  | operand
  | query
  | filter
deriving DecidableEq

/-- The tokens of a path. -/
def dotted (names : List String) : List Kind := names.flatMap fun name => [.dot, .name name]

/-- What the first token of a query starts at, where `@` means `scope`. -/
def start (scope : Root) : Kind → Option Root
  | .at => some scope
  | .dollar => some .global
  | _ => none

/-- A rule of the grammar derives the tokens of a tree. Runs nest to the left, and the candidate is no value:
`@` alone is an item. -/
inductive Derives (keyword : String → Option Value) : Rule → Root → List Kind → Expr Slot → Nat → Prop
  | disjunct {scope ks e n} (h : Derives keyword .and scope ks e n) : Derives keyword .or scope ks e n
  | or {scope ks js l r m n} (hl : Derives keyword .or scope ks l m) (hr : Derives keyword .and scope js r n) :
    Derives keyword .or scope (ks ++ .or :: js) (.or l r) (max m n)
  | conjunct {scope ks e n} (h : Derives keyword .unary scope ks e n) : Derives keyword .and scope ks e n
  | and {scope ks js l r m n} (hl : Derives keyword .and scope ks l m) (hr : Derives keyword .unary scope js r n) :
    Derives keyword .and scope (ks ++ .and :: js) (.and l r) (max m n)
  | not {scope ks e n} (h : Derives keyword .unary scope ks e n) :
    Derives keyword .unary scope (.not :: ks) (.not e) (n + 1)
  | unary {scope ks e n} (h : Derives keyword .comparison scope ks e n) : Derives keyword .unary scope ks e n
  | truth {scope ks e n} (h : Derives keyword .operand scope ks e n) : Derives keyword .comparison scope ks e n
  | comparison {scope ks k js l r op m n} (hl : Derives keyword .operand scope ks l m)
    (hr : Derives keyword .operand scope js r n) (hop : comparator k = some op) :
    Derives keyword .comparison scope (ks ++ k :: js) (.infixed l (.comparison op) r) (max m n)
  | group {scope ks e n} (h : Derives keyword .or scope ks e n) :
    Derives keyword .operand scope (.leftParen :: ks ++ [.rightParen]) e (n + 1)
  | literal {scope k value} (h : literal keyword k = some value) :
    Derives keyword .operand scope [k] (.value (.literal value)) 0
  | placeholder {scope param} : Derives keyword .operand scope [.placeholder param] (.value (.param param)) 0
  | query {scope ks e n} (h : Derives keyword .query scope ks e n) : Derives keyword .operand scope ks e n
  | item {up} : Derives keyword .query (.item up) [.at] (.item up) 0
  | field {scope k root objects name} (h : start scope k = some root) :
    Derives keyword .query scope (k :: dotted (objects ++ [name])) (.field ⟨root, objects, name⟩) 0
  | any {scope k root objects name ks e n} (h : start scope k = some root)
    (he : Derives keyword .filter (.item 0) ks e n) :
    Derives keyword .query scope
      (k :: dotted (objects ++ [name]) ++ [.leftBracket, .star, .rightBracket] ++ ks)
      (.any ⟨root, objects, name⟩ e) (n + 1)
  | filter {scope ks e n} (h : Derives keyword .or scope ks e n) :
    Derives keyword .filter scope (.leftBracket :: .question :: ks ++ [.rightBracket]) e n

/-- `template = "$" ( filter | path "[*]" filter )` -/
inductive Template (keyword : String → Option Value) : List Kind → Expr Slot → Nat → Prop
  | filter {ks e n} (h : Derives keyword .filter .global ks e n) : Template keyword (.dollar :: ks) e n
  | any {objects name ks e n} (h : Derives keyword .filter (.item 0) ks e n) :
    Template keyword (.dollar :: dotted (objects ++ [name]) ++ [.leftBracket, .star, .rightBracket] ++ ks)
      (.any ⟨.global, objects, name⟩ e) (n + 1)

/-- No named placeholder stands beside a positional one. -/
def OneStyle (ks : List Kind) : Prop :=
  ∀ name position kind kind', .placeholder ⟨.name name, kind⟩ ∈ ks → .placeholder ⟨.position position, kind'⟩ ∉ ks

section Inputs

variable {input out : Input} {k : Kind} {ks rest : List Kind} {message expected : String}

def Input.kinds (input : Input) : List Kind := input.tokens.map (·.kind)

theorem Input.kind_eq_some : input.kind = some k ↔ ∃ rest, input.kinds = k :: rest := by
  cases h : input.tokens <;> simp [Input.kind, Input.kinds, h]

theorem Input.kind_eq_none : input.kind = none ↔ input.kinds = [] := by
  cases h : input.tokens <;> simp [Input.kind, Input.kinds, h]

theorem Input.kind_of_kinds (h : input.kinds = k :: rest) : input.kind = some k :=
  Input.kind_eq_some.mpr ⟨rest, h⟩

theorem Input.advance_kinds (h : input.kinds = k :: rest) : input.advance.kinds = rest := by
  simp only [Input.kinds, Input.advance] at h ⊢
  rw [List.map_tail, h, List.tail_cons]

theorem Input.kinds_of_kind (h : input.kind = some k) : input.kinds = k :: input.advance.kinds := by
  obtain ⟨rest, hrest⟩ := Input.kind_eq_some.mp h
  rw [hrest, Input.advance_kinds hrest]

theorem Input.expect_kinds (h : input.expect k message expected = .ok out) : input.kinds = k :: out.kinds := by
  unfold Input.expect at h
  split at h
  case isTrue hkind =>
    cases h
    exact Input.kinds_of_kind hkind
  case isFalse => cases h

theorem Input.expect_ok (h : input.kinds = k :: rest) :
    ∃ out, (∀ message expected, input.expect k message expected = .ok out) ∧ out.kinds = rest := by
  refine ⟨input.advance, fun _ _ => ?_, Input.advance_kinds h⟩
  rw [Input.expect, if_pos (Input.kind_of_kinds h)]

end Inputs

end AsceticDdd.Specification.Jsonpath
