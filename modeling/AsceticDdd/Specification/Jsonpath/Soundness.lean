import AsceticDdd.Control.Except
import AsceticDdd.Specification.Jsonpath.Grammar

/-!
# What the parser reads is in the grammar
-/

namespace AsceticDdd.Specification.Jsonpath

open Control

variable {input out : Input} {scope root : Root} {depth levels : Nat} {tree left right : Tree} {op : Infix}

/-- The tokens between two inputs have a derivation of the tree, within the levels left. -/
def Reads (derives : List Kind → Expr Slot → Nat → Prop) (levels : Nat) (input : Input) (tree : Tree)
    (out : Input) : Prop :=
  ∃ ks n, input.kinds = ks ++ out.kinds ∧ derives ks tree.expr n ∧ n ≤ levels

theorem Reads.imp {derives derives' : List Kind → Expr Slot → Nat → Prop}
    (h : Reads derives levels input tree out) (himp : ∀ ks n, derives ks tree.expr n → derives' ks tree.expr n) :
    Reads derives' levels input tree out := by
  obtain ⟨ks, n, hks, hd, hn⟩ := h
  exact ⟨ks, n, hks, himp ks n hd, hn⟩

theorem Tree.overBoth_expr (h : Tree.overBoth input op left right = .ok tree) :
    tree.expr = .infixed left.expr op right.expr := by
  obtain ⟨_, _, h⟩ := bind_eq_ok.mp h
  cases h
  rfl

theorem Tree.overOne_expr {make : Expr Slot → Expr Slot} {hmake : ∀ expr, (make expr).height = expr.height + 1}
    (h : Tree.overOne input make hmake left = .ok tree) : tree.expr = make left.expr := by
  obtain ⟨_, _, h⟩ := bind_eq_ok.mp h
  cases h
  rfl

theorem deeper_levels {below : { n // n = depth + 1 ∧ n ≤ maxNesting }} (_h : deeper input depth = .ok below)
    {n : Nat} (hn : n ≤ maxNesting - below) : n + 1 ≤ maxNesting - depth := by
  have := below.2
  omega

theorem chainFrom_sound {derives operands : List Kind → Expr Slot → Nat → Prop} {separator : Kind}
    {operand : Input → Except SyntaxError (Tree × Input)}
    (hmore : ∀ ks js l r m n, derives ks l m → operands js r n →
      derives (ks ++ separator :: js) (.infixed l op r) (max m n))
    (hoperand : ∀ {input tree out}, operand input = .ok (tree, out) → Reads operands levels input tree out)
    {ks : List Kind} {m : Nat} (hleft : derives ks left.expr m) (hm : m ≤ levels)
    (h : chainFrom separator op operand left input = .ok (tree, out)) :
    ∃ js n, ks ++ input.kinds = js ++ out.kinds ∧ derives js tree.expr n ∧ n ≤ levels := by
  fun_induction chainFrom separator op operand left input generalizing ks m with
  | case1 => cases h
  | case2 => cases h
  | case3 left input hkind right rest hright both hboth ih =>
    obtain ⟨js, n, hjs, hr, hn⟩ := hoperand hright
    have hboth : derives (ks ++ separator :: js) both.expr (max m n) := by
      rw [Tree.overBoth_expr hboth]
      exact hmore _ _ _ _ _ _ hleft hr
    obtain ⟨all, n', hall, hd, hn'⟩ := ih hboth (max_le hm hn) h
    refine ⟨all, n', ?_, hd, hn'⟩
    rw [Input.kinds_of_kind hkind, hjs, ← hall]
    simp
  | case4 =>
    cases h
    exact ⟨ks, m, rfl, hleft, hm⟩

theorem chain_sound {derives operands : List Kind → Expr Slot → Nat → Prop} {separator : Kind}
    {operand : Input → Except SyntaxError (Tree × Input)}
    (hone : ∀ ks e n, operands ks e n → derives ks e n)
    (hmore : ∀ ks js l r m n, derives ks l m → operands js r n →
      derives (ks ++ separator :: js) (.infixed l op r) (max m n))
    (hoperand : ∀ {input tree out}, operand input = .ok (tree, out) → Reads operands levels input tree out)
    (h : chain input separator op operand = .ok (tree, out)) : Reads derives levels input tree out := by
  obtain ⟨⟨left, rest⟩, hleft, h⟩ := bind_eq_ok.mp h
  obtain ⟨ks, m, hks, hd, hm⟩ := hoperand hleft
  rw [Reads, hks]
  exact chainFrom_sound hmore hoperand (hone _ _ _ hd) hm h

theorem namesFrom_sound {ending : Nat} {tokens : List Token} {names : List String}
    (h : namesFrom ending tokens = .ok (names, out)) : tokens.map (·.kind) = dotted names ++ out.kinds := by
  fun_induction namesFrom ending tokens generalizing names with
  | case1 _ name _ rest ih =>
    obtain ⟨⟨names', out'⟩, hnames, h⟩ := bind_eq_ok.mp h
    cases h
    simp [dotted, ih hnames]
  | case2 => cases h
  | case3 tokens =>
    cases h
    rfl

theorem names_sound {names : List String} (h : Jsonpath.names input = .ok (names, out)) :
    input.kinds = dotted names ++ out.kinds :=
  namesFrom_sound h

theorem collection_append (objects : List String) (name : String) :
    collection root (objects ++ [name]) = some ⟨root, objects, name⟩ := by
  have hfold : ∀ (names : List String) (path : Path),
      (names ++ [name]).foldl Path.child path = ⟨path.root, path.names ++ names, name⟩ := by
    intro names
    induction names with
    | nil =>
      intro path
      simp [Path.child, Path.names]
    | cons first names ih =>
      intro path
      rw [List.cons_append, List.foldl_cons, ih]
      simp [Path.child, Path.names]
  cases objects with
  | nil => rfl
  | cons first objects => simp [collection, hfold, Path.new, Path.names]

theorem collection_eq_some {names : List String} {path : Path} (h : collection root names = some path) :
    ∃ objects name, names = objects ++ [name] ∧ path = ⟨root, objects, name⟩ := by
  rcases List.eq_nil_or_concat' names with rfl | ⟨objects, name, rfl⟩
  · cases h
  · rw [collection_append] at h
    cases h
    exact ⟨objects, name, rfl, rfl⟩

theorem collection_eq_none {names : List String} (h : collection root names = none) : names = [] := by
  cases names with
  | nil => rfl
  | cons => cases h

theorem start_eq_item {k : Kind} {up : Nat} (h : start scope k = some (.item up)) : k = .at ∧ scope = .item up := by
  cases k <;> cases h
  exact ⟨rfl, rfl⟩

theorem wildcard_sound (h : wildcard input = .ok out) :
    input.kinds = [.leftBracket, .star, .rightBracket] ++ out.kinds := by
  obtain ⟨_, h1, h⟩ := bind_eq_ok.mp h
  obtain ⟨_, h2, h3⟩ := bind_eq_ok.mp h
  rw [Input.expect_kinds h1, Input.expect_kinds h2, Input.expect_kinds h3]
  rfl

variable [ToString F64]

mutual

theorem filter_sound {input out : Input} {scope : Root} {depth : Nat} {tree : Tree}
    (h : filter input scope depth = .ok (tree, out)) :
    Reads (Derives keyword .filter scope) (maxNesting - depth) input tree out := by
  rw [filter] at h
  obtain ⟨_, h1, h⟩ := bind_eq_ok.mp h
  obtain ⟨_, h2, h⟩ := bind_eq_ok.mp h
  obtain ⟨⟨predicate, rest⟩, hor, h⟩ := bind_eq_ok.mp h
  obtain ⟨_, h3, h⟩ := bind_eq_ok.mp h
  cases h
  obtain ⟨ks, n, hks, hd, hn⟩ := or_sound hor
  refine ⟨_, n, ?_, .filter hd, hn⟩
  rw [Input.expect_kinds h1, Input.expect_kinds h2, hks, Input.expect_kinds h3]
  simp
termination_by (maxNesting - depth, 6)

theorem or_sound {input out : Input} {scope : Root} {depth : Nat} {tree : Tree}
    (h : or input scope depth = .ok (tree, out)) :
    Reads (Derives keyword .or scope) (maxNesting - depth) input tree out := by
  rw [or] at h
  exact chain_sound (fun _ _ _ => .disjunct) (fun _ _ _ _ _ _ => .or) and_sound h
termination_by (maxNesting - depth, 5)

theorem and_sound {input out : Input} {scope : Root} {depth : Nat} {tree : Tree}
    (h : and input scope depth = .ok (tree, out)) :
    Reads (Derives keyword .and scope) (maxNesting - depth) input tree out := by
  rw [and] at h
  exact chain_sound (fun _ _ _ => .conjunct) (fun _ _ _ _ _ _ => .and) unary_sound h
termination_by (maxNesting - depth, 4)

theorem unary_sound {input out : Input} {scope : Root} {depth : Nat} {tree : Tree}
    (h : unary input scope depth = .ok (tree, out)) :
    Reads (Derives keyword .unary scope) (maxNesting - depth) input tree out := by
  rw [unary] at h
  split at h
  case isTrue hkind =>
    obtain ⟨below, hbelow, h⟩ := bind_eq_ok.mp h
    obtain ⟨⟨operand, rest⟩, hoperand, h⟩ := bind_eq_ok.mp h
    obtain ⟨made, hmade, h⟩ := bind_eq_ok.mp h
    cases h
    obtain ⟨ks, n, hks, hd, hn⟩ := unary_sound hoperand
    refine ⟨.not :: ks, n + 1, ?_, ?_, deeper_levels hbelow hn⟩
    · rw [Input.kinds_of_kind hkind, hks]
      rfl
    · rw [Tree.overOne_expr hmade]
      exact .not hd
  case isFalse => exact (comparison_sound h).imp fun _ _ => .unary
termination_by (maxNesting - depth, 3)
decreasing_by all_goals grind

theorem comparison_sound {input out : Input} {scope : Root} {depth : Nat} {tree : Tree}
    (h : comparison input scope depth = .ok (tree, out)) :
    Reads (Derives keyword .comparison scope) (maxNesting - depth) input tree out := by
  rw [comparison] at h
  obtain ⟨⟨left, rest⟩, hleft, h⟩ := bind_eq_ok.mp h
  obtain ⟨ks, m, hks, hl, hm⟩ := operand_sound hleft
  cases hop : rest.kind.bind comparator with
  | none =>
    simp only [hop] at h
    cases h
    exact ⟨ks, m, hks, .truth hl, hm⟩
  | some op =>
    simp only [hop] at h
    obtain ⟨⟨right, rest'⟩, hright, h⟩ := bind_eq_ok.mp h
    obtain ⟨both, hboth, h⟩ := bind_eq_ok.mp h
    cases h
    obtain ⟨k, hkind, hop⟩ := Option.bind_eq_some_iff.mp hop
    obtain ⟨js, n, hjs, hr, hn⟩ := operand_sound hright
    refine ⟨ks ++ k :: js, max m n, ?_, ?_, max_le hm hn⟩
    · rw [hks, Input.kinds_of_kind hkind, hjs]
      simp
    · rw [Tree.overBoth_expr hboth]
      exact .comparison hl hr hop
termination_by (maxNesting - depth, 2)

theorem operand_sound {input out : Input} {scope : Root} {depth : Nat} {tree : Tree}
    (h : operand input scope depth = .ok (tree, out)) :
    Reads (Derives keyword .operand scope) (maxNesting - depth) input tree out := by
  rw [operand] at h
  split at h
  case h_1 hkind =>
    obtain ⟨below, hbelow, h⟩ := bind_eq_ok.mp h
    obtain ⟨⟨inner, rest⟩, hor, h⟩ := bind_eq_ok.mp h
    obtain ⟨_, hparen, h⟩ := bind_eq_ok.mp h
    cases h
    obtain ⟨ks, n, hks, hd, hn⟩ := or_sound hor
    refine ⟨_, n + 1, ?_, .group hd, deeper_levels hbelow hn⟩
    rw [Input.kinds_of_kind hkind, hks, Input.expect_kinds hparen]
    simp
  case h_2 param hkind =>
    cases h
    exact ⟨_, 0, Input.kinds_of_kind hkind, .placeholder, Nat.zero_le _⟩
  case h_3 hkind => exact query_sound hkind rfl h
  case h_4 hkind => exact query_sound hkind rfl h
  case h_5 =>
    split at h
    case h_1 value hvalue =>
      cases h
      obtain ⟨k, hkind, hvalue⟩ := Option.bind_eq_some_iff.mp hvalue
      exact ⟨[k], 0, Input.kinds_of_kind hkind, .literal hvalue, Nat.zero_le _⟩
    case h_2 => cases h
termination_by (maxNesting - depth, 1)
decreasing_by all_goals grind

theorem query_sound {input out : Input} {scope root : Root} {depth : Nat} {tree : Tree} {k : Kind} (hkind : input.kind = some k) (hroot : start scope k = some root)
    (h : query input.advance root depth = .ok (tree, out)) :
    Reads (Derives keyword .operand scope) (maxNesting - depth) input tree out := by
  rw [query] at h
  obtain ⟨⟨names, rest⟩, hnames, h⟩ := bind_eq_ok.mp h
  have hkinds : input.kinds = k :: dotted names ++ rest.kinds := by
    rw [Input.kinds_of_kind hkind, names_sound hnames]
    rfl
  simp only at h
  split at h
  case h_1 hnone =>
    split at h
    · cases h
    · cases h
      cases collection_eq_none hnone
      obtain ⟨rfl, rfl⟩ := start_eq_item hroot
      exact ⟨[.at], 0, hkinds, .query .item, Nat.zero_le _⟩
  case h_2 => cases h
  case h_3 hpath =>
    obtain ⟨objects, name, rfl, rfl⟩ := collection_eq_some hpath
    split at h
    case isTrue =>
      obtain ⟨items, hitems, h⟩ := bind_eq_ok.mp h
      obtain ⟨below, hbelow, h⟩ := bind_eq_ok.mp h
      obtain ⟨⟨predicate, rest'⟩, hfilter, h⟩ := bind_eq_ok.mp h
      obtain ⟨any, hany, h⟩ := bind_eq_ok.mp h
      cases h
      obtain ⟨ks, n, hks, hd, hn⟩ := filter_sound hfilter
      have hd : Derives keyword .operand scope _ (.any ⟨_, objects, name⟩ _) _ := .query (.any hroot hd)
      rw [← Tree.overOne_expr hany] at hd
      refine ⟨_, n + 1, ?_, hd, deeper_levels hbelow hn⟩
      rw [hkinds, wildcard_sound hitems, hks]
      simp
    case isFalse =>
      cases h
      exact ⟨_, 0, hkinds, .query (.field hroot), Nat.zero_le _⟩
termination_by (maxNesting - depth, 0)
decreasing_by all_goals grind

end

end AsceticDdd.Specification.Jsonpath
