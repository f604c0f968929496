import AsceticDdd.Specification.Jsonpath.Soundness

/-!
# What the grammar derives is read

A rule's function stops where the rule does: it is told what follows, and that the rule would not go on with it.
-/

namespace AsceticDdd.Specification.Jsonpath

open Control

variable {input out : Input} {scope root : Root} {depth n : Nat} {tree left right : Tree} {op : Infix}
  {rule : Rule} {ks rest : List Kind} {e l r : Expr Slot} {keyword : String → Option Value}

/-- The rule would go on with the token. -/
def Rule.continues : Rule → Kind → Prop
  | .operand, k | .query, k => k = .dot ∨ k = .leftBracket
  | .comparison, k | .unary, k => (k = .dot ∨ k = .leftBracket) ∨ (comparator k).isSome
  | .and, k => ((k = .dot ∨ k = .leftBracket) ∨ (comparator k).isSome) ∨ k = .and
  | .or, k => (((k = .dot ∨ k = .leftBracket) ∨ (comparator k).isSome) ∨ k = .and) ∨ k = .or
  | .filter, _ => False

def Stops (rule : Rule) (rest : List Kind) : Prop := ∀ k, rest.head? = some k → ¬rule.continues k

theorem Stops.imp {rule' : Rule} (h : Stops rule rest) (himp : ∀ k, rule'.continues k → rule.continues k) :
    Stops rule' rest :=
  fun k hk hcontinues => h k hk (himp k hcontinues)

theorem Stops.cons {k : Kind} (h : ¬rule.continues k) : Stops rule (k :: rest) := by
  rintro _ ⟨⟩
  exact h

theorem Stops.kind_ne {k : Kind} (h : Stops rule input.kinds) (hk : rule.continues k) : input.kind ≠ some k := by
  intro hkind
  obtain ⟨rest, hrest⟩ := Input.kind_eq_some.mp hkind
  exact h k (by rw [hrest, List.head?_cons]) hk

theorem Tree.overBoth_ok (input : Input) (h : (Expr.infixed left.expr op right.expr).height ≤ maxHeight) :
    ∃ both, Tree.overBoth input op left right = .ok both ∧ both.expr = .infixed left.expr op right.expr := by
  have hlt : max left.height right.height < maxHeight := by
    rw [Expr.height, left.tall, right.tall] at h
    exact h
  rw [Tree.overBoth, taller, dif_pos hlt, ok_bind]
  exact ⟨_, rfl, rfl⟩

theorem Tree.overOne_ok (input : Input) {make : Expr Slot → Expr Slot} (hmake : ∀ expr, (make expr).height = expr.height + 1)
    (h : (make left.expr).height ≤ maxHeight) :
    ∃ made, Tree.overOne input make hmake left = .ok made ∧ made.expr = make left.expr := by
  have hlt : left.height < maxHeight := by
    rw [hmake, left.tall] at h
    exact h
  rw [Tree.overOne, taller, dif_pos hlt, ok_bind]
  exact ⟨_, rfl, rfl⟩

theorem deeper_ok (input : Input) (h : n + 1 ≤ maxNesting - depth) :
    ∃ below, deeper input depth = .ok below ∧ n ≤ maxNesting - below := by
  have hlt : depth < maxNesting := by omega
  rw [deeper, dif_pos hlt]
  exact ⟨_, rfl, by simp only; omega⟩

theorem names_ok {names : List String} (h : input.kinds = dotted names ++ rest) (hdot : rest.head? ≠ some .dot) :
    ∃ out, Jsonpath.names input = .ok (names, out) ∧ out.kinds = rest := by
  obtain ⟨tokens, ending⟩ := input
  simp only [Input.kinds, Jsonpath.names] at h ⊢
  induction names generalizing tokens with
  | nil =>
    have hnil : namesFrom ending tokens = .ok ([], ⟨tokens, ending⟩) := by
      rw [show rest = tokens.map (·.kind) from h.symm] at hdot
      unfold namesFrom
      split
      · exact absurd rfl hdot
      · exact absurd rfl hdot
      · rfl
    exact ⟨_, hnil, h⟩
  | cons name names ih =>
    obtain ⟨⟨_, _⟩, afterDot, rfl, rfl, hdotted⟩ := List.map_eq_cons_iff.mp h
    obtain ⟨⟨_, _⟩, after, rfl, rfl, hnames⟩ := List.map_eq_cons_iff.mp hdotted
    obtain ⟨out, hout, hkinds⟩ := ih after hnames
    rw [namesFrom, hout, ok_bind]
    exact ⟨out, rfl, hkinds⟩

theorem wildcard_ok (h : input.kinds = .leftBracket :: .star :: .rightBracket :: rest) :
    ∃ out, wildcard input = .ok out ∧ out.kinds = rest := by
  obtain ⟨first, hfirst, h⟩ := Input.expect_ok h
  obtain ⟨second, hsecond, h⟩ := Input.expect_ok h
  obtain ⟨out, hout, hrest⟩ := Input.expect_ok h
  rw [wildcard, hfirst, ok_bind, hsecond, ok_bind, hout]
  exact ⟨out, rfl, hrest⟩

/-- Neither a comparison nor an operand starts with `!`. -/
theorem Derives.head_ne_not (h : Derives keyword rule scope ks e n)
    (hrule : rule = .comparison ∨ rule = .operand ∨ rule = .query) : ∃ k js, ks = k :: js ∧ k ≠ .not := by
  induction h with
  | truth _ ih => exact ih (by simp)
  | query _ ih => exact ih (by simp)
  | comparison _ _ _ ih =>
    obtain ⟨k, js, rfl, hk⟩ := ih (by simp)
    exact ⟨k, _, rfl, hk⟩
  | group => exact ⟨_, _, rfl, by simp⟩
  | literal hvalue => exact ⟨_, _, rfl, by rintro rfl; cases hvalue⟩
  | placeholder => exact ⟨_, _, rfl, by simp⟩
  | item => exact ⟨_, _, rfl, by simp⟩
  | field hstart => exact ⟨_, _, rfl, by rintro rfl; cases hstart⟩
  | any hstart => exact ⟨_, _, rfl, by rintro rfl; cases hstart⟩
  | _ => simp at hrule

/-- What a part of a run must not be followed by. -/
def Rule.part : Rule → Rule
  | .or => .and
  | .and => .unary
  | rule => rule

theorem Stops.part (h : Stops rule rest) : Stops rule.part rest := by
  refine h.imp fun k hk => ?_
  cases rule <;> simp_all [Rule.part, Rule.continues]

theorem operands_height (h : (Expr.infixed l op r).height ≤ maxHeight) :
    l.height ≤ maxHeight ∧ r.height ≤ maxHeight := by
  rw [Expr.height] at h
  omega

/-- A run goes on over a separator and an operand. -/
theorem chainFrom_ok {separator : Kind} (operand : Input → Except SyntaxError (Tree × Input))
    (hkind : input.kind = some separator) (hright : operand input.advance = .ok (right, out))
    (h : (Expr.infixed left.expr op right.expr).height ≤ maxHeight) :
    ∃ both, chainFrom separator op operand left input = chainFrom separator op operand both out ∧
      both.expr = .infixed left.expr op right.expr := by
  obtain ⟨both, hboth, hexpr⟩ := Tree.overBoth_ok input h
  refine ⟨both, ?_, hexpr⟩
  rw [chainFrom, if_pos hkind, hright]
  simp only
  split
  case h_1 _ herror => cases herror.symm.trans hboth
  case h_2 _ hok =>
    cases hok.symm.trans hboth
    rfl

variable [ToString F64]

def parse : Rule → Input → Root → Nat → Except SyntaxError (Tree × Input)
  | .or => or
  | .and => and
  | .unary => unary
  | .comparison => comparison
  | .operand | .query => operand
  | .filter => filter

/-- A run goes on after what is read of it. -/
def resumed (scope : Root) (depth : Nat) : Rule → Tree → Input → Except SyntaxError (Tree × Input)
  | .or, tree, input => chainFrom .or (.logical .or) (fun input => and input scope depth) tree input
  | .and, tree, input => chainFrom .and (.logical .and) (fun input => unary input scope depth) tree input
  | _, tree, input => .ok (tree, input)

theorem resumed_eq (h : Stops rule input.kinds) : resumed scope depth rule tree input = .ok (tree, input) := by
  cases rule with
  | or =>
    rw [resumed, chainFrom, if_neg (h.kind_ne (by simp [Rule.continues]))]
  | and =>
    rw [resumed, chainFrom, if_neg (h.kind_ne (by simp [Rule.continues]))]
  | _ => rfl

def Read (rule : Rule) (scope : Root) (ks : List Kind) (e : Expr Slot) (n : Nat) : Prop :=
  ∀ {depth input rest}, e.height ≤ maxHeight → n ≤ maxNesting - depth → input.kinds = ks ++ rest →
    Stops rule.part rest →
    ∃ tree out, parse rule input scope depth = resumed scope depth rule tree out ∧ tree.expr = e ∧ out.kinds = rest

variable {js : List Kind} {m : Nat}

theorem Read.whole (h : Read rule scope ks e n) (he : e.height ≤ maxHeight) (hn : n ≤ maxNesting - depth)
    (hkinds : input.kinds = ks ++ rest) (hpart : Stops rule.part rest) (hstops : Stops rule rest) :
    ∃ tree out, parse rule input scope depth = .ok (tree, out) ∧ tree.expr = e ∧ out.kinds = rest := by
  obtain ⟨tree, out, hparse, hexpr, hout⟩ := h he hn hkinds hpart
  exact ⟨tree, out, hparse.trans (resumed_eq (hout ▸ hstops)), hexpr, hout⟩

theorem Read.disjunct (h : Read .and scope ks e n) : Read .or scope ks e n := by
  intro depth input rest he hn hkinds hpart
  obtain ⟨tree, out, hand, hexpr, hout⟩ := h.whole he hn hkinds hpart.part hpart
  refine ⟨tree, out, ?_, hexpr, hout⟩
  have hand : and input scope depth = .ok (tree, out) := hand
  rw [parse, or, chain, hand]
  rfl

theorem Read.conjunct (h : Read .unary scope ks e n) : Read .and scope ks e n := by
  intro depth input rest he hn hkinds hpart
  obtain ⟨tree, out, hunary, hexpr, hout⟩ := h.whole he hn hkinds hpart hpart
  refine ⟨tree, out, ?_, hexpr, hout⟩
  have hunary : unary input scope depth = .ok (tree, out) := hunary
  rw [parse, and, chain, hunary]
  rfl

theorem Read.or (hl : Read .or scope ks l m) (hr : Read .and scope js r n) :
    Read .or scope (ks ++ .or :: js) (.or l r) (max m n) := by
  intro depth input rest he hn hkinds hpart
  obtain ⟨hel, her⟩ := operands_height he
  obtain ⟨hm, hn⟩ := Nat.max_le.mp hn
  obtain ⟨left, middle, hleft, rfl, hmiddle⟩ := hl hel hm (hkinds.trans (List.append_assoc ..))
    (Stops.cons (by simp [Rule.part, Rule.continues, comparator]))
  obtain ⟨right, out, hright, rfl, hout⟩ :=
    hr.whole her hn (Input.advance_kinds hmiddle) hpart.part hpart
  obtain ⟨both, hboth, hexpr⟩ :=
    chainFrom_ok (fun input => Jsonpath.and input scope depth) (Input.kind_of_kinds hmiddle) hright he
  exact ⟨both, out, hleft.trans hboth, hexpr, hout⟩

theorem Read.and (hl : Read .and scope ks l m) (hr : Read .unary scope js r n) :
    Read .and scope (ks ++ .and :: js) (.and l r) (max m n) := by
  intro depth input rest he hn hkinds hpart
  obtain ⟨hel, her⟩ := operands_height he
  obtain ⟨hm, hn⟩ := Nat.max_le.mp hn
  obtain ⟨left, middle, hleft, rfl, hmiddle⟩ := hl hel hm (hkinds.trans (List.append_assoc ..))
    (Stops.cons (by simp [Rule.part, Rule.continues, comparator]))
  obtain ⟨right, out, hright, rfl, hout⟩ :=
    hr.whole her hn (Input.advance_kinds hmiddle) hpart hpart
  obtain ⟨both, hboth, hexpr⟩ :=
    chainFrom_ok (fun input => Jsonpath.unary input scope depth) (Input.kind_of_kinds hmiddle) hright he
  exact ⟨both, out, hleft.trans hboth, hexpr, hout⟩

theorem Read.not (h : Read .unary scope ks e n) : Read .unary scope (.not :: ks) (.not e) (n + 1) := by
  intro depth input rest he hn hkinds hpart
  have hlt : e.height ≤ maxHeight := Nat.le_of_succ_le he
  obtain ⟨below, hbelow, hlevels⟩ := deeper_ok input hn
  obtain ⟨operand, out, hoperand, rfl, hout⟩ :=
    h.whole hlt hlevels (Input.advance_kinds hkinds) hpart hpart
  have hoperand : Jsonpath.unary input.advance scope below = .ok (operand, out) := hoperand
  obtain ⟨made, hmade, hexpr⟩ := Tree.overOne_ok input (fun _ => rfl) he
  refine ⟨made, out, ?_, hexpr, hout⟩
  rw [parse, Jsonpath.unary, if_pos (Input.kind_of_kinds hkinds), hbelow, ok_bind, hoperand, ok_bind]
  simp only [hmade, ok_bind]
  rfl

theorem Read.unary (hd : Derives keyword .comparison scope ks e n) (h : Read .comparison scope ks e n) :
    Read .unary scope ks e n := by
  intro depth input rest he hn hkinds hpart
  obtain ⟨k, js, rfl, hk⟩ := hd.head_ne_not (by simp)
  have hnot : input.kind ≠ some .not := by
    rw [Input.kind_of_kinds hkinds]
    simpa using hk
  obtain ⟨tree, out, hcomparison, hexpr, hout⟩ := h he hn hkinds hpart
  refine ⟨tree, out, ?_, hexpr, hout⟩
  rw [parse, Jsonpath.unary, if_neg hnot]
  exact hcomparison

theorem Read.truth (h : Read .operand scope ks e n) : Read .comparison scope ks e n := by
  intro depth input rest he hn hkinds hpart
  obtain ⟨tree, out, hoperand, hexpr, rfl⟩ := h he hn hkinds (hpart.imp fun k => .inl)
  have hoperand : operand input scope depth = .ok (tree, out) := hoperand
  have hnone : out.kind.bind comparator = none := by
    cases hkind : out.kind with
    | none => rfl
    | some k =>
      obtain ⟨rest, hrest⟩ := Input.kind_eq_some.mp hkind
      have hstops := hpart k (by rw [hrest, List.head?_cons])
      simpa [Rule.part, Rule.continues] using fun hop => hstops (.inr hop)
  refine ⟨tree, out, ?_, hexpr, rfl⟩
  rw [parse, Jsonpath.comparison, hoperand, ok_bind]
  simp only [hnone]
  rfl

theorem Read.comparison {k : Kind} {op : Comparison} (hl : Read .operand scope ks l m)
    (hr : Read .operand scope js r n) (hop : comparator k = some op) :
    Read .comparison scope (ks ++ k :: js) (.infixed l (.comparison op) r) (max m n) := by
  intro depth input rest he hn hkinds hpart
  obtain ⟨hel, her⟩ := operands_height he
  obtain ⟨hm, hn⟩ := Nat.max_le.mp hn
  obtain ⟨left, middle, hleft, rfl, hmiddle⟩ := hl hel hm (hkinds.trans (List.append_assoc ..))
    (Stops.cons (by rintro (rfl | rfl) <;> cases hop))
  obtain ⟨right, out, hright, rfl, hout⟩ :=
    hr her hn (Input.advance_kinds hmiddle) (hpart.imp fun k => .inl)
  have hleft : operand input scope depth = .ok (left, middle) := hleft
  have hright : operand middle.advance scope depth = .ok (right, out) := hright
  obtain ⟨both, hboth, hexpr⟩ := Tree.overBoth_ok middle he
  have hsome : middle.kind.bind comparator = some op := by
    rw [Input.kind_of_kinds hmiddle, Option.bind_some, hop]
  refine ⟨both, out, ?_, hexpr, hout⟩
  rw [parse, Jsonpath.comparison, hleft, ok_bind]
  simp only [hsome, hright, ok_bind, hboth]
  rfl

theorem Read.group (h : Read .or scope ks e n) :
    Read .operand scope (.leftParen :: ks ++ [.rightParen]) e (n + 1) := by
  intro depth input rest he hn hkinds hpart
  rw [List.append_assoc, List.cons_append] at hkinds
  obtain ⟨below, hbelow, hlevels⟩ := deeper_ok input hn
  have hstops : Stops .or (.rightParen :: rest) := Stops.cons (by simp [Rule.continues, comparator])
  obtain ⟨inner, middle, hinner, hexpr, hmiddle⟩ :=
    h.whole he hlevels (Input.advance_kinds hkinds) hstops.part hstops
  have hinner : Jsonpath.or input.advance scope below = .ok (inner, middle) := hinner
  obtain ⟨out, hparen, hout⟩ := Input.expect_ok hmiddle
  refine ⟨inner, out, ?_, hexpr, hout⟩
  rw [parse, Jsonpath.operand, Input.kind_of_kinds hkinds]
  simp only [hbelow, ok_bind, hinner, hparen]
  rfl

theorem Read.literal {k : Kind} {value : Value} (h : Jsonpath.literal Jsonpath.keyword k = some value) :
    Read .operand scope [k] (.value (.literal value)) 0 := by
  intro depth input rest he hn hkinds hpart
  refine ⟨.leaf (.value (.literal value)) rfl, input.advance, ?_, rfl, Input.advance_kinds hkinds⟩
  rw [parse, Jsonpath.operand, Input.kind_of_kinds hkinds]
  cases k with
  | int | float | text | name =>
    simp only [Option.bind_some, h]
    rfl
  | _ => cases h

theorem Read.placeholder {param : Param} : Read .operand scope [.placeholder param] (.value (.param param)) 0 := by
  intro depth input rest he hn hkinds hpart
  refine ⟨.leaf (.value (.param param)) rfl, input.advance, ?_, rfl, Input.advance_kinds hkinds⟩
  rw [parse, Jsonpath.operand, Input.kind_of_kinds hkinds]
  rfl

/-- An operand that starts as a query is one. -/
theorem operand_query {k : Kind} (hkinds : input.kinds = k :: rest) (hroot : start scope k = some root) :
    operand input scope depth = query input.advance root depth := by
  rw [Jsonpath.operand, Input.kind_of_kinds hkinds]
  cases k with
  | «at» | dollar =>
    cases hroot
    rfl
  | _ => cases hroot

theorem Read.item {up : Nat} : Read .query (.item up) [.at] (.item up) 0 := by
  intro depth input rest he hn hkinds hpart
  have hadvance : input.advance.kinds = dotted [] ++ rest := Input.advance_kinds hkinds
  obtain ⟨out, hnames, rfl⟩ := names_ok hadvance fun hdot => hpart _ hdot (.inl rfl)
  refine ⟨.leaf (.item up) rfl, out, ?_, rfl, rfl⟩
  have hbracket : out.kind ≠ some .leftBracket := hpart.kind_ne (.inr rfl)
  rw [parse, operand_query hkinds rfl, Jsonpath.query, hnames, ok_bind]
  simp only [collection, if_neg hbracket]
  rfl

theorem Read.field {k : Kind} {objects : List String} {name : String} (hroot : start scope k = some root) :
    Read .query scope (k :: dotted (objects ++ [name])) (.field ⟨root, objects, name⟩) 0 := by
  intro depth input rest he hn hkinds hpart
  obtain ⟨out, hnames, rfl⟩ := names_ok (Input.advance_kinds hkinds) fun hdot => hpart _ hdot (.inl rfl)
  refine ⟨.leaf (.field ⟨root, objects, name⟩) rfl, out, ?_, rfl, rfl⟩
  have hbracket : out.kind ≠ some .leftBracket := hpart.kind_ne (.inr rfl)
  rw [parse, operand_query hkinds hroot, Jsonpath.query, hnames, ok_bind]
  simp only [collection_append, if_neg hbracket]
  rfl

theorem Read.any {k : Kind} {objects : List String} {name : String} (hroot : start scope k = some root)
    (h : Read .filter (.item 0) ks e n) :
    Read .query scope (k :: dotted (objects ++ [name]) ++ [.leftBracket, .star, .rightBracket] ++ ks)
      (.any ⟨root, objects, name⟩ e) (n + 1) := by
  intro depth input rest he hn hkinds hpart
  have hlt : e.height ≤ maxHeight := Nat.le_of_succ_le he
  rw [List.append_assoc, List.append_assoc, List.cons_append] at hkinds
  obtain ⟨middle, hnames, hmiddle⟩ := names_ok (Input.advance_kinds hkinds) (by simp)
  obtain ⟨items, hitems, hkindsOfItems⟩ := wildcard_ok hmiddle
  obtain ⟨below, hbelow, hlevels⟩ := deeper_ok middle hn
  obtain ⟨predicate, out, hpredicate, rfl, hout⟩ := h hlt hlevels hkindsOfItems (by rintro _ _ ⟨⟩)
  have hpredicate : Jsonpath.filter items (.item 0) below = .ok (predicate, out) := hpredicate
  obtain ⟨any, hany, hexpr⟩ := Tree.overOne_ok middle (fun _ => rfl) he
  refine ⟨any, out, ?_, hexpr, hout⟩
  rw [parse, operand_query hkinds hroot, Jsonpath.query, hnames, ok_bind]
  simp only [collection_append, if_pos (Input.kind_of_kinds hmiddle), hitems, hbelow, hpredicate, ok_bind, hany]
  rfl

theorem Read.filter (h : Read .or scope ks e n) :
    Read .filter scope (.leftBracket :: .question :: ks ++ [.rightBracket]) e n := by
  intro depth input rest he hn hkinds hpart
  rw [List.append_assoc, List.cons_append, List.cons_append] at hkinds
  have hstops : Stops .or (.rightBracket :: rest) := Stops.cons (by simp [Rule.continues, comparator])
  obtain ⟨first, hfirst, hkindsOfFirst⟩ := Input.expect_ok hkinds
  obtain ⟨second, hsecond, hkindsOfSecond⟩ := Input.expect_ok hkindsOfFirst
  obtain ⟨predicate, last, hpredicate, hexpr, hlast⟩ := h.whole he hn hkindsOfSecond hstops.part hstops
  have hpredicate : Jsonpath.or second scope depth = .ok (predicate, last) := hpredicate
  obtain ⟨out, hbracket, hout⟩ := Input.expect_ok hlast
  refine ⟨predicate, out, ?_, hexpr, hout⟩
  rw [parse, Jsonpath.filter]
  simp only [hfirst, ok_bind, hsecond, hpredicate, hbracket]
  rfl

theorem Derives.read (h : Derives Jsonpath.keyword rule scope ks e n) : Read rule scope ks e n := by
  induction h with
  | disjunct _ ih => exact ih.disjunct
  | or _ _ ihl ihr => exact ihl.or ihr
  | conjunct _ ih => exact ih.conjunct
  | and _ _ ihl ihr => exact ihl.and ihr
  | not _ ih => exact ih.not
  | unary h ih => exact ih.unary h
  | truth _ ih => exact ih.truth
  | comparison _ _ hop ihl ihr => exact ihl.comparison ihr hop
  | group _ ih => exact ih.group
  | literal hvalue => exact Read.literal hvalue
  | placeholder => exact Read.placeholder
  | query _ ih => exact ih
  | item => exact Read.item
  | field hroot => exact Read.field hroot
  | any hroot _ ih => exact Read.any hroot ih
  | filter _ ih => exact ih.filter

end AsceticDdd.Specification.Jsonpath
