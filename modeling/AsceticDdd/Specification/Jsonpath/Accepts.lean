import AsceticDdd.Specification.Jsonpath.Completeness

/-!
# What the parser of templates accepts
-/

namespace AsceticDdd.Specification.Jsonpath

open Control

variable {tokens : List Token} {ending n : Nat} {expr : Expr Slot} {ks : List Kind}

theorem named_iff {token : Token} : named token ↔ ∃ name kind, token.kind = .placeholder ⟨.name name, kind⟩ := by
  unfold named
  split <;> simp_all

theorem positional_iff {token : Token} :
    positional token ↔ ∃ position kind, token.kind = .placeholder ⟨.position position, kind⟩ := by
  unfold positional
  split <;> simp_all

theorem find?_isSome_iff {p : Token → Bool} : (∃ token, tokens.find? p = some token) ↔ ∃ token ∈ tokens, p token := by
  rw [← Option.isSome_iff_exists, List.find?_isSome]

theorem oneStyle_ok_iff : oneStyle tokens = .ok () ↔ OneStyle (tokens.map (·.kind)) := by
  constructor
  · intro h name position kind kind' hname hposition
    obtain ⟨first, hfirst, hname⟩ := List.mem_map.mp hname
    obtain ⟨second, hsecond, hposition⟩ := List.mem_map.mp hposition
    obtain ⟨_, hn⟩ := find?_isSome_iff.mpr ⟨first, hfirst, named_iff.mpr ⟨name, kind, hname⟩⟩
    obtain ⟨_, hp⟩ := find?_isSome_iff.mpr ⟨second, hsecond, positional_iff.mpr ⟨position, kind', hposition⟩⟩
    rw [oneStyle, hn, hp] at h
    cases h
  · intro h
    unfold oneStyle
    split
    case h_1 first second hn hp =>
      obtain ⟨name, kind, hname⟩ := named_iff.mp (List.find?_some hn)
      obtain ⟨position, kind', hposition⟩ := positional_iff.mp (List.find?_some hp)
      exact absurd (List.mem_map.mpr ⟨_, List.mem_of_find?_eq_some hp, hposition⟩)
        (h name position kind kind' (List.mem_map.mpr ⟨_, List.mem_of_find?_eq_some hn, hname⟩))
    case h_2 => rfl

/-- The literals as the documentation spells them. -/
def documented : String → Option Value
  | "true" => some (.bool true)
  | "false" => some (.bool false)
  | "null" => some .null
  | _ => none

/-- Without a path, a name is a documented literal. -/
theorem Derives.documented_names {rule : Rule} {scope : Root} (h : Derives documented rule scope ks expr n)
    (hdot : .dot ∉ ks) : ∀ name, .name name ∈ ks → (documented name).isSome := by
  induction h with
  | disjunct _ ih | conjunct _ ih | unary _ ih | truth _ ih | query _ ih => exact ih hdot
  | not _ ih | group _ ih | filter _ ih => simpa using ih (by simpa using hdot)
  | or _ _ ihl ihr | and _ _ ihl ihr =>
    simp only [List.mem_append, List.mem_cons, not_or] at hdot ⊢
    intro name hname
    simp only [reduceCtorEq, false_or] at hname
    exact hname.elim (ihl hdot.1 name) (ihr hdot.2.2 name)
  | comparison _ _ hop ihl ihr =>
    simp only [List.mem_append, List.mem_cons, not_or] at hdot ⊢
    rintro name (hname | rfl | hname)
    · exact ihl hdot.1 name hname
    · cases hop
    · exact ihr hdot.2.2 name hname
  | literal hvalue =>
    rintro name hname
    cases List.mem_singleton.mp hname
    exact Option.isSome_of_eq_some hvalue
  | placeholder => simp
  | item => simp
  | field => simp [dotted] at hdot
  | any => simp [dotted] at hdot

theorem Template.documented_names (h : Template documented ks expr n) (hdot : .dot ∉ ks) :
    ∀ name, .name name ∈ ks → (documented name).isSome := by
  cases h with
  | filter hd => simpa using hd.documented_names (by simpa using hdot)
  | any => simp [dotted] at hdot

section

variable [ToString F64]

theorem template_sound (h : template tokens ending = .ok expr) :
    OneStyle (tokens.map (·.kind)) ∧
      ∃ n, Template keyword (tokens.map (·.kind)) expr n ∧ n ≤ 32 ∧ expr.height ≤ 128 := by
  obtain ⟨_, hstyle, h⟩ := bind_eq_ok.mp h
  obtain ⟨input, hdollar, h⟩ := bind_eq_ok.mp h
  obtain ⟨⟨names, after⟩, hnames, h⟩ := bind_eq_ok.mp h
  obtain ⟨⟨tree, out⟩, hread, h⟩ := bind_eq_ok.mp h
  have hend : out.kinds = [] ∧ expr = tree.expr := by
    cases hkind : out.kind with
    | none =>
      simp only [hkind] at h
      cases h
      exact ⟨Input.kind_eq_none.mp hkind, rfl⟩
    | some => 
      simp only [hkind] at h
      cases h
  obtain ⟨hend, rfl⟩ := hend
  have hkinds : tokens.map (·.kind) = .dollar :: dotted names ++ after.kinds := by
    have := Input.expect_kinds hdollar
    rw [names_sound hnames] at this
    exact this
  refine ⟨oneStyle_ok_iff.mp hstyle, ?_⟩
  have hheight : tree.expr.height ≤ 128 := tree.tall ▸ tree.bounded
  cases hcollection : collection .global names with
  | none =>
    cases collection_eq_none hcollection
    simp only [body, hcollection] at hread
    obtain ⟨ks, n, hks, hd, hn⟩ := filter_sound hread
    rw [hend, List.append_nil] at hks
    refine ⟨n, ?_, hn, hheight⟩
    rw [hkinds, hks]
    exact .filter hd
  | some source =>
    obtain ⟨objects, name, rfl, rfl⟩ := collection_eq_some hcollection
    simp only [body, hcollection] at hread
    obtain ⟨items, hitems, hread⟩ := bind_eq_ok.mp hread
    obtain ⟨⟨predicate, rest⟩, hfilter, hread⟩ := bind_eq_ok.mp hread
    obtain ⟨any, hany, hread⟩ := bind_eq_ok.mp hread
    cases hread
    obtain ⟨ks, n, hks, hd, hn⟩ := filter_sound hfilter
    have hlevels : n + 1 ≤ 32 := by
      simp only [maxNesting] at hn
      omega
    refine ⟨n + 1, ?_, hlevels, hheight⟩
    rw [Tree.overOne_expr hany, hkinds, wildcard_sound hitems, hks, hend]
    simpa using Template.any hd

theorem template_ok {first : Input} {after : Input} {names : List String} {tree : Tree} {out : Input}
    (hstyle : OneStyle (tokens.map (·.kind)))
    (hfirst : Input.expect ⟨tokens, ending⟩ .dollar "Expected '$'" "a template starts at the root" = .ok first)
    (hnames : Jsonpath.names first = .ok (names, after)) (hbody : body names after = .ok (tree, out))
    (hend : out.kinds = []) : template tokens ending = .ok tree.expr := by
  rw [template, oneStyle_ok_iff.mpr hstyle, ok_bind, hfirst, ok_bind, hnames, ok_bind]
  simp only [hbody, ok_bind, Input.kind_eq_none.mpr hend]
  rfl

/-- A filter is read to the end of the template. -/
theorem filter_ok {input : Input} {scope : Root} (depth : Nat) (h : Derives keyword .filter scope ks expr n)
    (hexpr : expr.height ≤ maxHeight) (hn : n ≤ maxNesting - depth) (hkinds : input.kinds = ks) :
    ∃ tree out, filter input scope depth = .ok (tree, out) ∧ tree.expr = expr ∧ out.kinds = [] :=
  h.read hexpr hn (hkinds.trans (List.append_nil _).symm) (by rintro _ ⟨⟩)

theorem template_complete (hstyle : OneStyle (tokens.map (·.kind)))
    (h : Template keyword (tokens.map (·.kind)) expr n) (hn : n ≤ 32) (hexpr : expr.height ≤ 128) :
    template tokens ending = .ok expr := by
  generalize hks : tokens.map (·.kind) = ks at h
  have hinput : Input.kinds ⟨tokens, ending⟩ = ks := hks
  cases h with
  | filter hd =>
    obtain ⟨first, hfirst, hkinds⟩ := Input.expect_ok hinput
    obtain ⟨js, hbracket⟩ : ∃ js, first.kinds = .leftBracket :: js := by
      rw [hkinds]
      cases hd
      exact ⟨_, rfl⟩
    have hnil : first.kinds = dotted [] ++ first.kinds := rfl
    obtain ⟨after, hnames, hafter⟩ := names_ok hnil (by simp [hbracket])
    obtain ⟨tree, out, hread, rfl, hout⟩ := filter_ok 0 hd hexpr hn (hafter.trans hkinds)
    exact template_ok hstyle (hfirst _ _) hnames hread hout
  | any hd =>
    rw [List.append_assoc, List.cons_append] at hinput
    obtain ⟨first, hfirst, hkinds⟩ := Input.expect_ok hinput
    obtain ⟨after, hnames, hafter⟩ := names_ok hkinds (by simp)
    obtain ⟨items, hitems, hkindsOfItems⟩ := wildcard_ok hafter
    obtain ⟨predicate, out, hread, rfl, hout⟩ := filter_ok 1 hd (Nat.le_of_succ_le hexpr) (Nat.le_sub_of_add_le hn)
      hkindsOfItems
    obtain ⟨any, hany, hexpr⟩ := Tree.overOne_ok after (fun _ => rfl) hexpr
    rw [← hexpr]
    refine template_ok hstyle (hfirst _ _) hnames ?_ hout
    simp only [body, collection_append, hitems, ok_bind, hread, hany]
    rfl

/-- The parser accepts the grammar's templates, in one style of placeholders, nested and tall within the bounds, and
gives the grammar's tree. -/
theorem template_eq_ok_iff : template tokens ending = .ok expr ↔
    OneStyle (tokens.map (·.kind)) ∧
      ∃ n, Template keyword (tokens.map (·.kind)) expr n ∧ n ≤ 32 ∧ expr.height ≤ 128 := by
  constructor
  · exact template_sound
  · rintro ⟨hstyle, n, h, hn, hexpr⟩
    exact template_complete hstyle h hn hexpr

end

/-- `$[?TRUE]` -/
def shouted : List Token := [⟨.dollar, 0⟩, ⟨.leftBracket, 1⟩, ⟨.question, 2⟩, ⟨.name "TRUE", 3⟩, ⟨.rightBracket, 7⟩]

theorem shouted_accepted : ¬∀ [ToString F64] (tokens : List Token) (ending : Nat) (expr : Expr Slot),
    template tokens ending = .ok expr ↔
      OneStyle (tokens.map (·.kind)) ∧
        ∃ n, Template documented (tokens.map (·.kind)) expr n ∧ n ≤ 32 ∧ expr.height ≤ 128 := by
  intro h
  let : ToString F64 := ⟨fun _ => ""⟩
  have hkeyword : literal keyword (.name "TRUE") = some (.bool true) := by decide +kernel
  have hd : Derives keyword .filter .global (.leftBracket :: .question :: [.name "TRUE"] ++ [.rightBracket])
      (.value (.literal (.bool true))) 0 :=
    .filter (.disjunct (.conjunct (.unary (.truth (.literal hkeyword)))))
  have hstyle : OneStyle (shouted.map (·.kind)) := by simp [OneStyle, shouted]
  have ht : Template keyword (shouted.map (·.kind)) (.value (.literal (.bool true))) 0 := .filter hd
  have haccepted : template shouted 8 = .ok (.value (.literal (.bool true))) :=
    template_complete hstyle ht (Nat.zero_le _) (Nat.le_of_ble_eq_true rfl)
  obtain ⟨_, n, hderives, _⟩ := (h shouted 8 _).mp haccepted
  have hname := hderives.documented_names (by simp [shouted]) "TRUE" (by simp [shouted])
  exact absurd hname (by decide +kernel)

end AsceticDdd.Specification.Jsonpath
