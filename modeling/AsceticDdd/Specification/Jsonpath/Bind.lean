import AsceticDdd.Specification.Jsonpath.Template
import AsceticDdd.Specification.Kleene

/-!
# Parameters stand in the order of the text

The lexer numbers the placeholders and a parameter is looked up by its number. Together they put the parameters, one
after another, where the text has its placeholders.
-/

namespace AsceticDdd.Specification.Jsonpath

open Control

variable {source : String} {parsed : Parsed} {tokens : List Token} {ks : List Kind} {expr : Expr Slot}

def Slot.placeholder : Slot → Option Param
  | .literal _ => none
  | .param asked => some asked

/-- The placeholders of a tree, left to right. -/
def placeholders (expr : Expr Slot) : List Param := expr.values.filterMap Slot.placeholder

def Kind.placeholder? : Kind → Option Param
  | .placeholder asked => some asked
  | _ => none

def ParamKey.position? : ParamKey → Option Nat
  | .position index => some index
  | .name _ => none

/-- The parameters taken one after another, each at the next placeholder, and what is left of them. -/
def take : Expr Slot → List Value → Option (Expr Value × List Value)
  | .value (.literal value), values => some (.value value, values)
  | .value (.param ⟨.position _, kind⟩), value :: rest => if kind.admits value then some (.value value, rest) else none
  | .value (.param _), _ => none
  | .field path, values => some (.field path, values)
  | .item up, values => some (.item up, values)
  | .prefixed op operand, values => (take operand values).map fun (operand, rest) => (.prefixed op operand, rest)
  | .infixed left op right, values => do
    let (left, values) ← take left values
    let (right, rest) ← take right values
    return (.infixed left op right, rest)
  | .postfixed operand op, values => (take operand values).map fun (operand, rest) => (.postfixed operand op, rest)
  | .any source predicate, values => (take predicate values).map fun (predicate, rest) => (.any source predicate, rest)

/-! ## The placeholders of the tree are those of the text -/

theorem placeholders_infixed (left : Expr Slot) (op : Infix) (right : Expr Slot) :
    placeholders (.infixed left op right) = placeholders left ++ placeholders right :=
  List.filterMap_append

theorem dotted_placeholders (names : List String) : (dotted names).filterMap Kind.placeholder? = [] := by
  induction names with
  | nil => rfl
  | cons name names ih => exact ih

theorem literal_placeholder {k : Kind} {value : Value} (h : literal keyword k = some value) :
    k.placeholder? = none := by
  cases k <;> first | rfl | cases h

theorem comparator_placeholder {k : Kind} {op : Comparison} (h : comparator k = some op) : k.placeholder? = none := by
  cases k <;> first | rfl | cases h

theorem start_placeholder {k : Kind} {scope root : Root} (h : start scope k = some root) : k.placeholder? = none := by
  cases k <;> first | rfl | cases h

theorem Derives.placeholders {rule : Rule} {scope : Root} {n : Nat} (h : Derives keyword rule scope ks expr n) :
    Jsonpath.placeholders expr = ks.filterMap Kind.placeholder? := by
  induction h with
  | disjunct _ ih | conjunct _ ih | unary _ ih | truth _ ih | query _ ih => exact ih
  | or _ _ ihl ihr | and _ _ ihl ihr =>
    rw [List.filterMap_append, ← ihl, List.filterMap_cons_none rfl, ← ihr]
    exact placeholders_infixed _ _ _
  | comparison _ _ hop ihl ihr =>
    rw [List.filterMap_append, ← ihl, List.filterMap_cons_none (comparator_placeholder hop), ← ihr]
    exact placeholders_infixed _ _ _
  | not _ ih => exact ih
  | group _ ih | filter _ ih =>
    rw [ih, List.filterMap_append]
    exact (List.append_nil _).symm
  | @literal _ k value h =>
    have none : [k].filterMap Kind.placeholder? = [] := List.filterMap_cons_none (literal_placeholder h)
    exact none.symm
  | placeholder | item => rfl
  | field h => exact ((List.filterMap_cons_none (start_placeholder h)).trans (dotted_placeholders _)).symm
  | any h _ ih =>
    rw [List.filterMap_append, List.filterMap_append, List.filterMap_cons_none (start_placeholder h),
      dotted_placeholders,
      ← ih]
    rfl

theorem Template.placeholders {n : Nat} (h : Template keyword ks expr n) :
    Jsonpath.placeholders expr = ks.filterMap Kind.placeholder? := by
  cases h with
  | filter h => exact h.placeholders
  | any h =>
    rw [List.filterMap_append, List.filterMap_append, List.filterMap_cons_none rfl, dotted_placeholders,
      ← h.placeholders]
    rfl

/-! ## The placeholders of the text are numbered -/

/-- The placeholders by position, as the lexer numbers them. -/
def positions (params : List Param) : List Nat := params.filterMap fun param => param.key.position?

theorem symbol_placeholder {raw : List Char} {kind : Kind} (h : (raw, kind) ∈ symbols) :
    kind.placeholder? = none ∧ isPositional kind = false := by
  have all : ∀ symbol ∈ symbols, symbol.2.placeholder? = none ∧ isPositional symbol.2 = false := by decide
  exact all _ h

theorem numberKind_placeholder {negative : Bool} {whole fraction digits exponent : List Char} {power : Int}
    {kind : Kind}
    (h : numberKind negative whole fraction digits exponent power = some kind) :
    kind.placeholder? = none ∧ isPositional kind = false := by
  unfold numberKind at h
  dsimp only at h
  split_ifs at h
  all_goals
    cases h
    exact ⟨rfl, rfl⟩

theorem Lexeme.positions {positional : Nat} {rest raw : List Char} {kind : Kind} (h : Lexeme positional rest raw kind) :
    Jsonpath.positions kind.placeholder?.toList = List.range' positional (if isPositional kind then 1 else 0) := by
  have nothing (h : kind.placeholder? = none ∧ isPositional kind = false) :
      Jsonpath.positions kind.placeholder?.toList = List.range' positional (if isPositional kind then 1 else 0) := by
    rw [h.1, h.2]
    rfl
  cases h with
  | symbol h => exact nothing (symbol_placeholder h)
  | number _ h => exact nothing (numberKind_placeholder h)
  | name | text | placeholder | named => rfl

theorem placeholders_cons (k : Kind) (ks : List Kind) :
    (k :: ks).filterMap Kind.placeholder? = k.placeholder?.toList ++ ks.filterMap Kind.placeholder? := by
  cases h : k.placeholder? with
  | none => exact List.filterMap_cons_none h
  | some param => exact List.filterMap_cons_some h

theorem countPositional_cons (token : Token) (tokens : List Token) : countPositional (token :: tokens) =
    (if isPositional token.kind then 1 else 0) + countPositional tokens := by
  rw [countPositional, List.countP_cons, Nat.add_comm]
  rfl

theorem Splits.positions {position positional : Nat} {text : List Char} {lexemes : List (List Char)}
    (h : Splits position positional text lexemes tokens) :
    Jsonpath.positions ((tokens.map (·.kind)).filterMap Kind.placeholder?) =
      List.range' positional (countPositional tokens) := by
  induction h with
  | nil => rfl
  | @cons _ positional _ _ _ kind _ tokens _ lexeme _ ih =>
    rw [List.map_cons, placeholders_cons, Jsonpath.positions, List.filterMap_append]
    show Jsonpath.positions kind.placeholder?.toList ++ Jsonpath.positions _ = _
    rw [lexeme.positions, ih, List.range'_append_1, countPositional_cons]

/-- A tree's placeholders are those of its text, in one style, and by position they are numbered from zero. -/
theorem Spells.positions (h : Spells source tokens parsed) :
    Jsonpath.positions (placeholders parsed.expr) = List.range parsed.positional := by
  obtain ⟨lexemes, split⟩ := h.split
  obtain ⟨n, tree, -⟩ := h.tree
  rw [tree.placeholders, split.positions, h.takes, List.range_eq_range']

/-! ## Parameters by position -/

/-- The placeholders are numbered from `start` on. -/
def NumberedFrom (start : Nat) (params : List Param) : Prop :=
  params.map (·.key) = (List.range' start params.length).map .position

theorem NumberedFrom.append {start : Nat} {left right : List Param} (h : NumberedFrom start (left ++ right)) :
    NumberedFrom start left ∧ NumberedFrom (start + left.length) right := by
  rw [NumberedFrom, List.map_append, List.length_append, ← List.range'_append_1, List.map_append] at h
  exact List.append_inj h (by simp)

section ByPosition

variable (values : List Value)

/-- Parameters are looked up where they are taken, and what is left are those after the tree's placeholders. -/
theorem take_drop {start : Nat} (numbered : NumberedFrom start (placeholders expr)) :
    take expr (values.drop start) = (expr.tryMapValues (Params.positional values).fill).toOption.map
      fun bound => (bound, values.drop (start + (placeholders expr).length)) := by
  induction expr generalizing start with
  | value slot =>
    obtain value | ⟨key, kind⟩ := slot
    · rfl
    · obtain rfl := (List.cons.inj numbered).1
      have found : values[start]? = (values.drop start).head? := List.head?_drop.symm
      have after : values.drop (start + 1) = (values.drop start).tail := List.tail_drop.symm
      show take _ _ = ((Params.fill _ _).map _).toOption.map fun bound => (bound, values.drop (start + 1))
      rw [after]
      simp only [Params.fill, Params.get, found]
      cases values.drop start with
      | nil => rfl
      | cons value rest =>
        simp only [List.head?_cons, ok_bind, take]
        by_cases admitted : kind.admits value
        · rw [if_pos admitted, if_pos admitted]
          rfl
        · rw [if_neg admitted, if_neg admitted]
          rfl
  | field | item => rfl
  | prefixed op operand ih | postfixed operand op ih | any source predicate ih =>
    rw [take, ih numbered, Expr.tryMapValues]
    cases Expr.tryMapValues (Params.positional values).fill _ <;> rfl
  | infixed left op right ihl ihr =>
    rw [placeholders_infixed] at numbered
    have length : start + (placeholders (.infixed left op right)).length =
        start + (placeholders left).length + (placeholders right).length := by
      rw [placeholders_infixed, List.length_append, Nat.add_assoc]
    rw [take, ihl numbered.append.1, Expr.tryMapValues, length]
    cases left.tryMapValues (Params.positional values).fill with
    | error => rfl
    | ok bound =>
      show (take right (values.drop (start + (placeholders left).length)) >>= _) = _
      rw [ihr numbered.append.2]
      cases right.tryMapValues (Params.positional values).fill <;> rfl

theorem positional_of_take {bound : Expr Value} {rest : List Value} (h : take expr values = some (bound, rest)) :
    ∀ param ∈ placeholders expr, ∃ index, param.key = .position index := by
  induction expr generalizing values bound rest with
  | value slot =>
    obtain value | ⟨index | name, kind⟩ := slot
    · rintro _ ⟨⟩
    · rintro _ (_ | ⟨_, ⟨⟩⟩)
      exact ⟨index, rfl⟩
    · cases h
  | field | item => rintro _ ⟨⟩
  | prefixed op operand ih | postfixed operand op ih | any source predicate ih =>
    obtain ⟨⟨bound, rest⟩, htake, -⟩ := Option.map_eq_some_iff.mp h
    exact ih _ htake
  | infixed left op right ihl ihr =>
    obtain ⟨⟨boundLeft, mid⟩, hleft, h⟩ := Option.bind_eq_some_iff.mp h
    obtain ⟨⟨boundRight, rest⟩, hright, -⟩ := Option.bind_eq_some_iff.mp h
    rw [placeholders_infixed]
    intro param hparam
    exact (List.mem_append.mp hparam).elim (ihl _ hleft param) (ihr _ hright param)

end ByPosition

/-- What is bound wholly has a value at every slot. -/
theorem tryMapValues_ok {V W ε : Type} {f : V → Except ε W} {expr : Expr V} {mapped : Expr W}
    (h : expr.tryMapValues f = .ok mapped) : ∀ v ∈ expr.values, ∃ w, f v = .ok w := by
  induction expr generalizing mapped with
  | value v =>
    obtain ⟨w, hw, -⟩ := map_eq_ok.mp h
    rintro _ (_ | ⟨_, ⟨⟩⟩)
    exact ⟨w, hw⟩
  | field | item => rintro _ ⟨⟩
  | prefixed op operand ih | postfixed operand op ih | any source predicate ih =>
    obtain ⟨_, hmap, -⟩ := map_eq_ok.mp h
    exact ih hmap
  | infixed left op right ihl ihr =>
    obtain ⟨_, hleft, h⟩ := bind_eq_ok.mp h
    obtain ⟨_, hright, -⟩ := map_eq_ok.mp h
    intro v hv
    exact (List.mem_append.mp hv).elim (ihl hleft v) (ihr hright v)

theorem tryMapValues_eq_mapValues {V W ε : Type} {f : V → Except ε W} {g : V → W} {expr : Expr V}
    (h : ∀ v ∈ expr.values, f v = .ok (g v)) : expr.tryMapValues f = .ok (expr.mapValues g) := by
  induction expr with
  | value v =>
    rw [Expr.tryMapValues, h v List.mem_cons_self]
    rfl
  | field | item => rfl
  | prefixed op operand ih | postfixed operand op ih | any source predicate ih =>
    rw [Expr.tryMapValues, ih h]
    rfl
  | infixed left op right ihl ihr =>
    rw [Expr.tryMapValues, ihl fun v hv => h v (List.mem_append_left _ hv),
      ihr fun v hv => h v (List.mem_append_right _ hv)]
    rfl

theorem mem_placeholders {param : Param} : param ∈ placeholders expr ↔ .param param ∈ expr.values := by
  rw [placeholders, List.mem_filterMap]
  constructor
  · rintro ⟨value | asked, hslot, ⟨⟩⟩
    exact hslot
  · exact fun h => ⟨_, h, rfl⟩

theorem fill_param {params : Params} {key : ParamKey} {kind : ParamKind} {value : Value} :
    params.fill (.param ⟨key, kind⟩) = .ok value ↔ params.get key = .ok value ∧ kind.admits value := by
  rw [Params.fill, bind_eq_ok]
  constructor
  · rintro ⟨found, hget, h⟩
    split_ifs at h with admitted
    cases h
    exact ⟨hget, admitted⟩
  · rintro ⟨hget, admitted⟩
    exact ⟨value, hget, if_pos admitted⟩

theorem map_key_positions {params : List Param} (h : ∀ param ∈ params, ∃ index, param.key = .position index) :
    params.map (·.key) = (positions params).map .position := by
  induction params with
  | nil => rfl
  | cons param params ih =>
    obtain ⟨index, hkey⟩ := h param List.mem_cons_self
    have here : param.key.position? = some index := by
      rw [hkey]
      rfl
    have rest : positions (param :: params) = index :: positions params := List.filterMap_cons_some here
    rw [rest, List.map_cons, List.map_cons, hkey, ih fun p hp => h p (List.mem_cons_of_mem _ hp)]

theorem Spells.numberedFrom (h : Spells source tokens parsed)
    (positional : ∀ param ∈ placeholders parsed.expr, ∃ index, param.key = .position index) :
    NumberedFrom 0 (placeholders parsed.expr) ∧ (placeholders parsed.expr).length = parsed.positional := by
  have keys := map_key_positions positional
  rw [h.positions] at keys
  have length : (placeholders parsed.expr).length = parsed.positional := by
    have same := congrArg List.length keys
    rwa [List.length_map, List.length_map, List.length_range] at same
  exact ⟨by rw [NumberedFrom, keys, length, List.range_eq_range'], length⟩

section Bound

variable [FloatArithmetic] [Chrono] {values : List Value} {bound : Expr Value}

theorem bind_eq_ok_positional : parsed.bind (.positional values) = .ok bound ↔
    ∃ filled, parsed.expr.tryMapValues (Params.positional values).fill = .ok filled ∧
      values.length ≤ parsed.positional ∧
      NullTest.throughout filled = bound := by
  rw [Parsed.bind, bind_eq_ok]
  constructor
  · rintro ⟨filled, hfilled, h⟩
    dsimp only at h
    split_ifs at h with more
    exact ⟨filled, hfilled, Nat.not_lt.mp more, Except.ok.inj h⟩
  · rintro ⟨filled, hfilled, fits, rfl⟩
    exact ⟨filled, hfilled, if_neg (Nat.not_lt.mpr fits)⟩

omit [FloatArithmetic] [Chrono] in
theorem Spells.take_eq (h : Spells source tokens parsed)
    (positional : ∀ param ∈ placeholders parsed.expr, ∃ index, param.key = .position index) :
    take parsed.expr values = (parsed.expr.tryMapValues (Params.positional values).fill).toOption.map
      fun bound => (bound, values.drop parsed.positional) := by
  obtain ⟨numbered, length⟩ := h.numberedFrom positional
  have taken := take_drop values numbered
  rwa [Nat.zero_add, length] at taken

theorem Spells.take_of_bind (h : Spells source tokens parsed) (hbind : parsed.bind (.positional values) = .ok bound) :
    ∃ filled, take parsed.expr values = some (filled, []) ∧ NullTest.throughout filled = bound := by
  obtain ⟨filled, hfilled, fits, same⟩ := bind_eq_ok_positional.mp hbind
  have positional : ∀ param ∈ placeholders parsed.expr, ∃ index, param.key = .position index := by
    rintro ⟨index | name, kind⟩ member
    · exact ⟨index, rfl⟩
    · obtain ⟨value, hvalue⟩ := tryMapValues_ok hfilled _ (mem_placeholders.mp member)
      cases (fill_param.mp hvalue).1
  refine ⟨filled, ?_, same⟩
  rw [h.take_eq positional, hfilled, List.drop_eq_nil_of_le fits]
  rfl

theorem Spells.bind_of_take (h : Spells source tokens parsed) {filled : Expr Value}
    (htake : take parsed.expr values = some (filled, [])) :
    parsed.bind (.positional values) = .ok (NullTest.throughout filled) := by
  rw [h.take_eq (positional_of_take values htake)] at htake
  obtain ⟨found, hfound, same⟩ := Option.map_eq_some_iff.mp htake
  obtain ⟨rfl, nothing⟩ := Prod.mk.inj same
  exact bind_eq_ok_positional.mpr ⟨found, toOption_eq_some.mp hfound, List.drop_eq_nil_iff.mp nothing, rfl⟩

/-- A template's parameters by position are taken one after another in the order of its text, each of the kind its
placeholder asks for, and there are neither too few nor too many. -/
theorem bind_positional_iff [ToString F64] (h : Parsed.parse source = .ok parsed) :
    parsed.bind (.positional values) = .ok bound ↔
      ∃ filled, take parsed.expr values = some (filled, []) ∧ NullTest.throughout filled = bound := by
  obtain ⟨tokens, spells⟩ := spells_of_parse h
  constructor
  · exact spells.take_of_bind
  · rintro ⟨filled, htake, rfl⟩
    exact spells.bind_of_take htake

omit [FloatArithmetic] [Chrono] in
theorem bind_positional_iff_pair :
    @Parsed.bind Evaluate.wholeFloats Reading.civil pair (.positional [.int 1, .null]) =
      .ok (.postfixed (.value (.int 1)) .isNull) := by
  let : ToString F64 := ⟨fun _ => ""⟩
  exact (@bind_positional_iff _ _ Evaluate.wholeFloats Reading.civil _ _ _ pair_spelled.parse).mpr ⟨_, rfl, rfl⟩

/-- The value at a slot, where parameters go by name. -/
def byName (values : List (String × Value)) : Slot → Value
  | .literal value => value
  | .param ⟨.name name, _⟩ => (values.lookup name).getD .null
  | .param ⟨.position _, _⟩ => .null

omit [FloatArithmetic] [Chrono] in
theorem get_named {values : List (String × Value)} {key : ParamKey} {value : Value} :
    (Params.named values).get key = .ok value ↔ ∃ name, key = .name name ∧ values.lookup name = some value := by
  cases key with
  | position index =>
    constructor
    · rintro ⟨⟩
    · rintro ⟨_, ⟨⟩, _⟩
  | name name =>
    rw [Params.get]
    constructor
    · intro h
      split at h
      case h_1 found =>
        cases h
        exact ⟨name, rfl, found⟩
      case h_2 => cases h
    · rintro ⟨_, ⟨⟩, found⟩
      rw [found]

omit [FloatArithmetic] [Chrono] in
theorem fill_byName {values : List (String × Value)}
    (named : ∀ param ∈ placeholders expr, ∃ name value, param.key = .name name ∧ values.lookup name = some value ∧
      param.kind.admits value) : ∀ slot ∈ expr.values, (Params.named values).fill slot = .ok (byName values slot) := by
  rintro (value | ⟨key, kind⟩) member
  · rfl
  · obtain ⟨name, value, rfl, found, admitted⟩ := named _ (mem_placeholders.mpr member)
    have here : byName values (.param ⟨.name name, kind⟩) = value := by
      rw [byName, found]
      rfl
    rw [here]
    exact fill_param.mpr ⟨get_named.mpr ⟨name, rfl, found⟩, admitted⟩

/-- Parameters by name are bound where every placeholder has a name with a parameter of its kind. -/
theorem bind_named_iff {values : List (String × Value)} : parsed.bind (.named values) = .ok bound ↔
    (∀ param ∈ placeholders parsed.expr, ∃ name value, param.key = .name name ∧ values.lookup name = some value ∧
      param.kind.admits value) ∧ NullTest.throughout (parsed.expr.mapValues (byName values)) = bound := by
  have split : parsed.bind (.named values) = .ok bound ↔
      ∃ filled, parsed.expr.tryMapValues (Params.named values).fill = .ok filled ∧
        NullTest.throughout filled = bound := by
    rw [Parsed.bind, bind_eq_ok]
    exact exists_congr fun filled => and_congr_right fun _ => ⟨Except.ok.inj, congrArg _⟩
  rw [split]
  constructor
  · rintro ⟨filled, hfilled, rfl⟩
    have named : ∀ param ∈ placeholders parsed.expr, ∃ name value, param.key = .name name ∧
        values.lookup name = some value ∧ param.kind.admits value := by
      rintro ⟨key, kind⟩ member
      obtain ⟨value, hvalue⟩ := tryMapValues_ok hfilled _ (mem_placeholders.mp member)
      obtain ⟨hget, admitted⟩ := fill_param.mp hvalue
      obtain ⟨name, rfl, found⟩ := get_named.mp hget
      exact ⟨name, value, rfl, found, admitted⟩
    refine ⟨named, ?_⟩
    rw [tryMapValues_eq_mapValues (fill_byName named)] at hfilled
    rw [Except.ok.inj hfilled]
  · rintro ⟨named, rfl⟩
    exact ⟨_, tryMapValues_eq_mapValues (fill_byName named), rfl⟩

end Bound

end AsceticDdd.Specification.Jsonpath
