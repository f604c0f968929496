import AsceticDdd.Specification.Pg.Marks
import AsceticDdd.Text.Decimal
import Mathlib.Data.List.Forall2
import Mathlib.Data.List.Nodup
import Mathlib.Order.Nat

/-!
# How the counts go through a text

For each function of the compiler, what it writes: names and rows have nothing to count, and every other text has its
constants after one another from the count that goes into it to the one that comes out.
-/

namespace AsceticDdd.Specification.Pg

open Control ParamType

variable {V : Type} {c : Compiler} {items : List Item} {next middle next' : Next} {sql row document : Sql V}

/-! ## Names -/

theorem isNamePart_of_isNameStart {c : Char} (h : isNameStart c) : isNamePart c := by
  simp only [isNameStart, isNamePart, Char.isAlphanum, Bool.or_eq_true] at h ⊢
  exact h.imp_left Or.inl

theorem plain_eq_ok {name checked : String} (h : plain name = .ok checked) : checked = name ∧ Plain name := by
  unfold plain at h
  split at h
  · cases h
  · rename_i first rest hname
    split at h
    · rename_i valid
      cases h
      refine ⟨rfl, ?_⟩
      rw [Plain, hname]
      obtain ⟨start, rest⟩ := Bool.and_eq_true_iff.mp valid
      exact List.forall_mem_cons.mpr ⟨isNamePart_of_isNameStart start, List.all_eq_true.mp rest⟩
    · cases h

theorem identifier_plain {name checked : String} (h : identifier name = .ok checked) : Plain checked := by
  obtain ⟨rfl, hplain⟩ := plain_eq_ok h
  exact hplain

theorem key_plain {name checked : String} (h : key name = .ok checked) : Plain checked := identifier_plain h

theorem mapM_identifier {names checked : List String} (h : names.mapM identifier = .ok checked) :
    ∀ name ∈ checked, Plain name := by
  intro name mem
  obtain ⟨_, _, hname⟩ := exists_of_mapM_eq_ok h mem
  exact identifier_plain hname

theorem qualified_plain {name : String} {parts : List String} (h : qualified name = .ok parts) :
    ∀ part ∈ parts, Plain part := mapM_identifier h

theorem isNamePart_singular {word : List Char} (h : ∀ c ∈ word, isNamePart c) :
    ∀ c ∈ singular word, isNamePart c := by
  have stripped : ∀ {suffix stem : List Char}, strip word suffix = some stem → ∀ c ∈ stem, isNamePart c := by
    intro suffix stem hstem c hc
    unfold strip at hstem
    simp only [Option.ite_none_right_eq_some, Option.some.injEq] at hstem
    obtain ⟨_, rfl⟩ := hstem
    exact h c (List.mem_of_mem_take hc)
  unfold singular
  split
  · exact h
  split
  · rename_i many one found
    have known : irregular.all (·.2.toList.all isNamePart) = true := rfl
    exact plain_of_all (List.all_eq_true.mp known _ (List.mem_of_find?_eq_some found))
  · split
    · rename_i stem hstem
      exact List.forall_mem_append.mpr ⟨stripped hstem, List.forall_mem_singleton.mpr (by decide)⟩
    · split
      · cases hes : strip word "es".toList with
        | none => exact h
        | some stem => exact stripped hes
      · split
        · split
          · exact h
          · exact stripped ‹_›
        · exact h

theorem isNamePart_toLower {c : Char} (h : isNamePart c) : isNamePart c.toLower := by
  unfold Char.toLower
  split
  · rename_i upper
    obtain ⟨le, ge⟩ := upper
    have lower : ('a'.val ≤ c.val + ('a'.val - 'A'.val)) ∧ c.val + ('a'.val - 'A'.val) ≤ 'z'.val := by
      simp only [ge_iff_le, UInt32.le_iff_toNat_le] at le ge ⊢
      rw [UInt32.toNat_add]
      simp only [show 'a'.val.toNat = 97 from rfl, show 'A'.val.toNat = 65 from rfl, show 'z'.val.toNat = 122 from rfl,
        show 'Z'.val.toNat = 90 from rfl, show ('a'.val - 'A'.val).toNat = 32 from rfl] at le ge ⊢
      omega
    simp only [isNamePart, Char.isAlphanum, Bool.or_eq_true]
    refine Or.inl (Or.inl (Bool.or_eq_true_iff.mpr (Or.inr ?_)))
    exact Bool.and_eq_true_iff.mpr ⟨decide_eq_true lower.1, decide_eq_true lower.2⟩
  · exact h

theorem singularOf_plain {table one : String} (h : singularOf table = .ok one) : Plain one := by
  obtain ⟨name, hname, h⟩ := bind_eq_ok.mp h
  cases h
  obtain ⟨rfl, hplain⟩ := plain_eq_ok hname
  rw [Plain, String.toList_ofList]
  refine isNamePart_singular fun c hc => ?_
  obtain ⟨d, hd, rfl⟩ := List.mem_map.mp hc
  exact isNamePart_toLower (hplain d hd)

/-! ## Texts with nothing to count -/

/-- A text of names, that neither stands for a constant nor binds a row. -/
structure Still (sql : Sql V) : Prop where
  marks : sql.marks = []
  sound : sql.Sound

namespace Still

variable {part type : String}

theorem name {parts : List String} (h : ∀ part ∈ parts, Plain part) : Still (.name parts : Sql V) :=
  ⟨rfl, show ∀ part ∈ parts, Plain part from h⟩

theorem member (h : Still row) (plain : Plain part) : Still (.member row part) := ⟨h.marks, plain, h.sound⟩

theorem group (h : Still sql) : Still (.group sql) := ⟨h.marks, h.sound⟩

theorem cast (h : Still sql) (known : type ∈ types) : Still (.cast sql type) := ⟨h.marks, known, h.sound⟩

theorem collated (h : Still sql) : Still (.collated sql) := ⟨h.marks, h.sound⟩

theorem object (h : Still sql) (plain : Plain part) : Still (.object sql part) := ⟨h.marks, plain, h.sound⟩

theorem text (h : Still sql) (plain : Plain part) : Still (.text sql part) := ⟨h.marks, plain, h.sound⟩

theorem ifArray (h : Still sql) : Still (.ifArray sql) := by
  refine ⟨?_, h.sound⟩
  rw [Sql.marks, h.marks, List.append_nil]

theorem call {function : String} (h : Still sql) (known : function ∈ functions) : Still (.call function sql) :=
  ⟨h.marks, known, h.sound⟩

theorem infixed {left right : Sql V} {op : Infix} (h : Still left) (h' : Still right) :
    Still (.infixed left op right) := by
  refine ⟨?_, h.sound, h'.sound⟩
  rw [Sql.marks, h.marks, h'.marks, List.append_nil]

theorem members (h : Still sql) {columns : List String} (plain : ∀ column ∈ columns, Plain column) :
    Still (columns.foldl .member sql) := by
  induction columns generalizing sql with
  | nil => exact h
  | cons column columns ih =>
    obtain ⟨first, rest⟩ := List.forall_mem_cons.mp plain
    exact ih (h.member first) rest

theorem read (h : Still sql) (kind : Kind) : Still (kind.read sql) := by
  cases kind with
  | text => exact h.collated.group
  | _ => exact h.cast (by decide)

end Still

/-- The items' aliases are of the alphabet. -/
def Aliased (items : List Item) : Prop := ∀ item ∈ items, Plain item.rowAlias

theorem Aliased.still (aliased : Aliased items) {up : Nat} {item : Item} (h : itemOut items up = .ok item) :
    Still (.name [item.rowAlias] : Sql V) := by
  unfold itemOut at h
  split at h
  · rename_i found there
    cases h
    exact .name (List.forall_mem_singleton.mpr (aliased _ (List.mem_of_getElem? there)))
  · cases h

theorem inDocument_still {of name : String} {layout : Layout} {names : List String} {object : Sql V} {member : Member}
    (still : Still document) (h : inDocument document of layout names = .ok (object, name, member)) : Still object := by
  fun_induction inDocument document of layout names generalizing object with
  | case1 => cases h
  | case2 =>
    cases h
    exact still
  | case3 => cases h
  | case4 _ _ _ _ _ _ _ _ ih =>
    obtain ⟨checked, hkey, h⟩ := bind_eq_ok.mp h
    exact ih checked (still.object (key_plain hkey)) h
  | case5 => cases h

theorem documentMember_still {of : String} {layout : Layout} {names : List String} {reading : Reading}
    (still : Still document) (h : documentMember document of layout names reading = .ok sql) : Still sql := by
  obtain ⟨⟨object, name, member⟩, hobject, h⟩ := bind_eq_ok.mp h
  obtain ⟨checked, hkey, h⟩ := bind_eq_ok.mp h
  have text := ((inDocument_still still hobject).text (key_plain hkey)).group
  split at h
  · cases h
    exact text.read _
  · cases h
    exact text
  · cases h

theorem equality_still {left right keys : Sql V} {columns : String × String} (still : Still left) (still' : Still right)
    (h : equality left right columns = .ok keys) : Still keys := by
  obtain ⟨one, hone, h⟩ := bind_eq_ok.mp h
  obtain ⟨other, hother, h⟩ := bind_eq_ok.mp h
  cases h
  exact (still.member (identifier_plain hone)).infixed (still'.member (identifier_plain hother))

theorem equalities_still {left right keys : Sql V} {columns : String × String} {more : List (String × String)}
    (still : Still left) (still' : Still right) (h : equalities left right columns more = .ok keys) : Still keys := by
  obtain ⟨first, hfirst, h⟩ := bind_eq_ok.mp h
  refine foldlM_invariant ?_ h (equality_still still still' hfirst)
  intro all columns all' hall h
  obtain ⟨key, hkey, h⟩ := bind_eq_ok.mp h
  cases h
  exact hall.infixed (equality_still still still' hkey)

theorem schemaRow_still {schema : Schema} {parts : List String} (h : qualified schema.row = .ok parts) :
    Still (.name parts : Sql V) := .name (qualified_plain h)

theorem column_still {path : Path} (aliased : Aliased items) (h : c.column path items = .ok sql) : Still sql := by
  obtain ⟨objects, hobjects, h⟩ := bind_eq_ok.mp h
  obtain ⟨name, hname, h⟩ := bind_eq_ok.mp h
  have objects_plain := mapM_identifier hobjects
  have name_plain := identifier_plain hname
  split at h
  · split at h
    · split at h
      · cases h
      · obtain ⟨parts, hparts, h⟩ := bind_eq_ok.mp h
        cases h
        exact (schemaRow_still hparts).member name_plain
    · cases h
      exact .name (List.forall_mem_append.mpr ⟨objects_plain, List.forall_mem_singleton.mpr name_plain⟩)
  · obtain ⟨item, hitem, h⟩ := bind_eq_ok.mp h
    have row := aliased.still (V := V) hitem
    split at h
    · cases h
      exact row.member name_plain
    · rename_i first rest
      cases h
      obtain ⟨first_plain, rest_plain⟩ := List.forall_mem_cons.mp objects_plain
      exact (row.member first_plain).group.members
        (List.forall_mem_append.mpr ⟨rest_plain, List.forall_mem_singleton.mpr name_plain⟩)

theorem documentAt_still {of : String} {names : List String} {entered : Entered V} (still : Still row)
    (h : c.documentAt of row names = .ok (some entered)) : Still entered.document := by
  unfold Compiler.documentAt at h
  split at h
  · split at h
    · cases h
    · split at h
      · cases h
      · obtain ⟨checked, hcolumn, h⟩ := bind_eq_ok.mp h
        cases h
        exact still.member (identifier_plain hcolumn)
  · cases h

theorem serving_document {gins : List (List String)} {names : List String} {gin : Gin V}
    (h : Gin.serving gins document names = some gin) : gin.document = document := by
  obtain ⟨_, _, rfl⟩ := Option.map_eq_some_iff.mp h
  rfl

theorem entered_still {path : Path} {entered : Entered V} (aliased : Aliased items)
    (h : c.entered path items = .ok (some entered)) : Still entered.document := by
  unfold Compiler.entered at h
  split at h
  · obtain ⟨item, hitem, h⟩ := bind_eq_ok.mp h
    have row := aliased.still (V := V) hitem
    split at h
    · cases h
      exact row
    · cases h
    · exact documentAt_still row h
    · exact documentAt_still row h
  · split at h
    · obtain ⟨parts, hparts, h⟩ := bind_eq_ok.mp h
      exact documentAt_still (schemaRow_still hparts) h
    · cases h

theorem documentCollection_still {path : Path} {collection : DocumentCollection V} (aliased : Aliased items)
    (h : c.documentCollection path items = .ok (some collection)) :
    Still collection.array ∧ ∀ gin, collection.gin = some gin → Still gin.document := by
  obtain ⟨entered, hentered, h⟩ := bind_eq_ok.mp h
  cases entered with
  | none => cases h
  | some entered =>
    obtain ⟨⟨object, name, member⟩, hobject, h⟩ := bind_eq_ok.mp h
    have still := entered_still aliased hentered
    dsimp only at h
    split at h
    · obtain ⟨checked, hkey, h⟩ := bind_eq_ok.mp h
      cases h
      refine ⟨(inDocument_still still hobject).object (key_plain hkey), fun gin hgin => ?_⟩
      rw [serving_document hgin]
      exact still
    · cases h

/-! ## Texts that count -/

theorem digits_toString (number : Nat) : (toString number).toList = Text.digits number := by
  rw [Nat.toString_eq_repr, Nat.toList_repr]
  rfl

theorem IsAlias.plain {name : String} {number : Nat} (h : IsAlias name number) : Plain name := by
  obtain ⟨one, plain, rfl⟩ := h
  simp only [Plain, String.toList_append, List.forall_mem_append, digits_toString]
  refine ⟨⟨plain, plain_of_all rfl⟩, fun c hc => ?_⟩
  simp [isNamePart, Char.isAlphanum, Text.isDigit_of_mem_digits hc]

/-- An alias says its number. -/
theorem IsAlias.unique {name : String} {number number' : Nat} (h : IsAlias name number) (h' : IsAlias name number') :
    number = number' := by
  obtain ⟨one, _, rfl⟩ := h
  obtain ⟨other, _, same⟩ := h'
  -- The number is what is after the last `_`.
  have texts := congrArg (List.reverse ∘ String.toList) same
  simp only [Function.comp_apply, String.toList_append, digits_toString, List.reverse_append] at texts
  have last : ∀ n, '_' ∉ (Text.digits n).reverse := by
    intro n mem
    exact Text.not_mem_digits (by decide) (List.mem_reverse.mp mem)
  have cut := congrArg (Text.cutAt '_') texts
  rw [show "_".toList.reverse = ['_'] from rfl, List.singleton_append, List.singleton_append,
    Text.cutAt_append (last _), Text.cutAt_append (last _)] at cut
  have same := List.reverse_injective (Prod.mk.inj (Option.some.inj cut)).1
  have numbers := congrArg Text.number same
  rw [Text.number_digits, Text.number_digits] at numbers
  exact Option.some.inj numbers

/-- Constants and aliases numbered after one another, from one count to the other. -/
structure Counts (next : Next) (marks : List (Mark V)) (values : List V) (next' : Next) : Prop where
  params : marks.filterMap Mark.constant = numbered next.param values
  param : next'.param = next.param + values.length
  le : next.aliases ≤ next'.aliases
  aliases : ∃ numbers : List Nat, List.Forall₂ IsAlias (marks.filterMap Mark.rowAlias) numbers ∧ numbers.Nodup ∧
    ∀ number ∈ numbers, next.aliases < number ∧ number ≤ next'.aliases

namespace Counts

variable {marks others : List (Mark V)} {values values' : List V}

theorem nil : Counts next ([] : List (Mark V)) [] next where
  params := rfl
  param := rfl
  le := Nat.le_refl _
  aliases := ⟨[], .nil, List.nodup_nil, List.forall_mem_nil _⟩

theorem append (h : Counts next marks values middle) (h' : Counts middle others values' next') :
    Counts next (marks ++ others) (values ++ values') next' where
  params := by rw [List.filterMap_append, h.params, h'.params, numbered_append, h.param]
  param := by rw [h'.param, h.param, List.length_append, Nat.add_assoc]
  le := h.le.trans h'.le
  aliases := by
    obtain ⟨numbers, named, once, range⟩ := h.aliases
    obtain ⟨numbers', named', once', range'⟩ := h'.aliases
    refine ⟨numbers ++ numbers', ?_, ?_, ?_⟩
    · rw [List.filterMap_append]
      exact List.rel_append named named'
    · refine List.nodup_append.mpr ⟨once, once', fun n hn m hm same => ?_⟩
      exact absurd (range n hn).2 (Nat.not_le.mpr (same ▸ (range' m hm).1))
    · refine List.forall_mem_append.mpr ⟨fun n hn => ?_, fun n hn => ?_⟩
      · exact ⟨(range n hn).1, (range n hn).2.trans h'.le⟩
      · exact ⟨h.le.trans_lt (range' n hn).1, (range' n hn).2⟩

theorem param_one (value : V) :
    Counts next [.param (next.param + 1) value] [value] { next with param := next.param + 1 } where
  params := rfl
  param := rfl
  le := Nat.le_refl _
  aliases := ⟨[], .nil, List.nodup_nil, List.forall_mem_nil _⟩

/-- A row bound, and what is counted under it. -/
theorem bound {name : String} (h : Counts { next with aliases := next.aliases + 1 } marks values next')
    (named : IsAlias name (next.aliases + 1)) : Counts next (.bound name :: marks) values next' where
  params := h.params
  param := h.param
  le := (Nat.le_succ _).trans h.le
  aliases := by
    obtain ⟨numbers, all, once, range⟩ := h.aliases
    refine ⟨(next.aliases + 1) :: numbers, .cons named all, List.nodup_cons.mpr ⟨fun mem => ?_, once⟩, ?_⟩
    · exact absurd (range _ mem).1 (Nat.lt_irrefl _)
    · refine List.forall_mem_cons.mpr ⟨⟨Nat.lt_succ_self _, h.le⟩, fun n hn => ?_⟩
      exact ⟨(Nat.lt_succ_self _).trans (range n hn).1, (range n hn).2⟩

/-- A row bound after what is counted under it. -/
theorem bound_after {name : String} (h : Counts { next with aliases := next.aliases + 1 } marks values next')
    (named : IsAlias name (next.aliases + 1)) : Counts next (marks ++ [.bound name]) values next' := by
  have first := h.bound named
  refine ⟨?_, first.param, first.le, ?_⟩
  · rw [List.filterMap_append, h.params]
    exact List.append_nil _
  · obtain ⟨numbers, all, once, range⟩ := h.aliases
    refine ⟨numbers ++ [next.aliases + 1], ?_, ?_, ?_⟩
    · rw [List.filterMap_append]
      exact List.rel_append all (.cons named .nil)
    · refine List.nodup_append.mpr ⟨once, List.nodup_singleton _, fun n hn m hm same => ?_⟩
      rw [List.mem_singleton.mp hm] at same
      exact absurd (range n hn).1 (Nat.not_lt.mpr (Nat.le_of_eq same))
    · refine List.forall_mem_append.mpr ⟨fun n hn => ?_, List.forall_mem_singleton.mpr ⟨Nat.lt_succ_self _, h.le⟩⟩
      exact ⟨(Nat.lt_succ_self _).trans (range n hn).1, (range n hn).2⟩

end Counts

section Members

variable {path : Path} {of : String} {names : List String} {reading : Reading}

/-- A text that counts, of the vocabulary and the alphabet. -/
structure Reads (next : Next) (sql : Sql V) (next' : Next) : Prop where
  counts : Counts next sql.marks [] next'
  sound : sql.Sound

theorem Still.reads (still : Still sql) : Reads next sql next :=
  ⟨still.marks ▸ .nil, still.sound⟩

theorem memberOfRow_reads (still : Still row) (h : c.memberOfRow row of names next reading = .ok (sql, next')) :
    Reads next sql next' := by
  fun_induction c.memberOfRow row of names next reading generalizing sql with
  | case1 =>
    cases h
    exact still.reads
  | case2 =>
    obtain ⟨checked, hname, h⟩ := bind_eq_ok.mp h
    cases h
    exact (still.member (identifier_plain hname)).reads
  | case3 =>
    obtain ⟨checked, hobject, h⟩ := bind_eq_ok.mp h
    obtain ⟨member, hmember, h⟩ := bind_eq_ok.mp h
    cases h
    exact (documentMember_still (still.member (identifier_plain hobject)) hmember).reads
  | case4 row of next object name rest hlayout ih ih' =>
    obtain ⟨key, hkey, h⟩ := bind_eq_ok.mp h
    cases key with
    | none =>
      obtain ⟨checked, hobject, h⟩ := bind_eq_ok.mp h
      exact ih checked (still.member (identifier_plain hobject)).group h
    | some key =>
      obtain ⟨one, hone, h⟩ := bind_eq_ok.mp h
      obtain ⟨keys, hkeys, h⟩ := bind_eq_ok.mp h
      obtain ⟨⟨member, _⟩, hmember, h⟩ := bind_eq_ok.mp h
      obtain ⟨table, htable, h⟩ := bind_eq_ok.mp h
      cases h
      have named : IsAlias (one ++ "_" ++ toString (next.aliases + 1)) (next.aliases + 1) :=
        ⟨one, singularOf_plain hone, rfl⟩
      have referenced : Still (.name [one ++ "_" ++ toString (next.aliases + 1)] : Sql V) :=
        .name (List.forall_mem_singleton.mpr named.plain)
      have reads := ih' key one referenced hmember
      have joined := equalities_still referenced still hkeys
      refine ⟨?_, named.plain, qualified_plain htable, reads.sound, joined.sound⟩
      rw [Sql.marks, joined.marks]
      exact reads.counts.bound_after named

theorem member_reads (aliased : Aliased items) (h : c.member path items next reading = .ok (sql, next')) :
    Reads next sql next' := by
  unfold Compiler.member at h
  split at h
  · obtain ⟨item, hitem, h⟩ := bind_eq_ok.mp h
    have row := aliased.still (V := V) hitem
    split at h
    · obtain ⟨member, hmember, h⟩ := bind_eq_ok.mp h
      cases h
      exact (documentMember_still row hmember).reads
    · cases h
    · exact memberOfRow_reads row h
    · exact memberOfRow_reads row h
  · split at h
    · obtain ⟨key, hkey, h⟩ := bind_eq_ok.mp h
      split at h
      · obtain ⟨parts, hparts, h⟩ := bind_eq_ok.mp h
        exact memberOfRow_reads (schemaRow_still hparts) h
      · obtain ⟨column, hcolumn, h⟩ := bind_eq_ok.mp h
        cases h
        exact (column_still aliased hcolumn).reads
    · obtain ⟨column, hcolumn, h⟩ := bind_eq_ok.mp h
      cases h
      exact (column_still aliased hcolumn).reads

end Members

/-! ## Constants -/

mutual

/-- The constants of a pattern, in their order in the text. -/
def Contained.constants : Contained V → List V
  | .constant _ value => [value]
  | .object members => Pattern.constantsOf members
  | .array items => Contained.constantsOf items

def Contained.constantsOf : List (Contained V) → List V
  | [] => []
  | item :: rest => item.constants ++ Contained.constantsOf rest

def Pattern.constantsOf : Pattern V → List V
  | [] => []
  | (_, member) :: rest => member.constants ++ Pattern.constantsOf rest

end

theorem constantsOf_append (items others : List (Contained V)) :
    Contained.constantsOf (items ++ others) = Contained.constantsOf items ++ Contained.constantsOf others := by
  induction items with
  | nil => rfl
  | cons item items ih =>
    rw [List.cons_append, Contained.constantsOf, ih, Contained.constantsOf, List.append_assoc]

theorem constantsOf_add {name : String} {theirs : Contained V} {join : Contained V → Contained V} {pattern : Pattern V}
    (joined : ∀ ours, (join ours).constants ⊆ ours.constants ++ theirs.constants) :
    Pattern.constantsOf (Pattern.add name theirs join pattern) ⊆ Pattern.constantsOf pattern ++ theirs.constants := by
  induction pattern with
  | nil => simp [Pattern.add, Pattern.constantsOf]
  | cons entry rest ih =>
    obtain ⟨ours, member⟩ := entry
    have member_joined := joined member
    unfold Pattern.add
    split
    · simp only [Pattern.constantsOf]
      grind
    · simp only [Pattern.constantsOf]
      grind

mutual

theorem constants_and (mine yours : Contained V) : (mine.and yours).constants ⊆ mine.constants ++ yours.constants := by
  fun_cases Contained.and mine yours
  case case1 mine yours => exact constantsOf_and mine yours
  case case2 mine yours =>
    rw [Contained.constants, constantsOf_append]
    exact List.Subset.refl _
  case case3 => exact List.subset_append_left _ _
termination_by sizeOf yours

theorem constantsOf_and (mine yours : Pattern V) :
    Pattern.constantsOf (Pattern.and mine yours) ⊆ Pattern.constantsOf mine ++ Pattern.constantsOf yours := by
  cases yours with
  | nil =>
    rw [Pattern.and]
    exact List.subset_append_left _ _
  | cons entry yours =>
    obtain ⟨name, theirs⟩ := entry
    have joined := @constantsOf_add V name theirs _ mine fun ours => constants_and ours theirs
    have rest := constantsOf_and (Pattern.add name theirs (fun ours => Contained.and ours theirs) mine) yours
    rw [Pattern.and, Pattern.constantsOf]
    grind
termination_by sizeOf yours

end

/-- A text with its constants. -/
structure Writes (next : Next) (sql : Sql V) (values : List V) (next' : Next) : Prop where
  counts : Counts next sql.marks values next'
  sound : sql.Sound

theorem Writes.group {values : List V} (h : Writes next sql values next') : Writes next (.group sql) values next' :=
  ⟨h.counts, h.sound⟩

theorem Writes.append {left right all : Sql V} {values values' : List V} (h : Writes next left values middle)
    (h' : Writes middle right values' next') (marks : all.marks = left.marks ++ right.marks)
    (sound : left.Sound → right.Sound → all.Sound) : Writes next all (values ++ values') next' :=
  ⟨marks ▸ h.counts.append h'.counts, sound h.sound h'.sound⟩

section Patterns

variable {values : List V}

/-- Texts after one another, the count going through them. -/
inductive WritesAll : Next → List (Sql V) → List V → Next → Prop
  | nil {next : Next} : WritesAll next [] [] next
  | cons {next middle next' : Next} {sql : Sql V} {sqls : List (Sql V)} {values values' : List V}
    (h : Writes next sql values middle) (rest : WritesAll middle sqls values' next') :
    WritesAll next (sql :: sqls) (values ++ values') next'

theorem WritesAll.joined {first : Sql V} {sqls : List (Sql V)} {values values' : List V}
    (h : Writes next first values middle) (rest : WritesAll middle sqls values' next') :
    Writes next (sqls.foldl .joined first) (values ++ values') next' := by
  induction rest generalizing first values with
  | nil => rwa [List.append_nil]
  | cons h' _ ih =>
    rw [← List.append_assoc]
    exact ih (h.append h' rfl And.intro)

theorem WritesAll.entries {sqls : List (Sql V)} (h : WritesAll next sqls values next') :
    Writes next (entries sqls) values next' := by
  cases h with
  | nil => exact ⟨.nil, show ∀ part ∈ [], Plain part from List.forall_mem_nil _⟩
  | cons h rest =>
    cases rest with
    | nil =>
      rw [List.append_nil]
      exact h
    | cons h' rest' => exact (WritesAll.joined h (.cons h' rest')).group

variable [ParamType V]

theorem parameter_writes {value : V} (h : parameter value next = .ok (sql, next')) :
    Writes next sql [value] next' := by
  unfold parameter at h
  split at h
  · cases h
  · cases h
    exact ⟨.param_one value, trivial⟩

mutual

theorem json_writes {contained : Contained V} {next next' : Next} {sql : Sql V} {values : List V}
    (h : contained.json next = .ok (sql, values, next')) :
    Writes next sql values next' ∧ values = contained.constants := by
  cases contained with
  | constant spelled value =>
    rw [Contained.json] at h
    obtain ⟨⟨param, _⟩, hparam, h⟩ := bind_eq_ok.mp h
    cases h
    obtain ⟨counts, sound⟩ := parameter_writes hparam
    have known : ∀ type ∈ ["text", "bigint", "boolean", "jsonb"], type ∈ types := by decide
    have v : Plain "v" := plain_of_all rfl
    refine ⟨?_, rfl⟩
    cases spelled with
    | text => exact ⟨counts, v, v, known _ (by decide), sound⟩
    | int => exact ⟨counts, known _ (by decide), known _ (by decide), known _ (by decide), sound⟩
    | bool => exact ⟨counts, known _ (by decide), known _ (by decide), known _ (by decide), sound⟩
  | object members =>
    rw [Contained.json] at h
    obtain ⟨⟨written, _, _⟩, hmembers, h⟩ := bind_eq_ok.mp h
    cases h
    obtain ⟨all, rfl⟩ := members_writes hmembers
    exact ⟨all.entries, rfl⟩
  | array items =>
    rw [Contained.json] at h
    obtain ⟨⟨written, _, _⟩, hitems, h⟩ := bind_eq_ok.mp h
    cases h
    obtain ⟨all, rfl⟩ := items_writes hitems
    have empty : Writes next (.emptyArray : Sql V) [] next := ⟨.nil, trivial⟩
    exact ⟨all.joined empty, rfl⟩
termination_by sizeOf contained

theorem items_writes {items : List (Contained V)} {next next' : Next} {sqls : List (Sql V)} {values : List V}
    (h : Contained.items items next = .ok (sqls, values, next')) :
    WritesAll next sqls values next' ∧ values = Contained.constantsOf items := by
  cases items with
  | nil =>
    cases h
    exact ⟨.nil, rfl⟩
  | cons item rest =>
    rw [Contained.items] at h
    obtain ⟨⟨first, _, _⟩, hfirst, h⟩ := bind_eq_ok.mp h
    obtain ⟨⟨others, _, _⟩, hothers, h⟩ := bind_eq_ok.mp h
    cases h
    obtain ⟨first, rfl⟩ := json_writes hfirst
    obtain ⟨others, rfl⟩ := items_writes hothers
    exact ⟨.cons first others, rfl⟩
termination_by sizeOf items

theorem members_writes {members : Pattern V} {next next' : Next} {sqls : List (Sql V)} {values : List V}
    (h : Pattern.members members next = .ok (sqls, values, next')) :
    WritesAll next sqls values next' ∧ values = Pattern.constantsOf members := by
  fun_cases Pattern.members members next
  case case1 =>
    cases h
    exact ⟨.nil, rfl⟩
  case case2 name value rest =>
    rw [Pattern.members] at h
    obtain ⟨checked, hkey, h⟩ := bind_eq_ok.mp h
    obtain ⟨⟨param, _⟩, hparam, h⟩ := bind_eq_ok.mp h
    obtain ⟨⟨others, _, _⟩, hothers, h⟩ := bind_eq_ok.mp h
    cases h
    have entry : Writes next (.jsonbObject checked (.cast param "text")) [value] _ :=
      ⟨(parameter_writes hparam).counts, key_plain hkey, by decide, (parameter_writes hparam).sound⟩
    obtain ⟨others, rfl⟩ := members_writes hothers
    exact ⟨.cons entry others, rfl⟩
  case case3 name member rest htext =>
    rw [Pattern.members.eq_3 _ _ _ _ htext] at h
    obtain ⟨checked, hkey, h⟩ := bind_eq_ok.mp h
    obtain ⟨⟨value, _, _⟩, hvalue, h⟩ := bind_eq_ok.mp h
    obtain ⟨⟨others, _, _⟩, hothers, h⟩ := bind_eq_ok.mp h
    cases h
    obtain ⟨⟨counts, sound⟩, rfl⟩ := json_writes hvalue
    obtain ⟨others, rfl⟩ := members_writes hothers
    exact ⟨.cons ⟨counts, key_plain hkey, sound⟩ others, rfl⟩
termination_by sizeOf members

end

omit [ParamType V] in
theorem constantsOf_nested (objects : List String) (pattern : Pattern V) :
    Pattern.constantsOf (Pattern.nested objects pattern) = Pattern.constantsOf pattern := by
  induction objects with
  | nil => rfl
  | cons object objects ih =>
    have cons : Pattern.nested (object :: objects) pattern =
        [(object, .object (Pattern.nested objects pattern))] := rfl
    rw [cons, Pattern.constantsOf, Contained.constants, ih, Pattern.constantsOf, List.append_nil]

omit [ParamType V] in
theorem constantsOf_of (name : String) (member : Contained V) :
    Pattern.constantsOf (Pattern.of name member) = member.constants := by
  rw [Pattern.of, Pattern.constantsOf, Pattern.constantsOf, List.append_nil]

omit [ParamType V] in
theorem constants_of_atPath {pattern : Pattern V} {path : List String} {contained : Contained V}
    (h : pattern.atPath path = some contained) : contained.constants = Pattern.constantsOf pattern := by
  fun_induction Pattern.atPath pattern path with
  | case1 =>
    cases h
    simp [Pattern.constantsOf]
  | case2 => cases h
  | case3 _ _ _ _ ih => simp [Pattern.constantsOf, Contained.constants, ih h]
  | case4 => cases h
  | case5 => cases h

theorem constantsOf_of_equal {layout : Layout} {objects : List String} {name : String} {value : V} {pattern : Pattern V}
    (h : Pattern.equal layout objects name value = some pattern) : Pattern.constantsOf pattern = [value] := by
  obtain ⟨_, _, h⟩ := Option.bind_eq_some_iff.mp h
  obtain ⟨member, _, h⟩ := Option.bind_eq_some_iff.mp h
  cases member with
  | value kind =>
    obtain ⟨_, _, h⟩ := Option.bind_eq_some_iff.mp h
    obtain ⟨_, _, h⟩ := Option.bind_eq_some_iff.mp h
    cases h
    rw [constantsOf_nested, constantsOf_of, Contained.constants]
  | _ => cases h

omit [ParamType V] in
theorem constantsOf_of_ofArray {objects : List String} {name : String} {elements : List (Contained V)}
    {pattern : Pattern V} (h : Pattern.ofArray objects name elements = some pattern) :
    Pattern.constantsOf pattern = Contained.constantsOf elements := by
  unfold Pattern.ofArray at h
  split at h
  · cases h
  · cases h
    rw [constantsOf_nested, constantsOf_of, Contained.constants]

theorem constantsOf_constants (spelled : Spelled) (expr : Expr V) :
    Contained.constantsOf (Pattern.constants spelled expr) ⊆ expr.values := by
  fun_induction Pattern.constants spelled expr with
  | case1 left right ihl ihr =>
    rw [constantsOf_append]
    exact List.append_subset.mpr ⟨List.subset_append_of_subset_left _ ihl, List.subset_append_of_subset_right _ ihr⟩
  | case2 | case4 => exact List.Subset.refl _
  | _ => exact List.nil_subset _

theorem constantsOf_elementsBy {item : Layout → Pattern V} {predicate : Expr V}
    (of : ∀ layout, Pattern.constantsOf (item layout) ⊆ predicate.values) (held : Items) :
    Contained.constantsOf (Pattern.elementsBy item predicate held) ⊆ predicate.values := by
  cases held with
  | objects layout =>
    rw [Pattern.elementsBy]
    split
    · exact List.nil_subset _
    · simp only [Contained.constantsOf, Contained.constants, List.append_nil]
      exact of layout
  | values kind =>
    rw [Pattern.elementsBy]
    split
    · exact constantsOf_constants _ predicate
    · exact List.nil_subset _

omit [ParamType V] in
theorem constantsOf_getD {found : Option (Pattern V)} {values : List V}
    (each : ∀ pattern, found = some pattern → Pattern.constantsOf pattern ⊆ values) :
    Pattern.constantsOf (found.getD []) ⊆ values := by
  cases found with
  | none => exact List.nil_subset _
  | some pattern => exact each pattern rfl

theorem constantsOf_ofItem (expr : Expr V) (layout : Layout) :
    Pattern.constantsOf (Pattern.ofItem expr layout) ⊆ expr.values := by
  fun_cases Pattern.ofItem expr layout
  case case1 left right =>
    exact List.Subset.trans (constantsOf_and _ _) (List.append_subset.mpr
      ⟨List.subset_append_of_subset_left _ (constantsOf_ofItem left layout),
        List.subset_append_of_subset_right _ (constantsOf_ofItem right layout)⟩)
  case case2 | case4 =>
    refine constantsOf_getD fun pattern equal => ?_
    rw [constantsOf_of_equal equal]
    exact List.Subset.refl _
  case case6 source predicate _ =>
    unfold Pattern.ofCollection
    split
    · rename_i held _
      refine constantsOf_getD fun pattern array => ?_
      rw [constantsOf_of_ofArray array]
      exact constantsOf_elementsBy (constantsOf_ofItem predicate) held
    · exact List.nil_subset _
  all_goals exact List.nil_subset _
termination_by sizeOf expr

theorem containing_writes {pattern : Pattern V} {path : List String} (still : Still document)
    (h : pattern.containing document path next = .ok (some (sql, values, next'))) :
    Writes next sql values next' ∧ values = Pattern.constantsOf pattern := by
  -- The document has nothing to count before the pattern.
  have beside : ∀ {value json}, Still value → Writes next json values next' →
      Writes next (.contains value json) values next' := by
    intro value json still writes
    refine ⟨?_, still.sound, writes.sound⟩
    rw [Sql.marks, still.marks, List.nil_append]
    exact writes.counts
  unfold Pattern.containing at h
  split at h
  · obtain ⟨⟨json, _, _⟩, hjson, h⟩ := bind_eq_ok.mp h
    cases h
    obtain ⟨writes, rfl⟩ := json_writes hjson
    exact ⟨beside still writes, rfl⟩
  · split at h
    · cases h
    · rename_i contained hcontained
      obtain ⟨⟨json, _, _⟩, hjson, h⟩ := bind_eq_ok.mp h
      obtain ⟨value, hvalue, h⟩ := bind_eq_ok.mp h
      cases h
      obtain ⟨writes, rfl⟩ := json_writes hjson
      have inner : Still value := by
        refine foldlM_invariant ?_ hvalue still
        intro value name value' still h
        obtain ⟨checked, hkey, h⟩ := bind_eq_ok.mp h
        cases h
        exact still.object (key_plain hkey)
      exact ⟨beside inner.group writes.group, constants_of_atPath hcontained⟩

theorem containedIn_still {path : Path} {value : V} {gin : Gin V} {pattern : Pattern V} (aliased : Aliased items)
    (h : c.containedIn path value items = .ok (some (gin, pattern))) :
    Still gin.document ∧ Pattern.constantsOf pattern = [value] := by
  -- Whatever is entered is asked of alike.
  have asked : ∀ entered : Option (Entered V), (∀ found, entered = some found → Still found.document) →
      (entered.bind fun entered => (Gin.serving entered.gins entered.document entered.names).bind fun gin =>
        (Pattern.equal entered.layout entered.names.dropLast (entered.names.getLastD "") value).map fun pattern =>
          (gin, pattern)) = some (gin, pattern) → Still gin.document ∧ Pattern.constantsOf pattern = [value] := by
    intro entered still h
    obtain ⟨found, same, rest⟩ := Option.bind_eq_some_iff.mp h
    obtain ⟨served, serving, rest⟩ := Option.bind_eq_some_iff.mp rest
    obtain ⟨asked, equal, rest⟩ := Option.map_eq_some_iff.mp rest
    cases rest
    exact ⟨serving_document serving ▸ still found same, constantsOf_of_equal equal⟩
  have none_still : ∀ found : Entered V, none = some found → Still found.document := by
    rintro found ⟨⟩
  unfold Compiler.containedIn at h
  dsimp only at h
  split at h
  · obtain ⟨parts, hparts, h⟩ := bind_eq_ok.mp h
    obtain ⟨entered, hentered, h⟩ := bind_eq_ok.mp h
    exact asked entered (fun found same => documentAt_still (schemaRow_still hparts) (same ▸ hentered))
      (Except.ok.inj h)
  · exact asked none none_still (Except.ok.inj h)
  · obtain ⟨item, hitem, h⟩ := bind_eq_ok.mp h
    have at_row : ∀ entered, c.documentAt item.row (.name [item.rowAlias]) path.names = .ok entered →
        ∀ found : Entered V, entered = some found → Still found.document := by
      intro entered hentered found same
      exact documentAt_still (aliased.still hitem) (same ▸ hentered)
    split at h
    · exact asked none none_still (Except.ok.inj h)
    · obtain ⟨entered, hentered, h⟩ := bind_eq_ok.mp h
      exact asked entered (at_row entered hentered) (Except.ok.inj h)
    · obtain ⟨entered, hentered, h⟩ := bind_eq_ok.mp h
      exact asked entered (at_row entered hentered) (Except.ok.inj h)

end Patterns

end AsceticDdd.Specification.Pg
