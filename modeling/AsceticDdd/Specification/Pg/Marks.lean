import AsceticDdd.Control.Except
import AsceticDdd.Specification.Pg.Compiler

/-!
# What a text has in it

Its words are of one vocabulary and its names of one alphabet, whatever the tree and the schema are. Its placeholders
and the aliases it binds are counted as they are written.
-/

namespace AsceticDdd.Specification.Pg

variable {V : Type}

/-- Made only of ASCII letters, digits and `_`. -/
def Plain (name : String) : Prop := ∀ c ∈ name.toList, isNamePart c

theorem plain_of_all {name : String} (h : name.toList.all isNamePart = true) : Plain name := List.all_eq_true.mp h

/-- The types a text says, in this order of parts. -/
def types : List String :=
  ["boolean", "bigint", "double precision", "text", "timestamptz", "date", "interval", "uuid", "integer", "jsonb"]

def operators : List Infix :=
  [.comparison .eq, .comparison .ne, .comparison .gt, .comparison .lt, .comparison .ge, .comparison .le, .is,
    .logical .and, .logical .or, .arithmetic .add, .arithmetic .sub, .arithmetic .mul, .arithmetic .div,
    .arithmetic .mod, .arithmetic .shl, .arithmetic .shr]

def tests : List String := ["IS NULL", "IS NOT NULL", "IS NOT DISTINCT FROM NULL", "IS DISTINCT FROM NULL"]

def functions : List String := ["unnest", "jsonb_array_elements", "jsonb_array_elements_text"]

/-- Every word a text may have beside its names and its placeholders. -/
def vocabulary : List String :=
  [".", "(", ")", " COLLATE ", " -> ", " ->> ", "NOT ", "-", " @> ", " || ", "'[]'::jsonb", "jsonb_object(ARRAY[",
    "], ARRAY[", "])", "jsonb_set('\x7b\x7d'::jsonb, ARRAY[", "], ", "CASE WHEN jsonb_typeof(", ") = 'array' THEN ",
    " END", "EXISTS (SELECT 1 FROM ", " AS ", " WHERE ", "(SELECT ", " FROM "] ++ types.map ("::" ++ ·) ++
    operators.map (fun op => " " ++ spelling op ++ " ") ++ tests.map (" " ++ ·) ++ functions.map (· ++ "(")

/-- A piece that no name and no constant has shaped: a word of the vocabulary, a placeholder, or a name of the
alphabet between its quotes. -/
def Piece.Sound : Piece → Prop
  | .word text => text ∈ vocabulary
  | .param _ => True
  | .identifier name | .key name => Plain name

/-- A placeholder with its constant, or a row's alias where it is bound. -/
inductive Mark (V : Type)
  | param (number : Nat) (constant : V)
  | bound (name : String)

namespace Sql

/-- In the order of the text. -/
def marks : Sql V → List (Mark V)
  | .param number constant => [.param number constant]
  | .name _ | .emptyArray => []
  | .member inner _ | .group inner | .cast inner _ | .collated inner | .object inner _ | .text inner _
  | .prefixed _ inner | .tested inner _ | .jsonbObject _ inner | .jsonbSet _ inner | .call _ inner => inner.marks
  | .infixed left _ right | .contains left right | .joined left right => left.marks ++ right.marks
  | .ifArray array => array.marks ++ array.marks
  | .existing source rowAlias condition => source.marks ++ .bound rowAlias :: condition.marks
  | .selected value _ rowAlias keys => value.marks ++ .bound rowAlias :: keys.marks

/-- The names of a text are of the alphabet, and its types, tests and functions of the vocabulary. -/
def Sound : Sql V → Prop
  | .param _ _ | .emptyArray => True
  | .name parts => ∀ part ∈ parts, Plain part
  | .member inner part | .object inner part | .text inner part | .jsonbObject part inner | .jsonbSet part inner =>
    Plain part ∧ inner.Sound
  | .group inner | .collated inner | .prefixed _ inner | .ifArray inner => inner.Sound
  | .cast inner type => type ∈ types ∧ inner.Sound
  | .tested inner test => test ∈ tests ∧ inner.Sound
  | .call function inner => function ∈ functions ∧ inner.Sound
  | .infixed left _ right | .contains left right | .joined left right => left.Sound ∧ right.Sound
  | .existing source rowAlias condition => Plain rowAlias ∧ source.Sound ∧ condition.Sound
  | .selected value table rowAlias keys => Plain rowAlias ∧ (∀ part ∈ table, Plain part) ∧ value.Sound ∧ keys.Sound

end Sql

/-- The number of a placeholder. -/
def Piece.number : Piece → Option Nat
  | .param number => some number
  | .word _ | .identifier _ | .key _ => none

/-- The numbers of the placeholders, in the order of the text. -/
def Sql.placeholders (sql : Sql V) : List Nat := sql.pieces.filterMap Piece.number

theorem sound_dotted {parts : List String} (h : ∀ part ∈ parts, Plain part) :
    ∀ piece ∈ Sql.dotted parts, piece.Sound := by
  have dot : Piece.Sound (.word ".") := show "." ∈ vocabulary by decide +kernel
  induction parts with
  | nil => exact List.forall_mem_nil _
  | cons part parts ih =>
    obtain ⟨plain, rest⟩ := List.forall_mem_cons.mp h
    cases parts with
    | nil => exact List.forall_mem_singleton.mpr plain
    | cons second parts =>
      have cut : Sql.dotted (part :: second :: parts) =
          .identifier part :: .word "." :: Sql.dotted (second :: parts) := by
        simp [Sql.dotted, List.intercalate_cons_cons]
      rw [cut]
      exact List.forall_mem_cons.mpr ⟨plain, List.forall_mem_cons.mpr ⟨dot, ih rest⟩⟩

theorem type_mem {type : String} (h : type ∈ types) : "::" ++ type ∈ vocabulary :=
  List.mem_append_left _ (List.mem_append_left _ (List.mem_append_left _ (List.mem_append_right _
    (List.mem_map_of_mem h))))

theorem operator_mem (op : Infix) : " " ++ spelling op ++ " " ∈ vocabulary := by
  have known : op ∈ operators := by
    obtain (_ | _) | _ | (_ | _) | (_ | _) := op <;> decide
  exact List.mem_append_left _ (List.mem_append_left _ (List.mem_append_right _ (List.mem_map_of_mem known)))

theorem test_mem {test : String} (h : test ∈ tests) : " " ++ test ∈ vocabulary :=
  List.mem_append_left _ (List.mem_append_right _ (List.mem_map_of_mem h))

theorem function_mem {function : String} (h : function ∈ functions) : function ++ "(" ∈ vocabulary :=
  List.mem_append_right _ (List.mem_map_of_mem h)

/-- Every piece of a sound text is a word of the vocabulary, a placeholder or a name of the alphabet. -/
theorem sound_pieces {sql : Sql V} (h : sql.Sound) : ∀ piece ∈ sql.pieces, piece.Sound := by
  have word : ∀ {text : String}, text ∈ vocabulary → (Piece.word text).Sound := id
  induction sql with
  | param number constant => exact List.forall_mem_singleton.mpr trivial
  | name parts => exact sound_dotted (show ∀ part ∈ parts, Plain part from h)
  | member row column ih =>
    simp only [Sql.pieces, List.forall_mem_append, List.forall_mem_cons]
    exact ⟨ih h.2, word (by decide +kernel), h.1, List.forall_mem_nil _⟩
  | group inner ih =>
    simp only [Sql.pieces, List.forall_mem_append, List.forall_mem_cons]
    exact ⟨⟨word (by decide +kernel), ih h⟩, word (by decide +kernel), List.forall_mem_nil _⟩
  | cast inner type ih =>
    simp only [Sql.pieces, List.forall_mem_append, List.forall_mem_cons]
    exact ⟨ih h.2, word (type_mem h.1), List.forall_mem_nil _⟩
  | collated inner ih =>
    have plain : Plain "C" := plain_of_all rfl
    simp only [Sql.pieces, List.forall_mem_append, List.forall_mem_cons]
    exact ⟨ih h, word (by decide +kernel), plain, List.forall_mem_nil _⟩
  | object inner key ih | text inner key ih =>
    simp only [Sql.pieces, List.forall_mem_append, List.forall_mem_cons]
    exact ⟨ih h.2, word (by decide +kernel), h.1, List.forall_mem_nil _⟩
  | prefixed op operand ih =>
    cases op <;>
    · simp only [Sql.pieces, List.forall_mem_cons]
      exact ⟨word (by decide +kernel), ih h⟩
  | infixed left op right ihl ihr =>
    simp only [Sql.pieces, List.forall_mem_append, List.forall_mem_cons]
    exact ⟨ihl h.1, word (operator_mem op), ihr h.2⟩
  | tested operand test ih =>
    simp only [Sql.pieces, List.forall_mem_append, List.forall_mem_cons]
    exact ⟨ih h.2, word (test_mem h.1), List.forall_mem_nil _⟩
  | contains document pattern ihl ihr | joined document pattern ihl ihr =>
    simp only [Sql.pieces, List.forall_mem_append, List.forall_mem_cons]
    exact ⟨ihl h.1, word (by decide +kernel), ihr h.2⟩
  | emptyArray => exact List.forall_mem_singleton.mpr (word (by decide +kernel))
  | jsonbObject key value ih | jsonbSet key value ih =>
    simp only [Sql.pieces, List.forall_mem_append, List.forall_mem_cons]
    exact ⟨⟨word (by decide +kernel), h.1, word (by decide +kernel), ih h.2⟩, word (by decide +kernel),
      List.forall_mem_nil _⟩
  | ifArray array ih =>
    simp only [Sql.pieces, List.forall_mem_append, List.forall_mem_cons]
    exact ⟨⟨⟨word (by decide +kernel), ih h⟩, word (by decide +kernel), ih h⟩, word (by decide +kernel),
      List.forall_mem_nil _⟩
  | call function argument ih =>
    simp only [Sql.pieces, List.forall_mem_append, List.forall_mem_cons]
    exact ⟨⟨word (function_mem h.1), ih h.2⟩, word (by decide +kernel), List.forall_mem_nil _⟩
  | existing source rowAlias condition ihs ihc =>
    simp only [Sql.pieces, List.forall_mem_append, List.forall_mem_cons]
    exact ⟨⟨⟨word (by decide +kernel), ihs h.2.1⟩, word (by decide +kernel), h.1, word (by decide +kernel), ihc h.2.2⟩,
      word (by decide +kernel), List.forall_mem_nil _⟩
  | selected value table rowAlias keys ihv ihk =>
    simp only [Sql.pieces, List.forall_mem_append, List.forall_mem_cons]
    exact ⟨⟨⟨⟨word (by decide +kernel), ihv h.2.2.1⟩, word (by decide +kernel), sound_dotted h.2.1⟩,
      word (by decide +kernel), h.1, word (by decide +kernel), ihk h.2.2.2⟩, word (by decide +kernel),
      List.forall_mem_nil _⟩

/-! ## Counted as they are written -/

def Mark.constant : Mark V → Option (Nat × V)
  | .param number constant => some (number, constant)
  | .bound _ => none

def Mark.rowAlias : Mark V → Option String
  | .param _ _ => none
  | .bound name => some name

/-- The placeholders of a text with their constants. -/
def Sql.params (sql : Sql V) : List (Nat × V) := sql.marks.filterMap Mark.constant

/-- The aliases a text binds. -/
def Sql.aliases (sql : Sql V) : List String := sql.marks.filterMap Mark.rowAlias

theorem placeholders_eq (sql : Sql V) : sql.placeholders = sql.params.map Prod.fst := by
  have dotted : ∀ parts, (Sql.dotted parts).filterMap Piece.number = [] := by
    intro parts
    induction parts with
    | nil => rfl
    | cons part parts ih =>
      cases parts with
      | nil => rfl
      | cons second parts =>
        have cut : Sql.dotted (part :: second :: parts) =
            .identifier part :: .word "." :: Sql.dotted (second :: parts) := by
          simp [Sql.dotted, List.intercalate_cons_cons]
        rw [cut, List.filterMap_cons_none rfl, List.filterMap_cons_none rfl, ih]
  unfold Sql.placeholders Sql.params
  induction sql with
  | prefixed op operand ih => cases op <;> simp [Sql.pieces, Sql.marks, List.filterMap_cons, Piece.number, ih]
  | _ => simp [Sql.pieces, Sql.marks, List.filterMap_cons, Piece.number, Mark.constant, *]

/-- Constants numbered one after another, from the number after `start`. -/
def numbered : Nat → List V → List (Nat × V)
  | _, [] => []
  | start, value :: values => (start + 1, value) :: numbered (start + 1) values

theorem numbered_append (start : Nat) (values others : List V) :
    numbered start (values ++ others) = numbered start values ++ numbered (start + values.length) others := by
  induction values generalizing start with
  | nil => rfl
  | cons value values ih =>
    rw [List.cons_append, numbered, ih, numbered, List.length_cons, List.cons_append, Nat.add_right_comm,
      ← Nat.add_assoc]

theorem numbered_fst (start : Nat) (values : List V) :
    (numbered start values).map Prod.fst = List.range' (start + 1) values.length := by
  induction values generalizing start with
  | nil => rfl
  | cons value values ih => rw [numbered, List.map_cons, ih, List.length_cons, List.range'_succ]

/-- The alias of the row numbered so. -/
def IsAlias (name : String) (number : Nat) : Prop := ∃ one, Plain one ∧ name = one ++ "_" ++ toString number

end AsceticDdd.Specification.Pg
