import AsceticDdd.Control.Except
import AsceticDdd.Specification.Pg.Compiler

/-!
# Where a member is, and where a collection

PostgreSQL reads names with dots between them as a table and its column, and what is in parentheses as a column's
value, the members of which follow. The reader of members writes the parentheses; the reader of collections writes
the names of a path from the candidate with dots.
-/

namespace AsceticDdd.Specification.Pg

open Control

variable {V : Type}

/-- A column of a row, and the members of its value that lead on. -/
structure Place where
  row : List String
  columns : List String
deriving DecidableEq

/-- The last of names with dots is a column, those before it are its table. -/
def Place.ofDotted (names : List String) : Place := ⟨names.dropLast, [names.getLastD ""]⟩

namespace Sql

/-- Names with nothing but dots between them, or a place. -/
def reference : Sql V → Option (List String ⊕ Place)
  | .name names => some (.inl names)
  | .member row column =>
    row.reference.map fun
      | .inl names => .inl (names ++ [column])
      | .inr place => .inr { place with columns := place.columns ++ [column] }
  | .group inner =>
    inner.reference.map fun
      | .inl names => .inr (.ofDotted names)
      | .inr place => .inr place
  | _ => none

/-- The place a reference reads. -/
def place (sql : Sql V) : Option Place := sql.reference.map (Sum.elim Place.ofDotted id)

/-- The row of the column a document is read from. -/
def row : Sql V → Option (List String)
  | .object inner _ => inner.row
  | sql => sql.place.map Place.row

/-- What an `EXISTS` reads its rows from. -/
def from' : Sql V → Option (Sql V)
  | .existing source _ _ => some source
  | .infixed _ _ right => right.from'
  | _ => none

end Sql

namespace Compiler

variable (c : Compiler)

/-- What the rows of the query are called. -/
def tables (schema : Schema) (items : List Item) : List (List String) :=
  (match qualified schema.row with
    | .ok row => [row]
    | .error _ => []) ++ items.map fun item => [item.rowAlias]

/-- The collection unnested is where a null test of the same path looks, in a row that the query has. -/
def Agrees (schema : Schema) (source : Path) (items : List Item) (next : Next) (sql : Sql V) : Prop :=
  match sql.from' with
  | some (.call _ (.ifArray array)) => ∃ (member : Sql V) (next' : Next) (object : Sql V) (key : String),
    c.member source items next .nullTest = .ok (member, next') ∧ array = .object object key ∧
      member = Sql.group (.text object key) ∧ ∃ row ∈ object.row, row ∈ tables schema items
  | some (.call _ array) => ∃ (member : Sql V) (next' : Next) (place : Place),
    c.member source items next .nullTest = .ok (member, next') ∧ array.place = some place ∧
      member.place = some place ∧ place.row ∈ tables schema items
  -- the rows of a table: nothing is unnested
  | _ => True

end Compiler

theorem Kind.place_read (object : Sql V) (key : String) (kind : Kind) :
    (kind.read (.group (.text object key))).place = none := by
  cases kind <;> rfl

/-- A member of a document is no column. -/
theorem documentMember_place {document sql : Sql V} {of : String} {layout : Layout} {names : List String}
    {reading : Reading} (compiled : documentMember document of layout names reading = .ok sql) : sql.place = none := by
  obtain ⟨⟨object, name, member⟩, _, compiled⟩ := bind_eq_ok.mp compiled
  obtain ⟨key, _, compiled⟩ := bind_eq_ok.mp compiled
  split at compiled
  · rw [← Except.ok.inj compiled]
    exact Kind.place_read ..
  · rw [← Except.ok.inj compiled]
    rfl
  · cases compiled

namespace Compiler

variable {c : Compiler}

/-- A member of a value in parentheses is not a column of a table: it is further in, or in a row of another table or
in a document. -/
theorem memberOfRow_place {row sql : Sql V} {of : String} {names : List String} {next next' : Next}
    {reading : Reading} {place : Place} (within : row.reference = some (.inr place)) (further : place.columns ≠ [])
    (nonempty : names ≠ []) (compiled : c.memberOfRow row of names next reading = .ok (sql, next')) :
    ∀ found ∈ sql.place, 2 ≤ found.columns.length := by
  induction names generalizing row of place sql with
  | nil => exact absurd rfl nonempty
  | cons object names ih =>
    cases names with
    | nil =>
      obtain ⟨name, _, compiled⟩ := bind_eq_ok.mp compiled
      cases compiled
      rintro found here
      simp only [Sql.place, Sql.reference, within, Option.map_some, Sum.elim_inr, Option.mem_def,
        Option.some.injEq] at here
      subst here
      have some' := List.length_pos_iff.mpr further
      simp
      omega
    | cons name names =>
      rw [memberOfRow] at compiled
      split at compiled
      case h_1 =>
        obtain ⟨column, _, compiled⟩ := bind_eq_ok.mp compiled
        obtain ⟨member, read, compiled⟩ := bind_eq_ok.mp compiled
        cases compiled
        rw [documentMember_place read]
        rintro found ⟨⟩
      case h_2 =>
        obtain ⟨key, _, compiled⟩ := bind_eq_ok.mp compiled
        cases key with
        | none =>
          obtain ⟨column, _, compiled⟩ := bind_eq_ok.mp compiled
          have deeper : (Sql.group (.member row column)).reference =
              some (.inr { place with columns := place.columns ++ [column] }) := by
            simp [Sql.reference, within]
          exact ih deeper (by simp) (List.cons_ne_nil _ _) compiled
        | some key =>
          obtain ⟨singular, _, compiled⟩ := bind_eq_ok.mp compiled
          obtain ⟨keys, _, compiled⟩ := bind_eq_ok.mp compiled
          obtain ⟨⟨member, after⟩, _, compiled⟩ := bind_eq_ok.mp compiled
          obtain ⟨table, _, compiled⟩ := bind_eq_ok.mp compiled
          cases compiled
          rintro found ⟨⟩

variable {schema : Schema} {source : Path} {object : String} {rest : List String} {items : List Item}

/-- The names that the first of the path is declared: a composite column, or a key's object. -/
def Declared (c : Compiler) (schema : Schema) (object : String) : Prop :=
  schema.isComposite schema.table object = true ∨ ∃ key, c.keyOfObject schema.table object = .ok (some key)

/-- So is a member of an object of a table's row. -/
theorem memberOfRow_table_place {names : List String} {of name : String} {sql : Sql V} {next next' : Next}
    {reading : Reading}
    (compiled : c.memberOfRow (.name names) of (object :: name :: rest) next reading = .ok (sql, next')) :
    ∀ found ∈ sql.place, 2 ≤ found.columns.length := by
  rw [memberOfRow] at compiled
  split at compiled
  case h_1 =>
    obtain ⟨column, _, compiled⟩ := bind_eq_ok.mp compiled
    obtain ⟨member, read, compiled⟩ := bind_eq_ok.mp compiled
    cases compiled
    rw [documentMember_place read]
    rintro found ⟨⟩
  case h_2 =>
    obtain ⟨key, _, compiled⟩ := bind_eq_ok.mp compiled
    cases key with
    | none =>
      obtain ⟨column, _, compiled⟩ := bind_eq_ok.mp compiled
      have composite : (Sql.group (.member (.name names : Sql V) column)).reference =
          some (.inr (.ofDotted (names ++ [column]))) := rfl
      exact memberOfRow_place composite (List.cons_ne_nil _ _) (List.cons_ne_nil _ _) compiled
    | some key =>
      obtain ⟨singular, _, compiled⟩ := bind_eq_ok.mp compiled
      obtain ⟨keys, _, compiled⟩ := bind_eq_ok.mp compiled
      obtain ⟨⟨member, after⟩, _, compiled⟩ := bind_eq_ok.mp compiled
      obtain ⟨table, _, compiled⟩ := bind_eq_ok.mp compiled
      cases compiled
      rintro found ⟨⟩

/-- A member at a path whose first name is declared is no column that names with dots can read. -/
theorem member_place {sql : Sql V} {next next' : Next} {reading : Reading} (declared : c.schema = some schema)
    (candidate : source.root = .global) (several : source.objects = object :: rest)
    (first : c.Declared schema object)
    (compiled : c.member source items next reading = .ok (sql, next')) :
    ∀ found ∈ sql.place, 2 ≤ found.columns.length := by
  simp only [member, candidate, several, declared] at compiled
  obtain ⟨key, found, compiled⟩ := bind_eq_ok.mp compiled
  have isDeclared : (key.isSome || schema.isComposite schema.table object ||
      (schema.layout schema.table object).isSome) = true := by
    obtain composite | ⟨key', found'⟩ := first
    · simp [composite]
    · obtain rfl : key = some key' := Except.ok.inj (found.symm.trans found')
      rfl
  rw [if_pos isDeclared] at compiled
  obtain ⟨row, _, compiled⟩ := bind_eq_ok.mp compiled
  rw [Path.names, several] at compiled
  cases after : rest ++ [source.name] with
  | nil => simp at after
  | cons name rest' =>
    rw [List.cons_append, after] at compiled
    exact memberOfRow_table_place compiled

/-- A path of several names from the candidate is written as names with dots. -/
theorem column_dotted {sql : Sql V} (candidate : source.root = .global) (several : source.objects = object :: rest)
    (compiled : c.column source items = .ok sql) : ∃ names, sql = .name names := by
  obtain ⟨objects, checked, compiled⟩ := bind_eq_ok.mp compiled
  obtain ⟨name, _, compiled⟩ := bind_eq_ok.mp compiled
  rw [several, List.mapM_cons] at checked
  obtain ⟨first, _, checked⟩ := bind_eq_ok.mp checked
  obtain ⟨others, _, checked⟩ := bind_eq_ok.mp checked
  cases checked
  simp only [candidate, List.isEmpty_cons, Bool.false_and, Bool.false_eq_true, if_false] at compiled
  cases compiled
  exact ⟨_, rfl⟩

/-- What a document is read from is a column of the row. -/
theorem inDocument_row {document object : Sql V} {of name : String} {layout : Layout} {names : List String}
    {member : Member} (found : inDocument document of layout names = .ok (object, name, member)) :
    object.row = document.row := by
  induction names generalizing document of layout with
  | nil => cases found
  | cons step names ih =>
    cases names with
    | nil =>
      rw [inDocument] at found
      split at found
      · cases found
        rfl
      · cases found
    | cons next names =>
      rw [inDocument] at found
      split at found
      · obtain ⟨key, _, found⟩ := bind_eq_ok.mp found
        have deeper := ih found
        exact deeper
      · cases found

/-- A null test of a collection of a document reads the text of what `any` reads the elements of. -/
theorem documentMember_collection {document object : Sql V} {of name found : String} {layout : Layout}
    {names : List String} {member : Member} {held : Items}
    (inside : inDocument document of layout names = .ok (object, name, member)) (items : member.items = some held)
    (checked : key name = .ok found) :
    documentMember document of layout names .nullTest = .ok (.group (.text object found)) := by
  simp only [documentMember, inside, ok_bind, checked]
  cases member with
  | value kind => cases items
  | object layout => cases items
  | collection layout => rfl
  | values kind => rfl

variable [ParamType V]

/-- A document's collection is where a null test of its path looks. -/
theorem existsInDocument_agrees {collection : DocumentCollection V} {predicate : Expr V} {render : Rendering V}
    {next next' : Next} {stand : Stand} {fragment : Fragment V}
    (compiled : existsInDocument collection source predicate render items next stand = .ok (fragment, next')) :
    ∃ function, fragment.sql.from' = some (.call function (.ifArray collection.array)) := by
  obtain ⟨contained, _, compiled⟩ := bind_eq_ok.mp compiled
  obtain ⟨singular, _, compiled⟩ := bind_eq_ok.mp compiled
  obtain ⟨⟨rendered, after⟩, _, compiled⟩ := bind_eq_ok.mp compiled
  cases contained with
  | none =>
    cases compiled
    exact ⟨_, rfl⟩
  | some contained =>
    cases compiled
    exact ⟨_, rfl⟩

/-- The array that `any` unnests is the place of its members exactly where none is: the path goes into a document, or
the collection is the rows of a table. -/
theorem collection_is_where_its_members_are {predicate : Expr V} {next next' : Next} {stand : Stand}
    {fragment : Fragment V} (declared : c.schema = some schema) (candidate : source.root = .global)
    (several : source.objects = object :: rest) (first : c.Declared schema object)
    (compiled : c.render (.any source predicate) items next stand = .ok (fragment, next')) :
    c.Agrees schema source items next fragment.sql ↔
      ((schema.layout schema.table object).isSome ∧ ∃ key, c.keyOfObject schema.table object = .ok key) ∨
        ((schema.layout schema.table object).isNone ∧
          ∃ key, c.keyOfCollection schema.table (".".intercalate source.names) = .ok (some key)) := by
  have compiled : c.existing source predicate (c.render predicate) items next stand = .ok (fragment, next') := compiled
  obtain ⟨collection, inside, compiled⟩ := bind_eq_ok.mp compiled
  obtain ⟨name, rest', names⟩ : ∃ name rest', source.names = object :: name :: rest' := by
    cases after : rest ++ [source.name] with
    | nil => simp at after
    | cons name rest' => exact ⟨name, rest', by rw [Path.names, several, List.cons_append, after]⟩
  obtain ⟨entered, entry, inside⟩ := bind_eq_ok.mp inside
  simp only [Compiler.entered, candidate, declared] at entry
  obtain ⟨row, isRow, entry⟩ := bind_eq_ok.mp entry
  rw [names] at entry
  cases document : schema.layout schema.table object with
  | some layout =>
    simp only [documentAt, declared, document] at entry
    obtain ⟨column, isColumn, entry⟩ := bind_eq_ok.mp entry
    cases entry
    obtain ⟨⟨inner, last, held⟩, found, inside⟩ := bind_eq_ok.mp inside
    cases items' : held.items with
    | none =>
      simp only [items'] at inside
      cases inside
    | some items'' =>
      simp only [items'] at inside
      obtain ⟨key', isKey, inside⟩ := bind_eq_ok.mp inside
      cases inside
      obtain ⟨function, from'⟩ := existsInDocument_agrees compiled
      simp only [Agrees, from', Option.isSome_some, true_and, Option.isNone_some, Bool.false_eq_true, false_and,
        or_false]
      constructor
      · rintro ⟨member', _, _, _, read, _⟩
        simp only [member, candidate, several, declared] at read
        obtain ⟨key, known, _⟩ := bind_eq_ok.mp read
        exact ⟨key, known⟩
      · rintro ⟨key, known⟩
        have read : c.member source items next .nullTest = .ok (.group (.text inner key'), next) := by
          simp only [member, candidate, several, declared, known, ok_bind, document, Option.isSome_some, Bool.or_true,
            if_true, isRow, names]
          rw [memberOfRow]
          simp only [declared, Option.bind_some, document, isColumn, ok_bind,
            documentMember_collection found items' isKey]
          rfl
        refine ⟨_, _, inner, key', read, rfl, rfl, row, ?_, ?_⟩
        · rw [inDocument_row found]
          simp [Sql.row, Sql.place, Sql.reference, Place.ofDotted]
        · simp [tables, isRow]
  | none =>
    simp only [documentAt, declared, document] at entry
    cases entry
    cases inside
    simp only [Option.isSome_none, Bool.false_eq_true, false_and, false_or, Option.isNone_none, true_and]
    obtain ⟨of, isOf, compiled⟩ := bind_eq_ok.mp compiled
    simp only [rowOf, candidate, declared, Option.map_some] at isOf
    cases isOf
    obtain ⟨relation, related, compiled⟩ := bind_eq_ok.mp compiled
    cases relation with
    | none =>
      obtain ⟨singular, _, compiled⟩ := bind_eq_ok.mp compiled
      obtain ⟨⟨rendered, after⟩, _, compiled⟩ := bind_eq_ok.mp compiled
      obtain ⟨array, isArray, compiled⟩ := bind_eq_ok.mp compiled
      obtain ⟨dotted, rfl⟩ := column_dotted candidate several isArray
      cases compiled
      constructor
      · rintro ⟨member', next', place, read, array, isPlace, _⟩
        have further := member_place declared candidate several first read place isPlace
        obtain rfl : Place.ofDotted dotted = place := Option.some.inj array
        simp [Place.ofDotted] at further
      · rintro ⟨key, known⟩
        cases related.symm.trans known
    | some key =>
      obtain ⟨singular, _, compiled⟩ := bind_eq_ok.mp compiled
      obtain ⟨⟨rendered, after⟩, _, compiled⟩ := bind_eq_ok.mp compiled
      simp only [candidate, declared] at compiled
      obtain ⟨parent, _, compiled⟩ := bind_eq_ok.mp compiled
      obtain ⟨_, _, compiled⟩ := bind_eq_ok.mp compiled
      obtain ⟨keys, _, compiled⟩ := bind_eq_ok.mp compiled
      obtain ⟨table, _, compiled⟩ := bind_eq_ok.mp compiled
      cases compiled
      exact iff_of_true trivial ⟨key, related⟩

/-- A table with a column declared a composite, and a document if it has a layout. -/
def addressed (documents : List ((String × String) × Layout)) : Schema :=
  ⟨"shops", some "s", [], [("shops", "address")], documents, []⟩

def addressTags : Path := ⟨.global, ["address"], "tags"⟩

theorem splitOn_s : "s".splitOn "." = ["s"] := by
  rw [String.splitOn, if_neg (by decide), String.splitOnAux, if_neg (by decide), if_neg (by decide),
    String.splitOnAux, if_pos (by decide)]
  rfl

theorem splitOn_tags : "tags".splitOn "." = ["tags"] := by
  rw [String.splitOn, if_neg (by decide)]
  iterate 4 rw [String.splitOnAux, if_neg (by decide), if_neg (by decide)]
  rw [String.splitOnAux, if_pos (by decide)]
  rfl

theorem qualified_s : qualified "s" = .ok ["s"] := by
  rw [qualified, splitOn_s]
  rfl

theorem singularOf_tags : singularOf "tags" = .ok "tag" := by
  rw [singularOf, splitOn_tags]
  rfl

theorem address_collection_is_where_its_members_are :
    (Compiler.mk (some (addressed [(("shops", "address"), [("tags", .values .text)])])) 0).Agrees
      (addressed [(("shops", "address"), [("tags", .values .text)])]) addressTags [] ⟨0, 0⟩
      (.existing (.call "jsonb_array_elements_text" (.ifArray (.object (.member (.name ["s"]) "address") "tags")))
        "tag_1" (.group (.collated (.name ["tag_1"]))) : Sql Value) := by
  have compiled : (Compiler.mk (some (addressed [(("shops", "address"), [("tags", .values .text)])])) 0).render
      (.any addressTags (.item 0) : Expr Value) [] ⟨0, 0⟩ .truth =
      .ok (.text (.existing (.call "jsonb_array_elements_text" (.ifArray (.object (.member (.name ["s"]) "address")
        "tags"))) "tag_1" (.group (.collated (.name ["tag_1"])))), ⟨0, 1⟩) := by
    have entered : (Compiler.mk (some (addressed [(("shops", "address"), [("tags", .values .text)])])) 0).entered
        addressTags [] = .ok (some (⟨.member (.name ["s"]) "address", "shops.address", [("tags", .values .text)],
          ["tags"], []⟩ : Entered Value)) := by
      change (do documentAt _ "shops" (.name (← qualified "s")) ["address", "tags"]) = _
      rw [qualified_s]
      rfl
    have collection : (Compiler.mk (some (addressed [(("shops", "address"), [("tags", .values .text)])])) 0
        ).documentCollection addressTags [] = .ok (some (⟨.object (.member (.name ["s"]) "address") "tags",
          "shops.address.tags", .values .text, none⟩ : DocumentCollection Value)) := by
      rw [documentCollection, entered]
      rfl
    have tag : singularOf addressTags.name = .ok "tag" := singularOf_tags
    rw [render, existing, collection, ok_bind]
    change existsInDocument _ _ _ _ _ _ _ = _
    rw [existsInDocument, tag]
    rfl
  exact (collection_is_where_its_members_are rfl rfl rfl (.inl (by decide))
    compiled).mpr (.inl ⟨rfl, none, rfl⟩)

/-- A null test looks at the member of the composite, and `any` unnests a column of a table the query does not
have. -/
theorem address_collection_elsewhere :
    (Compiler.mk (some (addressed [])) 0).render (.any addressTags (.item 0) : Expr Value) [] ⟨0, 0⟩ .truth =
      .ok (.text (.existing (.call "unnest" (.name ["address", "tags"])) "tag_1" (.name ["tag_1"])), ⟨0, 1⟩) ∧
    (Compiler.mk (some (addressed [])) 0).member (V := Value) addressTags [] ⟨0, 0⟩ .nullTest =
      .ok (.member (.group (.member (.name ["s"]) "address")) "tags", ⟨0, 0⟩) ∧
    (addressed []).isComposite (addressed []).table "address" = true ∧
    ¬ (Compiler.mk (some (addressed [])) 0).Agrees (addressed []) addressTags [] ⟨0, 0⟩
      (.existing (.call "unnest" (.name ["address", "tags"])) "tag_1" (.name ["tag_1"]) : Sql Value) := by
  have read : (Compiler.mk (some (addressed [])) 0).member (V := Value) addressTags [] ⟨0, 0⟩ .nullTest =
      .ok (.member (.group (.member (.name ["s"]) "address")) "tags", ⟨0, 0⟩) := by
    simp [member, addressTags, addressed, keyOfObject, Schema.keyNamed, Schema.keysOn, Schema.isComposite, qualified_s,
      Schema.row, Path.names, memberOfRow, Schema.layout, identifier, plain]
    rfl
  refine ⟨?_, read, rfl, ?_⟩
  · simp [render, existing, documentCollection, entered, addressTags, addressed, qualified_s, Schema.row, documentAt,
      Path.names, singularOf_tags, existsInRows, rowOf, keyOfCollection, itself, itemOut, column, identifier, plain]
    rfl
  · rintro ⟨sql, next, place, read', array, isPlace, _⟩
    cases read.symm.trans read'
    obtain rfl : Place.ofDotted ["address", "tags"] = place := Option.some.inj array
    exact absurd isPlace (by decide)

end Compiler

end AsceticDdd.Specification.Pg
