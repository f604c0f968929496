import AsceticDdd.Specification.Pg.Counted

/-!
# The constants of a text

In the order of the text they are those of the tree, and before those of a collection whose document has an index, the
ones the document contains. What the rows of a query are called decides none of it.
-/

namespace AsceticDdd.Specification.Pg

open Control ParamType

variable {V : Type} {c : Compiler} {items : List Item}

/-- The item, whatever its row is called. -/
def Item.unnamed (item : Item) : Item := { item with rowAlias := "" }

def Entered.bare (entered : Entered V) : Entered V := { entered with document := .emptyArray }

def Gin.bare (gin : Gin V) : Gin V := { gin with document := .emptyArray }

/-- A collection, whatever the texts of its array and of its document are. -/
def DocumentCollection.bare (collection : DocumentCollection V) : DocumentCollection V :=
  { collection with array := .emptyArray, gin := collection.gin.map Gin.bare }

/-! ## Whatever the rows are called -/

theorem itemOut_unnamed (up : Nat) : itemOut (items.map Item.unnamed) up = (itemOut items up).map Item.unnamed := by
  unfold itemOut
  rw [List.getElem?_map]
  cases items[up]? <;> rfl

theorem documentAt_bare (of : String) (row row' : Sql V) (names : List String) :
    (c.documentAt of row names).map (Option.map Entered.bare) =
      (c.documentAt of row' names).map (Option.map Entered.bare) := by
  obtain _ | ⟨column, _ | ⟨name, rest⟩⟩ := names
  · rfl
  · rfl
  · simp only [Compiler.documentAt]
    cases c.schema with
    | none => rfl
    | some schema =>
      cases hlayout : schema.layout of column with
      | none => simp only [hlayout]
      | some layout =>
        simp only [hlayout]
        cases identifier column <;> rfl

theorem entered_bare (c : Compiler) (items : List Item) (source : Path) :
    (c.entered source (items.map Item.unnamed)).map (Option.map (Entered.bare (V := V))) =
      (c.entered source items).map (Option.map Entered.bare) := by
  unfold Compiler.entered
  split
  · rename_i up _
    rw [itemOut_unnamed]
    cases itemOut items up with
    | error error => rfl
    | ok item =>
      obtain ⟨rowAlias, row, holds⟩ := item
      cases holds with
      | document held => cases held <;> rfl
      | table => exact documentAt_bare row _ _ source.names
      | unnested => exact documentAt_bare row _ _ source.names
  · rfl

theorem inDocument_member (document document' : Sql V) (of : String) (layout : Layout) (names : List String) :
    (inDocument document of layout names).map Prod.snd = (inDocument document' of layout names).map Prod.snd := by
  induction names generalizing document document' of layout with
  | nil => rfl
  | cons step names ih =>
    obtain _ | ⟨name, names⟩ := names
    · simp only [inDocument]
      cases layout.member step <;> rfl
    · simp only [inDocument]
      obtain _ | _ | inner | _ | _ := layout.member step
      · rfl
      · rfl
      · cases key step with
        | error error => rfl
        | ok key => exact ih _ _ _ _
      · rfl
      · rfl

/-- The collection a path enters a document for. -/
def Entered.collection (entered : Entered V) : Except CompileError (Option (DocumentCollection V)) := do
  let (object, name, member) ← inDocument entered.document entered.of entered.layout entered.names
  let row := entered.of ++ "." ++ ".".intercalate entered.names
  match member.items with
  | some held =>
    return some ⟨.object object (← key name), row, held, Gin.serving entered.gins entered.document entered.names⟩
  | none => .error (.undeclaredMember (row ++ " is not a collection of its document's layout"))

theorem serving_bare (gins : List (List String)) (document document' : Sql V) (names : List String) :
    (Gin.serving gins document names).map Gin.bare = (Gin.serving gins document' names).map Gin.bare := by
  simp only [Gin.serving, Option.map_map]
  rfl

theorem collection_bare {entered entered' : Entered V} (h : entered.bare = entered'.bare) :
    entered.collection.map (Option.map DocumentCollection.bare) =
      entered'.collection.map (Option.map DocumentCollection.bare) := by
  obtain ⟨document, of, layout, names, gins⟩ := entered
  obtain ⟨document', of', layout', names', gins'⟩ := entered'
  cases h
  have hmember := inDocument_member document document' of layout names
  simp only [Entered.collection]
  cases hleft : inDocument document of layout names with
  | error error =>
    cases hright : inDocument document' of layout names <;> rw [hleft, hright] at hmember <;> cases hmember
    rfl
  | ok left =>
    cases hright : inDocument document' of layout names with
    | error error =>
      rw [hleft, hright] at hmember
      cases hmember
    | ok right =>
      obtain ⟨object, name, member⟩ := left
      obtain ⟨object', name', member'⟩ := right
      rw [hleft, hright] at hmember
      cases hmember
      simp only [ok_bind]
      cases member.items with
      | none => rfl
      | some held =>
        cases key name with
        | error error => rfl
        | ok key =>
          have hserving := serving_bare gins document document' names
          simp only [ok_bind, pure, Except.pure, Except.map, Option.map_some, DocumentCollection.bare, hserving]

/-- What a collection holds and which index serves it hang on no alias. -/
theorem documentCollection_bare (c : Compiler) (items : List Item) (source : Path) :
    (c.documentCollection source (items.map Item.unnamed)).map (Option.map (DocumentCollection.bare (V := V))) =
      (c.documentCollection source items).map (Option.map DocumentCollection.bare) := by
  have hentered := entered_bare (V := V) c items source
  have hcut : ∀ items, c.documentCollection (V := V) source items =
      (c.entered source items).bind fun entered => entered.elim (.ok none) Entered.collection := by
    intro items
    unfold Compiler.documentCollection
    refine bind_congr fun entered => ?_
    cases entered <;> rfl
  rw [hcut, hcut]
  cases hleft : c.entered (V := V) source (items.map Item.unnamed) with
  | error error =>
    cases hright : c.entered (V := V) source items <;> rw [hleft, hright] at hentered <;> cases hentered
    rfl
  | ok left =>
    cases hright : c.entered (V := V) source items with
    | error error =>
      rw [hleft, hright] at hentered
      cases hentered
    | ok right =>
      rw [hleft, hright] at hentered
      have hbare : left.map Entered.bare = right.map Entered.bare := Except.ok.inj hentered
      cases left with
      | none =>
        cases right with
        | none => rfl
        | some right => cases hbare
      | some left =>
        cases right with
        | none => cases hbare
        | some right => exact collection_bare (Option.some.inj hbare)

theorem rowOf_unnamed (source : Path) : c.rowOf source (items.map Item.unnamed) = c.rowOf source items := by
  unfold Compiler.rowOf
  split
  · rw [itemOut_unnamed]
    cases itemOut items _ <;> rfl
  · rfl

/-! ## In the order of the text -/

variable [ParamType V]

namespace Compiler

/-- The constants that the document of a collection is asked to contain, where an index serves it. -/
def beside (collection : DocumentCollection V) (predicate : Expr V) (stand : Stand) : List V :=
  match stand, collection.gin with
  | .truth, some gin =>
    let elements := Pattern.elements predicate collection.items
    match Pattern.ofArray gin.names.dropLast (gin.names.getLastD "") elements with
    | some pattern =>
      if gin.path.isEmpty || (pattern.atPath gin.path).isSome then Contained.constantsOf elements else []
    | none => []
  | _, _ => []

omit [ParamType V] in
/-- The item under test of the collection at `source`, whatever its row is called. -/
def itemOf (c : Compiler) (source : Path) (items : List Item) :
    Option (DocumentCollection V) → Except CompileError Item
  | some collection => .ok ⟨"", collection.row, .document collection.items⟩
  | none => do
    let of ← c.rowOf source items
    let name := ".".intercalate source.names
    let relation ← match of with
      | some of => c.keyOfCollection of name
      | none => .ok none
    match relation with
    | none => return ⟨"", of.getD "" ++ "." ++ name, .unnested⟩
    | some key => return ⟨"", key.table, .table⟩

/-- Where the operands stand: those of `AND` and `OR` where the connective does. -/
def operandsOf (op : Infix) (stand : Stand) : Stand :=
  match op with
  | .logical _ => stand
  | _ => .value

/-- The constants of a tree where it stands so, under the items. -/
def constants (c : Compiler) : Expr V → List Item → Stand → Except CompileError (List V)
  | .value value, _, _ => .ok [value]
  | .field _, _, _ | .item _, _, _ => .ok []
  | .prefixed _ operand, items, _ | .postfixed operand _, items, _ => constants c operand items .value
  | .infixed left op right, items, stand => do
    return (← constants c left items (operandsOf op stand)) ++ (← constants c right items (operandsOf op stand))
  | .any source predicate, items, stand => do
    let collection ← c.documentCollection source items
    let item ← c.itemOf source items collection
    return collection.elim [] (beside · predicate stand) ++ (← constants c predicate (item :: items) .truth)

theorem constants_infixed {left right : Expr V} {op : Infix} {stand : Stand} {values values' : List V}
    (h : c.constants left items (operandsOf op stand) = .ok values)
    (h' : c.constants right items (operandsOf op stand) = .ok values') :
    c.constants (.infixed left op right) items stand = .ok (values ++ values') := by
  rw [constants, h, h']
  rfl

theorem beside_bare (collection : DocumentCollection V) (predicate : Expr V) (stand : Stand) :
    beside collection.bare predicate stand = beside collection predicate stand := by
  obtain ⟨array, row, held, gin⟩ := collection
  cases stand <;> cases gin <;> rfl

theorem beside_subset (collection : DocumentCollection V) (predicate : Expr V) (stand : Stand) :
    beside collection predicate stand ⊆ predicate.values := by
  unfold beside
  dsimp only
  split
  · split
    · split
      · exact constantsOf_elementsBy (constantsOf_ofItem predicate) collection.items
      · exact List.nil_subset _
    · exact List.nil_subset _
  · exact List.nil_subset _

/-- The constants under a collection found under the items as they are called. -/
theorem constants_any {source : Path} {predicate : Expr V} {stand : Stand} {found : Option (DocumentCollection V)}
    (h : c.documentCollection source items = .ok found) :
    c.constants (.any source predicate) (items.map Item.unnamed) stand = (do
      let item ← c.itemOf source items found
      return found.elim [] (beside · predicate stand) ++
        (← c.constants predicate (item :: items.map Item.unnamed) .truth)) := by
  have hbare := documentCollection_bare (V := V) c items source
  rw [h] at hbare
  rw [constants]
  cases hother : c.documentCollection (V := V) source (items.map Item.unnamed) with
  | error error =>
    rw [hother] at hbare
    cases hbare
  | ok other =>
    rw [hother] at hbare
    have hsame : other.map DocumentCollection.bare = found.map DocumentCollection.bare := Except.ok.inj hbare
    cases other with
    | none =>
      cases found with
      | none => simp only [ok_bind, itemOf, rowOf_unnamed]
      | some found => cases hsame
    | some other =>
      cases found with
      | none => cases hsame
      | some found =>
        have hsame : other.bare = found.bare := Option.some.inj hsame
        have hrow : other.row = found.row := show other.bare.row = found.bare.row by rw [hsame]
        have hitems : other.items = found.items := show other.bare.items = found.bare.items by rw [hsame]
        have hbeside : beside other predicate stand = beside found predicate stand := by
          rw [← beside_bare, hsame, beside_bare]
        simp only [ok_bind, itemOf, hrow, hitems, Option.elim_some, hbeside]

/-- The constants written are those of the tree. -/
theorem mem_constants {expr : Expr V} {stand : Stand} {values : List V} (h : c.constants expr items stand = .ok values)
    (value : V) : value ∈ values ↔ value ∈ expr.values := by
  induction expr generalizing items stand values with
  | value | field | item =>
    cases h
    rfl
  | prefixed op operand ih => exact ih h
  | postfixed operand op ih => exact ih h
  | infixed left op right ihl ihr =>
    obtain ⟨first, hfirst, h⟩ := bind_eq_ok.mp h
    obtain ⟨second, hsecond, h⟩ := bind_eq_ok.mp h
    cases h
    rw [List.mem_append, ihl hfirst, ihr hsecond, Expr.values, List.mem_append]
  | any source predicate ih =>
    obtain ⟨found, _, h⟩ := bind_eq_ok.mp h
    obtain ⟨item, _, h⟩ := bind_eq_ok.mp h
    obtain ⟨inner, hinner, h⟩ := bind_eq_ok.mp h
    cases h
    rw [List.mem_append, ih hinner]
    refine or_iff_right_of_imp fun hmem => ?_
    cases found with
    | none => exact absurd hmem List.not_mem_nil
    | some collection => exact beside_subset collection predicate stand hmem

end Compiler

end AsceticDdd.Specification.Pg
