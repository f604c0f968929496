import AsceticDdd.Specification.Pg.Pattern

/-!
# A specification as the condition of a query

Every constant becomes a numbered parameter. The count so far goes into each step, and the count after comes out
of it.
-/

namespace AsceticDdd.Specification.Pg

open ParamType

variable {V : Type}

inductive Associativity
  | left
  | right
  | non
deriving DecidableEq

namespace Precedence

/-- Of what needs no parentheses wherever it stands. -/
def atom : Nat := 255

/-- Of `::`. -/
def cast : Nat := 160

/-- Of the operators that have no row of their own in the manual's table. -/
def other : Nat := 100

def ofPrefix : Prefix → Nat
  | .neg => 140
  | .not => 60

def ofInfix : Infix → Nat × Associativity
  | .arithmetic .mul | .arithmetic .div | .arithmetic .mod => (120, .left)
  | .arithmetic .add | .arithmetic .sub => (110, .left)
  | .arithmetic .shl | .arithmetic .shr => (other, .left)
  | .comparison _ => (80, .non)
  | .is => (70, .non)
  | .logical .and => (50, .left)
  | .logical .or => (40, .left)

def ofPostfix : Postfix → Nat
  | .isNull | .isNotNull => 70

/-- Whether regrouping a run of `op` leaves its value what it was. -/
def regroups : Infix → Bool
  | .logical _ => true
  | _ => false

end Precedence

/-- Where an expression stands: where only its truth counts, or where its value does. -/
inductive Stand
  | truth
  | value
deriving DecidableEq

/-- What a member is read for: its value, or whether it is null. -/
inductive Reading
  | value
  | nullTest
deriving DecidableEq

/-- What an item of a collection is: a row of a table, an element of an array, an object or a value of a document. -/
inductive Holds
  | table
  | unnested
  | document (items : Items)

/-- The item under test: what its row is called in the query, and what it is a row of to the schema. -/
structure Item where
  rowAlias : String
  row : String
  holds : Holds

/-- A piece of the condition, and how tightly its outermost operator binds. -/
structure Fragment (V : Type) where
  sql : Sql V
  params : List V
  precedence : Nat

namespace Fragment

def text (sql : Sql V) : Fragment V := ⟨sql, [], Precedence.atom⟩

/-- This, as an operand of an operator of `precedence`. -/
def within (fragment : Fragment V) (precedence : Nat) (apart : Bool) : Fragment V :=
  if fragment.precedence < precedence || (fragment.precedence = precedence && apart) then
    { fragment with sql := .group fragment.sql, precedence := Precedence.atom }
  else fragment

/-- This, its type said if there is one to say. -/
def ofType (fragment : Fragment V) : Option String → Fragment V
  | some type => { fragment with sql := .cast fragment.sql type }
  | none => fragment

end Fragment

/-- The item `up` collections out from the item under test. -/
def itemOut (items : List Item) (up : Nat) : Except CompileError Item :=
  match items[up]? with
  | some item => .ok item
  | none => .error .noCurrentItem

/-- A text of a document, read as a kind. -/
def Kind.read (text : Sql V) : Kind → Sql V
  | .text => .group (.collated text)
  | .bool => .cast text "boolean"
  | .int => .cast text "bigint"
  | .float => .cast text "double precision"
  | .timestamp => .cast text "timestamptz"
  | .date => .cast text "date"
  | .uuid => .cast text "uuid"

/-- A member named of an item that is a value of a document. -/
def noMembers (row : String) (names : List String) : CompileError :=
  .undeclaredMember
    (row ++ "." ++ ".".intercalate names ++ ": the items of " ++ row ++ " are values, which have no members")

/-- The object of a document that the member at `names` is in, the member's name, and what the layout declares it. -/
def inDocument (document : Sql V) (of : String) (layout : Layout) :
    List String → Except CompileError (Sql V × String × Member)
  | [] => .error (.undeclaredMember (of ++ ": a path into a document names a member"))
  | [name] =>
    match layout.member name with
    | some member => .ok (document, name, member)
    | none => .error (.undeclaredMember (of ++ "." ++ name ++ " is not a member of its document's layout"))
  | step :: name :: names =>
    match layout.member step with
    | some (.object inner) => do
      let key ← key step
      inDocument (.object document key) (of ++ "." ++ step) inner (name :: names)
    | _ => .error (.undeclaredMember (of ++ "." ++ step ++ " is not an object of its document's layout"))

/-- The member at `names` of a document, read as its kind; of an object or a collection, whether it is null. -/
def documentMember (document : Sql V) (of : String) (layout : Layout) (names : List String) (reading : Reading) :
    Except CompileError (Sql V) := do
  let (object, name, member) ← inDocument document of layout names
  let text := Sql.group (.text object (← key name))
  match member, reading with
  | .value kind, _ => return kind.read text
  | _, .nullTest => return text
  | _, .value =>
    .error (.undeclaredMember
      (of ++ "." ++ ".".intercalate names ++ " is an object or a collection of its document, not a value"))

/-- A document a path goes into: the names of the path in it, and the paths in it that have a GIN index. -/
structure Entered (V : Type) where
  document : Sql V
  of : String
  layout : Layout
  names : List String
  gins : List (List String)

/-- A GIN index that serves a path into a document, and the path. -/
structure Gin (V : Type) where
  document : Sql V
  path : List String
  names : List String

/-- The deepest of `gins` on the way to `names`. -/
def Gin.serving (gins : List (List String)) (document : Sql V) (names : List String) : Option (Gin V) :=
  let deepest := (gins.filter (· <+: names)).foldl (fun best gin =>
    match best with
    | some path => if path.length ≤ gin.length then some gin else some path
    | none => some gin) none
  deepest.map fun path => ⟨document, path, names⟩

/-- An array of a document: the row its items are of, what they are, and the index on the way to it. -/
structure DocumentCollection (V : Type) where
  array : Sql V
  row : String
  items : Items
  gin : Option (Gin V)

def constant [ParamType V] (value : V) (next : Next) : Except CompileError (Fragment V × Next) :=
  if nulInText value then .error .nulInText
  else .ok (⟨.param (next.param + 1) value, [value], Precedence.atom⟩, { next with param := next.param + 1 })

/-- The item `up` collections out itself. -/
def itself (up : Nat) (items : List Item) (next : Next) : Except CompileError (Fragment V × Next) := do
  let item ← itemOut items up
  match item.holds with
  | .unnested => return (.text (.name [item.rowAlias]), next)
  | .document (.values kind) => return (.text (kind.read (.name [item.rowAlias])), next)
  | .table => .error (.notAValue ("an item of " ++ item.row ++ " is a row of a table: name its column"))
  | .document (.objects _) =>
    .error (.notAValue ("an item of " ++ item.row ++ " is an object of a document: name its member"))

/-- `left."a" = right."b"` -/
def equality (left right : Sql V) (columns : String × String) : Except CompileError (Sql V) := do
  let one ← identifier columns.1
  let other ← identifier columns.2
  return .infixed (.member left one) (.comparison .eq) (.member right other)

/-- The equalities of the columns of two rows, between `AND`. -/
def equalities (left right : Sql V) (columns : String × String) (more : List (String × String)) :
    Except CompileError (Sql V) := do
  let first ← equality left right columns
  more.foldlM (fun all columns => return .infixed all (.logical .and) (← equality left right columns)) first

/-- The type to say of the operand of a prefix operator, if it is a constant. -/
def underPrefix [ParamType V] (op : Prefix) : Expr V → Option String
  | .value value => (paramType value).or (match op with
    | .neg => some "bigint"
    | .not => none)
  | _ => none

/-- The type to say of the operand of a null test, if it is a constant. -/
def underPostfix [ParamType V] : Expr V → Option String
  | .value value => (paramType value).or (some "text")
  | _ => none

def isShift : Infix → Bool
  | .arithmetic .shl | .arithmetic .shr => true
  | _ => false

/-- Whether `right` is the count of a shift that must be said an integer. -/
def isACountToCast (op : Infix) : Expr V → Bool
  | .value _ => false
  | _ => isShift op

/-- The types to say of the operands of `op`, if both are constants. -/
def ofBoth [ParamType V] (op : Infix) : Expr V → Expr V → Option String × Option String
  | .value left, .value right =>
    let count (said : Option String) := if said = some "bigint" && isShift op then some "integer" else said
    match paramType left, paramType right, op with
    | none, none, .arithmetic _ => (some "bigint", count (some "bigint"))
    | left, right, _ => (left, count right)
  | _, _ => (none, none)

def Postfix.spelling : Postfix → String
  | .isNull => "IS NULL"
  | .isNotNull => "IS NOT NULL"

structure Compiler where
  schema : Option Schema
  offset : Nat

/-- How an operand is rendered, under the enclosing items. -/
abbrev Rendering (V : Type) := List Item → Next → Stand → Except CompileError (Fragment V × Next)

namespace Compiler

variable (c : Compiler)

/-- The key a collection named `name` in a row of `row` is joined by: none if the name is an array in the row. -/
def keyOfCollection (row name : String) : Except CompileError (Option ForeignKey) :=
  match c.schema with
  | none => .ok none
  | some schema =>
    match schema.keyNamed name with
    | some key =>
      if key.referencedTable = row then .ok (some key)
      else .error (.wrongKey ("the key " ++ name ++ " references " ++ key.referencedTable ++ ", not " ++ row))
    | none =>
      match schema.keysReferencing name row with
      | [] => .ok none
      | [key] => .ok (some key)
      | keys => .error (.ambiguousKey (name ++ " has " ++ toString keys.length ++ " keys to " ++ row ++ ": " ++
          ", ".intercalate (keys.map ForeignKey.name) ++ "; name the key"))

/-- The key an object named `name` in a row of `row` is read through: none if the name is a composite in the row. -/
def keyOfObject (row name : String) : Except CompileError (Option ForeignKey) :=
  match c.schema with
  | none => .ok none
  | some schema =>
    match schema.keyNamed name with
    | some key =>
      if key.table = row then .ok (some key)
      else .error (.wrongKey ("the key " ++ name ++ " is on " ++ key.table ++ ", not " ++ row))
    | none =>
      match schema.keysOn row name with
      | [] => .ok none
      | [key] => .ok (some key)
      | keys => .error (.ambiguousKey (name ++ " is a column of " ++ toString keys.length ++ " keys of " ++ row ++
          ": " ++ ", ".intercalate (keys.map ForeignKey.name) ++ "; name the key"))

/-- The member at `names` of the row written `row`, which is a row of `of` to the schema. An object kept in a table
of its own is read by a subquery, an object not mentioned is a composite in its row. -/
def memberOfRow (row : Sql V) (of : String) (names : List String) (next : Next) (reading : Reading) :
    Except CompileError (Sql V × Next) :=
  match names with
  | [] => .ok (row, next)
  | [name] => do return (.member row (← identifier name), next)
  | object :: name :: rest =>
    match c.schema.bind fun schema => schema.layout of object with
    | some layout => do
      let document := Sql.member row (← identifier object)
      let member ← documentMember document (of ++ "." ++ object) layout (name :: rest) reading
      return (member, next)
    | none => do
      match ← c.keyOfObject of object with
      | none =>
        let composite := Sql.group (.member row (← identifier object))
        memberOfRow composite (of ++ "." ++ object) (name :: rest) next reading
      | some key =>
        let number := next.aliases + 1
        let rowAlias := (← singularOf key.referencedTable) ++ "_" ++ toString number
        let keys ← equalities (.name [rowAlias]) row (key.referencedColumn, key.column)
          (key.more.map Prod.swap)
        let (member, next) ← memberOfRow (.name [rowAlias]) key.referencedTable (name :: rest)
          { next with aliases := number } reading
        return (.selected member (← qualified key.referencedTable) rowAlias keys, next)

/-- The path as a column reference, no object on its way looked up. -/
def column (path : Path) (items : List Item) : Except CompileError (Sql V) := do
  let objects ← path.objects.mapM identifier
  let name ← identifier path.name
  match path.root with
  | .global =>
    if objects.isEmpty && !items.isEmpty then
      match c.schema with
      | none => .error .noTable
      | some schema => return .member (.name (← qualified schema.row)) name
    else return .name (objects ++ [name])
  | .item up =>
    let rowAlias := Sql.name [(← itemOut items up).rowAlias]
    match objects with
    | [] => return .member rowAlias name
    | first :: objects => return (objects ++ [name]).foldl .member (.group (.member rowAlias first))

/-- The value of the member at `path`, as the storage has it. -/
def member (path : Path) (items : List Item) (next : Next) (reading : Reading) :
    Except CompileError (Sql V × Next) :=
  match path.root with
  | .item up => do
    let item ← itemOut items up
    match item.holds with
    | .document (.objects layout) =>
      return (← documentMember (.name [item.rowAlias]) item.row layout path.names reading, next)
    | .document (.values _) => .error (noMembers item.row path.names)
    | .table | .unnested => c.memberOfRow (.name [item.rowAlias]) item.row path.names next reading
  | .global =>
    match path.objects, c.schema with
    | object :: _, some schema => do
      if (← c.keyOfObject schema.table object).isSome || schema.isComposite schema.table object ||
          (schema.layout schema.table object).isSome then
        c.memberOfRow (.name (← qualified schema.row)) schema.table path.names next reading
      else return (← c.column path items, next)
    | _, _ => do return (← c.column path items, next)

def field (path : Path) (items : List Item) (next : Next) : Except CompileError (Fragment V × Next) := do
  let (sql, next) ← c.member path items next .value
  return (.text sql, next)

/-- Whether `operand` is a column the schema declares a composite. -/
def isCompositeColumn (operand : Expr V) (items : List Item) : Except CompileError Bool :=
  match operand, c.schema with
  | .field path, some schema => do
    let composite (of : String) : Bool := schema.isComposite (".".intercalate (of :: path.objects)) path.name
    match path.root with
    | .item up =>
      let item ← itemOut items up
      match item.holds with
      | .document _ => return false
      | .table | .unnested => return composite item.row
    | .global => return composite schema.table
  | _, _ => .ok false

/-- The words of a null test: of the value as a whole, for a column the schema declares a composite. -/
def nullTest (op : Postfix) (operand : Expr V) (items : List Item) : Except CompileError String := do
  if ← c.isCompositeColumn operand items then
    match op with
    | .isNull => return "IS NOT DISTINCT FROM NULL"
    | .isNotNull => return "IS DISTINCT FROM NULL"
  else return Postfix.spelling op

/-- The document at the first of `names`, a column of a row of `of`, as the path enters it. -/
def documentAt (of : String) (row : Sql V) : List String → Except CompileError (Option (Entered V))
  | column :: name :: rest =>
    match c.schema with
    | none => .ok none
    | some schema =>
      match schema.layout of column with
      | none => .ok none
      | some layout => do
        return some ⟨.member row (← identifier column), of ++ "." ++ column, layout, name :: rest,
          schema.ginsOf of column⟩
  | _ => .ok none

/-- The document the collection at `source` is in, if it is in one. -/
def entered (source : Path) (items : List Item) : Except CompileError (Option (Entered V)) :=
  match source.root with
  | .item up => do
    let item ← itemOut items up
    match item.holds with
    | .document (.objects layout) => return some ⟨.name [item.rowAlias], item.row, layout, source.names, []⟩
    | .document (.values _) => .error (noMembers item.row source.names)
    | .table | .unnested => c.documentAt item.row (.name [item.rowAlias]) source.names
  | .global =>
    match c.schema with
    | some schema => do c.documentAt schema.table (.name (← qualified schema.row)) source.names
    | none => .ok none

/-- The array at `source` in a document: none if `source` is not in a document. -/
def documentCollection (source : Path) (items : List Item) :
    Except CompileError (Option (DocumentCollection V)) := do
  match ← c.entered source items with
  | none => return none
  | some entered =>
    let (object, name, member) ← inDocument entered.document entered.of entered.layout entered.names
    let row := entered.of ++ "." ++ ".".intercalate entered.names
    match member.items with
    | some held =>
      return some ⟨.object object (← key name), row, held,
        Gin.serving entered.gins entered.document entered.names⟩
    | none => .error (.undeclaredMember (row ++ " is not a collection of its document's layout"))

variable [ParamType V]

/-- The equality of a member with a constant as what a document with a GIN index contains. -/
def containedIn (path : Path) (value : V) (items : List Item) : Except CompileError (Option (Gin V × Pattern V)) := do
  let entered ← match path.root, c.schema with
    | .global, some schema => do c.documentAt schema.table (.name (← qualified schema.row)) path.names
    | .global, none => .ok none
    | .item up, _ => do
      let item ← itemOut items up
      match item.holds with
      | .document _ => .ok none
      | .table | .unnested => c.documentAt item.row (.name [item.rowAlias]) path.names
  return entered.bind fun entered =>
    (Gin.serving entered.gins entered.document entered.names).bind fun gin =>
      (Pattern.equal entered.layout entered.names.dropLast (entered.names.getLastD "") value).map fun pattern =>
        (gin, pattern)

/-- `left = right` as what a document with a GIN index contains, if it is one. -/
def contained (left right : Expr V) (items : List Item) : Except CompileError (Option (Gin V × Pattern V)) :=
  match left, right with
  | .field path, .value value | .value value, .field path => c.containedIn path value items
  | _, _ => .ok none

/-- `left = right` written as containment, where it is one. -/
def containment (left right : Expr V) (items : List Item) (next : Next) :
    Except CompileError (Option (Fragment V × Next)) := do
  match ← c.contained left right items with
  | none => return none
  | some (gin, pattern) =>
    match ← pattern.containing gin.document gin.path next with
    | none => return none
    | some (sql, params, next) => return some (⟨sql, params, Precedence.other⟩, next)

def prefixed (op : Prefix) (operand : Expr V) (render : Rendering V) (items : List Item) (next : Next) :
    Except CompileError (Fragment V × Next) := do
  let precedence := Precedence.ofPrefix op
  let (rendered, next) ← render items next .value
  let rendered := rendered.ofType (underPrefix op operand)
  -- `NOT NOT a` reads as it should; `--a` reads as a comment.
  let doubled := op = .neg && rendered.precedence = precedence
  let rendered := rendered.within precedence doubled
  return ({ rendered with sql := .prefixed op rendered.sql, precedence := precedence }, next)

def postfixed (operand : Expr V) (op : Postfix) (render : Rendering V) (items : List Item) (next : Next) :
    Except CompileError (Fragment V × Next) := do
  let precedence := Precedence.ofPostfix op
  let test ← c.nullTest op operand items
  let (rendered, next) ← match operand with
    | .field path => do
      let (sql, next) ← c.member path items next .nullTest
      pure (Fragment.text sql, next)
    | _ => render items next .value
  let rendered := rendered.ofType (underPostfix operand)
  let rendered := rendered.within precedence true
  return ({ rendered with sql := .tested rendered.sql test, precedence := precedence }, next)

/-- `left op right`, each operand as it is rendered. -/
def between (left : Expr V) (op : Infix) (right : Expr V) (renderLeft renderRight : Rendering V)
    (items : List Item) (next : Next) (stand : Stand) : Except CompileError (Fragment V × Next) := do
  let (precedence, associativity) := Precedence.ofInfix op
  let apart (side : Associativity) := associativity ≠ side && !Precedence.regroups op
  let (ofLeft, ofRight) := ofBoth op left right
  -- The operands of `AND` and `OR` stand where the connective does.
  let operands := match op with
    | .logical _ => stand
    | _ => .value
  let (one, next) ← renderLeft items next operands
  let (other, next) ← renderRight items next operands
  let one := one.ofType ofLeft
  let other :=
    if isACountToCast op right then (other.within Precedence.cast false).ofType (some "integer")
    else other.ofType ofRight
  let one := one.within precedence (apart .left)
  let other := other.within precedence (apart .right)
  return (⟨.infixed one.sql op other.sql, one.params ++ other.params, precedence⟩, next)

def infixed (left : Expr V) (op : Infix) (right : Expr V) (renderLeft renderRight : Rendering V)
    (items : List Item) (next : Next) (stand : Stand) : Except CompileError (Fragment V × Next) := do
  if stand = .truth && op = .comparison .eq then
    match ← c.containment left right items next with
    | some contained => return contained
    | none => between left op right renderLeft renderRight items next stand
  else between left op right renderLeft renderRight items next stand

/-- What a document with a GIN index contains if an item of its collection satisfies the predicate. -/
def containedBeside (collection : DocumentCollection V) (predicate : Expr V) (next : Next) (stand : Stand) :
    Except CompileError (Option (Sql V × List V × Next)) :=
  match stand, collection.gin with
  | .truth, some gin =>
    match Pattern.ofArray gin.names.dropLast (gin.names.getLastD "")
        (Pattern.elements predicate collection.items) with
    | some pattern => pattern.containing gin.document gin.path next
    | none => .ok none
  | _, _ => .ok none

def elementsFunction : Items → String
  | .objects _ => "jsonb_array_elements"
  | .values _ => "jsonb_array_elements_text"

/-- `EXISTS` over an array of a document, and beside it, where only its truth counts, what the document contains if
it is true. -/
def existsInDocument (collection : DocumentCollection V) (source : Path) (predicate : Expr V)
    (render : Rendering V) (items : List Item) (next : Next) (stand : Stand) :
    Except CompileError (Fragment V × Next) := do
  let contained ← containedBeside collection predicate next stand
  let next := match contained with
    | some (_, _, next) => next
    | none => next
  let number := next.aliases + 1
  let inner : Item :=
    ⟨(← singularOf source.name) ++ "_" ++ toString number, collection.row, .document collection.items⟩
  let (rendered, next) ← render (inner :: items) { next with aliases := number } .truth
  let sql := Sql.existing (.call (elementsFunction collection.items) (.ifArray collection.array)) inner.rowAlias
    rendered.sql
  match contained with
  | none => return (⟨sql, rendered.params, Precedence.atom⟩, next)
  | some (contains, params, _) =>
    return (⟨.infixed contains (.logical .and) sql, params ++ rendered.params,
      (Precedence.ofInfix (.logical .and)).1⟩, next)

/-- The row the collection at `source` is of, to the schema: none without one. -/
def rowOf (source : Path) (items : List Item) : Except CompileError (Option String) :=
  match source.root with
  | .item up => do return some (← itemOut items up).row
  | .global => .ok (c.schema.map Schema.table)

/-- `EXISTS` over an array of the parent's row, or over the rows of a table that point at the parent. -/
def existsInRows (source : Path) (render : Rendering V) (items : List Item) (next : Next) :
    Except CompileError (Fragment V × Next) := do
  let of ← c.rowOf source items
  let name := ".".intercalate source.names
  let relation ← match of with
    | some of => c.keyOfCollection of name
    | none => .ok none
  let number := next.aliases + 1
  let next := { next with aliases := number }
  match relation with
  | none =>
    let inner : Item :=
      ⟨(← singularOf source.name) ++ "_" ++ toString number, of.getD "" ++ "." ++ name, .unnested⟩
    let (rendered, next) ← render (inner :: items) next .truth
    let sql := Sql.existing (.call "unnest" (← c.column source items)) inner.rowAlias rendered.sql
    return (⟨sql, rendered.params, Precedence.atom⟩, next)
  | some key =>
    let inner : Item := ⟨(← singularOf key.table) ++ "_" ++ toString number, key.table, .table⟩
    let (rendered, next) ← render (inner :: items) next .truth
    let parent ← match source.root, c.schema with
      | .item up, _ => do pure (Sql.name [(← itemOut items up).rowAlias])
      | .global, some schema => do pure (.name (← qualified schema.row))
      | .global, none => pure (.name [])
    let keys ← equalities (.name [inner.rowAlias]) parent (key.column, key.referencedColumn) key.more
    -- The predicate is an operand of the `AND` after the keys.
    let rendered := rendered.within (Precedence.ofInfix (.logical .and)).1 false
    let sql := Sql.existing (.name (← qualified key.table)) inner.rowAlias
      (.infixed keys (.logical .and) rendered.sql)
    return (⟨sql, rendered.params, Precedence.atom⟩, next)

def existing (source : Path) (predicate : Expr V) (render : Rendering V) (items : List Item) (next : Next)
    (stand : Stand) : Except CompileError (Fragment V × Next) := do
  match ← c.documentCollection source items with
  | some collection => existsInDocument collection source predicate render items next stand
  | none => c.existsInRows source render items next

/-- The text of a tree, and the count after it. -/
def render : Expr V → Rendering V
  | .value value, _, next, _ => constant value next
  | .field path, items, next, _ => c.field path items next
  | .item up, items, next, _ => itself up items next
  | .prefixed op operand, items, next, _ => prefixed op operand (render operand) items next
  | .postfixed operand op, items, next, _ => c.postfixed operand op (render operand) items next
  | .infixed left op right, items, next, stand =>
    c.infixed left op right (render left) (render right) items next stand
  | .any source predicate, items, next, stand =>
    c.existing source predicate (render predicate) items next stand

/-- A condition and its parameters. -/
structure Query (V : Type) where
  sql : Sql V
  params : List V

def compile (specification : Expr V) : Except CompileError (Query V) := do
  let (fragment, _) ← c.render specification [] ⟨c.offset, 0⟩ .truth
  return ⟨fragment.sql, fragment.params⟩

end Compiler

end AsceticDdd.Specification.Pg
