import AsceticDdd.Specification.Pg.Identifier
import AsceticDdd.Specification.Pg.Schema
import AsceticDdd.Specification.Pg.Sql
import AsceticDdd.Specification.Value

/-!
# Equalities as what a document contains

An equality on a member of a document is written as containment where an index serves it, and an `any` over a
collection of a document has the equalities of its predicate beside it.
-/

namespace AsceticDdd.Specification.Pg

variable {V : Type}

/-- What PostgreSQL calls the type of a value, by its kind, and whether it is a text with a NUL in it. -/
class ParamType (V : Type) where
  paramType : V → Option String
  nulInText : V → Bool

open ParamType

instance : ParamType Value where
  paramType
    | .null => none
    | .bool _ => some "boolean"
    | .int _ => some "bigint"
    | .float _ => some "double precision"
    | .text _ => some "text"
    | .timestamp _ => some "timestamptz"
    | .date _ => some "date"
    | .interval _ => some "interval"
    | .uuid _ => some "uuid"
  nulInText
    | .text text => text.toList.contains '\x00'
    | _ => false

/-- How many parameters and aliases have been numbered so far. -/
structure Next where
  param : Nat
  aliases : Nat
deriving DecidableEq

/-- A kind with one spelling in JSON. -/
inductive Spelled
  | text
  | int
  | bool
deriving DecidableEq

def Spelled.of : Kind → Option Spelled
  | .text => some .text
  | .int => some .int
  | .bool => some .bool
  | .float | .timestamp | .date | .uuid => none

/-- What a member of a document is asked to contain: a constant, an object, or an array. -/
inductive Contained (V : Type)
  | constant (spelled : Spelled) (value : V)
  | object (members : List (String × Contained V))
  | array (items : List (Contained V))

/-- The members asked for, each by its name. -/
abbrev Pattern (V : Type) := List (String × Contained V)

namespace Pattern

def of (name : String) (member : Contained V) : Pattern V := [(name, member)]

/-- `pattern` at the end of the objects `objects`. -/
def nested (objects : List String) (pattern : Pattern V) : Pattern V :=
  objects.foldr (fun object inner => of object (.object inner)) pattern

/-- `theirs` at `name`, joined with the member of that name, or after the others. -/
def add (name : String) (theirs : Contained V) (join : Contained V → Contained V) : Pattern V → Pattern V
  | [] => [(name, theirs)]
  | (ours, member) :: rest => if ours = name then (ours, join member) :: rest else (ours, member) :: add name theirs join rest

end Pattern

mutual

/-- What contains both: of two constants, as of a constant and an object, the first is kept. -/
def Contained.and : Contained V → Contained V → Contained V
  | .object mine, .object yours => .object (Pattern.and mine yours)
  | .array mine, .array yours => .array (mine ++ yours)
  | mine, _ => mine

def Pattern.and : Pattern V → Pattern V → Pattern V
  | mine, [] => mine
  | mine, (name, theirs) :: yours =>
    Pattern.and (Pattern.add name theirs (fun ours => Contained.and ours theirs) mine) yours

end

/-- The layout at the end of the objects `objects`. -/
def Layout.within (layout : Layout) : List String → Option Layout
  | [] => some layout
  | object :: objects =>
    match layout.member object with
    | some (.object inner) => Layout.within inner objects
    | _ => none

variable [ParamType V]

namespace Pattern

/-- The member at `objects` and `name` of an object that holds what `layout` says, equal to `value`. -/
def equal (layout : Layout) (objects : List String) (name : String) (value : V) : Option (Pattern V) := do
  let layout ← layout.within objects
  match ← layout.member name with
  | .value kind =>
    let spelled ← Spelled.of kind
    let _ ← paramType value
    return nested objects (of name (.constant spelled value))
  | _ => none

/-- An object that contains, at `objects` and `name`, an array that contains `elements`: none if there are none. -/
def ofArray (objects : List String) (name : String) (elements : List (Contained V)) : Option (Pattern V) :=
  if elements.isEmpty then none else some (nested objects (of name (.array elements)))

/-- The constants that a predicate, by `AND`, says the item itself is equal to. -/
def constants (spelled : Spelled) : Expr V → List (Contained V)
  | .infixed left (.logical .and) right => constants spelled left ++ constants spelled right
  | .infixed (.item 0) (.comparison .eq) (.value value) | .infixed (.value value) (.comparison .eq) (.item 0) =>
    if (paramType value).isSome then [.constant spelled value] else []
  | _ => []

/-- What an array of `items` contains when one of them satisfies `predicate`, which says `item` of an object. -/
def elementsBy (item : Layout → Pattern V) (predicate : Expr V) : Items → List (Contained V)
  | .objects layout => if (item layout).isEmpty then [] else [.object (item layout)]
  | .values kind =>
    match Spelled.of kind with
    | some spelled => constants spelled predicate
    | none => []

/-- What an object that holds what `layout` says contains when an item of its collection at `source` satisfies a
predicate. -/
def ofCollection (layout : Layout) (source : Path) (elements : Items → List (Contained V)) : Pattern V :=
  match (layout.within source.objects).bind (fun layout => (layout.member source.name).bind Member.items) with
  | some items => (ofArray source.objects source.name (elements items)).getD []
  | none => []

/-- What an object that holds what `layout` says contains when a predicate is true of it as an item: the equalities
of its members that `AND` joins, and those of its own collections' items. -/
def ofItem : Expr V → Layout → Pattern V
  | .infixed left (.logical .and) right, layout => (ofItem left layout).and (ofItem right layout)
  | .infixed (.field path) (.comparison .eq) (.value value), layout
  | .infixed (.value value) (.comparison .eq) (.field path), layout =>
    if path.root = .item 0 then (equal layout path.objects path.name value).getD [] else []
  | .any source predicate, layout =>
    if source.root = .item 0 then ofCollection layout source (elementsBy (ofItem predicate) predicate) else []
  | _, _ => []

def elements (predicate : Expr V) : Items → List (Contained V) := elementsBy (ofItem predicate) predicate

omit [ParamType V] in
/-- What the pattern asks of the value at a path, where it asks nothing beside it on the way there. -/
def atPath : Pattern V → List String → Option (Contained V)
  | [(member, contained)], [name] => if member = name then some contained else none
  | [(member, .object inner)], name :: rest => if member = name then atPath inner rest else none
  | _, _ => none

end Pattern

/-- The entries of an object between `||`, parenthesised where there are several. -/
def entries : List (Sql V) → Sql V
  | [] => .name []
  | [entry] => entry
  | first :: second :: rest => .group ((second :: rest).foldl .joined first)

/-- `value` as the next parameter. -/
def parameter (value : V) (next : Next) : Except CompileError (Sql V × Next) :=
  if nulInText value then .error .nulInText
  else .ok (.param (next.param + 1) value, { next with param := next.param + 1 })

mutual

/-- This as a `jsonb` value, its constants as parameters. -/
def Contained.json : Contained V → Next → Except CompileError (Sql V × List V × Next)
  | .constant spelled value, next => do
    let (param, next) ← parameter value next
    let json := match spelled with
      | .text => .group (.object (.jsonbObject "v" (.cast param "text")) "v")
      | .int => .cast (.cast (.cast param "bigint") "text") "jsonb"
      | .bool => .cast (.cast (.cast param "boolean") "text") "jsonb"
    return (json, [value], next)
  | .object members, next => do
    let (written, params, next) ← Pattern.members members next
    return (entries written, params, next)
  | .array items, next => do
    let (written, params, next) ← Contained.items items next
    return (written.foldl .joined .emptyArray, params, next)

def Contained.items : List (Contained V) → Next → Except CompileError (List (Sql V) × List V × Next)
  | [], next => .ok ([], [], next)
  | item :: rest, next => do
    let (item, params, next) ← Contained.json item next
    let (rest, more, next) ← Contained.items rest next
    return (item :: rest, params ++ more, next)

/-- `jsonb_object` of a text member, `jsonb_set` of an empty object with any other. -/
def Pattern.members : Pattern V → Next → Except CompileError (List (Sql V) × List V × Next)
  | [], next => .ok ([], [], next)
  | (name, .constant .text value) :: rest, next => do
    let key ← key name
    let (param, next) ← parameter value next
    let (rest, more, next) ← Pattern.members rest next
    return (.jsonbObject key (.cast param "text") :: rest, value :: more, next)
  | (name, member) :: rest, next => do
    let key ← key name
    let (value, params, next) ← Contained.json member next
    let (rest, more, next) ← Pattern.members rest next
    return (.jsonbSet key value :: rest, params ++ more, next)

end

/-- The condition that `document` contains the pattern: of the document itself, or of the value at `path` in it. -/
def Pattern.containing (pattern : Pattern V) (document : Sql V) (path : List String) (next : Next) :
    Except CompileError (Option (Sql V × List V × Next)) :=
  if path.isEmpty then do
    let (json, params, next) ← Contained.json (.object pattern) next
    return some (.contains document json, params, next)
  else match pattern.atPath path with
    | none => .ok none
    | some contained => do
      let (json, params, next) ← contained.json next
      let value ← path.foldlM (fun value name => return .object value (← key name)) document
      return some (.contains (.group value) (.group json), params, next)

end AsceticDdd.Specification.Pg
