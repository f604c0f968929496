import Mathlib.Data.List.Basic

/-!
# What the compiler is told of the storage

The foreign keys, the columns of composite types, the documents and what they hold, and their indexes.
-/

namespace AsceticDdd.Specification.Pg

/-- The kind of a value in a document, and the type it is read as. -/
inductive Kind
  | bool
  | int
  | float
  | text
  | timestamp
  | date
  | uuid
deriving DecidableEq

/-- A member of an object in a document. The members of an object are in the order of their declarations. -/
inductive Member
  | value (kind : Kind)
  | object (layout : List (String × Member))
  | collection (layout : List (String × Member))
  | values (kind : Kind)

abbrev Layout := List (String × Member)

/-- The items of an array in a document. -/
inductive Items
  | objects (layout : Layout)
  | values (kind : Kind)

def Member.items : Member → Option Items
  | .collection layout => some (.objects layout)
  | .values kind => some (.values kind)
  | .value _ | .object _ => none

/-- What the member is: the last declaration of its name. -/
def Layout.member (layout : Layout) (name : String) : Option Member :=
  (layout.reverse.find? (·.1 = name)).map (·.2)

/-- A foreign key, of a column and any more. -/
structure ForeignKey where
  given : Option String
  table : String
  column : String
  referencedTable : String
  referencedColumn : String
  more : List (String × String)
deriving DecidableEq

namespace ForeignKey

def columns (key : ForeignKey) : List String := key.column :: key.more.map (·.1)

/-- The key's name: the one it was given, or the one PostgreSQL gives a key that was not. -/
def name (key : ForeignKey) : String :=
  key.given.getD ((key.table.splitOn ".").getLastD key.table ++ "_" ++ "_".intercalate key.columns ++ "_fkey")

end ForeignKey

structure Schema where
  table : String
  rowAlias : Option String
  keys : List ForeignKey
  composites : List (String × String)
  documents : List ((String × String) × Layout)
  gins : List ((String × String) × List String)

namespace Schema

variable (schema : Schema)

/-- The paths in the document at `column` of `table` that have a GIN index: the document itself is the empty one. -/
def ginsOf (table column : String) : List (List String) :=
  (schema.gins.filter (·.1 = (table, column))).map (·.2)

def layout (table column : String) : Option Layout :=
  (schema.documents.reverse.find? (·.1 = (table, column))).map (·.2)

def isComposite (table column : String) : Bool := schema.composites.any (· = (table, column))

def keyNamed (name : String) : Option ForeignKey := schema.keys.find? (·.name = name)

def keysReferencing (table referencedTable : String) : List ForeignKey :=
  schema.keys.filter fun key => key.table = table && key.referencedTable = referencedTable

def keysOn (table column : String) : List ForeignKey :=
  schema.keys.filter fun key => key.table = table && key.columns.contains column

/-- What the query calls its table's row. -/
def row : String := schema.rowAlias.getD schema.table

end Schema

end AsceticDdd.Specification.Pg
