import AsceticDdd.Specification.Ast

/-!
# The text of a query

A text is kept by its parts. A placeholder keeps the constant it stands for, which the text does not have.
-/

namespace AsceticDdd.Specification.Pg

variable {V W : Type}

def Comparison.spelling : Comparison → String
  | .eq => "="
  | .ne => "!="
  | .gt => ">"
  | .lt => "<"
  | .ge => ">="
  | .le => "<="

def Logical.spelling : Logical → String
  | .and => "AND"
  | .or => "OR"

def Arithmetic.spelling : Arithmetic → String
  | .add => "+"
  | .sub => "-"
  | .mul => "*"
  | .div => "/"
  | .mod => "%"
  | .shl => "<<"
  | .shr => ">>"

def spelling : Infix → String
  | .comparison op => Comparison.spelling op
  | .is => "IS NOT DISTINCT FROM"
  | .logical op => Logical.spelling op
  | .arithmetic op => Arithmetic.spelling op

inductive Sql (V : Type)
  | param (number : Nat) (constant : V)
  /-- `"a"."b"` -/
  | name (parts : List String)
  /-- `row."column"` -/
  | member (row : Sql V) (column : String)
  | group (inner : Sql V)
  | cast (inner : Sql V) (type : String)
  | collated (inner : Sql V)
  /-- `inner -> 'key'` -/
  | object (inner : Sql V) (key : String)
  /-- `inner ->> 'key'` -/
  | text (inner : Sql V) (key : String)
  | prefixed (op : Prefix) (operand : Sql V)
  | infixed (left : Sql V) (op : Infix) (right : Sql V)
  | tested (operand : Sql V) (test : String)
  | contains (document pattern : Sql V)
  | joined (left right : Sql V)
  | emptyArray
  | jsonbObject (key : String) (value : Sql V)
  | jsonbSet (key : String) (value : Sql V)
  | ifArray (array : Sql V)
  | call (function : String) (argument : Sql V)
  /-- `EXISTS (SELECT 1 FROM source AS alias WHERE condition)` -/
  | existing (source : Sql V) (rowAlias : String) (condition : Sql V)
  /-- `(SELECT value FROM table AS alias WHERE keys)` -/
  | selected (value : Sql V) (table : List String) (rowAlias : String) (keys : Sql V)

/-- A piece of the text. -/
inductive Piece
  | word (text : String)
  | param (number : Nat)
  | identifier (name : String)
  | key (name : String)
deriving DecidableEq

/-- `name` between double quotes, a double quote of its own written twice. -/
def quoted (name : String) : String :=
  "\"" ++ .ofList (name.toList.flatMap fun c => if c = '"' then ['"', '"'] else [c]) ++ "\""

def Piece.text : Piece → String
  | .word text => text
  | .param number => "$" ++ toString number
  | .identifier name => quoted name
  | .key name => "'" ++ name ++ "'"

namespace Sql

def dotted (parts : List String) : List Piece := [.word "."].intercalate (parts.map fun part => [.identifier part])

def pieces : Sql V → List Piece
  | .param number _ => [.param number]
  | .name parts => dotted parts
  | .member row column => row.pieces ++ [.word ".", .identifier column]
  | .group inner => .word "(" :: inner.pieces ++ [.word ")"]
  | .cast inner type => inner.pieces ++ [.word ("::" ++ type)]
  | .collated inner => inner.pieces ++ [.word " COLLATE ", .identifier "C"]
  | .object inner key => inner.pieces ++ [.word " -> ", .key key]
  | .text inner key => inner.pieces ++ [.word " ->> ", .key key]
  | .prefixed .not operand => .word "NOT " :: operand.pieces
  | .prefixed .neg operand => .word "-" :: operand.pieces
  | .infixed left op right => left.pieces ++ .word (" " ++ spelling op ++ " ") :: right.pieces
  | .tested operand test => operand.pieces ++ [.word (" " ++ test)]
  | .contains document pattern => document.pieces ++ .word " @> " :: pattern.pieces
  | .joined left right => left.pieces ++ .word " || " :: right.pieces
  | .emptyArray => [.word "'[]'::jsonb"]
  | .jsonbObject key value =>
    .word "jsonb_object(ARRAY[" :: .key key :: .word "], ARRAY[" :: value.pieces ++ [.word "])"]
  | .jsonbSet key value =>
    .word "jsonb_set('\x7b\x7d'::jsonb, ARRAY[" :: .key key :: .word "], " :: value.pieces ++ [.word ")"]
  | .ifArray array =>
    .word "CASE WHEN jsonb_typeof(" :: array.pieces ++ .word ") = 'array' THEN " :: array.pieces ++ [.word " END"]
  | .call function argument => .word (function ++ "(") :: argument.pieces ++ [.word ")"]
  | .existing source rowAlias condition =>
    .word "EXISTS (SELECT 1 FROM " :: source.pieces ++ .word " AS " :: .identifier rowAlias :: .word " WHERE " ::
      condition.pieces ++ [.word ")"]
  | .selected value table rowAlias keys =>
    .word "(SELECT " :: value.pieces ++ .word " FROM " :: dotted table ++ .word " AS " :: .identifier rowAlias ::
      .word " WHERE " :: keys.pieces ++ [.word ")"]

/-- The text itself. -/
def written (sql : Sql V) : String := String.join (sql.pieces.map Piece.text)

/-- The text of the same parts, with other constants. -/
def map (f : V → W) : Sql V → Sql W
  | .param number constant => .param number (f constant)
  | .name parts => .name parts
  | .member row column => .member (row.map f) column
  | .group inner => .group (inner.map f)
  | .cast inner type => .cast (inner.map f) type
  | .collated inner => .collated (inner.map f)
  | .object inner key => .object (inner.map f) key
  | .text inner key => .text (inner.map f) key
  | .prefixed op operand => .prefixed op (operand.map f)
  | .infixed left op right => .infixed (left.map f) op (right.map f)
  | .tested operand test => .tested (operand.map f) test
  | .contains document pattern => .contains (document.map f) (pattern.map f)
  | .joined left right => .joined (left.map f) (right.map f)
  | .emptyArray => .emptyArray
  | .jsonbObject key value => .jsonbObject key (value.map f)
  | .jsonbSet key value => .jsonbSet key (value.map f)
  | .ifArray array => .ifArray (array.map f)
  | .call function argument => .call function (argument.map f)
  | .existing source rowAlias condition => .existing (source.map f) rowAlias (condition.map f)
  | .selected value table rowAlias keys => .selected (value.map f) table rowAlias (keys.map f)

@[simp] theorem pieces_map (f : V → W) (sql : Sql V) : (sql.map f).pieces = sql.pieces := by
  fun_induction pieces sql <;> simp_all [map, pieces]

end Sql

end AsceticDdd.Specification.Pg
