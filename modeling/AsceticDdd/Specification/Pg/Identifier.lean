import Mathlib.Data.List.Basic

/-!
# Names in a query

A name is of ASCII letters, digits and `_` or it is refused. The alias of a row is the singular of its collection's
name, and a number.
-/

namespace AsceticDdd.Specification.Pg

inductive CompileError
  | noCurrentItem
  | noTable
  | ambiguousKey (message : String)
  | wrongKey (message : String)
  | invalidIdentifier (name : String)
  | nulInText
  | undeclaredMember (message : String)
  | notAValue (message : String)
deriving DecidableEq

def isNameStart (c : Char) : Bool := c.isAlpha || c = '_'

def isNamePart (c : Char) : Bool := c.isAlphanum || c = '_'

/-- `name`, if it is of ASCII letters, digits and `_` and does not start with a digit. -/
def plain (name : String) : Except CompileError String :=
  match name.toList with
  | [] => .error (.invalidIdentifier name)
  | first :: rest =>
    if isNameStart first && rest.all isNamePart then .ok name else .error (.invalidIdentifier name)

/-- A name, checked: the text has it between double quotes. -/
def identifier (name : String) : Except CompileError String := plain name

/-- The key of a member of a document, checked: the text has it between single quotes. -/
def key (name : String) : Except CompileError String := plain name

/-- A table's name, which may carry its schema. -/
def qualified (name : String) : Except CompileError (List String) := (name.splitOn ".").mapM identifier

def unchanged : List String :=
  ["series", "species", "news", "data", "equipment", "information", "money", "sheep"]

def irregular : List (String × String) :=
  [("people", "person"), ("children", "child"), ("men", "man"), ("women", "woman"), ("mice", "mouse"),
    ("feet", "foot")]

/-- `word` without the suffix, if there is something before it. -/
def strip (word suffix : List Char) : Option (List Char) :=
  let stem := word.take (word.length - suffix.length)
  if suffix <:+ word ∧ stem ≠ [] then some stem else none

/-- The singular of a word in lower case. -/
def singular (word : List Char) : List Char :=
  if String.ofList word ∈ unchanged then word
  else match irregular.find? (·.1.toList = word) with
    | some (_, one) => one.toList
    | none =>
      match strip word "ies".toList with
      | some stem => stem ++ ['y']
      | none =>
        if ["sses", "shes", "ches", "xes", "zes", "uses"].any fun ending => (strip word ending.toList).isSome then
          (strip word "es".toList).getD word
        else match strip word ['s'] with
          | some stem => if ['s', 'u', 'i'].any fun ending => stem.getLast? = some ending then word else stem
          | none => word

/-- The singular of the last name of `table`, in lower case. -/
def singularOf (table : String) : Except CompileError String := do
  let name ← plain ((table.splitOn ".").getLastD table)
  return .ofList (singular (name.toList.map Char.toLower))

end AsceticDdd.Specification.Pg
