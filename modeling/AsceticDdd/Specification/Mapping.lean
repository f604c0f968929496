import AsceticDdd.Specification.Ast

/-!
# From the domain's terms to the storage's

A mapping is asked about a member by its whole path from the candidate and answers with a path from the
candidate's row. Where the query stands when it asks is the tree's, and the transformation puts the answer there.
-/

namespace AsceticDdd.Specification

/-- The dotted `names` from `root`, split at the dots. -/
def Path.dotted (root : Root) (names : String) : Path :=
  match names.splitOn "." with
  | [] => .new root ""
  | first :: rest => rest.foldl Path.child (.new root first)

/-- What a member or a value of the domain is in the storage. -/
inductive Mapped (S : Type)
  | scalar (expr : Expr S)
  | composite (parts : List (Mapped S))
  /-- The storage's null: compared for equality it is tested for. -/
  | null (value : S)

inductive TransformError (E : Type)
  | mapping (error : E)
  | shapeMismatch
  | noCurrentItem
  | outsideItsCollection
  | collectionNotAPlace
  | notComposite
  | emptyComposite
  | unsupportedOperator (op : Infix)
  | unexpectedComposite
deriving DecidableEq

/-- What the storage has for the domain's members and values. -/
structure Mapping (D S E : Type) where
  field : Path → Except E (Mapped S)
  value : D → Except E (Mapped S)
  /-- An element of a collection, said from where the collection's predicate stands. -/
  element : Path → Except E (Mapped S) := fun _ => .ok (.scalar (.item 0))

/-- A collection whose predicate is being transformed: its whole path from the candidate, in the domain's
names and in the storage's. -/
structure Collection where
  domain : List String
  storage : List String
  storage_ne_nil : storage ≠ []

variable {D S E : Type}

namespace Mapping

/-- The collection of the item `up` collections out: the nearest is the last. -/
def ofItem (inside : List Collection) (up : Nat) : Option Collection :=
  if up < inside.length then inside[inside.length - (up + 1)]? else none

def fromCandidate : List String → Option Path
  | [] => none
  | first :: rest => some (rest.foldl Path.child (.new .global first))

/-- The whole path of `path` from the candidate. -/
def whole (path : Path) (inside : List Collection) : Except (TransformError E) Path := do
  let collection ←
    match path.root with
    | .global => .ok []
    | .item up =>
      match ofItem inside up with
      | some collection => .ok collection.domain
      | none => .error .noCurrentItem
  match fromCandidate (collection ++ path.names) with
  | some path => .ok path
  | none => .error .noCurrentItem

/-- The names after those of the collection, at least one. -/
def stripPrefix : List String → List String → Except (TransformError E) (List String)
  | [], names => .ok names
  | _ :: _, [] => .error .outsideItsCollection
  | first :: rest, name :: names =>
    if first = name then stripPrefix rest names else .error .outsideItsCollection

/-- Every path from the candidate starts with the collection's, and is made a path from the item. -/
def placedExpr (expr : Expr S) (storage : List String) (up : Nat) : Except (TransformError E) (Expr S) :=
  match expr with
  | .field path =>
    match path.root with
    | .global => do
      match ← stripPrefix storage path.names with
      | [] => .error .outsideItsCollection
      | first :: rest => .ok (.field (rest.foldl Path.child (.new (.item up) first)))
    | .item _ => .ok (.field path)
  | .value value => .ok (.value value)
  | .item n => .ok (.item n)
  | .prefixed op operand => do return .prefixed op (← placedExpr operand storage up)
  | .postfixed operand op => do return .postfixed (← placedExpr operand storage up) op
  | .infixed left op right => do return .infixed (← placedExpr left storage up) op (← placedExpr right storage up)
  | .any source predicate => do return .any source (← placedExpr predicate storage up)

mutual

/-- The storage's path of a member, put where the member was. -/
def placed (mapped : Mapped S) (root : Root) (inside : List Collection) :
    Except (TransformError E) (Mapped S) :=
  match root with
  | .global => .ok mapped
  | .item up =>
    -- `whole` was asked first, so the collection is there
    match ofItem inside up with
    | none => .error .noCurrentItem
    | some collection =>
      match mapped with
      | .scalar expr => do return .scalar (← placedExpr expr collection.storage up)
      | .composite parts => do return .composite (← placedParts parts root inside)
      | .null value => .ok (.null value)

def placedParts (parts : List (Mapped S)) (root : Root) (inside : List Collection) :
    Except (TransformError E) (List (Mapped S)) :=
  match parts with
  | [] => .ok []
  | part :: parts => do return (← placed part root inside) :: (← placedParts parts root inside)

end

/-- The member at `path`, as the mapping has it and where the member was. -/
def member (mapping : Mapping D S E) (path : Path) (inside : List Collection) :
    Except (TransformError E) (Mapped S) := do
  let mapped ← (mapping.field (← whole path inside)).mapError .mapping
  placed mapped path.root inside

/-- Every item named is `up` further out, but the items of the `within` collections the expression is inside
of itself. -/
def shifted (up within : Nat) : Expr S → Expr S
  | .value value => .value value
  | .field path => .field (path' path)
  | .item n => .item (item n)
  | .prefixed op operand => .prefixed op (shifted up within operand)
  | .postfixed operand op => .postfixed (shifted up within operand) op
  | .infixed left op right => .infixed (shifted up within left) op (shifted up within right)
  | .any source predicate => .any (path' source) (shifted up (within + 1) predicate)
where
  item (n : Nat) : Nat := if n < within then n else n + up
  path' (path : Path) : Path :=
    match path.root with
    | .global => path
    | .item n => .dotted (.item (item n)) (".".intercalate path.names)

mutual

/-- What is said from one place, said from `up` collections further in. -/
def furtherOut (mapped : Mapped S) (up : Nat) : Mapped S :=
  match mapped with
  | .scalar expr => .scalar (shifted up 0 expr)
  | .composite parts => .composite (furtherOutParts parts up)
  | .null value => .null value

def furtherOutParts (parts : List (Mapped S)) (up : Nat) : List (Mapped S) :=
  match parts with
  | [] => []
  | part :: parts => furtherOut part up :: furtherOutParts parts up

end

/-- The element `up` collections out, as the mapping has it and where the element was. -/
def elementOf (mapping : Mapping D S E) (up : Nat) (inside : List Collection) :
    Except (TransformError E) (Mapped S) :=
  match (ofItem inside up).bind fun collection => fromCandidate collection.domain with
  | none => .error .noCurrentItem
  | some path => do return furtherOut (← (mapping.element path).mapError .mapping) up

def scalar : Mapped S → Except (TransformError E) (Expr S)
  | .scalar expr => .ok expr
  | .null value => .ok (.value value)
  | .composite _ => .error .unexpectedComposite

/-- An operand where it is not tested for: one expression, or several. -/
def written : Mapped S → Expr S ⊕ List (Mapped S)
  | .scalar expr => .inl expr
  | .null value => .inl (.value value)
  | .composite parts => .inr parts

mutual

/-- One part of an equality, the storage's null tested for. -/
def equalPart : Mapped S → Mapped S → Except (TransformError E) (Expr S)
  | tested, .null _ => do return .postfixed (← scalar tested) .isNull
  | .null _, tested => do return .postfixed (← scalar tested) .isNull
  | .scalar left, .scalar right => .ok (.infixed left (.comparison .eq) right)
  | .composite left, .composite right => equal left right
  | .composite _, .scalar _ => .error .shapeMismatch
  | .scalar _, .composite _ => .error .shapeMismatch

/-- The conjunction of the parts' equalities. -/
def equal (left right : List (Mapped S)) : Except (TransformError E) (Expr S) :=
  if left.length = right.length then
    match left, right with
    | left :: lefts, right :: rights => do equalRest (← equalPart left right) lefts rights
    | _, _ => .error .emptyComposite
  else .error .shapeMismatch

def equalRest (all : Expr S) : List (Mapped S) → List (Mapped S) → Except (TransformError E) (Expr S)
  | left :: lefts, right :: rights => do equalRest (all.and (← equalPart left right)) lefts rights
  | _, _ => .ok all

end

/-- The null test that equality with the storage's null is. -/
def nullTest : Infix → Option Postfix
  | .comparison .eq => some .isNull
  | .comparison .ne => some .isNotNull
  | _ => none

/-- Two operands, neither of them tested for. -/
def compared (left : Mapped S) (op : Infix) (right : Mapped S) : Except (TransformError E) (Mapped S) :=
  match written left, written right with
  | .inl left, .inl right => .ok (.scalar (.infixed left op right))
  | .inr left, .inr right =>
    match op with
    | .comparison .eq => do return .scalar (← equal left right)
    -- not equal in every part, which is not unequal in every part
    | .comparison .ne => do return .scalar (← equal left right).not
    | _ => .error (.unsupportedOperator op)
  | .inr _, .inl _ => .error .notComposite
  | .inl _, .inr _ => .error .notComposite

def infixed (left : Mapped S) (op : Infix) (right : Mapped S) : Except (TransformError E) (Mapped S) :=
  match left, right, nullTest op with
  | tested, .null _, some test => do return .scalar (.postfixed (← scalar tested) test)
  | .null _, tested, some test => do return .scalar (.postfixed (← scalar tested) test)
  | left, right, _ => compared left op right

/-- Where the collection at `source` is: the source put where it was, and what its predicate is inside of. -/
def sourceOf (mapping : Mapping D S E) (source : Path) (inside : List Collection) :
    Except (TransformError E) (Path × Collection) := do
  let domain ← whole source inside
  match ← (mapping.field domain).mapError .mapping with
  | .scalar (.field storage) =>
    if storage.root = .global then
      match ← placed (.scalar (.field storage) : Mapped S) source.root inside with
      | .scalar (.field source) => .ok (source, ⟨domain.names, storage.names, by simp [Path.names]⟩)
      | _ => .error .collectionNotAPlace
    else .error .collectionNotAPlace
  | _ => .error .collectionNotAPlace

def lower (mapping : Mapping D S E) : Expr D → List Collection → Except (TransformError E) (Mapped S)
  | .value value, _ => (mapping.value value).mapError .mapping
  | .field path, inside => member mapping path inside
  | .item up, inside => elementOf mapping up inside
  | .prefixed op operand, inside => do return .scalar (.prefixed op (← scalar (← lower mapping operand inside)))
  | .postfixed operand op, inside => do return .scalar (.postfixed (← scalar (← lower mapping operand inside)) op)
  | .infixed left op right, inside => do
    let left ← lower mapping left inside
    let right ← lower mapping right inside
    infixed left op right
  | .any source predicate, inside => do
    let (source, collection) ← sourceOf mapping source inside
    return .scalar (.any source (← scalar (← lower mapping predicate (inside ++ [collection]))))

/-- `expr` in the terms of `mapping`. -/
def transform (expr : Expr D) (mapping : Mapping D S E) : Except (TransformError E) (Expr S) := do
  scalar (← lower mapping expr [])

end Mapping

end AsceticDdd.Specification
