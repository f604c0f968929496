import AsceticDdd.Specification.Jsonpath.Token

/-!
# From the tokens of a template to its tree

One function per rule of the grammar, each taking the input left and returning what it read with the input left
after it. The parser's depth and the tree's height are bounded apart: the first comes down to a rule from the rule
that called it, the second comes up from the trees below.
-/

namespace AsceticDdd.Specification.Jsonpath

/-- How tall a template's tree may be. -/
def maxHeight : Nat := 128

/-- How deep the parser may go, through groups, `!` and the filters of collections. -/
def maxNesting : Nat := 32

/-- The tokens not yet read, and where the template ends. -/
structure Input where
  tokens : List Token
  ending : Nat
deriving DecidableEq

variable [ToString F64]

/-- A token as a template spells it. -/
def spelling : Kind → String
  | .dollar => "$"
  | .at => "@"
  | .dot => "."
  | .leftBracket => "["
  | .rightBracket => "]"
  | .leftParen => "("
  | .rightParen => ")"
  | .question => "?"
  | .star => "*"
  | .and => "&&"
  | .or => "||"
  | .not => "!"
  | .eq => "=="
  | .ne => "!="
  | .gt => ">"
  | .ge => ">="
  | .lt => "<"
  | .le => "<="
  | .int value => toString value
  | .float value => toString value
  | .text value => "\"" ++ value ++ "\""
  | .name name => name
  | .placeholder ⟨.position _, _⟩ => "%"
  | .placeholder ⟨.name name, _⟩ => "%(" ++ name ++ ")"

namespace Input

def kind (input : Input) : Option Kind := input.tokens.head?.map (·.kind)

def position (input : Input) : Nat := (input.tokens.head?.map (·.position)).getD input.ending

def advance (input : Input) : Input := { input with tokens := input.tokens.tail }

def error (input : Input) (message expected : String) : SyntaxError := .new message input.position expected

def expect (input : Input) (kind : Kind) (message expected : String) : Except SyntaxError Input :=
  if input.kind = some kind then .ok input.advance else .error (input.error message expected)

def unexpected (input : Input) (expected : String) : SyntaxError :=
  match input.kind with
  | some kind => input.error ("Unexpected token '" ++ spelling kind ++ "'") expected
  | none => input.error "Unexpected end of expression" expected

end Input

def tooDeep (input : Input) : SyntaxError := input.error "Expression is nested too deep" "a simpler expression"

/-- A level above `height`, if a tree may be that tall. -/
def taller (input : Input) (height : Nat) : Except SyntaxError { n // n = height + 1 ∧ n ≤ maxHeight } :=
  if h : height < maxHeight then .ok ⟨height + 1, rfl, h⟩ else .error (tooDeep input)

/-- A level below `depth`, if the parser may go that deep. -/
def deeper (input : Input) (depth : Nat) : Except SyntaxError { n // n = depth + 1 ∧ n ≤ maxNesting } :=
  if h : depth < maxNesting then .ok ⟨depth + 1, rfl, h⟩ else .error (tooDeep input)

/-- A tree, and how tall it is. -/
structure Tree where
  expr : Expr Slot
  height : Nat
  tall : expr.height = height
  bounded : height ≤ maxHeight

namespace Tree

def leaf (expr : Expr Slot) (h : expr.height = 1) : Tree := ⟨expr, 1, h, by decide⟩

/-- `make` of `operand`, a level taller than it. -/
def overOne (input : Input) (make : Expr Slot → Expr Slot) (hmake : ∀ expr, (make expr).height = expr.height + 1)
    (operand : Tree) : Except SyntaxError Tree := do
  let height ← taller input operand.height
  return ⟨make operand.expr, height, by rw [hmake, operand.tall, height.2.1], height.2.2⟩

/-- `left op right`, a level taller than the taller of them. -/
def overBoth (input : Input) (op : Infix) (left right : Tree) : Except SyntaxError Tree := do
  let height ← taller input (max left.height right.height)
  return ⟨.infixed left.expr op right.expr, height,
    by rw [Expr.height, left.tall, right.tall, height.2.1], height.2.2⟩

end Tree

/-- `path = ( "." name )*` -/
def namesFrom (ending : Nat) : List Token → Except SyntaxError (List String × Input)
  | ⟨.dot, _⟩ :: ⟨.name name, _⟩ :: rest => do
    let (names, input) ← namesFrom ending rest
    return (name :: names, input)
  | ⟨.dot, _⟩ :: rest => .error (Input.error ⟨rest, ending⟩ "Expected field name" "after '.'")
  | tokens => .ok ([], ⟨tokens, ending⟩)

def names (input : Input) : Except SyntaxError (List String × Input) := namesFrom input.ending input.tokens

/-- The path of `names` from `root`, if there are any. -/
def collection (root : Root) : List String → Option Path
  | [] => none
  | first :: names => some (names.foldl Path.child (.new root first))

/-- `"[*]"` -/
def wildcard (input : Input) : Except SyntaxError Input := do
  let input ← input.expect .leftBracket "Expected wildcard '[*]'" "after path"
  let input ← input.expect .star "Expected wildcard '[*]'" "after path"
  input.expect .rightBracket "Expected wildcard '[*]'" "after path"

/-- `operand ( separator operand )*` after its first operand, nested to the left: the parser gets no deeper, and
the tree a level taller with each operand. -/
def chainFrom (separator : Kind) (op : Infix) (operand : Input → Except SyntaxError (Tree × Input)) (left : Tree)
    (input : Input) : Except SyntaxError (Tree × Input) :=
  if input.kind = some separator then
    match operand input.advance with
    | .error error => .error error
    | .ok (right, rest) =>
      match _h : Tree.overBoth input op left right with
      | .error error => .error error
      | .ok both => chainFrom separator op operand both rest
  else .ok (left, input)
termination_by maxHeight - left.height
decreasing_by
  have hboth : both.height = max left.height right.height + 1 := by
    unfold Tree.overBoth taller at _h
    split at _h <;> cases _h
    rfl
  have := both.bounded
  omega

def chain (input : Input) (separator : Kind) (op : Infix) (operand : Input → Except SyntaxError (Tree × Input)) :
    Except SyntaxError (Tree × Input) := do
  let (left, input) ← operand input
  chainFrom separator op operand left input

/-- The operator of a comparison, by its token. -/
def comparator : Kind → Option Comparison
  | .eq => some .eq
  | .ne => some .ne
  | .gt => some .gt
  | .ge => some .ge
  | .lt => some .lt
  | .le => some .le
  | _ => none

def eqIgnoreAsciiCase (left right : String) : Bool :=
  left.toList.map Char.toLower = right.toList.map Char.toLower

/-- The value a name is the literal of. -/
def keyword (name : String) : Option Value :=
  if eqIgnoreAsciiCase name "true" then some (.bool true)
  else if eqIgnoreAsciiCase name "false" then some (.bool false)
  else if eqIgnoreAsciiCase name "null" then some .null
  else none

/-- The value a token is the literal of. -/
def literal (keyword : String → Option Value) : Kind → Option Value
  | .int value => some (.int value)
  | .float value => some (.float value)
  | .text value => some (.text value)
  | .name name => keyword name
  | _ => none

mutual

/-- `filter = "[" "?" or "]"`. `scope` is what `@` means inside, `depth` how deep the parser is. -/
def filter (input : Input) (scope : Root) (depth : Nat) : Except SyntaxError (Tree × Input) := do
  let message := "Expected filter expression '[?...]'"
  let input ← input.expect .leftBracket message "'['"
  let input ← input.expect .question message "'?'"
  let (predicate, input) ← or input scope depth
  let input ← input.expect .rightBracket "Expected ']'" "end of filter expression"
  return (predicate, input)
termination_by (maxNesting - depth, 6)

/-- `or = and ( "||" and )*` -/
def or (input : Input) (scope : Root) (depth : Nat) : Except SyntaxError (Tree × Input) :=
  chain input .or (.logical .or) fun input => and input scope depth
termination_by (maxNesting - depth, 5)

/-- `and = unary ( "&&" unary )*` -/
def and (input : Input) (scope : Root) (depth : Nat) : Except SyntaxError (Tree × Input) :=
  chain input .and (.logical .and) fun input => unary input scope depth
termination_by (maxNesting - depth, 4)

/-- `unary = "!" unary | comparison` -/
def unary (input : Input) (scope : Root) (depth : Nat) : Except SyntaxError (Tree × Input) :=
  if input.kind = some .not then do
    let below ← deeper input depth
    let (operand, rest) ← unary input.advance scope below
    return (← Tree.overOne input .not (fun _ => rfl) operand, rest)
  else comparison input scope depth
termination_by (maxNesting - depth, 3)
decreasing_by all_goals grind

/-- `comparison = operand ( ( "==" | "!=" | "<" | "<=" | ">" | ">=" ) operand )?` -/
def comparison (input : Input) (scope : Root) (depth : Nat) : Except SyntaxError (Tree × Input) := do
  let (left, input) ← operand input scope depth
  match input.kind.bind comparator with
  | none => return (left, input)
  | some op =>
    let (right, rest) ← operand input.advance scope depth
    return (← Tree.overBoth input (.comparison op) left right, rest)
termination_by (maxNesting - depth, 2)

/-- `operand = "(" or ")" | literal | placeholder | query` -/
def operand (input : Input) (scope : Root) (depth : Nat) : Except SyntaxError (Tree × Input) :=
  match input.kind with
  | some .leftParen => do
    let below ← deeper input depth
    let (inner, rest) ← or input.advance scope below
    let rest ← rest.expect .rightParen "Expected ')'" "closing parenthesis"
    return (inner, rest)
  | some (.placeholder param) => return (.leaf (.value (.param param)) rfl, input.advance)
  | some .at => query input.advance scope depth
  | some .dollar => query input.advance .global depth
  | kind =>
    match kind.bind (literal keyword) with
    | some value => return (.leaf (.value (.literal value)) rfl, input.advance)
    | none => .error (input.unexpected "value (number, string, boolean, null or placeholder) or query")
termination_by (maxNesting - depth, 1)
decreasing_by all_goals grind

/-- `query = "@" | ( "@" | "$" ) path ( "[*]" filter )?`, after its first token. `@` alone is the item itself; of
the candidate there is no value. -/
def query (input : Input) (root : Root) (depth : Nat) : Except SyntaxError (Tree × Input) := do
  let (names, input) ← names input
  match collection root names, root with
  | none, .item up =>
    if input.kind = some .leftBracket then .error (input.error "Expected field name" "after '@' or '$'")
    else return (.leaf (.item up) rfl, input)
  | none, .global => .error (input.error "Expected field name" "after '@' or '$'")
  | some path, _ =>
    if input.kind = some .leftBracket then do
      let items ← wildcard input
      let below ← deeper input depth
      let (predicate, rest) ← filter items (.item 0) below
      return (← Tree.overOne input (.any path) (fun _ => rfl) predicate, rest)
    else return (.leaf (.field path) rfl, input)
termination_by (maxNesting - depth, 0)
decreasing_by all_goals grind

end

def named (token : Token) : Bool := token.kind matches .placeholder ⟨.name _, _⟩

def positional (token : Token) : Bool := token.kind matches .placeholder ⟨.position _, _⟩

/-- Positional and named placeholders are not mixed. -/
def oneStyle (tokens : List Token) : Except SyntaxError Unit :=
  match tokens.find? named, tokens.find? positional with
  | some first, some second =>
    .error (.new "Positional and named placeholders in one template" (max first.position second.position)
      "placeholders of one style")
  | _, _ => .ok ()

/-- The filter of the candidate, or of the collection at a path. -/
def body (names : List String) (after : Input) : Except SyntaxError (Tree × Input) :=
  match collection .global names with
  | none => filter after .global 0
  | some source => do
    let (predicate, rest) ← filter (← wildcard after) (.item 0) 1
    return (← Tree.overOne after (.any source) (fun _ => rfl) predicate, rest)

/-- `template = "$" ( filter | path "[*]" filter )`, and nothing after it. -/
def template (tokens : List Token) (ending : Nat) : Except SyntaxError (Expr Slot) := do
  oneStyle tokens
  let input ← Input.expect ⟨tokens, ending⟩ .dollar "Expected '$'" "a template starts at the root"
  let (names, after) ← names input
  let (tree, input) ← body names after
  match input.kind with
  | none => return tree.expr
  | some _ => .error (input.unexpected "end of expression")

end AsceticDdd.Specification.Jsonpath
