import AsceticDdd.Specification.Jsonpath.Accepts
import AsceticDdd.Specification.Jsonpath.Tokenized
import AsceticDdd.Specification.NullTest

/-!
# A template, read once and bound as often as needed

A template's tree is over slots and a bound one over values: that a tree still has placeholders in it is a fact of its
type.
-/

namespace AsceticDdd.Specification.Jsonpath

open Control

/-- A null fits any. -/
def ParamKind.admits : ParamKind → Value → Bool
  | .any, _ => true
  | _, .null => true
  | .integer, .int _ => true
  | .number, .int _ => true
  | .number, .float _ => true
  | _, _ => false

inductive BindError
  | missing (key : ParamKey)
  | unused (placeholders parameters : Nat)
  | wrongStyle
  | mismatch (key : ParamKey) (expected : ParamKind) (found : String)
deriving DecidableEq

inductive MatchError
  | bind (error : BindError)
  | eval (error : EvalError)
deriving DecidableEq

/-- The parameters of one match. -/
inductive Params
  | positional (values : List Value)
  | named (values : List (String × Value))

def Params.get : Params → ParamKey → Except BindError Value
  | .positional values, .position position =>
    match values[position]? with
    | some value => .ok value
    | none => .error (.missing (.position position))
  | .named values, .name name =>
    match values.lookup name with
    | some value => .ok value
    | none => .error (.missing (.name name))
  | _, _ => .error .wrongStyle

/-- The value that stands where the slot does. -/
def Params.fill (params : Params) : Slot → Except BindError Value
  | .literal value => .ok value
  | .param ⟨key, kind⟩ => do
    let value ← params.get key
    if kind.admits value then return value else .error (.mismatch key kind value.kind)

def SyntaxError.within (error : SyntaxError) (expression : String) : SyntaxError :=
  { error with expression := expression }

/-- How long a template may be, in bytes of UTF-8. -/
def MAX_LENGTH : Nat := 262144

/-- How many parameters by position the template takes. -/
def countPositional (tokens : List Token) : Nat := tokens.countP fun token => isPositional token.kind

/-- A parsed template. -/
structure Parsed where
  source : String
  expr : Expr Slot
  positional : Nat

namespace Parsed

variable [ToString F64]

def parse (source : String) : Except SyntaxError Parsed :=
  if source.utf8ByteSize > MAX_LENGTH then
    .error (.new "Template too long" MAX_LENGTH "at most 262144 bytes of UTF-8")
  else do
    let tokens ← (tokenize source).mapError (·.within source)
    let expr ← (template tokens source.length).mapError (·.within source)
    return ⟨source, expr, countPositional tokens⟩

variable [FloatArithmetic] [Chrono]

omit [ToString F64]

/-- The specification the template is with the parameters for its placeholders. -/
def bind (parsed : Parsed) (params : Params) : Except BindError (Expr Value) := do
  let bound ← parsed.expr.tryMapValues params.fill
  match params with
  | .positional values =>
    if values.length > parsed.positional then .error (.unused parsed.positional values.length)
    else return NullTest.throughout bound
  | .named _ => return NullTest.throughout bound

/-- Whether the candidate satisfies the template with the parameters. -/
def isMatch {C : Type} [Context C Value] (parsed : Parsed) (candidate : C) (params : Params) :
    Except MatchError Bool := do
  let bound ← (parsed.bind params).mapError .bind
  (Evaluate.isSatisfiedBy bound candidate).mapError .eval

end Parsed

variable {source : String} {parsed : Parsed} {tokens : List Token} {expr : Expr Slot} {params : Params}

/-! ## What is parsed -/

/-- What a text is the template of. -/
structure Spells (source : String) (tokens : List Token) (parsed : Parsed) : Prop where
  short : source.utf8ByteSize ≤ 262144
  split : ∃ lexemes, Splits 0 0 source.toList lexemes tokens
  oneStyle : OneStyle (tokens.map (·.kind))
  tree : ∃ n, Template keyword (tokens.map (·.kind)) parsed.expr n ∧ n ≤ 32
  tall : parsed.expr.height ≤ 128
  text : parsed.source = source
  takes : parsed.positional = countPositional tokens

theorem spells_of_parse [ToString F64] (h : Parsed.parse source = .ok parsed) :
    ∃ tokens, Spells source tokens parsed := by
  unfold Parsed.parse at h
  split_ifs at h with long
  obtain ⟨tokens, htokens, h⟩ := bind_eq_ok.mp h
  obtain ⟨expr, hexpr, h⟩ := bind_eq_ok.mp h
  cases h
  obtain ⟨style, n, tree, nesting, tall⟩ := template_sound (mapError_eq_ok.mp hexpr)
  exact ⟨tokens, Nat.not_lt.mp long, (tokenizeFrom_eq_ok rfl).mp (mapError_eq_ok.mp htokens), style, ⟨n, tree, nesting⟩,
    tall, rfl, rfl⟩

theorem Spells.parse [ToString F64] (h : Spells source tokens parsed) : Parsed.parse source = .ok parsed := by
  obtain ⟨short, split, style, ⟨n, tree, nesting⟩, tall, text, takes⟩ := h
  have fits : ¬ source.utf8ByteSize > MAX_LENGTH := Nat.not_lt.mpr short
  have lexed : tokenize source = .ok tokens := (tokenizeFrom_eq_ok rfl).mpr split
  have read : template tokens source.length = .ok parsed.expr := template_complete style tree nesting tall
  rw [Parsed.parse, if_neg fits, lexed, Except.mapError, ok_bind, read, Except.mapError, ok_bind]
  obtain ⟨_, _, _⟩ := parsed
  cases text
  cases takes
  rfl

/-- A text is parsed exactly as the template it spells. -/
theorem parse_eq_ok [ToString F64] : Parsed.parse source = .ok parsed ↔ ∃ tokens, Spells source tokens parsed :=
  ⟨spells_of_parse, fun ⟨_, spells⟩ => spells.parse⟩

/-- `$[?%s==%s]` -/
def pair : Parsed where
  source := "$[?%s==%s]"
  expr := .infixed (.value (.param ⟨.position 0, .any⟩)) (.comparison .eq) (.value (.param ⟨.position 1, .any⟩))
  positional := 2

def pairTokens : List Token :=
  [⟨.dollar, 0⟩, ⟨.leftBracket, 1⟩, ⟨.question, 2⟩, ⟨.placeholder ⟨.position 0, .any⟩, 3⟩, ⟨.eq, 5⟩,
    ⟨.placeholder ⟨.position 1, .any⟩, 7⟩, ⟨.rightBracket, 9⟩]

theorem tokenizeFrom_step {chars : List Char} {position positional next : Nat} {first : Char} {kind : Kind}
    {tokens : List Token} (hfirst : chars[position + blanks chars position]? = some first)
    (h : token chars first (position + blanks chars position) positional = .ok (kind, next))
    (rest : tokenizeFrom chars next (positional + if isPositional kind then 1 else 0) = .ok tokens) :
    tokenizeFrom chars position positional = .ok (⟨kind, position + blanks chars position⟩ :: tokens) := by
  rw [tokenizeFrom_token hfirst h, rest]
  rfl

theorem pair_tokenized : tokenize "$[?%s==%s]" = .ok pairTokens :=
  tokenizeFrom_step rfl rfl (tokenizeFrom_step rfl rfl (tokenizeFrom_step rfl rfl (tokenizeFrom_step rfl rfl
    (tokenizeFrom_step rfl rfl (tokenizeFrom_step rfl rfl (tokenizeFrom_step rfl rfl (tokenizeFrom_blank rfl)))))))

theorem pair_spelled : Spells pair.source pairTokens pair where
  short := by decide
  split := (tokenizeFrom_eq_ok rfl).mp pair_tokenized
  oneStyle := by simp [OneStyle, pairTokens]
  tree := ⟨0, .filter (.filter (.disjunct (.conjunct (.unary (.comparison .placeholder .placeholder rfl))))),
    by decide⟩
  tall := by decide
  text := rfl
  takes := rfl

end AsceticDdd.Specification.Jsonpath
