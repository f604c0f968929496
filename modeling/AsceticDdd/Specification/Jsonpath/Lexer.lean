import AsceticDdd.Control.Except
import AsceticDdd.Specification.Float
import AsceticDdd.Specification.Jsonpath.Token
import AsceticDdd.Specification.Scalar

/-!
# From the text of a template to its tokens

Each token is recognised by its first character. A scanner takes the characters of the whole text and the index it is
at, and answers what it read with the index after it.
-/

namespace AsceticDdd.Specification.Jsonpath

open Text

/-- `char::is_whitespace` -/
def isWhitespace (c : Char) : Bool :=
  let code := c.toNat
  9 ≤ code && code ≤ 13 || 0x2000 ≤ code && code ≤ 0x200a ||
    code ∈ [0x20, 0x85, 0xa0, 0x1680, 0x2028, 0x2029, 0x202f, 0x205f, 0x3000]

/-- `char::is_control` -/
def isControl (c : Char) : Bool := c.toNat < 0x20 || 0x7f ≤ c.toNat && c.toNat < 0xa0

/-- A character as an error shows it. -/
def shown (c : Char) : String :=
  if c = '\n' then "\\n" else if c = '\t' then "\\t" else if c = '\r' then "\\r"
  else if isControl c then
    "\\x" ++ String.ofList [Nat.digitChar (c.toNat / 16), Nat.digitChar (c.toNat % 16)]
  else c.toString

def isNameStart (c : Char) : Bool := c.isAlpha || c = '_'

def isNamePart (c : Char) : Bool := c.isAlphanum || c = '_'

theorem isNamePart_of_isNameStart {c : Char} (h : isNameStart c) : isNamePart c := by
  unfold isNamePart Char.isAlphanum
  rw [isNameStart] at h
  cases ha : c.isAlpha <;> simp_all

def hexValue (digits : List Char) : Option Nat :=
  digits.foldlM (fun code c => (Reading.hexDigit c).map fun digit => code * 16 + digit) 0

section Scanners

variable (chars : List Char)

/-- How many characters there are, one after another, that pass the test. -/
def run (start : Nat) (test : Char → Bool) : Nat := ((chars.drop start).takeWhile test).length

def blanks (start : Nat) : Nat := run chars start isWhitespace

/-- The tokens told by their first character, or by two, and how long they are. -/
def symbol (first : Char) (second : Option Char) : Option (Kind × Nat) :=
  match first with
  | '$' => some (.dollar, 1)
  | '@' => some (.at, 1)
  | '.' => some (.dot, 1)
  | '[' => some (.leftBracket, 1)
  | ']' => some (.rightBracket, 1)
  | '(' => some (.leftParen, 1)
  | ')' => some (.rightParen, 1)
  | '?' => some (.question, 1)
  | '*' => some (.star, 1)
  | '&' => if second = some '&' then some (.and, 2) else none
  | '|' => if second = some '|' then some (.or, 2) else none
  | '=' => if second = some '=' then some (.eq, 2) else none
  | '!' => if second = some '=' then some (.ne, 2) else some (.not, 1)
  | '>' => if second = some '=' then some (.ge, 2) else some (.gt, 1)
  | '<' => if second = some '=' then some (.le, 2) else some (.lt, 1)
  | _ => none

def paramKind : Char → Option ParamKind
  | 's' => some .any
  | 'd' => some .integer
  | 'f' => some .number
  | _ => none

def malformed (position : Nat) : SyntaxError := .new "Malformed placeholder" position "%s, %d, %f or %(name)s"

/-- What a placeholder is called, and where its letter is. -/
def paramKey (position positional : Nat) : Except SyntaxError (ParamKey × Nat) :=
  if chars[position + 1]? = some '(' then
    let length := run chars (position + 2) isNamePart
    let name := (chars.drop (position + 2)).take length
    let close := position + 2 + length
    if name = [] ∨ chars[close]? ≠ some ')' then .error (malformed position)
    else .ok (.name (String.ofList name), close + 1)
  else .ok (.position positional, position + 1)

/-- `%s`, `%d`, `%f`, or the same with a name: `%(age)d`. -/
def placeholder (position positional : Nat) : Except SyntaxError (Kind × Nat) := do
  let (key, letter) ← paramKey chars position positional
  match (chars[letter]?).bind paramKind with
  | some kind => return (.placeholder ⟨key, kind⟩, letter + 1)
  | none => .error (malformed position)

/-- `i64::from_str` -/
def parseI64 (literal : List Char) : Option Int64 :=
  ((signed literal).filter fun value => -2 ^ 63 ≤ value && value < 2 ^ 63).map Int64.ofInt

def digitsFrom (start : Nat) : Nat := run chars start Char.isDigit

/-- Where the digits end, after the sign if there is one. -/
def wholeEnd (position : Nat) : Nat :=
  let sign := if chars[position]? = some '-' then 1 else 0
  position + sign + digitsFrom chars (position + sign)

def fractionEnd (wholeEnd : Nat) : Nat :=
  let count := digitsFrom chars (wholeEnd + 1)
  if chars[wholeEnd]? = some '.' ∧ 0 < count then wholeEnd + 1 + count else wholeEnd

def exponentEnd (fractionEnd : Nat) : Nat :=
  if chars[fractionEnd]? = some 'e' ∨ chars[fractionEnd]? = some 'E' then
    let sign := if chars[fractionEnd + 1]? = some '+' ∨ chars[fractionEnd + 1]? = some '-' then 1 else 0
    let count := digitsFrom chars (fractionEnd + 1 + sign)
    if count = 0 then fractionEnd else fractionEnd + 1 + sign + count
  else fractionEnd

def outOfRange (position : Nat) : SyntaxError := .new "Number out of range" position "a number that fits"

/-- An integer, or, with a fraction or an exponent, a float. -/
def number (position : Nat) : Except SyntaxError (Kind × Nat) :=
  let wholeEnd := wholeEnd chars position
  let exponentEnd := exponentEnd chars (fractionEnd chars wholeEnd)
  let literal := (chars.drop position).take (exponentEnd - position)
  let kind := if exponentEnd = wholeEnd then (parseI64 literal).map Kind.int
    else ((F64.parse literal).filter F64.isFinite).map Kind.float
  match kind with
  | some kind => .ok (kind, exponentEnd)
  | none => .error (outOfRange position)

/-- The number that four hexadecimal digits spell. -/
def hex4 (start : Nat) : Option Nat :=
  let digits := (chars.drop start).take 4
  if digits.length = 4 then hexValue digits else none

/-- `char::from_u32` -/
def fromU32 (code : Nat) : Option Char := if code.isValidChar then some (Char.ofNat code) else none

def invalidEscape (position : Nat) : SyntaxError :=
  .new "Invalid escape" position "\\\\, \\', \\\", \\/, \\b, \\f, \\n, \\r, \\t or \\uXXXX"

/-- The character an escape of one letter stands for. -/
def simple : Char → Option Char
  | '\\' => some '\\'
  | '\'' => some '\''
  | '"' => some '"'
  | '/' => some '/'
  | 'b' => some '\x08'
  | 'f' => some '\x0c'
  | 'n' => some '\n'
  | 'r' => some '\r'
  | 't' => some '\t'
  | _ => none

/-- The second half of a pair of escapes. -/
def lowHalf (position : Nat) : Option Nat :=
  let low := if chars[position + 6]? = some '\\' ∧ chars[position + 7]? = some 'u' then hex4 chars (position + 8)
    else none
  low.filter fun low => 0xdc00 ≤ low && low < 0xe000

/-- A code point, or, beyond the basic plane, a pair of escapes. -/
def unicode (position : Nat) : Option (Char × Nat) := do
  let high ← hex4 chars (position + 2)
  if 0xd800 ≤ high ∧ high < 0xdc00 then
    let low ← lowHalf chars position
    return (← fromU32 (0x10000 + (high - 0xd800) * 1024 + (low - 0xdc00)), position + 12)
  else return (← fromU32 high, position + 6)

/-- The character the escape stands for, and where the text goes on. -/
def escapeAt (position : Nat) : Except SyntaxError (Char × Nat) :=
  let read := match chars[position + 1]? with
    | some 'u' => unicode chars position
    | letter => (letter.bind simple).map (·, position + 2)
  match read with
  | some read => .ok read
  | none => .error (invalidEscape position)

variable {chars}

theorem unicode_advances {position next : Nat} {c : Char} (h : unicode chars position = some (c, next)) :
    position < next := by
  obtain ⟨high, _, h⟩ := Option.bind_eq_some_iff.mp h
  split at h
  · obtain ⟨low, _, h⟩ := Option.bind_eq_some_iff.mp h
    obtain ⟨c, _, h⟩ := Option.bind_eq_some_iff.mp h
    cases h
    omega
  · obtain ⟨c, _, h⟩ := Option.bind_eq_some_iff.mp h
    cases h
    omega

theorem escapeAt_advances {position next : Nat} {c : Char} (h : escapeAt chars position = .ok (c, next)) :
    position < next := by
  unfold escapeAt at h
  dsimp only at h
  split at h
  case h_1 read same =>
    cases h
    split at same
    · exact unicode_advances same
    · obtain ⟨_, _, h⟩ := Option.map_eq_some_iff.mp same
      cases h
      omega
  case h_2 => cases h

variable (chars)

/-- The characters of a string from `position` on, and where the text goes on. -/
def textFrom (start : Nat) (quote : Char) (position : Nat) : Except SyntaxError (List Char × Nat) :=
  match hc : chars[position]? with
  | none => .error (.new "Unterminated string" start "closing quote")
  | some c =>
    if c = quote then .ok ([], position + 1)
    else if c = '\\' then
      match _h : escapeAt chars position with
      | .error error => .error error
      | .ok (c, next) => (textFrom start quote next).map fun read => (c :: read.1, read.2)
    else if c.toNat < 0x20 then
      .error (.new "Control character in a string" position "its escape, \\n or \\uXXXX")
    else (textFrom start quote (position + 1)).map fun read => (c :: read.1, read.2)
termination_by chars.length - position
decreasing_by
  · have advances := escapeAt_advances _h
    have within := (List.getElem?_eq_some_iff.mp hc).1
    omega
  · have within := (List.getElem?_eq_some_iff.mp hc).1
    omega

/-- A string in either quote. -/
def text (position : Nat) (quote : Char) : Except SyntaxError (Kind × Nat) :=
  (textFrom chars position quote (position + 1)).map fun read => (.text (String.ofList read.1), read.2)

def name (position : Nat) : Kind × Nat :=
  let length := run chars position isNamePart
  (.name (String.ofList ((chars.drop position).take length)), position + length)

def isDigitAt (position : Nat) : Bool := (chars[position]?).any Char.isDigit

/-- The token that starts with `first`, and where the next one starts. -/
def token (first : Char) (position positional : Nat) : Except SyntaxError (Kind × Nat) :=
  match symbol first chars[position + 1]? with
  | some (kind, length) => .ok (kind, position + length)
  | none =>
    if first = '%' then placeholder chars position positional
    else if first = '\'' ∨ first = '"' then text chars position first
    else if first.isDigit then number chars position
    else if first = '-' ∧ isDigitAt chars (position + 1) then number chars position
    else if isNameStart first then .ok (name chars position)
    else .error (.new ("Unexpected character '" ++ shown first ++ "'") position "valid token")

variable {chars}

/-- What the rest of a string is read as, a character of it or an escape at a time. -/
inductive ReadsText (chars : List Char) (quote : Char) : Nat → List Char → Nat → Prop
  | closed {position : Nat} (hc : chars[position]? = some quote) : ReadsText chars quote position [] (position + 1)
  | escape {position next last : Nat} {c : Char} {read : List Char} (hc : chars[position]? = some '\\')
    (inside : quote ≠ '\\') (escaped : escapeAt chars position = .ok (c, next))
    (rest : ReadsText chars quote next read last) : ReadsText chars quote position (c :: read) last
  | plain {position last : Nat} {c : Char} {read : List Char} (hc : chars[position]? = some c) (inside : c ≠ quote)
    (unescaped : c ≠ '\\') (printable : 0x20 ≤ c.toNat) (rest : ReadsText chars quote (position + 1) read last) :
    ReadsText chars quote position (c :: read) last

section Text

variable {start position last : Nat} {quote c : Char} {read : List Char}

theorem textFrom_quote (hc : chars[position]? = some quote) :
    textFrom chars start quote position = .ok ([], position + 1) := by
  rw [textFrom]
  split
  case h_1 missing => cases missing.symm.trans hc
  case h_2 c found =>
    obtain rfl := Option.some.inj (hc.symm.trans found)
    exact if_pos rfl

theorem textFrom_plain (hc : chars[position]? = some c) (inside : c ≠ quote) (unescaped : c ≠ '\\')
    (printable : 0x20 ≤ c.toNat) : textFrom chars start quote position =
      (textFrom chars start quote (position + 1)).map fun read => (c :: read.1, read.2) := by
  rw [textFrom]
  split
  case h_1 missing => cases missing.symm.trans hc
  case h_2 c' found =>
    obtain rfl := Option.some.inj (hc.symm.trans found)
    rw [if_neg inside, if_neg unescaped, if_neg (Nat.not_lt.mpr printable)]

theorem textFrom_escape (hc : chars[position]? = some '\\') (inside : quote ≠ '\\') {next : Nat}
    (escaped : escapeAt chars position = .ok (c, next)) : textFrom chars start quote position =
      (textFrom chars start quote next).map fun read => (c :: read.1, read.2) := by
  rw [textFrom]
  split
  case h_1 missing => cases missing.symm.trans hc
  case h_2 c' found =>
    obtain rfl := Option.some.inj (hc.symm.trans found)
    rw [if_neg (Ne.symm inside), if_pos rfl]
    split
    case h_1 same => cases same.symm.trans escaped
    case h_2 same =>
      cases same.symm.trans escaped
      rfl

theorem readsText_of_textFrom (h : textFrom chars start quote position = .ok (read, last)) :
    ReadsText chars quote position read last := by
  induction remaining : chars.length - position using Nat.strong_induction_on generalizing position read with
  | h n ih =>
  rw [textFrom] at h
  split at h
  case h_1 => cases h
  case h_2 c hc =>
    have within := (List.getElem?_eq_some_iff.mp hc).1
    split at h
    case isTrue same =>
      subst same
      cases h
      exact .closed hc
    case isFalse inside =>
      split at h
      case isTrue same =>
        subst same
        split at h
        case h_1 => cases h
        case h_2 c next escaped =>
          have advances := escapeAt_advances escaped
          obtain ⟨⟨read, last⟩, hread, h⟩ := Control.map_eq_ok.mp h
          cases h
          exact .escape hc (Ne.symm inside) escaped (ih _ (by omega) hread rfl)
      case isFalse unescaped =>
        split at h
        case isTrue => cases h
        case isFalse printable =>
          obtain ⟨⟨read, last⟩, hread, h⟩ := Control.map_eq_ok.mp h
          cases h
          exact .plain hc inside unescaped (Nat.not_lt.mp printable) (ih _ (by omega) hread rfl)

theorem textFrom_eq_ok : textFrom chars start quote position = .ok (read, last) ↔
    ReadsText chars quote position read last := by
  refine ⟨readsText_of_textFrom, ?_⟩
  intro h
  induction h with
  | closed hc => exact textFrom_quote hc
  | escape hc inside escaped _ ih =>
    rw [textFrom_escape hc inside escaped, ih]
    rfl
  | plain hc inside unescaped printable _ ih =>
    rw [textFrom_plain hc inside unescaped printable, ih]
    rfl

theorem ReadsText.advances (h : ReadsText chars quote position read last) : position < last := by
  induction h with
  | closed => exact Nat.lt_succ_self _
  | escape _ _ escaped _ ih => exact Nat.lt_trans (escapeAt_advances escaped) ih
  | plain _ _ _ _ _ ih => exact Nat.lt_of_succ_lt ih

end Text

theorem run_pos {start : Nat} {test : Char → Bool} {c : Char} (hc : chars[start]? = some c) (passes : test c) :
    0 < run chars start test := by
  obtain ⟨within, rfl⟩ := List.getElem?_eq_some_iff.mp hc
  rw [run, List.drop_eq_getElem_cons within, List.takeWhile_cons_of_pos passes]
  exact Nat.succ_pos _

theorem le_fractionEnd (chars : List Char) (wholeEnd : Nat) : wholeEnd ≤ fractionEnd chars wholeEnd := by
  unfold fractionEnd
  dsimp only
  split <;> omega

theorem le_exponentEnd (chars : List Char) (fractionEnd : Nat) : fractionEnd ≤ exponentEnd chars fractionEnd := by
  unfold exponentEnd
  dsimp only
  split_ifs <;> omega

theorem lt_wholeEnd {position : Nat} {c : Char} (hc : chars[position]? = some c)
    (starts : c.isDigit ∨ c = '-' ∧ isDigitAt chars (position + 1)) : position < wholeEnd chars position := by
  unfold wholeEnd
  dsimp only
  rw [hc]
  obtain digit | ⟨rfl, digit⟩ := starts
  · have plain : c ≠ '-' := by
      rintro rfl
      cases digit
    rw [if_neg fun same => plain (Option.some.inj same)]
    exact Nat.lt_add_of_pos_right (run_pos hc digit)
  · rw [if_pos rfl]
    omega

theorem number_advances {position next : Nat} {kind : Kind} {c : Char} (hc : chars[position]? = some c)
    (starts : c.isDigit ∨ c = '-' ∧ isDigitAt chars (position + 1)) (h : number chars position = .ok (kind, next)) :
    position < next := by
  have whole := lt_wholeEnd hc starts
  have fraction := le_fractionEnd chars (wholeEnd chars position)
  have exponent := le_exponentEnd chars (fractionEnd chars (wholeEnd chars position))
  unfold number at h
  dsimp only at h
  split at h
  · cases h
    omega
  · cases h

theorem placeholder_advances {position positional next : Nat} {kind : Kind}
    (h : placeholder chars position positional = .ok (kind, next)) : position < next := by
  obtain ⟨⟨key, letter⟩, hkey, h⟩ := Control.bind_eq_ok.mp h
  have after : position < letter := by
    unfold paramKey at hkey
    dsimp only at hkey
    split at hkey
    · split at hkey
      · cases hkey
      · cases hkey
        omega
    · cases hkey
      omega
  dsimp only at h
  split at h
  · cases h
    omega
  · cases h

theorem symbol_length {first : Char} {second : Option Char} {kind : Kind} {length : Nat}
    (h : symbol first second = some (kind, length)) : 0 < length := by
  unfold symbol at h
  split at h
  all_goals (try split at h) <;> cases h <;> decide

theorem token_advances {first : Char} {position positional next : Nat} {kind : Kind}
    (hfirst : chars[position]? = some first) (h : token chars first position positional = .ok (kind, next)) :
    position < next := by
  unfold token at h
  split at h
  · cases h
    exact Nat.lt_add_of_pos_right (symbol_length ‹_›)
  · split_ifs at h with percent quote digit minus start
    · exact placeholder_advances h
    · obtain ⟨⟨read, next⟩, hread, h⟩ := Control.map_eq_ok.mp h
      cases h
      exact Nat.lt_of_succ_lt (textFrom_eq_ok.mp hread).advances
    · exact number_advances hfirst (.inl digit) h
    · exact number_advances hfirst (.inr minus) h
    · have part := isNamePart_of_isNameStart start
      cases h
      exact Nat.lt_add_of_pos_right (run_pos hfirst part)

end Scanners

def isPositional (kind : Kind) : Bool := kind matches .placeholder ⟨.position _, _⟩

/-- The tokens from `position` on. -/
def tokenizeFrom (chars : List Char) (position placeholders : Nat) : Except SyntaxError (List Token) :=
  let position := position + blanks chars position
  match _hfirst : chars[position]? with
  | none => .ok []
  | some first =>
    match _h : token chars first position placeholders with
    | .error error => .error error
    | .ok (kind, next) =>
      (tokenizeFrom chars next (placeholders + if isPositional kind then 1 else 0)).map fun tokens =>
        ⟨kind, position⟩ :: tokens
termination_by chars.length - position
decreasing_by
  have advances := token_advances _hfirst _h
  have within := (List.getElem?_eq_some_iff.mp _hfirst).1
  omega

def tokenize (source : String) : Except SyntaxError (List Token) := tokenizeFrom source.toList 0 0

end AsceticDdd.Specification.Jsonpath
