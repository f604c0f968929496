import AsceticDdd.Specification.Jsonpath.Lexer
import Mathlib.Data.List.TakeWhile

/-!
# The token language

A text splits, between blanks, into lexemes, each of which goes on as far as it can.
-/

namespace AsceticDdd.Specification.Jsonpath

open Text

/-- A run of characters that pass ends before the text. -/
def EndsRun (test : Char → Bool) (rest : List Char) : Prop := ∀ c ∈ rest.head?, ¬ test c

/-- One character or more, each of which passes. -/
def Many (test : Char → Bool) (raw : List Char) : Prop := raw ≠ [] ∧ ∀ c ∈ raw, test c

def decimal (digits : List Char) : Nat := Nat.ofDigitChars 10 digits 0

/-! ## Numbers -/

inductive Fraction : (raw digits : List Char) → Prop
  | nothing : Fraction [] []
  | digits {digits : List Char} (h : Many Char.isDigit digits) : Fraction ('.' :: digits) digits

def IsSign (sign : List Char) : Prop := sign = [] ∨ sign = ['+'] ∨ sign = ['-']

inductive Exponent : (raw : List Char) → (power : Int) → Prop
  | nothing : Exponent [] 0
  | plus {e : Char} {sign digits : List Char} (he : e = 'e' ∨ e = 'E') (hsign : sign = [] ∨ sign = ['+'])
    (h : Many Char.isDigit digits) : Exponent (e :: (sign ++ digits)) (decimal digits)
  | minus {e : Char} {digits : List Char} (he : e = 'e' ∨ e = 'E') (h : Many Char.isDigit digits) :
    Exponent (e :: '-' :: digits) (-decimal digits)

def StartsFraction (rest : List Char) : Prop := ∃ digit after, rest = '.' :: digit :: after ∧ digit.isDigit

def StartsExponent (rest : List Char) : Prop :=
  ∃ e sign digit after, rest = e :: (sign ++ digit :: after) ∧ (e = 'e' ∨ e = 'E') ∧ IsSign sign ∧ digit.isDigit

/-- The parts of a number that ends before `rest`. -/
structure NumberParts (whole fraction digits exponent : List Char) (power : Int) (rest : List Char) : Prop where
  isWhole : Many Char.isDigit whole
  isFraction : Fraction fraction digits
  isExponent : Exponent exponent power
  ends : EndsRun Char.isDigit rest
  wholeEnds : fraction = [] → exponent = [] → ¬ StartsFraction rest
  exponentEnds : exponent = [] → ¬ StartsExponent rest

def minus (negative : Bool) : List Char := if negative then ['-'] else []

/-- The number the parts denote, if it is in range. -/
def numberKind (negative : Bool) (whole fraction digits exponent : List Char) (power : Int) : Option Kind :=
  if fraction = [] ∧ exponent = [] then
    let value : Int := if negative then -decimal whole else decimal whole
    if -2 ^ 63 ≤ value ∧ value < 2 ^ 63 then some (.int (Int64.ofInt value)) else none
  else
    let value := F64.nearest negative (decimal (whole ++ digits)) (power - digits.length)
    if value.isFinite then some (.float value) else none

/-! ## Strings -/

/-- What follows the backslash of an escape, and the character it stands for. -/
inductive Escape : (raw : List Char) → Char → Prop
  | simple {letter c : Char} (h : simple letter = some c) : Escape [letter] c
  | basic {digits : List Char} {code : Nat} (h : hexValue digits = some code) (four : digits.length = 4)
    (whole : ¬(0xd800 ≤ code ∧ code < 0xe000)) : Escape ('u' :: digits) (Char.ofNat code)
  | pair {high low : List Char} {first second : Nat} (hhigh : hexValue high = some first) (four : high.length = 4)
    (hlow : hexValue low = some second) (four' : low.length = 4) (isHigh : 0xd800 ≤ first ∧ first < 0xdc00)
    (isLow : 0xdc00 ≤ second ∧ second < 0xe000) : Escape ('u' :: (high ++ '\\' :: 'u' :: low))
      (Char.ofNat (0x10000 + (first - 0xd800) * 1024 + (second - 0xdc00)))

/-- What stands between the quotes, and the text it spells. -/
inductive Spelled (quote : Char) : (raw text : List Char) → Prop
  | nil : Spelled quote [] []
  | plain {c : Char} {raw text : List Char} (inside : c ≠ quote) (unescaped : c ≠ '\\') (printable : 0x20 ≤ c.toNat)
    (rest : Spelled quote raw text) : Spelled quote (c :: raw) (c :: text)
  | escape {c : Char} {escape raw text : List Char} (h : Escape escape c)
    (rest : Spelled quote raw text) : Spelled quote ('\\' :: (escape ++ raw)) (c :: text)

/-! ## Lexemes -/

def symbols : List (List Char × Kind) :=
  [(['$'], .dollar), (['@'], .at), (['.'], .dot), (['['], .leftBracket), ([']'], .rightBracket), (['('], .leftParen),
    ([')'], .rightParen), (['?'], .question), (['*'], .star), (['&', '&'], .and), (['|', '|'], .or),
    (['=', '='], .eq), (['!', '='], .ne), (['!'], .not), (['>', '='], .ge), (['>'], .gt), (['<', '='], .le),
    (['<'], .lt)]

/-- A lexeme before `rest` is of a kind, where `positional` placeholders without a name came before it. -/
inductive Lexeme (positional : Nat) (rest : List Char) : (raw : List Char) → Kind → Prop
  | symbol {raw : List Char} {kind : Kind} (h : (raw, kind) ∈ symbols)
    (ends : ∀ c ∈ rest.head?, ∀ kind', (raw ++ [c], kind') ∉ symbols) : Lexeme positional rest raw kind
  | name {c : Char} {raw : List Char} (start : isNameStart c) (parts : ∀ c ∈ raw, isNamePart c)
    (ends : EndsRun isNamePart rest) : Lexeme positional rest (c :: raw) (.name (String.ofList (c :: raw)))
  | placeholder {letter : Char} {kind : ParamKind} (h : paramKind letter = some kind) :
    Lexeme positional rest ['%', letter] (.placeholder ⟨.position positional, kind⟩)
  | named {name : List Char} {letter : Char} {kind : ParamKind} (parts : Many isNamePart name)
    (h : paramKind letter = some kind) :
    Lexeme positional rest ('%' :: '(' :: (name ++ [')', letter]))
      (.placeholder ⟨.name (String.ofList name), kind⟩)
  | number {negative : Bool} {whole fraction digits exponent : List Char} {power : Int} {kind : Kind}
    (parts : NumberParts whole fraction digits exponent power rest)
    (h : numberKind negative whole fraction digits exponent power = some kind) :
    Lexeme positional rest (minus negative ++ (whole ++ (fraction ++ exponent))) kind
  | text {quote : Char} {raw text : List Char} (hquote : quote = '\'' ∨ quote = '"')
    (h : Spelled quote raw text) : Lexeme positional rest (quote :: (raw ++ [quote]))
      (.text (String.ofList text))

/-- A text splits into lexemes, and the tokens are of their kinds, each at the index of its first character. -/
inductive Splits : (position positional : Nat) → (text : List Char) → (lexemes : List (List Char)) →
    List Token → Prop
  | nil {position positional : Nat} {blank : List Char} (h : ∀ c ∈ blank, isWhitespace c) :
    Splits position positional blank [] []
  | cons {position positional : Nat} {blank raw rest : List Char} {kind : Kind} {lexemes : List (List Char)}
    {tokens : List Token} (h : ∀ c ∈ blank, isWhitespace c) (lexeme : Lexeme positional rest raw kind)
    (more : Splits (position + blank.length + raw.length) (positional + if isPositional kind then 1 else 0) rest
      lexemes tokens) :
    Splits position positional (blank ++ (raw ++ rest)) (raw :: lexemes)
      (⟨kind, position + blank.length⟩ :: tokens)

/-! ## Texts cut where a run ends -/

variable {chars s t raw rest : List Char} {position : Nat} {test : Char → Bool}

theorem takeWhile_endsRun (h : EndsRun test rest) : rest.takeWhile test = [] := by
  cases rest with
  | nil => rfl
  | cons c rest => exact List.takeWhile_cons_of_neg (h c rfl)

theorem takeWhile_append_endsRun (all : ∀ c ∈ raw, test c) (stops : EndsRun test rest) :
    (raw ++ rest).takeWhile test = raw := by
  rw [List.takeWhile_append_of_pos all, takeWhile_endsRun stops, List.append_nil]

theorem endsRun_dropWhile (s : List Char) : EndsRun test (s.dropWhile test) := by
  intro c hc
  have fails := List.head?_dropWhile_not test s
  rw [hc] at fails
  exact Bool.eq_false_iff.mp fails

theorem exists_run (test : Char → Bool) (s : List Char) :
    ∃ raw rest, s = raw ++ rest ∧ (∀ c ∈ raw, test c) ∧ EndsRun test rest :=
  ⟨s.takeWhile test, s.dropWhile test, List.takeWhile_append_dropWhile.symm, fun _ h => List.mem_takeWhile_imp h,
    endsRun_dropWhile s⟩

section At

variable (h : chars.drop position = raw ++ rest)

include h

theorem drop_after : chars.drop (position + raw.length) = rest := by
  rw [← List.drop_drop, h, List.drop_left]

theorem getElem?_after (i : Nat) : chars[position + raw.length + i]? = rest[i]? := by
  rw [← List.getElem?_drop, drop_after h]

theorem run_after (all : ∀ c ∈ raw, test c) (stops : EndsRun test rest) : run chars position test = raw.length := by
  rw [run, h, takeWhile_append_endsRun all stops]

end At

/-! ## Numbers are read -/

theorem Many.getElem? (h : Many test raw) (rest : List Char) : ∃ c, (raw ++ rest)[0]? = some c ∧ test c := by
  obtain ⟨nonempty, all⟩ := h
  obtain ⟨c, more, rfl⟩ := List.exists_cons_of_ne_nil nonempty
  exact ⟨c, rfl, all c List.mem_cons_self⟩

theorem getElem?_of_drop (h : chars.drop position = s) (i : Nat) : chars[position + i]? = s[i]? := by
  rw [← List.getElem?_drop, h]

theorem run_pos_iff : 0 < run chars position test ↔ ∃ c, chars[position]? = some c ∧ test c := by
  constructor
  · intro h
    obtain ⟨c, more, hc⟩ := List.exists_cons_of_length_pos h
    have head : (chars.drop position)[0]? = some c ∧ test c := by
      have member : c ∈ (chars.drop position).takeWhile test := hc ▸ List.mem_cons_self
      obtain ⟨after, whole⟩ : (chars.drop position).takeWhile test <+: chars.drop position := List.takeWhile_prefix test
      rw [← whole, hc]
      exact ⟨rfl, List.mem_takeWhile_imp member⟩
    rw [List.getElem?_drop] at head
    exact ⟨c, head⟩
  · rintro ⟨c, hc, passes⟩
    exact run_pos hc passes

theorem exists_of_getElem?_two {a b : Char} (first : rest[0]? = some a) (second : rest[1]? = some b) :
    ∃ after, rest = a :: b :: after := by
  rcases rest with _ | ⟨c, _ | ⟨d, after⟩⟩
  · cases first
  · cases second
  · cases first
    cases second
    exact ⟨after, rfl⟩

theorem endsRun_of_head {c : Char} (fails : ¬ test c) : EndsRun test (c :: rest) := by
  rintro d ⟨⟩
  exact fails

theorem wholeEnd_eq {negative : Bool} {whole : List Char} (h : chars.drop position = minus negative ++ (whole ++ rest))
    (isWhole : Many Char.isDigit whole) (ends : EndsRun Char.isDigit rest) :
    wholeEnd chars position = position + (minus negative ++ whole).length := by
  have digits := run_after (drop_after h) isWhole.2 ends
  cases negative with
  | true =>
    have sign : chars[position]? = some '-' := getElem?_of_drop h 0
    rw [wholeEnd, if_pos sign]
    show position + 1 + run chars (position + (minus true).length) Char.isDigit = position + (whole.length + 1)
    rw [digits]
    omega
  | false =>
    obtain ⟨c, hc, digit⟩ := Many.getElem? isWhole rest
    have plain : chars[position]? ≠ some '-' := by
      rw [show chars[position]? = some c from (getElem?_of_drop h 0).trans hc]
      rintro ⟨⟩
      cases digit
    rw [wholeEnd, if_neg plain]
    exact congrArg (position + ·) digits

theorem fractionEnd_eq {fraction digits : List Char} (h : chars.drop position = fraction ++ rest)
    (isFraction : Fraction fraction digits) (ends : fraction ≠ [] → EndsRun Char.isDigit rest)
    (wholeEnds : fraction = [] → ¬ StartsFraction rest) : fractionEnd chars position = position + fraction.length := by
  cases isFraction with
  | nothing =>
    apply if_neg
    rintro ⟨point, digit⟩
    obtain ⟨c, hc, digit⟩ := run_pos_iff.mp digit
    have first := (getElem?_of_drop h 0).symm.trans point
    have second := (getElem?_of_drop h 1).symm.trans hc
    obtain ⟨after, rfl⟩ := exists_of_getElem?_two first second
    exact wholeEnds rfl ⟨c, after, rfl, digit⟩
  | digits many =>
    have point : chars[position]? = some '.' := getElem?_of_drop h 0
    have text : chars.drop position = ['.'] ++ (digits ++ rest) := h
    have after : chars.drop (position + 1) = digits ++ rest := drop_after text
    have count : digitsFrom chars (position + 1) = digits.length :=
      run_after after many.2 (ends (List.cons_ne_nil _ _))
    rw [fractionEnd, count, if_pos ⟨point, List.length_pos_iff.mpr many.1⟩, List.length_cons]
    omega

theorem Exponent.nil_or {exponent : List Char} {power : Int} (h : Exponent exponent power) :
    exponent = [] ∨ ∃ e sign digits, exponent = e :: (sign ++ digits) ∧ (e = 'e' ∨ e = 'E') ∧ IsSign sign ∧
      Many Char.isDigit digits := by
  cases h with
  | nothing => exact .inl rfl
  | @plus e sign digits he hsign many => exact .inr ⟨e, sign, digits, rfl, he, hsign.imp_right .inl, many⟩
  | @minus e digits he many => exact .inr ⟨e, ['-'], digits, rfl, he, .inr (.inr rfl), many⟩

/-- Where the digits of an exponent start, and whether there is one. -/
theorem exponentEnd_of_sign {e : Char} {sign : List Char} (h : chars.drop position = e :: (sign ++ rest))
    (he : e = 'e' ∨ e = 'E') (hsign : IsSign sign) (plain : sign = [] → ∀ c ∈ rest.head?, c ≠ '+' ∧ c ≠ '-') :
    exponentEnd chars position =
      if digitsFrom chars (position + 1 + sign.length) = 0 then position
      else position + 1 + sign.length + digitsFrom chars (position + 1 + sign.length) := by
  have first : chars[position]? = some 'e' ∨ chars[position]? = some 'E' := by
    rw [show chars[position]? = some e from getElem?_of_drop h 0]
    exact he.imp (congrArg some) (congrArg some)
  have second : chars[position + 1]? = (sign ++ rest)[0]? := getElem?_of_drop h 1
  have length : (if chars[position + 1]? = some '+' ∨ chars[position + 1]? = some '-' then 1 else 0) = sign.length := by
    obtain rfl | rfl | rfl := hsign
    · apply if_neg
      rw [second, List.nil_append, ← List.head?_eq_getElem?]
      rintro (plus | minus)
      · exact (plain rfl _ plus).1 rfl
      · exact (plain rfl _ minus).2 rfl
    · exact if_pos (.inl second)
    · exact if_pos (.inr second)
  rw [exponentEnd, if_pos first, length]

theorem exists_sign (s : List Char) :
    ∃ sign rest, s = sign ++ rest ∧ IsSign sign ∧ (sign = [] → ∀ c ∈ rest.head?, c ≠ '+' ∧ c ≠ '-') := by
  cases s with
  | nil =>
    refine ⟨[], [], rfl, .inl rfl, fun _ c hc => ?_⟩
    cases hc
  | cons c rest =>
    by_cases plus : c = '+'
    · exact ⟨['+'], rest, plus ▸ rfl, .inr (.inl rfl), fun empty => absurd empty (List.cons_ne_nil _ _)⟩
    · by_cases dash : c = '-'
      · exact ⟨['-'], rest, dash ▸ rfl, .inr (.inr rfl), fun empty => absurd empty (List.cons_ne_nil _ _)⟩
      · refine ⟨[], c :: rest, rfl, .inl rfl, fun _ d hd => ?_⟩
        cases hd
        exact ⟨plus, dash⟩

theorem sign_ne_digit {c : Char} (digit : c.isDigit) : c ≠ '+' ∧ c ≠ '-' := by
  constructor
  · rintro rfl
    cases digit
  · rintro rfl
    cases digit

theorem exponentEnd_eq {exponent : List Char} {power : Int} (h : chars.drop position = exponent ++ rest)
    (isExponent : Exponent exponent power) (ends : EndsRun Char.isDigit rest)
    (exponentEnds : exponent = [] → ¬ StartsExponent rest) :
    exponentEnd chars position = position + exponent.length := by
  obtain rfl | ⟨e, sign, digits, rfl, he, hsign, many⟩ := isExponent.nil_or
  · by_cases first : chars[position]? = some 'e' ∨ chars[position]? = some 'E'
    · obtain ⟨e, he, hfirst⟩ : ∃ e, (e = 'e' ∨ e = 'E') ∧ chars[position]? = some e :=
        first.elim (fun h => ⟨'e', .inl rfl, h⟩) fun h => ⟨'E', .inr rfl, h⟩
      obtain ⟨tail, rfl⟩ : ∃ tail, rest = e :: tail := by
        have head := (getElem?_of_drop h 0).symm.trans hfirst
        rw [List.nil_append, ← List.head?_eq_getElem?] at head
        exact List.head?_eq_some_iff.mp head
      obtain ⟨sign, after, rfl, hsign, plain⟩ := exists_sign tail
      have none : digitsFrom chars (position + 1 + sign.length) = 0 := by
        apply Nat.eq_zero_of_not_pos
        intro some
        obtain ⟨c, hc, digit⟩ := run_pos_iff.mp some
        have text : chars.drop position = [e] ++ (sign ++ after) := h
        have head := (getElem?_after (drop_after text) 0).symm.trans hc
        rw [← List.head?_eq_getElem?] at head
        obtain ⟨more, rfl⟩ := List.head?_eq_some_iff.mp head
        exact exponentEnds rfl ⟨e, sign, c, more, rfl, he, hsign, digit⟩
      rw [exponentEnd_of_sign h he hsign plain, if_pos none]
      rfl
    · exact if_neg first
  · rw [List.cons_append, List.append_assoc] at h
    have plain : sign = [] → ∀ c ∈ (digits ++ rest).head?, c ≠ '+' ∧ c ≠ '-' := by
      intro _ c hc
      obtain ⟨d, more, rfl⟩ := List.exists_cons_of_ne_nil many.1
      cases hc
      exact sign_ne_digit (many.2 c List.mem_cons_self)
    have text : chars.drop position = [e] ++ (sign ++ (digits ++ rest)) := h
    have count : digitsFrom chars (position + 1 + sign.length) = digits.length :=
      run_after (drop_after (drop_after text)) many.2 ends
    rw [exponentEnd_of_sign h he hsign plain, count, if_neg (List.length_pos_iff.mpr many.1).ne', List.length_cons,
      List.length_append]
    omega

theorem endsRun_exponent {exponent : List Char} {power : Int} (isExponent : Exponent exponent power)
    (ends : EndsRun Char.isDigit rest) : EndsRun Char.isDigit (exponent ++ rest) := by
  obtain rfl | ⟨e, sign, digits, rfl, he, -, -⟩ := isExponent.nil_or
  · exact ends
  · apply endsRun_of_head
    obtain rfl | rfl := he <;> decide

theorem endsRun_fraction {fraction digits : List Char} (isFraction : Fraction fraction digits)
    (ends : EndsRun Char.isDigit rest) : EndsRun Char.isDigit (fraction ++ rest) := by
  cases isFraction with
  | nothing => exact ends
  | digits => exact endsRun_of_head (by decide)

theorem not_startsFraction_exponent {exponent : List Char} {power : Int} (isExponent : Exponent exponent power)
    (ends : exponent = [] → ¬ StartsFraction rest) : ¬ StartsFraction (exponent ++ rest) := by
  obtain rfl | ⟨e, sign, digits, rfl, he, -, -⟩ := isExponent.nil_or
  · exact ends rfl
  · rintro ⟨digit, after, same, -⟩
    rw [List.cons_append] at same
    obtain rfl := (List.cons.inj same).1
    obtain he | he := he <;> cases he

section Number

variable {negative : Bool} {whole fraction digits exponent : List Char} {power : Int}

/-- Where the parts of a number end. -/
theorem NumberParts.ends_eq (parts : NumberParts whole fraction digits exponent power rest)
    (h : chars.drop position = minus negative ++ (whole ++ (fraction ++ (exponent ++ rest)))) :
    wholeEnd chars position = position + (minus negative ++ whole).length ∧
    exponentEnd chars (fractionEnd chars (wholeEnd chars position)) =
      position + (minus negative ++ (whole ++ (fraction ++ exponent))).length := by
  have isWhole := wholeEnd_eq h parts.isWhole
    (endsRun_fraction parts.isFraction (endsRun_exponent parts.isExponent parts.ends))
  have afterWhole : chars.drop (position + (minus negative ++ whole).length) = fraction ++ (exponent ++ rest) :=
    drop_after (by rw [h, List.append_assoc])
  have isFraction := fractionEnd_eq afterWhole parts.isFraction (fun _ => endsRun_exponent parts.isExponent parts.ends)
    fun nothing => not_startsFraction_exponent parts.isExponent (parts.wholeEnds nothing)
  have isExponent := exponentEnd_eq (drop_after afterWhole) parts.isExponent parts.ends parts.exponentEnds
  refine ⟨isWhole, ?_⟩
  rw [isWhole, isFraction, isExponent]
  simp only [List.length_append]
  omega

end Number

theorem exists_many {c : Char} (passes : test c) (after : List Char) :
    ∃ raw rest, c :: after = raw ++ rest ∧ Many test raw ∧ EndsRun test rest := by
  obtain ⟨raw, rest, whole, all, stops⟩ := exists_run test (c :: after)
  refine ⟨raw, rest, whole, ⟨?_, all⟩, stops⟩
  rintro rfl
  rw [List.nil_append] at whole
  subst whole
  exact stops c rfl passes

theorem exists_fraction (s : List Char) (stops : EndsRun Char.isDigit s) :
    ∃ fraction digits rest, s = fraction ++ rest ∧ Fraction fraction digits ∧ EndsRun Char.isDigit rest ∧
      (fraction = [] → ¬ StartsFraction rest) := by
  by_cases starts : StartsFraction s
  · obtain ⟨digit, after, rfl, hdigit⟩ := starts
    obtain ⟨digits, rest, whole, many, ends⟩ := exists_many hdigit after
    exact ⟨'.' :: digits, digits, rest, congrArg _ whole, .digits many, ends,
      fun nothing => absurd nothing (List.cons_ne_nil _ _)⟩
  · exact ⟨[], [], s, rfl, .nothing, stops, fun _ => starts⟩

theorem exists_exponent (s : List Char) (stops : EndsRun Char.isDigit s) :
    ∃ exponent power rest, s = exponent ++ rest ∧ Exponent exponent power ∧ EndsRun Char.isDigit rest ∧
      (exponent = [] → ¬ StartsExponent rest) := by
  by_cases starts : StartsExponent s
  · obtain ⟨e, sign, digit, after, rfl, he, hsign, hdigit⟩ := starts
    obtain ⟨digits, rest, whole, many, ends⟩ := exists_many hdigit after
    have text : e :: (sign ++ digit :: after) = (e :: (sign ++ digits)) ++ rest := by
      rw [whole, List.cons_append, List.append_assoc]
    obtain rfl | rfl | rfl := hsign
    · exact ⟨_, _, rest, text, .plus he (.inl rfl) many, ends, fun nothing => absurd nothing (List.cons_ne_nil _ _)⟩
    · exact ⟨_, _, rest, text, .plus he (.inr rfl) many, ends, fun nothing => absurd nothing (List.cons_ne_nil _ _)⟩
    · exact ⟨_, _, rest, text, .minus he many, ends, fun nothing => absurd nothing (List.cons_ne_nil _ _)⟩
  · exact ⟨[], 0, s, rfl, .nothing, stops, fun _ => starts⟩

/-- A text that starts with a digit starts with a number. -/
theorem exists_parts {c : Char} (hdigit : c.isDigit) (after : List Char) :
    ∃ whole fraction digits exponent power rest, c :: after = whole ++ (fraction ++ (exponent ++ rest)) ∧
      NumberParts whole fraction digits exponent power rest := by
  obtain ⟨whole, _, hwhole, many, stops⟩ := exists_many hdigit after
  obtain ⟨fraction, digits, _, rfl, isFraction, stops, wholeEnds⟩ := exists_fraction _ stops
  obtain ⟨exponent, power, rest, rfl, isExponent, ends, exponentEnds⟩ := exists_exponent _ stops
  refine ⟨whole, fraction, digits, exponent, power, rest, hwhole, many, isFraction, isExponent, ends, ?_, exponentEnds⟩
  rintro nothing rfl
  exact wholeEnds nothing

/-! ## What a number's text is parsed as -/

theorem number_eq_some (h : Many Char.isDigit raw) : Text.number raw = some (decimal raw) :=
  if_pos ⟨h.1, List.all_eq_true.mpr h.2⟩

theorem signed_minus {negative : Bool} (h : Many Char.isDigit raw) :
    signed (minus negative ++ raw) = some (if negative then -(decimal raw : Int) else decimal raw) := by
  cases negative with
  | true =>
    show (Text.number raw).map _ = _
    rw [number_eq_some h]
    rfl
  | false =>
    obtain ⟨c, more, rfl⟩ := List.exists_cons_of_ne_nil h.1
    have plain := sign_ne_digit (h.2 c List.mem_cons_self)
    show signed (c :: more) = _
    unfold signed
    split
    · exact absurd (List.cons.inj ‹_›).1 plain.2
    · exact absurd (List.cons.inj ‹_›).1 plain.1
    · rw [number_eq_some h]
      rfl

theorem parseI64_eq {negative : Bool} {whole : List Char} (h : Many Char.isDigit whole) :
    (parseI64 (minus negative ++ whole)).map Kind.int = numberKind negative whole [] [] [] 0 := by
  rw [parseI64, signed_minus h]
  show ((some _).filter _ |>.map Int64.ofInt).map Kind.int = if _ ∧ _ then some _ else none
  generalize (if negative then -(decimal whole : Int) else decimal whole) = value
  by_cases fits : -2 ^ 63 ≤ value ∧ value < 2 ^ 63
  · rw [if_pos fits, Option.filter_some, if_pos (by simpa using fits)]
    rfl
  · rw [if_neg fits, Option.filter_some, if_neg (by simpa using fits)]
    rfl

theorem exponent_eq {exponent : List Char} {power : Int} (h : Exponent exponent power) :
    F64.exponent exponent = some power := by
  cases h with
  | nothing => rfl
  | @plus e sign digits he hsign many =>
    have value : signed (sign ++ digits) = some (decimal digits : Int) := by
      obtain rfl | rfl := hsign
      · exact (signed_minus many : signed (minus false ++ digits) = _)
      · show (Text.number digits).map _ = _
        rw [number_eq_some many]
        rfl
    obtain rfl | rfl := he
    · exact value
    · exact value
  | @minus e digits he many =>
    have value : signed ('-' :: digits) = some (-(decimal digits : Int)) :=
      (signed_minus many : signed (minus true ++ digits) = _)
    obtain rfl | rfl := he
    · exact value
    · exact value

theorem sign_eq {negative : Bool} (h : Many Char.isDigit raw) :
    F64.sign (minus negative ++ (raw ++ rest)) = (negative, raw ++ rest) := by
  cases negative with
  | true => rfl
  | false =>
    obtain ⟨c, more, rfl⟩ := List.exists_cons_of_ne_nil h.1
    have plain := sign_ne_digit (h.2 c List.mem_cons_self)
    show F64.sign (c :: (more ++ rest)) = _
    unfold F64.sign
    split
    · exact absurd (List.cons.inj ‹_›).1 plain.2
    · exact absurd (List.cons.inj ‹_›).1 plain.1
    · rfl

theorem dropWhile_append_endsRun (all : ∀ c ∈ raw, test c) (stops : EndsRun test rest) :
    (raw ++ rest).dropWhile test = rest := by
  have whole := List.takeWhile_append_dropWhile (p := test) (l := raw ++ rest)
  rw [takeWhile_append_endsRun all stops] at whole
  exact List.append_cancel_left whole

theorem mantissa_eq {whole fraction digits : List Char} (isWhole : Many Char.isDigit whole)
    (isFraction : Fraction fraction digits) (stops : EndsRun Char.isDigit rest) (other : ∀ c ∈ rest.head?, c ≠ '.') :
    F64.mantissa (whole ++ (fraction ++ rest)) = (whole, digits, rest) := by
  have ends := endsRun_fraction isFraction stops
  rw [F64.mantissa, takeWhile_append_endsRun isWhole.2 ends, dropWhile_append_endsRun isWhole.2 ends]
  cases isFraction with
  | nothing =>
    split
    case h_1 after same =>
      rw [List.nil_append] at same
      exact absurd rfl (other '.' (by rw [same]; rfl))
    case h_2 => rfl
  | digits many =>
    show (_, ((digits ++ rest).takeWhile Char.isDigit), ((digits ++ rest).dropWhile Char.isDigit)) = _
    rw [takeWhile_append_endsRun many.2 stops, dropWhile_append_endsRun many.2 stops]

theorem parse_eq {negative : Bool} {whole fraction digits exponent : List Char} {power : Int}
    (isWhole : Many Char.isDigit whole) (isFraction : Fraction fraction digits) (isExponent : Exponent exponent power) :
    F64.parse (minus negative ++ (whole ++ (fraction ++ exponent))) =
      some (F64.nearest negative (decimal (whole ++ digits)) (power - digits.length)) := by
  have none : EndsRun Char.isDigit [] := by
    rintro c ⟨⟩
  have stops : EndsRun Char.isDigit exponent := by
    have more := endsRun_exponent isExponent none
    rwa [List.append_nil] at more
  have other : ∀ c ∈ exponent.head?, c ≠ '.' := by
    obtain rfl | ⟨e, sign, digits, rfl, he, -, -⟩ := isExponent.nil_or
    · rintro c ⟨⟩
    · rintro c ⟨⟩
      obtain rfl | rfl := he <;> decide
  rw [F64.parse, sign_eq isWhole]
  dsimp only
  rw [mantissa_eq isWhole isFraction stops other]
  dsimp only
  rw [if_neg fun empty => isWhole.1 empty.1, exponent_eq isExponent]
  rfl

theorem numberKind_eq {negative : Bool} {whole fraction digits exponent : List Char} {power : Int}
    (isWhole : Many Char.isDigit whole) (isFraction : Fraction fraction digits) (isExponent : Exponent exponent power) :
    (if fraction = [] ∧ exponent = [] then (parseI64 (minus negative ++ (whole ++ (fraction ++ exponent)))).map Kind.int
      else ((F64.parse (minus negative ++ (whole ++ (fraction ++ exponent)))).filter F64.isFinite).map Kind.float) =
      numberKind negative whole fraction digits exponent power := by
  by_cases integer : fraction = [] ∧ exponent = []
  · rw [if_pos integer]
    obtain ⟨rfl, rfl⟩ := integer
    rw [List.append_nil, List.append_nil, parseI64_eq isWhole]
    exact (if_pos ⟨rfl, rfl⟩).trans (if_pos ⟨rfl, rfl⟩).symm
  · rw [if_neg integer, parse_eq isWhole isFraction isExponent, numberKind, if_neg integer, Option.filter_some]
    dsimp only
    split <;> rfl

/-- A number is read as far as its parts go. -/
theorem number_eq {negative : Bool} {whole fraction digits exponent : List Char} {power : Int}
    (parts : NumberParts whole fraction digits exponent power rest)
    (h : chars.drop position = minus negative ++ (whole ++ (fraction ++ (exponent ++ rest)))) {kind : Kind}
    {next : Nat} : number chars position = .ok (kind, next) ↔
      next = position + (minus negative ++ (whole ++ (fraction ++ exponent))).length ∧
        numberKind negative whole fraction digits exponent power = some kind := by
  obtain ⟨wholeEnds, exponentEnds⟩ := parts.ends_eq h
  have literal : (chars.drop position).take (position + (minus negative ++ (whole ++ (fraction ++ exponent))).length -
      position) = minus negative ++ (whole ++ (fraction ++ exponent)) := by
    have whole : chars.drop position = (minus negative ++ (whole ++ (fraction ++ exponent))) ++ rest := by
      rw [h]
      simp only [List.append_assoc]
    rw [Nat.add_sub_cancel_left, whole, List.take_left]
  have integer : position + (minus negative ++ (whole ++ (fraction ++ exponent))).length =
      position + (minus negative ++ whole).length ↔ fraction = [] ∧ exponent = [] := by
    simp only [List.length_append, ← List.length_eq_zero_iff]
    omega
  rw [number, exponentEnds, wholeEnds, literal, if_congr integer rfl rfl,
    numberKind_eq parts.isWhole parts.isFraction parts.isExponent]
  cases numberKind negative whole fraction digits exponent power with
  | none =>
    constructor
    · rintro ⟨⟩
    · rintro ⟨-, ⟨⟩⟩
  | some found =>
    constructor
    · rintro ⟨⟩
      exact ⟨rfl, rfl⟩
    · rintro ⟨rfl, ⟨⟩⟩
      rfl

/-! ## Strings are read -/

theorem hexDigit_lt {c : Char} {digit : Nat} (h : Reading.hexDigit c = some digit) : digit < 16 := by
  unfold Reading.hexDigit at h
  split_ifs at h with decimal lower upper
  · have high : c.toNat ≤ 57 := (Char.isDigit_iff_toNat.mp decimal).2
    cases h
    exact Nat.lt_of_le_of_lt (Nat.sub_le_sub_right high 48) (by decide)
  · have high : c.toNat ≤ 102 := lower.2
    cases h
    exact Nat.lt_of_le_of_lt (Nat.add_le_add_right (Nat.sub_le_sub_right high 97) 10) (by decide)
  · have high : c.toNat ≤ 70 := upper.2
    cases h
    exact Nat.lt_of_le_of_lt (Nat.add_le_add_right (Nat.sub_le_sub_right high 65) 10) (by decide)

theorem hexValue_lt {digits : List Char} {code : Nat} (h : hexValue digits = some code) :
    code < 16 ^ digits.length := by
  suffices general : ∀ start bound, start < bound →
      digits.foldlM (fun code c => (Reading.hexDigit c).map fun digit => code * 16 + digit) start = some code →
      code < bound * 16 ^ digits.length by
    have fits := general 0 1 Nat.one_pos h
    omega
  clear h
  induction digits with
  | nil =>
    rintro start bound small ⟨⟩
    simpa using small
  | cons c digits ih =>
    intro start bound small h
    rw [List.foldlM_cons] at h
    obtain ⟨_, hnext, h⟩ := Option.bind_eq_some_iff.mp h
    obtain ⟨digit, hdigit, rfl⟩ := Option.map_eq_some_iff.mp hnext
    have fits := ih _ (bound * 16) (by have := hexDigit_lt hdigit; omega) h
    rwa [List.length_cons, Nat.pow_succ', ← Nat.mul_assoc]

theorem hex4_eq_some {start code : Nat} : hex4 chars start = some code ↔
    ∃ digits rest, chars.drop start = digits ++ rest ∧ digits.length = 4 ∧ hexValue digits = some code := by
  rw [hex4]
  constructor
  · intro h
    split_ifs at h with four
    exact ⟨_, _, (List.take_append_drop 4 _).symm, four, h⟩
  · rintro ⟨digits, rest, whole, four, h⟩
    have same : (chars.drop start).take 4 = digits := by rw [whole, ← four, List.take_left]
    rw [same, if_pos four, h]

theorem fromU32_eq_some {code : Nat} {c : Char} : fromU32 code = some c ↔ code.isValidChar ∧ c = Char.ofNat code := by
  rw [fromU32]
  constructor
  · intro h
    split_ifs at h with valid
    exact ⟨valid, (Option.some.inj h).symm⟩
  · rintro ⟨valid, rfl⟩
    exact if_pos valid

theorem lowHalf_eq_some {low : Nat} (h : chars.drop (position + 6) = s) : lowHalf chars position = some low ↔
    ∃ digits rest, s = '\\' :: 'u' :: (digits ++ rest) ∧ digits.length = 4 ∧ hexValue digits = some low ∧
      0xdc00 ≤ low ∧ low < 0xe000 := by
  have after {text : List Char} (same : s = '\\' :: 'u' :: text) : chars.drop (position + 8) = text := by
    have whole : chars.drop (position + 6) = ['\\', 'u'] ++ text := h.trans same
    exact drop_after whole
  rw [lowHalf, show chars[position + 6]? = s[0]? from getElem?_of_drop h 0,
    show chars[position + 7]? = s[1]? from getElem?_of_drop h 1, Option.filter_eq_some_iff]
  constructor
  · rintro ⟨hlow, range⟩
    split_ifs at hlow with escaped
    obtain ⟨text, rfl⟩ := exists_of_getElem?_two escaped.1 escaped.2
    obtain ⟨digits, rest, whole, four, value⟩ := hex4_eq_some.mp hlow
    rw [after rfl] at whole
    exact ⟨digits, rest, by rw [whole], four, value, by simpa using range⟩
  · rintro ⟨digits, rest, rfl, four, value, range⟩
    rw [if_pos ⟨rfl, rfl⟩]
    exact ⟨hex4_eq_some.mpr ⟨digits, rest, after rfl, four, value⟩, by simpa using range⟩

theorem isValidChar_of_lt {code : Nat} (small : code < 0x10000) :
    code.isValidChar ↔ ¬(0xd800 ≤ code ∧ code < 0xe000) := by
  unfold Nat.isValidChar
  omega

theorem unicode_eq_some {c : Char} {next : Nat}
    (h : chars.drop position = '\\' :: 'u' :: s) : unicode chars position = some (c, next) ↔
      ∃ raw rest, s = raw ++ rest ∧ next = position + 2 + raw.length ∧ Escape ('u' :: raw) c := by
  have start : chars.drop (position + 2) = s := by
    have whole : chars.drop position = ['\\', 'u'] ++ s := h
    exact drop_after whole
  have low {digits rest : List Char} (whole : s = digits ++ rest) (four : digits.length = 4) :
      chars.drop (position + 6) = rest := by
    have after := drop_after (start.trans whole)
    rwa [four] at after
  constructor
  · intro read
    obtain ⟨first, hfirst, read⟩ := Option.bind_eq_some_iff.mp read
    obtain ⟨digits, rest, whole, four, value⟩ := hex4_eq_some.mp hfirst
    rw [start] at whole
    have small : first < 0x10000 := by
      have fits := hexValue_lt value
      rwa [four] at fits
    split_ifs at read with isHigh
    · obtain ⟨second, hsecond, read⟩ := Option.bind_eq_some_iff.mp read
      obtain ⟨digits', rest', rfl, four', value', isLow⟩ := (lowHalf_eq_some (low whole four)).mp hsecond
      obtain ⟨_, hc, read⟩ := Option.bind_eq_some_iff.mp read
      obtain ⟨-, same⟩ := fromU32_eq_some.mp hc
      obtain ⟨rfl, rfl⟩ := Prod.mk.inj (Option.some.inj read)
      rw [same]
      refine ⟨digits ++ '\\' :: 'u' :: digits', rest', ?_, ?_, .pair value four value' four' isHigh isLow⟩
      · rw [whole, List.append_assoc]
        rfl
      · rw [List.length_append, List.length_cons, List.length_cons, four, four']
    · obtain ⟨_, hc, read⟩ := Option.bind_eq_some_iff.mp read
      obtain ⟨valid, rfl⟩ := fromU32_eq_some.mp hc
      cases read
      exact ⟨digits, rest, whole, by rw [four], .basic value four ((isValidChar_of_lt small).mp valid)⟩
  · rintro ⟨raw, rest, rfl, rfl, escape⟩
    cases escape with
    | simple none => cases none
    | @basic _ code value four whole =>
      have small : code < 0x10000 := by
        have fits := hexValue_lt value
        rwa [four] at fits
      have first : hex4 chars (position + 2) = some code := hex4_eq_some.mpr ⟨raw, rest, start, four, value⟩
      have basic : ¬(0xd800 ≤ code ∧ code < 0xdc00) := by omega
      rw [unicode, first, Option.bind_eq_bind, Option.bind_some, if_neg basic,
        fromU32_eq_some.mpr ⟨(isValidChar_of_lt small).mpr whole, rfl⟩, four]
      rfl
    | @pair high digits first second hhigh four hlow four' isHigh isLow =>
      have whole : high ++ '\\' :: 'u' :: digits ++ rest = high ++ ('\\' :: 'u' :: (digits ++ rest)) := by
        rw [List.append_assoc]
        rfl
      have hfirst : hex4 chars (position + 2) = some first :=
        hex4_eq_some.mpr ⟨high, _, start.trans whole, four, hhigh⟩
      have hsecond : lowHalf chars position = some second :=
        (lowHalf_eq_some (low whole four)).mpr ⟨digits, rest, rfl, four', hlow, isLow⟩
      have valid : (0x10000 + (first - 0xd800) * 1024 + (second - 0xdc00)).isValidChar := by
        unfold Nat.isValidChar
        omega
      rw [unicode, hfirst, Option.bind_eq_bind, Option.bind_some, if_pos isHigh, hsecond, Option.bind_eq_bind,
        Option.bind_some, fromU32_eq_some.mpr ⟨valid, rfl⟩, List.length_append, List.length_cons, List.length_cons,
        four,
        four']
      rfl

theorem escapeAt_unicode {read : Char × Nat} (h : chars[position + 1]? = some 'u') :
    escapeAt chars position = .ok read ↔ unicode chars position = some read := by
  unfold escapeAt
  rw [h]
  dsimp only
  cases unicode chars position <;> simp

theorem escapeAt_simple {letter : Char} {read : Char × Nat} (h : chars[position + 1]? = some letter)
    (other : letter ≠ 'u') :
    escapeAt chars position = .ok read ↔ ∃ c, simple letter = some c ∧ (c, position + 2) = read := by
  unfold escapeAt
  dsimp only
  split
  case h_1 found same =>
    split at same
    case h_1 is => exact absurd (Option.some.inj (h.symm.trans is)) other
    case h_2 =>
      rw [h] at same
      obtain ⟨c, hc, rfl⟩ := Option.map_eq_some_iff.mp same
      rw [Option.bind_some] at hc
      simp [hc]
  case h_2 same =>
    split at same
    case h_1 is => exact absurd (Option.some.inj (h.symm.trans is)) other
    case h_2 =>
      rw [h, Option.map_eq_none_iff, Option.bind_some] at same
      simp [same]

theorem escapeAt_eq_ok {c : Char} {next : Nat} (h : chars.drop position = '\\' :: s) :
    escapeAt chars position = .ok (c, next) ↔
      ∃ raw rest, s = raw ++ rest ∧ next = position + 1 + raw.length ∧ Escape raw c := by
  have second : chars[position + 1]? = s[0]? := getElem?_of_drop h 1
  cases s with
  | nil =>
    have missing : escapeAt chars position = .error (invalidEscape position) := by
      unfold escapeAt
      rw [second]
      rfl
    rw [missing]
    constructor
    · rintro ⟨⟩
    · rintro ⟨raw, rest, whole, -, escape⟩
      obtain ⟨rfl, rfl⟩ := List.append_eq_nil_iff.mp whole.symm
      cases escape
  | cons letter after =>
    by_cases isUnicode : letter = 'u'
    · subst isUnicode
      rw [escapeAt_unicode second, unicode_eq_some h]
      constructor
      · rintro ⟨raw, rest, rfl, rfl, escape⟩
        exact ⟨'u' :: raw, rest, rfl, by rw [List.length_cons]; omega, escape⟩
      · rintro ⟨raw, rest, whole, rfl, escape⟩
        obtain ⟨raw, rfl⟩ : ∃ more, raw = 'u' :: more := by
          obtain _ | ⟨letter, more⟩ := raw
          · cases escape
          · exact ⟨more, by rw [(List.cons.inj whole).1]⟩
        exact ⟨raw, rest, (List.cons.inj whole).2, by rw [List.length_cons]; omega, escape⟩
    · rw [escapeAt_simple second isUnicode]
      constructor
      · rintro ⟨c, hc, same⟩
        obtain ⟨rfl, rfl⟩ := Prod.mk.inj same
        exact ⟨[letter], after, rfl, rfl, .simple hc⟩
      · rintro ⟨raw, rest, whole, rfl, escape⟩
        cases escape with
        | @simple found _ hc =>
          obtain rfl := (List.cons.inj whole).1
          exact ⟨c, hc, rfl⟩
        | basic => exact absurd (List.cons.inj whole).1 isUnicode
        | pair => exact absurd (List.cons.inj whole).1 isUnicode

theorem exists_of_getElem? {c : Char} (h : chars.drop position = s) (hc : chars[position]? = some c) :
    ∃ after, s = c :: after := by
  have head : s[0]? = some c := (getElem?_of_drop h 0).symm.trans hc
  rw [← List.head?_eq_getElem?] at head
  exact List.head?_eq_some_iff.mp head

theorem drop_succ {c : Char} (h : chars.drop position = c :: s) : chars.drop (position + 1) = s := by
  have whole : chars.drop position = [c] ++ s := h
  exact drop_after whole

theorem readsText_iff {quote : Char} {read : List Char} {last : Nat} (own : quote ≠ '\\')
    (h : chars.drop position = s) : ReadsText chars quote position read last ↔
      ∃ raw rest, s = raw ++ quote :: rest ∧ last = position + raw.length + 1 ∧ Spelled quote raw read := by
  constructor
  · intro reads
    induction reads generalizing s with
    | closed hc =>
      obtain ⟨rest, rfl⟩ := exists_of_getElem? h hc
      exact ⟨[], rest, rfl, rfl, .nil⟩
    | escape hc _ escaped _ ih =>
      obtain ⟨after, rfl⟩ := exists_of_getElem? h hc
      obtain ⟨escape, more, rfl, rfl, isEscape⟩ := (escapeAt_eq_ok h).mp escaped
      obtain ⟨raw, rest, rfl, rfl, spelled⟩ := ih (drop_after (drop_succ h))
      refine ⟨'\\' :: (escape ++ raw), rest, by simp, ?_, .escape isEscape spelled⟩
      rw [List.length_cons, List.length_append]
      omega
    | plain hc inside unescaped printable _ ih =>
      obtain ⟨after, rfl⟩ := exists_of_getElem? h hc
      obtain ⟨raw, rest, rfl, rfl, spelled⟩ := ih (drop_succ h)
      refine ⟨_ :: raw, rest, rfl, ?_, .plain inside unescaped printable spelled⟩
      rw [List.length_cons]
      omega
  · rintro ⟨raw, rest, rfl, rfl, spelled⟩
    induction spelled generalizing position with
    | nil => exact .closed (getElem?_of_drop h 0)
    | @plain c raw _ inside unescaped printable _ ih =>
      have rest := ih (drop_succ h)
      rw [Nat.succ_add_eq_add_succ] at rest
      exact .plain (getElem?_of_drop h 0) inside unescaped printable rest
    | @escape c escape raw _ isEscape _ ih =>
      have text : chars.drop position = '\\' :: (escape ++ (raw ++ quote :: rest)) := by
        rw [h, List.cons_append, List.append_assoc]
      have read := ih (drop_after (drop_succ text))
      have same : position + 1 + escape.length + raw.length = position + ('\\' :: (escape ++ raw)).length := by
        rw [List.length_cons, List.length_append]
        omega
      rw [same] at read
      exact .escape (getElem?_of_drop h 0) own ((escapeAt_eq_ok text).mpr ⟨escape, _, rfl, rfl, isEscape⟩) read

end AsceticDdd.Specification.Jsonpath
