import AsceticDdd.Postgres.Ordered
import AsceticDdd.Text.Separated
import Mathlib.Algebra.Group.Int.Defs
import Mathlib.Algebra.Group.Nat.Defs

/-!
# One text for one value

A value as compact JSON, the keys of an object in the order of their bytes. A text says everything of its value but
the order its keys were in.
-/

namespace AsceticDdd.Dek.Canonical

open Keyed Postgres Text

/-- A character of a number's text. -/
def IsPart (c : Char) : Prop := Numeric.IsPart c ∨ c = 'e' ∨ c = '+'

/-- Numbers of 64 bits in binary floating point, without infinities. -/
class Floats (F : Type) where
  /-- The shortest text that is read back as the number. -/
  text : F → List Char
  /-- What the server reads in the text. -/
  numeral : F → Numeral
  isPart : ∀ {x c}, c ∈ text x → IsPart c
  marked : ∀ x, '.' ∈ text x ∨ 'e' ∈ text x
  spelled : ∀ {x y}, text x = text y → numeral x = numeral y
  apart : ∀ {x y}, Numeric.Same (numeral x).numeric (numeral y).numeric →
    (numeral x).negative = (numeral y).negative → x = y

/-- A value without such numbers. -/
instance : Floats Empty where
  text := Empty.elim
  numeral := Empty.elim
  isPart {x} := x.elim
  marked x := x.elim
  spelled {x} := x.elim
  apart {x} := x.elim

/-- A number of `serde_json`. -/
inductive Number (F : Type)
  | int (value : Int) (fits : -2 ^ 63 ≤ value ∧ value < 2 ^ 64)
  | float (value : F)
deriving DecidableEq

namespace Number

variable {F : Type} [Floats F]

def text : Number F → List Char
  | int value _ => display value
  | float value => Floats.text value

def numeral : Number F → Numeral
  | int value _ => ⟨value < 0, value.natAbs, 0, 0⟩
  | float value => Floats.numeral value

end Number

/-- The escape of a character in a text. -/
def escape (c : Char) : List Char :=
  if c = '\x22' then ['\x5c', '\x22']
  else if c = '\x5c' then ['\x5c', '\x5c']
  else if c = '\x08' then ['\x5c', 'b']
  else if c = '\x0c' then ['\x5c', 'f']
  else if c = '\n' then ['\x5c', 'n']
  else if c = '\r' then ['\x5c', 'r']
  else if c = '\t' then ['\x5c', 't']
  else if c.toNat < 32 then ['\x5c', 'u', '0', '0', Nat.digitChar (c.toNat / 16), Nat.digitChar (c.toNat % 16)]
  else [c]

def quote (text : String) : List Char := '\x22' :: (text.toList.flatMap escape ++ ['\x22'])

def field (member : String × List Char) : List Char := quote member.1 ++ ':' :: member.2

section Write

variable {F : Type} [Floats F]

mutual

def write : Json (Number F) → List Char
  | .object fields => '\x7b' :: (separated ((sortByKey (· ≤ ·) (writeFields fields)).map field) ++ ['\x7d'])
  | .array items => '[' :: (separated (writeItems items) ++ [']'])
  | .null => "null".toList
  | .bool value => (toString value).toList
  | .number value => value.text
  | .string text => quote text

def writeItems : List (Json (Number F)) → List (List Char)
  | [] => []
  | item :: items => write item :: writeItems items

def writeFields : List (String × Json (Number F)) → List (String × List Char)
  | [] => []
  | (key, value) :: fields => (key, write value) :: writeFields fields

end

def json (value : Json (Number F)) : String := String.ofList (write value)

end Write

/-! ## Numbers and texts are read back -/

def hexValue (c : Char) : Nat := if c.isDigit then c.toNat - 48 else c.toNat - 87

/-- The character whose escape goes on so. -/
def unescapeRest : List Char → Option (Char × List Char)
  | 'u' :: _ :: _ :: high :: low :: rest => some (Char.ofNat (16 * hexValue high + hexValue low), rest)
  | 'b' :: rest => some ('\x08', rest)
  | 'f' :: rest => some ('\x0c', rest)
  | 'n' :: rest => some ('\n', rest)
  | 'r' :: rest => some ('\r', rest)
  | 't' :: rest => some ('\t', rest)
  | c :: rest => some (c, rest)
  | [] => none

/-- The first character of an escaped text. -/
def unescape : List Char → Option (Char × List Char)
  | [] => none
  | c :: rest => if c = '\x5c' then unescapeRest rest else some (c, rest)

theorem hexValue_digitChar {n : Nat} (small : n < 16) : hexValue (Nat.digitChar n) = n := by
  have values : ∀ i : Fin 16, hexValue (Nat.digitChar i) = i := by decide
  exact values ⟨n, small⟩

theorem unescape_escape (c : Char) (rest : List Char) : unescape (escape c ++ rest) = some (c, rest) := by
  unfold escape
  split_ifs with quotes slash back form line carriage tab control
  · subst quotes
    rfl
  · subst slash
    rfl
  · subst back
    rfl
  · subst form
    rfl
  · subst line
    rfl
  · subst carriage
    rfl
  · subst tab
    rfl
  · have value : 16 * hexValue (Nat.digitChar (c.toNat / 16)) + hexValue (Nat.digitChar (c.toNat % 16)) = c.toNat := by
      rw [hexValue_digitChar (by omega), hexValue_digitChar (by omega)]
      omega
    show some (Char.ofNat (16 * hexValue _ + hexValue _), rest) = _
    rw [value, Char.ofNat_toNat]
  · exact if_neg slash

theorem escape_isCode : IsCode escape where
  nonempty c h := by
    have read := unescape_escape c []
    rw [h] at read
    cases read
  cancel {c d s t} same := by
    have read := unescape_escape c s
    rw [same, unescape_escape] at read
    obtain ⟨rfl, rfl⟩ := Prod.mk.inj (Option.some.inj read)
    exact ⟨rfl, rfl⟩

theorem head_escape (c : Char) : (escape c).head? ≠ some '\x22' := by
  unfold escape
  split_ifs with quotes slash back form line carriage tab control
  all_goals simp_all

theorem quote_cancel {a b : String} {s t : List Char} (same : quote a ++ s = quote b ++ t) : a = b ∧ s = t := by
  rw [quote, quote, List.cons_append, List.cons_append, List.append_assoc, List.append_assoc] at same
  obtain ⟨texts, rest⟩ := escape_isCode.cancel_stop head_escape (List.cons.inj same).2
  exact ⟨String.toList_inj.mp texts, rest⟩

theorem isPart_of_mem_display {z : Int} {c : Char} (h : c ∈ display z) : c.isDigit ∨ c = '-' := by
  unfold display at h
  split at h
  · obtain rfl | digit := List.mem_cons.mp h
    · exact .inr rfl
    · exact .inl (isDigit_of_mem_digits digit)
  · exact .inl (isDigit_of_mem_digits h)

namespace Number

variable {F : Type} [Floats F] {x y : Number F}

theorem isPart {c : Char} (h : c ∈ x.text) : IsPart c := by
  cases x with
  | int value fits =>
    obtain digit | sign := isPart_of_mem_display h
    · exact .inl (.inl digit)
    · exact .inl (.inr (.inl sign))
  | float value => exact Floats.isPart h

theorem int_ne_float {value : Int} {fits} {value' : F} : (int (F := F) value fits).text ≠ (float value').text := by
  intro same
  have part : ∀ c ∈ Floats.text value', c.isDigit ∨ c = '-' := by
    intro c hc
    rw [show Floats.text value' = display value from same.symm] at hc
    exact isPart_of_mem_display hc
  obtain point | exponent := Floats.marked value'
  · exact absurd (part _ point) (by decide)
  · exact absurd (part _ exponent) (by decide)

theorem text_injective (same : x.text = y.text) : x = y := by
  cases x with
  | int value fits =>
    cases y with
    | int value' fits' =>
      have values := congrArg signed same
      rw [text, text, signed_display, signed_display] at values
      cases Option.some.inj values
      rfl
    | float value' => exact absurd same int_ne_float
  | float value =>
    cases y with
    | int value' fits' => exact absurd same.symm int_ne_float
    | float value' =>
      have numerals := Floats.spelled same
      rw [Floats.apart (x := value) (y := value') (numerals ▸ rfl) (numerals ▸ rfl)]

theorem text_ne_nil (x : Number F) : x.text ≠ [] := by
  intro empty
  cases x with
  | int value fits =>
    have value := signed_display value
    rw [show display _ = [] from empty] at value
    cases value
  | float value =>
    obtain point | exponent := Floats.marked value
    · rw [show Floats.text value = [] from empty] at point
      cases point
    · rw [show Floats.text value = [] from empty] at exponent
      cases exponent

end Number

/-! ## Texts are cut where they end -/

/-- A text that may follow a number. -/
def Follows (rest : List Char) : Prop := ∀ c ∈ rest.head?, ¬ IsPart c

theorem not_isPart {c : Char} (digit : c.isDigit = false) (others : c ∉ ['-', '.', 'e', '+']) : ¬ IsPart c := by
  simp only [List.mem_cons, List.not_mem_nil, or_false, not_or] at others
  rintro ((h | h | h) | h | h)
  · exact absurd (digit.symm.trans h) (by decide)
  · exact others.1 h
  · exact others.2.1 h
  · exact others.2.2.1 h
  · exact others.2.2.2 h

theorem follows_stop {stop : Char} (digit : stop.isDigit = false) (others : stop ∉ ['-', '.', 'e', '+'])
    (rest : List Char) : Follows (stop :: rest) := by
  rintro c ⟨⟩
  exact not_isPart digit others

theorem follows_comma (rest : List Char) : Follows (',' :: rest) := follows_stop rfl (by decide) rest

theorem follows_nil : Follows [] := by
  rintro c ⟨⟩

section Write

variable {F : Type} [Floats F] {a b : Json (Number F)}

theorem writeItems_eq (items : List (Json (Number F))) : writeItems items = items.map write := by
  induction items with
  | nil => rfl
  | cons item items ih => rw [writeItems, ih, List.map_cons]

theorem writeFields_eq (fields : List (String × Json (Number F))) :
    writeFields fields = fields.map (Prod.map id write) := by
  induction fields with
  | nil => rfl
  | cons member fields ih =>
    rw [writeFields, ih, List.map_cons]
    rfl

theorem write_object (fields : List (String × Json (Number F))) : write (.object fields) = '\x7b' ::
    (separated ((sortByKey (· ≤ ·) fields).map fun member => field (member.1, write member.2)) ++ ['\x7d']) := by
  rw [write, writeFields_eq, sortByKey_map, List.map_map]
  rfl

theorem write_array (items : List (Json (Number F))) :
    write (.array items) = '[' :: (separated (items.map write) ++ [']']) := by
  rw [write, writeItems_eq]

/-- What a value is, by the first character of its text. -/
def kindOf (c : Char) : Nat :=
  if c = 'n' then 0 else if c = 't' ∨ c = 'f' then 1 else if c = '\x22' then 3 else if c = '[' then 4
  else if c = '\x7b' then 5 else if c = ']' ∨ c = '\x7d' then 6 else 2

def kind : Json (Number F) → Nat
  | .null => 0
  | .bool _ => 1
  | .number _ => 2
  | .string _ => 3
  | .array _ => 4
  | .object _ => 5

theorem kindOf_isPart {c : Char} (h : IsPart c) : kindOf c = 2 := by
  have other : ∀ d : Char, d.isDigit = false → d ∉ ['-', '.', 'e', '+'] → c ≠ d := by
    rintro d digit others rfl
    exact not_isPart digit others h
  rw [kindOf, if_neg (other 'n' rfl (by decide)),
    if_neg (not_or.mpr ⟨other 't' rfl (by decide), other 'f' rfl (by decide)⟩), if_neg (other '\x22' rfl (by decide)),
    if_neg (other '[' rfl (by decide)), if_neg (other '\x7b' rfl (by decide)),
    if_neg (not_or.mpr ⟨other ']' rfl (by decide), other '\x7d' rfl (by decide)⟩)]

theorem write_kind (a : Json (Number F)) : ∃ c rest, write a = c :: rest ∧ kindOf c = kind a := by
  cases a with
  | null => exact ⟨'n', _, rfl, rfl⟩
  | bool value =>
    cases value with
    | false => exact ⟨'f', _, rfl, rfl⟩
    | true => exact ⟨'t', _, rfl, rfl⟩
  | number value =>
    obtain ⟨c, rest, htext⟩ := List.exists_cons_of_ne_nil value.text_ne_nil
    exact ⟨c, rest, htext, kindOf_isPart (Number.isPart (htext ▸ List.mem_cons_self))⟩
  | string text => exact ⟨'\x22', _, rfl, rfl⟩
  | array items => exact ⟨'[', _, rfl, rfl⟩
  | object fields => exact ⟨'\x7b', _, rfl, rfl⟩

theorem kind_eq {s t : List Char} (same : write a ++ s = write b ++ t) : kind a = kind b := by
  obtain ⟨c, rest, ha, hc⟩ := write_kind a
  obtain ⟨d, rest', hb, hd⟩ := write_kind b
  rw [ha, hb] at same
  rw [← hc, ← hd, (List.cons.inj same).1]

theorem write_starts (stop : Char) (hstop : kindOf stop = 6) (a : Json (Number F)) (rest rest' : List Char) :
    write a ++ rest ≠ stop :: rest' := by
  intro same
  obtain ⟨c, after, ha, hc⟩ := write_kind a
  rw [ha] at same
  rw [(List.cons.inj same).1, hstop] at hc
  cases a <;> cases hc

theorem field_cut {member : String × Json (Number F)} (cut : Cut Follows write (Json.ordered (· ≤ ·)) member.2) :
    Cut Follows (fun member => field (member.1, write member.2)) (Prod.map id (Json.ordered (· ≤ ·))) member := by
  intro other s t hs ht same
  simp only [field, List.append_assoc, List.cons_append] at same
  obtain ⟨keys, rest⟩ := quote_cancel same
  obtain ⟨values, after⟩ := cut hs ht (List.cons.inj rest).2
  exact ⟨Prod.ext keys values, after⟩

/-- A value's text says the value, in the order of its keys' bytes. -/
theorem write_cut (a : Json (Number F)) : Cut Follows write (Json.ordered (· ≤ ·)) a := by
  induction a using Json.induction with
  | null =>
    intro b s t _ _ same
    cases b with
    | null => exact ⟨rfl, List.append_cancel_left same⟩
    | _ => cases kind_eq same
  | bool value =>
    intro b s t _ _ same
    cases b with
    | bool value' =>
      cases value <;> cases value'
      · exact ⟨rfl, List.append_cancel_left same⟩
      · exact absurd (List.cons.inj same).1 (by decide)
      · exact absurd (List.cons.inj same).1 (by decide)
      · exact ⟨rfl, List.append_cancel_left same⟩
    | _ => cases kind_eq same
  | number value =>
    intro b s t hs ht same
    cases b with
    | number value' =>
      obtain ⟨texts, rest⟩ := Json.append_cancel (fun _ => Number.isPart) (fun _ => Number.isPart) hs ht same
      exact ⟨congrArg Json.number (Number.text_injective texts), rest⟩
    | _ => cases kind_eq same
  | string text =>
    intro b s t _ _ same
    cases b with
    | string text' =>
      obtain ⟨rfl, rest⟩ := quote_cancel same
      exact ⟨rfl, rest⟩
    | _ => cases kind_eq same
  | array items ih =>
    intro b s t _ _ same
    cases b with
    | array items' =>
      simp only [write_array, List.cons_append, List.append_assoc, List.nil_append, List.cons.injEq, true_and] at same
      obtain ⟨values, rest⟩ := separated_cancel follows_comma (follows_stop rfl (by decide)) (by decide)
        (write_starts ']' rfl) ih same
      rw [Json.ordered, Json.ordered, Json.orderedElements_eq, Json.orderedElements_eq, values]
      exact ⟨rfl, rest⟩
    | _ => cases kind_eq same
  | object fields ih =>
    intro b s t _ _ same
    cases b with
    | object fields' =>
      simp only [write_object, List.cons_append, List.append_assoc, List.nil_append, List.cons.injEq, true_and] at same
      obtain ⟨values, rest⟩ := separated_cancel follows_comma (follows_stop rfl (by decide)) (by decide)
        (fun _ _ _ h => absurd (List.cons.inj h).1 (by decide))
        (fun member hmember => field_cut (ih member ((sortByKey_perm _ _).mem_iff.mp hmember))) same
      rw [Json.ordered, Json.ordered, Json.orderedMembers_eq, Json.orderedMembers_eq, sortByKey_map, sortByKey_map,
        values]
      exact ⟨rfl, rest⟩
    | _ => cases kind_eq same

theorem write_ordered (a : Json (Number F)) : write (a.ordered (· ≤ ·)) = write a := by
  induction a using Json.induction with
  | null | bool | number | string => rfl
  | array items ih =>
    have texts : (items.map (Json.ordered (· ≤ ·))).map write = items.map write := by
      rw [List.map_map]
      exact List.map_congr_left ih
    rw [Json.ordered, Json.orderedElements_eq, write_array, write_array, texts]
  | object fields ih =>
    have texts : ((sortByKey (· ≤ ·) fields).map (Prod.map id (Json.ordered (· ≤ ·)))).map
        (fun member => field (member.1, write member.2)) =
          (sortByKey (· ≤ ·) fields).map fun member => field (member.1, write member.2) := by
      rw [List.map_map]
      apply List.map_congr_left
      intro member hmember
      exact congrArg (fun text => field (member.1, text)) (ih member ((sortByKey_perm _ _).mem_iff.mp hmember))
    rw [Json.ordered, Json.orderedMembers_eq, write_object, write_object, sortByKey_sortByKey, sortByKey_map, texts]

theorem json_eq_iff : json a = json b ↔ a.ordered (· ≤ ·) = b.ordered (· ≤ ·) := by
  constructor
  · intro same
    have texts : write a ++ [] = write b ++ [] := by rw [String.ofList_inj.mp same]
    exact (write_cut a follows_nil follows_nil texts).1
  · intro same
    rw [json, json, ← write_ordered a, ← write_ordered b, same]

end Write

/-! ## Whole numbers -/

/-- Floating point numbers that are whole and print without an exponent. -/
structure Whole where
  negative : Bool
  whole : Nat
  small : whole < 10 ^ 16
deriving DecidableEq

namespace Whole

def sign (x : Whole) : List Char := if x.negative then ['-'] else []

theorem sign_append_cancel {x y : Whole} {s t : List Char}
    (same : x.sign ++ (digits x.whole ++ s) = y.sign ++ (digits y.whole ++ t)) :
    x.negative = y.negative ∧ digits x.whole ++ s = digits y.whole ++ t := by
  have other : ∀ {n : Nat} {s rest : List Char}, digits n ++ s ≠ '-' :: rest := by
    intro n s rest h
    obtain ⟨c, cs, hcs⟩ := List.exists_cons_of_ne_nil (digits_ne_nil n)
    rw [hcs, List.cons_append] at h
    apply not_mem_digits (n := n) (c := '-') rfl
    rw [hcs, (List.cons.inj h).1]
    exact List.mem_cons_self
  unfold sign at same
  cases hx : x.negative <;> cases hy : y.negative <;> rw [hx, hy] at same
  · exact ⟨rfl, same⟩
  · exact absurd same other
  · exact absurd same.symm other
  · exact ⟨rfl, (List.cons.inj same).2⟩

def text (x : Whole) : List Char := x.sign ++ (digits x.whole ++ ['.', '0'])

def numeral (x : Whole) : Numeral := ⟨x.negative, 10 * x.whole, 1, 0⟩

variable {x y : Whole}

theorem isPart {c : Char} (h : c ∈ x.text) : IsPart c := by
  obtain h | h := List.mem_append.mp h
  · unfold sign at h
    split at h
    · exact .inl (.inr (.inl (List.mem_singleton.mp h)))
    · cases h
  · obtain digit | fraction := List.mem_append.mp h
    · exact .inl (.inl (isDigit_of_mem_digits digit))
    · obtain rfl | rfl := List.mem_pair.mp fraction
      · exact .inl (.inr (.inr rfl))
      · exact .inl (.inl rfl)

theorem marked (x : Whole) : '.' ∈ x.text ∨ 'e' ∈ x.text :=
  .inl (List.mem_append_right _ (List.mem_append_right _ List.mem_cons_self))

theorem spelled (same : x.text = y.text) : x.numeral = y.numeral := by
  obtain ⟨signs, rest⟩ := sign_append_cancel same
  obtain ⟨wholes, _⟩ := append_stop (not_mem_digits rfl) (not_mem_digits rfl) rest
  have values := congrArg number wholes
  rw [number_digits, number_digits] at values
  rw [numeral, numeral, signs, Option.some.inj values]

theorem numeric_numeral (x : Whole) :
    x.numeral.numeric = ⟨if x.negative then -(10 * x.whole : Nat) else (10 * x.whole : Nat), 1⟩ := by
  show Numeric.mk (if x.negative then -((10 * x.whole * 1 : Nat) : Int) else (10 * x.whole * 1 : Nat)) 1 = _
  rw [Nat.mul_one]

theorem apart (same : Numeric.Same x.numeral.numeric y.numeral.numeric) (signs : x.negative = y.negative) : x = y := by
  have numerics := Numeric.eq_of_same same (by rw [numeric_numeral, numeric_numeral])
  rw [numeric_numeral, numeric_numeral, signs] at numerics
  have unscaled := congrArg Numeric.unscaled numerics
  have values : x.whole = y.whole := by
    cases hy : y.negative with
    | false =>
      simp only [hy, Bool.false_eq_true, if_false] at unscaled
      omega
    | true =>
      simp only [hy, if_true] at unscaled
      omega
  cases x
  cases y
  cases signs
  cases values
  rfl

instance : Floats Whole := ⟨text, numeral, isPart, marked, spelled, apart⟩

end Whole

end AsceticDdd.Dek.Canonical
