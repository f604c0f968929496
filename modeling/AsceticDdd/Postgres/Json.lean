import AsceticDdd.Postgres.Numeric

/-!
# JSON values, and their texts

A value is read into `jsonb` with its numbers as `numeric` and the members of an object by the length of their keys.
Two values are equal if they are of one shape and their numbers are equal. The text of a value has its numbers as
they print, so values that are equal may have texts apart.
-/

namespace AsceticDdd.Postgres

variable {ν μ : Type}

/-- JSON over a kind of numbers. An object has each key once. -/
inductive Json (ν : Type)
  | null
  | bool (value : Bool)
  | number (value : ν)
  | string (text : String)
  | array (elements : List (Json ν))
  | object (members : List (String × Json ν))

namespace Json

/-- The order `jsonb` keeps keys in: by length, then by bytes. -/
def keyLe (a b : String) : Bool := a.utf8ByteSize < b.utf8ByteSize || (a.utf8ByteSize = b.utf8ByteSize && a ≤ b)

/-- A member at its key's place among others. -/
def insertMember (key : String) (value : Json ν) : List (String × Json ν) → List (String × Json ν)
  | [] => [(key, value)]
  | (other, its) :: members =>
    if keyLe key other then (key, value) :: (other, its) :: members
    else (other, its) :: insertMember key value members

mutual

/-- `::jsonb` -/
def jsonb : Json Numeral → Json Numeric
  | .null => .null
  | .bool value => .bool value
  | .number value => .number value.numeric
  | .string text => .string text
  | .array elements => .array (jsonbElements elements)
  | .object members => .object (jsonbMembers members)

def jsonbElements : List (Json Numeral) → List (Json Numeric)
  | [] => []
  | element :: elements => element.jsonb :: jsonbElements elements

def jsonbMembers : List (String × Json Numeral) → List (String × Json Numeric)
  | [] => []
  | (key, value) :: members => insertMember key value.jsonb (jsonbMembers members)

end

mutual

/-- Values of one shape, whose numbers are related one by one. -/
def Related (r : ν → ν → Prop) : Json ν → Json ν → Prop
  | .null, .null => True
  | .bool a, .bool b => a = b
  | .number a, .number b => r a b
  | .string a, .string b => a = b
  | .array a, .array b => RelatedElements r a b
  | .object a, .object b => RelatedMembers r a b
  | _, _ => False

def RelatedElements (r : ν → ν → Prop) : List (Json ν) → List (Json ν) → Prop
  | [], [] => True
  | a :: as, b :: bs => Related r a b ∧ RelatedElements r as bs
  | _, _ => False

def RelatedMembers (r : ν → ν → Prop) : List (String × Json ν) → List (String × Json ν) → Prop
  | [], [] => True
  | (k, a) :: as, (l, b) :: bs => k = l ∧ Related r a b ∧ RelatedMembers r as bs
  | _, _ => False

end

mutual

def decRelated (r : ν → ν → Prop) [DecidableRel r] : ∀ a b : Json ν, Decidable (Related r a b)
  | .null, .null => isTrue trivial
  | .bool a, .bool b => inferInstanceAs (Decidable (a = b))
  | .number a, .number b => inferInstanceAs (Decidable (r a b))
  | .string a, .string b => inferInstanceAs (Decidable (a = b))
  | .array a, .array b => decRelatedElements r a b
  | .object a, .object b => decRelatedMembers r a b
  | .null, .bool _ | .null, .number _ | .null, .string _ | .null, .array _ | .null, .object _
  | .bool _, .null | .bool _, .number _ | .bool _, .string _ | .bool _, .array _ | .bool _, .object _
  | .number _, .null | .number _, .bool _ | .number _, .string _ | .number _, .array _ | .number _, .object _
  | .string _, .null | .string _, .bool _ | .string _, .number _ | .string _, .array _ | .string _, .object _
  | .array _, .null | .array _, .bool _ | .array _, .number _ | .array _, .string _ | .array _, .object _
  | .object _, .null | .object _, .bool _ | .object _, .number _ | .object _, .string _ | .object _, .array _ =>
    isFalse id

def decRelatedElements (r : ν → ν → Prop) [DecidableRel r] :
    ∀ as bs : List (Json ν), Decidable (RelatedElements r as bs)
  | [], [] => isTrue trivial
  | a :: as, b :: bs => @instDecidableAnd _ _ (decRelated r a b) (decRelatedElements r as bs)
  | [], _ :: _ | _ :: _, [] => isFalse id

def decRelatedMembers (r : ν → ν → Prop) [DecidableRel r] :
    ∀ as bs : List (String × Json ν), Decidable (RelatedMembers r as bs)
  | [], [] => isTrue trivial
  | (k, a) :: as, (l, b) :: bs =>
    @instDecidableAnd (k = l) _ _ (@instDecidableAnd _ _ (decRelated r a b) (decRelatedMembers r as bs))
  | [], _ :: _ | _ :: _, [] => isFalse id

end

instance (r : ν → ν → Prop) [DecidableRel r] : DecidableRel (Related r) := decRelated r

/-- Equality of `jsonb`. -/
abbrev Same : Json Numeric → Json Numeric → Prop := Related Numeric.Same

/-- The numbers of the two have as many digits after the point. -/
abbrev Alike : Json Numeric → Json Numeric → Prop := Related fun a b => a.scale = b.scale

mutual

/-- `::text`. A text in it is as `quote` writes it. -/
def text (quote : String → List Char) : Json Numeric → List Char
  | .null => "null".toList
  | .bool value => (toString value).toList
  | .number value => value.text
  | .string value => quote value
  | .array elements => '[' :: textElements quote elements
  | .object members => '\x7b' :: textMembers quote members

def textElements (quote : String → List Char) : List (Json Numeric) → List Char
  | [] => [']']
  | [element] => element.text quote ++ [']']
  | element :: elements => element.text quote ++ ',' :: ' ' :: textElements quote elements

def textMembers (quote : String → List Char) : List (String × Json Numeric) → List Char
  | [] => ['\x7d']
  | [(key, value)] => quote key ++ ':' :: ' ' :: value.text quote ++ ['\x7d']
  | (key, value) :: members => quote key ++ ':' :: ' ' :: value.text quote ++ ',' :: ' ' :: textMembers quote members

end

/-- A text that may follow a number. -/
def Follows (rest : List Char) : Prop := ∀ c ∈ rest.head?, ¬ Numeric.IsPart c

theorem follows_nil : Follows [] := by
  rintro c ⟨⟩

theorem follows_cons {c : Char} {rest : List Char} (other : ¬ Numeric.IsPart c) : Follows (c :: rest) := by
  rintro d ⟨⟩
  exact other

theorem not_isPart {c : Char} (digit : c.isDigit = false) (sign : c ≠ '-') (point : c ≠ '.') : ¬ Numeric.IsPart c := by
  rintro (h | h | h)
  · exact absurd (digit.symm.trans h) (by decide)
  · exact sign h
  · exact point h

theorem follows_comma {rest : List Char} : Follows (',' :: rest) :=
  follows_cons (not_isPart rfl (by decide) (by decide))

theorem follows_bracket {rest : List Char} : Follows (']' :: rest) :=
  follows_cons (not_isPart rfl (by decide) (by decide))

theorem follows_brace {rest : List Char} : Follows ('\x7d' :: rest) :=
  follows_cons (not_isPart rfl (by decide) (by decide))

/-- Texts of one kind of characters, cut where it ends. -/
theorem append_cancel {p : Char → Prop} {a b s t : List Char} (ha : ∀ c ∈ a, p c) (hb : ∀ c ∈ b, p c)
    (hs : ∀ c ∈ s.head?, ¬ p c) (ht : ∀ c ∈ t.head?, ¬ p c) (same : a ++ s = b ++ t) : a = b ∧ s = t := by
  induction a generalizing b with
  | nil =>
    cases b with
    | nil => exact ⟨rfl, same⟩
    | cons c b =>
      rw [List.nil_append] at same
      exact absurd (hb c List.mem_cons_self) (hs c (by rw [same]; rfl))
  | cons c a ih =>
    cases b with
    | nil =>
      rw [List.nil_append] at same
      exact absurd (ha c List.mem_cons_self) (ht c (by rw [← same]; rfl))
    | cons d b =>
      obtain ⟨rfl, after⟩ := List.cons.inj same
      obtain ⟨rfl, rest⟩ := ih (fun d hd => ha d (List.mem_cons_of_mem _ hd))
        (fun d hd => hb d (List.mem_cons_of_mem _ hd)) after
      exact ⟨rfl, rest⟩

variable {quote : String → List Char}

mutual

/-- Of equal values, texts that agree agree number by number. -/
theorem alike_of_text : ∀ {a b : Json Numeric} {s t : List Char}, Same a b → Follows s → Follows t →
    a.text quote ++ s = b.text quote ++ t → Alike a b ∧ s = t
  | .null, .null, _, _, _, _, _, same => ⟨trivial, List.append_cancel_left same⟩
  | .bool _, .bool _, _, _, rfl, _, _, same => ⟨rfl, List.append_cancel_left same⟩
  | .number _, .number _, _, _, _, hs, ht, same =>
    have parts := append_cancel (fun _ => Numeric.isPart_of_mem_text) (fun _ => Numeric.isPart_of_mem_text) hs ht same
    ⟨Numeric.same_scale_of_text parts.1, parts.2⟩
  | .string _, .string _, _, _, rfl, _, _, same => ⟨rfl, List.append_cancel_left same⟩
  | .array _, .array _, _, _, related, _, _, same => alike_of_textElements related (List.cons.inj same).2
  | .object _, .object _, _, _, related, _, _, same => alike_of_textMembers related (List.cons.inj same).2

theorem alike_of_textElements : ∀ {as bs : List (Json Numeric)} {s t : List Char}, RelatedElements Numeric.Same as bs →
    textElements quote as ++ s = textElements quote bs ++ t →
      RelatedElements (fun a b => a.scale = b.scale) as bs ∧ s = t
  | [], [], _, _, _, same => ⟨trivial, List.append_cancel_left same⟩
  | [a], [b], s, t, related, same => by
    simp only [textElements, List.append_assoc, List.cons_append, List.nil_append] at same
    obtain ⟨alike, rest⟩ := alike_of_text related.1 follows_bracket follows_bracket same
    exact ⟨⟨alike, trivial⟩, (List.cons.inj rest).2⟩
  | a :: a' :: as, b :: b' :: bs, s, t, related, same => by
    simp only [textElements, List.append_assoc, List.cons_append] at same
    obtain ⟨alike, rest⟩ := alike_of_text related.1 follows_comma follows_comma same
    obtain ⟨others, rest⟩ := alike_of_textElements related.2 (List.cons.inj (List.cons.inj rest).2).2
    exact ⟨⟨alike, others⟩, rest⟩

theorem alike_of_textMembers : ∀ {as bs : List (String × Json Numeric)} {s t : List Char},
    RelatedMembers Numeric.Same as bs → textMembers quote as ++ s = textMembers quote bs ++ t →
      RelatedMembers (fun a b => a.scale = b.scale) as bs ∧ s = t
  | [], [], _, _, _, same => ⟨trivial, List.append_cancel_left same⟩
  | [(k, a)], [(l, b)], s, t, ⟨key, related, _⟩, same => by
    subst key
    simp only [textMembers, List.append_assoc, List.cons_append, List.nil_append, List.append_cancel_left_eq,
      List.cons.injEq, true_and] at same
    obtain ⟨alike, rest⟩ := alike_of_text related follows_brace follows_brace same
    exact ⟨⟨rfl, alike, trivial⟩, (List.cons.inj rest).2⟩
  | (k, a) :: m :: as, (l, b) :: m' :: bs, s, t, ⟨key, related, relatedMembers⟩, same => by
    subst key
    simp only [textMembers, List.append_assoc, List.cons_append, List.append_cancel_left_eq, List.cons.injEq,
      true_and] at same
    obtain ⟨alike, rest⟩ := alike_of_text related follows_comma follows_comma same
    obtain ⟨others, rest⟩ := alike_of_textMembers relatedMembers (List.cons.inj (List.cons.inj rest).2).2
    exact ⟨⟨rfl, alike, others⟩, rest⟩

end

mutual

theorem eq_of_related {r : ν → ν → Prop} (hr : ∀ a b, r a b → a = b) : ∀ {a b : Json ν}, Related r a b → a = b
  | .null, .null, _ => rfl
  | .bool _, .bool _, h => congrArg _ h
  | .number _, .number _, h => congrArg _ (hr _ _ h)
  | .string _, .string _, h => congrArg _ h
  | .array _, .array _, h => congrArg _ (eq_of_relatedElements hr h)
  | .object _, .object _, h => congrArg _ (eq_of_relatedMembers hr h)

theorem eq_of_relatedElements {r : ν → ν → Prop} (hr : ∀ a b, r a b → a = b) :
    ∀ {as bs : List (Json ν)}, RelatedElements r as bs → as = bs
  | [], [], _ => rfl
  | _ :: _, _ :: _, h => congr (congrArg _ (eq_of_related hr h.1)) (eq_of_relatedElements hr h.2)

theorem eq_of_relatedMembers {r : ν → ν → Prop} (hr : ∀ a b, r a b → a = b) :
    ∀ {as bs : List (String × Json ν)}, RelatedMembers r as bs → as = bs
  | [], [], _ => rfl
  | (_, _) :: _, (_, _) :: _, h =>
    congr (congrArg _ (Prod.ext h.1 (eq_of_related hr h.2.1))) (eq_of_relatedMembers hr h.2.2)

end

mutual

theorem Related.and {r r' : ν → ν → Prop} : ∀ {a b : Json ν}, Related r a b → Related r' a b →
    Related (fun a b => r a b ∧ r' a b) a b
  | .null, .null, _, _ => trivial
  | .bool _, .bool _, h, _ => h
  | .number _, .number _, h, h' => ⟨h, h'⟩
  | .string _, .string _, h, _ => h
  | .array _, .array _, h, h' => relatedElements_and h h'
  | .object _, .object _, h, h' => relatedMembers_and h h'

theorem relatedElements_and {r r' : ν → ν → Prop} : ∀ {as bs : List (Json ν)}, RelatedElements r as bs →
    RelatedElements r' as bs → RelatedElements (fun a b => r a b ∧ r' a b) as bs
  | [], [], _, _ => trivial
  | _ :: _, _ :: _, h, h' => ⟨Related.and h.1 h'.1, relatedElements_and h.2 h'.2⟩

theorem relatedMembers_and {r r' : ν → ν → Prop} : ∀ {as bs : List (String × Json ν)}, RelatedMembers r as bs →
    RelatedMembers r' as bs → RelatedMembers (fun a b => r a b ∧ r' a b) as bs
  | [], [], _, _ => trivial
  | (_, _) :: _, (_, _) :: _, h, h' => ⟨h.1, Related.and h.2.1 h'.2.1, relatedMembers_and h.2.2 h'.2.2⟩

end

mutual

theorem Related.symm {r : ν → ν → Prop} (hr : ∀ a b, r a b → r b a) : ∀ {a b : Json ν}, Related r a b → Related r b a
  | .null, .null, _ => trivial
  | .bool _, .bool _, h => Eq.symm h
  | .number _, .number _, h => hr _ _ h
  | .string _, .string _, h => Eq.symm h
  | .array _, .array _, h => relatedElements_symm hr h
  | .object _, .object _, h => relatedMembers_symm hr h

theorem relatedElements_symm {r : ν → ν → Prop} (hr : ∀ a b, r a b → r b a) :
    ∀ {as bs : List (Json ν)}, RelatedElements r as bs → RelatedElements r bs as
  | [], [], _ => trivial
  | _ :: _, _ :: _, h => ⟨Related.symm hr h.1, relatedElements_symm hr h.2⟩

theorem relatedMembers_symm {r : ν → ν → Prop} (hr : ∀ a b, r a b → r b a) :
    ∀ {as bs : List (String × Json ν)}, RelatedMembers r as bs → RelatedMembers r bs as
  | [], [], _ => trivial
  | (_, _) :: _, (_, _) :: _, h => ⟨h.1.symm, Related.symm hr h.2.1, relatedMembers_symm hr h.2.2⟩

end

mutual

theorem Related.trans {r : ν → ν → Prop} (hr : ∀ a b c, r a b → r b c → r a c) :
    ∀ {a b c : Json ν}, Related r a b → Related r b c → Related r a c
  | .null, .null, .null, _, _ => trivial
  | .bool _, .bool _, .bool _, h, h' => Eq.trans h h'
  | .number _, .number _, .number _, h, h' => hr _ _ _ h h'
  | .string _, .string _, .string _, h, h' => Eq.trans h h'
  | .array _, .array _, .array _, h, h' => relatedElements_trans hr h h'
  | .object _, .object _, .object _, h, h' => relatedMembers_trans hr h h'

theorem relatedElements_trans {r : ν → ν → Prop} (hr : ∀ a b c, r a b → r b c → r a c) :
    ∀ {as bs cs : List (Json ν)}, RelatedElements r as bs → RelatedElements r bs cs → RelatedElements r as cs
  | [], [], [], _, _ => trivial
  | _ :: _, _ :: _, _ :: _, h, h' => ⟨Related.trans hr h.1 h'.1, relatedElements_trans hr h.2 h'.2⟩

theorem relatedMembers_trans {r : ν → ν → Prop} (hr : ∀ a b c, r a b → r b c → r a c) :
    ∀ {as bs cs : List (String × Json ν)}, RelatedMembers r as bs → RelatedMembers r bs cs → RelatedMembers r as cs
  | [], [], [], _, _ => trivial
  | (_, _) :: _, (_, _) :: _, (_, _) :: _, h, h' =>
    ⟨h.1.trans h'.1, Related.trans hr h.2.1 h'.2.1, relatedMembers_trans hr h.2.2 h'.2.2⟩

end

theorem Same.symm {a b : Json Numeric} (same : Same a b) : Same b a := Related.symm (r := Numeric.Same) (fun _ _ => Numeric.Same.symm) same

theorem Same.trans {a b c : Json Numeric} (first : Same a b) (second : Same b c) : Same a c :=
  Related.trans (r := Numeric.Same) (fun _ _ _ => Numeric.Same.trans) first second

/-- Equal values have one text exactly when their numbers have as many digits after the point. -/
theorem text_eq_iff {a b : Json Numeric} (same : Same a b) : a.text quote = b.text quote ↔ Alike a b := by
  constructor
  · intro texts
    exact (alike_of_text same follows_nil follows_nil (congrArg (· ++ []) texts)).1
  · intro alike
    rw [eq_of_related (fun _ _ both => Numeric.eq_of_same both.1 both.2) (same.and alike)]

end Json

end AsceticDdd.Postgres
