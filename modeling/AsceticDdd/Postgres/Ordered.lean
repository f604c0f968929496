import AsceticDdd.Order.Keyed
import AsceticDdd.Postgres.Json
import Mathlib.Data.String.Basic

/-!
# JSON values in an order of their keys

Two values in an order of their keys are related in every other, so that equality of `jsonb`, which keeps one order,
is told by a text that is written in another.
-/

namespace AsceticDdd.Postgres.Json

open Keyed

variable {ν μ : Type}

/-- What holds of a value if it holds of the values in it holds of every value. -/
@[elab_as_elim] theorem induction {motive : Json ν → Prop} (null : motive .null) (bool : ∀ value, motive (.bool value))
    (number : ∀ value, motive (.number value)) (string : ∀ text, motive (.string text))
    (array : ∀ elements, (∀ element ∈ elements, motive element) → motive (.array elements))
    (object : ∀ members, (∀ member ∈ members, motive member.2) → motive (.object members)) (a : Json ν) : motive a :=
  @Json.rec ν motive (fun elements => ∀ element ∈ elements, motive element)
    (fun members => ∀ member ∈ members, motive member.2) (fun member => motive member.2) null bool number string array
    object (List.forall_mem_nil _) (fun _ _ first rest => List.forall_mem_cons.mpr ⟨first, rest⟩)
    (List.forall_mem_nil _) (fun _ _ first rest => List.forall_mem_cons.mpr ⟨first, rest⟩) (fun _ _ value => value) a

mutual

/-- The value over other numbers. -/
def map (f : ν → μ) : Json ν → Json μ
  | .null => .null
  | .bool value => .bool value
  | .number value => .number (f value)
  | .string text => .string text
  | .array elements => .array (mapElements f elements)
  | .object members => .object (mapMembers f members)

def mapElements (f : ν → μ) : List (Json ν) → List (Json μ)
  | [] => []
  | element :: elements => element.map f :: mapElements f elements

def mapMembers (f : ν → μ) : List (String × Json ν) → List (String × Json μ)
  | [] => []
  | (key, value) :: members => (key, value.map f) :: mapMembers f members

end

mutual

/-- Every object has each key once. -/
def Distinct : Json ν → Prop
  | .null | .bool _ | .number _ | .string _ => True
  | .array elements => DistinctElements elements
  | .object members => (members.map Prod.fst).Nodup ∧ DistinctMembers members

def DistinctElements : List (Json ν) → Prop
  | [] => True
  | element :: elements => element.Distinct ∧ DistinctElements elements

def DistinctMembers : List (String × Json ν) → Prop
  | [] => True
  | (_, value) :: members => value.Distinct ∧ DistinctMembers members

end

section Ordered

variable (r : String → String → Prop) [DecidableRel r]

mutual

/-- The members of every object in an order of their keys. -/
def ordered : Json ν → Json ν
  | .null => .null
  | .bool value => .bool value
  | .number value => .number value
  | .string text => .string text
  | .array elements => .array (orderedElements elements)
  | .object members => .object (sortByKey r (orderedMembers members))

def orderedElements : List (Json ν) → List (Json ν)
  | [] => []
  | element :: elements => element.ordered :: orderedElements elements

def orderedMembers : List (String × Json ν) → List (String × Json ν)
  | [] => []
  | (key, value) :: members => (key, value.ordered) :: orderedMembers members

end

variable {r} {members : List (String × Json ν)}

theorem mapMembers_eq (f : ν → μ) (members : List (String × Json ν)) :
    mapMembers f members = members.map (Prod.map id (map f)) := by
  induction members with
  | nil => rfl
  | cons member members ih => rw [mapMembers, ih, List.map_cons]; rfl

theorem orderedMembers_eq (members : List (String × Json ν)) :
    orderedMembers r members = members.map (Prod.map id (ordered r)) := by
  induction members with
  | nil => rfl
  | cons member members ih => rw [orderedMembers, ih, List.map_cons]; rfl

theorem orderedElements_eq (elements : List (Json ν)) : orderedElements r elements = elements.map (ordered r) := by
  induction elements with
  | nil => rfl
  | cons element elements ih => rw [orderedElements, ih, List.map_cons]

@[simp] theorem keys_orderedMembers (members : List (String × Json ν)) :
    (orderedMembers r members).map Prod.fst = members.map Prod.fst := by
  rw [orderedMembers_eq, List.map_map]
  exact List.map_congr_left fun _ _ => rfl

mutual

theorem ordered_map (f : ν → μ) : ∀ a : Json ν, (a.map f).ordered r = (a.ordered r).map f
  | .null | .bool _ | .number _ | .string _ => rfl
  | .array elements => congrArg Json.array (orderedElements_map f elements)
  | .object members => by
    rw [map, ordered, orderedMembers_map f members, mapMembers_eq, sortByKey_map, ordered, map, mapMembers_eq]

theorem orderedElements_map (f : ν → μ) : ∀ elements : List (Json ν),
    orderedElements r (mapElements f elements) = mapElements f (orderedElements r elements)
  | [] => rfl
  | element :: elements => by
    rw [mapElements, orderedElements, orderedElements, mapElements, ordered_map f element,
      orderedElements_map f elements]

theorem orderedMembers_map (f : ν → μ) : ∀ members : List (String × Json ν),
    orderedMembers r (mapMembers f members) = mapMembers f (orderedMembers r members)
  | [] => rfl
  | (key, value) :: members => by
    rw [mapMembers, orderedMembers, orderedMembers, mapMembers, ordered_map f value, orderedMembers_map f members]

end

mutual

/-- Of two orders a value is put in, the last is left. -/
theorem ordered_ordered [IsLinearOrder String r] (r' : String → String → Prop) [DecidableRel r'] :
    ∀ {a : Json ν}, a.Distinct → (a.ordered r').ordered r = a.ordered r
  | .null, _ | .bool _, _ | .number _, _ | .string _, _ => rfl
  | .array elements, distinct => congrArg Json.array (orderedElements_ordered r' distinct)
  | .object members, ⟨keys, distinct⟩ => by
    rw [ordered, ordered, ordered, ← orderedMembers_ordered r' distinct]
    have same : (orderedMembers r (sortByKey r' (orderedMembers r' members))).Perm
        (orderedMembers r (orderedMembers r' members)) := by
      rw [orderedMembers_eq, orderedMembers_eq (r := r)]
      exact (sortByKey_perm r' _).map _
    apply congrArg Json.object
    apply sortByKey_eq _ same
    rw [keys_orderedMembers, ((sortByKey_perm r' _).map Prod.fst).nodup_iff, keys_orderedMembers]
    exact keys

theorem orderedElements_ordered [IsLinearOrder String r] (r' : String → String → Prop) [DecidableRel r'] :
    ∀ {elements : List (Json ν)}, DistinctElements elements →
      orderedElements r (orderedElements r' elements) = orderedElements r elements
  | [], _ => rfl
  | _ :: _, ⟨first, rest⟩ => by
    rw [orderedElements, orderedElements, orderedElements, ordered_ordered r' first, orderedElements_ordered r' rest]

theorem orderedMembers_ordered [IsLinearOrder String r] (r' : String → String → Prop) [DecidableRel r'] :
    ∀ {members : List (String × Json ν)}, DistinctMembers members →
      orderedMembers r (orderedMembers r' members) = orderedMembers r members
  | [], _ => rfl
  | (_, _) :: _, ⟨first, rest⟩ => by
    rw [orderedMembers, orderedMembers, orderedMembers, ordered_ordered r' first, orderedMembers_ordered r' rest]

end

variable {p : ν → ν → Prop}

theorem relatedMembers_insert {as bs : List (String × Json ν)} {key : String} {a b : Json ν}
    (related : RelatedMembers p as bs) (value : Related p a b) :
    RelatedMembers p (as.orderedInsert (ByKey r) (key, a)) (bs.orderedInsert (ByKey r) (key, b)) := by
  induction as generalizing bs with
  | nil =>
    cases bs with
    | nil => exact ⟨rfl, value, trivial⟩
    | cons member members => exact related.elim
  | cons first as ih =>
    cases bs with
    | nil => exact related.elim
    | cons second bs =>
      obtain ⟨other, its⟩ := first
      obtain ⟨other', its'⟩ := second
      obtain ⟨rfl, theirs, rest⟩ := related
      rw [List.orderedInsert_cons, List.orderedInsert_cons]
      have one : ByKey r (key, b) (other, its') ↔ ByKey r (key, a) (other, its) := Iff.rfl
      split
      · rw [if_pos (one.mpr ‹_›)]
        exact ⟨rfl, value, rfl, theirs, rest⟩
      · rw [if_neg (one.not.mpr ‹_›)]
        exact ⟨rfl, theirs, ih rest⟩

theorem relatedMembers_sort {as bs : List (String × Json ν)} (related : RelatedMembers p as bs) :
    RelatedMembers p (sortByKey r as) (sortByKey r bs) := by
  induction as generalizing bs with
  | nil =>
    cases bs with
    | nil => trivial
    | cons member members => exact related.elim
  | cons first as ih =>
    cases bs with
    | nil => exact related.elim
    | cons second bs =>
      obtain ⟨key, a⟩ := first
      obtain ⟨key', b⟩ := second
      obtain ⟨rfl, value, rest⟩ := related
      exact relatedMembers_insert (ih rest) value

mutual

/-- Values related as they are written are related in an order. -/
theorem Related.ordered : ∀ {a b : Json ν}, Related p a b → Related p (a.ordered r) (b.ordered r)
  | .null, .null, h | .bool _, .bool _, h | .number _, .number _, h | .string _, .string _, h => h
  | .array _, .array _, h => relatedElements_ordered h
  | .object _, .object _, h => relatedMembers_sort (relatedMembers_ordered h)

theorem relatedElements_ordered : ∀ {as bs : List (Json ν)}, RelatedElements p as bs →
    RelatedElements p (orderedElements r as) (orderedElements r bs)
  | [], [], _ => trivial
  | _ :: _, _ :: _, h => ⟨Related.ordered h.1, relatedElements_ordered h.2⟩

theorem relatedMembers_ordered : ∀ {as bs : List (String × Json ν)}, RelatedMembers p as bs →
    RelatedMembers p (orderedMembers r as) (orderedMembers r bs)
  | [], [], _ => trivial
  | (_, _) :: _, (_, _) :: _, h => ⟨h.1, Related.ordered h.2.1, relatedMembers_ordered h.2.2⟩

end

/-- Values are related in one order of their keys if they are in another. -/
theorem related_ordered_iff [IsLinearOrder String r] {r' : String → String → Prop} [DecidableRel r']
    [IsLinearOrder String r'] {a b : Json ν} (ha : a.Distinct) (hb : b.Distinct) :
    Related p (a.ordered r) (b.ordered r) ↔ Related p (a.ordered r') (b.ordered r') := by
  constructor
  · intro related
    rw [← ordered_ordered r ha, ← ordered_ordered r hb]
    exact related.ordered
  · intro related
    rw [← ordered_ordered r' ha, ← ordered_ordered r' hb]
    exact related.ordered

end Ordered

section Map

variable {f : ν → μ} {p : μ → μ → Prop}

mutual

theorem related_map : ∀ {a b : Json ν}, Related p (a.map f) (b.map f) ↔ Related (fun x y => p (f x) (f y)) a b
  | .null, b | .bool _, b | .number _, b | .string _, b => by cases b <;> exact Iff.rfl
  | .array elements, b => by
    cases b with
    | array others => exact relatedElements_map
    | _ => exact Iff.rfl
  | .object members, b => by
    cases b with
    | object others => exact relatedMembers_map
    | _ => exact Iff.rfl

theorem relatedElements_map : ∀ {as bs : List (Json ν)},
    RelatedElements p (mapElements f as) (mapElements f bs) ↔ RelatedElements (fun x y => p (f x) (f y)) as bs
  | [], [] | [], _ :: _ | _ :: _, [] => Iff.rfl
  | _ :: _, _ :: _ => and_congr related_map relatedElements_map

theorem relatedMembers_map : ∀ {as bs : List (String × Json ν)},
    RelatedMembers p (mapMembers f as) (mapMembers f bs) ↔ RelatedMembers (fun x y => p (f x) (f y)) as bs
  | [], [] | [], _ :: _ | _ :: _, [] => Iff.rfl
  | (_, _) :: _, (_, _) :: _ => and_congr Iff.rfl (and_congr related_map relatedMembers_map)

end

mutual

theorem related_refl (hp : ∀ x, p x x) : ∀ a : Json μ, Related p a a
  | .null => trivial
  | .bool _ | .string _ => rfl
  | .number value => hp value
  | .array elements => relatedElements_refl hp elements
  | .object members => relatedMembers_refl hp members

theorem relatedElements_refl (hp : ∀ x, p x x) : ∀ elements : List (Json μ), RelatedElements p elements elements
  | [] => trivial
  | element :: elements => ⟨related_refl hp element, relatedElements_refl hp elements⟩

theorem relatedMembers_refl (hp : ∀ x, p x x) :
    ∀ members : List (String × Json μ), RelatedMembers p members members
  | [] => trivial
  | (_, value) :: members => ⟨rfl, related_refl hp value, relatedMembers_refl hp members⟩

end

end Map

/-- The order of the keys of `jsonb`. -/
def KeyLe (a b : String) : Prop := keyLe a b = true

theorem keyLe_iff {a b : String} :
    KeyLe a b ↔ a.utf8ByteSize < b.utf8ByteSize ∨ a.utf8ByteSize = b.utf8ByteSize ∧ a ≤ b := by
  rw [KeyLe, keyLe, Bool.or_eq_true, Bool.and_eq_true, decide_eq_true_eq, decide_eq_true_eq, decide_eq_true_eq]

instance : DecidableRel KeyLe := fun a b => inferInstanceAs (Decidable (keyLe a b = true))

instance : IsLinearOrder String KeyLe where
  refl a := keyLe_iff.mpr (.inr ⟨rfl, le_refl a⟩)
  total a b := by
    rw [keyLe_iff, keyLe_iff]
    have bytes := le_total a b
    have sizes := Nat.lt_trichotomy a.utf8ByteSize b.utf8ByteSize
    tauto
  trans a b c h h' := by
    rw [keyLe_iff] at h h' ⊢
    obtain less | ⟨even, bytes⟩ := h
    · left
      omega
    · obtain less' | ⟨even', bytes'⟩ := h'
      · left
        omega
      · exact .inr ⟨even.trans even', le_trans bytes bytes'⟩
  antisymm a b h h' := by
    rw [keyLe_iff] at h h'
    obtain less | ⟨_, bytes⟩ := h
    · omega
    · obtain less' | ⟨_, bytes'⟩ := h'
      · omega
      · exact le_antisymm bytes bytes'

theorem insertMember_eq (key : String) (value : Json ν) (members : List (String × Json ν)) :
    insertMember key value members = members.orderedInsert (ByKey KeyLe) (key, value) := by
  induction members with
  | nil => rfl
  | cons member members ih =>
    rw [insertMember, List.orderedInsert_cons, ih]
    rfl

mutual

/-- `jsonb` keeps an order of keys. -/
theorem jsonb_eq : ∀ a : Json Numeral, a.jsonb = (a.ordered KeyLe).map Numeral.numeric
  | .null | .bool _ | .number _ | .string _ => rfl
  | .array elements => congrArg Json.array (jsonbElements_eq elements)
  | .object members => by
    rw [jsonb, jsonbMembers_eq members, mapMembers_eq, sortByKey_map, ← mapMembers_eq]
    rfl

theorem jsonbElements_eq : ∀ elements : List (Json Numeral),
    jsonbElements elements = mapElements Numeral.numeric (orderedElements KeyLe elements)
  | [] => rfl
  | element :: elements => by
    rw [jsonbElements, orderedElements, mapElements, jsonb_eq element, jsonbElements_eq elements]

theorem jsonbMembers_eq : ∀ members : List (String × Json Numeral),
    jsonbMembers members = sortByKey KeyLe (mapMembers Numeral.numeric (orderedMembers KeyLe members))
  | [] => rfl
  | (key, value) :: members => by
    rw [jsonbMembers, jsonb_eq value, jsonbMembers_eq members, insertMember_eq]
    rfl

end

end AsceticDdd.Postgres.Json
