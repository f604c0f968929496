import Mathlib.Data.List.Sort

/-!
# Members in an order of their keys

A list of members with each key once is put in one order however it was.
-/

namespace AsceticDdd.Keyed

variable {κ α β : Type}

def ByKey (r : κ → κ → Prop) (a b : κ × α) : Prop := r a.1 b.1

section Instances

variable {r : κ → κ → Prop}

instance [DecidableRel r] : DecidableRel (ByKey (α := α) r) := fun a b => inferInstanceAs (Decidable (r a.1 b.1))

instance [Std.Total r] : Std.Total (ByKey (α := α) r) := ⟨fun a b => Std.Total.total a.1 b.1⟩

instance [IsTrans κ r] : IsTrans (κ × α) (ByKey r) := ⟨fun _ _ _ h h' => IsTrans.trans (r := r) _ _ _ h h'⟩

end Instances

variable (r : κ → κ → Prop) [DecidableRel r]

def sortByKey (members : List (κ × α)) : List (κ × α) := members.insertionSort (ByKey r)

variable {r} {members others : List (κ × α)}

theorem sortByKey_perm (r : κ → κ → Prop) [DecidableRel r] (members : List (κ × α)) :
    (sortByKey r members).Perm members :=
  List.perm_insertionSort (ByKey r) members

theorem sortByKey_map (f : α → β) (members : List (κ × α)) :
    sortByKey r (members.map (Prod.map id f)) = (sortByKey r members).map (Prod.map id f) :=
  (List.map_insertionSort (ByKey r) (ByKey r) (Prod.map id f) members fun _ _ _ _ => Iff.rfl).symm

/-- What is in order is left so. -/
theorem sortByKey_sortByKey [Std.Total r] [IsTrans κ r] (members : List (κ × α)) :
    sortByKey r (sortByKey r members) = sortByKey r members :=
  (List.pairwise_insertionSort (ByKey r) members).insertionSort_eq

theorem eq_of_mem_of_key (distinct : (members.map Prod.fst).Nodup) {a b : κ × α} (ha : a ∈ members) (hb : b ∈ members)
    (key : a.1 = b.1) : a = b :=
  List.inj_on_of_nodup_map distinct ha hb key

theorem sortByKey_eq [IsLinearOrder κ r] (distinct : (members.map Prod.fst).Nodup)
    (same : members.Perm others) : sortByKey r members = sortByKey r others := by
  have sorted := List.pairwise_insertionSort (ByKey r) members
  have sorted' := List.pairwise_insertionSort (ByKey r) others
  refine List.Perm.eq_of_pairwise ?_ sorted sorted' ((sortByKey_perm r _).trans (same.trans (sortByKey_perm r _).symm))
  intro a b ha hb le ge
  apply eq_of_mem_of_key distinct ((List.mem_insertionSort _).mp ha)
  · exact same.mem_iff.mpr ((List.mem_insertionSort _).mp hb)
  · exact Std.Antisymm.antisymm _ _ le ge

end AsceticDdd.Keyed
