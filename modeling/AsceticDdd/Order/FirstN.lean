import Mathlib.Data.List.Sort
import Mathlib.Data.List.Perm.Subperm
import Mathlib.Order.Lattice

/-!
# The first elements by a key, and the merge of branches

`ORDER BY key LIMIT n`, over one list or over branches each cut by the same limit first. What
the cut leaves out lies past everything it keeps, and only a full cut leaves anything out.
-/

namespace AsceticDdd.FirstN

universe u v

variable {α : Type u} {β : Type v} [LinearOrder β] (key : α → β)

def byKey (a b : α) : Prop := key a ≤ key b

instance : DecidableRel (byKey key) := fun a b => inferInstanceAs (Decidable (key a ≤ key b))

instance : Std.Total (byKey key) := ⟨fun a b => le_total (key a) (key b)⟩

instance : IsTrans α (byKey key) := ⟨fun _ _ _ h h' => le_trans h h'⟩

def firstN (n : Nat) (l : List α) : List α := (l.insertionSort (byKey key)).take n

variable {key} {n : Nat} {l : List α}

theorem mem_of_mem_firstN {a : α} (h : a ∈ firstN key n l) : a ∈ l :=
  (List.mem_insertionSort (byKey key)).mp (List.mem_of_mem_take h)

theorem length_firstN : (firstN key n l).length = min n l.length := by
  simp [firstN, List.length_insertionSort]

theorem firstN_sorted : (firstN key n l).Pairwise fun a b => key a ≤ key b :=
  (List.pairwise_insertionSort (byKey key) l).sublist (List.take_sublist _ _)

theorem firstN_nodup (h : l.Nodup) : (firstN key n l).Nodup :=
  ((List.perm_insertionSort (byKey key) l).nodup_iff.mpr h).sublist (List.take_sublist _ _)

theorem mem_drop_of_not_mem_firstN {a : α} (ha : a ∈ l) (hna : a ∉ firstN key n l) :
    a ∈ (l.insertionSort (byKey key)).drop n := by
  have hsort : a ∈ l.insertionSort (byKey key) := (List.mem_insertionSort (byKey key)).mpr ha
  rw [← List.take_append_drop n (l.insertionSort (byKey key))] at hsort
  exact (List.mem_append.mp hsort).resolve_left hna

theorem firstN_le {a y : α} (hy : y ∈ firstN key n l) (ha : a ∈ l) (hna : a ∉ firstN key n l) :
    key y ≤ key a := by
  have hsorted := List.pairwise_insertionSort (byKey key) l
  rw [← List.take_append_drop n (l.insertionSort (byKey key))] at hsorted
  exact (List.pairwise_append.mp hsorted).2.2 y hy a (mem_drop_of_not_mem_firstN ha hna)

theorem firstN_full {a : α} (ha : a ∈ l) (hna : a ∉ firstN key n l) :
    (firstN key n l).length = n := by
  have hdrop := List.length_pos_of_mem (mem_drop_of_not_mem_firstN ha hna)
  rw [List.length_drop, List.length_insertionSort] at hdrop
  rw [length_firstN]
  omega

variable (key) in
/-- Each branch cut by the limit, then the branches together. -/
def mergeN (n : Nat) (branches : List (List α)) : List α :=
  firstN key n (branches.map (firstN key n)).flatten

variable {branches : List (List α)}

theorem mem_branch_of_mem_mergeN {a : α} (h : a ∈ mergeN key n branches) :
    ∃ branch ∈ branches, a ∈ branch := by
  obtain ⟨cut, hcut, ha⟩ := List.mem_flatten.mp (mem_of_mem_firstN h)
  obtain ⟨branch, hbranch, rfl⟩ := List.mem_map.mp hcut
  exact ⟨branch, hbranch, mem_of_mem_firstN ha⟩

theorem length_mergeN_le : (mergeN key n branches).length ≤ n := by
  rw [mergeN, length_firstN]
  exact min_le_left _ _

theorem mergeN_sorted : (mergeN key n branches).Pairwise fun a b => key a ≤ key b := firstN_sorted

theorem mergeN_nodup (h : branches.flatten.Nodup) : (mergeN key n branches).Nodup := by
  apply firstN_nodup
  rw [List.nodup_flatten] at h ⊢
  refine ⟨?_, ?_⟩
  · intro cut hcut
    obtain ⟨branch, hbranch, rfl⟩ := List.mem_map.mp hcut
    exact firstN_nodup (h.1 branch hbranch)
  · rw [List.pairwise_map]
    refine h.2.imp ?_
    intro left right hdisjoint a hleft hright
    exact hdisjoint (mem_of_mem_firstN hleft) (mem_of_mem_firstN hright)

/-- Past a branch's own cut there are already `n` elements no later than `a`: one of the merge
past `a` would leave no room for all of them. -/
theorem mergeN_le_of_not_mem_firstN {branch : List α} {a : α} (hbranch : branch ∈ branches)
    (hnodup : branch.Nodup) (ha : a ∈ branch) (hna : a ∉ firstN key n branch) :
    (mergeN key n branches).length = n ∧ ∀ y ∈ mergeN key n branches, key y ≤ key a := by
  have hcut : firstN key n branch ∈ branches.map (firstN key n) := List.mem_map_of_mem hbranch
  have hsub : firstN key n branch ⊆ (branches.map (firstN key n)).flatten :=
    fun b hb => List.mem_flatten.mpr ⟨_, hcut, hb⟩
  have hlen : (firstN key n branch).length = n := firstN_full ha hna
  have hcutnodup : (firstN key n branch).Nodup := firstN_nodup hnodup
  have hroom := (hcutnodup.subperm hsub).length_le
  have hfull : (mergeN key n branches).length = n := by
    rw [mergeN, length_firstN]
    omega
  refine ⟨hfull, fun y hy => ?_⟩
  by_contra hlt
  have hcutLe : ∀ b ∈ firstN key n branch, key b ≤ key a := fun b hb => firstN_le hb ha hna
  have hkept : ∀ b ∈ firstN key n branch, b ∈ mergeN key n branches := by
    intro b hb
    by_contra hnb
    exact hlt ((firstN_le hy (hsub hb) hnb).trans (hcutLe b hb))
  have hy' : y ∉ firstN key n branch := fun h => hlt (hcutLe y h)
  have hsub' : y :: firstN key n branch ⊆ mergeN key n branches := by
    intro b hb
    rcases List.mem_cons.mp hb with rfl | hb
    · exact hy
    · exact hkept b hb
  have := ((List.nodup_cons.mpr ⟨hy', firstN_nodup hnodup⟩).subperm hsub').length_le
  simp only [List.length_cons] at this
  omega

/-- An element of a branch the merge leaves out: the merge is full, and all of it comes first. -/
theorem mergeN_le {branch : List α} {a : α} (hbranch : branch ∈ branches) (hnodup : branch.Nodup)
    (ha : a ∈ branch) (hna : a ∉ mergeN key n branches) :
    (mergeN key n branches).length = n ∧ ∀ y ∈ mergeN key n branches, key y ≤ key a := by
  by_cases hcut : a ∈ firstN key n branch
  · have hin : a ∈ (branches.map (firstN key n)).flatten :=
      List.mem_flatten.mpr ⟨_, List.mem_map_of_mem hbranch, hcut⟩
    exact ⟨firstN_full hin hna, fun y hy => firstN_le hy hin hna⟩
  · exact mergeN_le_of_not_mem_firstN hbranch hnodup ha hcut

variable (key) in
/-- The first `n` of a list by the key, those of one key in any order. -/
def IsFirst (n : Nat) (l first : List α) : Prop :=
  ∃ sorted : List α, sorted.Perm l ∧ sorted.Pairwise (fun a b => key a ≤ key b) ∧ sorted.take n = first

/-- Of a list with `n` elements up to a bound, the first `n` are up to it. -/
theorem firstN_le_of_count {bound : β} (enough : n ≤ (l.filter fun a => decide (key a ≤ bound)).length) :
    ∀ a ∈ firstN key n l, key a ≤ bound := by
  intro a ha
  by_contra above
  obtain ⟨i, before, rfl⟩ := List.mem_iff_getElem.mp ha
  have within : i < n := lt_of_lt_of_le before (by rw [length_firstN]; exact min_le_left _ _)
  have sorted := List.pairwise_insertionSort (byKey key) l
  have small : ((l.insertionSort (byKey key)).filter fun a => decide (key a ≤ bound)).length ≤ i := by
    conv_lhs => rw [← List.take_append_drop i (l.insertionSort (byKey key))]
    have late : ((l.insertionSort (byKey key)).drop i).filter (fun a => decide (key a ≤ bound)) = [] := by
      rw [List.filter_eq_nil_iff]
      intro b hb upTo
      obtain ⟨j, hj, rfl⟩ := List.mem_iff_getElem.mp hb
      rw [List.getElem_drop] at upTo
      have inside : i + j < (l.insertionSort (byKey key)).length := by
        rw [List.length_drop] at hj
        omega
      have ordered : key (firstN key n l)[i] ≤ key (l.insertionSort (byKey key))[i + j] := by
        simp only [firstN, List.getElem_take]
        obtain rfl | after := Nat.eq_zero_or_pos j
        · exact le_rfl
        · exact List.pairwise_iff_getElem.mp sorted i (i + j) (by omega) inside (by omega)
      exact above (ordered.trans (of_decide_eq_true upTo))
    rw [List.filter_append, late, List.append_nil]
    exact (List.length_filter_le _ _).trans (by simp)
  have same := ((List.perm_insertionSort (byKey key) l).filter fun a => decide (key a ≤ bound)).length_eq
  omega

/-- A list in order with what comes after it, when it is full or nothing comes after. -/
theorem IsFirst.of_append {first rest : List α} (perm : (first ++ rest).Perm l)
    (sorted : first.Pairwise fun a b => key a ≤ key b) (before : ∀ a ∈ first, ∀ b ∈ rest, key a ≤ key b)
    (full : first.length = n ∨ first.length ≤ n ∧ rest = []) : IsFirst key n l first := by
  have later := List.perm_insertionSort (byKey key) rest
  refine ⟨first ++ rest.insertionSort (byKey key), (later.append_left first).trans perm, ?_, ?_⟩
  · refine List.pairwise_append.mpr ⟨sorted, List.pairwise_insertionSort (byKey key) rest, fun a ha b hb => ?_⟩
    exact before a ha b ((List.mem_insertionSort (byKey key)).mp hb)
  · obtain rfl | ⟨short, rfl⟩ := full
    · exact List.take_left
    · rw [List.insertionSort_nil, List.append_nil, List.take_of_length_le short]

theorem IsFirst.of_perm {l' first : List α} (h : IsFirst key n l first) (perm : l.Perm l') : IsFirst key n l' first := by
  obtain ⟨sorted, same, rest⟩ := h
  exact ⟨sorted, same.trans perm, rest⟩

theorem length_of_isFirst {first : List α} (h : IsFirst key n l first) : first.length = min n l.length := by
  obtain ⟨sorted, perm, _, rfl⟩ := h
  rw [List.length_take, perm.length_eq]

/-- A short one leaves nothing. -/
theorem IsFirst.perm {first : List α} (h : IsFirst key n l first) (short : first.length < n) : first.Perm l := by
  have length := length_of_isFirst h
  obtain ⟨sorted, perm, _, rfl⟩ := h
  rw [List.take_of_length_le (by have := perm.length_eq; omega)]
  exact perm

theorem cut_perm : (branches.map (firstN key n)).flatten ++
    (branches.map fun branch => (branch.insertionSort (byKey key)).drop n).flatten |>.Perm branches.flatten := by
  induction branches with
  | nil => exact .nil
  | cons branch branches ih =>
    have whole : firstN key n branch ++ (branch.insertionSort (byKey key)).drop n |>.Perm branch := by
      rw [firstN, List.take_append_drop]
      exact List.perm_insertionSort (byKey key) branch
    simp only [List.map_cons, List.flatten_cons, List.append_assoc]
    exact ((List.perm_append_comm_assoc ..).append_left _).trans
      (by rw [← List.append_assoc]; exact whole.append ih)

/-- What the branches cut by the limit, merged and cut again, give is the first of all they have. -/
theorem mergeN_isFirst : IsFirst key n branches.flatten (mergeN key n branches) := by
  have ordered : ∀ l : List α, ∀ a ∈ firstN key n l, ∀ b ∈ (l.insertionSort (byKey key)).drop n, key a ≤ key b := by
    intro l
    have sorted := List.pairwise_insertionSort (byKey key) l
    rw [← List.take_append_drop n (l.insertionSort (byKey key))] at sorted
    exact (List.pairwise_append.mp sorted).2.2
  have fullOf : ∀ l : List α, ∀ b ∈ (l.insertionSort (byKey key)).drop n, (firstN key n l).length = n := by
    intro l b hb
    have more := List.length_pos_of_mem hb
    rw [List.length_drop, List.length_insertionSort] at more
    rw [length_firstN]
    omega
  let cuts := (branches.map (firstN key n)).flatten
  let drops := (branches.map fun branch => (branch.insertionSort (byKey key)).drop n).flatten
  have left : ∀ b ∈ drops, ∃ branch ∈ branches, b ∈ (branch.insertionSort (byKey key)).drop n := by
    intro b hb
    obtain ⟨drop, hdrop, hb⟩ := List.mem_flatten.mp hb
    obtain ⟨branch, hbranch, rfl⟩ := List.mem_map.mp hdrop
    exact ⟨branch, hbranch, hb⟩
  -- a branch's own cut has `n` elements up to what it leaves out
  have enough : ∀ b ∈ drops, n ≤ (cuts.filter fun a => decide (key a ≤ key b)).length := by
    intro b hb
    obtain ⟨branch, hbranch, hb⟩ := left b hb
    have within : (firstN key n branch).Sublist cuts := List.sublist_flatten_of_mem (List.mem_map_of_mem hbranch)
    have whole : (firstN key n branch).filter (fun a => decide (key a ≤ key b)) = firstN key n branch :=
      List.filter_eq_self.mpr fun a ha => decide_eq_true (ordered branch a ha b hb)
    have count := (within.filter fun a => decide (key a ≤ key b)).length_le
    rw [whole, fullOf branch b hb] at count
    exact count
  have merged : (mergeN key n branches ++ (cuts.insertionSort (byKey key)).drop n).Perm cuts := by
    rw [mergeN, firstN, List.take_append_drop]
    exact List.perm_insertionSort (byKey key) cuts
  have whole : (mergeN key n branches ++ ((cuts.insertionSort (byKey key)).drop n ++ drops)).Perm branches.flatten := by
    rw [← List.append_assoc]
    exact (merged.append_right drops).trans cut_perm
  refine IsFirst.of_append whole mergeN_sorted ?_ ?_
  · intro a ha b hb
    obtain hb | hb := List.mem_append.mp hb
    · exact ordered cuts a ha b hb
    · exact firstN_le_of_count (enough b hb) a ha
  · have length : (mergeN key n branches).length = min n cuts.length := length_firstN
    obtain full | short := le_or_gt n cuts.length
    · exact .inl (by omega)
    · have none' : (cuts.insertionSort (byKey key)).drop n = [] :=
        List.drop_eq_nil_of_le (by rw [List.length_insertionSort]; omega)
      have nothing : drops = [] := by
        refine List.eq_nil_iff_forall_not_mem.mpr fun b hb => ?_
        have := (enough b hb).trans (List.length_filter_le _ _)
        omega
      exact .inr ⟨by omega, by rw [none', nothing]; rfl⟩

end AsceticDdd.FirstN
