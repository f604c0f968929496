import AsceticDdd.Session.IdentityMap.Window

/-!
# The windows against their references

The window by recency is the list of its keys, last used first. The window by generations keeps no
order; what it owes a key is said by the other keys that were admitted since the key last entered
the young generation.
-/

namespace AsceticDdd.Session.IdentityMap

variable {κ : Type} [DecidableEq κ]

/-- What the map asks of its window. -/
inductive Use (κ : Type)
  | admitKey (key : κ)
  | remove (key : κ)
  | clear
  | resize (size : Nat)
  | keep

def Window.use (it : Iteration κ) (w : Window κ) : Use κ → Window κ
  | .admitKey key => (w.admitKey it key).2
  | .remove key => w.remove key
  | .clear => w.clear
  | .resize size => (w.resize it size).2
  | .keep => w

/-- The reference list, cut to its size from the far end. -/
structure Recent (κ : Type) where
  size : Nat
  keys : List κ
deriving DecidableEq

def Recent.use (r : Recent κ) : Use κ → Recent κ
  | .admitKey key => { r with keys := (key :: r.keys.filter (· ≠ key)).take r.size }
  | .remove key => { r with keys := r.keys.filter (· ≠ key) }
  | .clear => { r with keys := [] }
  | .resize size => ⟨size, r.keys.take size⟩
  | .keep => r

namespace Recency

variable {w w' : Recency κ} {key : κ} {it : Iteration κ}

def recent (w : Recency κ) : Recent κ := ⟨w.size, (w.order.map Prod.snd).reverse⟩

theorem evictFrom_order (size : Nat) (ticks : κ → Option Nat) (order : List (Nat × κ)) :
    (evictFrom size ticks order).2.2 = order.drop (order.length - size) := by
  induction order generalizing ticks with
  | nil => rw [List.drop_nil, evictFrom]
  | cons entry rest ih =>
    rw [evictFrom]
    split
    · rename_i hlarge
      have hlength : (entry :: rest).length - size = (rest.length - size) + 1 := by
        rw [List.length_cons]
        omega
      rw [hlength, List.drop_succ_cons]
      exact ih _
    · rename_i hfits
      have hlength : (entry :: rest).length - size = 0 := by
        rw [List.length_cons]
        omega
      rw [hlength, List.drop_zero]

theorem recent_evict (w : Recency κ) : w.evict.2.recent = ⟨w.size, w.recent.keys.take w.size⟩ := by
  simp only [recent, evict, evictFrom_order, List.map_drop]
  rw [List.take_reverse, List.length_map]

/-- Taking a key's tick out of the order takes out the key, and no other. -/
theorem keys_removeTick (h : w.Agrees) (key : κ) :
    ((removeTick (w.ticks key) w.order).map Prod.snd).reverse = w.recent.keys.filter (· ≠ key) := by
  rw [recent, List.filter_reverse, List.filter_map, removeTick]
  congr 2
  refine List.filter_congr fun entry hentry => ?_
  have htick := (h.mem_order entry.1 entry.2).mp hentry
  rw [Function.comp_apply, decide_eq_decide, not_iff_not]
  constructor
  · intro hsame
    exact (eq_of_ordered h.ordered ((h.mem_order entry.1 key).mpr hsame.symm) hentry).symm
  · intro hkey
    rw [← hkey, htick]

theorem recent_admitKey (h : w.Agrees) (key : κ) : (w.admitKey key).2.recent = w.recent.use (.admitKey key) := by
  have hlast : insertOrdered (w.clock + 1) key (removeTick (w.ticks key) w.order) =
      removeTick (w.ticks key) w.order ++ [(w.clock + 1, key)] := by
    refine insertOrdered_eq_append fun entry hentry => ?_
    exact Nat.lt_succ_of_le (h.le_clock entry (mem_removeTick.mp hentry).1)
  rw [admitKey, recent_evict, hlast, Recent.use, ← keys_removeTick h key]
  simp [recent]

theorem recent_use (h : w.Agrees) (use : Use κ) (huse : (Window.recency w).use it use = .recency w') :
    w'.recent = w.recent.use use := by
  cases use with
  | admitKey key =>
    obtain rfl := Window.recency.inj huse
    exact recent_admitKey h key
  | remove key =>
    obtain rfl := Window.recency.inj huse
    exact congrArg (Recent.mk w.size) (keys_removeTick h key)
  | clear =>
    obtain rfl := Window.recency.inj huse
    rfl
  | resize size =>
    obtain rfl := Window.recency.inj huse
    exact recent_evict { w with size := size }
  | keep =>
    obtain rfl := Window.recency.inj huse
    rfl

end Recency

/-- Of each key that entered the young generation, the other keys admitted since it last did,
without a removal or a resize in between. -/
abbrev Lineage (κ : Type) := κ → Option (Finset κ)

/-- Nothing is traced any more once a key was taken out of the window, or the window cut. -/
def Lineage.use (w : Generations κ) (l : Lineage κ) : Use κ → Lineage κ
  | .admitKey key => fun other =>
    if other ≠ key then (l other).map (insert key)
    else if w.size = 0 ∨ key ∈ w.young then l key
    else some ∅
  | .remove key => if key ∈ w.young ∨ key ∈ w.old then fun _ => none else l
  | .clear | .resize _ => fun _ => none
  | .keep => l

namespace Generations

variable {w w' : Generations κ} {key other : κ} {others : Finset κ} {it : Iteration κ}

/-- Neither generation holds more keys than the size. -/
structure Bounded (w : Generations κ) : Prop where
  young : w.young.card ≤ w.size
  old : w.old.card ≤ w.size

theorem Bounded.card_le (h : w.Bounded) : (w.young ∪ w.old).card ≤ 2 * w.size := by
  have hunion := Finset.card_union_le w.young w.old
  have hyoung := h.young
  have hold := h.old
  omega

/-- What admitting a key that is not young makes of the generations. -/
theorem admit_cases (it : Iteration κ) (w : Generations κ) (key : κ) :
    (w.size = 0 ∨ key ∈ w.young) ∧ (w.admitKey it key).2 = w ∨
    w.size ≠ 0 ∧ key ∉ w.young ∧ w.young.card < w.size ∧
      (w.admitKey it key).2 = { w with young := insert key w.young } ∨
    w.size ≠ 0 ∧ key ∉ w.young ∧ w.size ≤ w.young.card ∧
      (w.admitKey it key).2 = { w with young := {key}, old := w.young } := by
  rw [admitKey]
  split
  · rename_i hsize
    exact .inl ⟨.inl hsize, rfl⟩
  · rename_i hsize
    split
    · rename_i hkey
      exact .inl ⟨.inr hkey, rfl⟩
    · rename_i hkey
      by_cases hfull : w.size ≤ w.young.card
      · refine .inr (.inr ⟨hsize, hkey, hfull, ?_⟩)
        simp only [if_pos hfull]
        rfl
      · refine .inr (.inl ⟨hsize, hkey, Nat.lt_of_not_le hfull, ?_⟩)
        simp only [if_neg hfull]

theorem admit_bounded (h : w.Bounded) (key : κ) : (w.admitKey it key).2.Bounded := by
  obtain ⟨-, heq⟩ | ⟨-, hkey, hroom, heq⟩ | ⟨hsize, -, -, heq⟩ := admit_cases it w key
  · rw [heq]
    exact h
  · rw [heq]
    refine ⟨?_, h.old⟩
    rw [Finset.card_insert_of_notMem hkey]
    exact hroom
  · rw [heq]
    refine ⟨?_, h.young⟩
    rw [Finset.card_singleton]
    exact Nat.one_le_iff_ne_zero.mpr hsize

theorem remove_bounded (h : w.Bounded) (key : κ) : (w.remove key).Bounded :=
  ⟨(Finset.card_erase_le).trans h.young, (Finset.card_erase_le).trans h.old⟩

theorem resize_bounded (w : Generations κ) (size : Nat) : (w.resize it size).2.Bounded := by
  refine ⟨?_, Nat.zero_le _⟩
  refine (List.toFinset_card_le _).trans ?_
  rw [List.length_take]
  exact Nat.min_le_left _ _

theorem bounded_use (h : w.Bounded) (use : Use κ) (huse : (Window.generations w).use it use = .generations w') :
    w'.Bounded := by
  cases use with
  | admitKey key =>
    obtain rfl := Window.generations.inj huse
    exact admit_bounded h key
  | remove key =>
    obtain rfl := Window.generations.inj huse
    exact remove_bounded h key
  | clear =>
    obtain rfl := Window.generations.inj huse
    exact ⟨Nat.zero_le _, Nat.zero_le _⟩
  | resize size =>
    obtain rfl := Window.generations.inj huse
    exact resize_bounded w size
  | keep =>
    obtain rfl := Window.generations.inj huse
    exact h

/-- Where a key is that entered the young generation, by the others admitted since. -/
inductive Stage (w : Generations κ) (key : κ) (others : Finset κ) : Prop
  | young : key ∈ w.young → others ⊆ w.young.erase key → Stage w key others
  | old : key ∈ w.old → key ∉ w.young → w.young ⊆ others → others ⊆ w.old.erase key ∪ w.young →
      Stage w key others
  | gone : key ∉ w.young → key ∉ w.old → w.size < others.card → Stage w key others

/-- Another key is admitted. -/
theorem Stage.admitKey (h : Stage w other others) (hsize : w.size ≠ 0) (hkey : key ≠ other) :
    Stage (w.admitKey it key).2 other (insert key others) := by
  have hgrown := Finset.card_le_card (Finset.subset_insert key others)
  obtain ⟨hsame, heq⟩ | ⟨-, hkey', -, heq⟩ | ⟨-, hkey', hfull, heq⟩ := admit_cases it w key
  · have hmem : key ∈ w.young := hsame.resolve_left hsize
    rw [heq]
    cases h with
    | young hyoung hothers =>
      exact .young hyoung (Finset.insert_subset (Finset.mem_erase.mpr ⟨hkey, hmem⟩) hothers)
    | old hold hnot hyoung hothers =>
      rw [Finset.insert_eq_of_mem (hyoung hmem)]
      exact .old hold hnot hyoung hothers
    | gone hyoung hold hcard => exact .gone hyoung hold (hcard.trans_le hgrown)
  · rw [heq]
    cases h with
    | young hyoung hothers =>
      refine .young (Finset.mem_insert_of_mem hyoung) (Finset.insert_subset ?_ ?_)
      · exact Finset.mem_erase.mpr ⟨hkey, Finset.mem_insert_self _ _⟩
      · exact hothers.trans (Finset.erase_subset_erase _ (Finset.subset_insert _ _))
    | old hold hnot hyoung hothers =>
      refine .old hold ?_ (Finset.insert_subset_insert _ hyoung) (Finset.insert_subset ?_ ?_)
      · rw [Finset.mem_insert, not_or]
        exact ⟨Ne.symm hkey, hnot⟩
      · exact Finset.mem_union_right _ (Finset.mem_insert_self _ _)
      · exact hothers.trans (Finset.union_subset_union_right (Finset.subset_insert _ _))
    | gone hyoung hold hcard =>
      refine .gone ?_ hold (hcard.trans_le hgrown)
      rw [Finset.mem_insert, not_or]
      exact ⟨Ne.symm hkey, hyoung⟩
  · have hnotnew : other ∉ ({key} : Finset κ) := by
      rw [Finset.mem_singleton]
      exact Ne.symm hkey
    rw [heq]
    cases h with
    | young hyoung hothers =>
      refine .old hyoung hnotnew ?_ (Finset.insert_subset ?_ ?_)
      · exact Finset.singleton_subset_iff.mpr (Finset.mem_insert_self _ _)
      · exact Finset.mem_union_right _ (Finset.mem_singleton_self _)
      · exact hothers.trans Finset.subset_union_left
    | old hold hnot hyoung hothers =>
      refine .gone hnotnew hnot ?_
      have hcard := Finset.card_le_card (Finset.insert_subset_insert key hyoung)
      rw [Finset.card_insert_of_notMem hkey'] at hcard
      exact Nat.lt_of_le_of_lt hfull hcard
    | gone hyoung hold hcard => exact .gone hnotnew hyoung (hcard.trans_le hgrown)

/-- A key that enters the young generation is there. -/
theorem stage_entered (hsize : w.size ≠ 0) (hkey : key ∉ w.young) : Stage (w.admitKey it key).2 key ∅ := by
  obtain ⟨hsame, -⟩ | ⟨-, -, -, heq⟩ | ⟨-, -, -, heq⟩ := admit_cases it w key
  · exact absurd hsame (not_or.mpr ⟨hsize, hkey⟩)
  · rw [heq]
    exact .young (Finset.mem_insert_self _ _) (Finset.empty_subset _)
  · rw [heq]
    exact .young (Finset.mem_singleton_self _) (Finset.empty_subset _)

/-- A window keeps a key until more others than its size came after it, and no longer than to the
last of twice its size. -/
theorem Stage.has (h : Stage w key others) (hw : w.Bounded) :
    (others.card ≤ w.size → w.Has key) ∧ (2 * w.size ≤ others.card → ¬ w.Has key) := by
  have hyoungcard := hw.young
  have holdcard := hw.old
  cases h with
  | young hyoung hothers =>
    refine ⟨fun _ => .inl hyoung, fun hmany => ?_⟩
    have hcard := Finset.card_le_card hothers
    have herase := Finset.card_erase_lt_of_mem hyoung
    omega
  | old hold hnot hyoung hothers =>
    refine ⟨fun _ => .inr hold, fun hmany => ?_⟩
    have hcard := (Finset.card_le_card hothers).trans (Finset.card_union_le _ _)
    have herase := Finset.card_erase_lt_of_mem hold
    omega
  | gone hyoung hold hcard =>
    refine ⟨fun hfew => absurd hcard (Nat.not_lt_of_le hfew), fun _ hhas => ?_⟩
    obtain hhas | hhas := hhas
    · exact hyoung hhas
    · exact hold hhas

/-- Every key that the lineage traces is where it says. -/
def Traced (w : Generations κ) (l : Lineage κ) : Prop :=
  ∀ key others, l key = some others → w.size ≠ 0 ∧ Stage w key others

theorem size_admitKey (w : Generations κ) (key : κ) : (w.admitKey it key).2.size = w.size := by
  obtain ⟨-, heq⟩ | ⟨-, -, -, heq⟩ | ⟨-, -, -, heq⟩ := admit_cases it w key <;> rw [heq]

theorem traced_admitKey {l : Lineage κ} (h : w.Traced l) (key : κ) :
    (w.admitKey it key).2.Traced (l.use w (.admitKey key)) := by
  intro other others hother
  rw [size_admitKey]
  by_cases hkey : other = key
  · subst hkey
    simp only [Lineage.use, ne_eq, not_true_eq_false, if_false] at hother
    split at hother
    · rename_i hsame
      obtain ⟨hsize, hstage⟩ := h other others hother
      obtain ⟨-, heq⟩ | ⟨hsize', hnot, -⟩ | ⟨hsize', hnot, -⟩ := admit_cases it w other
      · rw [heq]
        exact ⟨hsize, hstage⟩
      · exact absurd hsame (not_or.mpr ⟨hsize', hnot⟩)
      · exact absurd hsame (not_or.mpr ⟨hsize', hnot⟩)
    · rename_i henters
      obtain ⟨hsize, hnot⟩ := not_or.mp henters
      obtain rfl := Option.some.inj hother
      exact ⟨hsize, stage_entered hsize hnot⟩
  · simp only [Lineage.use, ne_eq, hkey, not_false_eq_true, if_true, Option.map_eq_some_iff] at hother
    obtain ⟨before, hbefore, rfl⟩ := hother
    obtain ⟨hsize, hstage⟩ := h other before hbefore
    exact ⟨hsize, hstage.admitKey hsize (Ne.symm hkey)⟩

theorem traced_use {l : Lineage κ} (h : w.Traced l) (use : Use κ)
    (huse : (Window.generations w).use it use = .generations w') : w'.Traced (l.use w use) := by
  cases use with
  | admitKey key =>
    obtain rfl := Window.generations.inj huse
    exact traced_admitKey h key
  | remove key =>
    obtain rfl := Window.generations.inj huse
    intro other others hother
    simp only [Lineage.use] at hother
    split at hother
    · cases hother
    · rename_i hnot
      obtain ⟨hyoung, hold⟩ := not_or.mp hnot
      have hsame : w.remove key = w := by
        rw [remove, Finset.erase_eq_of_notMem hyoung, Finset.erase_eq_of_notMem hold]
      rw [hsame]
      exact h other others hother
  | clear =>
    intro other others hother
    cases hother
  | resize size =>
    intro other others hother
    cases hother
  | keep =>
    obtain rfl := Window.generations.inj huse
    exact h

end Generations

end AsceticDdd.Session.IdentityMap
