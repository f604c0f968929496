import AsceticDdd.Session.IdentityMap.State

/-!
# What the slots know

Letting keys go and sweeping only loosen the slots: an anchored one may be released, and what is
forgotten is an absence or an entity that nothing holds any more. So the slots go on knowing the
facts that were remembered.
-/

namespace AsceticDdd.Session.IdentityMap

variable {κ ε : Type} [DecidableEq κ] [DecidableEq ε] {held held' : List ε} {slots slots' slots'' : Slots κ ε}
  {key other : κ} {e : ε} {fact : Fact ε}

omit [DecidableEq ε] in
theorem mem_entries_iff {entry : Sigma fun _ : κ => Slot ε} :
    entry ∈ slots.entries ↔ slots.lookup entry.1 = some entry.2 := by
  rw [← Option.mem_def, AList.mem_lookup_iff]

theorem alive_iff : alive held slots e = true ↔ e ∈ held ∨ ∃ k, slots.lookup k = some (.anchored (.entity e)) := by
  simp only [alive, Bool.or_eq_true, List.contains_iff_mem, List.any_eq_true, decide_eq_true_eq]
  refine or_congr_right ⟨?_, ?_⟩
  · rintro ⟨entry, hmem, hslot⟩
    exact ⟨entry.1, hslot ▸ mem_entries_iff.mp hmem⟩
  · rintro ⟨k, hk⟩
    exact ⟨⟨k, _⟩, mem_entries_iff.mpr hk, rfl⟩

/-- The second slots are the first, some of them released or forgotten. -/
structure Loosens (held : List ε) (slots slots' : Slots κ ε) : Prop where
  alive : ∀ e, alive held slots' e = true → alive held slots e = true
  slot : ∀ k, slots'.lookup k = slots.lookup k ∨
    (∃ fact, slots.lookup k = some (.anchored fact) ∧
      ((∃ e, fact = .entity e ∧ slots'.lookup k = some (.released e)) ∨
        slots'.lookup k = none ∧ ∀ e, fact = .entity e → ¬ IdentityMap.alive held slots' e = true)) ∨
    ∃ e, slots.lookup k = some (.released e) ∧ slots'.lookup k = none ∧
      ¬ IdentityMap.alive held slots' e = true

namespace Loosens

theorem refl : Loosens held slots slots := ⟨fun _ h => h, fun _ => .inl rfl⟩

theorem trans (h : Loosens held slots slots') (h' : Loosens held slots' slots'') :
    Loosens held slots slots'' where
  alive e he := h.alive e (h'.alive e he)
  slot k := by
    obtain heq' | ⟨fact, hfact, hnext⟩ | ⟨e, hreleased, hnone, hdead⟩ := h'.slot k
    · rw [heq']
      obtain heq | ⟨fact, hfact, hreleased | ⟨hnone, hdead⟩⟩ | ⟨e, hreleased, hnone, hdead⟩ := h.slot k
      · exact .inl heq
      · exact .inr (.inl ⟨fact, hfact, .inl hreleased⟩)
      · exact .inr (.inl ⟨fact, hfact, .inr ⟨hnone, fun e he halive => hdead e he (h'.alive e halive)⟩⟩)
      · exact .inr (.inr ⟨e, hreleased, hnone, fun halive => hdead (h'.alive e halive)⟩)
    · obtain heq | ⟨fact', _, ⟨e, _, hreleased⟩ | ⟨hnone, _⟩⟩ | ⟨e, _, hnone, _⟩ := h.slot k
      · exact .inr (.inl ⟨fact, heq ▸ hfact, hnext⟩)
      · rw [hreleased] at hfact
        cases hfact
      · rw [hnone] at hfact
        cases hfact
      · rw [hnone] at hfact
        cases hfact
    · obtain heq | ⟨fact, hfact, ⟨e', rfl, hreleased'⟩ | ⟨hnone', _⟩⟩ | ⟨e', _, hnone', _⟩ := h.slot k
      · exact .inr (.inr ⟨e, heq ▸ hreleased, hnone, hdead⟩)
      · rw [hreleased'] at hreleased
        cases hreleased
        refine .inr (.inl ⟨_, hfact, .inr ⟨hnone, fun e' he' => ?_⟩⟩)
        cases he'
        exact hdead
      · rw [hnone'] at hreleased
        cases hreleased
      · rw [hnone'] at hreleased
        cases hreleased

end Loosens

theorem lookup_retain (k : κ) :
    (retain held slots).lookup k = (slots.lookup k).filter (·.isAlive held slots) := by
  apply Option.ext
  intro slot
  rw [← Option.mem_def, AList.mem_lookup_iff, Option.filter_eq_some_iff, ← Option.mem_def,
    AList.mem_lookup_iff, retain, List.mem_filter]

theorem loosens_retain : Loosens held slots (retain held slots) := by
  have halive : ∀ e, alive held (retain held slots) e = true → alive held slots e = true := by
    intro e he
    rw [alive_iff] at he ⊢
    refine he.imp_right fun ⟨k, hk⟩ => ⟨k, ?_⟩
    rw [lookup_retain, Option.filter_eq_some_iff] at hk
    exact hk.1
  refine ⟨halive, fun k => ?_⟩
  rw [lookup_retain]
  match hslot : slots.lookup k with
  | none => exact .inl rfl
  | some (.anchored fact) => exact .inl rfl
  | some (.released e) =>
    by_cases he : alive held slots e = true
    · exact .inl (by simp [Slot.isAlive, he])
    · exact .inr (.inr ⟨e, rfl, by simp [Slot.isAlive, he], fun h => he (halive e h)⟩)

/-- The key's slot is in the window's keeping. -/
def Anchored (slots : Slots κ ε) (key : κ) : Prop := ∃ fact, slots.lookup key = some (.anchored fact)

theorem anchored_retain : Anchored (retain held slots) key ↔ Anchored slots key := by
  refine exists_congr fun fact => ?_
  rw [lookup_retain, Option.filter_eq_some_iff]
  exact and_iff_left rfl

namespace State

theorem alive_erase (h : alive held (slots.erase key) e = true) : alive held slots e = true := by
  rw [alive_iff] at h ⊢
  refine h.imp_right fun ⟨k, hk⟩ => ⟨k, ?_⟩
  by_cases hkey : k = key
  · rw [hkey, AList.lookup_erase] at hk
    cases hk
  · rwa [AList.lookup_erase_ne hkey] at hk

omit [DecidableEq ε] in
theorem lookup_insert_erase {next : Slot ε} (k : κ) :
    ((slots.erase key).insert key next).lookup k = if k = key then some next else slots.lookup k := by
  split
  · rename_i hkey
    rw [hkey, AList.lookup_insert]
  · rename_i hkey
    rw [AList.lookup_insert_ne hkey, AList.lookup_erase_ne hkey]

omit [DecidableEq ε] in
theorem lookup_erase_eq (k : κ) : (slots.erase key).lookup k = if k = key then none else slots.lookup k := by
  split
  · rename_i hkey
    rw [hkey, AList.lookup_erase]
  · rename_i hkey
    rw [AList.lookup_erase_ne hkey]

/-- The key lost its place: only its slot changes. -/
theorem releaseKey_lookup (k : κ) :
    (releaseKey held slots key).lookup k = if k = key then
      (slots.lookup key).bind (Slot.release (alive held (slots.erase key))) else slots.lookup k := by
  rw [releaseKey]
  cases hslot : slots.lookup key with
  | none =>
    by_cases hkey : k = key
    · rw [if_pos hkey, hkey, hslot]
      rfl
    · rw [if_neg hkey]
  | some slot =>
    dsimp only [Option.bind_some]
    cases slot.release (alive held (slots.erase key)) with
    | none => exact lookup_erase_eq k
    | some next => exact lookup_insert_erase k

theorem alive_releaseKey {x : ε} (h : alive held (releaseKey held slots key) x = true) :
    alive held (slots.erase key) x = true := by
  rw [alive_iff] at h ⊢
  refine h.imp_right fun ⟨k, hk⟩ => ⟨k, ?_⟩
  rw [releaseKey_lookup] at hk
  rw [lookup_erase_eq]
  split at hk
  · match hslot : slots.lookup key with
    | none => simp [hslot] at hk
    | some (.anchored (.entity _)) => simp [hslot, Slot.release] at hk
    | some (.anchored .absence) => simp [hslot, Slot.release] at hk
    | some (.released _) => simp [hslot, Slot.release] at hk
  · rename_i hkey
    rw [if_neg hkey]
    exact hk

theorem loosens_releaseKey : Loosens held slots (releaseKey held slots key) := by
  refine ⟨fun x hx => alive_erase (alive_releaseKey hx), fun k => ?_⟩
  rw [releaseKey_lookup]
  split
  · rename_i hkey
    subst hkey
    match hslot : slots.lookup k with
    | none => exact .inl rfl
    | some (.released e) => exact .inl rfl
    | some (.anchored .absence) => exact .inr (.inl ⟨_, rfl, .inr ⟨rfl, by rintro _ ⟨⟩⟩⟩)
    | some (.anchored (.entity e)) =>
      refine .inr (.inl ⟨_, rfl, ?_⟩)
      by_cases he : alive held (slots.erase k) e = true
      · exact .inl ⟨e, rfl, by simp [Slot.release, he]⟩
      · refine .inr ⟨by simp [Slot.release, he], ?_⟩
        rintro _ ⟨⟩ halive
        exact he (alive_releaseKey halive)
  · exact .inl rfl

theorem anchored_releaseKey (k : κ) :
    Anchored (releaseKey held slots key) k ↔ Anchored slots k ∧ k ≠ key := by
  rw [Anchored, releaseKey_lookup]
  split
  · rename_i hkey
    refine iff_of_false ?_ fun h => h.2 hkey
    rintro ⟨fact, hfact⟩
    match hslot : slots.lookup key with
    | none => simp [hslot] at hfact
    | some (.anchored (.entity _)) => simp [hslot, Slot.release] at hfact
    | some (.anchored .absence) => simp [hslot, Slot.release] at hfact
    | some (.released _) => simp [hslot, Slot.release] at hfact
  · rename_i hkey
    exact (and_iff_left hkey).symm

theorem foldl_releaseKey_spec (held : List ε) (slots : Slots κ ε) (gone : List κ) :
    Loosens held slots (gone.foldl (releaseKey held) slots) ∧
      ∀ k, Anchored (gone.foldl (releaseKey held) slots) k ↔ Anchored slots k ∧ k ∉ gone := by
  induction gone generalizing slots with
  | nil => exact ⟨.refl, fun k => by simp⟩
  | cons first gone ih =>
    obtain ⟨hloosens, hanchored⟩ := ih (releaseKey held slots first)
    refine ⟨loosens_releaseKey.trans hloosens, fun k => ?_⟩
    rw [List.foldl_cons, hanchored, anchored_releaseKey, List.mem_cons, not_or, and_assoc]

/-- A key is in the window exactly when its slot is anchored. -/
structure Kept (s : State κ ε) : Prop where
  agrees : s.window.Agrees
  has_iff : ∀ k, s.window.Has k ↔ Anchored s.slots k

variable {s : State κ ε} (it : Iteration κ) (held : List ε)

theorem sweepWhenDue_spec (h : s.Kept) :
    Loosens held s.slots (s.sweepWhenDue held).slots ∧ (s.sweepWhenDue held).Kept := by
  rw [sweepWhenDue]
  split
  · exact ⟨loosens_retain, h.agrees, fun k => (h.has_iff k).trans anchored_retain.symm⟩
  · exact ⟨.refl, h.agrees, h.has_iff⟩

/-- An anchored key is used: the window takes it, and lets others go. -/
theorem admitKey_spec (hagrees : s.window.Agrees) (hkey : Anchored s.slots key)
    (hothers : ∀ k, k ≠ key → (s.window.Has k ↔ Anchored s.slots k)) :
    Loosens held s.slots (s.admitKey it held key).slots ∧ (s.admitKey it held key).Kept := by
  obtain ⟨hadmitted, hhas⟩ := Window.admitKey_agrees it hagrees key
  obtain ⟨hloosens, hanchored⟩ := foldl_releaseKey_spec held s.slots (s.window.admitKey it key).1
  refine ⟨hloosens, hadmitted, fun k => (hhas k).trans (Iff.trans ?_ (hanchored k).symm)⟩
  refine and_congr_left fun _ => ?_
  by_cases hk : k = key
  · subst hk
    exact iff_of_true (.inl rfl) hkey
  · rw [or_iff_right hk, hothers k hk]

namespace Kept

variable {it held}

/-- An anchored fact is put in the key's slot, and the key admitted. -/
theorem used (h : s.Kept) (it : Iteration κ) (held : List ε) (fact : Fact ε) {s' : State κ ε}
    (hwindow : s'.window = s.window)
    (hlookup : ∀ k, s'.slots.lookup k = if k = key then some (.anchored fact) else s.slots.lookup k) :
    Loosens held s'.slots ((s'.admitKey it held key).sweepWhenDue held).slots ∧
      ((s'.admitKey it held key).sweepWhenDue held).Kept := by
  have hself : Anchored s'.slots key := ⟨fact, by rw [hlookup, if_pos rfl]⟩
  have hothers : ∀ k, k ≠ key → (s'.window.Has k ↔ Anchored s'.slots k) := by
    intro k hk
    rw [hwindow, h.has_iff, Anchored, Anchored, hlookup, if_neg hk]
  obtain ⟨hadmitKey, hadmitted⟩ := admitKey_spec it held (hwindow ▸ h.agrees) hself hothers
  obtain ⟨hsweep, hswept⟩ := sweepWhenDue_spec held hadmitted
  exact ⟨hadmitKey.trans hsweep, hswept⟩

omit [DecidableEq ε] in
theorem forget (h : s.Kept) (key : κ) : (s.forget key).Kept := by
  obtain ⟨hagrees, hhas⟩ := Window.remove_agrees h.agrees key
  refine ⟨hagrees, fun k => (hhas k).trans ?_⟩
  rw [h.has_iff, Anchored, Anchored, State.forget, lookup_erase_eq]
  by_cases hk : k = key
  · simp [hk]
  · simp [hk]

omit [DecidableEq ε] in
theorem forgetAll (s : State κ ε) : s.forgetAll.Kept := by
  obtain ⟨hagrees, hhas⟩ := Window.clear_agrees (w := s.window)
  refine ⟨hagrees, fun k => iff_of_false (hhas k) ?_⟩
  rintro ⟨_, ⟨⟩⟩

theorem resize (h : s.Kept) (it : Iteration κ) (held : List ε) (size : Nat) :
    Loosens held s.slots (s.resize it held size).slots ∧ (s.resize it held size).Kept := by
  obtain ⟨hagrees, hhas⟩ := Window.resize_agrees it h.agrees size
  obtain ⟨hloosens, hanchored⟩ := foldl_releaseKey_spec held s.slots (s.window.resize it size).1
  refine ⟨hloosens, hagrees, fun k => (hhas k).trans (Iff.trans ?_ (hanchored k).symm)⟩
  rw [h.has_iff]

end Kept

end State

/-- The slots know the facts: an anchored slot has its key's fact, a released one its key's entity,
and an entity that is alive is not forgotten. -/
structure Knows (held : List ε) (slots : Slots κ ε) (facts : κ → Option (Fact ε)) : Prop where
  anchored : ∀ k fact, slots.lookup k = some (.anchored fact) → facts k = some fact
  released : ∀ k e, slots.lookup k = some (.released e) → facts k = some (.entity e)
  kept : ∀ k e, facts k = some (.entity e) → alive held slots e = true →
    slots.lookup k = some (.anchored (.entity e)) ∨ slots.lookup k = some (.released e)

namespace Knows

variable {facts : κ → Option (Fact ε)}

theorem loosen (h : Knows held slots facts) (hl : Loosens held slots slots') : Knows held slots' facts where
  anchored k fact hk := by
    obtain heq | ⟨fact', hfact', ⟨e, -, hreleased⟩ | ⟨hnone, -⟩⟩ | ⟨e, -, hnone, -⟩ := hl.slot k
    · exact h.anchored k fact (heq ▸ hk)
    · rw [hreleased] at hk
      cases hk
    · rw [hnone] at hk
      cases hk
    · rw [hnone] at hk
      cases hk
  released k e hk := by
    obtain heq | ⟨fact', hfact', ⟨e', rfl, hreleased⟩ | ⟨hnone, -⟩⟩ | ⟨e', -, hnone, -⟩ := hl.slot k
    · exact h.released k e (heq ▸ hk)
    · rw [hreleased] at hk
      cases hk
      exact h.anchored k _ hfact'
    · rw [hnone] at hk
      cases hk
    · rw [hnone] at hk
      cases hk
  kept k e hfact halive := by
    have hbefore := h.kept k e hfact (hl.alive e halive)
    obtain heq | ⟨fact', hfact', ⟨e', rfl, hreleased⟩ | ⟨hnone, hdead⟩⟩ | ⟨e', hreleased, hnone, hdead⟩ := hl.slot k
    · rwa [heq]
    · have hsame := (h.anchored k _ hfact').symm.trans hfact
      cases hsame
      exact .inr hreleased
    · have hsame := (h.anchored k _ hfact').symm.trans hfact
      cases hsame
      exact absurd halive (hdead e rfl)
    · have hsame := (h.released k _ hreleased).symm.trans hfact
      cases hsame
      exact absurd halive hdead

/-- The fewer entities are alive, the less is owed. -/
theorem mono (h : Knows held slots facts)
    (halive : ∀ e, alive held' slots e = true → alive held slots e = true) : Knows held' slots facts :=
  ⟨h.anchored, h.released, fun k e hfact he => h.kept k e hfact (halive e he)⟩

/-- A fact is remembered. -/
theorem insert (h : Knows held slots facts) (fact : Fact ε)
    (hlookup : ∀ k, slots'.lookup k = if k = key then some (.anchored fact) else slots.lookup k)
    (halive : ∀ e, alive held' slots' e = true → alive held slots e = true) :
    Knows held' slots' (Function.update facts key (some fact)) where
  anchored k fact' hk := by
    rw [hlookup] at hk
    split at hk
    · rename_i hkey
      cases hk
      rw [hkey, Function.update_self]
    · rename_i hkey
      rw [Function.update_of_ne hkey]
      exact h.anchored k fact' hk
  released k e hk := by
    rw [hlookup] at hk
    split at hk
    · cases hk
    · rename_i hkey
      rw [Function.update_of_ne hkey]
      exact h.released k e hk
  kept k e hfact he := by
    rw [hlookup]
    by_cases hkey : k = key
    · subst hkey
      rw [Function.update_self] at hfact
      cases hfact
      exact .inl (if_pos rfl)
    · rw [Function.update_of_ne hkey] at hfact
      rw [if_neg hkey]
      exact h.kept k e hfact (halive e he)

theorem erase (h : Knows held slots facts) :
    Knows held (slots.erase key) (Function.update facts key none) where
  anchored k fact hk := by
    rw [State.lookup_erase_eq] at hk
    split at hk
    · cases hk
    · rename_i hkey
      rw [Function.update_of_ne hkey]
      exact h.anchored k fact hk
  released k e hk := by
    rw [State.lookup_erase_eq] at hk
    split at hk
    · cases hk
    · rename_i hkey
      rw [Function.update_of_ne hkey]
      exact h.released k e hk
  kept k e hfact he := by
    rw [State.lookup_erase_eq]
    by_cases hkey : k = key
    · subst hkey
      rw [Function.update_self] at hfact
      cases hfact
    · rw [Function.update_of_ne hkey] at hfact
      rw [if_neg hkey]
      exact h.kept k e hfact (State.alive_erase he)

end Knows

end AsceticDdd.Session.IdentityMap
