import AsceticDdd.Outbox.Commit

/-!
# Creating a selection's positions

A position is created where its group's selection of everything stands, or at the beginning the
ring still holds: either way it has delivered every spent row, and nothing that is not ended.
-/

namespace AsceticDdd.Outbox

open Postgres

variable {o : PgOutbox} {fair : Nat → Prop} {d d' : Database} {s : Nat}

/-- What a partial map gives of a list comes from it, and leaves none of it out. -/
theorem mapM_spec {α β : Type} {f : α → Option β} {as : List α} {bs : List β}
    (h : as.mapM f = some bs) :
    (∀ b ∈ bs, ∃ a ∈ as, f a = some b) ∧ ∀ a ∈ as, ∃ b ∈ bs, f a = some b := by
  induction as generalizing bs with
  | nil =>
    cases h
    exact ⟨nofun, nofun⟩
  | cons a as ih =>
    rw [List.mapM_cons] at h
    obtain ⟨b, hb, h⟩ := Option.bind_eq_some_iff.mp h
    obtain ⟨bs, hbs, h⟩ := Option.bind_eq_some_iff.mp h
    cases h
    obtain ⟨hfrom, hto⟩ := ih hbs
    simp only [List.forall_mem_cons, List.exists_mem_cons_iff]
    exact ⟨⟨Or.inl hb, fun c hc => Or.inr (hfrom c hc)⟩, Or.inl hb, fun c hc => Or.inr (hto c hc)⟩

/-- What a session reads of a position has delivered every spent row, and only what it sees. -/
theorem Consistent.recent_of_seenBy (h : Consistent o fair d) {key : PositionKey} {row : PositionRow}
    (hrow : (d.cells key).seenBy s = some row) : d.Recent s fair row.delivered := by
  have hcommitted : (d.cells key).committed = some row → d.Recent s fair row.delivered := fun hrow =>
    ⟨fun x hx => Database.sees_iff.mpr
      (Or.inl (((h.cells key).committed_sound row hrow).delivered_seen x hx)),
      (h.cells key).committed_spares row hrow⟩
  rw [Cell.seenBy] at hrow
  split at hrow
  · rename_i hlock
    rcases Option.or_eq_some_iff.mp hrow with hrow | ⟨_, hrow⟩
    · exact ⟨((h.cells key).pending_sound s row hlock hrow).delivered_seen,
        (h.cells key).pending_spares row hrow⟩
    · exact hcommitted hrow
  · exact hcommitted hrow

theorem Consistent.recent_of_freshStart (h : Consistent o fair d) {start : Snapshot}
    (hstart : freshStart d.metaRow.intactFrom (d.snapshot s) = some start) : d.Recent s fair start := by
  unfold freshStart at hstart
  split at hstart
  · rename_i hnone
    cases hstart
    refine ⟨fun x hx => ?_, fun r hr => ?_⟩
    · rcases Nat.eq_zero_or_pos x with rfl | hpos
      · exact Database.sees_iff.mpr (Or.inl d.transactions.zero_ended)
      · rw [not_visible_nothing hpos] at hx
        cases hx
    · obtain ⟨v, hv, _⟩ := h.intact r hr
      cases hnone.symm.trans hv
  · rename_i v hv
    refine ⟨fun x hx => ((below_visible hstart).mp hx).2,
      fun r hr _ => (below_visible hstart).mpr ⟨?_, ?_⟩⟩
    · obtain ⟨u, hu, hlt⟩ := h.intact r hr
      rw [hv, Option.some.injEq] at hu
      subst hu
      exact hlt.trans_le (le_max_left _ _)
    · exact Database.sees_iff.mpr (Or.inl hr.2.1.ended)

theorem Consistent.recent_of_startOf (h : Consistent o fair d) {selection : Selection} {slot : Nat}
    {start : Snapshot} (hstart : d.startOf s selection slot = some start) : d.Recent s fair start := by
  rw [Database.startOf] at hstart
  split at hstart
  · rename_i row hrow
    cases hstart
    split at hrow
    · exact h.recent_of_seenBy hrow
    · cases hrow
  · exact h.recent_of_freshStart hstart

/-- What the creation of positions leaves of the session's own. -/
structure Ensures (s : Nat) (d d' : Database) : Prop where
  written : d'.written = d.written
  transactions : d'.transactions = d.transactions
  metaRow : d'.metaRow = d.metaRow
  partitions : d'.partitions = d.partitions
  exclusive : d'.reclamationKey.exclusive = d.reclamationKey.exclusive
  cells : ∀ key, d'.cells key = d.cells key ∨ (d'.cells key).calling = [] ∧
    (d'.cells key).handing = [] ∧ ∀ row, (d'.cells key).pending = some row →
      row.epoch = none ∧ (d'.cells key).anew = some row.toPosition

theorem Ensures.refl (s : Nat) (d : Database) : Ensures s d d :=
  ⟨rfl, rfl, rfl, rfl, rfl, fun _ => Or.inl rfl⟩

theorem Ensures.rowless (h : Ensures s d d') (hrowless : d.Rowless s) : d'.Rowless s := by
  rw [Database.Rowless, h.written, h.transactions]
  exact hrowless

theorem Ensures.uncalled (h : Ensures s d d') (huncalled : d.Uncalled s) : d'.Uncalled s := by
  intro key hlock
  rcases h.cells key with hsame | ⟨hcalling, hhanding, _⟩
  · exact hsame ▸ huncalled key (hsame ▸ hlock)
  · exact ⟨hcalling, hhanding⟩

theorem Ensures.anew (h : Ensures s d d') (hheld : d.Exclusive s) (hanew : d.Anew s) : d'.Anew s := by
  have hheld' : d'.Exclusive s := h.exclusive.trans hheld
  intro key row hlock hrow
  rcases h.cells key with hsame | ⟨_, hhanding, hnew⟩
  · rw [hsame] at hlock hrow ⊢
    obtain ⟨hepoch, hbegan, hhanding, _⟩ := hanew key row hlock hrow
    exact ⟨hepoch, hbegan, hhanding, hheld'⟩
  · exact ⟨(hnew row hrow).1, (hnew row hrow).2, hhanding, hheld'⟩

theorem Consistent.ensurePositions (h : Consistent o fair d) {selection : Selection} {e : Ensuring}
    {e' : Option Ensuring} (hok : e.Ok fair d s)
    (hstep : o.ensurePositions d s selection e = some (d', e')) :
    Kept o fair s d d' ∧ Ensures s d d' ∧ ∀ next, e' = some next → next.Ok fair d' s := by
  cases e with
  | hold =>
    obtain ⟨key, hkey, heq⟩ := Option.map_eq_some_iff.mp hstep
    cases heq
    obtain ⟨hexclusive, hshared, _⟩ := AdvisoryLock.lockShared_eq_some hkey
    refine ⟨h.setKey (AdvisoryLock.lockShared_keeps hkey) (Or.inl ⟨fun _ => ?_, fun hheld => ?_⟩),
      ⟨rfl, rfl, rfl, rfl, hexclusive, fun _ => Or.inl rfl⟩, ?_⟩
    · exact Or.inr (hshared ▸ List.mem_cons_self)
    · exact hexclusive.trans hheld
    · rintro _ ⟨⟩
      exact Or.inr (hshared ▸ List.mem_cons_self)
  | read =>
    obtain ⟨rows, hrows, heq⟩ := Option.map_eq_some_iff.mp hstep
    cases heq
    refine ⟨.refl h s, .refl s d, ?_⟩
    rintro _ ⟨⟩
    refine ⟨hok, fun entry hentry => ?_⟩
    obtain ⟨slot, _, hslot⟩ := (mapM_spec hrows).1 entry hentry
    obtain ⟨start, hstart, rfl⟩ := Option.map_eq_some_iff.mp hslot
    exact h.recent_of_startOf hstart
  | insert rows =>
    cases rows with
    | nil =>
      cases hstep
      exact ⟨.refl h s, .refl s d, nofun⟩
    | cons entry rest =>
      obtain ⟨hheld, hrecent⟩ := hok
      obtain ⟨slot, start⟩ := entry
      obtain ⟨d₁, hcreate, heq⟩ := Option.map_eq_some_iff.mp hstep
      cases heq
      have hkept := h.createCell hheld (hrecent _ List.mem_cons_self) hcreate
      have heffect := Database.createCell_eq hcreate
      have hensures : Ensures s d d' ∧ ∀ now, d.Recent s fair now → d'.Recent s fair now := by
        rcases heffect with rfl | ⟨hnone, hfree, rfl⟩
        · exact ⟨.refl s _, fun _ => id⟩
        · refine ⟨⟨rfl, rfl, rfl, rfl, rfl, fun key => ?_⟩, fun _ hnow => hnow⟩
          by_cases hkey : key = .of selection slot
          · obtain ⟨hpending, hcalling⟩ := (h.cells (.of selection slot)).unlocked hfree
            obtain ⟨_, hhanding⟩ := (h.cells (.of selection slot)).unwritten hpending
            refine Or.inr ?_
            rw [hkey]
            change ((d.setCell _ _).cells _).calling = [] ∧ ((d.setCell _ _).cells _).handing = [] ∧
              ∀ row, ((d.setCell _ _).cells _).pending = some row →
                row.epoch = none ∧ ((d.setCell _ _).cells _).anew = some row.toPosition
            rw [setCell_self]
            refine ⟨hcalling, hhanding, ?_⟩
            rintro _ ⟨⟩
            exact ⟨rfl, rfl⟩
          · exact Or.inl (setCell_of_ne hkey)
      refine ⟨hkept, hensures.1, ?_⟩
      rintro _ ⟨⟩
      refine ⟨?_, fun entry hentry => hensures.2 _ (hrecent entry (List.mem_cons_of_mem _ hentry))⟩
      rcases heffect with rfl | ⟨_, _, rfl⟩
      · exact hheld
      · exact hheld

/-- A row newly locked has nothing of another session's. -/
theorem Consistent.lockCell_uncalled (h : Consistent o fair d) {key : PositionKey}
    {row : PositionRow} (huncalled : d.Uncalled s) (hlock : d.lockCell s key = some (d', row)) :
    d'.Uncalled s := by
  obtain ⟨_, rfl, hguard, _⟩ := h.lockCell hlock
  intro key' hlock'
  obtain ⟨_, _, _, hhanding, hcalling, hsame⟩ := Database.lockCell_cells (d := d) rfl key'
  rw [hhanding, hcalling]
  rcases hsame with hsame | ⟨rfl, _⟩
  · exact huncalled key' (hsame ▸ hlock')
  · rcases hguard with hfree | hmine
    · obtain ⟨hpending, hcalling⟩ := (h.cells key').unlocked hfree
      exact ⟨hcalling, ((h.cells key').unwritten hpending).2⟩
    · exact huncalled key' hmine

end AsceticDdd.Outbox
