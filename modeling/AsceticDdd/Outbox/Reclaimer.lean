import AsceticDdd.Outbox.Commit

/-!
# A reclamation pass keeps the invariant

The generation's newest row is read again, and every position checked against it again, once its
partition is locked: from then on nothing is written to it, and positions only move forward.
-/

namespace AsceticDdd.Outbox

open Postgres

variable {o : PgOutbox} {fair : Nat → Prop} {d d' : Database} {s : Nat}

theorem newestOf_le {rows : List Row} {generation newest : Nat} {r : Row} (hr : r ∈ rows)
    (hgen : o.generationOf r = generation) (hnewest : o.newestOf rows generation = some newest) :
    r.transactionId ≤ newest :=
  (List.max?_eq_some_iff.mp hnewest).2 _
    (List.mem_map_of_mem (List.mem_filter.mpr ⟨hr, decide_eq_true hgen⟩))

/-- The newest row read under the partition's lock is the newest there is. -/
theorem newestOf_getD {generation newest : Nat} :
    d.NewestOf o generation ((o.newestOf (d.visibleRows s) generation).getD newest) := by
  intro r hr hgen hcommitted
  have hvisible : r ∈ d.visibleRows s := Database.mem_visibleRows.mpr ⟨hr, Or.inl hcommitted⟩
  cases hnewest : o.newestOf (d.visibleRows s) generation with
  | some newest => exact newestOf_le hvisible hgen hnewest
  | none =>
    rw [PgOutbox.newestOf, List.max?_eq_none_iff, List.map_eq_nil_iff] at hnewest
    have hmem : r ∈ (d.visibleRows s).filter fun row => o.generationOf row = generation :=
      List.mem_filter.mpr ⟨hvisible, decide_eq_true hgen⟩
    rw [hnewest] at hmem
    cases hmem

/-- A version of a position that a session reads is among the positions it reads. -/
theorem Consistent.mem_positions (h : Consistent o fair d) {key : PositionKey} {row : PositionRow}
    (hrow : (d.cells key).seenBy s = some row) : (key, row) ∈ d.positions s := by
  refine List.mem_filterMap.mpr ⟨key, by_contra fun hkey => ?_, by rw [hrow]; rfl⟩
  obtain ⟨hcommitted, hlock⟩ := (h.cells key).present hkey
  have hother : (d.cells key).lock ≠ some s := by
    rw [hlock]
    rintro ⟨⟩
  rw [Cell.seenBy, if_neg hother, hcommitted] at hrow
  cases hrow

/-- A position that does not pin the generation has delivered every row of it. -/
theorem passedBy_of_pinned (h : Consistent o fair d) {c : Candidate}
    (hfree : ∀ key, (d.cells key).lock ≠ some s) (hnewest : d.NewestOf o c.generation c.newest)
    (hpinned : o.pinned (d.visibleRows s) (d.positions s) c = none) : d.PassedBy o c.generation := by
  intro key row hrow r hr hgen hcommitted
  have hmem : (key, row) ∈ d.positions s := h.mem_positions (by rwa [Cell.seenBy, if_neg (hfree key)])
  have hnot := List.find?_eq_none.mp hpinned _ hmem
  simp only [Bool.or_eq_true, decide_eq_true_eq, List.any_eq_true, not_or, not_exists] at hnot
  have hle := hnewest r hr hgen hcommitted
  refine Snapshot.visible_iff.mpr ⟨by omega, fun hin => ?_⟩
  exact hnot.2 _ ⟨hin, hle, r, Database.mem_visibleRows.mpr ⟨hr, Or.inl hcommitted⟩, hgen, rfl⟩

/-- Every statement of a pass. -/
theorem Consistent.pass (h : Consistent o fair d) {p p' : Reclaiming} (hrowless : d.Rowless s)
    (hfree : ∀ key, (d.cells key).lock ≠ some s) (hok : p.Ok o d s)
    (hstep : o.pass d s p = some (d', p')) :
    Kept o fair s d d' ∧ d'.Rowless s ∧ (∀ key, (d'.cells key).lock ≠ some s) ∧ p'.Ok o d' s := by
  cases p with
  | begun =>
    rw [PgOutbox.pass] at hstep
    split at hstep
    · rename_i key hkey
      cases hstep
      obtain ⟨hexclusive, _, _⟩ := AdvisoryLock.lock_eq_some hkey
      exact ⟨h.setKey (AdvisoryLock.lock_keeps hkey)
        (Or.inl ⟨fun _ => Or.inl hexclusive, fun _ => hexclusive⟩), hrowless, hfree, hexclusive⟩
    · cases hstep
      exact ⟨.refl h s, hrowless, hfree, trivial⟩
  | held =>
    rw [PgOutbox.pass] at hstep
    split at hstep
    · cases hstep
      exact ⟨.refl h s, hrowless, hfree, trivial⟩
    · split at hstep
      · cases hstep
        exact ⟨h.refuse _, hrowless, hfree, trivial⟩
      · cases hstep
        exact ⟨.refl h s, hrowless, hfree, hok⟩
  | checked =>
    rw [PgOutbox.pass] at hstep
    split at hstep
    · cases hstep
      exact ⟨.refl h s, hrowless, hfree, trivial⟩
    · cases hstep
      exact ⟨.refl h s, hrowless, hfree, hok⟩
  | oldest generation oldest =>
    cases hstep
    exact ⟨.refl h s, hrowless, hfree, hok⟩
  | candidate c =>
    rw [PgOutbox.pass] at hstep
    split at hstep
    · cases hstep
      exact ⟨.refl h s, hrowless, hfree, trivial⟩
    · cases hstep
      exact ⟨.refl h s, hrowless, hfree, hok⟩
  | past c =>
    obtain ⟨ids, _, heq⟩ := Option.map_eq_some_iff.mp hstep
    cases heq
    exact ⟨.refl h s, hrowless, hfree, hok⟩
  | sessions c ids =>
    obtain ⟨prepared, _, heq⟩ := Option.map_eq_some_iff.mp hstep
    split at heq
    · cases heq
      exact ⟨.refl h s, hrowless, hfree, trivial⟩
    · cases heq
      exact ⟨.refl h s, hrowless, hfree, hok⟩
  | closed c =>
    rw [PgOutbox.pass] at hstep
    split at hstep
    · cases hstep
      exact ⟨.refl h s, hrowless, hfree, trivial⟩
    · cases hstep
      exact ⟨.refl h s, hrowless, hfree, hok⟩
  | passed c =>
    obtain ⟨d₁, hlock, heq⟩ := Option.map_eq_some_iff.mp hstep
    cases heq
    obtain ⟨hkept, hpartition, rfl⟩ := h.lockPartition hlock
    exact ⟨hkept, hrowless, hfree, hok, hpartition⟩
  | locked c =>
    cases hstep
    exact ⟨.refl h s, hrowless, hfree, hok.1, hok.2, newestOf_getD⟩
  | final c =>
    obtain ⟨hheld, hpartition, hnewest⟩ := hok
    rw [PgOutbox.pass] at hstep
    split at hstep
    · cases hstep
      exact ⟨.refl h s, hrowless, hfree, trivial⟩
    · rename_i hpinned
      cases hstep
      exact ⟨.refl h s, hrowless, hfree, hheld, hpartition, hnewest,
        passedBy_of_pinned h hfree hnewest hpinned⟩
  | rechecked c =>
    cases hstep
    exact ⟨.refl h s, hrowless, hfree, hok⟩
  | truncated c =>
    cases hstep
    exact ⟨.refl h s, hrowless, hfree, hok⟩
  | bounded c goneBelow =>
    cases hstep
    exact ⟨.refl h s, hrowless, hfree, hok⟩
  | left c goneBelow =>
    obtain ⟨ids, _, heq⟩ := Option.map_eq_some_iff.mp hstep
    cases heq
    exact ⟨.refl h s, hrowless, hfree, hok⟩
  | leftSessions c goneBelow ids =>
    obtain ⟨prepared, _, heq⟩ := Option.map_eq_some_iff.mp hstep
    cases heq
    exact ⟨.refl h s, hrowless, hfree, hok⟩
  | opened c goneBelow =>
    cases hstep
    obtain ⟨hheld, hpartition, hnewest, hpassed⟩ := hok
    refine ⟨.refl h s, hrowless, hfree, hheld, hpartition, hnewest, hpassed,
      Nat.lt_of_succ_le (le_max_right _ _), fun u hu => ?_⟩
    rw [hu]
    exact le_max_left _ _
  | emptied c goneBelow intactFrom => cases hstep
  | done => cases hstep
  | refusing => cases hstep

end AsceticDdd.Outbox
