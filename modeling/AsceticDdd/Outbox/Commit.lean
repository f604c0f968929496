import AsceticDdd.Outbox.Preservation

/-!
# The end of a transaction

What a session wrote becomes what the others read, and all it held is let go. A pass that
emptied a generation takes its rows away with it, the making of the ring the rows below its
bound: none of them a row any position may need.
-/

namespace AsceticDdd.Outbox

open Postgres

variable {o : PgOutbox} {fair : Nat → Prop} {d : Database} {i : Nat} {commits : Bool}

namespace Cell

variable {c : Cell}

/-- At the end of a transaction a row is left alone, let go as it was, or committed. -/
theorem finish_cases (c : Cell) (i : Nat) (commits : Bool) :
    (c.lock ≠ some i ∧ c.finish i commits = c) ∨
    (c.lock = some i ∧ (commits = false ∨ c.pending = none) ∧
      c.finish i commits = ⟨c.committed, none, none, c.began, c.handed, none, [], []⟩) ∨
    ∃ row, c.lock = some i ∧ commits = true ∧ c.pending = some row ∧
      c.finish i commits = ⟨some row, none, none, c.beganNext, c.handedNext, none, [], []⟩ := by
  by_cases hlock : c.lock = some i
  · right
    unfold finish
    simp only [if_pos hlock]
    cases commits with
    | false => exact Or.inl ⟨hlock, Or.inl rfl, rfl⟩
    | true =>
      cases hrow : c.pending with
      | none => exact Or.inl ⟨hlock, Or.inr rfl, rfl⟩
      | some row => exact Or.inr ⟨row, hlock, rfl, rfl, rfl⟩
  · exact Or.inl ⟨hlock, if_neg hlock⟩

theorem finish_of_ne (h : c.lock ≠ some i) : c.finish i commits = c := if_neg h

theorem finish_lock (hlock : (c.finish i commits).lock = some i) : False := by
  rcases finish_cases c i commits with ⟨hne, heq⟩ | ⟨_, _, heq⟩ | ⟨_, _, _, _, heq⟩ <;>
    rw [heq] at hlock
  · exact hne hlock
  · cases hlock
  · cases hlock

/-- After a commit, the row is as the session read it. -/
theorem finish_committed : (c.finish i true).committed = c.seenBy i := by
  unfold seenBy
  rcases finish_cases c i true with ⟨hne, heq⟩ | ⟨hlock, hdrop, heq⟩ | ⟨row, hlock, _, hrow, heq⟩ <;>
    rw [heq]
  · rw [if_neg hne]
  · rw [if_pos hlock, hdrop.resolve_left nofun]
    rfl
  · rw [if_pos hlock, hrow]
    rfl

end Cell

theorem finish_later_own : Later d.written (d.Sees i) (d.Live i) d.written
    (d.transactions.finish i true).Ended (d.transactions.finish i true).Committed where
  mem _ := id
  seen_sub _ hx := Transactions.finish_ended.mpr ((Database.sees_iff.mp hx).symm.imp_left And.left)
  live_sub _ _ hlive := Transactions.finish_committed.mpr (hlive.symm.imp_left fun h => ⟨rfl, h⟩)
  back _ hr hlive _ := ⟨hr, (Transactions.finish_committed.mp hlive).symm.imp_right And.right⟩

/-- A position row after a session's end, whichever way it went. -/
theorem CellOk.finish {key : PositionKey} {c : Cell} (h : CellOk o fair d key c)
    (ht : Transactions.Advances i d.transactions (d.transactions.finish i commits))
    (hspent : ∀ r, (d.finish i commits).Spent r → d.Spent r) :
    CellOk o fair (d.finish i commits) key (c.finish i commits) := by
  have hcommitted := later_committed (d.finish i commits) ht (List.append_nil _).symm (by simp)
  rcases Cell.finish_cases c i commits with ⟨hne, heq⟩ | ⟨hlock, _, heq⟩ |
    ⟨row, hlock, rfl, hrow, heq⟩
  · rw [heq]
    have hother : ∀ s, c.lock = some s → s ≠ i := fun s hs hsi => hne (hsi ▸ hs)
    refine h.env (fun _ => id) hcommitted (fun s row hs _ hsound => ?_) (fun s hs => ?_)
      fun r hr _ => Or.inl (hspent r hr)
    · exact hsound.mono (later_pending (d.finish i commits) ht (List.append_nil _).symm
        (by simp) (hother s hs))
    · exact ⟨(AdvisoryLock.release_keeps.holds (hother s hs)).mpr,
        (AdvisoryLock.release_keeps.exclusive s (hother s hs)).mpr⟩
  · rw [heq]
    exact {
      present := fun hkey => ⟨(h.present hkey).1, rfl⟩
      unlocked := fun _ => ⟨rfl, rfl⟩
      unwritten := fun _ => ⟨rfl, rfl⟩
      committed_sound := fun row hrow => (h.committed_sound row hrow).mono hcommitted
      pending_sound := nofun
      grown := nofun
      anew_held := nofun
      committed_spares := fun row hrow r hr => h.committed_spares row hrow r (hspent r hr)
      pending_spares := nofun
      committed_pair := h.committed_pair
      pending_pair := nofun }
  · rw [heq]
    exact {
      present := fun hkey => absurd (hlock.symm.trans (h.present hkey).2) nofun
      unlocked := fun _ => ⟨rfl, rfl⟩
      unwritten := fun _ => ⟨rfl, rfl⟩
      committed_sound := fun _ hrow' => by
        cases hrow'
        exact (h.pending_sound i row hlock hrow).mono finish_later_own
      pending_sound := nofun
      grown := nofun
      anew_held := nofun
      committed_spares := fun _ hrow' r hr => by
        cases hrow'
        exact h.pending_spares row hrow r (hspent r hr)
      pending_spares := nofun
      committed_pair := fun _ hrow' => by
        cases hrow'
        exact h.pending_pair row hrow
      pending_pair := nofun }

theorem finish_partitions {generation s : Nat} (hs : s ≠ i) :
    (d.finish i commits).partitions generation = some s ↔ d.partitions generation = some s := by
  change (if d.partitions generation = some i then none else d.partitions generation) = some s ↔ _
  split
  · rename_i hmine
    rw [hmine]
    exact ⟨nofun, fun hsome => absurd (Option.some.inj hsome).symm hs⟩
  · rfl

theorem not_finish_partitions {generation : Nat} :
    (d.finish i commits).partitions generation ≠ some i := by
  change (if d.partitions generation = some i then none else d.partitions generation) ≠ some i
  split
  · exact nofun
  · assumption

/-- A session out of its transaction holds nothing. -/
theorem finish_quiet : (d.finish i commits).Quiet i where
  cells _ hlock := Cell.finish_lock hlock
  key := AdvisoryLock.not_holds_release
  partitions _ := not_finish_partitions
  own := Transactions.finish_own

theorem Guarantee.finish (h : Consistent o fair d) : Guarantee o i d (d.finish i commits) := by
  have ht : Transactions.Advances i d.transactions (d.transactions.finish i commits) :=
    Transactions.finish_advances
  refine { Guarantee.refl o i d with
    transactions := ht
    written := ⟨[], (List.append_nil _).symm, by simp⟩
    spent := fun r hr => Or.inl (h.spent_of_advances ht hr)
    cells := fun key s hs hlock => ?_
    locks := fun key s hs hlock => ?_
    grows := fun key row hrow => ?_
    created := fun key row hrow => ?_
    key := AdvisoryLock.release_keeps
    partitions := fun _ _ => finish_partitions }
  · exact if_neg fun hmine => hs (Option.some.inj (hlock.symm.trans hmine))
  · change ((d.cells key).finish i commits).lock = some s at hlock
    rcases Cell.finish_cases (d.cells key) i commits with ⟨_, heq⟩ | ⟨_, _, heq⟩ |
      ⟨_, _, _, _, heq⟩ <;> rw [heq] at hlock
    · exact hlock
    · cases hlock
    · cases hlock
  · change ∃ row', ((d.cells key).finish i commits).committed = some row' ∧ _
    rcases Cell.finish_cases (d.cells key) i commits with ⟨_, heq⟩ | ⟨_, _, heq⟩ |
      ⟨row', hlock, _, hrow', heq⟩ <;> rw [heq]
    · exact ⟨row, hrow, Or.inl fun _ => id⟩
    · exact ⟨row, hrow, Or.inl fun _ => id⟩
    · refine ⟨row', rfl, ?_⟩
      by_cases hanew : (d.cells key).anew = none
      · obtain ⟨c, hc, hle⟩ := (h.cells key).grown row' hrow' hanew
        rw [hrow, Option.some.injEq] at hc
        exact Or.inl (hc ▸ hle)
      · exact Or.inr (((h.cells key).anew_held i hlock hanew).2 (by rw [hrow]; exact nofun))
  · by_cases hnone : (d.cells key).committed = none
    · change ((d.cells key).finish i commits).committed = some row at hrow
      rcases Cell.finish_cases (d.cells key) i commits with ⟨_, heq⟩ | ⟨_, _, heq⟩ |
        ⟨row', hlock, _, hrow', heq⟩ <;> rw [heq] at hrow
      · cases hrow.symm.trans hnone
      · cases hrow.symm.trans hnone
      · refine Or.inr ((h.cells key).anew_held i hlock fun hanew => ?_).1
        obtain ⟨c, hc, _⟩ := (h.cells key).grown row' hrow' hanew
        cases hc.symm.trans hnone
    · exact Or.inl hnone

theorem Consistent.finish (h : Consistent o fair d) : Kept o fair i d (d.finish i commits) := by
  have ht : Transactions.Advances i d.transactions (d.transactions.finish i commits) :=
    Transactions.finish_advances
  have hspent : ∀ r, (d.finish i commits).Spent r → d.Spent r := fun r hr =>
    h.spent_of_advances ht hr
  have hguarantee : Guarantee o i d (d.finish i commits) := .finish h
  refine ⟨⟨?_, fun key => (h.cells key).finish ht hspent, fun r hr => h.intact r (hspent r hr),
    fun bound hbound => hguarantee.runningFrom (h.bounds bound hbound)⟩, hguarantee⟩
  refine { h.rows with
    kept := fun r hr hrunning => h.rows.kept r hr fun hended => hrunning (ht.ended hended)
    ids := fun r hr => (h.rows.ids r hr).trans_le ht.next
    here := fun r hr hrunning helsewhere => h.rows.here r hr
      (fun hended => hrunning (ht.ended hended))
      ((ht.elsewhere _ (h.rows.ids r hr)).mp helsewhere)
    partitions := fun generation s hheld r hr hgen => ?_ }
  by_cases hs : s = i
  · exact absurd (hs ▸ hheld) not_finish_partitions
  · exact (h.rows.partitions generation s ((finish_partitions hs).mp hheld) r hr hgen).imp
      ht.ended (ht.own s hs).trans

section Tables

variable {table : List Row} {metaRow : MetaRow} {ringMade : Bool} {bounds : List Nat}

/-- A commit that takes rows away, or fixes a bound, with the row of `outbox_meta`. -/
theorem Consistent.finishWith (h : Consistent o fair d)
    (hsub : table.Sublist d.written) (hin : ∀ r ∈ table, r ∈ d.table)
    (hremoved : ∀ r ∈ d.table, r ∈ table ∨ d.partitions (o.generationOf r) = some i)
    (hbounds : ∀ bound ∈ d.bounds, bound ∈ bounds)
    (hrunning : ∀ bound ∈ bounds, bound ∈ d.bounds ∨ d.RunningFrom bound)
    (hmeta : metaRow.intactFrom = d.metaRow.intactFrom ∨ d.Exclusive i)
    (hspent : ∀ r, Database.Spent { d.finish i true with table, metaRow, ringMade, bounds } r →
      d.Spent r ∨ d.Exclusive i ∧ (fair r.transactionId → ∀ key row,
        (((d.cells key).finish i true).committed = some row ∨
          ((d.cells key).finish i true).pending = some row) → row.delivered.visible r.transactionId))
    (hintact : ∀ r, Database.Spent { d.finish i true with table, metaRow, ringMade, bounds } r →
      ∃ v, metaRow.intactFrom = some v ∧ r.transactionId < v) :
    Kept o fair i d { d.finish i true with table, metaRow, ringMade, bounds } := by
  obtain ⟨hfinished, hguarantee⟩ : Kept o fair i d (d.finish i true) := h.finish
  have hbound : ∀ bound ∈ bounds, (d.finish i true).RunningFrom bound := fun bound hbound =>
    (hrunning bound hbound).elim (hfinished.bounds bound) hguarantee.runningFrom
  refine ⟨⟨?_, fun key => ?_, hintact, hbound⟩, ?_⟩
  · refine { hfinished.rows with
      table := hsub
      kept := fun r hr hnot => ?_
      partitions := fun generation s hheld r hr => hfinished.rows.partitions generation s hheld r
        (hin r hr) }
    refine (hremoved r (hfinished.rows.kept r hr hnot)).resolve_right fun hheld => hnot ?_
    rcases h.rows.partitions _ i hheld r (hfinished.rows.kept r hr hnot) rfl with hended | hown
    · exact hguarantee.transactions.ended hended
    · exact Transactions.finish_ended.mpr (Or.inl hown)
  · refine (hfinished.cells key).env (fun _ => id)
      (later_committed (i := i) _ (Transactions.Advances.refl i _) (List.append_nil _).symm (by simp))
      (fun s row hlock hrow hsound => hsound) (fun _ _ => ⟨id, id⟩) fun r hr hfair => ?_
    exact (hspent r hr).imp
      (fun hr => ⟨hr.1, hguarantee.transactions.committed hr.2.1, hr.2.2⟩)
      fun hvisible => hvisible.2 hfair key
  · exact { hguarantee with
      table := fun r hr => Or.inl (hin r hr)
      removed := hremoved
      spent := fun r hr => (hspent r hr).imp_right And.left
      intact := hmeta
      bounds := hbounds }

end Tables

/-- Under the key held exclusively, the version of another session has delivered what the committed
one has. -/
theorem Consistent.pending_before (h : Consistent o fair d) (hheld : d.Exclusive i) {key : PositionKey}
    {s : Nat} {row : PositionRow} (hs : s ≠ i) (hlock : (d.cells key).lock = some s)
    (hrow : (d.cells key).pending = some row) :
    ∃ row', (d.cells key).committed = some row' ∧
      ∀ x, row'.delivered.visible x → row.delivered.visible x := by
  refine (h.cells key).grown row hrow (by_contra fun hanew => hs ?_)
  exact AdvisoryLock.eq_of_holds hheld ((h.cells key).anew_held s hlock hanew).1

/-- What is committed of a rowless session's transaction was before. -/
theorem Database.Rowless.committed (hrowless : d.Rowless i) {r : Row} (hr : r ∈ d.written)
    (hcommitted : (d.transactions.finish i true).Committed r.transactionId) :
    d.transactions.Committed r.transactionId :=
  (Transactions.finish_committed.mp hcommitted).resolve_left fun hown =>
    hrowless _ hown.2 r hr rfl

/-- A pass that emptied a generation takes nothing away that a position may need. -/
theorem Consistent.emptied (h : Consistent o fair d) {c : Candidate} {goneBelow intactFrom : Nat}
    (hrowless : d.Rowless i) (hfree : ∀ key, (d.cells key).lock ≠ some i)
    (hok : (Reclaiming.emptied c goneBelow intactFrom).Ok o d i) :
    Kept o fair i d (o.emptied (d.finish i true) c goneBelow intactFrom) := by
  obtain ⟨hheld, hpartition, hnewest, hpassed, hlt, hatMost⟩ := hok
  have hspent : ∀ r, (o.emptied (d.finish i true) c goneBelow intactFrom).Spent r → d.Spent r ∨
      r ∈ d.table ∧ o.generationOf r = c.generation ∧ d.transactions.Committed r.transactionId := by
    rintro r ⟨hwritten, hcommitted, hgone⟩
    replace hcommitted := hrowless.committed hwritten hcommitted
    by_cases hgen : r ∈ d.table ∧ o.generationOf r = c.generation
    · exact Or.inr ⟨hgen.1, hgen.2, hcommitted⟩
    · refine Or.inl ⟨hwritten, hcommitted, hgone.imp_left fun hgone htable => hgone ?_⟩
      exact List.mem_filter.mpr ⟨htable, decide_eq_true fun heq => hgen ⟨htable, heq⟩⟩
  refine h.finishWith (List.filter_sublist.trans h.rows.table)
    (fun r hr => (List.mem_filter.mp hr).1) (fun r hr => ?_) (fun _ => id) (fun _ => Or.inl)
    (Or.inr hheld) (fun r hr => ?_) fun r hr => ?_
  · by_cases hgen : o.generationOf r = c.generation
    · exact Or.inr (hgen ▸ hpartition)
    · exact Or.inl (List.mem_filter.mpr ⟨hr, decide_eq_true hgen⟩)
  · refine (hspent r hr).imp_right fun ⟨htable, hgen, hcommitted⟩ => ⟨hheld, fun _ key row hrow => ?_⟩
    rw [Cell.finish_of_ne (hfree key)] at hrow
    rcases hrow with hrow | hrow
    · exact hpassed key row hrow r htable hgen hcommitted
    · cases hlock : (d.cells key).lock with
      | none => cases hrow.symm.trans ((h.cells key).unlocked hlock).1
      | some s =>
        obtain ⟨row', hrow', hgrows⟩ := h.pending_before hheld
          (fun hs => hfree key (hs ▸ hlock)) hlock hrow
        exact hgrows _ (hpassed key row' hrow' r htable hgen hcommitted)
  · refine ⟨intactFrom, rfl, ?_⟩
    rcases hspent r hr with hr | ⟨htable, hgen, hcommitted⟩
    · obtain ⟨v, hv, hle⟩ := h.intact r hr
      exact hle.trans_le (hatMost v hv)
    · exact (hnewest r htable hgen hcommitted).trans_lt hlt

/-- The bound fixed for the ring's copy spends what every position has delivered. -/
theorem Consistent.recorded (h : Consistent o fair d) {bound goneBelow intactFrom : Nat}
    (hrowless : d.Rowless i) (hok : (Migrating.recorded bound goneBelow intactFrom).Ok o fair d i) :
    Kept o fair i d { d.finish i true with
      metaRow := { d.metaRow with goneBelow := some goneBelow, intactFrom := some intactFrom }
      bounds := bound :: d.bounds } := by
  obtain ⟨hheld, hlocked, hbelow, hrunning, hle, hatMost⟩ := hok
  have hspent : ∀ r, Database.Spent { d.finish i true with
      metaRow := { d.metaRow with goneBelow := some goneBelow, intactFrom := some intactFrom }
      bounds := bound :: d.bounds } r → d.Spent r ∨
      r ∈ d.written ∧ d.transactions.Committed r.transactionId ∧ r.transactionId < bound := by
    rintro r ⟨hwritten, hcommitted, hgone⟩
    replace hcommitted := hrowless.committed hwritten hcommitted
    rcases hgone with hgone | ⟨b, hb, hlt⟩
    · exact Or.inl ⟨hwritten, hcommitted, Or.inl hgone⟩
    · rcases List.mem_cons.mp hb with rfl | hb
      · exact Or.inr ⟨hwritten, hcommitted, hlt⟩
      · exact Or.inl ⟨hwritten, hcommitted, Or.inr ⟨b, hb, hlt⟩⟩
  refine h.finishWith h.rows.table (fun _ => id) (fun _ => Or.inl) (fun _ => List.mem_cons_of_mem _)
    (fun b hb => ?_) (Or.inr hheld) (fun r hr => ?_) fun r hr => ?_
  · rcases List.mem_cons.mp hb with rfl | hb
    · exact Or.inr hrunning
    · exact Or.inl hb
  · refine (hspent r hr).imp_right fun ⟨hwritten, hcommitted, hlt⟩ =>
      ⟨hheld, fun hfair key row hrow => ?_⟩
    refine hbelow r hwritten hcommitted hfair hlt key row ?_
    rcases hrow with hrow | hrow
    · rwa [Cell.finish_committed] at hrow
    · -- every position is the session's, so nobody else is writing one
      exfalso
      rcases Cell.finish_cases (d.cells key) i true with ⟨hne, heq⟩ | ⟨_, _, heq⟩ |
        ⟨_, _, _, _, heq⟩ <;> rw [heq] at hrow
      · cases hlock : (d.cells key).lock with
        | none => cases hrow.symm.trans ((h.cells key).unlocked hlock).1
        | some s =>
          obtain ⟨row', hrow', _⟩ := h.pending_before hheld (fun hs => hne (hs ▸ hlock)) hlock hrow
          exact hne (hlocked key row' hrow')
      · cases hrow
      · cases hrow
  · refine ⟨intactFrom, rfl, ?_⟩
    rcases hspent r hr with hr | ⟨_, _, hlt⟩
    · obtain ⟨v, hv, hlt⟩ := h.intact r hr
      exact hlt.trans_le (hatMost v hv)
    · exact hlt.trans_le hle

/-- The ring's copy leaves behind only what lies below a bound. -/
theorem Consistent.copied (h : Consistent o fair d) {bound : Nat} {rows : List Row}
    (hrowless : d.Rowless i) (hok : (Migrating.copied bound rows).Ok o fair d i) :
    Kept o fair i d { d.finish i true with table := rows, ringMade := true } := by
  obtain ⟨hbound, hheld, hsub, hin, hall⟩ := hok
  have hspent : ∀ r, Database.Spent { d.finish i true with table := rows, ringMade := true } r →
      d.Spent r := by
    rintro r ⟨hwritten, hcommitted, hgone⟩
    replace hcommitted := hrowless.committed hwritten hcommitted
    refine ⟨hwritten, hcommitted, ?_⟩
    by_cases htable : r ∈ d.table
    · refine Or.inr (hgone.elim (fun hgone => ⟨bound, hbound, ?_⟩) id)
      exact not_le.mp fun hle => hgone (hall r htable hcommitted hle)
    · exact Or.inl htable
  refine h.finishWith hsub hin (fun r _ => Or.inr (hheld _ Ring.generationOf_lt)) (fun _ => id)
    (fun _ => Or.inl) (Or.inl rfl) (fun r hr => Or.inl (hspent r hr)) fun r hr =>
      h.intact r (hspent r hr)

end AsceticDdd.Outbox
