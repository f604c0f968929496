import AsceticDdd.Outbox.Origin
import AsceticDdd.Outbox.Owed

/-!
# What the reclamation takes away

A generation is emptied of rows every position has delivered, and a position created later owes all
that a generation may still hold.
-/

namespace AsceticDdd.Outbox

open Postgres Interleaving

variable {o : PgOutbox} {w w' : World}

theorem Resting.serves (h : Resting w) (hrun : o.program.Run (fun _ _ a => a.Serves) w w') :
    Invariant o (fun _ => True) w' ∧ Originates o (fun _ _ a => a.Serves) w w' := by
  obtain ⟨hserving, _⟩ := h.serving (fun _ _ _ => id) hrun
  have hstep : ∀ v i a v', (Invariant o (fun _ => True) v ∧ o.program.Run (fun _ _ a => a.Serves) w v ∧
      Originates o (fun _ _ a => a.Serves) w v) →
      (Act.Serves a ∧ ∀ s, ¬(v.procs s).Moves ∧ ¬(v.procs s).MakesRing) → o.program.act v i a = some v' →
      (Invariant o (fun _ => True) v' ∧ o.program.Run (fun _ _ a => a.Serves) w v' ∧
        Originates o (fun _ _ a => a.Serves) w v') := by
    rintro v i a v' ⟨hinv, hbefore, horiginates⟩ ⟨ha, hserves⟩ hact
    refine ⟨hinv.act (allows_of_serving hserves) hact, hbefore.step ha hact, ?_⟩
    exact horiginates.step hinv.consistent hbefore (hserves i).1 ha hact
  obtain ⟨hinv, _, horiginates⟩ :=
    hserving.invariant hstep ⟨h.invariant, .refl w, h.originates⟩
  exact ⟨hinv, horiginates⟩

/-- A fresh start sees the committed rows below the ring's bound alone. -/
theorem freshStart_visible {d : Database} {s : Nat} {start : Snapshot}
    (h : freshStart d.metaRow.intactFrom (d.snapshot s) = some start) {x : Nat} (hx : 0 < x)
    (hvisible : start.visible x) : d.Sees s x ∧ ∃ bound, d.metaRow.intactFrom = some bound ∧ x < bound := by
  unfold freshStart at h
  split at h
  · cases h
    rw [not_visible_nothing hx] at hvisible
    cases hvisible
  · rename_i bound hbound
    obtain ⟨hlt, hsees⟩ := (below_visible h).mp hvisible
    exact ⟨hsees, bound, hbound, by omega⟩

theorem Invariant.barren {s : Nat} {selection : Selection} {e : Ensuring} (h : Invariant o (fun _ => True) w)
    (hmoves : ¬(w.procs s).Moves) (hensuring : (w.procs s).ensuring = some (selection, e)) {x : Nat}
    (hown : w.shared.transactions.own s = some x) : Barren x w := by
  have hok := h.ok s
  cases hp : w.procs s with
  | dispatcher selection' limit dispatching =>
    rw [hp] at hok
    refine ⟨hok.1 x hown, (w.shared.transactions.own_running s x hown).1, fun s' hown' => ?_⟩
    rw [w.shared.transactions.own_inj s' s x hown' hown, hp]
    exact id
  | producer landings producing =>
    rw [hp] at hensuring hmoves
    cases producing with
    | moving => exact absurd trivial hmoves
    | _ => cases hensuring
  | _ =>
    rw [hp] at hensuring
    cases hensuring

/-- A position created in the run begins where its group's selection of everything stood, or owes what
the ring may still hold. -/
theorem ReadsStart.owes {key : PositionKey} {start : Snapshot} {v : World} {s : Nat} (hw : Resting w)
    (hreads : ReadsStart o (fun _ _ a => a.Serves) w w' key start v s) :
    (∃ everything, key.uri ≠ "" ∧
      (v.shared.cells ⟨key.consumerGroup, "", key.slot⟩).seenBy s = some everything ∧
        start = everything.delivered) ∨
      ∀ r ∈ w'.shared.written, w'.shared.transactions.Committed r.transactionId →
        (¬v.shared.transactions.Committed r.transactionId ∨
          ∀ bound, v.shared.metaRow.intactFrom = some bound → bound ≤ r.transactionId) →
        Position.Owes ⟨start, none⟩ r := by
  have hafter := hreads.after
  obtain ⟨_, _, selection, slot, _, htakes, hensuring, _, _, rfl, hstart⟩ := hreads
  have hbefore := htakes.before
  obtain ⟨hinv, _⟩ := hw.serves hbefore
  obtain ⟨_, hserves⟩ := hw.serving (fun _ _ _ => id) hbefore
  rw [Database.startOf] at hstart
  split at hstart
  · rename_i everything heverything
    cases hstart
    rw [Option.ite_none_right_eq_some] at heverything
    exact Or.inl ⟨everything, heverything.1, heverything.2, rfl⟩
  · refine Or.inr fun r hr hcommitted howed hpassed => ?_
    rw [Position.passed_delivered] at hpassed
    obtain ⟨hserving, _⟩ := Program.Run.serving hserves (fun _ _ _ => id) hafter
    have hallows : ∀ v i a, (Act.Serves a ∧ ∀ s, ¬(v.procs s).Moves ∧ ¬(v.procs s).MakesRing) →
        Allows (fun _ => True) v i a := fun v i a ha => allows_of_serving ha.2
    have hinv' := hinv.run hallows hserving
    obtain ⟨hsees, bound, hbound, hlt⟩ :=
      freshStart_visible hstart (hinv'.consistent.rows.ids_pos r hr) hpassed
    rcases Database.sees_iff.mp hsees with hended | ⟨hown, _⟩
    · obtain ⟨_, hlive⟩ := (hinv.later hallows hserving).back r hr hcommitted hended
      rcases howed with hnot | hle
      · exact hnot hlive
      · have := hle bound hbound
        omega
    · have hbarren : Barren r.transactionId w' := hinv.extend hallows
        (fun _ _ _ _ _ hinv hbarren _ hstep => hbarren.step hinv hstep)
        (hinv.barren (hserves s).1 hensuring hown) hserving
      exact hbarren.rows r hr rfl

/-- An emptied generation's committed rows are delivered by every position, a row some position has
not delivered is in the table, and a position created in the run begins where the statement that read it found its
group's selection of everything, or owes what the ring still held under that statement. -/
theorem reclamation_is_safe (hw : Resting w) (hrun : o.program.Run (fun _ _ a => a.Serves) w w') :
    (∀ i c goneBelow intactFrom w'', w'.procs i = .reclaimer (.emptied c goneBelow intactFrom) →
      o.program.act w' i .commit = some w'' → ∀ r ∈ w'.shared.table, o.generationOf r = c.generation →
        r ∉ w''.shared.table ∧ (w''.shared.transactions.Committed r.transactionId → ∀ key row,
          (w''.shared.cells key).committed = some row → row.delivered.visible r.transactionId)) ∧
    (∀ r ∈ w'.shared.written, w'.shared.transactions.Committed r.transactionId → ∀ key row,
      (w'.shared.cells key).committed = some row → row.delivered.visible r.transactionId = false →
        r ∈ w'.shared.table) ∧
    ∀ key row, (w.shared.cells key).committed = none → (w'.shared.cells key).committed = some row →
      ∃ v s start, ReadsStart o (fun _ _ a => a.Serves) w w' key start v s ∧
        (v.shared.cells key).committed = none ∧ (w'.shared.cells key).began = ⟨start, none⟩ ∧
        ((∃ everything, key.uri ≠ "" ∧
          (v.shared.cells ⟨key.consumerGroup, "", key.slot⟩).seenBy s = some everything ∧
            start = everything.delivered) ∨
          ∀ r ∈ w'.shared.written, w'.shared.transactions.Committed r.transactionId →
            (¬v.shared.transactions.Committed r.transactionId ∨
              ∀ bound, v.shared.metaRow.intactFrom = some bound → bound ≤ r.transactionId) →
            (w'.shared.cells key).began.Owes r) := by
  obtain ⟨hinv, horiginates⟩ := hw.serves hrun
  refine ⟨?_, ?_, ?_⟩
  · intro i c goneBelow intactFrom w'' hp hact r hr hgen
    have hcommit : Act.Serves .commit := ⟨id, nofun⟩
    obtain ⟨hinv'', _⟩ := hw.serves (hrun.step hcommit hact)
    obtain ⟨d, p, hstep, rfl⟩ := (o.program.act_eq_some).mp hact
    rw [hp] at hstep
    have hgone : r ∉ d.table := by
      cases hstep
      intro hmem
      exact of_decide_eq_true (List.mem_filter.mp hmem).2 hgen
    have hwritten : r ∈ d.written := by
      cases hstep
      exact hinv.consistent.rows.mem_written hr
    refine ⟨hgone, fun hcommitted key row hrow => ?_⟩
    exact (hinv''.consistent.cells key).committed_spares row hrow r
      ⟨hwritten, hcommitted, Or.inl hgone⟩ trivial
  · intro r hr hcommitted key row hrow hnew
    exact hinv.consistent.rows.mem_table (s := 0) hr (Or.inl hcommitted) trivial
      ((hinv.consistent.cells key).committed_spares row hrow) hnew
  · intro key row hnone hrow
    obtain ⟨start, hbegan, v, s, hreads, habsent⟩ := horiginates.began key row hnone hrow
    rw [hbegan]
    exact ⟨v, s, start, hreads, habsent, rfl, hreads.owes hw⟩

section Emptied

/-- A group was handed a row on, the ring moves past it, and a pass empties its generation. -/
def empty : List (Nat × Act) :=
  publish ++ [(0, .commit)] ++ deliver ++ [(2, .begin), (2, .assign), (2, .commit), (4, .reclaim)] ++
    List.replicate 17 (4, .next)

def emptying : World := worldAfter beginning empty (by decide +kernel)

theorem reclamation_is_safe_emptying :
    (∀ i c goneBelow intactFrom w'', emptying.procs i = .reclaimer (.emptied c goneBelow intactFrom) →
      oneSlot.program.act emptying i .commit = some w'' →
        ∀ r ∈ emptying.shared.table, oneSlot.generationOf r = c.generation →
        r ∉ w''.shared.table ∧ (w''.shared.transactions.Committed r.transactionId → ∀ key row,
          (w''.shared.cells key).committed = some row → row.delivered.visible r.transactionId)) ∧
    (∀ r ∈ emptying.shared.written, emptying.shared.transactions.Committed r.transactionId → ∀ key row,
      (emptying.shared.cells key).committed = some row → row.delivered.visible r.transactionId = false →
        r ∈ emptying.shared.table) ∧
    ∀ key row, (beginning.shared.cells key).committed = none →
      (emptying.shared.cells key).committed = some row →
      ∃ v s start, ReadsStart oneSlot (fun _ _ a => a.Serves) beginning emptying key start v s ∧
        (v.shared.cells key).committed = none ∧ (emptying.shared.cells key).began = ⟨start, none⟩ ∧
        ((∃ everything, key.uri ≠ "" ∧
          (v.shared.cells ⟨key.consumerGroup, "", key.slot⟩).seenBy s = some everything ∧
            start = everything.delivered) ∨
          ∀ r ∈ emptying.shared.written, emptying.shared.transactions.Committed r.transactionId →
            (¬v.shared.transactions.Committed r.transactionId ∨
              ∀ bound, v.shared.metaRow.intactFrom = some bound → bound ≤ r.transactionId) →
            (emptying.shared.cells key).began.Owes r) :=
  reclamation_is_safe Resting.fresh
    (worldAfter_run fun _ => by simp [empty, publish, deliver, Act.Serves, Act.Moves])

end Emptied

end AsceticDdd.Outbox
