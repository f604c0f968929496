import AsceticDdd.Outbox.Calls

/-!
# What is handed on

Every row a position says is done was handed on, and none of them twice.
-/

namespace AsceticDdd.Outbox

open Postgres Interleaving

variable {o : PgOutbox} {fair : Nat → Prop} {d d' : Database} {s : Nat} {w w' : World}

theorem Resting.called (h : Resting w) : w.shared.Called := by
  intro key r hr
  obtain ⟨hhanded, hhanding, hcalling⟩ := (h.cells key).unhanded
  rw [Cell.log, hhanded, hhanding, hcalling] at hr
  cases hr

theorem Resting.logged (h : Resting w) : Logged w.shared where
  calls key := by
    obtain ⟨hhanded, hhanding, hcalling⟩ := (h.cells key).unhanded
    rw [Database.callsOf, h.calls, Cell.log, hhanded, hhanding, hcalling]
    rfl
  unborn key _ := (h.cells key).unhanded.1
  unmoved key hne := absurd (h.cells key).unlocked.2.2 hne

/-- A row a position says is done was handed on, in a transaction that committed. -/
theorem no_row_passed_over (hw : Resting w) (hrun : o.program.Run (fun _ _ a => a.Serves) w w')
    {key : PositionKey} {row : PositionRow} (hrow : (w'.shared.cells key).committed = some row)
    (hbegan : (w'.shared.cells key).began = ⟨nothing, none⟩) {r : Row} (hr : r ∈ w'.shared.written)
    (hcommitted : w'.shared.transactions.Committed r.transactionId) (hcovers : o.Covers key r)
    (hpassed : row.toPosition.Passed r) :
    r ∈ (w'.shared.cells key).handed ∧ ⟨key, r⟩ ∈ w'.shared.calls := by
  obtain ⟨hserving, _⟩ := hw.serving (fun _ _ _ ha => ha) hrun
  have hallows : ∀ v i a, (Act.Serves a ∧ ∀ s, ¬(v.procs s).Moves ∧ ¬(v.procs s).MakesRing) →
      Allows (fun _ => True) v i a := fun v i a ha => allows_of_serving ha.2
  have hinv : Invariant o (fun _ => True) w' := hw.invariant.run hallows hserving
  have hcalled : w'.shared.Called := hw.invariant.extend (J := fun v => v.shared.Called) hallows
    (fun v i a d p _ hcalled _ hstep => hstep.effect.called hcalled) hw.called hserving
  have hsound := (hinv.consistent.cells key).committed_sound row hrow
  have hhanded : r ∈ (w'.shared.cells key).handed := by
    refine (hsound.covered r hr hcommitted trivial hcovers hpassed).resolve_right fun hpast => ?_
    rw [hbegan, Position.passed_delivered,
      not_visible_nothing (hinv.consistent.rows.ids_pos r hr)] at hpast
    cases hpast
  exact ⟨hhanded, hcalled key r (List.mem_append_left _ hhanded)⟩

section Published

/-- A message is published, and handed on by the first dispatch of its group. -/
def handOver : List (Nat × Act) := publish ++ [(0, .commit)] ++ deliver

def handedOver : World := worldAfter beginning handOver (by decide +kernel)

theorem no_row_passed_over_published :
    published ∈ (handedOver.shared.cells ⟨"billing", "", 0⟩).handed ∧
      ⟨⟨"billing", "", 0⟩, published⟩ ∈ handedOver.shared.calls :=
  no_row_passed_over Resting.fresh (worldAfter_run fun _ => by simp [handOver, publish, deliver, Act.Serves, Act.Moves])
    (Option.some_get (by decide +kernel)).symm (by decide +kernel) (by decide +kernel)
    (by decide +kernel) (by decide +kernel) (Or.inl (by decide +kernel))

end Published

section Once

/-- What was handed on of a position is of its selection, and each row once. -/
structure Once (o : PgOutbox) (key : PositionKey) (rows : List Row) : Prop where
  covers : ∀ r ∈ rows, o.Covers key r
  nodup : rows.Nodup

variable {key : PositionKey}

theorem Once.nil : Once o key [] := ⟨nofun, .nil⟩

theorem Sound.once {rows : List Row} {seen live : Nat → Prop} {p began : Position} {handed : List Row}
    (h : Sound o fair key rows seen live p began handed) : Once o key handed :=
  ⟨fun r hr => (h.handed_spec r hr).2.2.1, h.nodup⟩

theorem Logged.handedNext (h : Logged d) (key : PositionKey) :
    (d.cells key).handedNext = (d.cells key).handed ++ (d.cells key).handing := by
  rw [Cell.handedNext]
  split
  · rename_i hanew
    rw [h.unborn key (h.unmoved key (Option.isSome_iff_ne_none.mp hanew))]
  · rfl

theorem Logged.handed_once (h : Logged d) (hd : Consistent o fair d) :
    Once o key (d.cells key).handed := by
  cases hrow : (d.cells key).committed with
  | none =>
    rw [h.unborn key hrow]
    exact Once.nil
  | some row => exact ((hd.cells key).committed_sound row hrow).once

/-- With every call acknowledged, the log is what the position's next version says was handed on. -/
theorem Logged.log_once (h : Logged d) (hd : Consistent o fair d) (hcalling : (d.cells key).calling = []) :
    Once o key (d.cells key).log := by
  rw [Cell.log, hcalling, List.append_nil]
  cases hrow : (d.cells key).pending with
  | none =>
    rw [((hd.cells key).unwritten hrow).2, List.append_nil]
    exact h.handed_once hd
  | some row =>
    cases hlock : (d.cells key).lock with
    | none => cases hrow.symm.trans ((hd.cells key).unlocked hlock).1
    | some s =>
      rw [← h.handedNext]
      exact ((hd.cells key).pending_sound s row hlock hrow).once

/-- Amid a batch, the log adds to it what was called so far. -/
theorem Logged.batch_once (h : Logged d) {selection : Selection} {limit slot : Nat} {row : PositionRow}
    {epoch : Epoch} {batch rest : List Row}
    (hok : (Dispatching.handing slot row epoch batch rest).Ok o fair d s selection limit) :
    Once o (.of selection slot) (d.cells (.of selection slot)).log := by
  obtain ⟨_, _, hhanding, hcalling, hsound, hbatch⟩ := hok
  have hall : Once o (.of selection slot) ((d.cells (.of selection slot)).handed ++ batch) := by
    rw [h.handedNext, hhanding, List.append_nil] at hsound
    refine ⟨fun r hr => ?_, hsound.nodup_append hbatch⟩
    rcases List.mem_append.mp hr with hr | hr
    · exact (hsound.handed_spec r hr).2.2.1
    · exact (hbatch.spec r hr).2.2.1
  have hsub : (d.cells (.of selection slot)).log.Sublist
      ((d.cells (.of selection slot)).handed ++ batch) := by
    rw [Cell.log, hhanding, List.nil_append, ← hcalling]
    exact (List.sublist_append_left _ _).append_left _
  exact ⟨fun r hr => hall.covers r (hsub.subset hr), hall.nodup.sublist hsub⟩

/-- A position's calls are amid a batch of its, or all acknowledged. -/
theorem Process.Ok.calling {p : Process} (hok : p.Ok o fair d s) (hlock : (d.cells key).lock = some s) :
    (d.cells key).calling = [] ∨ ∃ selection limit slot row epoch batch rest,
      p = .dispatcher selection limit (.handing slot row epoch batch rest) ∧ key = .of selection slot := by
  cases p with
  | idle => exact absurd hlock (hok.cells key)
  | elsewhere => exact absurd hlock (hok key)
  | producer landings producing => exact Or.inl (hok.1.uncalled key hlock).1
  | reclaimer reclaiming => exact absurd hlock (hok.2.1 key)
  | migrator migrating => exact Or.inl (hok.2.1 key hlock).1
  | dispatcher selection limit dispatching =>
    have hok' := hok.2.2
    cases dispatching with
    | begun again => exact Or.inl (hok' key hlock).1
    | named again names => exact Or.inl (hok' key hlock).1
    | looked again look => exact Or.inl (hok' key hlock).1
    | contacting e => exact Or.inl (hok'.1 key hlock).1
    | taken slot row => exact Or.inl (hok'.1 key hlock).1
    | snapped slot row now => exact Or.inl (hok'.1 key hlock).1
    | ready slot row epoch => exact Or.inl (hok'.1 key hlock).1
    | handing slot row epoch batch rest =>
      by_cases hkey : key = .of selection slot
      · exact Or.inr ⟨selection, limit, slot, row, epoch, batch, rest, rfl, hkey⟩
      · exact Or.inl (hok'.2.1 key hkey hlock).1
    | done => exact Or.inl (hok' key hlock)
    | refusing => exact Or.inl (hok' key hlock)

theorem Invariant.log_once (h : Invariant o fair w) (hlogged : Logged w.shared) (key : PositionKey) :
    Once o key (w.shared.cells key).log := by
  cases hlock : (w.shared.cells key).lock with
  | none => exact hlogged.log_once h.consistent ((h.consistent.cells key).unlocked hlock).2
  | some s =>
    rcases (h.ok s).calling hlock with hcalling | ⟨selection, limit, slot, row, epoch, batch, rest, hp, rfl⟩
    · exact hlogged.log_once h.consistent hcalling
    · have hok := h.ok s
      rw [hp] at hok
      exact hlogged.batch_once hok.2.2

/-- The calls of the subscriber of a group and selection. -/
def Database.callsTo (d : Database) (selection : Selection) : List Row :=
  d.calls.filterMap fun call =>
    if call.key.consumerGroup = selection.consumerGroup ∧ call.key.uri = selection.uri then
      some call.row
    else none

theorem PositionKey.eq_of {selection : Selection} (hgroup : key.consumerGroup = selection.consumerGroup)
    (huri : key.uri = selection.uri) : key = .of selection key.slot := by
  rw [PositionKey.of, ← hgroup, ← huri]

theorem Once.callsTo (h : ∀ key, Once o key (d.callsOf key)) (selection : Selection) :
    (d.callsTo selection).Nodup := by
  unfold Database.callsOf at h
  unfold Database.callsTo
  generalize d.calls = calls at h
  induction calls with
  | nil => exact .nil
  | cons call calls ih =>
    have hrest : ∀ key, Once o key
        (calls.filterMap fun call => if call.key = key then some call.row else none) := by
      intro key
      have hsub := (List.sublist_cons_self call calls).filterMap
        fun call => if call.key = key then some call.row else none
      exact ⟨fun r hr => (h key).covers r (hsub.subset hr), (h key).nodup.sublist hsub⟩
    rw [List.filterMap_cons]
    split
    · exact ih hrest
    · rename_i r hr
      obtain ⟨⟨hgroup, huri⟩, hr⟩ := Option.ite_none_right_eq_some.mp hr
      cases hr
      refine List.nodup_cons.mpr ⟨fun hin => ?_, ih hrest⟩
      obtain ⟨other, hother, hsome⟩ := List.mem_filterMap.mp hin
      obtain ⟨⟨hgroup', huri'⟩, hsome⟩ := Option.ite_none_right_eq_some.mp hsome
      have hrow : other.row = call.row := Option.some.inj hsome
      -- one row falls in one slot, so both calls are of one position
      have hcovers : o.Covers call.key call.row :=
        (h call.key).covers call.row (List.mem_filterMap.mpr ⟨call, List.mem_cons_self, if_pos rfl⟩)
      have hcovers' : o.Covers other.key other.row := (hrest other.key).covers other.row
        (List.mem_filterMap.mpr ⟨other, hother, if_pos rfl⟩)
      have hslot : other.key.slot = call.key.slot := by
        rw [← hcovers.1, ← hcovers'.1, hrow]
      have hkey : other.key = call.key := by
        rw [PositionKey.eq_of hgroup' huri', hslot, ← PositionKey.eq_of hgroup huri]
      have htwice := (h call.key).nodup
      rw [List.filterMap_cons, if_pos rfl] at htwice
      exact (List.nodup_cons.mp htwice).1
        (List.mem_filterMap.mpr ⟨other, hother, by rw [if_pos hkey, hrow]⟩)

end Once

section Grows

/-- What was visible in `delivered` is visible in `delivered`. -/
def Database.Grows (d d' : Database) : Prop := ∀ key row, (d.cells key).committed = some row →
  ∃ row', (d'.cells key).committed = some row' ∧
    ∀ x, row.delivered.visible x → row'.delivered.visible x

theorem Database.Grows.refl (d : Database) : d.Grows d := fun _ row hrow => ⟨row, hrow, fun _ => id⟩

theorem Database.Grows.trans {d'' : Database} (h : d.Grows d') (h' : d'.Grows d'') : d.Grows d'' := by
  intro key row hrow
  obtain ⟨row', hrow', hgrows⟩ := h key row hrow
  obtain ⟨row'', hrow'', hgrows'⟩ := h' key row' hrow'
  exact ⟨row'', hrow'', fun x hx => hgrows' x (hgrows x hx)⟩

/-- No step moves a position back. -/
theorem Logged.grows (h : Logged d) (hd : Consistent o fair d) {p : Process} {a : Act}
    (heffect : Effect o s d p a d') : d.Grows d' := by
  intro key row hrow
  rcases heffect.delivers key with hsame | ⟨row', _, hpending, hrow'⟩
  · exact ⟨row, hsame ▸ hrow, fun _ => id⟩
  · refine ⟨row', hrow', ?_⟩
    have hanew : (d.cells key).anew = none := by
      by_contra hne
      cases hrow.symm.trans (h.unmoved key hne)
    obtain ⟨before, hbefore, hgrows⟩ := (hd.cells key).grown row' hpending hanew
    rw [hrow, Option.some.injEq] at hbefore
    exact hbefore ▸ hgrows

end Grows

/-- A step that moves no position, and drops no transaction that called a subscriber. -/
def Completes (w : World) (i : Nat) (a : Act) : Prop :=
  ¬a.Moves ∧ (a = .rollback → w.shared.Uncalled i)

/-- What a run that moves no position and completes its dispatches keeps. -/
structure Tracked (o : PgOutbox) (w : World) : Prop where
  invariant : Invariant o (fun _ => False) w
  logged : Logged w.shared
  unmoved : ∀ s, ¬(w.procs s).Moves

namespace Tracked

theorem of_resting (h : Resting w) : Tracked o w := ⟨h.invariant, h.logged, h.not_moves⟩

theorem act {i : Nat} {a : Act} (h : Tracked o w) (hok : Completes w i a)
    (hact : o.program.act w i a = some w') : Tracked o w' ∧ w.shared.Grows w'.shared := by
  obtain ⟨d, p, hcases, rfl⟩ := (o.program.act_eq_some).mp hact
  have hstep : Step o i w.shared (w.procs i) a d p := PgOutbox.step_cases hcases
  refine ⟨⟨?_, ?_, fun s => ?_⟩, h.logged.grows h.invariant.consistent hstep.effect⟩
  · exact h.invariant.act ⟨raisesNone_of_moves h.unmoved, fun _ hfair => hfair.elim⟩ hact
  · exact h.logged.step h.invariant.consistent (h.invariant.ok i) (h.unmoved i) hok.2 hstep
  · by_cases hs : s = i
    · rw [hs]
      simpa using hstep.moves hok.1 (h.unmoved i)
    · simpa [Function.update_of_ne hs] using h.unmoved s

theorem run (h : Tracked o w) (hrun : o.program.Run Completes w w') :
    Tracked o w' ∧ w.shared.Grows w'.shared := by
  refine hrun.invariant (I := fun v => Tracked o v ∧ w.shared.Grows v.shared) ?_ ⟨h, .refl _⟩
  rintro v i a v' ⟨hv, hgrows⟩ hok hact
  obtain ⟨hv', hgrows'⟩ := hv.act hok hact
  exact ⟨hv', hgrows.trans hgrows'⟩

end Tracked

/-- No row is handed on twice, the epoch sees all that is delivered, and no position goes back. -/
theorem no_second_hand_on (hw : Resting w) (hrun : o.program.Run Completes w w') :
    (∀ selection, (w'.shared.callsTo selection).Nodup) ∧
    (∀ key row epoch, (w'.shared.cells key).committed = some row → row.epoch = some epoch →
      ∀ x, row.delivered.visible x → epoch.snapshot.visible x) ∧
    ∀ w'', o.program.Run Completes w' w'' → w'.shared.Grows w''.shared := by
  obtain ⟨htracked, _⟩ := (Tracked.of_resting hw).run hrun
  refine ⟨Once.callsTo (o := o) fun key => ?_, fun key row epoch hrow hepoch => ?_,
    fun w'' hlater => (htracked.run hlater).2⟩
  · rw [htracked.logged.calls]
    exact htracked.invariant.log_once htracked.logged key
  · have hsound := (htracked.invariant.consistent.cells key).committed_sound row hrow
    exact (hsound.epoch_sound epoch hepoch).grows

section Batches

/-- A dispatch of one row at a time, of a group in contact. -/
def dispatchOne (s steps : Nat) : List (Nat × Act) :=
  List.flatten [(s, .dispatch ⟨"billing", ""⟩ 1) :: List.replicate 2 (s, .next),
    (s, .take (some 0)) :: List.replicate steps (s, .next), [(s, .commit)]]

def publishAgain : List (Nat × Act) :=
  [(0, .begin), (0, .assign), (0, .publish ⟨"orders/8", [], .null⟩ "later"), (0, .next), (0, .commit)]

def publishedAgain : Row := ⟨⟨"orders/8", [], .null⟩, "later", 2, 7⟩

/-- The first row is handed on and its epoch left open, the second is written, a dispatch finds the epoch's end and
closes it, and another dispatcher hands the second row on. -/
def inBatches : World := worldAfter beginning
  (List.flatten [publish, [(0, .commit)], (1, .dispatch ⟨"billing", ""⟩ 1) :: List.replicate 2 (1, .next),
    (1, .take none) :: List.replicate 6 (1, .next), (1, .take (some 0)) :: List.replicate 5 (1, .next), [(1, .commit)],
    publishAgain, dispatchOne 1 3, dispatchOne 2 5])
  (by decide +kernel)

theorem no_second_hand_on_batches :
    inBatches.shared.callsTo ⟨"billing", ""⟩ = [published, publishedAgain] ∧
    (inBatches.shared.callsTo ⟨"billing", ""⟩).Nodup ∧
    (∃ row epoch, (inBatches.shared.cells ⟨"billing", "", 0⟩).committed = some row ∧ row.epoch = some epoch ∧
      ∀ x, row.delivered.visible x → epoch.snapshot.visible x) ∧
    ∀ w'', oneSlot.program.Run Completes inBatches w'' → inBatches.shared.Grows w''.shared := by
  have hrun : oneSlot.program.Run Completes beginning inBatches :=
    worldAfter_run fun _ => by simp [publish, publishAgain, dispatchOne, Completes, Act.Moves]
  obtain ⟨honce, hsees, hgrows⟩ := no_second_hand_on Resting.fresh hrun
  obtain ⟨row, epoch, hrow, hepoch⟩ : ∃ row epoch,
      (inBatches.shared.cells ⟨"billing", "", 0⟩).committed = some row ∧ row.epoch = some epoch :=
    ⟨_, _, rfl, rfl⟩
  exact ⟨by decide +kernel, honce _, ⟨row, epoch, hrow, hepoch, hsees _ row epoch hrow hepoch⟩, hgrows⟩

end Batches

end AsceticDdd.Outbox
