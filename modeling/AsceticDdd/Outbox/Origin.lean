import AsceticDdd.Outbox.Calls

/-!
# Where positions come from

A position created in a run begins where one statement, earlier in the run, read that it would.
-/

namespace AsceticDdd.Outbox

open Postgres Interleaving

variable {o : PgOutbox} {fair : Nat → Prop} {d d' : Database} {s : Nat} {w w' : World}

section Ensuring

variable {selection : Selection} {rows : List (Nat × Snapshot)}

theorem ensurePositions_insert {e : Ensuring}
    (h : o.ensurePositions d s selection e = some (d', some (.insert rows))) :
    (∃ entry, e = .insert (entry :: rows)) ∨
      e = .read ∧ ∀ entry ∈ rows, d.startOf s selection entry.1 = some entry.2 := by
  cases e with
  | hold =>
    obtain ⟨_, _, heq⟩ := Option.map_eq_some_iff.mp h
    cases heq
  | read =>
    obtain ⟨read, hread, heq⟩ := Option.map_eq_some_iff.mp h
    cases heq
    refine Or.inr ⟨rfl, fun entry hentry => ?_⟩
    obtain ⟨slot, _, hslot⟩ := (mapM_spec hread).1 entry hentry
    obtain ⟨start, hstart, heq⟩ := Option.map_eq_some_iff.mp hslot
    cases heq
    exact hstart
  | insert entries =>
    cases entries with
    | nil => cases h
    | cons entry rest =>
      obtain ⟨_, _, heq⟩ := Option.map_eq_some_iff.mp h
      cases heq
      exact Or.inl ⟨entry, rfl⟩

/-- How a process comes to insert position rows. -/
def Inserts (d : Database) (s : Nat) (selection : Selection) (rows : List (Nat × Snapshot)) (p : Process) :
    Prop :=
  (∃ entries, rows <:+ entries ∧ p.ensuring = some (selection, .insert entries)) ∨
    p.ensuring = some (selection, .read) ∧
      ∀ entry ∈ rows, d.startOf s selection entry.1 = some entry.2

theorem Inserts.of_ensuring {e : Ensuring} {next : Option Ensuring} {p : Process}
    (hp : p.ensuring = some (selection, e)) (h : o.ensurePositions d s selection e = some (d', next))
    (hnext : next = some (.insert rows)) : Inserts d s selection rows p := by
  subst hnext
  rcases ensurePositions_insert h with ⟨entry, rfl⟩ | ⟨rfl, hstart⟩
  · exact Or.inl ⟨_, List.suffix_cons entry rows, hp⟩
  · exact Or.inr ⟨hp, hstart⟩

theorem setPosition_ensuring {m : Moving} {next : Option Moving} {move : Move}
    (h : o.setPosition d s selection m = some (d', next))
    (hnext : next = some (.ensuring move (.insert rows))) :
    ∃ e, m = .ensuring move e ∧ o.ensurePositions d s selection e = some (d', some (.insert rows)) := by
  subst hnext
  cases m with
  | holding kept move read =>
    obtain ⟨_, _, heq⟩ := Option.map_eq_some_iff.mp h
    cases heq
  | granted kept move read =>
    simp only [PgOutbox.setPosition] at h
    split at h <;> cases h
  | ensuring move' e =>
    obtain ⟨⟨d₁, next⟩, hensure, heq⟩ := Option.map_eq_some_iff.mp h
    cases next with
    | none => cases heq
    | some e' =>
      cases heq
      exact ⟨e, rfl, hensure⟩
  | ensured move => cases h
  | rows move now slots =>
    cases slots with
    | nil => cases h
    | cons slot slots =>
      obtain ⟨_, _, h⟩ := Option.bind_eq_some_iff.mp h
      obtain ⟨_, _, h⟩ := Option.bind_eq_some_iff.mp h
      cases h

/-- Where a look leaves a dispatcher. -/
theorem take_next {again : Bool} {look : Look} {slot : Option Nat} {next : Dispatching}
    (h : o.take d s selection again look slot = some (d', next)) :
    next = .contacting .hold ∨ next = .refusing ∨ next = .done ∨ ∃ slot row, next = .taken slot row := by
  have hafter : ∀ {d₁ : Database} {taken : Option (Nat × PositionRow)},
      PgOutbox.afterTake d₁ again look taken = (d', next) →
      next = .contacting .hold ∨ next = .refusing ∨ next = .done ∨
        ∃ slot row, next = .taken slot row := by
    intro d₁ taken h
    unfold PgOutbox.afterTake at h
    split at h
    · cases h
      simp
    · split at h
      · cases h
        simp
      · split at h
        · cases h
          simp
        · cases taken <;> cases h <;> simp
  cases slot with
  | none => exact hafter (Option.some.inj h)
  | some slot =>
    obtain ⟨_, _, heq⟩ := Option.map_eq_some_iff.mp h
    exact hafter heq

theorem dispatch_contacting {limit : Nat} {p : Dispatching} {e : Ensuring}
    (h : o.dispatch d s selection limit p = some (d', .contacting e)) :
    ∃ e', p = .contacting e' ∧ o.ensurePositions d s selection e' = some (d', some e) := by
  unfold PgOutbox.dispatch at h
  split at h
  case h_3 =>
    rename_i e'
    obtain ⟨⟨d₁, next⟩, hensure, heq⟩ := Option.map_eq_some_iff.mp h
    cases next with
    | none => cases heq
    | some e =>
      cases heq
      exact ⟨e', rfl, hensure⟩
  case h_4 =>
    split at h
    · cases h
    · split at h
      · cases h
      · obtain ⟨_, _, heq⟩ := Option.map_eq_some_iff.mp h
        cases heq
  case h_5 =>
    dsimp only at h
    split at h <;> cases h
  all_goals cases h

theorem Step.inserts {p next : Process} {a : Act} (h : Step o s d p a d' next)
    (hnext : next.ensuring = some (selection, .insert rows)) : Inserts d s selection rows p := by
  cases h with
  | start h =>
    unfold PgOutbox.start at h
    split at h
    case h_6 =>
      obtain ⟨_, _, heq⟩ := Option.map_eq_some_iff.mp h
      cases heq
      cases hnext
    all_goals cases h <;> cases hnext
  | assign => exact Or.inl ⟨rows, List.suffix_rfl, hnext⟩
  | release => cases hnext
  | rollback => cases hnext
  | produce h =>
    unfold PgOutbox.produce at h
    split at h
    case h_3 =>
      cases h
      cases hnext
    case h_5 =>
      rename_i selection' m
      obtain ⟨⟨d₁, m'⟩, hset, heq⟩ := Option.map_eq_some_iff.mp h
      cases heq
      cases m' with
      | none => cases hnext
      | some m' =>
        cases m' with
        | ensuring move e =>
          cases hnext
          obtain ⟨e, rfl, hensure⟩ := setPosition_ensuring hset rfl
          exact .of_ensuring rfl hensure rfl
        | _ => cases hnext
    case h_6 =>
      cases h
      cases hnext
    case h_7 =>
      split at h
      · obtain ⟨_, _, heq⟩ := Option.map_eq_some_iff.mp h
        cases heq
        cases hnext
      · cases h
    case h_9 => cases h
    all_goals
      obtain ⟨_, _, heq⟩ := Option.map_eq_some_iff.mp h
      cases heq
      cases hnext
  | take h =>
    rcases take_next h with rfl | rfl | rfl | ⟨_, _, rfl⟩ <;> cases hnext
  | dispatch h =>
    rename_i p' next'
    cases next' with
    | contacting e =>
      cases hnext
      obtain ⟨e, rfl, hensure⟩ := dispatch_contacting h
      exact .of_ensuring rfl hensure rfl
    | _ => cases hnext
  | stop => cases hnext
  | pass => cases hnext
  | migrate => cases hnext
  | commit h =>
    unfold PgOutbox.commit at h
    split at h <;> cases h <;> cases hnext

end Ensuring

section Begins

variable {key : PositionKey}

/-- Where a cell begins, and would begin anew, after a step: as before, at a row the step creates, or
where the version it commits does. -/
structure Cell.Begins (p : Process) (key : PositionKey) (c c' : Cell) : Prop where
  anew : c'.anew = none ∨ c'.anew = c.anew ∨ ∃ selection slot start rest,
    p.ensuring = some (selection, .insert ((slot, start) :: rest)) ∧ key = .of selection slot ∧
      c.committed = none ∧ c'.anew = some ⟨start, none⟩
  began : c'.committed = c.committed ∧ c'.began = c.began ∨ ∃ row, c.pending = some row ∧
    c'.committed = some row ∧ c'.began = c.beganNext

theorem Cell.Begins.refl (p : Process) (key : PositionKey) (c : Cell) : Cell.Begins p key c c :=
  ⟨Or.inr (Or.inl rfl), Or.inl ⟨rfl, rfl⟩⟩

theorem Cell.Begins.finish {p : Process} {c : Cell} {commits : Bool} :
    Cell.Begins p key c (c.finish s commits) := by
  rcases Cell.finish_cases c s commits with ⟨_, heq⟩ | ⟨_, _, heq⟩ | ⟨row, _, _, hrow, heq⟩ <;> rw [heq]
  · exact .refl p key c
  · exact ⟨Or.inl rfl, Or.inl ⟨rfl, rfl⟩⟩
  · exact ⟨Or.inl rfl, Or.inr ⟨row, hrow, rfl, rfl⟩⟩

theorem Cell.Begins.setCell {p : Process} {key' : PositionKey} {c : Cell}
    (h : Cell.Begins p key' (d.cells key') c) :
    Cell.Begins p key (d.cells key) ((d.setCell key' c).cells key) := by
  by_cases hkey : key = key'
  · subst hkey
    rw [setCell_self]
    exact h
  · rw [setCell_of_ne hkey]
    exact .refl p key _

theorem Effect.begins {p : Process} {a : Act} (h : Effect o s d p a d') (hp : ¬p.Moves) :
    Cell.Begins p key (d.cells key) (d'.cells key) := by
  cases h with
  | draw hdraw =>
    obtain ⟨_, rfl⟩ := Database.draw_eq hdraw
    exact .refl p key _
  | insert hinsert =>
    obtain ⟨_, _, _, rfl⟩ := Database.insert_eq hinsert
    exact .refl _ key _
  | lock hlock =>
    rw [Database.lockCell_eq hlock]
    exact .setCell ⟨Or.inr (Or.inl rfl), Or.inl ⟨rfl, rfl⟩⟩
  | lockRefuse hlock =>
    rw [Database.lockCell_eq hlock]
    exact .setCell ⟨Or.inr (Or.inl rfl), Or.inl ⟨rfl, rfl⟩⟩
  | create hensuring hcreate =>
    rcases Database.createCell_eq hcreate with rfl | ⟨hnone, _, rfl⟩
    · exact .refl p key _
    · exact .setCell ⟨Or.inr (Or.inr ⟨_, _, _, _, hensuring, rfl, hnone, rfl⟩), Or.inl ⟨rfl, rfl⟩⟩
  | advance hadvance =>
    rw [PgOutbox.advance_eq hadvance]
    dsimp only
    rw [PgOutbox.advanced]
    split
    · exact .refl p key _
    · split
      · exact ⟨Or.inr (Or.inl rfl), Or.inl ⟨rfl, rfl⟩⟩
      · exact .refl p key _
  | move => exact absurd trivial hp
  | call => exact .setCell ⟨Or.inr (Or.inl rfl), Or.inl ⟨rfl, rfl⟩⟩
  | acknowledge => exact .setCell ⟨Or.inr (Or.inl rfl), Or.inl ⟨rfl, rfl⟩⟩
  | finish commits => exact .finish
  | emptied => exact .finish
  | recorded => exact .finish
  | copied => exact .finish
  | _ => exact .refl _ key _

end Begins

section Origin

variable {ok : World → Nat → Act → Prop} {key : PositionKey} {start : Snapshot}

/-- In world `v` of the run, session `s` takes the statement that reads where the selection's positions begin, and
goes on to insert them: this one at `start`. -/
structure ReadsStart (o : PgOutbox) (ok : World → Nat → Act → Prop) (w w' : World) (key : PositionKey) (start : Snapshot)
    (v : World) (s : Nat) : Prop where
  reads : ∃ a v' selection slot entries, o.program.Takes ok w w' v v' s a ∧
    (v.procs s).ensuring = some (selection, .read) ∧ (v'.procs s).ensuring = some (selection, .insert entries) ∧
    (slot, start) ∈ entries ∧ key = .of selection slot ∧ v.shared.startOf s selection slot = some start

/-- A statement of the run read that the position would begin at `start`. -/
def Origin (o : PgOutbox) (ok : World → Nat → Act → Prop) (w w' : World) (key : PositionKey)
    (start : Snapshot) : Prop := ∃ v s, ReadsStart o ok w w' key start v s

/-- It did while there was no such position. -/
def Founded (o : PgOutbox) (ok : World → Nat → Act → Prop) (w w' : World) (key : PositionKey)
    (start : Snapshot) : Prop :=
  ∃ v s, ReadsStart o ok w w' key start v s ∧ (v.shared.cells key).committed = none

theorem ReadsStart.step {w'' v : World} {i s : Nat} {a : Act} (h : ReadsStart o ok w w' key start v s) (hok : ok w' i a)
    (hact : o.program.act w' i a = some w'') : ReadsStart o ok w w'' key start v s := by
  obtain ⟨a', v', selection, slot, entries, htakes, hrest⟩ := h
  exact ⟨a', v', selection, slot, entries, htakes.step hok hact, hrest⟩

theorem ReadsStart.after {v : World} {s : Nat} (h : ReadsStart o ok w w' key start v s) : o.program.Run ok v w' := by
  obtain ⟨_, _, _, _, _, htakes, _⟩ := h
  exact htakes.run

/-- A position that is not there has not been. -/
theorem Program.Run.absent (hrun : o.program.Run ok w w') (h : (w'.shared.cells key).committed = none) :
    (w.shared.cells key).committed = none := by
  induction hrun with
  | refl => exact h
  | step _ _ hact ih =>
    obtain ⟨d, p, hcases, rfl⟩ := (o.program.act_eq_some).mp hact
    rcases (PgOutbox.step_cases hcases).effect.delivers key with hsame | ⟨row, _, _, hrow⟩
    · exact ih (hsame ▸ h)
    · cases h.symm.trans hrow

theorem Origin.founded (h : Origin o ok w w' key start) (hnone : (w'.shared.cells key).committed = none) :
    Founded o ok w w' key start := by
  obtain ⟨v, s, hreads⟩ := h
  exact ⟨v, s, hreads, Program.Run.absent hreads.after hnone⟩

/-- What is being created, and what was created in the run, begins where it was read to. -/
structure Originates (o : PgOutbox) (ok : World → Nat → Act → Prop) (w w' : World) : Prop where
  entries : ∀ s selection entries, (w'.procs s).ensuring = some (selection, .insert entries) →
    ∀ entry ∈ entries, Origin o ok w w' (.of selection entry.1) entry.2
  anew : ∀ key p, (w'.shared.cells key).anew = some p →
    ∃ start, p = ⟨start, none⟩ ∧ Founded o ok w w' key start
  began : ∀ key row, (w.shared.cells key).committed = none →
    (w'.shared.cells key).committed = some row →
      ∃ start, (w'.shared.cells key).began = ⟨start, none⟩ ∧ Founded o ok w w' key start

theorem Resting.originates (h : Resting w) : Originates o ok w w where
  entries s selection entries hp := by
    rcases h.procs s with ⟨hproc, _⟩ | ⟨hproc, _⟩ <;> rw [hproc] at hp <;> cases hp
  anew key p hp := by
    rw [(h.cells key).unlocked.2.2] at hp
    cases hp
  began key row hnone hrow := by
    rw [hnone] at hrow
    cases hrow

theorem Originates.step {w'' : World} {i : Nat} {a : Act} (h : Originates o ok w w')
    (hd : Consistent o fair w'.shared) (hrun : o.program.Run ok w w') (hmoves : ¬(w'.procs i).Moves)
    (hok : ok w' i a) (hact : o.program.act w' i a = some w'') : Originates o ok w w'' := by
  obtain ⟨d, p, hcases, rfl⟩ := (o.program.act_eq_some).mp hact
  have hstep : Step o i w'.shared (w'.procs i) a d p := PgOutbox.step_cases hcases
  have hbegins : ∀ key, Cell.Begins (w'.procs i) key (w'.shared.cells key) (d.cells key) := fun key =>
    hstep.effect.begins hmoves
  have hmono : ∀ {key start}, Origin o ok w w' key start →
      Origin o ok w ⟨d, Function.update w'.procs i p⟩ key start :=
    fun ⟨v, s, hreads⟩ => ⟨v, s, hreads.step hok hact⟩
  have hfounded : ∀ {key start}, Founded o ok w w' key start →
      Founded o ok w ⟨d, Function.update w'.procs i p⟩ key start :=
    fun ⟨v, s, hreads, hnone⟩ => ⟨v, s, hreads.step hok hact, hnone⟩
  have hanew : ∀ key p', (w'.shared.cells key).anew = some p' → ∃ start, p' = ⟨start, none⟩ ∧
      Founded o ok w ⟨d, Function.update w'.procs i p⟩ key start := by
    intro key p' hp'
    obtain ⟨start, hstart, horigin⟩ := h.anew key p' hp'
    exact ⟨start, hstart, hfounded horigin⟩
  constructor
  · intro s selection entries hp entry hentry
    by_cases hs : s = i
    · subst hs
      simp only [Function.update_self] at hp
      rcases hstep.inserts hp with ⟨entries', hsuffix, hp'⟩ | ⟨hread, hstart⟩
      · exact hmono (h.entries s selection entries' hp' entry (hsuffix.subset hentry))
      · refine ⟨w', s, a, _, selection, entry.1, entries, ⟨hrun, hok, hact, .refl _⟩, hread, ?_, hentry, rfl,
          hstart entry hentry⟩
        simpa using hp
    · simp only [Function.update_of_ne hs] at hp
      exact hmono (h.entries s selection entries hp entry hentry)
  · intro key p' hp'
    rcases (hbegins key).anew with hnone | hsame | ⟨selection, slot, start, rest, hensuring, rfl, habsent, hcreated⟩
    · cases hnone.symm.trans hp'
    · exact hanew key p' (hsame ▸ hp')
    · rw [hcreated, Option.some.injEq] at hp'
      have horigin := h.entries i selection _ hensuring (slot, start) List.mem_cons_self
      exact ⟨start, hp'.symm, hfounded (horigin.founded habsent)⟩
  · intro key row hnone hrow
    rcases (hbegins key).began with ⟨hsame, hbegan⟩ | ⟨row', hpending, _, hbegan⟩
    · obtain ⟨start, hstart, horigin⟩ := h.began key row hnone (hsame ▸ hrow)
      exact ⟨start, hbegan.trans hstart, hfounded horigin⟩
    · rw [hbegan, Cell.beganNext]
      cases hcase : (w'.shared.cells key).anew with
      | some p' => exact hanew key p' hcase
      | none =>
        obtain ⟨before, hbefore, _⟩ := (hd.cells key).grown row' hpending hcase
        obtain ⟨start, hstart, horigin⟩ := h.began key before hnone hbefore
        exact ⟨start, hstart, hfounded horigin⟩

end Origin

section Own

def Process.Produces : Process → Prop
  | .producer _ _ => True
  | _ => False

theorem Step.produces {p next : Process} {a : Act} (h : Step o s d p a d' next) (hidle : p ≠ .idle)
    (hp : ¬p.Produces) : ¬next.Produces := by
  cases h with
  | start => exact absurd rfl hidle
  | assign => exact hp
  | produce => exact absurd trivial hp
  | commit h =>
    unfold PgOutbox.commit at h
    split at h <;> cases h <;> exact id
  | _ => exact id

theorem Effect.written {p : Process} {a : Act} (h : Effect o s d p a d') {r : Row} (hr : r ∈ d'.written) :
    r ∈ d.written ∨ d.transactions.own s = some r.transactionId ∧
      ∃ landings message createdAt, p = .producer landings (.inserting message createdAt r.position) := by
  cases h with
  | draw hdraw =>
    obtain ⟨_, rfl⟩ := Database.draw_eq hdraw
    exact Or.inl hr
  | insert hinsert =>
    obtain ⟨_, hown, _, rfl⟩ := Database.insert_eq hinsert
    rcases List.mem_append.mp hr with hr | hr
    · exact Or.inl hr
    · rw [List.mem_singleton.mp hr]
      exact Or.inr ⟨hown, _, _, _, rfl⟩
  | lock hlock =>
    rw [Database.lockCell_eq hlock] at hr
    exact Or.inl hr
  | lockRefuse hlock =>
    rw [Database.lockCell_eq hlock] at hr
    exact Or.inl hr
  | create _ hcreate =>
    rcases Database.createCell_eq hcreate with rfl | ⟨_, _, rfl⟩ <;> exact Or.inl hr
  | advance hadvance =>
    rw [PgOutbox.advance_eq hadvance] at hr
    exact Or.inl hr
  | _ => exact Or.inl hr

/-- An id that only a session producing nothing may own has no row. -/
structure Barren (x : Nat) (w : World) : Prop where
  rows : ∀ r ∈ w.shared.written, r.transactionId ≠ x
  drawn : x < w.shared.transactions.next
  owner : ∀ s, w.shared.transactions.own s = some x → ¬(w.procs s).Produces

theorem Barren.step {x i : Nat} {a : Act} {p : Process} (h : Barren x w) (hinv : Invariant o fair w)
    (hstep : Step o i w.shared (w.procs i) a d p) : Barren x ⟨d, Function.update w.procs i p⟩ := by
  obtain ⟨⟨_, hguarantee⟩, _⟩ := hinv.consistent.step (hinv.ok i) hstep
  have hadvances := hguarantee.transactions
  constructor
  · intro r hr heq
    rcases hstep.effect.written hr with hr | ⟨hown, _, _, _, hp⟩
    · exact h.rows r hr heq
    · exact h.owner i (heq ▸ hown) (hp ▸ trivial)
  · exact Nat.lt_of_lt_of_le h.drawn hadvances.next
  · intro s hown
    by_cases hs : s = i
    · subst hs
      simp only [Function.update_self]
      rcases hadvances.drawn x hown with hown | hnext
      · apply hstep.produces _ (h.owner s hown)
        intro hidle
        have hok := hinv.ok s
        rw [hidle] at hok
        cases hown.symm.trans hok.own
      · exact absurd h.drawn (by omega)
    · simp only [Function.update_of_ne hs]
      exact h.owner s ((hadvances.own s hs).symm.trans hown)

end Own

end AsceticDdd.Outbox
