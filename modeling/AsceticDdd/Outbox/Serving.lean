import AsceticDdd.Outbox.Reachable

/-!
# Runs of producers, dispatchers and reclamation passes

Where nobody moves a position, and nobody makes the ring, no step undoes what a session knows:
the invariant holds of every such run.
-/

namespace AsceticDdd.Outbox

open Postgres Interleaving

variable {o : PgOutbox} {fair : Nat → Prop} {d d' : Database} {s : Nat} {w w' : World}

/-- A session in a call of `set_position`. -/
def Process.Moves : Process → Prop
  | .producer _ (.moving _ _) => True
  | _ => False

/-- A session making the ring. -/
def Process.MakesRing : Process → Prop
  | .migrator _ => True
  | _ => False

/-- A step that begins a call of `set_position`. -/
def Act.Moves : Act → Prop
  | .setPosition _ _ => True
  | _ => False

/-- A step of a producer, a dispatcher or a reclamation pass. -/
def Act.Serves (a : Act) : Prop := ¬a.Moves ∧ a ≠ .migrate

theorem Step.moves {p next : Process} {a : Act} (h : Step o s d p a d' next) (ha : ¬a.Moves)
    (hp : ¬p.Moves) : ¬next.Moves := by
  cases h with
  | start h =>
    unfold PgOutbox.start at h
    split at h
    case h_6 =>
      obtain ⟨t, _, heq⟩ := Option.map_eq_some_iff.mp h
      cases heq
      exact id
    all_goals cases h <;> exact id
  | assign => exact hp
  | release => exact id
  | rollback => exact id
  | produce h =>
    unfold PgOutbox.produce at h
    split at h
    case h_3 => exact absurd trivial ha
    case h_4 => exact absurd trivial hp
    case h_5 => exact absurd trivial hp
    case h_6 =>
      cases h
      exact id
    case h_7 =>
      split at h
      · obtain ⟨t, _, heq⟩ := Option.map_eq_some_iff.mp h
        cases heq
        exact id
      · cases h
    case h_9 => cases h
    all_goals
      obtain ⟨r, _, heq⟩ := Option.map_eq_some_iff.mp h
      cases heq
      exact id
  | take => exact id
  | dispatch => exact id
  | stop => exact id
  | pass => exact id
  | migrate => exact id
  | commit h =>
    unfold PgOutbox.commit at h
    split at h <;> cases h <;> exact id

theorem Step.makesRing {p next : Process} {a : Act} (h : Step o s d p a d' next) (ha : a ≠ .migrate)
    (hp : ¬p.MakesRing) : ¬next.MakesRing := by
  cases h with
  | start h =>
    unfold PgOutbox.start at h
    split at h
    case h_5 => exact absurd rfl ha
    case h_6 =>
      obtain ⟨t, _, heq⟩ := Option.map_eq_some_iff.mp h
      cases heq
      exact id
    all_goals cases h <;> exact id
  | assign => exact hp
  | release => exact id
  | rollback => exact id
  | produce h =>
    unfold PgOutbox.produce at h
    split at h
    case h_3 =>
      cases h
      exact id
    case h_6 =>
      cases h
      exact id
    case h_7 =>
      split at h
      · obtain ⟨t, _, heq⟩ := Option.map_eq_some_iff.mp h
        cases heq
        exact id
      · cases h
    case h_9 => cases h
    all_goals
      obtain ⟨r, _, heq⟩ := Option.map_eq_some_iff.mp h
      cases heq
      exact id
  | take => exact id
  | dispatch => exact id
  | stop => exact id
  | pass => exact id
  | migrate => exact absurd trivial hp
  | commit h =>
    unfold PgOutbox.commit at h
    split at h <;> cases h
    case h_6 => exact absurd trivial hp
    all_goals exact id

/-- The steps a run takes may be taken to meet what holds of every session in it. -/
theorem Program.Run.sessions {ok : World → Nat → Act → Prop} {I : Process → Prop}
    (hstep : ∀ v i a d p, ok v i a → I (v.procs i) → Step o i v.shared (v.procs i) a d p → I p)
    (h0 : ∀ s, I (w.procs s)) (hrun : o.program.Run ok w w') :
    o.program.Run (fun v i a => ok v i a ∧ ∀ s, I (v.procs s)) w w' ∧ ∀ s, I (w'.procs s) := by
  refine hrun.and_invariant (fun v i a v' hI hok hact j => ?_) h0
  obtain ⟨d, p, hcases, rfl⟩ := (o.program.act_eq_some).mp hact
  by_cases hj : j = i
  · rw [hj]
    simpa using hstep v i a d p hok (hI i) (PgOutbox.step_cases hcases)
  · simpa [Function.update_of_ne hj] using hI j

theorem raisesNone_of_moves {i : Nat} {a : Act} (h : ∀ s, ¬(w.procs s).Moves) : RaisesNone w i a := by
  intro _ _ _ j landings selection kept move read hj
  have := h j
  rw [hj] at this
  exact absurd trivial this

theorem Resting.not_moves (h : Resting w) (s : Nat) : ¬(w.procs s).Moves := by
  rcases h.procs s with ⟨hp, _⟩ | ⟨hp, _⟩ <;> rw [hp] <;> exact id

theorem Resting.not_makesRing (h : Resting w) (s : Nat) : ¬(w.procs s).MakesRing := by
  rcases h.procs s with ⟨hp, _⟩ | ⟨hp, _⟩ <;> rw [hp] <;> exact id

/-- Producers, dispatchers and reclamation passes begin no other session. -/
theorem Program.Run.serving {ok : World → Nat → Act → Prop}
    (h : ∀ s, ¬(w.procs s).Moves ∧ ¬(w.procs s).MakesRing) (hok : ∀ v i a, ok v i a → a.Serves)
    (hrun : o.program.Run ok w w') :
    o.program.Run (fun v i a => ok v i a ∧ ∀ s, ¬(v.procs s).Moves ∧ ¬(v.procs s).MakesRing) w w' ∧
      ∀ s, ¬(w'.procs s).Moves ∧ ¬(w'.procs s).MakesRing :=
  Program.Run.sessions (I := fun p => ¬p.Moves ∧ ¬p.MakesRing) (fun v i a _ _ ha hp hstep =>
    ⟨hstep.moves (hok v i a ha).1 hp.1, hstep.makesRing (hok v i a ha).2 hp.2⟩) h hrun

theorem Resting.serving (h : Resting w) {ok : World → Nat → Act → Prop}
    (hok : ∀ v i a, ok v i a → a.Serves) (hrun : o.program.Run ok w w') :
    o.program.Run (fun v i a => ok v i a ∧ ∀ s, ¬(v.procs s).Moves ∧ ¬(v.procs s).MakesRing) w w' ∧
      ∀ s, ¬(w'.procs s).Moves ∧ ¬(w'.procs s).MakesRing :=
  Program.Run.serving (fun s => ⟨h.not_moves s, h.not_makesRing s⟩) hok hrun

theorem commitsAbove_of_makesRing {i : Nat} {a : Act} (h : ∀ s, ¬(w.procs s).MakesRing) :
    CommitsAbove fair w i a := by
  intro x _ _ j next bound rows hj
  have hnone := h j
  rcases hj with hj | hj <;> rw [hj] at hnone <;> exact absurd trivial hnone

theorem allows_of_serving {i : Nat} {a : Act}
    (h : ∀ s, ¬(w.procs s).Moves ∧ ¬(w.procs s).MakesRing) : Allows fair w i a :=
  ⟨raisesNone_of_moves fun s => (h s).1, commitsAbove_of_makesRing fun s => (h s).2⟩

end AsceticDdd.Outbox
