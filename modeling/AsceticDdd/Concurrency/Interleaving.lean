import Mathlib.Logic.Function.Basic

/-!
# Interleaved processes over a shared state

Each process has a state of its own and one partial step on the shared state. A run
interleaves their steps in any order. The rule for invariants splits the work as rely and
guarantee do: what one step establishes, and what the steps of the others cannot undo.
-/

namespace AsceticDdd.Interleaving

universe u v w x

variable {σ : Type u} {ι : Type v} {π : Type w} {α : Type x}

/-- A step of process `i` in local state `p` taking action `a`: none when it is not possible. -/
structure Program (σ : Type u) (ι : Type v) (π : Type w) (α : Type x) where
  step : σ → ι → π → α → Option (σ × π)

structure World (σ : Type u) (ι : Type v) (π : Type w) where
  shared : σ
  procs : ι → π

variable [DecidableEq ι] (P : Program σ ι π α)

def Program.act (w : World σ ι π) (i : ι) (a : α) : Option (World σ ι π) :=
  (P.step w.shared i (w.procs i) a).map fun r => ⟨r.1, Function.update w.procs i r.2⟩

theorem Program.act_eq_some {w w' : World σ ι π} {i : ι} {a : α} :
    P.act w i a = some w' ↔
      ∃ d p, P.step w.shared i (w.procs i) a = some (d, p) ∧
        w' = ⟨d, Function.update w.procs i p⟩ := by
  simp only [Program.act, Option.map_eq_some_iff, Prod.exists]
  constructor
  · rintro ⟨d, p, h, rfl⟩
    exact ⟨d, p, h, rfl⟩
  · rintro ⟨d, p, h, rfl⟩
    exact ⟨d, p, h, rfl⟩

/-- The runs whose every step `ok` allows, seen from the world it is taken in. -/
inductive Program.Run (ok : World σ ι π → ι → α → Prop) : World σ ι π → World σ ι π → Prop
  | refl (w : World σ ι π) : Run ok w w
  | step {w w' w'' : World σ ι π} {i : ι} {a : α} :
      Run ok w w' → ok w' i a → P.act w' i a = some w'' → Run ok w w''

variable {P} {ok : World σ ι π → ι → α → Prop}

theorem Program.Run.trans {w w' w'' : World σ ι π} (h : P.Run ok w w') (h' : P.Run ok w' w'') :
    P.Run ok w w'' := by
  induction h' with
  | refl => exact h
  | step _ hok hact ih => exact ih.step hok hact

theorem Program.Run.mono {ok' : World σ ι π → ι → α → Prop} {w w' : World σ ι π}
    (h : P.Run ok w w') (hok : ∀ v i a, ok v i a → ok' v i a) : P.Run ok' w w' := by
  induction h with
  | refl => exact .refl _
  | step _ h' hact ih => exact ih.step (hok _ _ _ h') hact

theorem Program.Run.invariant {I : World σ ι π → Prop} {w w' : World σ ι π}
    (hstep : ∀ v i a v', I v → ok v i a → P.act v i a = some v' → I v')
    (h : P.Run ok w w') (h0 : I w) : I w' := by
  induction h with
  | refl => exact h0
  | step _ hok hact ih => exact hstep _ _ _ _ ih hok hact

/-- What an invariant of the run says, its steps may be taken to meet. -/
theorem Program.Run.and_invariant {I : World σ ι π → Prop} {w w' : World σ ι π}
    (hstep : ∀ v i a v', I v → ok v i a → P.act v i a = some v' → I v')
    (h : P.Run ok w w') (h0 : I w) : P.Run (fun v i a => ok v i a ∧ I v) w w' ∧ I w' := by
  induction h with
  | refl => exact ⟨.refl _, h0⟩
  | step _ hok hact ih => exact ⟨ih.1.step ⟨hok, ih.2⟩ hact, hstep _ _ _ _ ih.2 hok hact⟩

/-- A run from `w` to `w'` that takes the step `a` of process `i` in the world `v`, to `v'`. -/
structure Program.Takes (P : Program σ ι π α) (ok : World σ ι π → ι → α → Prop) (w w' v v' : World σ ι π) (i : ι)
    (a : α) : Prop where
  before : P.Run ok w v
  allowed : ok v i a
  act : P.act v i a = some v'
  after : P.Run ok v' w'

theorem Program.Takes.step {w w' w'' v v' : World σ ι π} {i j : ι} {a b : α} (h : P.Takes ok w w' v v' i a)
    (hok : ok w' j b) (hact : P.act w' j b = some w'') : P.Takes ok w w'' v v' i a :=
  { h with after := h.after.step hok hact }

theorem Program.Takes.run {w w' v v' : World σ ι π} {i : ι} {a : α} (h : P.Takes ok w w' v v' i a) :
    P.Run ok v w' :=
  ((Program.Run.refl v).step h.allowed h.act).trans h.after

/-- A step keeps the shared invariant and its own process's assertion, and changes the shared
state no more than it guarantees; no guarantee of another process undoes an assertion. -/
structure RelyGuarantee (P : Program σ ι π α) (ok : World σ ι π → ι → α → Prop)
    (known : World σ ι π → Prop) (shared : σ → Prop) (own : σ → ι → π → Prop)
    (guar : World σ ι π → ι → σ → Prop) : Prop where
  step : ∀ w i a d p, known w → shared w.shared → own w.shared i (w.procs i) → ok w i a →
    P.step w.shared i (w.procs i) a = some (d, p) →
    shared d ∧ own d i p ∧ guar w i d
  stable : ∀ w i j d, known w → i ≠ j → shared w.shared → guar w i d →
    own w.shared j (w.procs j) → own d j (w.procs j)

theorem RelyGuarantee.act {known : World σ ι π → Prop} {shared : σ → Prop}
    {own : σ → ι → π → Prop} {guar : World σ ι π → ι → σ → Prop}
    (h : RelyGuarantee P ok known shared own guar) {w w' : World σ ι π} {i : ι} {a : α}
    (hknown : known w) (hshared : shared w.shared) (hown : ∀ j, own w.shared j (w.procs j))
    (hok : ok w i a) (hact : P.act w i a = some w') :
    shared w'.shared ∧ ∀ j, own w'.shared j (w'.procs j) := by
  obtain ⟨d, p, hstep, rfl⟩ := (P.act_eq_some).mp hact
  obtain ⟨hshared', hown', hguar⟩ := h.step w i a d p hknown hshared (hown i) hok hstep
  refine ⟨hshared', fun j => ?_⟩
  by_cases hj : j = i
  · subst hj
    simpa using hown'
  · simp only [Function.update_of_ne hj]
    exact h.stable w i j d hknown (Ne.symm hj) hshared hguar (hown j)

theorem RelyGuarantee.run {known : World σ ι π → Prop} {shared : σ → Prop}
    {own : σ → ι → π → Prop} {guar : World σ ι π → ι → σ → Prop}
    (h : RelyGuarantee P ok known shared own guar) {w w' : World σ ι π}
    (hknown : ∀ v, P.Run ok w v → known v)
    (hshared : shared w.shared) (hown : ∀ j, own w.shared j (w.procs j))
    (hrun : P.Run ok w w') :
    shared w'.shared ∧ ∀ j, own w'.shared j (w'.procs j) := by
  induction hrun with
  | refl => exact ⟨hshared, hown⟩
  | step hprev hok hact ih => exact h.act (hknown _ hprev) ih.1 ih.2 hok hact

/-- The run of a list of steps that pass a check, for concrete ones. -/
def Program.execIf (P : Program σ ι π α) (check : World σ ι π → ι → α → Bool) :
    World σ ι π → List (ι × α) → Option (World σ ι π)
  | w, [] => some w
  | w, (i, a) :: rest =>
    if check w i a then (P.act w i a).bind fun w' => P.execIf check w' rest else none

theorem Program.Run.of_execIf {check : World σ ι π → ι → α → Bool} {acts : List (ι × α)}
    {w w' : World σ ι π} (hok : ∀ v, ∀ s ∈ acts, check v s.1 s.2 → ok v s.1 s.2)
    (h : P.execIf check w acts = some w') : P.Run ok w w' := by
  induction acts generalizing w with
  | nil =>
    cases h
    exact .refl _
  | cons s rest ih =>
    simp only [Program.execIf, Option.ite_none_right_eq_some] at h
    obtain ⟨hcheck, h⟩ := h
    obtain ⟨v, hact, hrest⟩ := Option.bind_eq_some_iff.mp h
    have hfirst : P.Run ok w v :=
      (Program.Run.refl w).step (hok w s List.mem_cons_self hcheck) hact
    exact hfirst.trans (ih (fun u s' hs => hok u s' (List.mem_cons_of_mem _ hs)) hrest)

def Program.exec (P : Program σ ι π α) : World σ ι π → List (ι × α) → Option (World σ ι π) :=
  P.execIf fun _ _ _ => true

theorem Program.Run.of_exec {acts : List (ι × α)} {w w' : World σ ι π}
    (hok : ∀ v, ∀ s ∈ acts, ok v s.1 s.2) (h : P.exec w acts = some w') : P.Run ok w w' :=
  Program.Run.of_execIf (fun v s hs _ => hok v s hs) h

/-- The world a list of steps leads to. -/
def Program.after (P : Program σ ι π α) (w : World σ ι π) (acts : List (ι × α))
    (h : (P.exec w acts).isSome) : World σ ι π :=
  (P.exec w acts).get h

theorem Program.Run.after {w : World σ ι π} {acts : List (ι × α)} {h : (P.exec w acts).isSome}
    (hok : ∀ v, ∀ s ∈ acts, ok v s.1 s.2) : P.Run ok w (P.after w acts h) :=
  Program.Run.of_exec hok (Option.some_get h).symm

theorem Program.exec_of_execIf {check : World σ ι π → ι → α → Bool} {acts : List (ι × α)} {w w' : World σ ι π}
    (h : P.execIf check w acts = some w') : P.exec w acts = some w' := by
  induction acts generalizing w with
  | nil => exact h
  | cons s rest ih =>
    simp only [Program.execIf, Option.ite_none_right_eq_some] at h
    obtain ⟨v, hact, hrest⟩ := Option.bind_eq_some_iff.mp h.2
    have := ih hrest
    simpa [Program.exec, Program.execIf, hact] using this

theorem Program.Run.checked (check : World σ ι π → ι → α → Bool) {w : World σ ι π} {acts : List (ι × α)}
    {h : (P.exec w acts).isSome} (hchecked : (P.execIf check w acts).isSome)
    (hok : ∀ v, ∀ s ∈ acts, check v s.1 s.2 → ok v s.1 s.2) : P.Run ok w (P.after w acts h) := by
  obtain ⟨w', hw'⟩ := Option.isSome_iff_exists.mp hchecked
  have hafter : P.after w acts h = w' := Option.get_of_eq_some h (Program.exec_of_execIf hw')
  rw [hafter]
  exact Program.Run.of_execIf hok hw'

/-- What some processes do leaves the others as they were. -/
theorem Program.Run.among (on : ι → Prop) {w w' : World σ ι π}
    (h : P.Run ok w w') (hon : ∀ v i a, ok v i a → on i) :
    P.Run (fun v j a => ok v j a ∧ ∀ k, ¬on k → v.procs k = w.procs k) w w' := by
  refine (h.and_invariant (I := fun v => ∀ k, ¬on k → v.procs k = w.procs k) ?_ fun _ _ => rfl).1
  intro v j a v' hsame hj hact k hk
  obtain ⟨d, p, _, rfl⟩ := (P.act_eq_some).mp hact
  have hne : k ≠ j := fun same => hk (same ▸ hon v j a hj)
  exact (Function.update_of_ne hne ..).trans (hsame k hk)

end AsceticDdd.Interleaving
