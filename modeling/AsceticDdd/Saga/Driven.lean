import AsceticDdd.Saga.Recovery

/-!
# Whoever drives a slip

A Parallel and a Fallback drive the slips they are given by loops of their own, and so do their
compensations. The hosts send a slip forward again when a compensation answers that it added work;
the loops do not look at that answer. The hosts report nothing: they send the slip on or they do
not.
-/

namespace AsceticDdd.Saga

variable {T A R : Type}

/-- Where a loop over a slip stands: on its way, or over. -/
inductive Turn
  | forward
  | backward
  | completed
  | undone
  | stopped (error : SagaError)
deriving DecidableEq

structure Drive (T A R : Type) where
  turn : Turn
  journey : Journey T A R

namespace Drive

section

variable (create : T → Activity T A R)

/-- `process_next` while the slip is not completed. -/
def advance (j : Journey T A R) : Drive T A R :=
  if j.slip.isCompleted then ⟨.completed, j⟩
  else
    match j.processNext create with
    | (.ok true, j') => ⟨.forward, j'⟩
    | (.ok false, j') => ⟨.backward, j'⟩
    | (.error error, j') => ⟨.stopped error, j'⟩

/-- `undo_last` while the slip is in progress; whether the compensation goes on is not looked at. -/
def unwind (failed : SagaError → Turn) (j : Journey T A R) : Drive T A R :=
  if j.slip.isInProgress then
    match j.undoLast create with
    | (.ok _, j') => ⟨.backward, j'⟩
    | (.error error, j') => ⟨failed error, j'⟩
  else ⟨.undone, j⟩

def execute (d : Drive T A R) : Drive T A R :=
  match d.turn with
  | .forward => advance create d.journey
  | .backward => unwind create .stopped d.journey
  | .completed | .undone | .stopped _ => d

def compensate (failed : SagaError → Turn) (d : Drive T A R) : Drive T A R :=
  match d.turn with
  | .backward => unwind create failed d.journey
  | .forward | .completed | .undone | .stopped _ => d

/-- A Parallel's branch. -/
def executeBranch : Drive T A R → Drive T A R := execute create

/-- A Fallback's alternative. -/
def executeAlternative : Drive T A R → Drive T A R := execute create

/-- The compensation of a Parallel's branch breaks off at an error, and says nothing of it. -/
def compensateBranch : Drive T A R → Drive T A R := compensate create fun _ => .undone

/-- The compensation of the alternative that succeeded. -/
def compensateSucceeded : Drive T A R → Drive T A R := compensate create .stopped

end

end Drive

/-- The items whose work was begun, in order. -/
def works (past : List (Event (WorkItem T A) (WorkLog T R))) : List (WorkItem T A) :=
  past.filterMap fun
    | .worked item => some item
    | .compensated _ => none

/-- Undoing the last log of the one journey leads to the other: its compensation added the items, at
either end of the slip's, and answered that the forward path should resume. -/
structure AddsWork (create : T → Activity T A R) (j : Journey T A R) (added : List (WorkItem T A))
    (j' : Journey T A R) : Prop where
  answer : j.undoLast create = (.ok false, j')
  nonempty : added ≠ []
  pending : ∃ front back, added = front ++ back ∧
    j'.slip.nextWorkItems = front ++ j.slip.nextWorkItems ++ back

/-- Whenever a compensation adds work, the first pending item is worked next; and the slip is
reported undone only when it has no completed logs and every item so added was begun. -/
structure Resumes {σ : Type} (create : T → Activity T A R) (step : σ → σ) (journey : σ → Journey T A R)
    (undone : σ → Prop) (start : σ) : Prop where
  resumes : ∀ n added, AddsWork create (journey (step^[n] start)) added (journey (step^[n + 1] start)) →
    ∃ m item rest, (journey (step^[n + 1] start)).slip.nextWorkItems = item :: rest ∧
      (journey (step^[m] start)).past = (journey (step^[n + 1] start)).past ++ [.worked item]
  undone : ∀ n, undone (step^[n] start) → (journey (step^[n] start)).slip.completedWorkLogs = [] ∧
    ∀ k added, k < n → AddsWork create (journey (step^[k] start)) added (journey (step^[k + 1] start)) →
      ∃ later, (journey (step^[n] start)).past = (journey (step^[k + 1] start)).past ++ later ∧
        added.Sublist (works later)

/-- No compensation of the run adds work. -/
def NoneAdds {σ : Type} (create : T → Activity T A R) (step : σ → σ) (journey : σ → Journey T A R)
    (start : σ) : Prop :=
  ∀ n added, ¬ AddsWork create (journey (step^[n] start)) added (journey (step^[n + 1] start))

variable {create : T → Activity T A R} {j j' : Journey T A R} {added : List (WorkItem T A)}

namespace Journey

theorem past_processNext (create : T → Activity T A R) (item : WorkItem T A) (rest : List (WorkItem T A))
    (h : j.slip.nextWorkItems = item :: rest) :
    (j.processNext create).2.past = j.past ++ [.worked item] := by
  simp only [processNext, h]
  split <;> rfl

theorem past_undoLast (create : T → Activity T A R) (hlogs : j.slip.completedWorkLogs ≠ []) :
    ∃ log, (j.undoLast create).2.past = j.past ++ [.compensated log] := by
  cases hlast : j.slip.completedWorkLogs.getLast? with
  | none => exact absurd (List.getLast?_eq_none_iff.mp hlast) hlogs
  | some log =>
    simp only [undoLast, hlast]
    exact ⟨log, rfl⟩

end Journey

namespace AddsWork

theorem logs_ne_nil (h : AddsWork create j added j') : j.slip.completedWorkLogs ≠ [] := by
  intro hnil
  have hanswer := h.answer
  simp only [Journey.undoLast, hnil, List.getLast?_nil] at hanswer
  cases hanswer

theorem past_eq (h : AddsWork create j added j') : ∃ log, j'.past = j.past ++ [.compensated log] := by
  obtain ⟨log, hpast⟩ := Journey.past_undoLast create h.logs_ne_nil
  rw [h.answer] at hpast
  exact ⟨log, hpast⟩

theorem pending_eq_cons (h : AddsWork create j added j') :
    ∃ item rest, j'.slip.nextWorkItems = item :: rest := by
  obtain ⟨front, back, hadded, hpending⟩ := h.pending
  apply List.exists_cons_of_ne_nil
  intro hnil
  rw [hpending, List.append_eq_nil_iff, List.append_eq_nil_iff] at hnil
  obtain ⟨⟨rfl, -⟩, rfl⟩ := hnil
  exact h.nonempty hadded

end AddsWork

section

variable {log : WorkLog T R} {past past' : List (Event (WorkItem T A) (WorkLog T R))}

theorem past_ne_self {event : Event (WorkItem T A) (WorkLog T R)} : past ≠ past ++ [event] := by
  intro h
  have hlength := congrArg List.length h
  rw [List.length_append, List.length_singleton] at hlength
  omega

theorem past_ne_worked {item : WorkItem T A} : past ++ [.worked item] ≠ past ++ [.compensated log] := by
  intro h
  obtain ⟨⟨⟩⟩ := List.append_cancel_left h

end

namespace ActivityHost

/-- A forward message has the first pending item worked, if there is one. -/
theorem past_processForwardMessage {item : WorkItem T A} {rest : List (WorkItem T A)}
    (h : j.slip.nextWorkItems = item :: rest) :
    (processForwardMessage create j).2.past = j.past ++ [.worked item] := by
  have hpending : j.slip.isCompleted = false := by rw [RoutingSlip.isCompleted, h]; rfl
  rw [← Journey.past_processNext create item rest h]
  simp only [processForwardMessage, hpending, Bool.false_eq_true, if_false]
  split <;> simp_all

theorem processForwardMessage_of_completed (h : j.slip.nextWorkItems = []) :
    processForwardMessage create j = (.ok none, j) := by
  have hpending : j.slip.isCompleted = true := by rw [RoutingSlip.isCompleted, h]; rfl
  rw [processForwardMessage, if_pos hpending]

theorem processBackwardMessage_of_addsWork (h : AddsWork create j added j') :
    processBackwardMessage create j = (.ok (j'.progressUri create), j') := by
  have hlogs : j.slip.isInProgress = true := by
    simpa [RoutingSlip.isInProgress] using h.logs_ne_nil
  rw [processBackwardMessage, if_pos hlogs, h.answer]

end ActivityHost

namespace Exchange

variable {hosts : List (ActivityHost T)} {x : Exchange T A R}

theorem journey_sentOn (answer : Except SagaError (Option String) × Journey T A R) :
    (sentOn answer).journey = answer.2 := by
  rcases answer with ⟨_ | _, _⟩ <;> rfl

/-- A step gives the message to a host, or leaves the journey. -/
theorem step_eq (create : T → Activity T A R) (hosts : List (ActivityHost T)) (x : Exchange T A R) :
    (step create hosts x).journey = x.journey ∨
      ∃ host ∈ hosts, ∃ uri answer, host.acceptMessage create uri x.journey = some answer ∧
        step create hosts x = sentOn answer := by
  simp only [step]
  split
  · exact .inl rfl
  · rename_i uri _
    split
    · exact .inl rfl
    · rename_i sent j hfound
      obtain ⟨host, hmem, haccepts⟩ := List.exists_of_findSome?_eq_some hfound
      exact .inr ⟨host, hmem, uri, _, haccepts, rfl⟩
    · rename_i error j hfound
      obtain ⟨host, hmem, haccepts⟩ := List.exists_of_findSome?_eq_some hfound
      exact .inr ⟨host, hmem, uri, _, haccepts, rfl⟩

/-- When a compensation adds work, the slip is sent to the first pending item. -/
theorem step_of_addsWork (h : AddsWork create x.journey added (step create hosts x).journey) :
    step create hosts x =
      ⟨(step create hosts x).journey.progressUri create, (step create hosts x).journey, none⟩ := by
  obtain ⟨log, hpast⟩ := h.past_eq
  obtain hsame | ⟨host, -, uri, answer, haccepts, hstep⟩ := step_eq create hosts x
  · rw [hsame] at hpast
    exact absurd hpast past_ne_self
  · simp only [ActivityHost.acceptMessage] at haccepts
    split at haccepts
    · obtain rfl := Option.some.inj haccepts
      rw [ActivityHost.processBackwardMessage_of_addsWork h] at hstep
      exact hstep
    · split at haccepts
      · obtain rfl := Option.some.inj haccepts
        rw [hstep, journey_sentOn] at hpast
        cases hpending : x.journey.slip.nextWorkItems with
        | nil =>
          rw [ActivityHost.processForwardMessage_of_completed hpending] at hpast
          exact absurd hpast past_ne_self
        | cons item rest =>
          rw [ActivityHost.past_processForwardMessage hpending] at hpast
          exact absurd hpast past_ne_worked
      · cases haccepts

/-- The hosts resume the forward path. -/
theorem resumes (hd : ActivityHost.Distinct create hosts) (hall : ∀ t, ⟨t⟩ ∈ hosts)
    (start : Exchange T A R) :
    Resumes create (step create hosts) journey (fun _ => False) start := by
  refine ⟨fun n added h => ?_, fun n h => h.elim⟩
  rw [Function.iterate_succ_apply'] at h
  obtain ⟨item, rest, hpending⟩ := h.pending_eq_cons
  have hstep := step_of_addsWork h
  refine ⟨n + 2, item, rest, ?_, ?_⟩
  · rw [Function.iterate_succ_apply']
    exact hpending
  · rw [Function.iterate_succ_apply', Function.iterate_succ_apply', hstep]
    simp only [Journey.progressUri, hpending, List.head?_cons, Option.map_some]
    rw [step_work hd (hall item.activityType), journey_sentOn, ActivityHost.past_processForwardMessage hpending]

end Exchange

namespace Drive

/-- A loop over a slip that turns back at the first failure and then undoes what is completed. -/
structure Loops (create : T → Activity T A R) (failed : SagaError → Turn)
    (step : Drive T A R → Drive T A R) : Prop where
  forward : ∀ j, step ⟨.forward, j⟩ = advance create j ∨ step ⟨.forward, j⟩ = ⟨.forward, j⟩
  backward : ∀ j, step ⟨.backward, j⟩ = unwind create failed j
  settled : ∀ d, d.turn ≠ .forward → d.turn ≠ .backward → step d = d
  failed : ∀ error, failed error ≠ .forward

theorem loops_execute : Loops create .stopped (execute create) where
  forward _ := .inl rfl
  backward _ := rfl
  settled d hforward hbackward := by
    obtain ⟨turn, j⟩ := d
    cases turn <;> first | rfl | contradiction
  failed _ h := by cases h

theorem loops_compensate (failed : SagaError → Turn) (hfailed : ∀ error, failed error ≠ .forward) :
    Loops create failed (compensate create failed) where
  forward _ := .inr rfl
  backward _ := rfl
  settled d hforward hbackward := by
    obtain ⟨turn, j⟩ := d
    cases turn <;> first | rfl | contradiction
  failed := hfailed

variable {failed : SagaError → Turn} {step : Drive T A R → Drive T A R} {d start : Drive T A R}

theorem works_append (past later : List (Event (WorkItem T A) (WorkLog T R))) :
    works (past ++ later) = works past ++ works later :=
  List.filterMap_append

/-- Undoing begins a compensation, or nothing at all. -/
theorem past_unwind (create : T → Activity T A R) (failed : SagaError → Turn) (j : Journey T A R) :
    ∃ later, (unwind create failed j).journey.past = j.past ++ later ∧ works later = [] := by
  by_cases hlogs : j.slip.completedWorkLogs = []
  · refine ⟨[], ?_, rfl⟩
    simp [unwind, RoutingSlip.isInProgress, hlogs]
  · obtain ⟨log, hpast⟩ := Journey.past_undoLast create hlogs
    refine ⟨[.compensated log], ?_, rfl⟩
    rw [← hpast]
    simp only [unwind, RoutingSlip.isInProgress, List.isEmpty_eq_false_iff.mpr hlogs]
    simp only [Bool.not_false, if_true]
    split <;> simp_all

theorem turn_unwind (hfailed : ∀ error, failed error ≠ .forward) (j : Journey T A R) :
    (unwind create failed j).turn ≠ .forward := by
  simp only [unwind]
  split
  · split
    · exact fun h => by cases h
    · exact hfailed _
  · exact fun h => by cases h

theorem past_advance (create : T → Activity T A R) (j : Journey T A R) :
    (advance create j).journey = j ∨
      ∃ item, (advance create j).journey.past = j.past ++ [.worked item] := by
  cases hpending : j.slip.nextWorkItems with
  | nil =>
    left
    simp [advance, RoutingSlip.isCompleted, hpending]
  | cons item rest =>
    right
    refine ⟨item, ?_⟩
    rw [← Journey.past_processNext create item rest hpending]
    simp only [advance, RoutingSlip.isCompleted, hpending, List.isEmpty_cons, Bool.false_eq_true, if_false]
    split <;> simp_all

namespace Loops

theorem past_step (h : Loops create failed step) (d : Drive T A R) :
    ∃ later, (step d).journey.past = d.journey.past ++ later := by
  obtain ⟨turn, j⟩ := d
  cases turn with
  | forward =>
    obtain hstep | hstep := h.forward j
    · rw [hstep]
      obtain hsame | ⟨item, hpast⟩ := past_advance create j
      · exact ⟨[], by rw [hsame, List.append_nil]⟩
      · exact ⟨_, hpast⟩
    · exact ⟨[], by rw [hstep, List.append_nil]⟩
  | backward =>
    rw [h.backward j]
    obtain ⟨later, hpast, -⟩ := past_unwind create failed j
    exact ⟨later, hpast⟩
  | completed | undone | stopped =>
    rw [h.settled _ (fun h => by cases h) (fun h => by cases h)]
    exact ⟨[], (List.append_nil _).symm⟩

theorem past_iterate (h : Loops create failed step) (d : Drive T A R) (n : Nat) :
    ∃ later, (step^[n] d).journey.past = d.journey.past ++ later := by
  induction n with
  | zero => exact ⟨[], (List.append_nil _).symm⟩
  | succ n ih =>
    obtain ⟨later, hpast⟩ := ih
    obtain ⟨last, hlast⟩ := h.past_step (step^[n] d)
    rw [Function.iterate_succ_apply', hlast, hpast]
    exact ⟨later ++ last, List.append_assoc ..⟩

/-- Once a loop has turned back it begins no work any more. -/
theorem works_step (h : Loops create failed step) (hturn : d.turn ≠ .forward) :
    (step d).turn ≠ .forward ∧
      ∃ later, (step d).journey.past = d.journey.past ++ later ∧ works later = [] := by
  by_cases hback : d.turn = .backward
  · obtain ⟨turn, j⟩ := d
    obtain rfl : turn = .backward := hback
    rw [h.backward j]
    exact ⟨turn_unwind h.failed j, past_unwind create failed j⟩
  · rw [h.settled d hturn hback]
    exact ⟨hturn, [], (List.append_nil _).symm, rfl⟩

theorem works_iterate (h : Loops create failed step) (hturn : d.turn ≠ .forward) (n : Nat) :
    (step^[n] d).turn ≠ .forward ∧
      ∃ later, (step^[n] d).journey.past = d.journey.past ++ later ∧ works later = [] := by
  induction n with
  | zero => exact ⟨hturn, [], (List.append_nil _).symm, rfl⟩
  | succ n ih =>
    obtain ⟨hnot, later, hpast, hworks⟩ := ih
    obtain ⟨hnext, last, hlast, hnone⟩ := h.works_step hnot
    rw [Function.iterate_succ_apply']
    refine ⟨hnext, later ++ last, ?_, ?_⟩
    · rw [hlast, hpast, List.append_assoc]
    · rw [works_append, hworks, hnone]
      rfl

/-- A loop that undoes a log whose compensation adds work is on its way back, and stays on it. -/
theorem turn_of_addsWork (h : Loops create failed step)
    (hadds : AddsWork create d.journey added (step d).journey) : (step d).turn ≠ .forward := by
  obtain ⟨log, hpast⟩ := hadds.past_eq
  obtain ⟨turn, j⟩ := d
  cases turn with
  | forward =>
    obtain hstep | hstep := h.forward j
    · rw [hstep] at hpast
      obtain hsame | ⟨item, hworked⟩ := past_advance create j
      · rw [hsame] at hpast
        exact absurd hpast past_ne_self
      · rw [hworked] at hpast
        exact absurd hpast past_ne_worked
    · rw [hstep] at hpast
      exact absurd hpast past_ne_self
  | backward =>
    rw [h.backward j]
    exact turn_unwind h.failed j
  | completed | undone | stopped =>
    rw [h.settled _ (fun h => by cases h) (fun h => by cases h)] at hpast
    exact absurd hpast past_ne_self

/-- The item that should be worked next never is. -/
theorem not_resumed (h : Loops create failed step) {n : Nat}
    (hadds : AddsWork create (step^[n] start).journey added (step^[n + 1] start).journey)
    (m : Nat) (item : WorkItem T A) :
    (step^[m] start).journey.past ≠ (step^[n + 1] start).journey.past ++ [.worked item] := by
  intro hpast
  obtain hle | hle := Nat.le_total m (n + 1)
  · obtain ⟨k, hk⟩ := Nat.exists_eq_add_of_le hle
    obtain ⟨later, hlater⟩ := h.past_iterate (step^[m] start) k
    rw [← Function.iterate_add_apply, Nat.add_comm k m, ← hk] at hlater
    have hlength := congrArg List.length hlater
    rw [hpast, List.length_append, List.length_append, List.length_singleton] at hlength
    omega
  · obtain ⟨k, rfl⟩ := Nat.exists_eq_add_of_le hle
    have hback : (step^[n + 1] start).turn ≠ .forward := by
      rw [Function.iterate_succ_apply'] at hadds ⊢
      exact h.turn_of_addsWork hadds
    obtain ⟨-, later, hlater, hnone⟩ := h.works_iterate hback k
    rw [Nat.add_comm, Function.iterate_add_apply, hlater] at hpast
    rw [List.append_cancel_left hpast] at hnone
    cases hnone

/-- The loop resumes the forward path only where no compensation asks for it. -/
theorem resumes_iff_noneAdds (h : Loops create failed step) :
    Resumes create step journey (fun d => d.turn = .undone) start ↔
      NoneAdds create step journey start ∧
        ∀ n, (step^[n] start).turn = .undone → (step^[n] start).journey.slip.completedWorkLogs = [] := by
  constructor
  · intro hresumes
    refine ⟨fun n added hadds => ?_, fun n hn => (hresumes.undone n hn).1⟩
    obtain ⟨m, item, rest, -, hpast⟩ := hresumes.resumes n added hadds
    exact h.not_resumed hadds m item hpast
  · rintro ⟨hnone, hundone⟩
    refine ⟨fun n added hadds => absurd hadds (hnone n added), fun n hn => ⟨hundone n hn, ?_⟩⟩
    intro k added _ hadds
    exact absurd hadds (hnone k added)

end Loops

/-- Where a compensation on the way back answers an error, it is the last that is left. -/
def ErrorsLast (create : T → Activity T A R) (step : Drive T A R → Drive T A R) (start : Drive T A R) : Prop :=
  ∀ n error, (step^[n] start).turn = .backward →
    ((step^[n] start).journey.undoLast create).1 = .error error →
      ((step^[n] start).journey.undoLast create).2.slip.completedWorkLogs = []

theorem undone_unwind {error : SagaError} (hlogs : j.slip.completedWorkLogs ≠ [])
    (hanswer : (j.undoLast create).1 = .error error) :
    unwind create failed j = ⟨failed error, (j.undoLast create).2⟩ := by
  simp only [unwind, RoutingSlip.isInProgress, List.isEmpty_eq_false_iff.mpr hlogs]
  simp only [Bool.not_false, if_true]
  split <;> simp_all

/-- An undoing that reports the slip undone has no log left, or stopped at an error. -/
theorem logs_of_undone (h : (unwind create failed j).turn = .undone) :
    (unwind create failed j).journey.slip.completedWorkLogs = [] ∨
      ∃ error, (j.undoLast create).1 = .error error ∧ failed error = .undone ∧
        (unwind create failed j).journey = (j.undoLast create).2 := by
  by_cases hlogs : j.slip.completedWorkLogs = []
  · left
    simp [unwind, RoutingSlip.isInProgress, hlogs]
  · right
    cases hanswer : (j.undoLast create).1 with
    | error error =>
      rw [undone_unwind hlogs hanswer] at h
      exact ⟨error, rfl, h, by rw [undone_unwind hlogs hanswer]⟩
    | ok goesOn =>
      simp only [unwind, RoutingSlip.isInProgress, List.isEmpty_eq_false_iff.mpr hlogs] at h
      simp only [Bool.not_false, if_true] at h
      split at h <;> simp_all

namespace Loops

theorem logs_step (h : Loops create failed step)
    (hd : d.turn = .undone → d.journey.slip.completedWorkLogs = [])
    (hlast : ∀ error, d.turn = .backward → (d.journey.undoLast create).1 = .error error →
      failed error = .undone → (d.journey.undoLast create).2.slip.completedWorkLogs = [])
    (hturn : (step d).turn = .undone) : (step d).journey.slip.completedWorkLogs = [] := by
  obtain ⟨turn, j⟩ := d
  cases turn with
  | forward =>
    obtain hstep | hstep := h.forward j
    · rw [hstep, advance] at hturn
      split at hturn
      · cases hturn
      · split at hturn <;> cases hturn
    · rw [hstep] at hturn
      cases hturn
  | backward =>
    rw [h.backward j] at hturn ⊢
    obtain hlogs | ⟨error, hanswer, hfailed, hjourney⟩ := logs_of_undone hturn
    · exact hlogs
    · rw [hjourney]
      exact hlast error rfl hanswer hfailed
  | completed | undone | stopped =>
    rw [h.settled _ (fun h => by cases h) (fun h => by cases h)] at hturn ⊢
    exact hd hturn

/-- A slip is reported undone with nothing completed, as long as a compensation that answers an
error and is taken for the end is that of the last log. -/
theorem logs_of_turn (h : Loops create failed step) (hstart : start.turn ≠ .undone)
    (hlast : ∀ n error, (step^[n] start).turn = .backward →
      ((step^[n] start).journey.undoLast create).1 = .error error → failed error = .undone →
        ((step^[n] start).journey.undoLast create).2.slip.completedWorkLogs = []) :
    ∀ n, (step^[n] start).turn = .undone → (step^[n] start).journey.slip.completedWorkLogs = [] := by
  intro n
  induction n with
  | zero => exact fun hturn => absurd hturn hstart
  | succ n ih =>
    intro hturn
    rw [Function.iterate_succ_apply'] at hturn ⊢
    exact h.logs_step ih (hlast n) hturn

end Loops

theorem logs_of_stopped (h : Loops create .stopped step) (hstart : start.turn ≠ .undone) (n : Nat) :
    (step^[n] start).turn = .undone → (step^[n] start).journey.slip.completedWorkLogs = [] :=
  h.logs_of_turn hstart (fun _ _ _ _ hfailed => by cases hfailed) n

theorem errorsLast_iff {j : Journey T A R} :
    (∀ n, ((compensateBranch create)^[n] ⟨.backward, j⟩).turn = .undone →
      ((compensateBranch create)^[n] ⟨.backward, j⟩).journey.slip.completedWorkLogs = []) ↔
      ErrorsLast create (compensateBranch create) ⟨.backward, j⟩ := by
  have hloops : Loops create _ (compensateBranch create) :=
    loops_compensate (fun _ => .undone) fun _ h => by cases h
  constructor
  · intro hundone n error hturn hanswer
    have hnext := hundone (n + 1)
    rw [Function.iterate_succ_apply'] at hnext
    generalize (compensateBranch create)^[n] ⟨.backward, j⟩ = d at hturn hanswer hnext ⊢
    obtain ⟨turn, j⟩ := d
    obtain rfl : turn = .backward := hturn
    by_cases hlogs : j.slip.completedWorkLogs = []
    · simp [Journey.undoLast, hlogs]
    · rw [hloops.backward j, undone_unwind hlogs hanswer] at hnext
      exact hnext rfl
  · intro hlast
    exact hloops.logs_of_turn (by simp) fun n error hturn hanswer _ => hlast n error hturn hanswer

end Drive

/-- The hosts resume the forward path whenever a compensation adds work. The loops do only where
none does; and the compensation of a branch reports it undone with logs left where one answers an
error above them. -/
theorem resumes_iff (create : T → Activity T A R) :
    (∀ hosts, ActivityHost.Distinct create hosts → (∀ t, ⟨t⟩ ∈ hosts) → ∀ slip,
      Resumes create (Exchange.step create hosts) Exchange.journey (fun _ => False)
        (Exchange.start create slip)) ∧
    ∀ j, (Resumes create (Drive.executeBranch create) Drive.journey (fun d => d.turn = .undone) ⟨.forward, j⟩ ↔
        NoneAdds create (Drive.executeBranch create) Drive.journey ⟨.forward, j⟩) ∧
      (Resumes create (Drive.executeAlternative create) Drive.journey (fun d => d.turn = .undone) ⟨.forward, j⟩ ↔
        NoneAdds create (Drive.executeAlternative create) Drive.journey ⟨.forward, j⟩) ∧
      (Resumes create (Drive.compensateSucceeded create) Drive.journey (fun d => d.turn = .undone) ⟨.backward, j⟩ ↔
        NoneAdds create (Drive.compensateSucceeded create) Drive.journey ⟨.backward, j⟩) ∧
      (Resumes create (Drive.compensateBranch create) Drive.journey (fun d => d.turn = .undone) ⟨.backward, j⟩ ↔
        NoneAdds create (Drive.compensateBranch create) Drive.journey ⟨.backward, j⟩ ∧
          Drive.ErrorsLast create (Drive.compensateBranch create) ⟨.backward, j⟩) := by
  refine ⟨fun hosts hd hall slip => Exchange.resumes hd hall _, fun j => ?_⟩
  have hexecute : Drive.Loops create .stopped (Drive.execute create) := Drive.loops_execute
  have hsucceeded : Drive.Loops create .stopped (Drive.compensateSucceeded create) :=
    Drive.loops_compensate _ fun _ h => by cases h
  have hbranch : Drive.Loops create (fun _ => .undone) (Drive.compensateBranch create) :=
    Drive.loops_compensate _ fun _ h => by cases h
  refine ⟨?_, ?_, ?_, ?_⟩
  · rw [Drive.executeBranch, hexecute.resumes_iff_noneAdds]
    exact and_iff_left fun n => Drive.logs_of_stopped hexecute (by simp) n
  · rw [Drive.executeAlternative, hexecute.resumes_iff_noneAdds]
    exact and_iff_left fun n => Drive.logs_of_stopped hexecute (by simp) n
  · rw [hsucceeded.resumes_iff_noneAdds]
    exact and_iff_left fun n => Drive.logs_of_stopped hsucceeded (by simp) n
  · rw [hbranch.resumes_iff_noneAdds, Drive.errorsLast_iff]

/-- The hotel that cannot be cancelled is moved to another day, on a day when no car is free. -/
inductive Rebooking
  | hotel | car | move
deriving DecidableEq

def Rebooking.activities : Rebooking → Activity Rebooking Unit Unit
  | .hotel => ⟨fun item _ => .ok (some ⟨item.activityType, ()⟩),
      fun _ slip _ => (.ok false, slip.addWorkItem ⟨.move, ()⟩),
      "sb://./hotelReservations", "sb://./hotelCancellations", some "ReserveHotelActivity"⟩
  | .car => ⟨fun _ _ => .ok none, fun _ slip _ => (.ok true, slip),
      "sb://./carReservations", "sb://./carCancellations", some "ReserveCarActivity"⟩
  | .move => ⟨fun item _ => .ok (some ⟨item.activityType, ()⟩), fun _ slip _ => (.ok true, slip),
      "sb://./hotelMoves", "sb://./hotelMoveCancellations", some "MoveHotelActivity"⟩

theorem resumes_iff_hosts :
    Resumes Rebooking.activities (Exchange.step Rebooking.activities [⟨.hotel⟩, ⟨.car⟩, ⟨.move⟩])
      Exchange.journey (fun _ => False)
      (Exchange.start Rebooking.activities (.new [⟨.hotel, ()⟩, ⟨.car, ()⟩])) := by
  refine (resumes_iff Rebooking.activities).1 _ (by decide) (fun t => ?_) _
  cases t <;> decide

/-- In a branch the hotel is never moved, and the branch is reported undone. -/
theorem branch_not_resumed :
    ¬ Resumes Rebooking.activities (Drive.executeBranch Rebooking.activities) Drive.journey
        (fun d => d.turn = .undone) ⟨.forward, ⟨.new [⟨.hotel, ()⟩, ⟨.car, ()⟩], []⟩⟩ ∧
      ((Drive.executeBranch Rebooking.activities)^[4]
        ⟨.forward, ⟨.new [⟨.hotel, ()⟩, ⟨.car, ()⟩], []⟩⟩).turn = .undone := by
  refine ⟨fun hresumes => ?_, rfl⟩
  have hadds : AddsWork Rebooking.activities
      ((Drive.executeBranch Rebooking.activities)^[2]
        ⟨.forward, ⟨.new [⟨.hotel, ()⟩, ⟨.car, ()⟩], []⟩⟩).journey [⟨.move, ()⟩]
      ((Drive.executeBranch Rebooking.activities)^[3]
        ⟨.forward, ⟨.new [⟨.hotel, ()⟩, ⟨.car, ()⟩], []⟩⟩).journey :=
    ⟨rfl, by simp, [], [⟨.move, ()⟩], rfl, rfl⟩
  obtain ⟨m, item, rest, -, hpast⟩ := hresumes.resumes 2 _ hadds
  exact Drive.loops_execute.not_resumed hadds m item hpast

end AsceticDdd.Saga
