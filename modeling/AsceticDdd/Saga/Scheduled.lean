import AsceticDdd.Saga.Nested
import Mathlib.Data.List.Induction

/-!
# Every schedule of a nested slip comes to its end

Once it is settled what each leaf's work answers and how branches that run side by side take
turns, a call is a function of what it is given, as long as every compensation goes well. Its
trace and its answer are ones that `Runs` allows, so the calls that `Runs` describes do answer.
-/

namespace AsceticDdd.Saga.Nested

open Compensation

variable {ν : Type}

/-- What the work of each leaf answers, `true` for a log, and how two traces run side by side. -/
structure Schedule (ν : Type) where
  works : ν → Except SagaError Bool
  interleave : List (Compensation.Event ν) → List (Compensation.Event ν) → List (Compensation.Event ν)
  shuffle : ∀ t u, Shuffle t u (interleave t u)

/-- Every leaf's compensation answers that it was compensated. -/
def Obliging (_ : ν) (result : Except SagaError Bool) : Prop := result = .ok true

namespace Schedule

mutual

/-- The trace of a log's compensation. -/
def compensate (s : Schedule ν) : Log ν → List (Compensation.Event ν)
  | .leaf a => [.undid a]
  | .parallel slips => s.compensateBranches slips
  | .fallback slip => s.unwind slip

def unwind (s : Schedule ν) : RoutingSlip (Item ν) (Log ν) → List (Compensation.Event ν)
  | ⟨logs, _⟩ => s.unwindLogs logs

/-- The last of the logs is compensated first. -/
def unwindLogs (s : Schedule ν) : List (Log ν) → List (Compensation.Event ν)
  | [] => []
  | log :: logs => s.unwindLogs logs ++ s.compensate log

def compensateBranches (s : Schedule ν) : List (RoutingSlip (Item ν) (Log ν)) → List (Compensation.Event ν)
  | [] => []
  | slip :: slips => s.interleave (s.unwind slip) (s.compensateBranches slips)

end

/-- What the execution of a slip comes to: its trace, whether it succeeded, and the slip. -/
structure Execution (ν : Type) where
  trace : List (Compensation.Event ν)
  succeeded : Bool
  slip : Slip ν

mutual

/-- The trace of an item's work, and its answer. -/
def doWork (s : Schedule ν) : Item ν → List (Compensation.Event ν) × Except SagaError (Option (Log ν))
  | .leaf a =>
    match s.works a with
    | .ok true => ([.did a], .ok (some (.leaf a)))
    | .ok false => ([], .ok none)
    | .error error => ([], .error error)
  | .parallel branches =>
    let (t, succeeded, slips) := s.executeEach branches
    if succeeded then (t, .ok (some (.parallel slips)))
    else (t ++ s.compensateBranches slips, .ok none)
  | .fallback alternatives =>
    let (t, slip) := s.executeFirst alternatives
    (t, .ok (slip.map .fallback))

/-- The items are executed on a slip that holds the logs. -/
def execute (s : Schedule ν) (logs : List (Log ν)) : List (Item ν) → Execution ν
  | [] => ⟨[], true, ⟨logs, []⟩⟩
  | item :: items =>
    match s.doWork item with
    | (t, .ok (some log)) =>
      let rest := s.execute (logs ++ [log]) items
      { rest with trace := t ++ rest.trace }
    | (t, _) => ⟨t ++ s.unwindLogs logs, false, ⟨[], items⟩⟩

/-- The branches' trace, whether all succeeded, and their slips. -/
def executeEach (s : Schedule ν) : List (List (Item ν)) → List (Compensation.Event ν) × Bool × List (Slip ν)
  | [] => ([], true, [])
  | items :: rest =>
    let first := s.execute [] items
    let (t, succeeded, slips) := s.executeEach rest
    (s.interleave first.trace t, first.succeeded && succeeded, first.slip :: slips)

/-- The alternatives' trace, and the slip of the first that succeeds. -/
def executeFirst (s : Schedule ν) : List (List (Item ν)) → List (Compensation.Event ν) × Option (Slip ν)
  | [] => ([], none)
  | items :: rest =>
    let first := s.execute [] items
    if first.succeeded then (first.trace, some first.slip)
    else
      let (t, slip) := s.executeFirst rest
      (first.trace ++ t, slip)

end

variable (s : Schedule ν)

theorem unwindLogs_append (logs : List (Log ν)) (log : Log ν) :
    s.unwindLogs (logs ++ [log]) = s.compensate log ++ s.unwindLogs logs := by
  induction logs with
  | nil => simp [unwindLogs]
  | cons first logs ih => rw [List.cons_append, unwindLogs, ih, unwindLogs, List.append_assoc]

/-- A slip whose every log is compensated is unwound, from its last log on. -/
theorem runs_unwindLogs (items : List (Item ν)) (logs : List (Log ν))
    (h : ∀ log ∈ logs, ∀ slip, Runs Obliging (.compensate log slip) (s.compensate log) (.stepped (.ok true) slip)) :
    Runs Obliging (.unwind ⟨logs, items⟩) (s.unwindLogs logs) (.unwound (.ok ()) ⟨[], items⟩) := by
  induction logs using List.reverseRec with
  | nil => exact .unwindDone
  | append_singleton logs log ih =>
    have hlog := h log (List.mem_append_right logs List.mem_cons_self) ⟨logs, items⟩
    have hrest := ih fun log hmem => h log (List.mem_append_left _ hmem)
    rw [unwindLogs_append]
    exact .unwindNext (List.concat_ne_nil log logs) (.undone hlog) hrest

mutual

/-- A log that was answered can be compensated, and its compensation answers. -/
theorem runs_compensate : ∀ (log : Log ν) (slip : Slip ν),
    Runs Obliging (.compensate log slip) (s.compensate log) (.stepped (.ok true) slip)
  | .leaf _, _ => .leafCompensated rfl
  | .parallel slips, _ =>
    have ⟨_, hbranches⟩ := runs_compensateBranches slips
    .parallelCompensated hbranches
  | .fallback succeeded, _ => .fallbackCompensated (runs_unwind succeeded)

theorem runs_unwind : ∀ slip : RoutingSlip (Item ν) (Log ν),
    Runs Obliging (.unwind slip) (s.unwind slip) (.unwound (.ok ()) ⟨[], slip.nextWorkItems⟩)
  | ⟨logs, items⟩ => s.runs_unwindLogs items logs (runs_compensateEach logs)

theorem runs_compensateEach : ∀ logs : List (Log ν), ∀ log ∈ logs, ∀ slip,
    Runs Obliging (.compensate log slip) (s.compensate log) (.stepped (.ok true) slip)
  | [] => fun _ hmem => absurd hmem List.not_mem_nil
  | log :: logs => List.forall_mem_cons.mpr ⟨runs_compensate log, runs_compensateEach logs⟩

theorem runs_compensateBranches : ∀ slips : List (RoutingSlip (Item ν) (Log ν)), ∃ slips',
    Runs Obliging (.compensateBranches slips) (s.compensateBranches slips) (.compensated slips')
  | [] => ⟨[], .compensateNil⟩
  | slip :: slips =>
    have ⟨slips', hrest⟩ := runs_compensateBranches slips
    ⟨⟨[], slip.nextWorkItems⟩ :: slips', .compensateCons (runs_unwind slip) hrest (s.shuffle _ _)⟩

end

mutual

/-- The work of an item answers, whatever its leaves answer and however its branches take turns. -/
theorem runs_doWork : ∀ item : Item ν, Runs Obliging (.doWork item) (s.doWork item).1 (.worked (s.doWork item).2)
  | .leaf a => by
    rw [doWork]
    match s.works a with
    | .ok true => exact .leafDone a
    | .ok false => exact .leafNone a
    | .error error => exact .leafError a error
  | .parallel branches => by
    obtain ⟨results, hbranches, hall⟩ := runs_executeEach branches
    rw [doWork]
    by_cases hsucceeded : (s.executeEach branches).2.1
    · simp only [hsucceeded, if_true]
      exact .parallelDone hbranches (hall.mp hsucceeded)
    · obtain ⟨slips', hback⟩ := s.runs_compensateBranches (s.executeEach branches).2.2
      have hfailed : ∃ result ∈ results, result ≠ .ok true := by simpa [hall] using hsucceeded
      simp only [hsucceeded]
      exact .parallelFailed hbranches hfailed hback
  | .fallback alternatives => by
    rw [doWork]
    exact runs_executeFirst alternatives

theorem runs_execute : ∀ (items : List (Item ν)) (logs : List (Log ν)), Runs Obliging (.execute ⟨logs, items⟩)
    (s.execute logs items).trace (.stepped (.ok (s.execute logs items).succeeded) (s.execute logs items).slip)
  | [], logs => by
    rw [execute]
    exact .executeDone
  | item :: items, logs => by
    have hwork := runs_doWork item
    have hback := s.runs_unwindLogs items logs fun log _ => s.runs_compensate log
    have hfailed : ∀ t result, Runs Obliging (.doWork item) t (.worked result) →
        (∀ log, result ≠ .ok (some log)) → Runs Obliging (.execute ⟨logs, item :: items⟩)
          (t ++ s.unwindLogs logs) (.stepped (.ok false) ⟨[], items⟩) :=
      fun t result hwork hfails => .executeFailed (List.cons_ne_nil _ _) (.notProcessed hwork hfails) hback
    rw [execute]
    match hanswer : s.doWork item with
    | (t, .ok (some log)) =>
      rw [hanswer] at hwork
      exact .executeNext (List.cons_ne_nil _ _) (.processed hwork) (runs_execute items (logs ++ [log]))
    | (t, .ok none) =>
      rw [hanswer] at hwork
      exact hfailed t _ hwork (by simp)
    | (t, .error error) =>
      rw [hanswer] at hwork
      exact hfailed t _ hwork (by simp)

theorem runs_executeEach : ∀ branches : List (List (Item ν)), ∃ results,
    Runs Obliging (.executeEach (branches.map .new)) (s.executeEach branches).1
      (.executed results (s.executeEach branches).2.2) ∧
    ((s.executeEach branches).2.1 ↔ ∀ result ∈ results, result = .ok true)
  | [] => by
    rw [executeEach]
    exact ⟨[], .executeEachNil, by simp⟩
  | items :: rest => by
    obtain ⟨results, hrest, hall⟩ := runs_executeEach rest
    rw [executeEach]
    refine ⟨.ok (s.execute [] items).succeeded :: results,
      .executeEachCons (runs_execute items []) hrest (s.shuffle _ _), ?_⟩
    simp [hall]

theorem runs_executeFirst : ∀ alternatives : List (List (Item ν)),
    Runs Obliging (.doWork (.fallback alternatives)) (s.executeFirst alternatives).1
      (.worked (.ok ((s.executeFirst alternatives).2.map .fallback)))
  | [] => by
    rw [executeFirst]
    exact .fallbackNone
  | items :: rest => by
    have hfirst := runs_execute items []
    rw [executeFirst]
    by_cases hsucceeded : (s.execute [] items).succeeded
    · rw [hsucceeded] at hfirst
      simp only [hsucceeded, if_true]
      exact .fallbackDone hfirst
    · rw [Bool.not_eq_true] at hsucceeded
      rw [hsucceeded] at hfirst
      simp only [hsucceeded, Bool.false_eq_true, if_false]
      exact .fallbackNext hfirst (runs_executeFirst rest)

end

end Schedule

end AsceticDdd.Saga.Nested
