import Mathlib.Data.List.Basic

/-!
# The routing slip that flows through a saga

What an activity answers may hang on all that happened before: its work and its compensation are
functions of the past, the works and compensations begun so far. Every statement about all
activities is then one about all outcomes they can have.
-/

namespace AsceticDdd.Saga

inductive SagaError
  | invalidOperation (message : String)
  | activityTypeNotRegistered (name : String)
  | missingKey (key : String)
  | unexpectedType (key expected : String)
  | activity (error : String)
deriving DecidableEq

/-- A queue of pending work items and a stack of completed work logs, its top last. -/
structure RoutingSlip (Item Log : Type) where
  completedWorkLogs : List Log
  nextWorkItems : List Item
deriving DecidableEq

namespace RoutingSlip

variable {Item Log : Type}

def new (workItems : List Item) : RoutingSlip Item Log := ⟨[], workItems⟩

def isCompleted (slip : RoutingSlip Item Log) : Bool := slip.nextWorkItems.isEmpty

def isInProgress (slip : RoutingSlip Item Log) : Bool := !slip.completedWorkLogs.isEmpty

def addWorkItem (slip : RoutingSlip Item Log) (workItem : Item) : RoutingSlip Item Log :=
  { slip with nextWorkItems := slip.nextWorkItems ++ [workItem] }

def addCompletedWorkLog (slip : RoutingSlip Item Log) (workLog : Log) : RoutingSlip Item Log :=
  { slip with completedWorkLogs := slip.completedWorkLogs ++ [workLog] }

end RoutingSlip

structure WorkItem (T A : Type) where
  activityType : T
  arguments : A
deriving DecidableEq

structure WorkLog (T R : Type) where
  activityType : T
  result : R
deriving DecidableEq

/-- A work or a compensation that was begun. -/
inductive Event (Item Log : Type)
  | worked (item : Item)
  | compensated (log : Log)
deriving DecidableEq

/-- An activity over the activity types `T`, with arguments `A` and results `R`. -/
structure Activity (T A R : Type) where
  doWork : WorkItem T A → List (Event (WorkItem T A) (WorkLog T R)) → Except SagaError (Option (WorkLog T R))
  compensate : WorkLog T R → RoutingSlip (WorkItem T A) (WorkLog T R) →
    List (Event (WorkItem T A) (WorkLog T R)) →
      Except SagaError Bool × RoutingSlip (WorkItem T A) (WorkLog T R)
  workItemQueueAddress : String
  compensationQueueAddress : String
  typeName : Option String

/-- A slip on its way, and what its activities have been asked for so far. -/
structure Journey (T A R : Type) where
  slip : RoutingSlip (WorkItem T A) (WorkLog T R)
  past : List (Event (WorkItem T A) (WorkLog T R))

namespace Journey

variable {T A R : Type} (create : T → Activity T A R)

/-- A failing activity, one that answers none or an error, is reported as false. -/
def processNext (j : Journey T A R) : Except SagaError Bool × Journey T A R :=
  match j.slip.nextWorkItems with
  | [] => (.error (.invalidOperation "No more work items to process"), j)
  | item :: rest =>
    let slip := { j.slip with nextWorkItems := rest }
    let past := j.past ++ [.worked item]
    match (create item.activityType).doWork item j.past with
    | .ok (some workLog) => (.ok true, ⟨slip.addCompletedWorkLog workLog, past⟩)
    | .ok none | .error _ => (.ok false, ⟨slip, past⟩)

def progressUri (j : Journey T A R) : Option String :=
  j.slip.nextWorkItems.head?.map fun item => (create item.activityType).workItemQueueAddress

def compensationUri (j : Journey T A R) : Option String :=
  j.slip.completedWorkLogs.getLast?.map fun log =>
    (create log.activityType).compensationQueueAddress

def undoLast (j : Journey T A R) : Except SagaError Bool × Journey T A R :=
  match j.slip.completedWorkLogs.getLast? with
  | none => (.error (.invalidOperation "No work to undo"), j)
  | some log =>
    let slip := { j.slip with completedWorkLogs := j.slip.completedWorkLogs.dropLast }
    let answered := (create log.activityType).compensate log slip j.past
    (answered.1, ⟨answered.2, j.past ++ [.compensated log]⟩)

variable {create} {past : List (Event (WorkItem T A) (WorkLog T R))} {item : WorkItem T A}
  {rest : List (WorkItem T A)} {log : WorkLog T R} {logs : List (WorkLog T R)}

theorem processNext_of_done (h : (create item.activityType).doWork item past = .ok (some log)) :
    processNext create ⟨⟨logs, item :: rest⟩, past⟩ =
      (.ok true, ⟨⟨logs ++ [log], rest⟩, past ++ [.worked item]⟩) := by
  simp only [processNext, h]
  rfl

/-- The activity's work failed: it answered none or an error. -/
def Fails (create : T → Activity T A R) (item : WorkItem T A)
    (past : List (Event (WorkItem T A) (WorkLog T R))) : Prop :=
  ∀ log, (create item.activityType).doWork item past ≠ .ok (some log)

theorem processNext_of_fails (h : Fails create item past) :
    processNext create ⟨⟨logs, item :: rest⟩, past⟩ =
      (.ok false, ⟨⟨logs, rest⟩, past ++ [.worked item]⟩) := by
  simp only [processNext]
  match hwork : (create item.activityType).doWork item past with
  | .ok (some log) => exact absurd hwork (h log)
  | .ok none => rfl
  | .error _ => rfl

theorem fails_or_done (create : T → Activity T A R) (item : WorkItem T A)
    (past : List (Event (WorkItem T A) (WorkLog T R))) :
    Fails create item past ∨ ∃ log, (create item.activityType).doWork item past = .ok (some log) := by
  match hwork : (create item.activityType).doWork item past with
  | .ok (some log) => exact .inr ⟨log, rfl⟩
  | .ok none =>
    left
    intro log h
    rw [hwork] at h
    cases h
  | .error _ =>
    left
    intro log h
    rw [hwork] at h
    cases h

end Journey

end AsceticDdd.Saga
