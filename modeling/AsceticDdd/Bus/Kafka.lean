import AsceticDdd.Concurrency.Behaviour
import Mathlib.Logic.Function.Basic

/-!
# The Kafka consumer

A subscription is a delivery task over the consumer's one client. A task receives a message, calls the handler
until it does not fail, and stores the offset after it; told to stop it ends between messages, or between two
tries of a handler that fails. The client hands each partition's messages out in order, once per assignment.
-/

namespace AsceticDdd.Bus.Kafka

/-- A message received, in one assignment of its partition. -/
structure Received where
  partition : Nat
  assignment : Nat
  offset : Nat
deriving DecidableEq

inductive Phase
  | receiving
  | calling (received : Received)
  /-- Between two tries of a handler that has failed. -/
  | pausing (received : Received)
  | storing (received : Received)
  | ended
deriving DecidableEq

structure Task where
  /-- The order to stop, not yet taken. -/
  stop : Bool
  phase : Phase
deriving DecidableEq

/-- What the client has of a partition. -/
structure Partition where
  assignment : Nat
  /-- The offset from which the next message is handed out. -/
  position : Nat
  stored : Option Nat
  committed : Nat
deriving DecidableEq

/-- What has been done with a message. -/
inductive Event
  | called (received : Received)
  | failed (received : Received)
  /-- The handler returned, or panicked. -/
  | settled (received : Received)
  /-- The task was stopped between two tries. -/
  | abandoned (received : Received)
deriving DecidableEq

structure Consumer where
  /-- The partition has a message at the offset. -/
  log : Nat → Nat → Bool
  partitions : Nat → Partition
  tasks : List Task
  /-- The task that the next subscription stops. -/
  delivery : Option Nat
  /-- What has happened, the latest first. -/
  history : List Event

inductive Action
  | subscribe
  | cancel (task : Nat)
  | receive (task partition offset : Nat)
  | fail (task : Nat)
  /-- The handler returns, or panics and its message is skipped. -/
  | settle (task : Nat)
  | retry (task : Nat)
  | stop (task : Nat)
  /-- The offset is stored, or the storing of it fails. -/
  | store (task : Nat) (succeeds : Bool)
  | commit (partition : Nat)
  | assign (partition : Nat)

namespace Consumer

def setTask (consumer : Consumer) (id : Nat) (task : Task) : Consumer :=
  { consumer with tasks := consumer.tasks.set id task }

def setPartition (consumer : Consumer) (id : Nat) (partition : Partition) : Consumer :=
  { consumer with partitions := Function.update consumer.partitions id partition }

def record (consumer : Consumer) (event : Event) : Consumer :=
  { consumer with history := event :: consumer.history }

/-- The order to stop is kept until it is taken. -/
def notify (consumer : Consumer) (id : Nat) : Consumer :=
  { consumer with tasks := consumer.tasks.modify id fun task => { task with stop := true } }

/-- A previous task is told to stop. -/
def subscribe (consumer : Consumer) : Option Consumer :=
  let notified :=
    match consumer.delivery with
    | some previous => consumer.notify previous
    | none => consumer
  some { notified with
    tasks := notified.tasks ++ [⟨false, .receiving⟩]
    delivery := some consumer.tasks.length }

def cancel (consumer : Consumer) (id : Nat) : Option Consumer := some (consumer.notify id)

/-- The next message of the partition, at the first offset with one. -/
def NextOf (consumer : Consumer) (partition offset : Nat) : Prop :=
  (consumer.partitions partition).position ≤ offset ∧ consumer.log partition offset = true ∧
    ∀ before < offset, (consumer.partitions partition).position ≤ before → consumer.log partition before = false

instance (consumer : Consumer) (partition offset : Nat) : Decidable (consumer.NextOf partition offset) :=
  inferInstanceAs (Decidable (_ ∧ _ ∧ ∀ before < offset, _))

/-- The receive may win over an order to stop that is there as well. -/
def receive (consumer : Consumer) (id partition offset : Nat) : Option Consumer := do
  let task ← consumer.tasks[id]?
  if task.phase = .receiving ∧ consumer.NextOf partition offset then
    let from' := consumer.partitions partition
    let received := ⟨partition, from'.assignment, offset⟩
    return ((consumer.setPartition partition { from' with position := offset + 1 }).setTask id
      { task with phase := .calling received }).record (.called received)
  else none

def fail (consumer : Consumer) (id : Nat) : Option Consumer := do
  let task ← consumer.tasks[id]?
  match task.phase with
  | .calling received =>
    return (consumer.setTask id { task with phase := .pausing received }).record (.failed received)
  | _ => none

def settle (consumer : Consumer) (id : Nat) : Option Consumer := do
  let task ← consumer.tasks[id]?
  match task.phase with
  | .calling received =>
    return (consumer.setTask id { task with phase := .storing received }).record (.settled received)
  | _ => none

def retry (consumer : Consumer) (id : Nat) : Option Consumer := do
  let task ← consumer.tasks[id]?
  match task.phase with
  | .pausing received =>
    return (consumer.setTask id { task with phase := .calling received }).record (.called received)
  | _ => none

/-- The order to stop is taken where a task waits: for a message, or to try again. -/
def stop (consumer : Consumer) (id : Nat) : Option Consumer := do
  let task ← consumer.tasks[id]?
  if task.stop then
    match task.phase with
    | .receiving => return consumer.setTask id ⟨false, .ended⟩
    | .pausing received => return (consumer.setTask id ⟨false, .ended⟩).record (.abandoned received)
    | _ => none
  else none

def store (consumer : Consumer) (id : Nat) (succeeds : Bool) : Option Consumer := do
  let task ← consumer.tasks[id]?
  match task.phase with
  | .storing received =>
    let next := consumer.setTask id { task with phase := .receiving }
    if succeeds then
      return next.setPartition received.partition
        { consumer.partitions received.partition with stored := some (received.offset + 1) }
    else return next
  | _ => none

/-- The driver commits what is stored. -/
def commit (consumer : Consumer) (id : Nat) : Option Consumer := do
  let offset ← (consumer.partitions id).stored
  return consumer.setPartition id { consumer.partitions id with committed := offset }

/-- The partition is assigned again, from what is committed. -/
def assign (consumer : Consumer) (id : Nat) : Option Consumer :=
  let partition := consumer.partitions id
  some (consumer.setPartition id ⟨partition.assignment + 1, partition.committed, none, partition.committed⟩)

def step (consumer : Consumer) : Action → Option Consumer
  | .subscribe => consumer.subscribe
  | .cancel task => consumer.cancel task
  | .receive task partition offset => consumer.receive task partition offset
  | .fail task => consumer.fail task
  | .settle task => consumer.settle task
  | .retry task => consumer.retry task
  | .stop task => consumer.stop task
  | .store task succeeds => consumer.store task succeeds
  | .commit partition => consumer.commit partition
  | .assign partition => consumer.assign partition

/-- A consumer of a group that has committed up to `committed`. -/
def new (log : Nat → Nat → Bool) (committed : Nat → Nat) : Consumer :=
  ⟨log, fun partition => ⟨0, committed partition, none, committed partition⟩, [], none, []⟩

end Consumer

def consumers : Concurrency.Machine Consumer Action := ⟨Consumer.step⟩

end AsceticDdd.Bus.Kafka
