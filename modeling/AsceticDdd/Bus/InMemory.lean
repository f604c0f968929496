import AsceticDdd.Concurrency.Behaviour
import Mathlib.Data.List.Perm.Basic
import Mathlib.Logic.Function.Basic

/-!
# The in-memory broker

A topic has a delivery task, which takes one message at a time off the queue. It admits a call of each handler
attached, under the lock handlers are detached under, and makes the calls one after another. A cancel detaches
its handler once and waits until no call of it is in flight.
-/

namespace AsceticDdd.Bus

variable {M : Type}

/-- A call of a subscription's handler. -/
structure Call (M : Type) where
  subscription : Nat
  message : M
deriving DecidableEq

structure Topic (M : Type) where
  queue : List M
  /-- Each group's attached handler, told by the subscription whose calls it counts. -/
  groups : List (String × Option Nat)
  /-- The calls admitted of the message in hand, in the order they are made. -/
  calls : List (Call M)
  /-- The first of them has begun. -/
  running : Bool

/-- A topic before its first use. -/
def Topic.unused : Topic M := ⟨[], [], [], false⟩

structure Subscription where
  uri : String
  group : String
  /-- Nobody has taken its `detach`. -/
  armed : Bool
  inFlight : Nat
deriving DecidableEq

inductive Phase
  /-- Before the lock of `detach`. -/
  | called
  /-- With `detach` in hand. -/
  | detaching
  | waiting
  | returned
deriving DecidableEq

/-- Where a cancel is made. -/
inductive Within
  /-- In no handler's call. -/
  | nowhere
  /-- In the call in hand at a topic of the broker, of a subscription's handler. -/
  | call (uri : String) (subscription : Nat)
  /-- In a call of a handler of another transport. -/
  | elsewhere
deriving DecidableEq

/-- The call of the broker's own. -/
def Within.here : Within → Option (String × Nat)
  | call uri subscription => some (uri, subscription)
  | nowhere | elsewhere => none

/-- A call of `cancel`. -/
structure Cancel where
  subscription : Nat
  inside : Within
  phase : Phase
deriving DecidableEq

structure Broker (M : Type) where
  capacity : Nat
  topics : String → Topic M
  subscriptions : List Subscription
  cancels : List Cancel

inductive Action (M : Type)
  | publish (uri : String) (message : M)
  | consumer (uri group : String)
  | subscribe (uri group : String)
  /-- A message taken off the queue, the handlers met in this order. -/
  | receive (uri : String) (handlers : List Nat)
  | begin (uri : String)
  /-- The call is over: with success, an error or a panic. -/
  | finish (uri : String)
  | cancel (subscription : Nat) (inside : Within)
  | take (cancel : Nat)
  | detach (cancel : Nat)
  | return (cancel : Nat)

namespace Topic

/-- The handlers attached. -/
def attached (topic : Topic M) : List Nat := topic.groups.filterMap Prod.snd

/-- The group's slot, if it has a consumer. -/
def insert (topic : Topic M) (group : String) (subscription : Nat) : Topic M :=
  { topic with groups := topic.groups.map fun slot => if slot.1 = group then (group, some subscription) else slot }

/-- Only this subscription's handler: a later one of the group stays. -/
def clear (topic : Topic M) (group : String) (subscription : Nat) : Topic M :=
  { topic with groups := topic.groups.map fun slot => if slot = (group, some subscription) then (group, none) else slot }

/-- A call of the subscription's handler is in hand and has begun. -/
def Runs (topic : Topic M) (subscription : Nat) : Prop :=
  topic.running = true ∧ ∃ call ∈ topic.calls.head?, call.subscription = subscription

instance (topic : Topic M) (subscription : Nat) : Decidable (topic.Runs subscription) :=
  inferInstanceAs (Decidable (_ ∧ _))

end Topic

/-- The task is inside a call of a handler. -/
def Within.isInside : Within → Bool
  | nowhere => false
  | call _ _ | elsewhere => true

/-- The cancel is made in a call of its own subscription's handler. -/
def Cancel.Own (cancel : Cancel) : Prop := ∃ uri, cancel.inside = .call uri cancel.subscription

namespace Broker

def new (capacity : Nat) : Broker M := ⟨max capacity 1, fun _ => .unused, [], []⟩

def setTopic (broker : Broker M) (uri : String) (topic : Topic M) : Broker M :=
  { broker with topics := Function.update broker.topics uri topic }

def setSubscription (broker : Broker M) (id : Nat) (subscription : Subscription) : Broker M :=
  { broker with subscriptions := broker.subscriptions.set id subscription }

def setPhase (broker : Broker M) (id : Nat) (phase : Phase) : Broker M :=
  { broker with cancels := broker.cancels.modify id fun cancel => { cancel with phase } }

/-- One more call of the subscription in flight. -/
def admitCall (subscriptions : List Subscription) (id : Nat) : List Subscription :=
  subscriptions.modify id fun subscription => { subscription with inFlight := subscription.inFlight + 1 }

/-- A call of the subscription counted out. -/
def countOut (subscriptions : List Subscription) (id : Nat) : List Subscription :=
  subscriptions.modify id fun subscription => { subscription with inFlight := subscription.inFlight - 1 }

/-- A cancel made in the call in hand at `uri` goes on: the call returns after it. -/
def Cancelling (broker : Broker M) (uri : String) : Prop :=
  ∃ cancel ∈ broker.cancels, cancel.phase ≠ .returned ∧ ∃ inside ∈ cancel.inside.here, inside.1 = uri

instance (broker : Broker M) (uri : String) : Decidable (broker.Cancelling uri) :=
  inferInstanceAs (Decidable (∃ _ ∈ _, _))

def publish (broker : Broker M) (uri : String) (message : M) : Option (Broker M) :=
  let topic := broker.topics uri
  if topic.queue.length < broker.capacity then
    some (broker.setTopic uri { topic with queue := topic.queue ++ [message] })
  else none

/-- Joins the group; a second consumer in it is refused. -/
def consumer (broker : Broker M) (uri group : String) : Option (Broker M) :=
  let topic := broker.topics uri
  if group ∈ topic.groups.map Prod.fst then none
  else some (broker.setTopic uri { topic with groups := topic.groups ++ [(group, none)] })

/-- A consumer's handler, in the place of the one before. -/
def subscribe (broker : Broker M) (uri group : String) : Option (Broker M) :=
  let topic := broker.topics uri
  if group ∈ topic.groups.map Prod.fst then
    some { broker.setTopic uri (topic.insert group broker.subscriptions.length) with
      subscriptions := broker.subscriptions ++ [⟨uri, group, true, 0⟩] }
  else none

def receive (broker : Broker M) (uri : String) (handlers : List Nat) : Option (Broker M) :=
  let topic := broker.topics uri
  match topic.queue with
  | [] => none
  | message :: queue =>
    if topic.calls = [] ∧ handlers.Perm topic.attached then
      some { broker.setTopic uri { topic with queue, calls := handlers.map fun id => ⟨id, message⟩, running := false } with
        subscriptions := handlers.foldl admitCall broker.subscriptions }
    else none

def begin' (broker : Broker M) (uri : String) : Option (Broker M) :=
  let topic := broker.topics uri
  if topic.calls ≠ [] ∧ topic.running = false then some (broker.setTopic uri { topic with running := true })
  else none

def finish (broker : Broker M) (uri : String) : Option (Broker M) :=
  let topic := broker.topics uri
  match topic.calls with
  | [] => none
  | call :: calls =>
    if topic.running = true ∧ ¬broker.Cancelling uri then
      some { broker.setTopic uri { topic with calls, running := false } with
        subscriptions := countOut broker.subscriptions call.subscription }
    else none

def cancel (broker : Broker M) (subscription : Nat) (inside : Within) : Option (Broker M) :=
  if subscription < broker.subscriptions.length ∧ ∀ call ∈ inside.here, (broker.topics call.1).Runs call.2 then
    some { broker with cancels := broker.cancels ++ [⟨subscription, inside, .called⟩] }
  else none

/-- The lock is held while `detach` is taken out, and no longer. -/
def take (broker : Broker M) (id : Nat) : Option (Broker M) := do
  let cancel ← broker.cancels[id]?
  let subscription ← broker.subscriptions[cancel.subscription]?
  if cancel.phase = .called then
    if subscription.armed then
      return (broker.setSubscription cancel.subscription { subscription with armed := false }).setPhase id .detaching
    else return broker.setPhase id .waiting
  else none

def detach (broker : Broker M) (id : Nat) : Option (Broker M) := do
  let cancel ← broker.cancels[id]?
  let subscription ← broker.subscriptions[cancel.subscription]?
  if cancel.phase = .detaching then
    let topic := broker.topics subscription.uri
    return (broker.setTopic subscription.uri (topic.clear subscription.group cancel.subscription)).setPhase id .waiting
  else none

/-- Inside a call of a handler at once, elsewhere when no call is in flight. -/
def return' (broker : Broker M) (id : Nat) : Option (Broker M) := do
  let cancel ← broker.cancels[id]?
  let subscription ← broker.subscriptions[cancel.subscription]?
  if cancel.phase = .waiting ∧ (cancel.inside.isInside ∨ subscription.inFlight = 0) then return broker.setPhase id .returned
  else none

def step (broker : Broker M) : Action M → Option (Broker M)
  | .publish uri message => broker.publish uri message
  | .consumer uri group => broker.consumer uri group
  | .subscribe uri group => broker.subscribe uri group
  | .receive uri handlers => broker.receive uri handlers
  | .begin uri => broker.begin' uri
  | .finish uri => broker.finish uri
  | .cancel subscription inside => broker.cancel subscription inside
  | .take id => broker.take id
  | .detach id => broker.detach id
  | .return id => broker.return' id

end Broker

def brokers : Concurrency.Machine (Broker M) (Action M) := ⟨Broker.step⟩

end AsceticDdd.Bus
