import AsceticDdd.Saga.RoutingSlip

/-!
# Activity hosts, and the exchange of a slip between them

A host hands the slip to its sender with the address it goes to next. The exchange gives every
message to the first host that accepts it, until nothing is on its way.
-/

namespace AsceticDdd.Saga

variable {T A R : Type} (create : T → Activity T A R)

/-- A host is known by the activity type it manages. -/
structure ActivityHost (T : Type) where
  activityType : T
deriving DecidableEq

namespace ActivityHost

/-- The address the sender is given, when the slip goes on. -/
def processForwardMessage (j : Journey T A R) : Except SagaError (Option String) × Journey T A R :=
  if j.slip.isCompleted then (.ok none, j)
  else
    match j.processNext create with
    | (.ok true, j') => (.ok (j'.progressUri create), j')
    | (.ok false, j') => (.ok (j'.compensationUri create), j')
    | (.error error, j') => (.error error, j')

def processBackwardMessage (j : Journey T A R) : Except SagaError (Option String) × Journey T A R :=
  if j.slip.isInProgress then
    match j.undoLast create with
    | (.ok true, j') => (.ok (j'.compensationUri create), j')
    | (.ok false, j') => (.ok (j'.progressUri create), j')
    | (.error error, j') => (.error error, j')
  else (.ok none, j)

/-- None when the message is not for this host. -/
def acceptMessage (host : ActivityHost T) (uri : String) (j : Journey T A R) :
    Option (Except SagaError (Option String) × Journey T A R) :=
  if (create host.activityType).compensationQueueAddress = uri then
    some (processBackwardMessage create j)
  else if (create host.activityType).workItemQueueAddress = uri then
    some (processForwardMessage create j)
  else none

/-- The addresses a host takes messages from. -/
def addresses (host : ActivityHost T) : List String :=
  [(create host.activityType).workItemQueueAddress,
    (create host.activityType).compensationQueueAddress]

end ActivityHost

/-- A slip between hosts: the address it is sent to, none once nothing is on its way, and the
error a host stopped with. -/
structure Exchange (T A R : Type) where
  uri : Option String
  journey : Journey T A R
  failure : Option SagaError

namespace Exchange

/-- The slip is sent to the first item's address. -/
def start (slip : RoutingSlip (WorkItem T A) (WorkLog T R)) : Exchange T A R :=
  ⟨(Journey.mk slip []).progressUri create, ⟨slip, []⟩, none⟩

/-- One message is given to the first host that accepts it. -/
def step (hosts : List (ActivityHost T)) (x : Exchange T A R) : Exchange T A R :=
  match x.uri with
  | none => x
  | some uri =>
    match hosts.findSome? (fun host => host.acceptMessage create uri x.journey) with
    | none => { x with uri := none }
    | some (Except.ok sent, j) => ⟨sent, j, none⟩
    | some (Except.error error, j) => ⟨none, j, some error⟩

end Exchange

end AsceticDdd.Saga
