import AsceticDdd.Postgres.Jsonb
import AsceticDdd.Text.Decimal

/-!
# What the inbox stores

A message arrives under an identity and names the identities it must wait for; the table's row adds
its order of arrival, its attempts, and where it stands.
-/

namespace AsceticDdd.Inbox

open Postgres Text

/-- A message that must be processed before another: the identity of a row in the inbox. Numbers in a stream's id
are compared as they are spelled: `1` and `1.0` are two ids here, and one to the table. -/
structure CausalDependency where
  tenantId : String
  streamType : String
  streamId : Jsonb
  streamPosition : Int
deriving DecidableEq

structure InboxMessage where
  tenantId : String
  streamType : String
  streamId : Jsonb
  streamPosition : Int
  uri : String
  payload : List UInt8
  metadata : Option Jsonb
deriving DecidableEq

/-- The identity of `message`, as a dependency on it. -/
def CausalDependency.on (message : InboxMessage) : CausalDependency where
  tenantId := message.tenantId
  streamType := message.streamType
  streamId := message.streamId
  streamPosition := message.streamPosition

namespace CausalDependency

def text : Jsonb → Option String
  | .string text => some text
  | _ => none

def position : Jsonb → Option Int
  | .number numeral => i32 numeral.toList
  | _ => none

/-- `serde_json::from_value`: the fields by name, others ignored, or in order in an array of four. -/
def fromValue : Jsonb → Option CausalDependency
  | .object members => do
    return {
      tenantId := ← members.lookup "tenant_id" >>= text
      streamType := ← members.lookup "stream_type" >>= text
      streamId := ← members.lookup "stream_id"
      streamPosition := ← members.lookup "stream_position" >>= position }
  | .array [tenantId, streamType, streamId, streamPosition] => do
    return {
      tenantId := ← text tenantId
      streamType := ← text streamType
      streamId
      streamPosition := ← position streamPosition }
  | _ => none

end CausalDependency

namespace InboxMessage

/-- A field of the metadata, when that is an object. -/
def field (message : InboxMessage) (name : String) : Option Jsonb :=
  match message.metadata with
  | some (.object members) => members.lookup name
  | _ => none

/-- The messages this one must wait for: a list, or its text. Entries that are not dependencies are
ignored. -/
def causalDependencies (fromStr : String → Option Jsonb) (message : InboxMessage) :
    List CausalDependency :=
  let entries := match message.field "causal_dependencies" with
    | some (.string text) => fromStr text
    | other => other
  match entries with
  | some (.array entries) => entries.filterMap CausalDependency.fromValue
  | _ => []

end InboxMessage

/-- A row of the inbox's table. Its order of processing is assigned when it is processed. -/
structure Row extends InboxMessage where
  receivedPosition : Nat
  processedPosition : Option Nat
  attempts : Nat
  lastError : Option String
  nextAttemptAt : Option Nat
  parkedAt : Option Nat
  waitingFor : Option CausalDependency
  waitingSince : Option Nat
  processedAt : Option Nat
deriving DecidableEq

namespace Row

def identity (row : Row) : CausalDependency := .on row.toInboxMessage

/-- A message as its insert leaves it. -/
def received (message : InboxMessage) (receivedPosition : Nat) : Row where
  toInboxMessage := message
  receivedPosition := receivedPosition
  processedPosition := none
  attempts := 0
  lastError := none
  nextAttemptAt := none
  parkedAt := none
  waitingFor := none
  waitingSince := none
  processedAt := none

/-- The rows a dispatcher may take. -/
def Queued (row : Row) : Prop :=
  row.processedPosition = none ∧ row.parkedAt = none ∧ row.waitingFor = none

instance : DecidablePred Queued := fun _ => inferInstanceAs (Decidable (_ ∧ _))

/-- Not held back by its backoff at `now`. -/
def due (row : Row) (now : Nat) : Bool := row.nextAttemptAt.all (· ≤ now)

def waiting (row : Row) (dependency : CausalDependency) (now : Nat) : Row :=
  { row with waitingFor := some dependency, waitingSince := some now }

def woken (row : Row) : Row := { row with waitingFor := none, waitingSince := none }

def marked (row : Row) (position now : Nat) : Row :=
  { row with processedPosition := some position, processedAt := some now }

def resolved (row : Row) (position now : Nat) : Row :=
  { row with parkedAt := none, processedPosition := some position, processedAt := some now }

def unparked (row : Row) : Row :=
  { row with parkedAt := none, attempts := 0, nextAttemptAt := none }

def expired (row : Row) (error : String) (now : Nat) : Row :=
  { row with parkedAt := some now, lastError := some error, waitingFor := none, waitingSince := none }

def failed (row : Row) (error : String) (nextAttemptAt : Nat) (parkedAt : Option Nat) : Row :=
  { row with
    attempts := row.attempts + 1
    lastError := some error
    nextAttemptAt := some nextAttemptAt
    parkedAt := parkedAt }

end Row

end AsceticDdd.Inbox
