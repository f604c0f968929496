import AsceticDdd.Inbox.Message
import Mathlib.Data.List.Sort

/-!
# The statements of the inbox, on what they read

Each definition is what one statement finds among the rows its snapshot shows it.
-/

namespace AsceticDdd.Inbox

open Postgres

/-- What an inbox is made with. `hashtext`, the texts of `jsonb` values and their readings as `uuid`
are the server's, `fromStr` is `serde_json`'s. -/
structure PgInbox where
  slots : Nat
  slots_pos : 0 < slots
  partitionKey : InboxMessage → String
  maxAttempts : Nat
  backoff : Nat → Nat
  maxWait : Option Nat
  windows : List (String × Nat)
  batch : Nat
  hashtext : String → BitVec 32
  identityText : CausalDependency → String
  uuid : Jsonb → Option Nat
  fromStr : String → Option Jsonb

/-- `split_part`, of the text cut at `/`. -/
def splitPart (text : String) (part : Nat) : List Char :=
  ((text.toList.splitOn '/')[part - 1]?).getD []

/-- The destination without its key. -/
def channelOf (uri : String) : String :=
  String.ofList (splitPart uri 1 ++ ['/', '/'] ++ splitPart uri 3)

def byArrival (rows : List Row) : List Row :=
  rows.insertionSort fun a b => a.receivedPosition ≤ b.receivedPosition

/-- The rows that wait for `identity`. -/
def waiters (rows : List Row) (identity : CausalDependency) : List Row :=
  rows.filter fun row => row.waitingFor = some identity

/-- Waiting for longer than `maxWait`. -/
def overdue (maxWait now : Nat) (row : Row) : Bool :=
  row.waitingFor.isSome && row.waitingSince.any (· + maxWait < now)

/-- Processed longer ago than `window`, and not before what the sweep has come to. -/
def forgettable (channel : String) (window : Nat) (sweptTo : Option Nat) (now : Nat) (row : Row) :
    Bool :=
  channelOf row.uri = channel && row.processedAt.any (· + window < now) &&
    sweptTo.all (fun time => row.processedAt.any (time ≤ ·)) && row.processedPosition.isSome

/-- The rows a sweep's statement goes through: none a waiting row names. -/
def sweepable (rows : List Row) (channel : String) (window : Nat) (sweptTo : Option Nat) (now : Nat) :
    List Row :=
  (rows.filter fun row => forgettable channel window sweptTo now row &&
    rows.all fun waiter => waiter.waitingFor ≠ some row.identity).insertionSort
      fun a b => a.processedAt.getD 0 ≤ b.processedAt.getD 0

namespace PgInbox

variable (o : PgInbox)

def slotOf (message : InboxMessage) : Nat :=
  (o.hashtext (o.partitionKey message) &&& 2147483647#32).toNat % o.slots

theorem slotOf_lt (message : InboxMessage) : o.slotOf message < o.slots := Nat.mod_lt _ o.slots_pos

/-- The advisory lock's key for an identity. -/
def lockKey (identity : CausalDependency) : BitVec 32 := o.hashtext (o.identityText identity)

def dependencies (message : InboxMessage) : List CausalDependency :=
  message.causalDependencies o.fromStr

/-- `(metadata->>'message_id')::uuid`: the value, if there is one, or the cast fails. -/
def messageId (message : InboxMessage) : Option (Option Nat) :=
  match message.field "message_id" with
  | none | some .null => some none
  | some value => (o.uuid value).map some

/-- The queue of a slot. -/
def queue (rows : List Row) (slot : Nat) : List Row :=
  byArrival (rows.filter fun row => o.slotOf row.toInboxMessage = slot ∧ row.Queued)

/-- The slots whose head is due, least recently served first. -/
def dueSlots (rows : List Row) (servedAt : Nat → Nat) (now : Nat) : List Nat :=
  ((List.range o.slots).filter fun slot => (o.queue rows slot).head?.any (·.due now)).insertionSort
    fun a b => servedAt a ≤ servedAt b

/-- Whether a failure parks a row: a permanent one, or the last attempt. -/
def parks (permanent : Bool) (attempts : Nat) : Bool :=
  permanent || (decide (0 < o.maxAttempts) && decide (o.maxAttempts ≤ attempts))

def neverArrived (dependency : CausalDependency) : String :=
  "dependency " ++ o.identityText dependency ++ " never arrived"

variable {o} {rows : List Row} {row : Row} {slot : Nat}

theorem mem_queue : row ∈ o.queue rows slot ↔
    row ∈ rows ∧ o.slotOf row.toInboxMessage = slot ∧ row.Queued := by
  simp [queue, byArrival]

theorem lt_of_mem_dueSlots {servedAt : Nat → Nat} {now : Nat} (h : slot ∈ o.dueSlots rows servedAt now) :
    slot < o.slots := by
  rw [dueSlots, List.mem_insertionSort] at h
  exact List.mem_range.mp (List.mem_filter.mp h).1

/-- What stands before a row of the queue arrived no later. -/
theorem queue_sorted : (o.queue rows slot).Pairwise fun a b => a.receivedPosition ≤ b.receivedPosition := by
  have := List.pairwise_insertionSort (fun a b : Row => a.receivedPosition ≤ b.receivedPosition)
    (rows.filter fun row => o.slotOf row.toInboxMessage = slot ∧ row.Queued)
  exact this

end PgInbox

variable {rows : List Row} {row : Row}

@[simp] theorem mem_waiters {identity : CausalDependency} :
    row ∈ waiters rows identity ↔ row ∈ rows ∧ row.waitingFor = some identity := by
  simp [waiters]

theorem mem_sweepable {channel : String} {window now : Nat} {sweptTo : Option Nat} :
    row ∈ sweepable rows channel window sweptTo now ↔ row ∈ rows ∧
      forgettable channel window sweptTo now row ∧ ∀ w ∈ rows, w.waitingFor ≠ some row.identity := by
  simp [sweepable]

end AsceticDdd.Inbox
