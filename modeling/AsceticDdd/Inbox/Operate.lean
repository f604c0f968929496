import AsceticDdd.Inbox.Dispatch

/-!
# What happens beside a dispatch

A message is received, a row that has waited too long is parked, a parked row is resolved or put back
into the queue by hand, and processed rows are forgotten by the sweep.
-/

namespace AsceticDdd.Inbox

open Postgres

/-- What an insert told: its order of arrival, or the message id it found, unless the holder was gone. -/
inductive Receipt
  | stored (receivedPosition : Nat)
  | repeated (heldBy : Option (Option Jsonb))
deriving DecidableEq

inductive Publishing
  | begun (message : InboxMessage)
  | drawn (message : InboxMessage) (position : Nat)
  | conflicted (message : InboxMessage)
  | refused
  | done (receipt : Receipt)
deriving DecidableEq

inductive Resolving
  | begun
  | locked
  | claiming (row : Row) (at_ statement : Nat) (found : List Row)
  | waking (row : Row) (position at_ statement : Nat) (found : List Row)
  | done (resolved : Option (Row × Nat))
deriving DecidableEq

inductive Unparking
  | begun
  | claiming (row : Row)
  | done (unparked : Bool)
deriving DecidableEq

inductive Sweeping
  | begun
  | held
  | locking (at_ : Nat) (found locked : List Row)
  | deleting (locked gone : List Row)
  | done (gone : List Row)
deriving DecidableEq

namespace Database

variable (d : Database) (s : Nat)

/-- The rows another transaction inserts, changes or deletes. -/
def changing (identity : CausalDependency) : Bool := (d.cells identity).changing s

end Database

namespace PgInbox

variable (o : PgInbox) (d : Database) (s : Nat)

/-- The row has the message id, in its committed version or in one pending. -/
def named (id : Nat) (identity : CausalDependency) : Bool :=
  let named := fun row : Row => o.messageId row.toInboxMessage = some (some id)
  let c := d.cells identity
  c.committed.any named || (c.pending.join).any named

/-- The identities an insert of `message` meets in the table's unique indexes: its own, and those of
rows under its message id. -/
def meets (message : InboxMessage) : List CausalDependency :=
  .on message :: match o.messageId message with
    | some (some id) => d.identities.filter fun identity =>
        identity ≠ .on message && o.named d id identity
    | _ => []

/-- The transaction that stores a message, or finds it stored. A position is drawn before the insert
finds out. -/
def publish : Publishing → Option (Database × Publishing)
  | .begun message => some ({ d with next := d.next + 1 }, .drawn message d.next)
  | .drawn message position =>
    if d.changing s (.on message) then none
    else if (d.committed (.on message)).isSome then some (d, .conflicted message)
    else if o.messageId message = none then some (d, .refused)
    else if (o.meets d message).any (d.changing s) then none
    else if (o.meets d message).any fun identity => (d.committed identity).isSome then
      some (d, .refused)
    else some (d.insert s (.received message position), .done (.stored position))
  | .conflicted message =>
    some (d, .done (.repeated ((d.seen s (.on message)).map (·.field "message_id"))))
  | .refused | .done _ => none

/-- A row that waited too long is parked, unless it is locked or waits no more. -/
def expire (at_ maxWait : Nat) (row : Row) : Database :=
  let r := d.claimUnlocked s row
  match r.2 with
  | some latest =>
    match latest.waitingFor with
    | some dependency =>
      if overdue maxWait at_ latest then
        r.1.write row.identity (some (latest.expired (o.neverArrived dependency) at_))
      else r.1
    | none => r.1
  | none => r.1

/-- The transaction that marks a parked row by hand. -/
def resolve (identity : CausalDependency) : Resolving → Option (Database × Resolving)
  | .begun => (d.lockIdentity s (o.lockKey identity)).map fun d => (d, .locked)
  | .locked =>
    match d.seen s identity with
    | some row =>
      if row.parkedAt.isSome then
        some ({ d with statements := d.statements + 1 },
          .claiming row d.now d.statements (waiters (d.rows s) identity))
      else some (d, .done none)
    | none => some (d, .done none)
  | .claiming row at_ statement found =>
    (d.claim s row).map fun r => match r.2 with
      | some latest =>
        if latest.parkedAt.isSome then
          let drawn := { r.1 with next := r.1.next + 1 }
          ((drawn.write identity (some (latest.resolved d.next at_))).record s (.resolved latest d.next),
            .waking latest d.next at_ statement found)
        else (r.1, .done none)
      | none => (r.1, .done none)
  | .waking row position _ _ [] => some (d, .done (some (row, position)))
  | .waking row position at_ statement (waiter :: found) =>
    (d.wake s identity waiter).map fun d => (d, .waking row position at_ statement found)
  | .done _ => none

end PgInbox

variable (d : Database) (s : Nat)

/-- The statement that puts a parked row back into the queue by hand. -/
def unpark (identity : CausalDependency) : Unparking → Option (Database × Unparking)
  | .begun =>
    match d.seen s identity with
    | some row => if row.parkedAt.isSome then some (d, .claiming row) else some (d, .done false)
    | none => some (d, .done false)
  | .claiming row =>
    (d.claim s row).map fun r => match r.2 with
      | some latest =>
        if latest.parkedAt.isSome then (r.1.write identity (some latest.unparked), .done true)
        else (r.1, .done false)
      | none => (r.1, .done false)
  | .done _ => none

/-- The transaction that forgets a batch of a channel's rows, under the sweep's own lock. -/
def PgInbox.forgetBatch (o : PgInbox) (channel : String) (window : Nat) (sweptTo : Option Nat) :
    Sweeping → Option (Database × Sweeping)
  | .begun =>
    if d.sweeping = none then some ({ d with sweeping := some s }, .held) else some (d, .done [])
  | .held => some (d, .locking d.now (sweepable (d.rows s) channel window sweptTo d.now) [])
  | .locking at_ found locked =>
    match found with
    | row :: found =>
      if locked.length < max o.batch 1 then
        let r := d.claimUnlocked s row
        match r.2 with
        | some latest =>
          if forgettable channel window sweptTo at_ latest then
            some (r.1, .locking at_ found (locked ++ [latest]))
          else some (r.1, .locking at_ found locked)
        | none => some (r.1, .locking at_ found locked)
      else some (d, .deleting locked [])
    | [] => some (d, .deleting locked [])
  | .deleting (row :: locked) gone =>
    some ((d.write row.identity none).record s (.forgotten row), .deleting locked (gone ++ [row]))
  | .deleting [] gone => some (d, .done gone)
  | .done _ => none

end AsceticDdd.Inbox
