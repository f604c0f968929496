import AsceticDdd.Inbox.Database

/-!
# One message inside one transaction

A dispatcher takes a slot, reads its head, looks at the head's dependencies one by one, and ends in
one of four ways: nothing, the head set aside, the head processed and marked, or an attempt recorded.
Each step is a statement, or one wait for a lock within it.
-/

namespace AsceticDdd.Inbox

inductive Outcome
  | nothing
  | setAside (row : Row) (dependency : CausalDependency)
  | processed (row : Row) (position : Nat)
  | failed (row : Row) (attempts : Nat) (parked : Bool)
deriving DecidableEq

/-- A dispatch transaction between two steps. The lists are what a statement's snapshot found, of
which the rest is still to be locked; `statement` is the number of that snapshot. -/
inductive Dispatching
  | begun
  | taking (due : List Nat)
  | taken (slot : Nat)
  | heading (slot : Nat) (found : List Row)
  | checking (slot : Nat) (row : Row) (left : List CausalDependency)
  | locking (slot : Nat) (row : Row) (dependency : CausalDependency)
  | locked (slot : Nat) (row : Row) (dependency : CausalDependency)
  | handling (slot : Nat) (row : Row)
  | identifying (slot : Nat) (row : Row)
  | marking (slot : Nat) (row : Row)
  | waking (slot : Nat) (row : Row) (position at_ statement : Nat) (found : List Row)
  | failing (slot : Nat) (row : Row) (error : String) (permanent : Bool)
  | done (slot : Option Nat) (outcome : Outcome)
deriving DecidableEq

/-- A waiting row found by a mark or a resolve is put back into the queue, if it still waits. -/
def Database.wake (d : Database) (s : Nat) (identity : CausalDependency) (row : Row) :
    Option Database :=
  (d.claim s row).map fun r => match r.2 with
    | some latest =>
      if latest.waitingFor = some identity then r.1.write row.identity (some latest.woken) else r.1
    | none => r.1

namespace PgInbox

variable (o : PgInbox) (d : Database) (s : Nat)

/-- A step of a dispatch transaction that began at `begunAt`. -/
def dispatch (begunAt : Nat) : Dispatching → Option (Database × Dispatching)
  | .begun => some (d, .taking (o.dueSlots (d.rows s) (fun slot => (d.slots slot).servedAt) begunAt))
  | .taking due =>
    match due.find? fun slot => (d.slots slot).lock = none with
    | some slot => some (d.takeSlot s slot begunAt, .taken slot)
    | none => some (d, .done none .nothing)
  | .taken slot => some (d, .heading slot (o.queue (d.rows s) slot))
  | .heading slot [] => some (d, .done (some slot) .nothing)
  | .heading slot (row :: found) =>
    (d.claim s row).map fun r => match r.2 with
      | some latest =>
        if o.slotOf latest.toInboxMessage = slot ∧ latest.Queued then
          if latest.due begunAt then
            (r.1, .checking slot latest (o.dependencies latest.toInboxMessage))
          else (r.1, .done (some slot) .nothing)
        else (r.1, .heading slot found)
      | none => (r.1, .heading slot found)
  | .checking slot row [] => some (d, .handling slot row)
  | .checking slot row (dependency :: left) =>
    if d.isProcessed s dependency then some (d, .checking slot row left)
    else some (d, .locking slot row dependency)
  | .locking slot row dependency =>
    (d.lockIdentity s (o.lockKey dependency)).map fun d => (d, .locked slot row dependency)
  | .locked slot row dependency =>
    if d.isProcessed s dependency then some (d, .done (some slot) .nothing)
    else some (d.write row.identity (some (row.waiting dependency begunAt)),
      .done (some slot) (.setAside row dependency))
  | .identifying slot row =>
    (d.lockIdentity s (o.lockKey row.identity)).map fun d => (d, .marking slot row)
  | .marking slot row =>
    let marked := { d with next := d.next + 1, statements := d.statements + 1 }
    some ((marked.write row.identity (some (row.marked d.next d.now))).record s (.marked row d.next),
      .waking slot row d.next d.now d.statements (waiters (d.rows s) row.identity))
  | .waking slot row position _ _ [] => some (d, .done (some slot) (.processed row position))
  | .waking slot row position at_ statement (waiter :: found) =>
    (d.wake s row.identity waiter).map fun d => (d, .waking slot row position at_ statement found)
  | .failing slot row error permanent =>
    let attempts := row.attempts + 1
    let parked := o.parks permanent attempts
    some (d.write row.identity (some
        (row.failed error (begunAt + o.backoff attempts) (if parked then some begunAt else none))),
      .done (some slot) (.failed row attempts parked))
  | .handling _ _ | .done _ _ => none

/-- The subscriber succeeds. With one slot its mark takes no lock. -/
def succeed : Dispatching → Option (Database × Dispatching)
  | .handling slot row =>
    some (d.record s (.effects row), if 1 < o.slots then .identifying slot row else .marking slot row)
  | _ => none

end PgInbox

/-- The subscriber fails, and its writes are rolled back to its savepoint. -/
def Dispatching.fail (error : String) (permanent : Bool) : Dispatching → Option Dispatching
  | .handling slot row => some (.failing slot row error permanent)
  | _ => none

end AsceticDdd.Inbox
