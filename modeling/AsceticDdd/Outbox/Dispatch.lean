import AsceticDdd.Outbox.Database

/-!
# The dispatcher

One transaction, statement by statement: the look that takes a slot, the epoch's start, the
batch, the subscriber's calls, the acknowledgement. The first contact of a selection creates its
position rows in between.
-/

namespace AsceticDdd.Outbox

open Postgres

/-- Creating a selection's position rows: the reclamation's key, shared; the statement's snapshot
and what it reads under it; its rows, one at a time. -/
inductive Ensuring
  | hold
  | read
  | insert (rows : List (Nat × Snapshot))

/-- What a look read under its snapshot. -/
structure Look where
  names : Finset Nat
  now : Snapshot
  rows : List Row
  candidates : List Nat
  known : Bool
  refused : Option String
  reset : Bool

inductive Dispatching
  | begun (again : Bool)
  | named (again : Bool) (names : Finset Nat)
  | looked (again : Bool) (look : Look)
  | contacting (ensuring : Ensuring)
  | taken (slot : Nat) (row : PositionRow)
  | snapped (slot : Nat) (row : PositionRow) (epoch : Snapshot)
  | ready (slot : Nat) (row : PositionRow) (epoch : Epoch)
  | handing (slot : Nat) (row : PositionRow) (epoch : Epoch) (batch rest : List Row)
  | done
  | refusing

/-- Where a slot's new position starts: a lane where its group's selection of everything stands, any
other at the beginning the ring still holds. -/
def Database.startOf (d : Database) (s : Nat) (selection : Selection) (slot : Nat) :
    Option Snapshot :=
  let everything :=
    if selection.uri ≠ "" then (d.cells ⟨selection.consumerGroup, "", slot⟩).seenBy s else none
  match everything with
  | some row => some row.delivered
  | none => freshStart d.metaRow.intactFrom (d.snapshot s)

namespace PgOutbox

variable (o : PgOutbox) (d : Database) (s : Nat) (selection : Selection)

/-- A statement of `ensure_positions`: none for the next when all of it is done. -/
def ensurePositions : Ensuring → Option (Database × Option Ensuring)
  | .hold => (d.reclamationKey.lockShared s).map fun key =>
      ({ d with reclamationKey := key }, some .read)
  | .read => ((List.range o.slots).mapM fun slot =>
      (d.startOf s selection slot).map fun start => (slot, start)).map fun rows =>
        (d, some (.insert rows))
  | .insert [] => some (d, none)
  | .insert ((slot, start) :: rest) =>
    (d.createCell s (.of selection slot) start).map fun d => (d, some (.insert rest))

/-- The generations a look names, worked out from the selection's positions. -/
def lookNames : Finset Nat :=
  (List.range o.slots).foldl (fun names slot =>
    match (d.cells (.of selection slot)).seenBy s with
    | some row => if row.epoch.isNone then
        names ∪ o.ring.generationsNew (.ofSnapshot row.delivered) (.ofSnapshot (d.snapshot s))
      else names
    | none => names) ∅

def look (names : Finset Nat) : Look where
  names := names
  now := d.snapshot s
  rows := d.visibleRows s
  candidates := (List.range o.slots).filter fun slot =>
    match (d.cells (.of selection slot)).seenBy s with
    | some row => o.hasWork (d.visibleRows s) names (d.snapshot s) slot row.toPosition
    | none => false
  known := (List.range o.slots).any fun slot =>
    ((d.cells (.of selection slot)).seenBy s).isSome
  refused := d.metaRow.refused
  reset := d.reset s

/-- The row a look takes: one it found with work, read again as last committed. A look skips the
rows other sessions hold, and may find none left. -/
def takeSlot (look : Look) (slot : Nat) : Option (Database × PositionRow) :=
  if slot ∈ look.candidates then
    (d.lockCell s (.of selection slot)).filter fun taken =>
      o.hasWork look.rows look.names look.now slot taken.2.toPosition
  else none

/-- What follows a look that took `taken`. -/
def afterTake (d : Database) (again : Bool) (look : Look) (taken : Option (Nat × PositionRow)) :
    Database × Dispatching :=
  if !look.known && !again then (d, .contacting .hold)
  else if look.refused.isSome then (d, .refusing)
  else if look.reset then (d.refuse counterReset, .refusing)
  else match taken with
    | none => (d, .done)
    | some (slot, row) => (d, .taken slot row)

def take (again : Bool) (look : Look) : Option Nat → Option (Database × Dispatching)
  | none => some (afterTake d again look none)
  | some slot => (o.takeSlot d s selection look slot).map fun taken =>
      afterTake taken.1 again look (some (slot, taken.2))

/-- The epoch a start makes: one converted keeps its offset, a new one begins below its first
row. None when a new epoch has nothing of the selection's. -/
def epochOf (start : Start) : Option Int → Option Epoch
  | some offset => some
      { snapshot := start.epoch
        offset
        endAt := some (start.last.elim offset (max · offset))
        generations := start.generations }
  | none => match start.first, start.last with
    | some first, some last => some
        { snapshot := start.epoch
          offset := first - 1
          endAt := some last
          generations := start.generations }
    | _, _ => none

/-- The acknowledgement of a batch: a short one leaves nothing of the epoch. -/
def ackBatch (row : PositionRow) (epoch : Epoch) (batch : List Row) (limit : Nat) : PositionRow :=
  if batch.length < limit then row.ack (some epoch.snapshot) none
  else row.ack none (some { epoch with offset := (batch.getLast?.map (·.position)).getD epoch.offset })

/-- The next statement, or the next call of the subscriber, of a dispatch of at most `limit` rows. -/
def dispatch (limit : Nat) : Dispatching → Option (Database × Dispatching)
  | .begun again => some (d, .named again (o.lookNames d s selection))
  | .named again names => some (d, .looked again (o.look d s selection names))
  | .contacting ensuring => (o.ensurePositions d s selection ensuring).map fun r =>
      (r.1, r.2.elim (.begun true) .contacting)
  | .taken slot row => match row.epoch with
    | none => some (d, .snapped slot row (d.snapshot s))
    | some epoch => match epoch.endAt with
      | some _ => some (d, .ready slot row epoch)
      | none => (epochOf (o.startEpoch (d.visibleRows s) (.of selection slot) row.delivered
          epoch.snapshot) (some epoch.offset)).map fun epoch => (d, .ready slot row epoch)
  | .snapped slot row now =>
    let start := o.startEpoch (d.visibleRows s) (.of selection slot) row.delivered now
    match epochOf start none with
    | some epoch => some (d, .ready slot row epoch)
    | none => some (d.acknowledge (.of selection slot) (row.ack (some start.epoch) none), .done)
  | .ready slot row epoch =>
    let batch := o.readBatch (d.visibleRows s) (.of selection slot) epoch row.delivered limit
    some (d, .handing slot row epoch batch batch)
  | .handing slot row epoch batch (message :: rest) =>
    some (d.call (.of selection slot) message, .handing slot row epoch batch rest)
  | .handing slot row epoch batch [] =>
    some (d.acknowledge (.of selection slot) (ackBatch row epoch batch limit), .done)
  | .looked _ _ | .done | .refusing => none

end PgOutbox

end AsceticDdd.Outbox
