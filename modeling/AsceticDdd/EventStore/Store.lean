import Mathlib.Algebra.Group.Int.Defs
import Mathlib.Algebra.Group.Nat.Defs
import Mathlib.Logic.Function.Basic

/-!
# The event store

An append writes its events one by one, each after the one before it, and the primary key refuses a
position that is taken. Transactions run under READ COMMITTED: a load sees the committed rows and
its own, and an insert waits for a transaction that holds the same key. A refused statement aborts
its transaction, and takes its rows with it; an error on the client does not.
-/

namespace AsceticDdd.EventStore

-- Streams, events, payloads, and the bytes the table keeps.
variable {σ E V B : Type}

structure CausalDependency (σ : Type) where
  stream : σ
  streamPosition : Int

structure EventMeta (σ : Type) where
  eventId : Option String
  causationId : Option String
  correlationId : Option String
  reason : Option String
  occurredAt : Option String
  causalDependencies : List (CausalDependency σ)

structure Encoded (V : Type) where
  eventType : String
  eventVersion : Int
  payload : V

inductive Error (σ : Type)
  | concurrentUpdate (stream : σ) (position : Int)
  | dek
  | codec
  | format
  | database
  | malformed (what : String)

/-- The typed half of storage, and the bytes of a payload. -/
structure Codecs (σ E V B : Type) where
  format : E → Except (Error σ) (Encoded V)
  codec : V → Except (Error σ) B

/-- A row of the table. -/
structure Row (σ B : Type) where
  stream : σ
  streamPosition : Int
  eventType : String
  eventVersion : Int
  payload : B
  metadata : EventMeta σ

/-- The version column is `SMALLINT`. -/
def storedEventVersion (version : Int) : Except (Error σ) Int :=
  if -2 ^ 15 ≤ version ∧ version < 2 ^ 15 then .ok version
  else .error (.malformed s!"event version {version} does not fit the column")

/-- An append under way: what it was called with, and what it has written. -/
structure Job (σ E V B : Type) where
  stream : σ
  expected : Int
  eventMeta : EventMeta σ
  codecs : Codecs σ E V B
  remaining : List E
  causationId : Option String
  written : List (Row σ B)

/-- `expected + 1 + i as i32`, as it wraps. -/
def Job.position (job : Job σ E V B) : Int :=
  (job.expected + 1 + job.written.length).bmod (2 ^ 32)

/-- The row of the next event, or why it cannot be written. -/
def Job.row (job : Job σ E V B) (event : E) (eventId : String) : Except (Error σ) (Row σ B) := do
  let encoded ← job.codecs.format event
  let payload ← job.codecs.codec encoded.payload
  let eventVersion ← storedEventVersion encoded.eventVersion
  return {
    stream := job.stream
    streamPosition := job.position
    eventType := encoded.eventType
    eventVersion := eventVersion
    payload := payload
    metadata := { job.eventMeta with eventId := some eventId, causationId := job.causationId } }

/-- An append that returned Ok: its rows are the `Appended` it returned. -/
structure Appended (σ E B : Type) where
  stream : σ
  expected : Int
  eventMeta : EventMeta σ
  events : List E
  rows : List (Row σ B)

/-- A transaction: the last position it loaded of each stream, its rows, the append under way with
its events, the appends that returned Ok, and how many rows were left by those that did not. -/
structure Tx (σ E V B : Type) where
  loaded : σ → Option Int
  rows : List (Row σ B)
  job : Option (Job σ E V B × List E)
  appends : List (Appended σ E B)
  stray : Nat
  aborted : Bool

def Tx.fresh : Tx σ E V B := ⟨fun _ => none, [], none, [], 0, false⟩

/-- What a transaction committed. -/
structure Commit (σ E B : Type) where
  rows : List (Row σ B)
  appends : List (Appended σ E B)

/-- The table, the commits that made it, and the transactions, one at a time in each session. -/
structure World (σ E V B : Type) where
  table : List (Row σ B)
  history : List (Commit σ E B)
  txs : Nat → Tx σ E V B

inductive Action (σ E V B : Type)
  | load (tx : Nat) (stream : σ)
  /-- The codec for writing is had first, or not. -/
  | append (tx : Nat) (stream : σ) (events : List E) (eventMeta : EventMeta σ)
      (codecs : Except (Error σ) (Codecs σ E V B))
  /-- The append goes on with its next event, or returns. -/
  | next (tx : Nat) (eventId : String)
  /-- The server refuses a statement of the transaction: another constraint, a lock cycle. -/
  | refuse (tx : Nat)
  | commit (tx : Nat)
  | rollback (tx : Nat)

namespace World

def start : World σ E V B := ⟨[], [], fun _ => .fresh⟩

variable (w : World σ E V B) (i : Nat)

def setTx (tx : Tx σ E V B) : World σ E V B := { w with txs := Function.update w.txs i tx }

/-- The server aborts the transaction. -/
def abort : World σ E V B := w.setTx i { Tx.fresh with aborted := true }

variable [DecidableEq σ]

/-- The positions of a stream, in the order of the rows. -/
def positions (rows : List (Row σ B)) (stream : σ) : List Int :=
  (rows.filter (·.stream = stream)).map (·.streamPosition)

/-- The last position of a stream, as a load finds it. -/
def last (rows : List (Row σ B)) (stream : σ) : Int := (positions rows stream).foldl max 0

def load (stream : σ) : World σ E V B :=
  let tx := w.txs i
  if tx.aborted then w
  else w.setTx i { tx with loaded := Function.update tx.loaded stream (some (last (w.table ++ tx.rows) stream)) }

def append (stream : σ) (events : List E) (eventMeta : EventMeta σ) (codecs : Except (Error σ) (Codecs σ E V B)) :
    Option (World σ E V B) :=
  let tx := w.txs i
  match tx.job, tx.loaded stream, codecs with
  | none, some expected, .ok codecs =>
    some (w.setTx i { tx with job := some (⟨stream, expected, eventMeta, codecs, events, eventMeta.causationId, []⟩, events) })
  | none, some _, .error _ => some w
  | _, _, _ => none

/-- The append returns an error of the client: what it wrote stays. -/
def fail (job : Job σ E V B) : World σ E V B :=
  let tx := w.txs i
  w.setTx i { tx with job := none, stray := tx.stray + job.written.length }

/-- The insert waits while another transaction holds the key, and is refused if the key is taken. -/
def insert (job : Job σ E V B) (events : List E) (rest : List E) (row : Row σ B) : Option (World σ E V B) :=
  let tx := w.txs i
  if tx.aborted then some (w.abort i)
  else if row.streamPosition ∈ positions (w.table ++ tx.rows) row.stream then some (w.abort i)
  else
    some (w.setTx i { tx with
      rows := tx.rows ++ [row]
      job := some ({ job with
        remaining := rest
        causationId := row.metadata.eventId
        written := job.written ++ [row] }, events) })

def next (eventId : String) : Option (World σ E V B) :=
  let tx := w.txs i
  match tx.job with
  | none => none
  | some (job, events) =>
    match job.remaining with
    | [] =>
      some (w.setTx i { tx with
        job := none
        appends := tx.appends ++ [⟨job.stream, job.expected, job.eventMeta, events, job.written⟩] })
    | event :: rest =>
      match job.row event eventId with
      | .error _ => some (w.fail i job)
      | .ok row => w.insert i job events rest row

/-- An aborted transaction is rolled back. -/
def commit : Option (World σ E V B) :=
  let tx := w.txs i
  match tx.job with
  | some _ => none
  | none =>
    if tx.aborted then some (w.setTx i .fresh)
    else
      some { w.setTx i .fresh with
        table := w.table ++ tx.rows
        history := w.history ++ [⟨tx.rows, tx.appends⟩] }

def step : Action σ E V B → Option (World σ E V B)
  | .load i stream => some (w.load i stream)
  | .append i stream events eventMeta codecs => w.append i stream events eventMeta codecs
  | .next i eventId => w.next i eventId
  | .refuse i => some (w.abort i)
  | .commit i => w.commit i
  | .rollback i => some (w.setTx i .fresh)

/-- The row that the transaction writes next, if it does. -/
def nextRow (eventId : String) : Option (Row σ B) :=
  (w.txs i).job.bind fun job => job.1.remaining.head?.bind fun event => (job.1.row event eventId).toOption

/-- An insert waits for another transaction that holds its key. -/
def Free : Action σ E V B → Prop
  | .next i eventId => ∀ row, w.nextRow i eventId = some row →
      ∀ j, j ≠ i → row.streamPosition ∉ positions (w.txs j).rows row.stream
  | _ => True

/-- The runs whose every step `ok` allows. -/
inductive Run (ok : World σ E V B → Action σ E V B → Prop) : World σ E V B → Prop
  | start : Run ok start
  | step {w w' : World σ E V B} (action : Action σ E V B) :
    Run ok w → ok w action → w.Free action → w.step action = some w' → Run ok w'

end World

end AsceticDdd.EventStore
