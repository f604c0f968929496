import AsceticDdd.Postgres.Jsonb
import AsceticDdd.Postgres.Snapshot

/-!
# What the outbox stores

A producer sets a message's destination, payload and metadata; the table's row adds what the
database assigns. The positions of the consumer groups are snapshots, as PostgreSQL prints them.
-/

namespace AsceticDdd.Outbox

open Postgres Text

structure Message where
  uri : String
  payload : List UInt8
  metadata : Jsonb
deriving DecidableEq

/-- A row of the outbox's table: its order, its transaction, and when it was inserted. -/
structure Row extends Message where
  createdAt : String
  position : Int
  transactionId : Nat
deriving DecidableEq

/-- A snapshot as a process holds it: three numbers read from a text, in whatever order. -/
structure SnapshotText where
  xmin : Nat
  xmax : Nat
  xip : List Nat
deriving DecidableEq

namespace SnapshotText

def nothing : SnapshotText := ⟨1, 1, []⟩

def sees (s : SnapshotText) (xid : Nat) : Bool :=
  decide (xid < s.xmin) || (decide (xid < s.xmax) && !s.xip.contains xid)

/-- What `s` sees below `xid` and nothing from it on. -/
def below (s : SnapshotText) (xid : Nat) : SnapshotText where
  xmin := min s.xmin xid
  xmax := min s.xmax xid
  xip := s.xip.filter (· < xid)

def ofSnapshot (s : Snapshot) : SnapshotText := ⟨s.xmin, s.xmax, s.xip⟩

@[simp] theorem sees_ofSnapshot (s : Snapshot) (xid : Nat) : (ofSnapshot s).sees xid = s.visible xid :=
  rfl

end SnapshotText

/-- A generation of the ring an epoch found rows in, with the lowest and the highest of their
positions. -/
structure Generation where
  generation : Nat
  first : Int
  last : Int
deriving DecidableEq

/-- An epoch being handed on: the rows visible in its snapshot and not delivered, by position. Its
`endAt` is not known after a conversion, until a dispatcher computes it. -/
structure Epoch where
  snapshot : Snapshot
  offset : Int
  endAt : Option Int
  generations : List Generation
deriving DecidableEq

structure Position where
  delivered : Snapshot
  epoch : Option Epoch
deriving DecidableEq

/-- The largest `i64`. -/
def maxI64 : Int := 9223372036854775807

/-- A row of the positions' table, with the pair older binaries read. -/
structure PositionRow extends Position where
  lastProcessedTransactionId : Nat
  offsetAcked : Int
deriving DecidableEq

structure Selection where
  consumerGroup : String
  uri : String
deriving DecidableEq

inductive Move
  | start
  | fromId (xid : Nat)
  | now
deriving DecidableEq

end AsceticDdd.Outbox
