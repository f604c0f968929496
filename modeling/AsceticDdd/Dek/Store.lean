import AsceticDdd.Concurrency.Interleaving
import AsceticDdd.Kms.Keyring
import Mathlib.Algebra.Group.Int.Defs
import Mathlib.Algebra.Group.Nat.Defs

/-!
# The keys of a tenant's resources

A resource's key is made on first contact, wrapped by the tenant's current key, in a transaction that ends at
any later time. A custodian rotates the tenant's key, wraps the resources' keys again, and retires the versions
before the new one, in a transaction each. All are interleaved statement by statement.
-/

namespace AsceticDdd.Dek

open Kms Interleaving

structure Resource where
  kind : String
  id : String
deriving DecidableEq

/-- A row: a version of a resource's key, wrapped under a row of the tenant's key. -/
structure Stored where
  resource : Resource
  version : Nat
  kek : Kek
deriving DecidableEq

/-- The tenant's tables. -/
structure Tables where
  ring : Keyring
  deks : List Stored
  inserted : Nat → Option Stored
  rewrapped : Nat → List Stored
  locks : BitVec 32 → Option Nat

structure PgDekStore where
  tenantId : String
  managedKeys : Bool
  /-- `hashtext` of the resource. -/
  lockKey : Resource → BitVec 32

/-- A row as a transaction that has wrapped some again sees it. -/
def Stored.updated (dek : Stored) (rewrapped : List Stored) : Stored :=
  (rewrapped.find? fun other => other.resource = dek.resource ∧ other.version = dek.version).getD dek

namespace Tables

variable (t : Tables) (s : Nat)

def seen : List Stored := t.deks.map (·.updated (t.rewrapped s)) ++ (t.inserted s).toList

/-- The resource's row of the highest version. -/
def latest (resource : Resource) : Option Stored :=
  ((t.seen s).filter (·.resource = resource)).argmax (·.version)

def lockResource (key : BitVec 32) : Option Tables :=
  if t.locks key = none ∨ t.locks key = some s then
    some { t with locks := Function.update t.locks key (some s) }
  else none

def insert (dek : Stored) : Tables := { t with inserted := Function.update t.inserted s (some dek) }

def update (dek : Stored) : Tables :=
  { t with rewrapped := Function.update t.rewrapped s (dek :: t.rewrapped s) }

/-- The end of a transaction. -/
def finish (commits : Bool) : Tables where
  ring := t.ring.finish s commits
  deks := if commits then t.seen s else t.deks
  inserted := Function.update t.inserted s none
  rewrapped := Function.update t.rewrapped s []
  locks key := if t.locks key = some s then none else t.locks key

end Tables

/-- A `get_or_create` between two statements, in a transaction. -/
inductive Creating
  | looking (resource : Resource)
  | locking (resource : Resource)
  | locked (resource : Resource)
  | generating (resource : Resource) (g : Getting)
  | inserting (resource : Resource) (kek : Kek)
  | unwrapping (dek : Stored)
  | done (answer : Except Error Stored)
deriving DecidableEq

/-- The custodian's three transactions, one after another: `version` is what the first was answered. -/
inductive Maintaining
  | rotating
  | rotationLocked
  | rotationInserting (version : Nat)
  | rotated (version : Nat)
  | rewrapping (version : Nat)
  | reading (version : Nat) (left : List Stored)
  | wrapping (version : Nat) (dek : Stored) (left : List Stored) (g : Getting)
  | updating (version : Nat) (dek : Stored) (kek : Kek) (left : List Stored)
  | rewrapped (version : Nat)
  | retiring (version : Nat)
  | retirementLocked (version : Nat)
  | retirementChecked (version : Nat)
  | retirementDeleting (version : Nat) (found : List Kek)
  | retired (version : Nat)
  | finished (version : Nat)
deriving DecidableEq

inductive Process
  | idle
  | creating (c : Creating)
  | maintaining (m : Maintaining)
deriving DecidableEq

inductive Act
  | getOrCreate (resource : Resource)
  | next
  | commit
  | crash
deriving DecidableEq

namespace PgDekStore

variable (o : PgDekStore) (t : Tables) (s : Nat)

def missing : Error := .kekNotFound o.tenantId none

/-- A statement of `get_or_create`. -/
def create : Creating → Option (Tables × Creating)
  | .looking resource =>
    match t.latest s resource with
    | some dek => some (t, .unwrapping dek)
    | none => some (t, .locking resource)
  | .locking resource => (t.lockResource s (o.lockKey resource)).map fun t => (t, .locked resource)
  | .locked resource =>
    match t.latest s resource with
    | some dek => some (t, .unwrapping dek)
    | none => some (t, .generating resource .current)
  | .generating resource g =>
    (getOrCreateCurrentKek o.managedKeys o.missing t.ring s g).map fun r =>
      ({ t with ring := r.1 }, match r.2 with
        | .inl g => .generating resource g
        | .inr (.ok kek) => .inserting resource kek
        | .inr (.error error) => .done (.error error))
  | .inserting resource kek => some (t.insert s ⟨resource, 1, kek⟩, .done (.ok ⟨resource, 1, kek⟩))
  | .unwrapping dek =>
    if dek.kek ∈ t.ring.seen s then some (t, .done (.ok dek))
    else some (t, .done (.error (.kekNotFound o.tenantId (some dek.kek.version))))
  | .done _ => none

/-- The transaction a custodian's statement belongs to, from its beginning. -/
def restart : Maintaining → Maintaining
  | .rotating | .rotationLocked | .rotationInserting _ | .rotated _ => .rotating
  | .rewrapping version | .reading version _ | .wrapping version _ _ _ | .updating version _ _ _
  | .rewrapped version => .rewrapping version
  | .retiring version | .retirementLocked version | .retirementChecked version
  | .retirementDeleting version _ | .retired version => .retiring version
  | .finished version => .finished version

/-- A statement of the custodian. One that fails ends its transaction, which is begun again. -/
def maintain (m : Maintaining) : Option (Tables × Maintaining) :=
  let fails := some (t.finish s false, restart m)
  match m with
  | .rotating => (t.ring.lockKey s).map fun ring => ({ t with ring := ring }, .rotationLocked)
  | .rotationLocked =>
    match currentKek (t.ring.seen s) with
    | some kek => if kek.version + 1 < 2 ^ 31 then some (t, .rotationInserting (kek.version + 1)) else fails
    | none => fails
  | .rotationInserting version => some ({ t with ring := t.ring.insert s version }, .rotated version)
  | .rewrapping version => some (t, .reading version (t.seen s))
  | .reading version [] => some (t, .rewrapped version)
  | .reading version (dek :: left) =>
    if dek.kek ∈ t.ring.seen s then some (t, .wrapping version dek left .current) else fails
  | .wrapping version dek left g =>
    match getOrCreateCurrentKek o.managedKeys o.missing t.ring s g with
    | some (ring, .inl g) => some ({ t with ring := ring }, .wrapping version dek left g)
    | some (ring, .inr (.ok kek)) => some ({ t with ring := ring }, .updating version dek kek left)
    | some (_, .inr (.error _)) => fails
    | none => none
  | .updating version dek kek left => some (t.update s { dek with kek := kek }, .reading version left)
  | .retiring version => (t.ring.lockKey s).map fun ring => ({ t with ring := ring }, .retirementLocked version)
  | .retirementLocked version =>
    match latestVersion (t.ring.seen s) with
    | some latest => if latest < version then fails else some (t, .retirementChecked version)
    | none => fails
  | .retirementChecked version =>
    some (t, .retirementDeleting version ((t.ring.seen s).filter (·.version < version)))
  | .retirementDeleting version (row :: found) =>
    (t.ring.delete s row).map fun ring => ({ t with ring := ring }, .retirementDeleting version found)
  | .retirementDeleting version [] => some (t, .retired version)
  | .rotated _ | .rewrapped _ | .retired _ | .finished _ => none

end PgDekStore

/-- Where a committed transaction of the custodian leads. -/
def Maintaining.committed : Maintaining → Option Maintaining
  | .rotated version => some (.rewrapping version)
  | .rewrapped version => some (.retiring version)
  | .retired version => some (.finished version)
  | _ => none

namespace PgDekStore

variable (o : PgDekStore) (t : Tables) (s : Nat)

def step : Process → Act → Option (Tables × Process)
  | .idle, .getOrCreate resource => some (t, .creating (.looking resource))
  | .creating c, .next => (o.create t s c).map fun r => (r.1, .creating r.2)
  | .creating (.done (.ok _)), .commit => some (t.finish s true, .idle)
  | .creating _, .crash => some (t.finish s false, .idle)
  | .maintaining m, .next => (o.maintain t s m).map fun r => (r.1, .maintaining r.2)
  | .maintaining m, .commit => m.committed.map fun m => (t.finish s true, .maintaining m)
  | .maintaining m, .crash => some (t.finish s false, .maintaining (restart m))
  | _, _ => none

def program : Program Tables Nat Process Act where
  step t s p a := o.step t s p a

end PgDekStore

abbrev World := Interleaving.World Tables Nat Process

/-- Committed rows, one custodian, and nobody at work. -/
def beginning (keks : List Kek) (deks : List Stored) (next : Nat) : World :=
  ⟨⟨⟨keks, fun _ => none, fun _ => none, none, next⟩, deks, fun _ => none, fun _ => [], fun _ => none⟩,
    Function.update (fun _ => .idle) 0 (.maintaining .rotating)⟩

end AsceticDdd.Dek
