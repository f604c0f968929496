import AsceticDdd.Concurrency.Interleaving
import AsceticDdd.Kms.Error
import Mathlib.Data.List.MinMax

/-!
# A cache of unwrapped keys

An unwrap looks into the cache, asks the service behind it, and keeps what that answered; a deletion and a
retirement go through the service and forget the tenant's keys. The service answers in between, and the
transaction of a deletion or a retirement ends after it.
-/

namespace AsceticDdd.Kms

open Interleaving

abbrev Bytes := List UInt8

structure Entry (K : Type) where
  key : K
  since : Nat
deriving DecidableEq

abbrev Entries (K : Type) := List ((String × Bytes) × Entry K)

structure Cached where
  capacity : Nat
  ttl : Nat

namespace Cached

variable {K : Type} (c : Cached) (now : Nat) (entries : Entries K)

/-- The key unwrapped for `tenantId` from `wrapped`, if still kept. -/
def get (tenantId : String) (wrapped : Bytes) : Option K :=
  match entries.lookup (tenantId, wrapped) with
  | some entry => if now - entry.since < c.ttl then some entry.key else none
  | none => none

/-- The oldest go until there is room for one more. -/
def makeRoom (capacity : Nat) : Nat → Entries K → Entries K
  | 0, entries => entries
  | fuel + 1, entries =>
    if capacity ≤ entries.length then
      match entries.argmin (·.2.since) with
      | some oldest => makeRoom capacity fuel (entries.filter (·.1 ≠ oldest.1))
      | none => entries
    else entries

/-- Keeps `key` as unwrapped for `tenantId` from `wrapped`, making room first. -/
def put (tenantId : String) (wrapped : Bytes) (key : K) : Entries K :=
  if c.capacity = 0 ∨ c.ttl = 0 then entries
  else
    let kept := entries.filter fun entry => now - entry.2.since < c.ttl
    ((tenantId, wrapped), ⟨key, now⟩) ::
      (makeRoom c.capacity kept.length kept).filter (·.1 ≠ (tenantId, wrapped))

def forget (tenantId : String) : Entries K := entries.filter (·.1.1 ≠ tenantId)

end Cached

/-- What has happened: the service unwrapped, and a key was put into the cache. -/
inductive Event (K : Type)
  | unwrapped (tenantId : String) (wrapped : Bytes) (key : K)
  | kept (tenantId : String) (wrapped : Bytes) (key : K) (at_ : Nat)

/-- The cache, and the versions of each tenant's KEK that committed transactions have deleted. -/
structure Cache (K V : Type) where
  now : Nat
  entries : Entries K
  deleted : String → List V
  log : List (Event K)

/-- A call between two steps. What it was answered with says whether the cache did. -/
inductive Calling (K V : Type)
  | idle
  | looking (tenantId : String) (wrapped : Bytes)
  | asking (tenantId : String) (wrapped : Bytes)
  | keeping (tenantId : String) (wrapped : Bytes) (key : K)
  | answered (tenantId : String) (wrapped : Bytes) (answer : Option K) (cached : Bool)
  | deleting (tenantId : String)
  | retiring (tenantId : String) (version : Nat)
  | forgetting (tenantId : String) (versions : List V)
  | returned (tenantId : String) (versions : List V)
deriving DecidableEq

inductive CacheAct (K V : Type)
  | decryptDek (tenantId : String) (wrapped : Bytes)
  | deleteKek (tenantId : String)
  | retireKekVersionsBefore (tenantId : String) (version : Nat)
  | look
  | unwrap (answer : Option K)
  | keep (order : Entries K)
  | done (versions : List V)
  | refused
  | forget
  | commit
  | rollback
  | tick (time : Nat)

/-- A service behind a cache. A key it unwraps is one of a version of the tenant's KEK. -/
structure Service (K V : Type) extends Cached where
  under : K → V

namespace Service

variable {K V : Type} [DecidableEq V] [DecidableEq K] (v : Service K V)

/-- A call's step. The service unwraps nothing under a version a committed transaction has deleted. A map is
gone through in any order. -/
def step (c : Cache K V) : Calling K V → CacheAct K V → Option (Cache K V × Calling K V)
  | p, .tick time => some ({ c with now := c.now + time }, p)
  | .idle, .decryptDek tenantId wrapped | .answered _ _ _ _, .decryptDek tenantId wrapped =>
    some (c, .looking tenantId wrapped)
  | .idle, .deleteKek tenantId | .answered _ _ _ _, .deleteKek tenantId => some (c, .deleting tenantId)
  | .idle, .retireKekVersionsBefore tenantId version
  | .answered _ _ _ _, .retireKekVersionsBefore tenantId version => some (c, .retiring tenantId version)
  | .looking tenantId wrapped, .look =>
    match v.get c.now c.entries tenantId wrapped with
    | some key => some (c, .answered tenantId wrapped (some key) true)
    | none => some (c, .asking tenantId wrapped)
  | .asking tenantId wrapped, .unwrap (some key) =>
    if v.under key ∈ c.deleted tenantId then none
    else some ({ c with log := c.log ++ [.unwrapped tenantId wrapped key] }, .keeping tenantId wrapped key)
  | .asking tenantId wrapped, .unwrap none => some (c, .answered tenantId wrapped none false)
  | .keeping tenantId wrapped key, .keep order =>
    if order.Perm c.entries then
      some ({ c with
        entries := v.put c.now order tenantId wrapped key
        log := c.log ++ [.kept tenantId wrapped key c.now] }, .answered tenantId wrapped (some key) false)
    else none
  | .deleting tenantId, .done versions => some (c, .forgetting tenantId versions)
  | .retiring tenantId _, .done versions => some (c, .forgetting tenantId versions)
  | .deleting _, .refused | .retiring _ _, .refused => some (c, .idle)
  | .forgetting tenantId versions, .forget =>
    some ({ c with entries := Cached.forget c.entries tenantId }, .returned tenantId versions)
  | .returned tenantId versions, .commit =>
    some ({ c with deleted :=
      Function.update c.deleted tenantId (c.deleted tenantId ++ versions) }, .idle)
  | _, .rollback => some (c, .idle)
  | _, _ => none

/-- The steps there are. -/
inductive Step (c : Cache K V) : Calling K V → CacheAct K V → Cache K V → Calling K V → Prop
  | tick (p : Calling K V) (time : Nat) : Step c p (.tick time) { c with now := c.now + time } p
  | begun {p next : Calling K V} {a : CacheAct K V} (hnext : (∃ tenantId wrapped, next = .looking tenantId wrapped) ∨
      (∃ tenantId, next = .deleting tenantId) ∨ ∃ tenantId version, next = .retiring tenantId version) :
      Step c p a c next
  | hit {tenantId : String} {wrapped : Bytes} {key : K} (hget : v.get c.now c.entries tenantId wrapped = some key) :
      Step c (.looking tenantId wrapped) .look c (.answered tenantId wrapped (some key) true)
  | missed {tenantId : String} {wrapped : Bytes} :
      Step c (.looking tenantId wrapped) .look c (.asking tenantId wrapped)
  | unwrapped {tenantId : String} {wrapped : Bytes} {key : K} (hlive : v.under key ∉ c.deleted tenantId) :
      Step c (.asking tenantId wrapped) (.unwrap (some key))
        { c with log := c.log ++ [.unwrapped tenantId wrapped key] } (.keeping tenantId wrapped key)
  | failed {tenantId : String} {wrapped : Bytes} :
      Step c (.asking tenantId wrapped) (.unwrap none) c (.answered tenantId wrapped none false)
  | kept {tenantId : String} {wrapped : Bytes} {key : K} {order : Entries K} (horder : order.Perm c.entries) :
      Step c (.keeping tenantId wrapped key) (.keep order)
        { c with
          entries := v.put c.now order tenantId wrapped key
          log := c.log ++ [.kept tenantId wrapped key c.now] } (.answered tenantId wrapped (some key) false)
  | deleted {p : Calling K V} {tenantId : String} {versions : List V} :
      Step c p (.done versions) c (.forgetting tenantId versions)
  | forgot {tenantId : String} {versions : List V} :
      Step c (.forgetting tenantId versions) .forget
        { c with entries := Cached.forget c.entries tenantId } (.returned tenantId versions)
  | committed {tenantId : String} {versions : List V} :
      Step c (.returned tenantId versions) .commit
        { c with deleted := Function.update c.deleted tenantId (c.deleted tenantId ++ versions) } .idle
  | ended {p : Calling K V} {a : CacheAct K V} : Step c p a c .idle

variable {v} in
theorem step_cases {c c' : Cache K V} {p p' : Calling K V} {a : CacheAct K V}
    (h : v.step c p a = some (c', p')) : v.Step c p a c' p' := by
  unfold step at h
  split at h
  · cases h; exact .tick _ _
  · cases h; exact .begun (Or.inl ⟨_, _, rfl⟩)
  · cases h; exact .begun (Or.inl ⟨_, _, rfl⟩)
  · cases h; exact .begun (Or.inr (Or.inl ⟨_, rfl⟩))
  · cases h; exact .begun (Or.inr (Or.inl ⟨_, rfl⟩))
  · cases h; exact .begun (Or.inr (Or.inr ⟨_, _, rfl⟩))
  · cases h; exact .begun (Or.inr (Or.inr ⟨_, _, rfl⟩))
  · split at h
    · rename_i hget
      cases h
      exact .hit hget
    · cases h; exact .missed
  · split at h
    · cases h
    · rename_i hlive
      cases h
      exact .unwrapped hlive
  · cases h; exact .failed
  · split at h
    · rename_i horder
      cases h
      exact .kept horder
    · cases h
  · cases h; exact .deleted
  · cases h; exact .deleted
  · cases h; exact .ended
  · cases h; exact .ended
  · cases h; exact .forgot
  · cases h; exact .committed
  · cases h; exact .ended
  · cases h

def program : Program (Cache K V) Nat (Calling K V) (CacheAct K V) where
  step c _ p a := v.step c p a

end Service

end AsceticDdd.Kms
