import AsceticDdd.Inbox.Frame

/-!
# What holds of the tables, and what a session knows

A session's assertion says which locks it holds, what it has made of the rows under them, and what it
has learnt of the others. None of it can be undone by another session's step.
-/

namespace AsceticDdd.Inbox

/-- Processed, parked, waiting or in the queue, and one of these. -/
structure Row.Stands (row : Row) : Prop where
  processed : row.processedPosition.isSome → row.parkedAt = none ∧ row.waitingFor = none
  parked : row.parkedAt.isSome → row.waitingFor = none
  stamped : row.processedAt.isSome ↔ row.processedPosition.isSome

/-- The identity has been marked processed, by a dispatch or by hand. -/
def Marked (log : List Event) (identity : CausalDependency) : Prop :=
  ∃ row position, row.identity = identity ∧ (.marked row position ∈ log ∨ .resolved row position ∈ log)

namespace Event

def isEffects (identity : CausalDependency) : Event → Bool
  | .effects row => row.identity = identity
  | _ => false

def isForgotten (identity : CausalDependency) : Event → Bool
  | .forgotten row => row.identity = identity
  | _ => false

end Event

/-- How often effects of an identity were committed since it was last forgotten, `n` times before. -/
def effectsSince (identity : CausalDependency) (n : Nat) : List Event → Nat
  | [] => n
  | e :: log => effectsSince identity
      (if e.isForgotten identity then 0 else if e.isEffects identity then n + 1 else n) log

theorem effectsSince_append (identity : CausalDependency) (n : Nat) (log journal : List Event) :
    effectsSince identity n (log ++ journal) =
      effectsSince identity (effectsSince identity n log) journal := by
  induction log generalizing n with
  | nil => rfl
  | cons e log ih => exact ih _

theorem effectsSince_le {identity : CausalDependency} {log : List Event}
    (h : ∀ e ∈ log, e.isEffects identity = false) (n : Nat) : effectsSince identity n log ≤ n := by
  induction log generalizing n with
  | nil => exact le_rfl
  | cons e log ih =>
    obtain ⟨he, h⟩ := List.forall_mem_cons.mp h
    simp only [effectsSince, he, Bool.false_eq_true, if_false]
    refine (ih h _).trans ?_
    split
    · exact Nat.zero_le n
    · exact le_rfl

theorem effectsSince_forgotten {identity : CausalDependency} {log : List Event}
    (h : ∀ e ∈ log, e.isEffects identity = false) {e : Event} (he : e ∈ log)
    (hforgotten : e.isForgotten identity) (n : Nat) : effectsSince identity n log = 0 := by
  induction log generalizing n with
  | nil => cases he
  | cons e' log ih =>
    obtain ⟨he', hlog⟩ := List.forall_mem_cons.mp h
    rcases List.mem_cons.mp he with rfl | he
    · simp only [effectsSince, hforgotten, if_true]
      exact Nat.le_zero.mp (effectsSince_le hlog 0)
    · exact ih hlog he _

structure Consistent (o : PgInbox) (d : Database) : Prop where
  unlocked : ∀ identity, (d.cells identity).lock = none → (d.cells identity).pending = none
  identity : ∀ identity row, d.committed identity = some row → row.identity = identity
  known : ∀ identity row, d.committed identity = some row → identity ∈ d.identities
  versions : ∀ identity row, (d.cells identity).pending = some (some row) →
    row.identity = identity ∧ identity ∈ d.identities
  stands : ∀ identity row, d.committed identity = some row → row.Stands
  waits : ∀ identity row dependency holder, d.committed identity = some row →
    row.waitingFor = some dependency → d.committed dependency = some holder →
      holder.processedPosition = none
  marked : ∀ identity row, d.committed identity = some row → row.processedPosition.isSome →
    Marked d.log identity
  causal : ∀ before row after, d.log = before ++ .effects row :: after →
    ∀ dependency ∈ o.dependencies row.toInboxMessage, Marked before dependency
  once : ∀ identity, effectsSince identity 0 d.log ≤
    if (d.committed identity).any (·.processedPosition.isSome) then 1 else 0

/-- The version of a row that was found waiting for `identity`, put back into the queue. -/
def Wakes (identity : CausalDependency) (before version : Option Row) : Prop :=
  ∃ row, before = some row ∧ row.waitingFor = some identity ∧ version = some row.woken

namespace Dispatching

def slot : Dispatching → Option Nat
  | .begun | .taking _ => none
  | .taken slot | .heading slot _ | .checking slot _ _ | .locking slot _ _ | .locked slot _ _
  | .handling slot _ | .identifying slot _ | .marking slot _ | .waking slot _ _ _ _ _
  | .failing slot _ _ _ => some slot
  | .done slot _ => slot

/-- The advisory lock it is known to hold. -/
def key (o : PgInbox) : Dispatching → Option (BitVec 32)
  | .locked _ _ dependency | .done _ (.setAside _ dependency) => some (o.lockKey dependency)
  | .marking _ row | .waking _ row _ _ _ _ | .done _ (.processed row _) =>
    if 1 < o.slots then some (o.lockKey row.identity) else none
  | _ => none

def journal : Dispatching → List Event
  | .identifying _ row | .marking _ row => [.effects row]
  | .waking _ row position _ _ _ | .done _ (.processed row position) =>
    [.effects row, .marked row position]
  | _ => []

/-- The head it holds. -/
def head : Dispatching → Option Row
  | .checking _ row _ | .locking _ row _ | .locked _ row _ | .handling _ row | .identifying _ row
  | .marking _ row | .waking _ row _ _ _ _ | .failing _ row _ _ | .done _ (.setAside row _)
  | .done _ (.processed row _) | .done _ (.failed row _ _) => some row
  | _ => none

/-- The head, and which of its dependencies are still to be looked at. -/
def left : Dispatching → Option (Row × List CausalDependency)
  | .checking _ row left => some (row, left)
  | .handling _ row | .identifying _ row | .marking _ row | .waking _ row _ _ _ _
  | .failing _ row _ _ | .done _ (.processed row _) | .done _ (.failed row _ _) => some (row, [])
  | _ => none

/-- The identity it has marked, with the waiting rows still to be woken. -/
def marks : Dispatching → Option (CausalDependency × List Row)
  | .waking _ row _ _ _ found => some (row.identity, found)
  | .done _ (.processed row _) => some (row.identity, [])
  | _ => none

/-- The dependency it has set its head aside for. -/
def awaits : Dispatching → Option CausalDependency
  | .done _ (.setAside _ dependency) => some dependency
  | _ => none

/-- The versions it may have made of the rows it holds. -/
def Writes (before version : Option Row) : Dispatching → Prop
  | .waking _ row position _ _ _ | .done _ (.processed row position) =>
    before = some row ∧ (∃ at_, version = some (row.marked position at_)) ∨
      Wakes row.identity before version
  | .done _ (.setAside row dependency) =>
    before = some row ∧ ∃ at_, version = some (row.waiting dependency at_)
  | .done _ (.failed row _ _) =>
    before = some row ∧ ∃ error next parkedAt, version = some (row.failed error next parkedAt)
  | _ => False

/-- The version it has made of its head. -/
def Wrote (version : Option (Option Row)) : Dispatching → Prop
  | .waking _ row position _ _ _ | .done _ (.processed row position) =>
    ∃ at_, version = some (some (row.marked position at_))
  | .done _ (.setAside row dependency) =>
    ∃ at_, version = some (some (row.waiting dependency at_))
  | _ => True

end Dispatching

namespace Process

def slot : Process → Option Nat
  | .dispatcher _ p => p.slot
  | _ => none

def key (o : PgInbox) : Process → Option (BitVec 32)
  | .dispatcher _ p => p.key o
  | .resolver identity .locked | .resolver identity (.claiming _ _ _ _)
  | .resolver identity (.waking _ _ _ _ _) | .resolver identity (.done (some _)) =>
    some (o.lockKey identity)
  | _ => none

def journal : Process → List Event
  | .dispatcher _ p => p.journal
  | .resolver _ (.waking row position _ _ _) | .resolver _ (.done (some (row, position))) =>
    [.resolved row position]
  | .sweeper _ _ _ (.deleting _ gone) | .sweeper _ _ _ (.done gone) => gone.map .forgotten
  | _ => []

/-- The row it holds. -/
def head : Process → Option Row
  | .dispatcher _ p => p.head
  | .resolver _ (.waking row _ _ _ _) | .resolver _ (.done (some (row, _))) => some row
  | _ => none

/-- How the row it holds stands. -/
def Stands (o : PgInbox) (row : Row) : Process → Prop
  | .dispatcher _ p => row.Queued ∧ p.slot = some (o.slotOf row.toInboxMessage)
  | .resolver identity _ => row.parkedAt.isSome ∧ row.identity = identity
  | _ => True

def left : Process → Option (Row × List CausalDependency)
  | .dispatcher _ p => p.left
  | _ => none

def marks : Process → Option (CausalDependency × List Row)
  | .dispatcher _ p => p.marks
  | .resolver identity (.claiming _ _ _ found) | .resolver identity (.waking _ _ _ _ found) =>
    some (identity, found)
  | .resolver identity (.done (some _)) => some (identity, [])
  | _ => none

def awaits : Process → Option CausalDependency
  | .dispatcher _ p => p.awaits
  | _ => none

def Writes (before version : Option Row) : Process → Prop
  | .publisher (.done (.stored position)) =>
    before = none ∧ ∃ message, version = some (.received message position)
  | .expirer _ _ _ => ∃ row error at_, before = some row ∧ row.waitingFor.isSome ∧
      version = some (row.expired error at_)
  | .dispatcher _ p => p.Writes before version
  | .resolver identity (.waking row position _ _ _)
  | .resolver identity (.done (some (row, position))) =>
    before = some row ∧ (∃ at_, version = some (row.resolved position at_)) ∨
      Wakes identity before version
  | .unparker _ (.done true) =>
    ∃ row, before = some row ∧ row.parkedAt.isSome ∧ version = some row.unparked
  | .sweeper _ _ _ (.deleting _ gone) | .sweeper _ _ _ (.done gone) =>
    ∃ row ∈ gone, before = some row ∧ version = none
  | _ => False

def Wrote (version : Option (Option Row)) : Process → Prop
  | .dispatcher _ p => p.Wrote version
  | .resolver _ (.waking row position _ _ _) | .resolver _ (.done (some (row, position))) =>
    ∃ at_, version = some (some (row.resolved position at_))
  | _ => True

/-- The slots found are the inbox's, and a row found by its identity is of that identity. -/
def Named (o : PgInbox) : Process → Prop
  | .dispatcher _ (.taking due) => ∀ slot ∈ due, slot < o.slots
  | .resolver identity (.claiming row _ _ _) | .unparker identity (.claiming row) =>
    row.identity = identity
  | _ => True

/-- The order of arrival a publisher has drawn. -/
def draws : Process → Option Nat
  | .publisher (.drawn _ position) | .publisher (.done (.stored position)) => some position
  | _ => none

/-- The rows a sweep has locked to forget them, those deleted included. -/
def sweeps : Process → List Row
  | .sweeper _ _ _ (.locking _ _ locked) => locked
  | .sweeper _ _ _ (.deleting locked gone) => locked ++ gone
  | .sweeper _ _ _ (.done gone) => gone
  | _ => []

end Process

structure Ok (o : PgInbox) (d : Database) (s : Nat) (p : Process) : Prop where
  slot : ∀ slot, p.slot = some slot → (d.slots slot).lock = some s ∧ slot < o.slots
  key : ∀ key, p.key o = some key → d.advisory key = some s
  journal : d.journal s = p.journal
  head : ∀ row, p.head = some row → (d.cells row.identity).lock = some s ∧
    d.committed row.identity = some row ∧ p.Stands o row ∧ p.Wrote (d.cells row.identity).pending
  writes : ∀ identity version, (d.cells identity).lock = some s →
    (d.cells identity).pending = some version → p.Writes (d.committed identity) version
  checked : ∀ row left, p.left = some (row, left) →
    ∀ dependency ∈ o.dependencies row.toInboxMessage, dependency ∈ left ∨ Marked d.log dependency
  covered : ∀ marked found, p.marks = some (marked, found) → ∀ identity row,
    d.committed identity = some row → row.waitingFor = some marked → row ∈ found ∨
      (d.cells identity).lock = some s ∧ (d.cells identity).pending = some (some row.woken)
  unmarked : ∀ dependency, p.awaits = some dependency → ∀ holder,
    d.committed dependency = some holder → holder.processedPosition = none
  named : p.Named o
  sweeps : ∀ row ∈ p.sweeps, (d.cells row.identity).lock = some s ∧
    d.committed row.identity = some row ∧ row.processedPosition.isSome

variable {o : PgInbox} {d d' : Database} {s : Nat} {p : Process}

/-- A later version of a committed row is of its identity. -/
theorem Consistent.version (h : Consistent o d) {identity : CausalDependency} {row latest : Row}
    {version : Option Row} (hcommitted : d.committed identity = some row)
    (hversion : version = some latest) (hidentity : latest.identity = row.identity) (row' : Row)
    (hrow : version = some row') : row'.identity = identity ∧ identity ∈ d.identities := by
  cases hversion.symm.trans hrow
  exact ⟨hidentity.trans (h.identity _ _ hcommitted), h.known _ _ hcommitted⟩

/-- What holds of the tables holds of them while a transaction is at work. -/
theorem Consistent.works (h : Consistent o d) (hworks : Works s d d') : Consistent o d' where
  unlocked identity hlock := by
    have heq := hworks.free identity hlock
    rw [heq]
    exact h.unlocked identity (heq ▸ hlock)
  identity identity row hrow := h.identity identity row (hworks.committed identity ▸ hrow)
  known identity row hrow :=
    hworks.identities identity (h.known identity row (hworks.committed identity ▸ hrow))
  versions identity row hrow := (hworks.versions identity row hrow).elim
    (fun hrow => (h.versions identity row hrow).imp_right (hworks.identities identity)) id
  stands identity row hrow := h.stands identity row (hworks.committed identity ▸ hrow)
  waits identity row dependency holder hrow hwaits hholder :=
    h.waits identity row dependency holder (hworks.committed identity ▸ hrow) hwaits
      (hworks.committed dependency ▸ hholder)
  marked identity row hrow hprocessed := by
    rw [hworks.log]
    exact h.marked identity row (hworks.committed identity ▸ hrow) hprocessed
  causal := by
    rw [hworks.log]
    exact h.causal
  once identity := by
    rw [hworks.log, hworks.committed]
    exact h.once identity

/-- The assertion of a session that holds no row of its own and has learnt nothing. -/
theorem Ok.quiet (hslot : ∀ slot, p.slot = some slot → (d.slots slot).lock = some s ∧ slot < o.slots)
    (hkey : p.key o = none) (hjournal : d.journal s = p.journal) (hhead : p.head = none)
    (hwrites : ∀ identity version, (d.cells identity).lock = some s →
      (d.cells identity).pending = some version → p.Writes (d.committed identity) version)
    (hleft : p.left = none) (hmarks : p.marks = none) (hawaits : p.awaits = none) (hnamed : p.Named o)
    (hsweeps : p.sweeps = []) : Ok o d s p where
  slot := hslot
  key _ h := nomatch hkey.symm.trans h
  journal := hjournal
  head _ h := nomatch hhead.symm.trans h
  writes := hwrites
  checked _ _ h := nomatch hleft.symm.trans h
  covered _ _ h := nomatch hmarks.symm.trans h
  unmarked _ h := nomatch hawaits.symm.trans h
  named := hnamed
  sweeps _ h := nomatch hsweeps ▸ h

/-- Of a row it holds and has not changed, a session sees the committed version. -/
theorem Ok.seen (h : Ok o d s p) (hp : ∀ before version, ¬p.Writes before version)
    (identity : CausalDependency) : d.seen s identity = d.committed identity := by
  apply Database.seen_of_unchanged
  intro hlock
  cases hpending : (d.cells identity).pending with
  | none => rfl
  | some version => exact absurd (h.writes identity version hlock hpending) (hp _ _)

/-- Whoever has marked an identity, or marks it by hand, waits for no other that sets a row aside for
it: either the lock on the identity or the only slot is between them. -/
theorem Ok.excludes {t : Nat} {marked : CausalDependency} {found : List Row}
    (h : Ok o d s p) (hmarks : p.marks = some (marked, found))
    (hkey : d.advisory (o.lockKey marked) = some t) (hslot : ∃ slot < o.slots, (d.slots slot).lock = some t) :
    t = s := by
  have hadvisory : p.key o = some (o.lockKey marked) → t = s := by
    intro hp
    have := h.key _ hp
    rw [hkey] at this
    exact Option.some.inj this
  cases p with
  | dispatcher begunAt p =>
    by_cases hslots : 1 < o.slots
    · apply hadvisory
      cases p with
      | waking => cases hmarks; exact if_pos hslots
      | done slot outcome => cases outcome <;> cases hmarks; exact if_pos hslots
      | _ => cases hmarks
    · obtain ⟨slot, hlt, hlock⟩ := hslot
      have hown : ∀ slot', Process.slot (.dispatcher begunAt p) = some slot' → t = s := by
        intro slot' hslot'
        obtain ⟨hlock', hlt'⟩ := h.slot slot' hslot'
        have heq : slot = slot' := by omega
        subst heq
        exact Option.some.inj (hlock.symm.trans hlock')
      cases p with
      | waking slot' => exact hown slot' rfl
      | done slot' outcome =>
        cases outcome with
        | processed row position => exact hown _ (h.head row rfl).2.2.1.2
        | _ => cases hmarks
      | _ => cases hmarks
  | resolver identity p =>
    apply hadvisory
    cases p with
    | claiming => cases hmarks; rfl
    | waking => cases hmarks; rfl
    | done resolved => cases resolved <;> cases hmarks; rfl
    | _ => cases hmarks
  | _ => cases hmarks

end AsceticDdd.Inbox
