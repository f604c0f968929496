import AsceticDdd.Concurrency.WaitsFor
import AsceticDdd.Inbox.Numbering

/-!
# Who waits for whom

A statement that cannot go on waits for one lock, which another session holds.
-/

namespace AsceticDdd.Inbox

open Database

/-- The inbox's locks a statement waits for. A slot's row is taken with `SKIP LOCKED`. -/
inductive Lock
  | row (identity : CausalDependency)
  | advisory (key : BitVec 32)
deriving DecidableEq

def Lock.HeldBy (d : Database) (s : Nat) : Lock → Prop
  | .row identity => (d.cells identity).lock = some s
  | .advisory key => d.advisory key = some s

/-- A row found is still there to be locked. -/
def Database.There (d : Database) (s : Nat) (row : Row) : Prop :=
  (d.seen s row.identity).any (·.receivedPosition = row.receivedPosition)

namespace PgInbox

variable (o : PgInbox) (d : Database) (s : Nat)

/-- A lock the next statement of a session goes for. -/
inductive Wants : Process → Lock → Prop
  | heading {begunAt slot : Nat} {row : Row} {found : List Row} (hthere : d.There s row) :
      Wants (.dispatcher begunAt (.heading slot (row :: found))) (.row row.identity)
  | locking {begunAt slot : Nat} {row : Row} {dependency : CausalDependency} :
      Wants (.dispatcher begunAt (.locking slot row dependency)) (.advisory (o.lockKey dependency))
  | identifying {begunAt slot : Nat} {row : Row} :
      Wants (.dispatcher begunAt (.identifying slot row)) (.advisory (o.lockKey row.identity))
  | waking {begunAt slot position at_ statement : Nat} {row waiter : Row} {found : List Row}
      (hthere : d.There s waiter) :
      Wants (.dispatcher begunAt (.waking slot row position at_ statement (waiter :: found)))
        (.row waiter.identity)
  | resolving {identity : CausalDependency} :
      Wants (.resolver identity .begun) (.advisory (o.lockKey identity))
  | claiming {identity : CausalDependency} {at_ statement : Nat} {row : Row} {found : List Row}
      (hthere : d.There s row) :
      Wants (.resolver identity (.claiming row at_ statement found)) (.row row.identity)
  | wakingResolved {identity : CausalDependency} {position at_ statement : Nat} {row waiter : Row}
      {found : List Row} (hthere : d.There s waiter) :
      Wants (.resolver identity (.waking row position at_ statement (waiter :: found)))
        (.row waiter.identity)
  | unparking {identity : CausalDependency} {row : Row} (hthere : d.There s row) :
      Wants (.unparker identity (.claiming row)) (.row row.identity)
  | publishing {message : InboxMessage} {position : Nat} {identity : CausalDependency}
      (hmeets : identity ∈ o.meets d message) (hchanging : d.changing s identity) :
      Wants (.publisher (.drawn message position)) (.row identity)

/-- Session `s` waits for a lock session `t` holds. -/
def Waits (w : World) (s t : Nat) : Prop :=
  t ≠ s ∧ ∃ lock, o.Wants w.shared s (w.procs s) lock ∧ lock.HeldBy w.shared t

end PgInbox

/-- A session between statements that will not go on by itself: the subscriber is at work, or the
transaction is to end. -/
def Process.Rests : Process → Prop
  | .idle | .expirer _ _ [] | .publisher .refused | .publisher (.done _) | .dispatcher _ (.handling _ _)
  | .dispatcher _ (.done _ _) | .resolver _ (.done _) | .unparker _ (.done _) | .sweeper _ _ _ (.done _) =>
    True
  | _ => False

variable {o : PgInbox} {d : Database} {s : Nat} {p : Process}

theorem claim_eq_none {row : Row} (h : d.claim s row = none) :
    d.There s row ∧ ∃ t, t ≠ s ∧ (Lock.row row.identity).HeldBy d t := by
  simp only [claim] at h
  split at h
  · rename_i latest hseen
    split at h
    · cases h
    rename_i hposition
    split at h
    · cases h
    rename_i hlock
    refine ⟨by simpa [There, seen, hseen] using hposition, ?_⟩
    obtain ⟨hlocked, hother⟩ := not_or.mp hlock
    obtain ⟨t, ht⟩ := Option.ne_none_iff_exists'.mp hlocked
    exact ⟨t, fun heq => hother (heq ▸ ht), ht⟩
  · cases h

theorem lockIdentity_eq_none {key : BitVec 32} (h : d.lockIdentity s key = none) :
    ∃ t, t ≠ s ∧ (Lock.advisory key).HeldBy d t := by
  simp only [lockIdentity] at h
  split at h
  · cases h
  rename_i hlock
  obtain ⟨hlocked, hother⟩ := not_or.mp hlock
  obtain ⟨t, ht⟩ := Option.ne_none_iff_exists'.mp hlocked
  exact ⟨t, fun heq => hother (heq ▸ ht), ht⟩

theorem changing_lock {identity : CausalDependency} (h : d.changing s identity) :
    ∃ t, t ≠ s ∧ (Lock.row identity).HeldBy d t := by
  simp only [changing, Cell.changing, Bool.and_eq_true, Option.any_eq_true, decide_eq_true_eq] at h
  obtain ⟨⟨t, ht, hne⟩, _⟩ := h
  exact ⟨t, hne, ht⟩

/-- What goes on by itself does, or waits for a lock another session holds. -/
theorem PgInbox.next_eq_none (hrests : ¬p.Rests) (h : o.next d s p = none) :
    ∃ lock, o.Wants d s p lock ∧ ∃ t, t ≠ s ∧ lock.HeldBy d t := by
  cases p with
  | idle => exact absurd trivial hrests
  | publisher p =>
    simp only [next, Option.map_eq_none_iff] at h
    cases p with
    | begun => cases h
    | drawn message position =>
      have hmeets : ∀ identity ∈ o.meets d message, d.changing s identity →
          ∃ lock, o.Wants d s (.publisher (.drawn message position)) lock ∧
            ∃ t, t ≠ s ∧ lock.HeldBy d t :=
        fun identity hmem hchanging => ⟨_, .publishing hmem hchanging, changing_lock hchanging⟩
      simp only [PgInbox.publish] at h
      split at h
      · exact hmeets _ List.mem_cons_self ‹_›
      split at h
      · cases h
      split at h
      · cases h
      split at h
      · rename_i hany
        obtain ⟨identity, hmem, hchanging⟩ := List.any_eq_true.mp hany
        exact hmeets identity hmem hchanging
      split at h <;> cases h
    | conflicted => cases h
    | refused => exact absurd trivial hrests
    | done => exact absurd trivial hrests
  | expirer begunAt maxWait found =>
    cases found with
    | nil => exact absurd trivial hrests
    | cons => cases h
  | dispatcher begunAt p =>
    simp only [next, Option.map_eq_none_iff] at h
    cases p with
    | begun => cases h
    | taking => simp only [dispatch] at h; split at h <;> cases h
    | taken => cases h
    | heading slot found =>
      cases found with
      | nil => cases h
      | cons row found =>
        obtain ⟨hthere, hheld⟩ := claim_eq_none (Option.map_eq_none_iff.mp h)
        exact ⟨_, .heading hthere, hheld⟩
    | checking slot row left =>
      cases left with
      | nil => cases h
      | cons => simp only [dispatch] at h; split at h <;> cases h
    | locking => exact ⟨_, .locking, lockIdentity_eq_none (Option.map_eq_none_iff.mp h)⟩
    | locked => simp only [dispatch] at h; split at h <;> cases h
    | handling => exact absurd trivial hrests
    | identifying => exact ⟨_, .identifying, lockIdentity_eq_none (Option.map_eq_none_iff.mp h)⟩
    | marking => cases h
    | waking slot row position at_ statement found =>
      cases found with
      | nil => cases h
      | cons waiter found =>
        obtain ⟨hthere, hheld⟩ :=
          claim_eq_none (Option.map_eq_none_iff.mp (Option.map_eq_none_iff.mp h))
        exact ⟨_, .waking hthere, hheld⟩
    | failing => cases h
    | done => exact absurd trivial hrests
  | resolver identity p =>
    simp only [next, Option.map_eq_none_iff] at h
    cases p with
    | begun => exact ⟨_, .resolving, lockIdentity_eq_none (Option.map_eq_none_iff.mp h)⟩
    | locked =>
      simp only [resolve] at h
      split at h
      · split at h <;> cases h
      · cases h
    | claiming row at_ statement found =>
      obtain ⟨hthere, hheld⟩ := claim_eq_none (Option.map_eq_none_iff.mp h)
      exact ⟨_, .claiming hthere, hheld⟩
    | waking row position at_ statement found =>
      cases found with
      | nil => cases h
      | cons waiter found =>
        obtain ⟨hthere, hheld⟩ :=
          claim_eq_none (Option.map_eq_none_iff.mp (Option.map_eq_none_iff.mp h))
        exact ⟨_, .wakingResolved hthere, hheld⟩
    | done => exact absurd trivial hrests
  | unparker identity p =>
    simp only [next, Option.map_eq_none_iff] at h
    cases p with
    | begun =>
      simp only [unpark] at h
      split at h
      · split at h <;> cases h
      · cases h
    | claiming row =>
      obtain ⟨hthere, hheld⟩ := claim_eq_none (Option.map_eq_none_iff.mp h)
      exact ⟨_, .unparking hthere, hheld⟩
    | done => exact absurd trivial hrests
  | sweeper channel window sweptTo p =>
    simp only [next, Option.map_eq_none_iff] at h
    cases p with
    | begun => simp only [forgetBatch] at h; split at h <;> cases h
    | held => cases h
    | locking at_ found locked =>
      simp only [forgetBatch] at h
      split at h
      · split at h
        · split at h
          · split at h <;> cases h
          · cases h
        · cases h
      · cases h
    | deleting locked gone => cases locked <;> cases h
    | done => exact absurd trivial hrests

end AsceticDdd.Inbox
