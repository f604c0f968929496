import AsceticDdd.Inbox.Waits

/-!
# What a session holds at each stage

Before a mark or a resolve goes through what waits, a session holds one row at most, and a lock on one
identity. A dispatcher reading its queue holds no row.
-/

namespace AsceticDdd.Inbox

open Database Interleaving

variable {o : PgInbox} {d d' : Database} {s : Nat} {p next : Process} {w w' : World} {a : Act}

/-- The rows a session may hold. -/
def Process.Holds (identity : CausalDependency) : Process → Prop
  | .dispatcher _ (.waking _ _ _ _ _ _) | .dispatcher _ (.done _ _) | .resolver _ (.waking _ _ _ _ _)
  | .resolver _ (.done _) | .unparker _ (.done _) | .publisher (.done _) | .expirer _ _ _
  | .sweeper _ _ _ _ => True
  | .dispatcher _ q => ∃ head, q.head = some head ∧ head.identity = identity
  | _ => False

/-- Whether it may hold the lock on an identity. -/
def Process.Keyed : Process → Prop
  | .dispatcher _ (.locked _ _ _) | .dispatcher _ (.marking _ _) | .dispatcher _ (.waking _ _ _ _ _ _)
  | .dispatcher _ (.done _ _) => True
  | .resolver _ .begun => False
  | .resolver _ _ => True
  | _ => False

/-- Who holds a row's lock before a statement's step held it, or it is the row the step locks. -/
theorem claim_locks {row : Row} {latest : Option Row} (h : d.claim s row = some (d', latest))
    {identity : CausalDependency} (hlock : (d'.cells identity).lock = some s) :
    (d.cells identity).lock = some s ∨ identity = row.identity ∧ latest.isSome := by
  rcases claim_cases h with ⟨_, rfl, _⟩ | ⟨_, rfl, _, _, _, rfl⟩
  · exact Or.inl hlock
  · by_cases heq : identity = row.identity
    · exact Or.inr ⟨heq, rfl⟩
    · rw [setCell_of_ne heq] at hlock
      exact Or.inl hlock

theorem write_locks {identity other : CausalDependency} {version : Option Row} :
    ((d.write identity version).cells other).lock = (d.cells other).lock := by
  by_cases heq : other = identity
  · rw [heq, write, setCell_self]
  · rw [write, setCell_of_ne heq]

theorem claim_advisory {row : Row} {latest : Option Row} (h : d.claim s row = some (d', latest)) :
    d'.advisory = d.advisory := by
  rcases claim_cases h with ⟨_, rfl, _⟩ | ⟨_, _, _, _, _, rfl⟩ <;> rfl

/-- The rows a dispatcher has read of its queue are there still, or gone. -/
def InQueue (o : PgInbox) (d : Database) (slot : Nat) (row : Row) : Prop :=
  ∀ latest, d.committed row.identity = some latest → latest.receivedPosition = row.receivedPosition →
    o.slotOf latest.toInboxMessage = slot ∧ latest.Queued

namespace PgInbox

/-- A dispatcher locks the head of its queue, and no other row. -/
theorem dispatch_holds {begunAt : Nat} {q q' : Dispatching} (hd : Consistent o d)
    (hok : Ok o d s (.dispatcher begunAt q))
    (hqueue : ∀ slot found, q = .heading slot found → ∀ row ∈ found, InQueue o d slot row)
    (h : ∀ identity, (d.cells identity).lock = some s → (Process.dispatcher begunAt q).Holds identity)
    (hstep : o.dispatch d s begunAt q = some (d', q')) (identity : CausalDependency)
    (hlock : (d'.cells identity).lock = some s) : (Process.dispatcher begunAt q').Holds identity := by
  cases q with
  | begun => cases hstep; exact absurd (h identity hlock) (by rintro ⟨_, ⟨⟩, _⟩)
  | taking due =>
    simp only [dispatch] at hstep
    split at hstep
    · cases hstep; exact absurd (h identity hlock) (by rintro ⟨_, ⟨⟩, _⟩)
    · cases hstep; trivial
  | taken slot => cases hstep; exact absurd (h identity hlock) (by rintro ⟨_, ⟨⟩, _⟩)
  | heading slot found =>
    cases found with
    | nil => cases hstep; trivial
    | cons row found =>
      obtain ⟨⟨d₁, latest⟩, hclaim, hnext⟩ := Option.map_eq_some_iff.mp hstep
      cases latest with
      | none =>
        cases hnext
        rcases claim_locks hclaim hlock with hlock | ⟨_, hnone⟩
        · exact absurd (h identity hlock) (by rintro ⟨_, ⟨⟩, _⟩)
        · cases hnone
      | some latest =>
        rcases claim_cases hclaim with ⟨hnone, _, _⟩ | ⟨_, heq, hseen, hposition, _, rfl⟩
        · cases hnone
        cases heq
        rw [hok.seen (fun _ _ => id)] at hseen
        have hqueued := hqueue slot _ rfl row List.mem_cons_self latest hseen hposition
        simp only [if_pos hqueued] at hnext
        split at hnext
        · cases hnext
          refine ⟨latest, rfl, ?_⟩
          rcases claim_locks hclaim hlock with hlock | ⟨rfl, _⟩
          · exact absurd (h identity hlock) (by rintro ⟨_, ⟨⟩, _⟩)
          · exact hd.identity _ _ hseen
        · cases hnext; trivial
  | checking slot row left =>
    cases left with
    | nil => cases hstep; exact h identity hlock
    | cons dependency left =>
      simp only [dispatch] at hstep
      split at hstep <;> cases hstep <;> exact h identity hlock
  | locking slot row dependency =>
    obtain ⟨_, hgranted, hstep⟩ := Option.map_eq_some_iff.mp hstep
    cases hstep
    obtain ⟨_, rfl⟩ := lockIdentity_eq_some hgranted
    exact h identity hlock
  | locked slot row dependency => simp only [dispatch] at hstep; split at hstep <;> cases hstep <;> trivial
  | identifying slot row =>
    obtain ⟨_, hgranted, hstep⟩ := Option.map_eq_some_iff.mp hstep
    cases hstep
    obtain ⟨_, rfl⟩ := lockIdentity_eq_some hgranted
    exact h identity hlock
  | marking slot row => cases hstep; trivial
  | waking slot row position at_ statement found =>
    cases found with
    | nil => cases hstep; trivial
    | cons waiter found =>
      obtain ⟨_, _, hstep⟩ := Option.map_eq_some_iff.mp hstep
      cases hstep
      trivial
  | failing slot row error permanent => cases hstep; trivial
  | handling => cases hstep
  | done => cases hstep

theorem dispatch_keyed {begunAt : Nat} {q q' : Dispatching}
    (h : ∀ key, d.advisory key = some s → (Process.dispatcher begunAt q).Keyed)
    (hstep : o.dispatch d s begunAt q = some (d', q')) (key : BitVec 32)
    (hkey : d'.advisory key = some s) : (Process.dispatcher begunAt q').Keyed := by
  cases q with
  | begun => cases hstep; exact h key hkey
  | taking due => simp only [dispatch] at hstep; split at hstep <;> cases hstep <;> exact (h key hkey).elim
  | taken slot => cases hstep; exact h key hkey
  | heading slot found =>
    cases found with
    | nil => cases hstep; trivial
    | cons row found =>
      obtain ⟨⟨d₁, latest⟩, hclaim, hnext⟩ := Option.map_eq_some_iff.mp hstep
      have hnot : d₁.advisory key ≠ some s := fun hkey => h key (claim_advisory hclaim ▸ hkey)
      cases latest with
      | none => cases hnext; exact hnot hkey
      | some latest =>
        simp only at hnext
        split at hnext
        · split at hnext <;> cases hnext <;> exact absurd hkey hnot
        · cases hnext; exact hnot hkey
  | checking slot row left =>
    cases left with
    | nil => cases hstep; exact h key hkey
    | cons dependency left =>
      simp only [dispatch] at hstep
      split at hstep <;> cases hstep <;> exact h key hkey
  | failing slot row error permanent => cases hstep; trivial
  | locked slot row dependency => simp only [dispatch] at hstep; split at hstep <;> cases hstep <;> trivial
  | waking slot row position at_ statement found =>
    cases found with
    | nil => cases hstep; trivial
    | cons waiter found =>
      obtain ⟨_, _, hstep⟩ := Option.map_eq_some_iff.mp hstep
      cases hstep
      trivial
  | marking slot row => cases hstep; trivial
  | locking slot row dependency => obtain ⟨_, _, hstep⟩ := Option.map_eq_some_iff.mp hstep; cases hstep; trivial
  | identifying slot row => obtain ⟨_, _, hstep⟩ := Option.map_eq_some_iff.mp hstep; cases hstep; trivial
  | handling => cases hstep
  | done => cases hstep

theorem resolve_holds {identity other : CausalDependency} {q q' : Resolving}
    (h : (d.cells other).lock = some s → (Process.resolver identity q).Holds other)
    (hstep : o.resolve d s identity q = some (d', q')) (hlock : (d'.cells other).lock = some s) :
    (Process.resolver identity q').Holds other := by
  cases q with
  | begun =>
    obtain ⟨_, hgranted, hstep⟩ := Option.map_eq_some_iff.mp hstep
    cases hstep
    obtain ⟨_, rfl⟩ := lockIdentity_eq_some hgranted
    exact h hlock
  | locked =>
    simp only [resolve] at hstep
    split at hstep
    · split at hstep
      · cases hstep; exact h hlock
      · cases hstep; trivial
    · cases hstep; trivial
  | claiming row at_ statement found =>
    obtain ⟨⟨d₁, latest⟩, hclaim, hnext⟩ := Option.map_eq_some_iff.mp hstep
    cases latest with
    | none => cases hnext; trivial
    | some latest => simp only at hnext; split at hnext <;> cases hnext <;> trivial
  | waking row position at_ statement found =>
    cases found with
    | nil => cases hstep; trivial
    | cons waiter found =>
      obtain ⟨_, _, hstep⟩ := Option.map_eq_some_iff.mp hstep
      cases hstep
      trivial
  | done => cases hstep

theorem resolve_keyed {identity : CausalDependency} {q q' : Resolving}
    (hstep : o.resolve d s identity q = some (d', q')) : (Process.resolver identity q').Keyed := by
  cases q with
  | begun => obtain ⟨_, _, hstep⟩ := Option.map_eq_some_iff.mp hstep; cases hstep; trivial
  | locked =>
    simp only [resolve] at hstep
    split at hstep
    · split at hstep <;> cases hstep <;> trivial
    · cases hstep; trivial
  | claiming row at_ statement found =>
    obtain ⟨⟨d₁, latest⟩, _, hnext⟩ := Option.map_eq_some_iff.mp hstep
    cases latest with
    | none => cases hnext; trivial
    | some latest => simp only at hnext; split at hnext <;> cases hnext <;> trivial
  | waking row position at_ statement found =>
    cases found with
    | nil => cases hstep; trivial
    | cons waiter found =>
      obtain ⟨_, _, hstep⟩ := Option.map_eq_some_iff.mp hstep
      cases hstep
      trivial
  | done => cases hstep

theorem publish_holds {identity : CausalDependency} {q q' : Publishing}
    (h : (d.cells identity).lock = some s → (Process.publisher q).Holds identity)
    (hstep : o.publish d s q = some (d', q')) (hlock : (d'.cells identity).lock = some s) :
    (Process.publisher q').Holds identity := by
  cases q with
  | begun => cases hstep; exact h hlock
  | drawn message position =>
    simp only [publish] at hstep
    split at hstep
    · cases hstep
    split at hstep
    · cases hstep; exact h hlock
    split at hstep
    · cases hstep; exact h hlock
    split at hstep
    · cases hstep
    split at hstep
    · cases hstep; exact h hlock
    · cases hstep; trivial
  | conflicted => cases hstep; trivial
  | refused => cases hstep
  | done => cases hstep

theorem publish_advisory {q q' : Publishing} (hstep : o.publish d s q = some (d', q')) :
    d'.advisory = d.advisory := by
  cases q with
  | begun => cases hstep; rfl
  | drawn message position =>
    simp only [publish] at hstep
    split at hstep
    · cases hstep
    split at hstep
    · cases hstep; rfl
    split at hstep
    · cases hstep; rfl
    split at hstep
    · cases hstep
    split at hstep <;> cases hstep <;> rfl
  | conflicted => cases hstep; rfl
  | refused => cases hstep
  | done => cases hstep

end PgInbox

theorem unpark_holds {identity other : CausalDependency} {q q' : Unparking}
    (h : (d.cells other).lock = some s → (Process.unparker identity q).Holds other)
    (hstep : unpark d s identity q = some (d', q')) (hlock : (d'.cells other).lock = some s) :
    (Process.unparker identity q').Holds other := by
  cases q with
  | begun =>
    simp only [unpark] at hstep
    split at hstep
    · split at hstep
      · cases hstep; exact h hlock
      · cases hstep; trivial
    · cases hstep; trivial
  | claiming row =>
    obtain ⟨⟨d₁, latest⟩, _, hnext⟩ := Option.map_eq_some_iff.mp hstep
    cases latest with
    | none => cases hnext; trivial
    | some latest => simp only at hnext; split at hnext <;> cases hnext <;> trivial
  | done => cases hstep

theorem unpark_advisory {identity : CausalDependency} {q q' : Unparking}
    (hstep : unpark d s identity q = some (d', q')) : d'.advisory = d.advisory := by
  cases q with
  | begun =>
    simp only [unpark] at hstep
    split at hstep
    · split at hstep <;> cases hstep <;> rfl
    · cases hstep; rfl
  | claiming row =>
    obtain ⟨⟨d₁, latest⟩, hclaim, hnext⟩ := Option.map_eq_some_iff.mp hstep
    have hadvisory : d₁.advisory = d.advisory := claim_advisory hclaim
    cases latest with
    | none => cases hnext; exact hadvisory
    | some latest => simp only at hnext; split at hnext <;> cases hnext <;> exact hadvisory
  | done => cases hstep

theorem expire_advisory {begunAt maxWait : Nat} {row : Row} :
    (o.expire d s begunAt maxWait row).advisory = d.advisory := by
  obtain ⟨d₁, latest, heq, hclaim⟩ := claimUnlocked_cases d s row
  have hadvisory : d₁.advisory = d.advisory := by
    rcases hclaim with ⟨_, rfl⟩ | hclaim
    · rfl
    · exact claim_advisory hclaim
  rw [PgInbox.expire, heq]
  dsimp only
  split
  · split
    · split <;> exact hadvisory
    · exact hadvisory
  · exact hadvisory

theorem forgetBatch_advisory {channel : String} {window : Nat} {sweptTo : Option Nat} {q q' : Sweeping}
    (hstep : o.forgetBatch d s channel window sweptTo q = some (d', q')) : d'.advisory = d.advisory := by
  cases q with
  | begun => simp only [PgInbox.forgetBatch] at hstep; split at hstep <;> cases hstep <;> rfl
  | held => cases hstep; rfl
  | locking at_ found locked =>
    simp only [PgInbox.forgetBatch] at hstep
    split at hstep
    · rename_i row rest
      obtain ⟨d₁, latest, heq, hclaim⟩ := claimUnlocked_cases d s row
      have hadvisory : d₁.advisory = d.advisory := by
        rcases hclaim with ⟨_, rfl⟩ | hclaim
        · rfl
        · exact claim_advisory hclaim
      split at hstep
      · rw [heq] at hstep
        dsimp only at hstep
        split at hstep
        · split at hstep <;> cases hstep <;> exact hadvisory
        · cases hstep; exact hadvisory
      · cases hstep; rfl
    · cases hstep; rfl
  | deleting locked gone => cases locked <;> cases hstep <;> rfl
  | done => cases hstep

theorem finish_unlocked {commits : Bool} {identity : CausalDependency} :
    ((d.finish s commits).cells identity).lock ≠ some s := by
  intro hlock
  have hnot := finish_locked hlock
  rw [finish_cell hnot] at hlock
  exact hnot hlock

theorem finish_keyless {commits : Bool} {key : BitVec 32} : (d.finish s commits).advisory key ≠ some s := by
  simp only [Database.finish]
  split
  · rintro ⟨⟩
  · assumption

/-- A step's session holds what it may at its next stage. -/
theorem PgInbox.step_holds {identity : CausalDependency} (hd : Consistent o d) (hok : Ok o d s p)
    (hqueue : ∀ begunAt slot found, p = .dispatcher begunAt (.heading slot found) →
      ∀ row ∈ found, InQueue o d slot row)
    (h : ∀ identity, (d.cells identity).lock = some s → p.Holds identity)
    (hstep : o.step d s p a = some (d', next)) (hlock : (d'.cells identity).lock = some s) :
    next.Holds identity := by
  cases step_cases hstep with
  | tick => exact h identity hlock
  | crash => exact absurd hlock finish_unlocked
  | commit => exact absurd hlock finish_unlocked
  | start => exact (h identity hlock).elim
  | succeed =>
    obtain ⟨head, hhead, hidentity⟩ := h identity hlock
    split <;> exact ⟨head, hhead, hidentity⟩
  | fail => exact h identity hlock
  | next hnext =>
    cases p with
    | idle => cases hnext
    | publisher =>
      obtain ⟨_, hr, hnext⟩ := Option.map_eq_some_iff.mp hnext
      cases hnext
      exact publish_holds (h identity) hr hlock
    | expirer begunAt maxWait found => cases found <;> cases hnext; trivial
    | dispatcher =>
      obtain ⟨_, hr, hnext⟩ := Option.map_eq_some_iff.mp hnext
      cases hnext
      refine dispatch_holds hd hok ?_ h hr identity hlock
      rintro slot found rfl
      exact hqueue _ slot found rfl
    | resolver =>
      obtain ⟨_, hr, hnext⟩ := Option.map_eq_some_iff.mp hnext
      cases hnext
      exact resolve_holds (h identity) hr hlock
    | unparker =>
      obtain ⟨_, hr, hnext⟩ := Option.map_eq_some_iff.mp hnext
      cases hnext
      exact unpark_holds (h identity) hr hlock
    | sweeper => obtain ⟨_, _, hnext⟩ := Option.map_eq_some_iff.mp hnext; cases hnext; trivial

theorem PgInbox.step_keyed {key : BitVec 32} (h : ∀ key, d.advisory key = some s → p.Keyed)
    (hstep : o.step d s p a = some (d', next)) (hkey : d'.advisory key = some s) : next.Keyed := by
  cases step_cases hstep with
  | tick => exact h key hkey
  | crash => exact absurd hkey finish_keyless
  | commit => exact absurd hkey finish_keyless
  | start => exact (h key hkey).elim
  | succeed => exact (h key hkey).elim
  | fail => exact h key hkey
  | next hnext =>
    cases p with
    | idle => cases hnext
    | publisher =>
      obtain ⟨_, hr, hnext⟩ := Option.map_eq_some_iff.mp hnext
      cases hnext
      exact h key (publish_advisory hr ▸ hkey)
    | expirer begunAt maxWait found =>
      cases found with
      | nil => cases hnext
      | cons row found => cases hnext; exact h key (expire_advisory ▸ hkey)
    | dispatcher =>
      obtain ⟨_, hr, hnext⟩ := Option.map_eq_some_iff.mp hnext
      cases hnext
      exact dispatch_keyed h hr key hkey
    | resolver =>
      obtain ⟨_, hr, hnext⟩ := Option.map_eq_some_iff.mp hnext
      cases hnext
      exact resolve_keyed hr
    | unparker =>
      obtain ⟨_, hr, hnext⟩ := Option.map_eq_some_iff.mp hnext
      cases hnext
      exact h key (unpark_advisory hr ▸ hkey)
    | sweeper =>
      obtain ⟨_, hr, hnext⟩ := Option.map_eq_some_iff.mp hnext
      cases hnext
      exact h key (forgetBatch_advisory hr ▸ hkey)

/-- Only who holds a row of the queue changes it. -/
theorem Change.head_of_queued {row : Row} {version : Option Row} (h : Change p (some row) version)
    (hqueued : row.Queued) : p.head = some row := by
  obtain ⟨hprocessed, hparked, hwaits⟩ := hqueued
  cases h with
  | setAside _ dependency at_ _ hhead => exact hhead
  | failed _ error next parkedAt _ hhead => exact hhead
  | marked _ position at_ _ _ hjournal => exact Process.number_head hjournal rfl
  | resolved _ position at_ hparked' => cases hparked ▸ hparked'
  | woken _ marked hwaits' => cases hwaits.symm.trans hwaits'
  | expired _ error at_ hwaits' => cases hwaits ▸ hwaits'
  | unparked _ hparked' => cases hparked ▸ hparked'
  | forgotten _ hprocessed' => cases hprocessed ▸ hprocessed'

theorem Ok.queued_slot {row : Row} (hok : Ok o d s p) (hhead : p.head = some row) (hqueued : row.Queued) :
    (d.slots (o.slotOf row.toInboxMessage)).lock = some s := by
  have hstands := (hok.head row hhead).2.2.1
  cases p with
  | dispatcher => exact (hok.slot _ hstands.2).1
  | resolver => cases hqueued.2.1 ▸ hstands.1
  | _ => cases hhead

structure Holding (o : PgInbox) (w : World) : Prop where
  queue : ∀ s begunAt slot found, w.procs s = .dispatcher begunAt (.heading slot found) →
    ∀ row ∈ found, InQueue o w.shared slot row ∧ ∀ t, (w.procs t).draws ≠ some row.receivedPosition
  rows : ∀ s identity, (w.shared.cells identity).lock = some s → (w.procs s).Holds identity
  keys : ∀ s key, w.shared.advisory key = some s → (w.procs s).Keyed

theorem PgInbox.dispatch_heading {begunAt slot : Nat} {q : Dispatching} {found : List Row}
    (hstep : o.dispatch d s begunAt q = some (d', .heading slot found)) :
    (q = .taken slot ∧ found = o.queue (d.rows s) slot) ∨
      ∃ found', q = .heading slot found' ∧ ∀ row ∈ found, row ∈ found' := by
  cases q with
  | taken slot => cases hstep; exact Or.inl ⟨rfl, rfl⟩
  | heading slot' found' =>
    cases found' with
    | nil => cases hstep
    | cons row found' =>
      obtain ⟨⟨d₁, latest⟩, _, hnext⟩ := Option.map_eq_some_iff.mp hstep
      cases latest with
      | none => cases hnext; exact Or.inr ⟨_, rfl, fun _ => List.mem_cons_of_mem _⟩
      | some latest =>
        simp only at hnext
        split at hnext
        · split at hnext <;> cases hnext
        · cases hnext; exact Or.inr ⟨_, rfl, fun _ => List.mem_cons_of_mem _⟩
  | taking => simp only [dispatch] at hstep; split at hstep <;> cases hstep
  | checking slot row left =>
    cases left with
    | nil => cases hstep
    | cons => simp only [dispatch] at hstep; split at hstep <;> cases hstep
  | locking => obtain ⟨_, _, h⟩ := Option.map_eq_some_iff.mp hstep; cases h
  | locked => simp only [dispatch] at hstep; split at hstep <;> cases hstep
  | identifying => obtain ⟨_, _, h⟩ := Option.map_eq_some_iff.mp hstep; cases h
  | waking slot row position at_ statement found =>
    cases found with
    | nil => cases hstep
    | cons => obtain ⟨_, _, h⟩ := Option.map_eq_some_iff.mp hstep; cases h
  | _ => cases hstep

/-- What a session reads anew of its slot's queue is there. -/
theorem PgInbox.step_heading {begunAt slot : Nat} {found : List Row}
    (hstep : o.step d s p a = some (d', .dispatcher begunAt (.heading slot found))) :
    (p = .dispatcher begunAt (.taken slot) ∧ found = o.queue (d.rows s) slot) ∨
      ∃ found', p = .dispatcher begunAt (.heading slot found') ∧ ∀ row ∈ found, row ∈ found' := by
  generalize hnext : Process.dispatcher begunAt (.heading slot found) = next at hstep
  cases step_cases hstep with
  | tick => exact Or.inr ⟨found, hnext.symm, fun _ => id⟩
  | crash => cases hnext
  | commit hcommits =>
    unfold Process.committed at hcommits
    split at hcommits <;> cases hcommits <;> cases hnext
  | start hstart =>
    cases a with
    | dispatch =>
      simp only [start] at hstart
      split at hstart <;> cases hstart <;> cases hnext
    | sweep => obtain ⟨_, _, hstart⟩ := Option.map_eq_some_iff.mp hstart; cases hstart; cases hnext
    | publish => cases hstart; cases hnext
    | resolve => cases hstart; cases hnext
    | unpark => cases hstart; cases hnext
    | _ => cases hstart
  | succeed => split at hnext <;> cases hnext
  | fail => cases hnext
  | next h =>
    cases p with
    | dispatcher =>
      obtain ⟨⟨_, q'⟩, hr, h⟩ := Option.map_eq_some_iff.mp h
      cases h
      cases hnext
      obtain ⟨hq, hfound⟩ | ⟨found', hq, hsub⟩ := dispatch_heading hr
      · exact Or.inl ⟨congrArg _ hq, hfound⟩
      · exact Or.inr ⟨found', congrArg _ hq, hsub⟩
    | idle => cases h
    | expirer begunAt maxWait found => cases found <;> cases h; cases hnext
    | _ => obtain ⟨_, _, h⟩ := Option.map_eq_some_iff.mp h; cases h; cases hnext

namespace Holding

variable {i : Nat}

theorem queue_act (h : Holding o w) (hinvariant : Invariant o w) (hnumbering : Numbering o w)
    (hstep : o.step w.shared i (w.procs i) a = some (d, next)) {t begunAt slot : Nat} {found : List Row}
    (hp : Function.update w.procs i next t = .dispatcher begunAt (.heading slot found)) {row : Row}
    (hrow : row ∈ found) : InQueue o d slot row ∧
      ∀ u, (Function.update w.procs i next u).draws ≠ some row.receivedPosition := by
  have hd := hinvariant.consistent
  have hok := hinvariant.ok i
  -- Of a row found before the step, what was found of it holds still.
  have hbefore : (∃ found', w.procs t = .dispatcher begunAt (.heading slot found') ∧ row ∈ found') →
      InQueue o d slot row ∧ ∀ u, (Function.update w.procs i next u).draws ≠ some row.receivedPosition := by
    rintro ⟨found', hp', hrow⟩
    obtain ⟨hqueue, hdraws⟩ := h.queue t begunAt slot found' hp' row hrow
    have hreads := hnumbering.reads t
    rw [hp'] at hreads
    have hlt := hreads.found slot found' rfl row hrow
    refine ⟨?_, fun u hu => ?_⟩
    · intro latest hlatest hposition
      rcases hd.step_committed hok hstep with hsame | ⟨_, rfl, hcommits⟩
      · exact hqueue latest (hsame row.identity ▸ hlatest) hposition
      · rcases hok.finish_committed hlatest with hlatest | hchange
        · exact hqueue latest hlatest hposition
        · rcases hchange.version with ⟨_, hdrawn, _⟩ | ⟨old, hold, hversion, _⟩
          · exact absurd (hposition ▸ hdrawn) (hdraws i)
          · obtain ⟨hslot, hqueued⟩ := hqueue old hold (hversion.2.symm.trans hposition)
            rw [hold] at hchange
            have hlock := hok.queued_slot (hchange.head_of_queued hqueued) hqueued
            have hown := ((hinvariant.ok t).slot slot (by rw [hp']; rfl)).1
            rw [hslot, hown, Option.some.injEq] at hlock
            rw [← hlock, hp'] at hcommits
            cases hcommits
    · by_cases hui : u = i
      · subst hui
        rw [Function.update_self] at hu
        rcases PgInbox.step_draws hstep hu with hdrawn | ⟨hnew, _⟩
        · exact hdraws u hdrawn
        · omega
      · rw [Function.update_of_ne hui] at hu
        exact hdraws u hu
  by_cases ht : t = i
  · subst ht
    rw [Function.update_self] at hp
    subst hp
    rcases PgInbox.step_heading hstep with ⟨hp, rfl⟩ | ⟨found', hp, hsub⟩
    · obtain ⟨hmem, hslot, hqueued⟩ := PgInbox.mem_queue.mp hrow
      obtain ⟨identity, _, hseen⟩ := mem_rows.mp hmem
      have hcommitted : w.shared.committed row.identity = some row := by
        rw [hok.seen (by rw [hp]; exact fun _ _ => id)] at hseen
        rwa [hd.identity identity row hseen]
      have hsame : ∀ identity, d.committed identity = w.shared.committed identity := by
        rcases hd.step_committed hok hstep with hsame | ⟨_, _, hcommits⟩
        · exact hsame
        · rw [hp] at hcommits
          cases hcommits
      refine ⟨fun latest hlatest _ => ?_, fun u hu => ?_⟩
      · rw [hsame, hcommitted] at hlatest
        cases hlatest
        exact ⟨hslot, hqueued⟩
      · by_cases hut : u = t
        · subst hut
          rw [Function.update_self] at hu
          cases hu
        · rw [Function.update_of_ne hut] at hu
          exact (hnumbering.drawn u _ hu).2 _ _ hcommitted rfl
    · exact hbefore ⟨found', hp, hsub row hrow⟩
  · rw [Function.update_of_ne ht] at hp
    exact hbefore ⟨found, hp, hrow⟩

theorem act (h : Holding o w) (hinvariant : Invariant o w) (hnumbering : Numbering o w)
    (hact : o.program.act w i a = some w') : Holding o w' := by
  obtain ⟨d, next, hstep, rfl⟩ := (o.program.act_eq_some).mp hact
  have hstep : o.step w.shared i (w.procs i) a = some (d, next) := hstep
  have hd := hinvariant.consistent
  have hok := hinvariant.ok i
  have hother : ∀ t, t ≠ i → Function.update w.procs i next t = w.procs t := fun t ht =>
    Function.update_of_ne ht ..
  have hself : Function.update w.procs i next i = next := Function.update_self ..
  constructor
  case queue => exact fun t begunAt slot found hp row hrow => h.queue_act hinvariant hnumbering hstep hp hrow
  case rows =>
    intro t identity hlock
    by_cases ht : t = i
    · subst ht
      simp only [hself]
      refine PgInbox.step_holds hd hok (fun begunAt slot found hp row hrow => ?_) (h.rows t) hstep hlock
      exact (h.queue t begunAt slot found hp row hrow).1
    · simp only [hother t ht]
      apply h.rows t identity
      obtain ⟨_, _, hworks | ⟨_, rfl, _⟩ | ⟨_, rfl, _⟩⟩ := hd.step hok hstep
      · exact hworks.locks identity t ht hlock
      · have hnot := finish_locked hlock
        rwa [finish_cell hnot] at hlock
      · have hnot := finish_locked hlock
        rwa [finish_cell hnot] at hlock
  case keys =>
    intro t key hkey
    by_cases ht : t = i
    · subst ht
      simp only [hself]
      exact PgInbox.step_keyed (h.keys t) hstep hkey
    · simp only [hother t ht]
      apply h.keys t key
      obtain ⟨_, _, hworks | ⟨_, rfl, _⟩ | ⟨_, rfl, _⟩⟩ := hd.step hok hstep
      · exact (hworks.advisory key t ht).mp hkey
      · simp only [Database.finish] at hkey
        split at hkey
        · cases hkey
        · exact hkey
      · simp only [Database.finish] at hkey
        split at hkey
        · cases hkey
        · exact hkey

theorem beginning (now : Nat) : Holding o (beginning now) where
  queue := by rintro _ _ _ _ ⟨⟩
  rows := by rintro _ _ ⟨⟩
  keys := by rintro _ _ ⟨⟩

end Holding

end AsceticDdd.Inbox
