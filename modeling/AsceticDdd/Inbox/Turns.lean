import AsceticDdd.Inbox.Holding

/-!
# What a step changes of who may wait for whom

A mark and a resolve find the rows that wait, and lock them one after another; a resolve finds and locks
its own row before; a dispatcher takes the head of its queue.
-/

namespace AsceticDdd.Inbox

open Database Interleaving

variable {o : PgInbox} {d d' : Database} {s : Nat} {p next : Process} {w w' : World} {a : Act}

namespace Process

/-- The identity marked, the number of the snapshot, and the rows it found waiting that are not locked
yet. -/
def wakes : Process → Option (CausalDependency × Nat × List Row)
  | .dispatcher _ (.waking _ row _ _ statement found) => some (row.identity, statement, found)
  | .resolver identity (.claiming _ _ statement found) | .resolver identity (.waking _ _ _ statement found) =>
    some (identity, statement, found)
  | _ => none

/-- The row found to be resolved, and not locked yet. -/
def claims : Process → Option Row
  | .resolver _ (.claiming row _ _ _) => some row
  | _ => none

/-- The row being resolved, and the number of the snapshot. -/
def resolves : Process → Option (Row × Nat)
  | .resolver _ (.claiming row _ statement _) | .resolver _ (.waking row _ _ statement _) =>
    some (row, statement)
  | _ => none

/-- A dispatcher's head. -/
def takes : Process → Option Row
  | .dispatcher _ q => q.head
  | _ => none

/-- What a mark or a resolve has found and not locked yet. -/
def Finds (p : Process) (row : Row) : Prop :=
  (∃ marked statement found, p.wakes = some (marked, statement, found) ∧ row ∈ found) ∨ p.claims = some row

end Process

/-- The kinds of steps. -/
inductive Turn (d : Database) (s : Nat) (p : Process) (d' : Database) (p' : Process) : Prop
  | quiet (hwakes : p'.wakes = none) (hclaims : p'.claims = none) (hresolves : p'.resolves = none)
      (htakes : ∀ head, p'.takes = some head → p.takes = some head)
  | time (hp : p' = p) (hcells : d'.cells = d.cells)
  | takes (begunAt slot : Nat) (row head : Row) (found : List Row) (left : List CausalDependency)
      (hp : p = .dispatcher begunAt (.heading slot (row :: found)))
      (hp' : p' = .dispatcher begunAt (.checking slot head left)) (hidentity : head.identity = row.identity)
      (hposition : head.receivedPosition = row.receivedPosition)
  | finds (marked : CausalDependency) (found : List Row)
      (hwakes : p'.wakes = some (marked, d.statements, found)) (hstatements : d.statements < d'.statements)
      (hfound : ∀ row ∈ found, d.committed row.identity = some row ∧ row.waitingFor = some marked)
      (hclaims : ∀ row, p'.claims = some row → d.committed row.identity = some row ∧ row.parkedAt.isSome)
      (hresolves : ∀ row n, p'.resolves = some (row, n) →
        d.committed row.identity = some row ∧ row.parkedAt.isSome ∧ n = d.statements)
      (htakes : p'.takes = p.takes)
      (hlocks : ∀ identity, (d'.cells identity).lock = some s →
        ∃ head, p'.head = some head ∧ head.identity = identity)
      (hmarker : (∃ begunAt slot row, p = .dispatcher begunAt (.marking slot row) ∧ row.identity = marked) ∨
        p = .resolver marked .locked ∧ ∃ row, d.committed marked = some row ∧ row.parkedAt.isSome)
  | wakes (marked : CausalDependency) (n : Nat) (row : Row) (found : List Row)
      (hwakes : p.wakes = some (marked, n, row :: found)) (hwakes' : p'.wakes = some (marked, n, found))
      (hclaims : p'.claims = none) (hresolves : p'.resolves = p.resolves) (htakes : p'.takes = p.takes)
      (hhead : p'.head = p.head)
      (hlocks : ∀ identity, (d'.cells identity).lock = some s → (d.cells identity).lock = some s ∨
        row.identity = identity ∧
          ∃ latest, d.committed identity = some latest ∧ latest.receivedPosition = row.receivedPosition)
  | resolves (row latest : Row) (n : Nat) (hclaims : p.claims = some row) (hclaims' : p'.claims = none)
      (hwakes : p'.wakes = p.wakes) (hresolves : p.resolves = some (row, n))
      (hresolves' : p'.resolves = some (latest, n)) (htakes : p'.takes = none)
      (hidentity : latest.identity = row.identity) (hposition : latest.receivedPosition = row.receivedPosition)
      (hhead : p'.head = some latest)
      (hlocks : ∀ identity, (d'.cells identity).lock = some s → identity = row.identity)

theorem wake_locks {marked identity : CausalDependency} {row : Row} (h : d.wake s marked row = some d')
    (hlock : (d'.cells identity).lock = some s) : (d.cells identity).lock = some s ∨
      row.identity = identity ∧
        ∃ latest, d.committed identity = some latest ∧ latest.receivedPosition = row.receivedPosition := by
  obtain ⟨d₁, found, hclaim, hwoken⟩ := wake_cases h
  have hlock₁ : (d₁.cells identity).lock = some s := by
    rcases hwoken with ⟨rfl, _⟩ | ⟨latest, _, _, rfl⟩
    · exact hlock
    · rwa [write_locks] at hlock
  rcases claim_locks hclaim hlock₁ with hlock | ⟨rfl, hsome⟩
  · exact Or.inl hlock
  · rcases claim_cases hclaim with ⟨rfl, _⟩ | ⟨latest, _, hseen, hposition, hfree | hheld, _⟩
    · cases hsome
    · refine Or.inr ⟨rfl, latest, ?_, hposition⟩
      rwa [seen_of_unchanged (by rw [hfree]; rintro ⟨⟩)] at hseen
    · exact Or.inl hheld

theorem Ok.waiters_found {marked : CausalDependency} (hd : Consistent o d) (hok : Ok o d s p)
    (hp : ∀ before version, ¬p.Writes before version) {row : Row} (hrow : row ∈ waiters (d.rows s) marked) :
    d.committed row.identity = some row ∧ row.waitingFor = some marked := by
  obtain ⟨hmem, hwaits⟩ := mem_waiters.mp hrow
  obtain ⟨identity, _, hseen⟩ := mem_rows.mp hmem
  rw [hok.seen hp] at hseen
  exact ⟨by rwa [hd.identity identity row hseen], hwaits⟩

namespace PgInbox

theorem dispatch_turn {begunAt : Nat} {q q' : Dispatching} (hd : Consistent o d)
    (hok : Ok o d s (.dispatcher begunAt q))
    (hholds : ∀ identity, (d.cells identity).lock = some s → (Process.dispatcher begunAt q).Holds identity)
    (hstep : o.dispatch d s begunAt q = some (d', q')) :
    Turn d s (.dispatcher begunAt q) d' (.dispatcher begunAt q') := by
  cases q with
  | begun => cases hstep; exact .quiet rfl rfl rfl (by rintro _ ⟨⟩)
  | taking due =>
    simp only [dispatch] at hstep
    split at hstep <;> cases hstep <;> exact .quiet rfl rfl rfl (by rintro _ ⟨⟩)
  | taken slot => cases hstep; exact .quiet rfl rfl rfl (by rintro _ ⟨⟩)
  | heading slot found =>
    cases found with
    | nil => cases hstep; exact .quiet rfl rfl rfl (by rintro _ ⟨⟩)
    | cons row found =>
      obtain ⟨⟨d₁, latest⟩, hclaim, hnext⟩ := Option.map_eq_some_iff.mp hstep
      cases latest with
      | none => cases hnext; exact .quiet rfl rfl rfl (by rintro _ ⟨⟩)
      | some latest =>
        rcases claim_cases hclaim with ⟨hnone, _, _⟩ | ⟨_, heq, hseen, hposition, _, rfl⟩
        · cases hnone
        cases heq
        rw [hok.seen (fun _ _ => id)] at hseen
        simp only at hnext
        split at hnext
        · split at hnext
          · cases hnext
            exact .takes begunAt slot row latest found _ rfl rfl (hd.identity _ _ hseen) hposition
          · cases hnext; exact .quiet rfl rfl rfl (by rintro _ ⟨⟩)
        · cases hnext; exact .quiet rfl rfl rfl (by rintro _ ⟨⟩)
  | checking slot row left =>
    cases left with
    | nil => cases hstep; exact .quiet rfl rfl rfl fun _ => id
    | cons dependency left =>
      simp only [dispatch] at hstep
      split at hstep <;> cases hstep <;> exact .quiet rfl rfl rfl fun _ => id
  | locking slot row dependency =>
    obtain ⟨_, _, hstep⟩ := Option.map_eq_some_iff.mp hstep
    cases hstep
    exact .quiet rfl rfl rfl fun _ => id
  | locked slot row dependency =>
    simp only [dispatch] at hstep
    split at hstep
    · cases hstep; exact .quiet rfl rfl rfl (by rintro _ ⟨⟩)
    · cases hstep; exact .quiet rfl rfl rfl fun _ => id
  | identifying slot row =>
    obtain ⟨_, _, hstep⟩ := Option.map_eq_some_iff.mp hstep
    cases hstep
    exact .quiet rfl rfl rfl fun _ => id
  | marking slot row =>
    cases hstep
    refine .finds row.identity _ rfl (Nat.lt_succ_self _)
      (fun r hr => hok.waiters_found hd (fun _ _ => id) hr) (by rintro _ ⟨⟩) (by rintro _ _ ⟨⟩) rfl ?_
      (Or.inl ⟨begunAt, slot, row, rfl, rfl⟩)
    intro identity hlock
    exact hholds identity (write_locks.symm.trans hlock)
  | waking slot row position at_ statement found =>
    cases found with
    | nil => cases hstep; exact .quiet rfl rfl rfl fun _ => id
    | cons waiter found =>
      obtain ⟨_, hwake, hstep⟩ := Option.map_eq_some_iff.mp hstep
      cases hstep
      exact .wakes row.identity statement waiter found rfl rfl rfl rfl rfl rfl fun _ => wake_locks hwake
  | failing slot row error permanent => cases hstep; exact .quiet rfl rfl rfl fun _ => id
  | handling => cases hstep
  | done => cases hstep

theorem resolve_turn {identity : CausalDependency} {q q' : Resolving} (hd : Consistent o d)
    (hok : Ok o d s (.resolver identity q))
    (hholds : ∀ other, (d.cells other).lock = some s → (Process.resolver identity q).Holds other)
    (hstep : o.resolve d s identity q = some (d', q')) :
    Turn d s (.resolver identity q) d' (.resolver identity q') := by
  cases q with
  | begun =>
    obtain ⟨_, _, hstep⟩ := Option.map_eq_some_iff.mp hstep
    cases hstep
    exact .quiet rfl rfl rfl fun _ => id
  | locked =>
    simp only [resolve] at hstep
    split at hstep
    · rename_i row hseen
      split at hstep
      · rename_i hparked
        cases hstep
        rw [hok.seen (fun _ _ => id)] at hseen
        have hcommitted : d.committed row.identity = some row := by rwa [hd.identity _ _ hseen]
        refine .finds identity _ rfl (Nat.lt_succ_self _)
          (fun r hr => hok.waiters_found hd (fun _ _ => id) hr) ?_ ?_ rfl
          (fun other hlock => (hholds other hlock).elim) (Or.inr ⟨rfl, row, hseen, hparked⟩)
        · rintro _ ⟨⟩
          exact ⟨hcommitted, hparked⟩
        · rintro _ _ ⟨⟩
          exact ⟨hcommitted, hparked, rfl⟩
      · cases hstep; exact .quiet rfl rfl rfl fun _ => id
    · cases hstep; exact .quiet rfl rfl rfl fun _ => id
  | claiming row at_ statement found =>
    obtain ⟨⟨d₁, latest⟩, hclaim, hnext⟩ := Option.map_eq_some_iff.mp hstep
    cases latest with
    | none => cases hnext; exact .quiet rfl rfl rfl fun _ => id
    | some latest =>
      have hlocks : ∀ other, (d₁.cells other).lock = some s → other = row.identity := by
        intro other hlock
        rcases claim_locks hclaim hlock with hlock | ⟨heq, _⟩
        · exact (hholds other hlock).elim
        · exact heq
      rcases claim_cases hclaim with ⟨hnone, _, _⟩ | ⟨_, heq, hseen, hposition, _, _⟩
      · cases hnone
      cases heq
      rw [hok.seen (fun _ _ => id)] at hseen
      simp only at hnext
      split at hnext
      · cases hnext
        refine .resolves row latest statement rfl rfl rfl rfl rfl rfl (hd.identity _ _ hseen) hposition rfl ?_
        intro other hlock
        exact hlocks other (write_locks.symm.trans hlock)
      · cases hnext; exact .quiet rfl rfl rfl fun _ => id
  | waking row position at_ statement found =>
    cases found with
    | nil => cases hstep; exact .quiet rfl rfl rfl fun _ => id
    | cons waiter found =>
      obtain ⟨_, hwake, hstep⟩ := Option.map_eq_some_iff.mp hstep
      cases hstep
      exact .wakes identity statement waiter found rfl rfl rfl rfl rfl rfl fun _ => wake_locks hwake
  | done => cases hstep

/-- A step ends the transaction, or is of one of the kinds. -/
theorem step_turn (hd : Consistent o d) (hok : Ok o d s p)
    (hholds : ∀ identity, (d.cells identity).lock = some s → p.Holds identity)
    (hstep : o.step d s p a = some (d', next)) : Turn d s p d' next := by
  cases step_cases hstep with
  | tick => exact .time rfl rfl
  | crash => exact .quiet rfl rfl rfl (by rintro _ ⟨⟩)
  | commit hcommits =>
    unfold Process.committed at hcommits
    split at hcommits <;> cases hcommits <;> exact .quiet rfl rfl rfl (by rintro _ ⟨⟩)
  | start hstart =>
    cases a with
    | dispatch =>
      simp only [start] at hstart
      split at hstart <;> cases hstart <;> exact .quiet rfl rfl rfl (by rintro _ ⟨⟩)
    | sweep =>
      obtain ⟨_, _, hstart⟩ := Option.map_eq_some_iff.mp hstart
      cases hstart
      exact .quiet rfl rfl rfl (by rintro _ ⟨⟩)
    | publish => cases hstart; exact .quiet rfl rfl rfl (by rintro _ ⟨⟩)
    | resolve => cases hstart; exact .quiet rfl rfl rfl (by rintro _ ⟨⟩)
    | unpark => cases hstart; exact .quiet rfl rfl rfl (by rintro _ ⟨⟩)
    | _ => cases hstart
  | succeed => split <;> exact .quiet rfl rfl rfl fun _ => id
  | fail => exact .quiet rfl rfl rfl fun _ => id
  | next hnext =>
    cases p with
    | idle => cases hnext
    | expirer begunAt maxWait found => cases found <;> cases hnext; exact .quiet rfl rfl rfl (by rintro _ ⟨⟩)
    | dispatcher =>
      obtain ⟨_, hr, hnext⟩ := Option.map_eq_some_iff.mp hnext
      cases hnext
      exact dispatch_turn hd hok hholds hr
    | resolver =>
      obtain ⟨_, hr, hnext⟩ := Option.map_eq_some_iff.mp hnext
      cases hnext
      exact resolve_turn hd hok hholds hr
    | _ =>
      obtain ⟨_, _, hnext⟩ := Option.map_eq_some_iff.mp hnext
      cases hnext
      exact .quiet rfl rfl rfl (by rintro _ ⟨⟩)

end PgInbox

end AsceticDdd.Inbox
