import AsceticDdd.Postgres.Snapshot
import Mathlib.Logic.Function.Basic
import Mathlib.Order.Lattice

/-!
# The server's transactions

Ids are drawn in order, each by the session whose transaction it is, and end in any order. A
prepared transaction has left its session and is still running. Status and views are of the
whole server: of the transactions elsewhere, in its other databases, `pg_stat_activity` and
`pg_prepared_xacts` show this one nothing.
-/

namespace AsceticDdd.Postgres

/-- An id not drawn yet counts as running. -/
inductive Status
  | running | committed | aborted
deriving DecidableEq

/-- Where a running transaction is seen. One being prepared is in both views. -/
inductive Seat
  | elsewhere | session | preparing | prepared
deriving DecidableEq

structure Transactions where
  next : Nat
  latest : Nat
  status : Nat → Status
  own : Nat → Option Nat
  seat : Nat → Seat
  latest_lt : latest < next
  ended_le : ∀ x, status x ≠ .running → x ≤ latest
  zero_ended : status 0 ≠ .running
  own_running : ∀ s x, own s = some x → x < next ∧ status x = .running
  own_inj : ∀ s s' x, own s = some x → own s' = some x → s = s'
  own_seat : ∀ s x, own s = some x → seat x ≠ .prepared
  within : ∀ x, x < next → status x = .running → next ≤ x + 2 ^ 31

namespace Transactions

/-- A server with no transaction running. -/
def settled (latest : Nat) : Transactions where
  next := latest + 1
  latest := latest
  status x := if x ≤ latest then .committed else .running
  own _ := none
  seat _ := .session
  latest_lt := Nat.lt_succ_self _
  ended_le x hx := by
    by_contra hlt
    exact hx (if_neg hlt)
  zero_ended := by
    rw [if_pos (Nat.zero_le _)]
    decide
  own_running := nofun
  own_inj := nofun
  own_seat := nofun
  within x hx hrunning := by
    rw [if_pos (Nat.le_of_lt_succ hx)] at hrunning
    cases hrunning

variable (t : Transactions) {s s' : Nat} {x : Nat}

def Ended (x : Nat) : Prop := t.status x ≠ .running

def Committed (x : Nat) : Prop := t.status x = .committed

instance : DecidablePred t.Ended := fun x => inferInstanceAs (Decidable (t.status x ≠ .running))

instance : DecidablePred t.Committed :=
  fun x => inferInstanceAs (Decidable (t.status x = .committed))

variable {t} in
theorem Committed.ended (h : t.Committed x) : t.Ended x := by
  rw [Ended, h]
  decide

variable {t} in
theorem Ended.lt_next (h : t.Ended x) : x < t.next :=
  Nat.lt_of_le_of_lt (t.ended_le x h) t.latest_lt

theorem not_ended_of_own (h : t.own s = some x) : ¬t.Ended x :=
  fun hended => hended (t.own_running s x h).2

/-- The ids the snapshots of session `s` list: a transaction's own is left out. -/
def inProgress (s : Nat) : List Nat :=
  (List.range (t.latest + 1)).filter fun x => decide (¬t.Ended x ∧ t.own s ≠ some x)

theorem mem_inProgress : x ∈ t.inProgress s ↔ x ≤ t.latest ∧ ¬t.Ended x ∧ t.own s ≠ some x := by
  rw [inProgress, List.mem_filter, List.mem_range, Nat.lt_succ_iff, decide_eq_true_eq]

theorem inProgress_ascending : (t.inProgress s).Pairwise (· < ·) :=
  List.pairwise_lt_range.sublist List.filter_sublist

theorem zero_not_mem_inProgress : 0 ∉ t.inProgress s :=
  fun h => (t.mem_inProgress.mp h).2.1 t.zero_ended

/-- The least running id, the session's own included, or one past the latest ended. -/
def oldest (s : Nat) : Nat :=
  min ((t.inProgress s).headD (t.latest + 1)) ((t.own s).elim (t.latest + 1) (min (t.latest + 1)))

theorem oldest_le : t.oldest s ≤ t.latest + 1 := by
  apply le_trans (min_le_right _ _)
  cases t.own s with
  | none => exact le_rfl
  | some x => exact min_le_left _ _

theorem oldest_le_of_mem (h : x ∈ t.inProgress s) : t.oldest s ≤ x := by
  apply le_trans (min_le_left _ _)
  have hsorted := t.inProgress_ascending (s := s)
  revert h hsorted
  cases t.inProgress s with
  | nil => exact fun h => absurd h List.not_mem_nil
  | cons y ys =>
    intro h hsorted
    rcases List.mem_cons.mp h with rfl | h
    · exact le_rfl
    · exact Nat.le_of_lt ((List.pairwise_cons.mp hsorted).1 x h)

theorem oldest_pos : 0 < t.oldest s := by
  apply lt_min
  · have hzero := t.zero_not_mem_inProgress (s := s)
    cases hlist : t.inProgress s with
    | nil => exact Nat.succ_pos _
    | cons y ys =>
      apply Nat.pos_of_ne_zero
      rintro rfl
      exact hzero (hlist ▸ List.mem_cons_self)
  · cases hown : t.own s with
    | none => exact Nat.succ_pos _
    | some x =>
      refine lt_min (Nat.succ_pos _) (Nat.pos_of_ne_zero ?_)
      rintro rfl
      exact t.zero_ended (t.own_running s 0 hown).2

/-- `pg_current_snapshot()` in session `s`. -/
def snapshot (s : Nat) : Snapshot where
  xmin := t.oldest s
  xmax := t.latest + 1
  xip := t.inProgress s
  xmin_pos := t.oldest_pos
  xmin_le := t.oldest_le
  ascending := t.inProgress_ascending
  within _ hx := ⟨t.oldest_le_of_mem hx, Nat.lt_succ_of_le (t.mem_inProgress.mp hx).1⟩

/-- A snapshot sees what had ended, and the session's own transaction once a later one has. -/
theorem snapshot_visible :
    (t.snapshot s).visible x ↔ t.Ended x ∨ t.own s = some x ∧ x ≤ t.latest := by
  rw [Snapshot.visible_iff]
  change x < t.latest + 1 ∧ x ∉ t.inProgress s ↔ _
  rw [mem_inProgress, Nat.lt_succ_iff]
  constructor
  · rintro ⟨hle, hnot⟩
    by_contra hneither
    rw [not_or, not_and'] at hneither
    exact hnot ⟨hle, hneither.1, hneither.2 hle⟩
  · rintro (hended | ⟨hown, hle⟩)
    · exact ⟨t.ended_le x hended, fun h => h.2.1 hended⟩
    · exact ⟨hle, fun h => h.2.2 hown⟩

/-- The running ids of this database's sessions, as `pg_stat_activity` shows them. -/
def sessionXids : List Nat :=
  ((List.range t.next).filter fun x =>
    decide (¬t.Ended x ∧ (t.seat x = .session ∨ t.seat x = .preparing))).map (· % 2 ^ 32)

/-- The ids of this database's prepared transactions, as `pg_prepared_xacts` shows them. -/
def preparedXids : List Nat :=
  ((List.range t.next).filter fun x =>
    decide (¬t.Ended x ∧ (t.seat x = .prepared ∨ t.seat x = .preparing))).map (· % 2 ^ 32)

theorem mem_sessionXids (hnext : x < t.next) (hrunning : ¬t.Ended x)
    (hseat : t.seat x = .session ∨ t.seat x = .preparing) : x % 2 ^ 32 ∈ t.sessionXids :=
  List.mem_map.mpr ⟨x, List.mem_filter.mpr
    ⟨List.mem_range.mpr hnext, decide_eq_true ⟨hrunning, hseat⟩⟩, rfl⟩

theorem mem_preparedXids (hnext : x < t.next) (hrunning : ¬t.Ended x)
    (hseat : t.seat x = .prepared ∨ t.seat x = .preparing) : x % 2 ^ 32 ∈ t.preparedXids :=
  List.mem_map.mpr ⟨x, List.mem_filter.mpr
    ⟨List.mem_range.mpr hnext, decide_eq_true ⟨hrunning, hseat⟩⟩, rfl⟩

/-- The next id becomes session `s`'s own. The server refuses to draw one further than `2 ^ 31`
from the oldest still running. -/
def assign (s : Nat) (seat : Seat) : Option Transactions :=
  if h : t.own s = none ∧ seat ≠ .prepared ∧
      ∀ x < t.next + 1, t.status x = .running → t.next + 1 ≤ x + 2 ^ 31 then
    some { t with
      next := t.next + 1
      own := Function.update t.own s (some t.next)
      seat := Function.update t.seat t.next seat
      latest_lt := Nat.lt_succ_of_lt t.latest_lt
      own_running := by
        intro s' x hx
        by_cases hs : s' = s
        · subst hs
          rw [Function.update_self, Option.some.injEq] at hx
          subst hx
          refine ⟨Nat.lt_succ_self _, by_contra fun hstatus => ?_⟩
          exact Nat.lt_irrefl _ (Ended.lt_next (t := t) hstatus)
        · rw [Function.update_of_ne hs] at hx
          have := t.own_running s' x hx
          exact ⟨Nat.lt_succ_of_lt this.1, this.2⟩
      own_inj := by
        intro s' s'' x hx hx'
        by_cases hs : s' = s <;> by_cases hs' : s'' = s
        · exact hs.trans hs'.symm
        · subst hs
          rw [Function.update_self, Option.some.injEq] at hx
          rw [Function.update_of_ne hs'] at hx'
          exact absurd (t.own_running s'' x hx').1 (by omega)
        · subst hs'
          rw [Function.update_self, Option.some.injEq] at hx'
          rw [Function.update_of_ne hs] at hx
          exact absurd (t.own_running s' x hx).1 (by omega)
        · rw [Function.update_of_ne hs] at hx
          rw [Function.update_of_ne hs'] at hx'
          exact t.own_inj s' s'' x hx hx'
      own_seat := by
        intro s' x hx
        by_cases hs : s' = s
        · subst hs
          rw [Function.update_self, Option.some.injEq] at hx
          subst hx
          rw [Function.update_self]
          exact h.2.1
        · rw [Function.update_of_ne hs] at hx
          have hne : x ≠ t.next := Nat.ne_of_lt (t.own_running s' x hx).1
          rw [Function.update_of_ne hne]
          exact t.own_seat s' x hx
      within := h.2.2 }
  else none

/-- The running transaction `x` ends; the session it was in, if any, is out of it. -/
def close (x : Nat) (hx : x < t.next) (commits : Bool) : Transactions where
  next := t.next
  latest := max t.latest x
  status := Function.update t.status x (if commits then .committed else .aborted)
  own s := if t.own s = some x then none else t.own s
  seat := t.seat
  latest_lt := max_lt t.latest_lt hx
  ended_le := by
    intro y hy
    by_cases hyx : y = x
    · exact hyx ▸ le_max_right _ _
    · rw [Function.update_of_ne hyx] at hy
      exact le_trans (t.ended_le y hy) (le_max_left _ _)
  zero_ended := by
    by_cases hzero : 0 = x
    · subst hzero
      rw [Function.update_self]
      cases commits <;> decide
    · rw [Function.update_of_ne hzero]
      exact t.zero_ended
  own_running := by
    intro s y hy
    split at hy
    · cases hy
    · rename_i hne
      have hyx : y ≠ x := fun h => hne (h ▸ hy)
      rw [Function.update_of_ne hyx]
      exact t.own_running s y hy
  own_inj := by
    intro s s' y hy hy'
    split at hy
    · cases hy
    · split at hy'
      · cases hy'
      · exact t.own_inj s s' y hy hy'
  own_seat := by
    intro s y hy
    split at hy
    · cases hy
    · exact t.own_seat s y hy
  within := by
    intro y hy hrunning
    by_cases hyx : y = x
    · subst hyx
      rw [Function.update_self] at hrunning
      cases commits <;> cases hrunning
    · rw [Function.update_of_ne hyx] at hrunning
      exact t.within y hy hrunning

/-- `COMMIT` or `ROLLBACK` in session `s`. -/
def finish (s : Nat) (commits : Bool) : Transactions :=
  match h : t.own s with
  | none => t
  | some x => t.close x (t.own_running s x h).1 commits

/-- `PREPARE TRANSACTION` in session `s`, as far as the views show it: the transaction is listed
as prepared, and has not left the session. -/
def prepare (s : Nat) : Option Transactions :=
  match t.own s with
  | none => none
  | some x =>
    if t.seat x = .session then
      some { t with
        seat := Function.update t.seat x .preparing
        own_seat := by
          intro s' y hy
          by_cases hyx : y = x
          · subst hyx
            rw [Function.update_self]
            decide
          · rw [Function.update_of_ne hyx]
            exact t.own_seat s' y hy }
    else none

/-- The end of `PREPARE TRANSACTION`: the session is out of the transaction. -/
def leave (s : Nat) : Option Transactions :=
  match h : t.own s with
  | none => none
  | some x =>
    if t.seat x = .preparing then
      some { t with
        own := Function.update t.own s none
        seat := Function.update t.seat x .prepared
        own_running := by
          intro s' y hy
          by_cases hs : s' = s
          · rw [hs, Function.update_self] at hy
            cases hy
          · rw [Function.update_of_ne hs] at hy
            exact t.own_running s' y hy
        own_inj := by
          intro s' s'' y hy hy'
          by_cases hs : s' = s
          · rw [hs, Function.update_self] at hy
            cases hy
          · by_cases hs' : s'' = s
            · rw [hs', Function.update_self] at hy'
              cases hy'
            · rw [Function.update_of_ne hs] at hy
              rw [Function.update_of_ne hs'] at hy'
              exact t.own_inj s' s'' y hy hy'
        own_seat := by
          intro s' y hy
          by_cases hs : s' = s
          · rw [hs, Function.update_self] at hy
            cases hy
          · rw [Function.update_of_ne hs] at hy
            have hyx : y ≠ x := fun hyx => hs (t.own_inj s' s x (hyx ▸ hy) h)
            rw [Function.update_of_ne hyx]
            exact t.own_seat s' y hy }
    else none

/-- `COMMIT PREPARED` or `ROLLBACK PREPARED`. -/
def resolve (x : Nat) (commits : Bool) : Option Transactions :=
  if h : x < t.next ∧ ¬t.Ended x ∧ t.seat x = .prepared then some (t.close x h.1 commits) else none

variable {t} {t' : Transactions} {commits : Bool} {seat : Seat}

@[simp] theorem close_ended {y : Nat} {hx : x < t.next} :
    (t.close x hx commits).Ended y ↔ y = x ∨ t.Ended y := by
  change Function.update t.status x (if commits then .committed else .aborted) y ≠ .running ↔ _
  by_cases hyx : y = x
  · subst hyx
    rw [Function.update_self]
    cases commits <;> simp
  · rw [Function.update_of_ne hyx]
    simp [hyx, Ended]

theorem close_status_of_ne {y : Nat} {hx : x < t.next} (h : y ≠ x) :
    (t.close x hx commits).status y = t.status y := Function.update_of_ne h _ _

theorem close_status_self {hx : x < t.next} :
    (t.close x hx commits).status x = if commits then .committed else .aborted :=
  Function.update_self ..

/-- What a step of session `s` leaves of the transactions: no end is undone, and nobody else's
running transaction ends, other than a prepared one. -/
structure Advances (s : Nat) (t t' : Transactions) : Prop where
  next : t.next ≤ t'.next
  latest : t.latest ≤ t'.latest
  status : ∀ x, t.Ended x → t'.status x = t.status x
  ends : ∀ x, t'.Ended x → t.Ended x ∨ t.own s = some x ∨ ∀ s', t.own s' ≠ some x
  own : ∀ s', s' ≠ s → t'.own s' = t.own s'
  drawn : ∀ x, t'.own s = some x → t.own s = some x ∨ x = t.next
  elsewhere : ∀ x < t.next, (t'.seat x = .elsewhere ↔ t.seat x = .elsewhere)
  listed : ∀ x < t.next, t'.seat x = .session ∨ t'.seat x = .preparing →
    t.seat x = .session ∨ t.seat x = .preparing

theorem Advances.refl (s : Nat) (t : Transactions) : Advances s t t where
  next := le_rfl
  latest := le_rfl
  status _ _ := rfl
  ends _ := Or.inl
  own _ _ := rfl
  drawn _ := Or.inl
  elsewhere _ _ := .rfl
  listed _ _ := id

theorem Advances.ended (h : Advances s t t') (hx : t.Ended x) : t'.Ended x := by
  rw [Ended, h.status x hx]
  exact hx

theorem Advances.committed (h : Advances s t t') (hx : t.Committed x) : t'.Committed x :=
  (h.status x hx.ended).trans hx

theorem assign_eq_some (h : t.assign s seat = some t') :
    t'.next = t.next + 1 ∧ t'.latest = t.latest ∧ t'.status = t.status ∧ t.own s = none ∧
      t'.own = Function.update t.own s (some t.next) ∧
      t'.seat = Function.update t.seat t.next seat := by
  rw [assign] at h
  split at h
  · rename_i hguard
    cases h
    exact ⟨rfl, rfl, rfl, hguard.1, rfl, rfl⟩
  · cases h

theorem assign_advances (h : t.assign s seat = some t') : Advances s t t' := by
  obtain ⟨hnext, hlatest, hstatus, _, hown, hseat⟩ := assign_eq_some h
  have hold : ∀ x < t.next, t'.seat x = t.seat x := fun x hx => by
    rw [hseat, Function.update_of_ne (Nat.ne_of_lt hx)]
  refine ⟨by omega, hlatest.ge, fun x _ => by rw [hstatus], fun x hx => ?_, fun s' hs => ?_,
    fun x hx => ?_, fun x hx => by rw [hold x hx], fun x hx => by rw [hold x hx]; exact id⟩
  · exact Or.inl (by rwa [Ended, hstatus] at hx)
  · rw [hown, Function.update_of_ne hs]
  · rw [hown, Function.update_self, Option.some.injEq] at hx
    exact Or.inr hx.symm

theorem close_advances {hx : x < t.next} (hrunning : ¬t.Ended x)
    (hown : t.own s = some x ∨ ∀ s', t.own s' ≠ some x) :
    Advances s t (t.close x hx commits) := by
  refine ⟨le_rfl, le_max_left _ _, fun y hy => ?_, fun y hy => ?_, fun s' hs => ?_,
    fun y hy => ?_, fun _ _ => .rfl, fun _ _ => id⟩
  · exact close_status_of_ne fun hyx => hrunning (hyx ▸ hy)
  · rcases close_ended.mp hy with rfl | hy
    · exact Or.inr hown
    · exact Or.inl hy
  · refine if_neg fun hown' => ?_
    rcases hown with hown | hown
    · exact hs (t.own_inj s' s x hown' hown)
    · exact hown s' hown'
  · change (if t.own s = some x then none else t.own s) = some y at hy
    split at hy
    · cases hy
    · exact Or.inl hy

theorem finish_of_none (h : t.own s = none) : t.finish s commits = t := by
  rw [finish]
  split
  · rfl
  · rename_i hsome
    rw [h] at hsome
    cases hsome

theorem finish_of_some (h : t.own s = some x) :
    t.finish s commits = t.close x (t.own_running s x h).1 commits := by
  rw [finish]
  split
  · rename_i hnone
    rw [h] at hnone
    cases hnone
  · rename_i y hsome
    rw [h, Option.some.injEq] at hsome
    subst hsome
    rfl

theorem finish_ended {y : Nat} : (t.finish s commits).Ended y ↔ t.own s = some y ∨ t.Ended y := by
  cases hown : t.own s with
  | none => simp [finish_of_none hown]
  | some x => simp [finish_of_some hown, eq_comm]

theorem close_committed {y : Nat} {hx : x < t.next} (hrunning : ¬t.Ended x) :
    (t.close x hx commits).Committed y ↔ commits = true ∧ x = y ∨ t.Committed y := by
  by_cases hyx : y = x
  · subst hyx
    rw [Committed, close_status_self]
    have : ¬t.Committed y := fun h => hrunning h.ended
    cases commits <;> simp [this]
  · rw [Committed, close_status_of_ne hyx]
    simp [Committed, Ne.symm hyx]

theorem finish_committed {y : Nat} :
    (t.finish s commits).Committed y ↔ commits = true ∧ t.own s = some y ∨ t.Committed y := by
  cases hown : t.own s with
  | none => simp [finish_of_none hown]
  | some x =>
    rw [finish_of_some hown, close_committed (t.not_ended_of_own hown), Option.some.injEq]

theorem finish_own : (t.finish s commits).own s = none := by
  cases hown : t.own s with
  | none => rw [finish_of_none hown, hown]
  | some x =>
    rw [finish_of_some hown]
    exact if_pos hown

theorem finish_advances : Advances s t (t.finish s commits) := by
  cases hown : t.own s with
  | none =>
    rw [finish_of_none hown]
    exact Advances.refl s t
  | some x =>
    rw [finish_of_some hown]
    exact close_advances (t.not_ended_of_own hown) (Or.inl hown)

theorem prepare_eq_some (h : t.prepare s = some t') :
    t'.next = t.next ∧ t'.latest = t.latest ∧ t'.status = t.status ∧ t'.own = t.own ∧
      ∃ x, t.own s = some x ∧ t.seat x = .session ∧ t'.seat = Function.update t.seat x .preparing := by
  rw [prepare] at h
  split at h
  · cases h
  · rename_i x hown
    split at h
    · rename_i hseat
      cases h
      exact ⟨rfl, rfl, rfl, rfl, x, hown, hseat, rfl⟩
    · cases h

theorem prepare_advances (h : t.prepare s = some t') : Advances s t t' := by
  obtain ⟨hnext, hlatest, hstatus, hown, x, _, hsession, hseat⟩ := prepare_eq_some h
  refine ⟨hnext.ge, hlatest.ge, fun y _ => by rw [hstatus], fun y hy => ?_, fun s' _ => by rw [hown],
    fun y hy => Or.inl (hown ▸ hy), fun y _ => ?_, fun y _ => ?_⟩
  · exact Or.inl (by rwa [Ended, hstatus] at hy)
  · rw [hseat, Function.update_apply]
    split <;> simp_all
  · rw [hseat, Function.update_apply]
    split <;> simp_all

theorem leave_eq_some (h : t.leave s = some t') :
    t'.next = t.next ∧ t'.latest = t.latest ∧ t'.status = t.status ∧
      t'.own = Function.update t.own s none ∧
      ∃ x, t.own s = some x ∧ t.seat x = .preparing ∧
        t'.seat = Function.update t.seat x .prepared := by
  rw [leave] at h
  split at h
  · cases h
  · rename_i x hown
    split at h
    · rename_i hseat
      cases h
      exact ⟨rfl, rfl, rfl, rfl, x, hown, hseat, rfl⟩
    · cases h

theorem leave_advances (h : t.leave s = some t') : Advances s t t' := by
  obtain ⟨hnext, hlatest, hstatus, hown, x, _, hpreparing, hseat⟩ := leave_eq_some h
  refine ⟨hnext.ge, hlatest.ge, fun y _ => by rw [hstatus], fun y hy => ?_, fun s' hs => ?_,
    fun y hy => ?_, fun y _ => ?_, fun y _ => ?_⟩
  · exact Or.inl (by rwa [Ended, hstatus] at hy)
  · rw [hown, Function.update_of_ne hs]
  · rw [hown, Function.update_self] at hy
    cases hy
  · rw [hseat, Function.update_apply]
    split <;> simp_all
  · rw [hseat, Function.update_apply]
    split <;> simp_all

theorem resolve_eq_some (h : t.resolve x commits = some t') :
    ∃ hx : x < t.next, ¬t.Ended x ∧ (∀ s', t.own s' ≠ some x) ∧ t' = t.close x hx commits := by
  rw [resolve] at h
  split at h
  · rename_i hguard
    cases h
    exact ⟨hguard.1, hguard.2.1, fun s' hown => t.own_seat s' x hown hguard.2.2, rfl⟩
  · cases h

theorem resolve_committed {y : Nat} (h : t.resolve x commits = some t') :
    t'.Committed y ↔ commits = true ∧ x = y ∨ t.Committed y := by
  obtain ⟨hx, hrunning, _, rfl⟩ := resolve_eq_some h
  exact close_committed hrunning

theorem resolve_advances (h : t.resolve x commits = some t') : Advances s t t' := by
  obtain ⟨hx, hrunning, hown, rfl⟩ := resolve_eq_some h
  exact close_advances hrunning (Or.inr hown)

end Transactions

end AsceticDdd.Postgres
