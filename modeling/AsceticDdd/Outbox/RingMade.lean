import AsceticDdd.Outbox.Serving

/-!
# What the making of the ring keeps

A row is lost only when its transaction commits below the bound while the bound is read: the
statement before did not see its row, and the views after it no longer show its transaction.
-/

namespace AsceticDdd.Outbox

open Postgres Interleaving

variable {o : PgOutbox} {fair : Nat → Prop} {w w' w'' : World} {i : Nat}

theorem Resting.stationary (h : Resting w) {ok : World → Nat → Act → Prop}
    (hok : ∀ v i a, ok v i a → ¬a.Moves ∧ CommitsAbove fair v i a)
    (hrun : o.program.Run ok w w') : Invariant o fair w' := by
  obtain ⟨hrun, _⟩ := Program.Run.sessions (I := fun p => ¬p.Moves)
    (fun v i a _ _ ha hp hstep => hstep.moves (hok v i a ha).1 hp) h.not_moves hrun
  apply h.invariant.run _ hrun
  rintro v i a ⟨ha, hstill⟩
  exact ⟨raisesNone_of_moves hstill, (hok v i a ha).2⟩

/-- A committed row a position had not delivered lies above the bound, and the ring keeps it once. -/
theorem ring_keeps_undelivered {r : Row} (hw : Resting w)
    (hrun : o.program.Run
      (fun v i a => ¬a.Moves ∧ CommitsAbove (fun xid => xid = r.transactionId) v i a) w w')
    {bound : Nat} {rows : List Row} (hcopied : w'.procs i = .migrator (.copied bound rows))
    (hcommit : o.program.act w' i .commit = some w'') (hr : r ∈ w'.shared.written)
    (hcommitted : w'.shared.transactions.Committed r.transactionId) {key : PositionKey} {row : PositionRow}
    (hrow : (w'.shared.cells key).committed = some row)
    (hnew : row.delivered.visible r.transactionId = false) :
    bound ≤ r.transactionId ∧ w''.shared.table.count r = 1 := by
  have hinv : Invariant o (fun xid => xid = r.transactionId) w' := hw.stationary (fun _ _ _ => id) hrun
  have hkept : ¬w'.shared.Spent r := by
    intro hspent
    have hseen := (hinv.consistent.cells key).committed_spares row hrow r hspent rfl
    rw [hnew] at hseen
    cases hseen
  have hok := hinv.ok i
  rw [hcopied] at hok
  obtain ⟨_, _, hbound, _, hsub, _, hall⟩ := hok
  have htable : r ∈ w'.shared.table := by
    by_contra hgone
    exact hkept ⟨hr, hcommitted, Or.inl hgone⟩
  have hle : bound ≤ r.transactionId := by
    by_contra hlt
    exact hkept ⟨hr, hcommitted, Or.inr ⟨bound, hbound, by omega⟩⟩
  have htables : w''.shared.table = rows := by
    obtain ⟨d, p, hstep, rfl⟩ := (o.program.act_eq_some).mp hcommit
    rw [hcopied] at hstep
    cases hstep
    rfl
  refine ⟨hle, ?_⟩
  rw [htables]
  apply List.count_eq_one_of_mem
  · exact hinv.consistent.rows.written_nodup.sublist hsub
  · exact hall r htable hcommitted hle

section Kept

/-- The position of a group that an older binary handed everything on to. -/
def caughtUp : PositionRow := ⟨⟨(Database.fresh 5 false).snapshot 0, none⟩, 5, maxI64⟩

/-- An outbox with a group and no ring yet. -/
def unmade : World :=
  ⟨{ Database.fresh 5 false with
      cells := fun key => if key = ⟨"billing", "", 0⟩ then ⟨some caughtUp, none, none, caughtUp.toPosition, [], none, [], []⟩
        else .absent
      keys := [⟨"billing", "", 0⟩] },
    fun _ => .idle⟩

theorem resting_unmade : Resting unmade where
  procs _ := Or.inl ⟨rfl, rfl⟩
  key _ := AdvisoryLock.not_holds_free
  partitions _ := rfl
  drawn _ := rfl
  written := rfl
  positions := .nil
  position_lt := nofun
  ids := nofun
  here := nofun
  cells key := by
    by_cases hkey : key = ⟨"billing", "", 0⟩
    · simp only [unmade, hkey, if_pos]
      refine ⟨⟨rfl, rfl, rfl⟩, ⟨rfl, rfl, rfl⟩, ?_, ?_, ?_, ?_⟩ <;> rintro row
      · rintro ⟨⟩
        rfl
      · rintro ⟨⟩ x hx
        have hlt : x < 6 := (Snapshot.visible_iff.mp hx).1
        have hended : (if x ≤ 5 then Status.committed else .running) ≠ .running := by
          rw [if_pos (by omega)]
          decide
        exact hended
      · rintro e ⟨⟩ he
        cases he
      · rintro ⟨⟩ r hnew
        have hle : 6 ≤ r.transactionId := by
          by_contra hlt
          exact hnew (Or.inl (Snapshot.visible_iff.mpr ⟨Nat.lt_of_not_le hlt, List.not_mem_nil⟩))
        exact Or.inl hle
    · simp only [unmade, hkey, if_false]
      exact ⟨⟨rfl, rfl, rfl⟩, ⟨rfl, rfl, rfl⟩, nofun, nofun, nofun, nofun⟩
  keys key hne := by
    by_cases hkey : key = ⟨"billing", "", 0⟩
    · exact List.mem_singleton.mpr hkey
    · simp only [unmade, hkey, if_false] at hne
      exact absurd rfl hne
  calls := rfl
  bounds := rfl

/-- The bound read while it is looked for whose transactions are still open. -/
def Process.boundRead : Process → Option Nat
  | .migrator (.read _ bound _) | .migrator (.sessions _ bound _) => some bound
  | _ => none

/-- Four sessions are at work, and the bound read so far is at most this id. -/
def BoundAt (x : Nat) (w : World) (i : Nat) : Prop :=
  i < 4 ∧ ∀ j < 4, ∀ bound ∈ (w.procs j).boundRead, bound ≤ x

instance (x : Nat) (w : World) (i : Nat) : Decidable (BoundAt x w i) := inferInstanceAs (Decidable (_ ∧ _))

theorem commitsAbove_of_boundAt {x : Nat} {v : World} {a : Act} (hbound : BoundAt x v i)
    (hidle : ∀ j, ¬j < 4 → v.procs j = unmade.procs j) : CommitsAbove (fun xid => xid = x) v i a := by
  rintro y rfl - j next bound rows hj - - -
  by_cases hlt : j < 4
  · exact hbound.2 j hlt bound (by rcases hj with hj | hj <;> rw [hj] <;> rfl)
  · rw [hidle j hlt] at hj
    rcases hj with hj | hj <;> cases hj

/-- A row is there that the group is owed, and another is written; it commits when the bound has been read. -/
def makeRing : List (Nat × Act) :=
  List.flatten [publish,
    [(0, .commit), (2, .begin), (2, .assign), (2, .publish ⟨"orders/8", [], .null⟩ "later"), (2, .next)],
    (3, .migrate) :: List.replicate 6 (3, .next), (2, .commit) :: List.replicate 4 (3, .next),
    (3, .commit) :: List.replicate 2 (3, .next)]

def copied : World := oneSlot.program.after unmade makeRing (by decide +kernel)

def committedMeanwhile : Row := ⟨⟨"orders/8", [], .null⟩, "later", 2, 7⟩

theorem copied_run : oneSlot.program.Run
    (fun v i a => ¬a.Moves ∧ CommitsAbove (fun xid => xid = 7) v i a) unmade copied := by
  have hbounds : oneSlot.program.Run (fun v i a => BoundAt 7 v i ∧ ¬a.Moves) unmade copied := by
    refine Program.Run.checked (fun v i _ => decide (BoundAt 7 v i)) (by decide +kernel) fun v s hs hcheck =>
      ⟨of_decide_eq_true hcheck, ?_⟩
    revert s
    simp [makeRing, publish, Act.Moves]
  exact (hbounds.among (· < 4) fun _ _ _ h => h.1.1).mono fun _ _ _ h =>
    ⟨h.1.2, commitsAbove_of_boundAt h.1.1 h.2⟩

def ringMade : World := (oneSlot.program.act copied 3 .commit).get (by decide +kernel)

theorem ring_keeps_undelivered_meanwhile :
    6 ≤ committedMeanwhile.transactionId ∧ ringMade.shared.table.count committedMeanwhile = 1 := by
  have hcopied : copied.procs 3 = .migrator (.copied 6 [published, committedMeanwhile]) := rfl
  obtain ⟨row, hrow, hnew⟩ : ∃ row, (copied.shared.cells ⟨"billing", "", 0⟩).committed = some row ∧
      row.delivered.visible committedMeanwhile.transactionId = false :=
    ⟨_, (Option.some_get (by decide +kernel)).symm, by decide +kernel⟩
  exact ring_keeps_undelivered resting_unmade copied_run hcopied (Option.some_get _).symm
    (by decide +kernel) (by decide +kernel) hrow hnew

end Kept

section Lost

/-- A row is written and a later transaction ends, and the ring's copy bound is being read when the row's
transaction commits. -/
def commitBelow : List (Nat × Act) :=
  List.flatten [publish, [(2, .begin), (2, .assign), (2, .commit)], (3, .migrate) :: List.replicate 6 (3, .next),
    (0, .commit) :: List.replicate 4 (3, .next), (3, .commit) :: List.replicate 2 (3, .next), [(3, .commit)]]

def lost : World := oneSlot.program.after unmade commitBelow (by decide +kernel)

/-- A committed row its group had not delivered is below the bound, and gone. -/
theorem ring_keeps_undelivered_fails : published ∈ lost.shared.written ∧
    lost.shared.transactions.Committed published.transactionId ∧
    (∃ row, (lost.shared.cells ⟨"billing", "", 0⟩).committed = some row ∧
      row.delivered.visible published.transactionId = false) ∧
    lost.shared.bounds = [8] ∧ published.transactionId < 8 ∧ published ∉ lost.shared.table := by
  refine ⟨by decide +kernel, by decide +kernel, ?_, by decide +kernel, by decide +kernel,
    by decide +kernel⟩
  exact ⟨_, (Option.some_get (by decide +kernel)).symm, by decide +kernel⟩

end Lost

end AsceticDdd.Outbox
