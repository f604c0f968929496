import AsceticDdd.Outbox.Owed
import AsceticDdd.Outbox.Serving

/-!
# Where a rewind lands

Unless the ring's bound is raised between the reading of it and the grant of the key the same
statement waits for, a rewind lands where no row is gone.
-/

namespace AsceticDdd.Outbox

open Postgres Interleaving

variable {o : PgOutbox} {w w' w'' : World} {i : Nat}

/-- A step that makes no ring, and raises no bound past a call that read it and waits for the key. -/
def Rewinds (w : World) (i : Nat) (a : Act) : Prop := a ≠ .migrate ∧ RaisesNone w i a

theorem rewinds_allows (h : ∀ s, ¬(w.procs s).MakesRing) (hrun : o.program.Run Rewinds w w') :
    o.program.Run (Allows fun _ => True) w w' ∧ ∀ s, ¬(w'.procs s).MakesRing := by
  obtain ⟨hrun, hnone⟩ := Program.Run.sessions (I := fun p => ¬p.MakesRing)
    (fun _ _ _ _ _ ha hp hstep => hstep.makesRing ha.1 hp) h hrun
  refine ⟨hrun.mono ?_, hnone⟩
  rintro v i a ⟨ha, hnone⟩
  exact ⟨ha.2, commitsAbove_of_makesRing hnone⟩

/-- A committed rewind lands at or above the ring's bound: every committed row from there on is in
the table. Each slot's position of the selection owes them, with nothing handed on since; and what it
owes is handed on before the position says it is done. -/
theorem rewind_lands_on_rows (hw : Resting w) (hrun : o.program.Run Rewinds w w') {landings : List Nat}
    (hready : w'.procs i = .producer landings .ready) (hcommit : o.program.act w' i .commit = some w'') :
    (∀ xid ∈ landings, (∀ v, w''.shared.metaRow.intactFrom = some v → v ≤ xid) ∧
      ∀ r ∈ w''.shared.written, w''.shared.transactions.Committed r.transactionId →
        xid ≤ r.transactionId → r ∈ w''.shared.table) ∧
    ∀ selection requested read move granted snapped xid, o.program.Run Rewinds w granted →
      SetsPosition o Rewinds i selection requested read move granted snapped w' → move.landing = some xid →
      xid ∈ landings ∧ ∀ slot < o.slots, ∃ row,
        (w''.shared.cells (.of selection slot)).committed = some row ∧
        (w''.shared.cells (.of selection slot)).handed = [] ∧
        (∀ r : Row, 0 < r.transactionId → xid ≤ r.transactionId → row.toPosition.Owes r) ∧
        ∀ w₃, o.program.Run Rewinds w'' w₃ →
          (w₃.shared.cells (.of selection slot)).began = (w''.shared.cells (.of selection slot)).began →
          ∀ (row₃ : PositionRow) (r : Row), (w₃.shared.cells (.of selection slot)).committed = some row₃ →
          r ∈ w₃.shared.written → w₃.shared.transactions.Committed r.transactionId →
          o.Covers (.of selection slot) r → xid ≤ r.transactionId → row₃.toPosition.Passed r →
          r ∈ (w₃.shared.cells (.of selection slot)).handed := by
  have hshared := commit_eq hready hcommit
  have hraises : Rewinds w' i .commit := by
    refine ⟨nofun, fun _ v hv => ?_⟩
    rw [hready] at hv
    cases hv
  obtain ⟨hallowed, _⟩ := rewinds_allows hw.not_makesRing hrun
  obtain ⟨hallowed', hnone⟩ := rewinds_allows hw.not_makesRing (hrun.step hraises hcommit)
  have hinv := hw.invariant.run (fun _ _ _ => id) hallowed'
  have hok := (hw.invariant.run (fun _ _ _ => id) hallowed).ok i
  rw [hready] at hok
  refine ⟨fun xid hxid => ?_, fun selection requested read move granted snapped xid hgranted hcall hlanding => ?_⟩
  · have hbound : ∀ v, w''.shared.metaRow.intactFrom = some v → v ≤ xid := by
      rw [hshared]
      exact hok.1.landings xid hxid
    refine ⟨hbound, fun r hr hcommitted hle => ?_⟩
    by_contra hgone
    obtain ⟨v, hv, hlt⟩ := hinv.consistent.intact r ⟨hr, hcommitted, Or.inl hgone⟩
    have := hbound v hv
    omega
  · obtain ⟨_, ⟨landings', hready', hsub⟩, hall⟩ := hcall.moved (hw.allHeld.run hgranted)
    cases hready.symm.trans hready'
    refine ⟨hsub (by rw [hlanding]; exact List.mem_cons_self), fun slot hslot => ?_⟩
    obtain ⟨_, before, row, _, hmoved, hlock, hpending⟩ := hall slot hslot
    obtain ⟨_, hanew, hhanding, _⟩ := hok.1.anew _ row hlock hpending
    have hcell : w''.shared.cells (.of selection slot) = ⟨some row, none, none, row.toPosition, [], none, [], []⟩ := by
      rw [hshared, finish_pending hlock hpending, Cell.beganNext, Cell.handedNext, hanew, hhanding]
      rfl
    have howes : ∀ r : Row, 0 < r.transactionId → xid ≤ r.transactionId → row.toPosition.Owes r :=
      fun r hr hle => owes_of_landing hmoved hlanding hr hle
    rw [hcell]
    refine ⟨row, rfl, rfl, howes, fun w₃ hlater hbegan row₃ r hrow₃ hr hcommitted hcovers hle hpassed => ?_⟩
    obtain ⟨hlater, _⟩ := rewinds_allows hnone hlater
    have hinv₃ := hinv.run (fun _ _ _ => id) hlater
    have hsound₃ := (hinv₃.consistent.cells _).committed_sound row₃ hrow₃
    refine (hsound₃.covered r hr hcommitted trivial hcovers hpassed).resolve_right fun hpast => ?_
    rw [hbegan] at hpast
    exact howes r (hinv₃.consistent.rows.ids_pos r hr) hle hpast

section Landed

/-- A new outbox, with the bounds of a ring made before its first row. -/
def ringed : World := ⟨{ Database.fresh 5 true with metaRow := ⟨some 6, some 6, none⟩ }, fun _ => .idle⟩

theorem resting_ringed : Resting ringed where
  procs _ := Or.inl ⟨rfl, rfl⟩
  key _ := AdvisoryLock.not_holds_free
  partitions _ := rfl
  drawn _ := rfl
  written := rfl
  positions := .nil
  position_lt := nofun
  ids := nofun
  here := nofun
  cells _ := ⟨⟨rfl, rfl, rfl⟩, ⟨rfl, rfl, rfl⟩, nofun, nofun, nofun, nofun⟩
  keys _ hne := absurd rfl hne
  calls := rfl
  bounds := rfl

/-- Whether a session waits for the key in a call that read the bound. -/
def Process.waits : Process → Bool
  | .producer _ (.moving _ (.holding _ _ _)) => true
  | _ => false

/-- Five sessions are at work, and when one raises the bound none waits for the key in a call. -/
def Unread (w : World) (i : Nat) : Prop :=
  i < 5 ∧ ((w.procs i).raises.isSome → ∀ j < 5, (w.procs j).waits = false)

instance (w : World) (i : Nat) : Decidable (Unread w i) := inferInstanceAs (Decidable (_ ∧ _))

theorem rewinds_of_unread {v : World} {a : Act} (ha : a ≠ .migrate) (hunread : Unread v i)
    (hidle : ∀ j, ¬j < 5 → v.procs j = ringed.procs j) : Rewinds v i a := by
  refine ⟨ha, fun _ bound hraises j landings selection kept move read hj => ?_⟩
  have hnone : (v.procs j).waits = false := by
    by_cases hlt : j < 5
    · exact hunread.2 (by rw [hraises]; rfl) j hlt
    · rw [hidle j hlt]
      rfl
  rw [hj] at hnone
  cases hnone

theorem rewinds_of_raises {v : World} {a : Act} (ha : a ≠ .migrate) (hraises : (v.procs i).raises.isNone) :
    Rewinds v i a :=
  ⟨ha, fun _ _ hsome => absurd (hraises.symm.trans (congrArg Option.isNone hsome)) nofun⟩

/-- A group was handed a row on, and the ring has moved past it. -/
def moveOn : List (Nat × Act) :=
  publish ++ [(0, .commit)] ++ deliver ++ [(2, .begin), (2, .assign), (2, .commit), (0, .begin)]

/-- A pass empties the row's generation, and another row is handed on; then the group is moved back, to where
the ring is intact from. -/
def moveAfter : List (Nat × Act) :=
  List.flatten [moveOn, (4, .reclaim) :: List.replicate 17 (4, .next),
    [(4, .commit), (0, .assign), (0, .publish ⟨"orders/7", [], .null⟩ "now"), (0, .next), (0, .commit)],
    (1, .dispatch ⟨"billing", ""⟩ 10) :: List.replicate 2 (1, .next),
    (1, .take (some 0)) :: List.replicate 5 (1, .next),
    [(1, .commit), (3, .begin), (3, .setPosition ⟨"billing", ""⟩ (.fromId 7)), (3, .next)]]

def rewinding : World := oneSlot.program.after ringed moveAfter (by decide +kernel)

/-- Meanwhile another pass finds the key taken, and a row is written. -/
def ensureAfter : List (Nat × Act) :=
  List.flatten [List.replicate 4 (3, .next), [(4, .reclaim), (4, .next), (4, .commit), (0, .begin), (0, .assign),
    (0, .publish ⟨"orders/7", [], .null⟩ "now"), (0, .next), (3, .next)]]

def ensuredAfter : World := oneSlot.program.after rewinding ensureAfter (by decide +kernel)

def updatingAfter : World := (oneSlot.program.act ensuredAfter 3 .next).get (by decide +kernel)

def finishAfter : List (Nat × Act) := [(0, .commit)] ++ List.replicate 2 (3, .next)

def rewound : World := oneSlot.program.after updatingAfter finishAfter (by decide +kernel)

def rewindCommitted : World := (oneSlot.program.act rewound 3 .commit).get (by decide +kernel)

/-- Afterwards the group is handed on what it is owed. -/
def handAgain : List (Nat × Act) :=
  List.flatten [(1, .dispatch ⟨"billing", ""⟩ 10) :: List.replicate 2 (1, .next),
    (1, .take (some 0)) :: List.replicate 6 (1, .next), [(1, .commit)]]

def handedAgain : World := oneSlot.program.after rewindCommitted handAgain (by decide +kernel)

def second : Row := ⟨⟨"orders/7", [], .null⟩, "now", 2, 8⟩

theorem rewinding_run : oneSlot.program.Run Rewinds ringed rewinding := by
  have hunread : oneSlot.program.Run (fun v i a => Unread v i ∧ a ≠ .migrate) ringed rewinding := by
    refine Program.Run.checked (fun v i _ => decide (Unread v i)) (by decide +kernel) fun v s hs hcheck =>
      ⟨of_decide_eq_true hcheck, ?_⟩
    revert s
    simp [moveAfter, moveOn, publish, deliver]
  exact (hunread.among (· < 5) fun _ _ _ h => h.1.1).mono fun _ _ _ h => rewinds_of_unread h.1.2 h.1.1 h.2

theorem setsPosition_after : SetsPosition oneSlot Rewinds 3 ⟨"billing", ""⟩ (.fromId 7) (some 7) (.fromId 7)
    rewinding ensuredAfter rewound where
  asked := ⟨[], false, rfl⟩
  ensured := ⟨[7], rfl⟩
  update := by
    refine ⟨updatingAfter, ?_, ⟨⟨nofun, fun ha => nomatch ha⟩, fun _ => ⟨nofun, nofun, nofun, nofun⟩⟩,
      (Option.some_get _).symm, ?_⟩
    · refine Program.Run.checked (fun v i _ => (v.procs i).raises.isNone) (by decide +kernel) fun v s hs hcheck =>
        ⟨rewinds_of_raises ?_ hcheck, ?_⟩
      · revert s
        simp [ensureAfter]
      · revert s
        simp [ensureAfter, Stays]
    · refine Program.Run.checked (fun v i _ => (v.procs i).raises.isNone) (by decide +kernel) fun v s hs hcheck =>
        ⟨rewinds_of_raises ?_ hcheck, ?_⟩
      · revert s
        simp [finishAfter]
      · revert s
        simp [finishAfter, Stays]
  ready := ⟨[7], rfl⟩

theorem rewind_lands_on_rows_emptied : rewindCommitted.shared.metaRow.intactFrom = some 7 ∧
    (∀ r ∈ rewindCommitted.shared.written, rewindCommitted.shared.transactions.Committed r.transactionId →
      7 ≤ r.transactionId → r ∈ rewindCommitted.shared.table) ∧
    (∃ row, (rewindCommitted.shared.cells ⟨"billing", "", 0⟩).committed = some row ∧
      (rewindCommitted.shared.cells ⟨"billing", "", 0⟩).handed = [] ∧
      ∀ r : Row, 0 < r.transactionId → 7 ≤ r.transactionId → row.toPosition.Owes r) ∧
    second ∈ (handedAgain.shared.cells ⟨"billing", "", 0⟩).handed := by
  have hready : rewound.procs 3 = .producer [7] .ready := rfl
  have hbefore : oneSlot.program.Run Rewinds rewinding rewound := by
    obtain ⟨_, _, ⟨_, htakes⟩, _⟩ := setsPosition_after
    exact (htakes.before.trans htakes.run).mono fun _ _ _ h => h.1
  obtain ⟨hlands, hrewound⟩ := rewind_lands_on_rows resting_ringed (rewinding_run.trans hbefore) hready
    (Option.some_get (by decide +kernel)).symm
  obtain ⟨_, htable⟩ := hlands 7 List.mem_cons_self
  obtain ⟨_, hslots⟩ := hrewound _ _ _ _ _ _ 7 rewinding_run setsPosition_after rfl
  obtain ⟨row, hrow, hhanded, howes, hlater⟩ := hslots 0 (by decide)
  refine ⟨by decide +kernel, htable, ⟨row, hrow, hhanded, howes⟩, ?_⟩
  refine hlater handedAgain ?_ (by decide +kernel) _ second (Option.some_get (by decide +kernel)).symm
    (by decide +kernel) (by decide +kernel) (by decide +kernel) (by decide) (Or.inl (by decide +kernel))
  refine Program.Run.checked (fun v i _ => (v.procs i).raises.isNone) (by decide +kernel) fun v s hs hcheck =>
    rewinds_of_raises ?_ hcheck
  revert s
  simp [handAgain]

end Landed

section Stale

/-- A rewind asked for while a pass holds the key and empties the row's generation. -/
def staleRewind : List (Nat × Act) :=
  [(4, .reclaim), (4, .next), (0, .setPosition ⟨"billing", ""⟩ (.fromId 6))] ++
    List.replicate 16 (4, .next) ++ [(4, .commit)] ++ List.replicate 9 (0, .next)

def landed : World := worldAfter ringed (moveOn ++ staleRewind) (by decide +kernel)

/-- The rewind lands below the bound, on a row that its group is owed and that is gone. -/
theorem rewind_lands_on_rows_fails : landed.procs 0 = .producer [6] .ready ∧
    ∃ w, oneSlot.program.act landed 0 .commit = some w ∧ w.shared.metaRow.intactFrom = some 7 ∧
      published ∈ w.shared.written ∧ w.shared.transactions.Committed published.transactionId ∧
      6 ≤ published.transactionId ∧ published ∉ w.shared.table ∧
      ∃ row, (w.shared.cells ⟨"billing", "", 0⟩).committed = some row ∧ row.epoch = none ∧
        row.delivered.visible published.transactionId = false := by
  refine ⟨rfl, _, (Option.some_get (by decide +kernel)).symm, by decide +kernel, by decide +kernel,
    by decide +kernel, by decide +kernel, by decide +kernel, ?_⟩
  exact ⟨_, (Option.some_get (by decide +kernel)).symm, by decide +kernel, by decide +kernel⟩

end Stale

end AsceticDdd.Outbox
