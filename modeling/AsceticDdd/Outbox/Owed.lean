import AsceticDdd.Outbox.Moved

/-!
# What a move owes

A position owes the rows it does not say are done. A move says which: back to a transaction, the
rows from it on and those not delivered before; back to the start, those the ring still holds;
ahead to now, those of the transactions not committed yet.
-/

namespace AsceticDdd.Outbox

open Postgres Interleaving

variable {o : PgOutbox} {s : Nat} {selection : Selection}

def Position.Owes (p : Position) (r : Row) : Prop := ¬p.Passed r

/-- `intactFrom` is the ring's bound as the call read it, `delivered` what the position had
delivered, and `t` the transactions under the move's snapshot. -/
def Move.Says (intactFrom : Option Nat) (delivered : Snapshot) (t : Transactions) (r : Row) : Move → Prop
  | .fromId xid => xid ≤ r.transactionId ∨ delivered.visible r.transactionId = false
  | .start => ∀ xid, intactFrom = some xid →
      xid ≤ r.transactionId ∨ delivered.visible r.transactionId = false
  | .now => ¬t.Committed r.transactionId

theorem owes_of_below {delivered cut : Snapshot} {xid : Nat} (h : below delivered xid = some cut)
    {r : Row} (hr : 0 < r.transactionId) : Position.Owes ⟨cut, none⟩ r ↔
      xid ≤ r.transactionId ∨ delivered.visible r.transactionId = false := by
  rw [Position.Owes, Position.passed_delivered, below_visible h, ← Bool.not_eq_true]
  constructor
  · intro hnot
    by_contra hneither
    apply hnot
    constructor
    · omega
    · by_contra hvisible
      exact hneither (Or.inr hvisible)
  · rintro (hle | hnot) ⟨hlt, hvisible⟩
    · omega
    · exact hnot hvisible

theorem owes_nothing {r : Row} (hr : 0 < r.transactionId) : Position.Owes ⟨nothing, none⟩ r := by
  rw [Position.Owes, Position.passed_delivered, not_visible_nothing hr]
  simp

/-- The session's own transaction is running, and its snapshot sees it once a later one has ended. -/
theorem owes_now {t : Transactions} {r : Row} (hr : t.status r.transactionId ≠ .aborted) :
    (Position.Owes ⟨t.snapshot s, none⟩ r ↔ ¬t.Committed r.transactionId) ↔
      (t.own s = some r.transactionId → t.latest < r.transactionId) := by
  rw [Position.Owes, Position.passed_delivered, t.snapshot_visible]
  have hended : t.Ended r.transactionId ↔ t.Committed r.transactionId := by
    rw [Transactions.Ended, Transactions.Committed]
    cases hstatus : t.status r.transactionId with
    | running => simp
    | committed => simp
    | aborted => exact absurd hstatus hr
  rw [hended]
  have hown : t.own s = some r.transactionId → ¬t.Committed r.transactionId := fun hown hcommitted =>
    t.not_ended_of_own hown hcommitted.ended
  constructor
  · intro hiff hrunning
    by_contra hle
    exact (hiff.mpr (hown hrunning)) (Or.inr ⟨hrunning, by omega⟩)
  · intro hlate
    constructor
    · exact fun hnot hcommitted => hnot (Or.inl hcommitted)
    · rintro hnot (hcommitted | ⟨hrunning, hle⟩)
      · exact hnot hcommitted
      · have := hlate hrunning
        omega

theorem moved_says {requested move : Move} {read : Option Nat} {row row' : PositionRow} {t : Transactions}
    (hrequested : requested ≠ .now) (hallowed : requested.onRing read = some move)
    (hmoved : row.moved move (t.snapshot s) = some row') {r : Row} (hr : 0 < r.transactionId) :
    row'.toPosition.Owes r ↔ requested.Says read row.delivered t r := by
  obtain ⟨delivered, hdelivered, rfl⟩ := Option.map_eq_some_iff.mp hmoved
  cases requested with
  | now => exact absurd rfl hrequested
  | fromId xid =>
    have hmove : move = .fromId xid := by
      cases read with
      | none => simpa [Move.onRing] using hallowed.symm
      | some v =>
        simp only [Move.onRing] at hallowed
        split at hallowed
        · cases hallowed
        · exact (Option.some.inj hallowed).symm
    subst hmove
    exact owes_of_below hdelivered hr
  | start =>
    cases read with
    | none =>
      cases hallowed
      cases hdelivered
      simpa [Move.Says] using owes_nothing hr
    | some v =>
      cases hallowed
      simpa [Move.Says] using owes_of_below hdelivered hr

/-- A process cuts a snapshot as the server does. -/
theorem below_eq_below (delivered : Snapshot) {xid : Nat} (h : 1 ≤ xid) :
    ∃ cut, below delivered xid = some cut ∧
      (SnapshotText.ofSnapshot delivered).below xid = .ofSnapshot cut := by
  refine ⟨_, below_eq delivered xid, ?_⟩
  simp [SnapshotText.below, SnapshotText.ofSnapshot, Snapshot.cut, max_eq_left h]

/-- What a move from `F` on owes, it owes whatever its position had delivered. -/
theorem owes_of_landing {row row' : PositionRow} {move : Move} {now : Snapshot} {xid : Nat}
    (hmoved : row.moved move now = some row') (hlanding : move.landing = some xid) {r : Row}
    (hr : 0 < r.transactionId) (hle : xid ≤ r.transactionId) : row'.toPosition.Owes r := by
  obtain ⟨delivered, hdelivered, rfl⟩ := Option.map_eq_some_iff.mp hmoved
  cases move with
  | now => cases hlanding
  | start =>
    cases hdelivered
    exact owes_nothing hr
  | fromId requested =>
    cases hlanding
    exact (owes_of_below hdelivered hr).mpr (Or.inl hle)

section Call

variable {requested move : Move} {read : Option Nat} {granted snapped returned w : World} {before row : PositionRow}

/-- The rows a moved position owes are those the move says, but for those of the call's own transaction that its
snapshot sees. -/
theorem moved_owes {t : Transactions} (hallowed : requested.onRing read = some move)
    (hmoved : before.moved move (t.snapshot s) = some row) :
    (∀ r : Row, 0 < r.transactionId → t.status r.transactionId ≠ .aborted →
      (row.toPosition.Owes r ↔ requested.Says read before.delivered t r)) ↔
      (requested = .now → ∀ xid, t.own s = some xid → t.latest < xid) := by
  by_cases hrequested : requested = .now
  · subst hrequested
    cases hallowed
    cases hmoved
    constructor
    · intro hclaims _ xid hown
      have hrunning := (t.own_running s xid hown).2
      have hpos : 0 < xid := by
        apply Nat.pos_of_ne_zero
        rintro rfl
        exact t.zero_ended hrunning
      have hlive : t.status xid ≠ .aborted := by
        rw [hrunning]
        decide
      exact (owes_now hlive).mp (hclaims ⟨⟨"", [], .null⟩, "", 0, xid⟩ hpos hlive) hown
    · intro hlate r _ hlive
      exact (owes_now hlive).mpr (hlate rfl r.transactionId)
  · constructor
    · exact fun _ hnow => absurd hnow hrequested
    · intro _ r hpos _
      exact moved_says hrequested hallowed hmoved hpos

/-- After the commit of a call, whatever the others do between its statements, every slot's position has the row
the call wrote it, and owes the rows the move says, by the ring's bound the call read, the position as its update
found it and the transactions as its update's snapshot shows them. -/
theorem set_position_owes (hw : Resting w) (hrun : o.program.Run (fun _ _ _ => True) w granted)
    (hcall : SetsPosition o (fun _ _ _ => True) s selection requested read move granted snapped returned)
    {committed : World} (hcommit : o.program.act returned s .commit = some committed) :
    (∀ slot < o.slots, ∃ v before row,
      TakesRow o (Keeps (fun _ _ _ => True) s selection) s selection move (snapped.shared.snapshot s) slot
        snapped returned v before ∧
      (committed.shared.cells (.of selection slot)).committed = some row ∧
      ((∀ r : Row, 0 < r.transactionId → snapped.shared.transactions.status r.transactionId ≠ .aborted →
        (row.toPosition.Owes r ↔ requested.Says read before.delivered snapped.shared.transactions r)) ↔
        (requested = .now → ∀ xid, snapped.shared.transactions.own s = some xid →
          snapped.shared.transactions.latest < xid))) ∧
    ∀ (delivered : Snapshot) (xid : Nat), 1 ≤ xid → ∃ cut, below delivered xid = some cut ∧
      (SnapshotText.ofSnapshot delivered).below xid = .ofSnapshot cut := by
  refine ⟨fun slot hslot => ?_, fun delivered xid hxid => below_eq_below delivered hxid⟩
  obtain ⟨hallowed, ⟨landings, hready, _⟩, hall⟩ := hcall.moved (hw.allHeld.run hrun)
  obtain ⟨v, before, row, htakes, hmoved, hlock, hpending⟩ := hall slot hslot
  refine ⟨v, before, row, htakes, ?_, moved_owes hallowed hmoved⟩
  rw [commit_eq hready hcommit, finish_pending hlock hpending]

end Call

section Moved

/-- An outbox of two slots, with the URIs of one slot each. -/
def twoSlots : PgOutbox := ⟨2, .new 2 4, 1, 1000, fun uri => if uri = "orders/8" then 1#32 else 0#32⟩

/-- A row of the first slot is written and stays open, one of the second is committed and handed on. -/
def openBelow : List (Nat × Act) :=
  List.flatten [publish,
    [(2, .begin), (2, .assign), (2, .publish ⟨"orders/8", [], .null⟩ "now"), (2, .next), (2, .commit)],
    (1, .dispatch ⟨"billing", ""⟩ 10) :: List.replicate 2 (1, .next),
    (1, .take none) :: List.replicate 7 (1, .next), (1, .take (some 1)) :: List.replicate 5 (1, .next), [(1, .commit)]]

/-- The group is moved back to the second row, in a transaction that writes a row of its own first. -/
def moveBack : List (Nat × Act) :=
  [(3, .begin), (3, .assign), (3, .publish ⟨"orders/7", [], .null⟩ "now"), (3, .next),
    (3, .setPosition ⟨"billing", ""⟩ (.fromId 7)), (3, .next)]

def granted : World := twoSlots.program.after beginning (openBelow ++ moveBack) (by decide +kernel)

/-- Another transaction writes a row while the call reads the positions there are. -/
def ensureBack : List (Nat × Act) :=
  List.flatten [List.replicate 3 (3, .next),
    [(4, .begin), (4, .assign), (4, .publish ⟨"orders/8", [], .null⟩ "now"), (4, .next)], List.replicate 3 (3, .next)]

def ensuredBack : World := twoSlots.program.after granted ensureBack (by decide +kernel)

def updating : World := (twoSlots.program.act ensuredBack 3 .next).get (by decide +kernel)

/-- The open transactions end before the rows are moved, and between them. -/
def finishBack : List (Nat × Act) := [(0, .commit), (3, .next), (4, .commit)] ++ List.replicate 2 (3, .next)

def returned : World := twoSlots.program.after updating finishBack (by decide +kernel)

def movedBack : World := (twoSlots.program.act returned 3 .commit).get (by decide +kernel)

theorem setsPosition_back : SetsPosition twoSlots (fun _ _ _ => True) 3 ⟨"billing", ""⟩ (.fromId 7) none (.fromId 7)
    granted ensuredBack returned where
  asked := ⟨[], false, rfl⟩
  ensured := ⟨[7], rfl⟩
  update := by
    refine ⟨updating, Program.Run.after fun _ => ?_, ⟨trivial, fun _ => ⟨nofun, nofun, nofun, nofun⟩⟩,
      (Option.some_get _).symm, Program.Run.after fun _ => ?_⟩
    · simp [ensureBack, Keeps, Stays]
    · simp [finishBack, Keeps, Stays]
  ready := ⟨[7], rfl⟩

/-- Both slots are moved: a row owed is of the landing on, or was not delivered before. -/
theorem set_position_owes_back : twoSlots.slots = 2 ∧ ∀ slot < twoSlots.slots, ∃ v before row,
    TakesRow twoSlots (Keeps (fun _ _ _ => True) 3 ⟨"billing", ""⟩) 3 ⟨"billing", ""⟩ (.fromId 7)
      (ensuredBack.shared.snapshot 3) slot ensuredBack returned v before ∧
    (movedBack.shared.cells ⟨"billing", "", slot⟩).committed = some row ∧
    ∀ r : Row, 0 < r.transactionId → ensuredBack.shared.transactions.status r.transactionId ≠ .aborted →
      (row.toPosition.Owes r ↔
        7 ≤ r.transactionId ∨ before.delivered.visible r.transactionId = false) := by
  refine ⟨rfl, fun slot hslot => ?_⟩
  obtain ⟨hmoved, _⟩ := set_position_owes Resting.fresh (Program.Run.after fun _ _ _ => trivial) setsPosition_back
    (Option.some_get _).symm
  obtain ⟨v, before, row, htakes, hrow, howes⟩ := hmoved slot hslot
  exact ⟨v, before, row, htakes, hrow, howes.mpr nofun⟩

end Moved

section Published

/-- A session publishes, another's later transaction commits, and the first moves a group to now: its
statements before the move's snapshot, and after it. -/
def moveNow : List (Nat × Act) :=
  List.flatten [publish, [(1, .begin), (1, .assign), (1, .commit)],
    (0, .setPosition ⟨"billing", ""⟩ .now) :: List.replicate 6 (0, .next)]

def snapped : World := worldAfter beginning moveNow (by decide +kernel)

def movedNow : World :=
  worldAfter beginning (moveNow ++ List.replicate 3 (0, .next) ++ [(0, .commit)]) (by decide +kernel)

/-- A row of the call's own transaction is not owed after it. -/
theorem set_position_owes_now_fails : published ∈ movedNow.shared.written ∧
    movedNow.shared.transactions.Committed published.transactionId ∧
    ∃ row, (movedNow.shared.cells ⟨"billing", "", 0⟩).committed = some row ∧
      ¬(row.toPosition.Owes published ↔
        Move.now.Says none nothing snapped.shared.transactions published) := by
  refine ⟨by decide +kernel, by decide +kernel, _, (Option.some_get (by decide +kernel)).symm, ?_⟩
  have hpassed : Position.Passed (((movedNow.shared.cells ⟨"billing", "", 0⟩).committed.get
      (by decide +kernel)).toPosition) published := Or.inl (by decide +kernel)
  have hrunning : ¬snapped.shared.transactions.Committed published.transactionId := by decide +kernel
  exact fun hiff => hiff.mpr hrunning hpassed

end Published

end AsceticDdd.Outbox
