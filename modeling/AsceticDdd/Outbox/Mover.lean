import AsceticDdd.Outbox.Ensured

/-!
# A call of `set_position` keeps the invariant

Once it holds the reclamation's key, no row from where it lands on can go, and every version it
writes begins anew.
-/

namespace AsceticDdd.Outbox

open Postgres

variable {o : PgOutbox} {fair : Nat → Prop} {d d' : Database} {s : Nat}

/-- The move the ring's bound allows lands where rows are intact. -/
theorem Move.Allowed.lands {move move' : Move} {read intactFrom : Option Nat}
    (h : move.Allowed read intactFrom) (hring : move.onRing read = some move') :
    move'.Lands intactFrom := by
  cases move with
  | fromId xid =>
    cases read with
    | none =>
      cases hring
      exact h.resolve_left nofun
    | some v =>
      simp only [onRing] at hring
      split at hring
      · cases hring
      · rename_i hle
        cases hring
        refine h.resolve_left ?_
        rintro ⟨v', hv', hlt⟩
        cases hv'
        exact hle hlt
  | start =>
    cases read with
    | none =>
      cases hring
      exact Eq.symm h
    | some v =>
      cases hring
      intro u hu
      rw [← show some v = intactFrom from h, Option.some.injEq] at hu
      exact hu.ge
  | now =>
    cases read <;> cases hring <;> trivial

theorem Move.Lands.landing_le {move : Move} {intactFrom : Option Nat} (h : move.Lands intactFrom)
    {xid v : Nat} (hxid : xid ∈ move.landing.toList) (hv : intactFrom = some v) : v ≤ xid := by
  cases move with
  | start => cases hv.symm.trans h
  | fromId requested =>
    rw [Option.mem_toList, landing, Option.some.injEq] at hxid
    exact hxid ▸ h v hv
  | now => cases hxid

/-- What a move writes sees nothing but what the session sees, and every spent row. -/
theorem Consistent.recent_of_moved (h : Consistent o fair d) {move : Move} {now : Snapshot}
    {row row' : PositionRow} (hlands : move.Lands d.metaRow.intactFrom) (hnow : d.Recent s fair now)
    (hrow : d.Recent s fair row.delivered) (hmoved : row.moved move now = some row') :
    row'.epoch = none ∧ d.Recent s fair row'.delivered ∧ row'.PairBelow := by
  obtain ⟨delivered, hdelivered, rfl⟩ := Option.map_eq_some_iff.mp hmoved
  refine ⟨rfl, ?_, PairBelow.kept rfl⟩
  cases move with
  | start =>
    cases hdelivered
    refine ⟨fun x hx => ?_, fun r hr => ?_⟩
    · rcases Nat.eq_zero_or_pos x with rfl | hpos
      · exact Database.sees_iff.mpr (Or.inl d.transactions.zero_ended)
      · rw [not_visible_nothing hpos] at hx
        cases hx
    · obtain ⟨v, hv, _⟩ := h.intact r hr
      cases hv.symm.trans hlands
  | now =>
    cases hdelivered
    exact hnow
  | fromId xid =>
    refine ⟨fun x hx => hrow.1 x ((below_visible hdelivered).mp hx).2,
      fun r hr hfair => (below_visible hdelivered).mpr ⟨?_, hrow.2 r hr hfair⟩⟩
    obtain ⟨v, hv, hlt⟩ := h.intact r hr
    exact hlt.trans_le ((hlands v hv).trans (le_max_left _ _))

/-- The session reads the row it locks. -/
theorem seenBy_of_lockable {key : PositionKey} {row : PositionRow} (h : Consistent o fair d)
    (hfree : (d.cells key).lock = none ∨ (d.cells key).lock = some s)
    (hrow : (d.cells key).pending.or (d.cells key).committed = some row) :
    (d.cells key).seenBy s = some row := by
  rw [Cell.seenBy]
  rcases hfree with hfree | hmine
  · have hother : (d.cells key).lock ≠ some s := by
      rw [hfree]
      rintro ⟨⟩
    rw [((h.cells key).unlocked hfree).1, Option.none_or] at hrow
    rwa [if_neg hother]
  · rwa [if_pos hmine]

section Rows

variable {selection : Selection} {move : Move} {now : Snapshot} {slot : Nat} {slots : List Nat}

theorem Consistent.movedRow (h : Consistent o fair d) {m : Option Moving}
    (hok : (Moving.rows move now (slot :: slots)).Ok fair d s) (hanew : d.Anew s)
    (huncalled : d.Uncalled s)
    (hstep : o.setPosition d s selection (.rows move now (slot :: slots)) = some (d', m)) :
    Kept o fair s d d' ∧ d'.Anew s ∧ d'.Uncalled s ∧ d'.transactions = d.transactions ∧
      d'.partitions = d.partitions ∧ d'.metaRow = d.metaRow ∧ d'.Exclusive s ∧ ∃ m', m = some m' ∧ m'.kept = true ∧ m'.Ok fair d' s := by
  obtain ⟨hheld, hlands, hnow⟩ := hok
  obtain ⟨⟨d₁, row⟩, hlock, hstep⟩ := Option.bind_eq_some_iff.mp hstep
  obtain ⟨row', hmoved, hstep⟩ := Option.bind_eq_some_iff.mp hstep
  cases hstep
  obtain ⟨_, hd₁, hfree, hrow⟩ := h.lockCell hlock
  rw [Database.lockCell_move hd₁]
  obtain ⟨hepoch, hrecent, hpair⟩ := h.recent_of_moved hlands hnow
    (h.recent_of_seenBy (seenBy_of_lockable h hfree hrow)) hmoved
  refine ⟨h.move hfree hrow hheld hepoch hrecent.1 hrecent.2 hpair, fun key row'' hlock' hrow' => ?_,
    fun key hlock' => ?_, rfl, rfl, rfl, hheld, _, rfl, rfl, hheld, hlands, hnow⟩
  · rw [Database.move] at hlock' hrow' ⊢
    by_cases hkey : key = .of selection slot
    · rw [hkey, setCell_self] at hrow' ⊢
      cases hrow'
      exact ⟨hepoch, rfl, rfl, hheld⟩
    · rw [setCell_of_ne hkey] at hlock' hrow' ⊢
      exact hanew key row'' hlock' hrow'
  · rw [Database.move] at hlock' ⊢
    by_cases hkey : key = .of selection slot
    · rw [hkey, setCell_self]
      exact ⟨rfl, rfl⟩
    · rw [setCell_of_ne hkey] at hlock' ⊢
      exact huncalled key hlock'

end Rows

/-- What is left of a producer's own by a statement that writes no row. -/
theorem ProducerOk.of_same {landings : List Nat} (h : ProducerOk d s landings)
    (hanew : d'.Anew s) (huncalled : d'.Uncalled s) (htransactions : d'.transactions = d.transactions)
    (hpartitions : d'.partitions = d.partitions) (hmeta : d'.metaRow = d.metaRow) :
    ProducerOk d' s landings where
  anew := hanew
  uncalled := huncalled
  partitions := hpartitions ▸ h.partitions
  here := htransactions ▸ h.here
  landings := hmeta ▸ h.landings

/-- A call that fails, or is stopped, lets go of the key it took. -/
theorem Consistent.unhold (h : Consistent o fair d) {kept : Bool}
    (hpending : kept = false → ∀ key, (d.cells key).lock = some s → (d.cells key).pending = none)
    (hanew : d.Anew s) :
    Kept o fair s d (PgOutbox.unhold d s kept) ∧ (PgOutbox.unhold d s kept).Anew s := by
  cases kept with
  | true => exact ⟨.refl h s, hanew⟩
  | false =>
    refine ⟨h.setKey AdvisoryLock.unlock_keeps (Or.inr (hpending rfl)), fun key row hlock hrow => ?_⟩
    cases hrow.symm.trans (hpending rfl key hlock)

theorem Consistent.setPosition (h : Consistent o fair d) {selection : Selection} {landings : List Nat}
    {m : Moving} {next : Option Moving} (hproducer : ProducerOk d s landings)
    (hok : (Producing.moving selection m).Ok fair d s landings)
    (hstep : o.setPosition d s selection m = some (d', next)) :
    Kept o fair s d d' ∧ ProducerOk d' s (m.landings next landings) ∧
      (next.elim .ready (Producing.moving selection)).Ok fair d' s (m.landings next landings) := by
  obtain ⟨hok, hheld⟩ := hok
  cases m with
  | holding kept move read =>
    obtain ⟨key, hkey, heq⟩ := Option.map_eq_some_iff.mp hstep
    cases heq
    obtain ⟨hexclusive, hshared, _⟩ := AdvisoryLock.lock_eq_some hkey
    refine ⟨h.setKey (AdvisoryLock.lock_keeps hkey) (Or.inl ⟨fun _ => Or.inl hexclusive,
      fun _ => hexclusive⟩), hproducer.of_same (fun key row hlock hrow => ?_) hproducer.uncalled
      rfl rfl rfl,
      ⟨hok.1, hok.2, hexclusive⟩, fun hne => ⟨(hheld hne).1, hexclusive⟩⟩
    obtain ⟨hepoch, hbegan, hhanding, _⟩ := hproducer.anew key row hlock hrow
    exact ⟨hepoch, hbegan, hhanding, hexclusive⟩
  | granted kept move read =>
    obtain ⟨hpending, hallowed, hexclusive⟩ := hok
    simp only [PgOutbox.setPosition] at hstep
    split at hstep
    · cases hstep
      obtain ⟨hkept, hanew⟩ := h.unhold hpending hproducer.anew
      refine ⟨hkept, ?_, fun hne => ?_⟩
      · cases kept <;> exact hproducer.of_same hanew hproducer.uncalled rfl rfl rfl
      · rw [show kept = true from (hheld hne).1]
        exact hexclusive
    · rename_i move' hring
      cases hstep
      have hlands := hallowed.lands hring
      refine ⟨.refl h s, { hproducer with landings := fun xid hxid v hv => ?_ },
        ⟨hexclusive, hlands, trivial⟩, fun _ => ⟨rfl, hexclusive⟩⟩
      rcases List.mem_append.mp hxid with hxid | hxid
      · exact hlands.landing_le hxid hv
      · exact hproducer.landings xid hxid v hv
  | ensuring move e =>
    obtain ⟨⟨d₁, e'⟩, hensure, heq⟩ := Option.map_eq_some_iff.mp hstep
    cases heq
    obtain ⟨hexclusive, hlands, he⟩ := hok
    obtain ⟨hkept, hensures, hnext⟩ := h.ensurePositions he hensure
    refine ⟨hkept, hproducer.of_same (hensures.anew hexclusive hproducer.anew)
      (hensures.uncalled hproducer.uncalled) hensures.transactions hensures.partitions hensures.metaRow, ?_⟩
    have hexclusive' : d₁.Exclusive s := hensures.exclusive.trans hexclusive
    have hlands' : move.Lands d₁.metaRow.intactFrom := hensures.metaRow ▸ hlands
    cases e' with
    | none => exact ⟨⟨hexclusive', hlands'⟩, fun _ => ⟨rfl, hexclusive'⟩⟩
    | some e' => exact ⟨⟨hexclusive', hlands', hnext e' rfl⟩, fun _ => ⟨rfl, hexclusive'⟩⟩
  | ensured move =>
    cases hstep
    obtain ⟨hexclusive, hlands⟩ := hok
    refine ⟨.refl h s, hproducer, ⟨hexclusive, hlands, fun _ => id, fun r hr _ => ?_⟩,
      fun _ => ⟨rfl, hexclusive⟩⟩
    exact Database.sees_iff.mpr (Or.inl hr.2.1.ended)
  | rows move now slots =>
    cases slots with
    | nil =>
      cases hstep
      exact ⟨.refl h s, hproducer, fun hne => (hheld hne).2⟩
    | cons slot slots =>
      obtain ⟨hkept, hanew, huncalled, ht, hp, hmeta, hexclusive, m', rfl, hkept', hok'⟩ :=
        h.movedRow hok hproducer.anew hproducer.uncalled hstep
      exact ⟨hkept, hproducer.of_same hanew huncalled ht hp hmeta, hok', fun _ => ⟨hkept', hexclusive⟩⟩

end AsceticDdd.Outbox
