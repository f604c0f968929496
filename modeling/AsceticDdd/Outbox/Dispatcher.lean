import AsceticDdd.Outbox.Ensured

/-!
# A dispatcher keeps the invariant

From the look to the acknowledgement, each statement of a dispatch establishes what the next one
needs: the row it locked, an epoch that names every generation of its rows, a batch of the rows
next in order, and the calls it made of them.
-/

namespace AsceticDdd.Outbox

open Postgres

variable {o : PgOutbox} {fair : Nat → Prop} {d d' : Database} {s : Nat}

theorem Database.HasRow.seenBy {key : PositionKey} {row : PositionRow} (h : d.HasRow s key row) :
    (d.cells key).seenBy s = some row := by
  rw [Cell.seenBy, if_pos h.1]
  exact h.2

section Lock

variable {key : PositionKey} {row : PositionRow}

theorem Consistent.lockCell_hasRow (h : Consistent o fair d)
    (hlock : d.lockCell s key = some (d', row)) : d'.HasRow s key row := by
  obtain ⟨_, rfl, _, hrow⟩ := h.lockCell hlock
  rw [Database.HasRow, setCell_self]
  exact ⟨rfl, hrow⟩

end Lock

section Take

variable {selection : Selection} {limit : Nat} {again : Bool} {look : Look}

theorem afterTake_spec {taken : Option (Nat × PositionRow)} {p : Dispatching}
    (huncalled : d.Uncalled s)
    (htaken : ∀ slot row, taken = some (slot, row) → d.HasRow s (.of selection slot) row)
    (hstep : PgOutbox.afterTake d again look taken = (d', p)) :
    (d' = d ∨ d' = d.refuse counterReset) ∧ p.Ok o fair d' s selection limit := by
  unfold PgOutbox.afterTake at hstep
  split at hstep
  · cases hstep
    exact ⟨Or.inl rfl, huncalled, trivial⟩
  · have hacknowledged : d.Acknowledged s := fun key hlock => (huncalled key hlock).1
    split at hstep
    · cases hstep
      exact ⟨Or.inl rfl, hacknowledged⟩
    · split at hstep
      · cases hstep
        exact ⟨Or.inr rfl, hacknowledged⟩
      · cases taken with
        | none =>
          cases hstep
          exact ⟨Or.inl rfl, hacknowledged⟩
        | some taken =>
          cases hstep
          exact ⟨Or.inl rfl, huncalled, htaken _ _ rfl⟩

theorem Kept.refuse {d₁ : Database} (h : Kept o fair s d d₁) {reason : String}
    (hsame : d' = d₁ ∨ d' = d₁.refuse reason) : Kept o fair s d d' := by
  rcases hsame with rfl | rfl
  · exact h
  · exact ⟨(h.consistent.refuse (i := s) reason).consistent, { h.guarantee with }⟩

theorem Consistent.take (h : Consistent o fair d) {slot : Option Nat} {p : Dispatching}
    (hrowless : d.Rowless s) (huncalled : d.Uncalled s)
    (hstep : o.take d s selection again look slot = some (d', p)) :
    Kept o fair s d d' ∧ d'.Rowless s ∧ p.Ok o fair d' s selection limit := by
  cases slot with
  | none =>
    obtain ⟨hsame, hok⟩ := afterTake_spec huncalled
      (fun _ _ (htaken : none = some _) => nomatch htaken) (Option.some.inj hstep)
    exact ⟨(Kept.refl h s).refuse hsame, by rcases hsame with rfl | rfl <;> exact hrowless, hok⟩
  | some slot =>
    obtain ⟨⟨d₁, row⟩, htake, heq⟩ := Option.map_eq_some_iff.mp hstep
    rw [PgOutbox.takeSlot] at htake
    split at htake
    · have hlock := (Option.filter_eq_some_iff.mp htake).1
      obtain ⟨hkept, hd₁, _, _⟩ := h.lockCell hlock
      have hrowless₁ : d₁.Rowless s := hd₁ ▸ hrowless
      obtain ⟨hsame, hok⟩ := afterTake_spec
        (h.lockCell_uncalled huncalled hlock) (fun _ _ htaken => by
          cases htaken
          exact h.lockCell_hasRow hlock) heq
      exact ⟨hkept.refuse hsame, by rcases hsame with rfl | rfl <;> exact hrowless₁, hok⟩
    · cases htake

end Take

section Dispatch

variable {selection : Selection} {limit slot : Nat} {row : PositionRow}

theorem acknowledge_acknowledged {key : PositionKey} {row : PositionRow}
    (huncalled : d.UncalledBut s key) : (d.acknowledge key row).Acknowledged s := by
  intro key' hlock
  rw [Database.acknowledge] at hlock ⊢
  by_cases hkey : key' = key
  · rw [hkey, setCell_self]
  · rw [setCell_of_ne hkey] at hlock ⊢
    exact (huncalled key' hkey hlock).1

theorem Consistent.reads (h : Consistent o fair d) (hrow : d.HasRow s (.of selection slot) row) :
    Reads fair d.written (d.Live s) row.delivered (d.visibleRows s) :=
  h.rows.reads (h.hasRow_spares hrow)

theorem Consistent.hasRow_sound_of_epoch (h : Consistent o fair d)
    (hrow : d.HasRow s (.of selection slot) row) (hrowless : d.Rowless s) {epoch : Option Epoch}
    (hepoch : row.epoch = epoch) :
    Sound o fair (.of selection slot) d.written (d.Sees s) (d.Live s) ⟨row.delivered, epoch⟩
      (d.cells (.of selection slot)).beganNext (d.cells (.of selection slot)).handedNext := by
  have hsound := h.hasRow_sound hrow hrowless
  obtain ⟨⟨delivered, _⟩, _, _⟩ := row
  cases hepoch
  exact hsound

theorem Consistent.taken (h : Consistent o fair d) {p : Dispatching} (hrowless : d.Rowless s)
    (hok : (Dispatching.taken slot row).Ok o fair d s selection limit)
    (hstep : o.dispatch d s selection limit (.taken slot row) = some (d', p)) :
    d' = d ∧ p.Ok o fair d s selection limit := by
  obtain ⟨huncalled, hrow⟩ := hok
  rw [PgOutbox.dispatch] at hstep
  split at hstep
  · rename_i hepoch
    cases hstep
    refine ⟨rfl, huncalled, hrow, hepoch, fun _ => id, fun x hx => ?_⟩
    exact (h.recent_of_seenBy hrow.seenBy).1 x hx
  · rename_i epoch hepoch
    have hsound := h.hasRow_sound_of_epoch hrow hrowless hepoch
    split at hstep
    · rename_i hend
      cases hstep
      exact ⟨rfl, huncalled, hrow, by rw [hend]; exact nofun, hsound⟩
    · obtain ⟨epoch', hepoch', heq⟩ := Option.map_eq_some_iff.mp hstep
      cases heq
      obtain ⟨hsound', hend⟩ := hsound.converted (h.reads hrow) hepoch'
      exact ⟨rfl, huncalled, hrow, hend, hsound'⟩

theorem Consistent.snapped (h : Consistent o fair d) {now : Snapshot} {p : Dispatching}
    (hrowless : d.Rowless s) (hok : (Dispatching.snapped slot row now).Ok o fair d s selection limit)
    (hstep : o.dispatch d s selection limit (.snapped slot row now) = some (d', p)) :
    Kept o fair s d d' ∧ d'.Rowless s ∧ p.Ok o fair d' s selection limit := by
  obtain ⟨huncalled, hrow, hepoch, hnow, hgrows⟩ := hok
  have hsound := h.hasRow_sound_of_epoch hrow hrowless hepoch
  have hreads := h.reads hrow
  rw [PgOutbox.dispatch] at hstep
  split at hstep
  · rename_i epoch hopened
    cases hstep
    obtain ⟨hsound', hend⟩ := hsound.opened hreads hnow hgrows hopened
    exact ⟨.refl h s, hrowless, huncalled, hrow, hend, hsound'⟩
  · rename_i hnone
    cases hstep
    rw [PgOutbox.startEpoch_epoch]
    refine ⟨h.setCell (h.acknowledge hrow ?_ hgrows (PairBelow.kept rfl)), hrowless,
      acknowledge_acknowledged fun key _ hlock => huncalled key hlock⟩
    rw [(huncalled _ hrow.1).1, List.append_nil]
    exact hsound.idle hnow hgrows (hreads.none_of_epochOf hnone)

theorem Consistent.calls (h : Consistent o fair d) {epoch : Epoch} {batch rest : List Row} {message : Row}
    (hok : (Dispatching.handing slot row epoch batch (message :: rest)).Ok o fair d s selection limit) :
    Kept o fair s d (d.call (.of selection slot) message) ∧
      (Dispatching.handing slot row epoch batch rest).Ok o fair (d.call (.of selection slot) message) s
        selection limit := by
  obtain ⟨hrow, huncalled, hhanding, hcalling, hsound, hbatch⟩ := hok
  have hcell : (d.call (.of selection slot) message).cells (.of selection slot) =
      { d.cells (.of selection slot) with
        calling := (d.cells (.of selection slot)).calling ++ [message] } := setCell_self
  refine ⟨h.call hrow.1, ?_⟩
  rw [Dispatching.Ok, Database.HasRow, hcell]
  refine ⟨hrow, fun key hne hlock => ?_, hhanding, by rw [List.append_assoc]; exact hcalling, hsound, hbatch⟩
  rw [Database.call, setCell_of_ne hne] at hlock ⊢
  exact huncalled key hne hlock

theorem Consistent.acknowledged (h : Consistent o fair d) {epoch : Epoch} {batch : List Row}
    (hlimit : 0 < limit)
    (hok : (Dispatching.handing slot row epoch batch []).Ok o fair d s selection limit) :
    Kept o fair s d (d.acknowledge (.of selection slot) (PgOutbox.ackBatch row epoch batch limit)) ∧
      (d.acknowledge (.of selection slot) (PgOutbox.ackBatch row epoch batch limit)).Acknowledged s := by
  obtain ⟨hrow, huncalled, _, hcalling, hsound, hbatch⟩ := hok
  rw [List.append_nil] at hcalling
  refine ⟨h.setCell (h.acknowledge hrow ?_ (ackBatch_grows (hsound.epoch_sound epoch rfl).grows) ?_),
    acknowledge_acknowledged huncalled⟩
  · rw [hcalling]
    exact hsound.ackBatch h.rows.position_inj hbatch hlimit
  · apply PairBelow.kept
    rw [PgOutbox.ackBatch]
    split <;> rfl

/-- Every statement of a dispatch, and every call of its subscriber. -/
theorem Consistent.dispatch (h : Consistent o fair d) {p p' : Dispatching} (hrowless : d.Rowless s)
    (hlimit : 0 < limit) (hok : p.Ok o fair d s selection limit)
    (hstep : o.dispatch d s selection limit p = some (d', p')) :
    Kept o fair s d d' ∧ d'.Rowless s ∧ p'.Ok o fair d' s selection limit := by
  cases p with
  | begun again =>
    cases hstep
    exact ⟨.refl h s, hrowless, hok⟩
  | named again names =>
    cases hstep
    exact ⟨.refl h s, hrowless, hok⟩
  | contacting e =>
    obtain ⟨⟨d₁, next⟩, hensure, heq⟩ := Option.map_eq_some_iff.mp hstep
    cases heq
    obtain ⟨hkept, hensures, hnext⟩ := h.ensurePositions hok.2 hensure
    refine ⟨hkept, hensures.rowless hrowless, ?_⟩
    cases next with
    | none => exact hensures.uncalled hok.1
    | some e => exact ⟨hensures.uncalled hok.1, hnext e rfl⟩
  | taken slot row =>
    obtain ⟨rfl, hok'⟩ := h.taken hrowless hok hstep
    exact ⟨.refl h s, hrowless, hok'⟩
  | snapped slot row now => exact h.snapped hrowless hok hstep
  | ready slot row epoch =>
    cases hstep
    obtain ⟨huncalled, hrow, hend, hsound⟩ := hok
    obtain ⟨hcalling, hhanding⟩ := huncalled _ hrow.1
    refine ⟨.refl h s, hrowless, hrow, fun key _ hlock => huncalled key hlock, hhanding,
      by rw [hcalling]; rfl, hsound, ?_⟩
    exact (h.reads hrow).batchOf (hsound.epoch_sound epoch rfl) hend
  | handing slot row epoch batch rest =>
    cases rest with
    | nil =>
      cases hstep
      obtain ⟨hkept, hok'⟩ := h.acknowledged hlimit hok
      exact ⟨hkept, hrowless, hok'⟩
    | cons message rest =>
      cases hstep
      obtain ⟨hkept, hok'⟩ := h.calls hok
      exact ⟨hkept, hrowless, hok'⟩
  | looked again look => cases hstep
  | done => cases hstep
  | refusing => cases hstep

end Dispatch

end AsceticDdd.Outbox
