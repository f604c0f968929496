import AsceticDdd.Outbox.Invariant

/-!
# What a step leaves to the others

A step of one session changes the shared state within a guarantee: it writes rows of its own
transaction alone, touches no position another session holds, moves no position back and takes
nothing away but under the reclamation's key. What a position says stays sound under it.
-/

namespace AsceticDdd.Outbox

open Postgres

structure Guarantee (o : PgOutbox) (i : Nat) (d d' : Database) : Prop where
  transactions : Transactions.Advances i d.transactions d'.transactions
  written : ∃ new, d'.written = d.written ++ new ∧ ∀ r ∈ new,
    d.transactions.own i = some r.transactionId ∧ ¬d'.transactions.Ended r.transactionId ∧
      (d.partitions (o.generationOf r) = none ∨ d.partitions (o.generationOf r) = some i)
  table : ∀ r ∈ d'.table, r ∈ d.table ∨ r ∈ d'.written ∧ r ∉ d.written
  removed : ∀ r ∈ d.table, r ∈ d'.table ∨ d.partitions (o.generationOf r) = some i
  spent : ∀ r, d'.Spent r → d.Spent r ∨ d.reclamationKey.exclusive = some i
  cells : ∀ key s, s ≠ i → (d.cells key).lock = some s → d'.cells key = d.cells key
  locks : ∀ key s, s ≠ i → (d'.cells key).lock = some s → (d.cells key).lock = some s
  grows : ∀ key row, (d.cells key).committed = some row →
    ∃ row', (d'.cells key).committed = some row' ∧
      ((∀ x, row.delivered.visible x → row'.delivered.visible x) ∨
        d.reclamationKey.exclusive = some i)
  created : ∀ key row, (d'.cells key).committed = some row →
    (d.cells key).committed ≠ none ∨ d.reclamationKey.Holds i
  key : AdvisoryLock.Keeps i d.reclamationKey d'.reclamationKey
  partitions : ∀ generation s, s ≠ i →
    (d'.partitions generation = some s ↔ d.partitions generation = some s)
  intact : d'.metaRow.intactFrom = d.metaRow.intactFrom ∨ d.reclamationKey.exclusive = some i
  bounds : ∀ bound ∈ d.bounds, bound ∈ d'.bounds
  drawn : ∀ position s, s ≠ i → d.drawn position = some s → d'.drawn position = some s

variable {o : PgOutbox} {fair : Nat → Prop} {d d' : Database} {i s : Nat}

theorem Guarantee.mem_written (h : Guarantee o i d d') {r : Row} (hr : r ∈ d.written) :
    r ∈ d'.written := by
  obtain ⟨new, hwritten, _⟩ := h.written
  exact hwritten ▸ List.mem_append_left _ hr

/-- A row written in the step is of a running transaction of the session's, in a partition nobody
else holds. -/
theorem Guarantee.of_mem_written (h : Guarantee o i d d') {r : Row} (hr : r ∈ d'.written) :
    r ∈ d.written ∨ d.transactions.own i = some r.transactionId ∧
      ¬d'.transactions.Ended r.transactionId ∧
      (d.partitions (o.generationOf r) = none ∨ d.partitions (o.generationOf r) = some i) := by
  obtain ⟨new, hwritten, hnew⟩ := h.written
  rw [hwritten] at hr
  exact (List.mem_append.mp hr).imp_right (hnew r)

section Later

theorem sees_mono (h : Transactions.Advances i d.transactions d'.transactions) (hs : s ≠ i) {x : Nat}
    (hx : d.Sees s x) : d'.Sees s x := by
  rw [Database.sees_iff] at hx ⊢
  rcases hx with hx | ⟨hown, hle⟩
  · exact Or.inl (h.ended hx)
  · exact Or.inr ⟨(h.own s hs).trans hown, hle.trans h.latest⟩

/-- No step makes a row count in a transaction that has ended. -/
theorem later_committed (d' : Database)
    (h : Transactions.Advances i d.transactions d'.transactions)
    {new : List Row} (hwritten : d'.written = d.written ++ new)
    (hnew : ∀ r ∈ new, d.transactions.own i = some r.transactionId) :
    Later d.written d.transactions.Ended d.transactions.Committed
      d'.written d'.transactions.Ended d'.transactions.Committed where
  mem _ hr := hwritten ▸ List.mem_append_left _ hr
  seen_sub _ := h.ended
  live_sub _ _ := h.committed
  back r hr hlive hended := by
    rw [hwritten] at hr
    rcases List.mem_append.mp hr with hr | hr
    · exact ⟨hr, (h.status _ hended).symm.trans hlive⟩
    · exact absurd hended (d.transactions.not_ended_of_own (hnew r hr))

/-- No step of another session makes a row count that a session sees. -/
theorem later_pending (d' : Database)
    (h : Transactions.Advances i d.transactions d'.transactions)
    {new : List Row} (hwritten : d'.written = d.written ++ new)
    (hnew : ∀ r ∈ new, d.transactions.own i = some r.transactionId) (hs : s ≠ i) :
    Later d.written (d.Sees s) (d.Live s) d'.written (d'.Sees s) (d'.Live s) where
  mem _ hr := hwritten ▸ List.mem_append_left _ hr
  seen_sub _ := sees_mono h hs
  live_sub _ _ hlive := hlive.imp h.committed (h.own s hs).trans
  back r hr hlive hsees := by
    rw [Database.sees_iff] at hsees
    rw [hwritten] at hr
    rcases List.mem_append.mp hr with hr | hr
    · refine ⟨hr, ?_⟩
      rcases hsees with hended | ⟨hown, _⟩
      · refine hlive.imp (fun hc => (h.status _ hended).symm.trans hc) fun hown => ?_
        rwa [h.own s hs] at hown
      · exact Or.inr hown
    · rcases hsees with hended | ⟨hown, _⟩
      · exact absurd hended (d.transactions.not_ended_of_own (hnew r hr))
      · exact absurd (d.transactions.own_inj s i _ hown (hnew r hr)) hs

/-- Nor does a step of its own, but for the rows it writes and the ids it draws. -/
theorem later_own (d' : Database) (h : Transactions.Advances i d.transactions d'.transactions)
    (hwritten : d'.written = d.written) (hids : ∀ r ∈ d.written, r.transactionId < d.transactions.next)
    (hown : ∀ x, d.transactions.own i = some x → d'.transactions.own i = some x) :
    Later d.written (d.Sees i) (d.Live i) d'.written (d'.Sees i) (d'.Live i) where
  mem _ hr := hwritten ▸ hr
  seen_sub x hx := by
    rw [Database.sees_iff] at hx ⊢
    exact hx.imp h.ended fun hx => ⟨hown x hx.1, hx.2.trans h.latest⟩
  live_sub _ _ hlive := hlive.imp h.committed (hown _)
  back r hr hlive hsees := by
    rw [Database.sees_iff] at hsees
    rw [hwritten] at hr
    refine ⟨hr, ?_⟩
    rcases hsees with hended | ⟨hown, _⟩
    · refine hlive.imp (fun hc => (h.status _ hended).symm.trans hc) fun hown' => ?_
      rcases h.drawn _ hown' with hown' | hnext
      · exact hown'
      · exact absurd (hids r hr) (by omega)
    · exact Or.inr hown

end Later

/-- A version of a position outlives a change of what is around it. -/
theorem CellOk.env {key : PositionKey} {c : Cell} (h : CellOk o fair d key c)
    (hkeys : ∀ k ∈ d.keys, k ∈ d'.keys)
    (hcommitted : Later d.written d.transactions.Ended d.transactions.Committed
      d'.written d'.transactions.Ended d'.transactions.Committed)
    (hpending : ∀ s row, c.lock = some s → c.pending = some row →
      Sound o fair key d.written (d.Sees s) (d.Live s) row.toPosition c.beganNext c.handedNext →
      Sound o fair key d'.written (d'.Sees s) (d'.Live s) row.toPosition c.beganNext c.handedNext)
    (hheld : ∀ s, c.lock = some s → (d.reclamationKey.Holds s → d'.reclamationKey.Holds s) ∧
      (d.reclamationKey.exclusive = some s → d'.reclamationKey.exclusive = some s))
    (hspent : ∀ r, d'.Spent r → fair r.transactionId → d.Spent r ∨
      ∀ row, c.committed = some row ∨ c.pending = some row → row.delivered.visible r.transactionId) :
    CellOk o fair d' key c where
  present hkey := h.present fun hmem => hkey (hkeys key hmem)
  unlocked := h.unlocked
  unwritten := h.unwritten
  committed_sound row hrow := (h.committed_sound row hrow).mono hcommitted
  pending_sound s row hs hrow := hpending s row hs hrow (h.pending_sound s row hs hrow)
  grown := h.grown
  anew_held s hs hanew :=
    have ⟨hholds, hexclusive⟩ := h.anew_held s hs hanew
    ⟨(hheld s hs).1 hholds, fun hcommitted => (hheld s hs).2 (hexclusive hcommitted)⟩
  committed_spares row hrow r hr hfair := (hspent r hr hfair).elim
    (fun hr => h.committed_spares row hrow r hr hfair) fun hvisible => hvisible row (Or.inl hrow)
  pending_spares row hrow r hr hfair := (hspent r hr hfair).elim
    (fun hr => h.pending_spares row hrow r hr hfair) fun hvisible => hvisible row (Or.inr hrow)
  committed_pair := h.committed_pair
  pending_pair := h.pending_pair

end AsceticDdd.Outbox
