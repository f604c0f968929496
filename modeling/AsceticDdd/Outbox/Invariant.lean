import AsceticDdd.Outbox.Position
import AsceticDdd.Outbox.System

/-!
# The invariant of the outbox

What holds of the shared state between any two statements. A committed row is spent when no
position may need it any more: it is gone, or lies below a bound fixed for the ring's copy.
Every position, committed or being written, has delivered every spent row of the `fair`
transactions, and hands on every row of them: those a run commits in a way that loses none.
-/

namespace AsceticDdd.Outbox

open Postgres

/-- The pair older binaries read lies below every row the position has not done. -/
def PositionRow.PairBelow (row : PositionRow) : Prop :=
  ∀ r : Row, ¬row.Passed r → row.lastProcessedTransactionId < r.transactionId ∨
    row.lastProcessedTransactionId = r.transactionId ∧ row.offsetAcked < r.position

namespace Database

variable (o : PgOutbox) (d : Database)

/-- The ids a statement of session `s` sees now. -/
def Sees (s x : Nat) : Prop := (d.snapshot s).visible x

/-- The ids whose rows count in session `s`'s transaction. -/
def Live (s x : Nat) : Prop := d.transactions.Committed x ∨ d.transactions.own s = some x

def Spent (r : Row) : Prop :=
  r ∈ d.written ∧ d.transactions.Committed r.transactionId ∧
    (r ∉ d.table ∨ ∃ bound ∈ d.bounds, r.transactionId < bound)

/-- A version of a position has delivered every spent row of the `fair` transactions. -/
def Spares (fair : Nat → Prop) (row : PositionRow) : Prop :=
  ∀ r, d.Spent r → fair r.transactionId → row.delivered.visible r.transactionId

end Database

structure RowsOk (o : PgOutbox) (d : Database) : Prop where
  table : d.table.Sublist d.written
  kept : ∀ r ∈ d.written, ¬d.transactions.Ended r.transactionId → r ∈ d.table
  positions : (d.written.map (·.position)).Nodup
  position_lt : ∀ r ∈ d.written, r.position < d.nextPosition
  drawn_lt : ∀ position s, d.drawn position = some s → position < d.nextPosition
  drawn_free : ∀ r ∈ d.written, d.drawn r.position = none
  ids : ∀ r ∈ d.written, r.transactionId < d.transactions.next
  ids_pos : ∀ r ∈ d.written, 0 < r.transactionId
  here : ∀ r ∈ d.written, ¬d.transactions.Ended r.transactionId →
    d.transactions.seat r.transactionId ≠ .elsewhere
  partitions : ∀ generation s, d.partitions generation = some s → ∀ r ∈ d.table,
    o.generationOf r = generation →
      d.transactions.Ended r.transactionId ∨ d.transactions.own s = some r.transactionId

structure CellOk (o : PgOutbox) (fair : Nat → Prop) (d : Database) (key : PositionKey) (c : Cell) :
    Prop where
  present : key ∉ d.keys → c.committed = none ∧ c.lock = none
  unlocked : c.lock = none → c.pending = none ∧ c.calling = []
  unwritten : c.pending = none → c.anew = none ∧ c.handing = []
  committed_sound : ∀ row, c.committed = some row →
    Sound o fair key d.written d.transactions.Ended d.transactions.Committed row.toPosition c.began c.handed
  pending_sound : ∀ s row, c.lock = some s → c.pending = some row →
    Sound o fair key d.written (d.Sees s) (d.Live s) row.toPosition c.beganNext c.handedNext
  grown : ∀ row, c.pending = some row → c.anew = none → ∃ row', c.committed = some row' ∧
    ∀ x, row'.delivered.visible x → row.delivered.visible x
  anew_held : ∀ s, c.lock = some s → c.anew ≠ none → d.reclamationKey.Holds s ∧
    (c.committed ≠ none → d.reclamationKey.exclusive = some s)
  committed_spares : ∀ row, c.committed = some row → d.Spares fair row
  pending_spares : ∀ row, c.pending = some row → d.Spares fair row
  committed_pair : ∀ row, c.committed = some row → row.PairBelow
  pending_pair : ∀ row, c.pending = some row → row.PairBelow

structure Consistent (o : PgOutbox) (fair : Nat → Prop) (d : Database) : Prop where
  rows : RowsOk o d
  cells : ∀ key, CellOk o fair d key (d.cells key)
  intact : ∀ r, d.Spent r → ∃ v, d.metaRow.intactFrom = some v ∧ r.transactionId < v
  bounds : ∀ bound ∈ d.bounds, bound ≤ d.transactions.next ∧ ∀ x < d.transactions.next,
    ¬d.transactions.Ended x → d.transactions.seat x ≠ .elsewhere → bound ≤ x

variable {o : PgOutbox} {fair : Nat → Prop} {d : Database} {s : Nat}

theorem Database.sees_iff {x : Nat} : d.Sees s x ↔
    d.transactions.Ended x ∨ d.transactions.own s = some x ∧ x ≤ d.transactions.latest :=
  d.transactions.snapshot_visible

theorem Database.mem_visibleRows {r : Row} :
    r ∈ d.visibleRows s ↔ r ∈ d.table ∧ d.Live s r.transactionId := by
  rw [visibleRows, List.mem_filter, decide_eq_true_eq]
  rfl

namespace RowsOk

variable (h : RowsOk o d)

include h

theorem mem_written {r : Row} (hr : r ∈ d.table) : r ∈ d.written := h.table.subset hr

theorem written_nodup : d.written.Nodup := h.positions.of_map _

theorem table_nodup : d.table.Nodup := h.table.nodup h.written_nodup

theorem position_inj : ∀ r ∈ d.written, ∀ r' ∈ d.written, r.position = r'.position → r = r' :=
  fun _ hr _ hr' => List.inj_on_of_nodup_map h.positions hr hr'

/-- A row that counts and some position has not delivered is in the table. -/
theorem mem_table {r : Row} (hr : r ∈ d.written) (hlive : d.Live s r.transactionId)
    (hfair : fair r.transactionId) {row : PositionRow} (hspares : d.Spares fair row)
    (hnew : row.delivered.visible r.transactionId = false) : r ∈ d.table := by
  by_contra hgone
  rcases hlive with hcommitted | hown
  · have := hspares r ⟨hr, hcommitted, Or.inl hgone⟩ hfair
    rw [hnew] at this
    cases this
  · exact hgone (h.kept r hr (d.transactions.not_ended_of_own hown))

theorem reads {row : PositionRow} (hspares : d.Spares fair row) :
    Reads fair d.written (d.Live s) row.delivered (d.visibleRows s) where
  mem _ hr :=
    have ⟨htable, hlive⟩ := Database.mem_visibleRows.mp hr
    ⟨h.mem_written htable, hlive⟩
  new _ hr hlive hfair hnew :=
    Database.mem_visibleRows.mpr ⟨h.mem_table hr hlive hfair hspares hnew, hlive⟩
  nodup := h.table_nodup.sublist List.filter_sublist

end RowsOk

end AsceticDdd.Outbox
