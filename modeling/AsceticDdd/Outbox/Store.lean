import AsceticDdd.Order.FirstN
import AsceticDdd.Outbox.Ring
import AsceticDdd.Postgres.Like

/-!
# The statements of the outbox, on what they read

Each definition is what one statement computes from the rows its snapshot shows it. An epoch's
start finds the generations of its rows, and a batch reads those alone: together they leave no
row of the epoch out, and take none of another.
-/

namespace AsceticDdd.Outbox

open Postgres Text

/-- The numbers an outbox is made with. `hashtext` is the server's. -/
structure PgOutbox where
  slots : Nat
  ring : Ring
  margin : Nat
  copyLimit : Nat
  hashtext : String → BitVec 32

/-- The key of the positions' table. -/
structure PositionKey where
  consumerGroup : String
  uri : String
  slot : Nat
deriving DecidableEq

def PositionKey.of (selection : Selection) (slot : Nat) : PositionKey :=
  ⟨selection.consumerGroup, selection.uri, slot⟩

/-- `1:1:`, in which nothing is visible. -/
def nothing : Snapshot where
  xmin := 1
  xmax := 1
  xip := []
  xmin_pos := by decide
  xmin_le := by decide
  ascending := .nil
  within := by simp

theorem not_visible_nothing {xid : Nat} (h : 0 < xid) : nothing.visible xid = false :=
  Snapshot.visible_eq_false_iff.mpr (Or.inl h)

/-- Whether a row of `rowUri` is of the selection of `uri`. -/
def selected (uri rowUri : String) : Bool :=
  uri = "" || rowUri = uri || like (uri ++ "/%").toList rowUri.toList

/-- The row is visible in `epoch` and not in `delivered`. -/
def New (delivered epoch : Snapshot) (row : Row) : Prop :=
  epoch.visible row.transactionId ∧ delivered.visible row.transactionId = false

instance (delivered epoch : Snapshot) : DecidablePred (New delivered epoch) :=
  fun _ => inferInstanceAs (Decidable (_ ∧ _))

namespace PgOutbox

variable (o : PgOutbox)

def slotOf (uri : String) : Nat := (o.hashtext uri &&& 2147483647#32).toNat % o.slots

def generationOf (row : Row) : Nat := o.ring.generationOf row.transactionId

/-- The row is one of the position's slot and selection. -/
def Covers (key : PositionKey) (row : Row) : Prop :=
  o.slotOf row.uri = key.slot ∧ selected key.uri row.uri

instance (key : PositionKey) : DecidablePred (o.Covers key) :=
  fun _ => inferInstanceAs (Decidable (_ ∧ _))

/-- A look's condition on a slot: an epoch in flight, or a row of any URI new to it in the
generations named. -/
def hasWork (rows : List Row) (names : Finset Nat) (now : Snapshot) (slot : Nat)
    (position : Position) : Bool :=
  position.epoch.isSome ||
    rows.any (fun row => decide (o.generationOf row ∈ names ∧ o.slotOf row.uri = slot ∧
      position.delivered.xmax ≤ row.transactionId ∧ now.visible row.transactionId)) ||
    position.delivered.xip.any (fun xid => now.visible xid &&
      rows.any fun row => decide (o.generationOf row ∈ names ∧ o.slotOf row.uri = slot ∧
        row.transactionId = xid))

structure Start where
  epoch : Snapshot
  first : Option Int
  last : Option Int
  generations : List Generation

/-- The rows an epoch's start groups: ids from `delivered`'s `xmax` on, and ids of its in-progress
list that the epoch sees, asked apart. -/
def members (rows : List Row) (names : Finset Nat) (key : PositionKey)
    (delivered epoch : Snapshot) : List Row :=
  let ended := delivered.xip.filter (SnapshotText.ofSnapshot epoch).sees
  rows.filter (fun row => decide (o.generationOf row ∈ names ∧ o.Covers key row ∧
    delivered.xmax ≤ row.transactionId ∧ row.transactionId < epoch.xmax ∧
    epoch.visible row.transactionId)) ++
  rows.filter (fun row => decide (o.generationOf row ∈ names ∧ o.Covers key row ∧
    row.transactionId ∈ ended))

/-- `min(position), max(position)` of a generation's rows; none without any. -/
def span (rows : List Row) (generation : Nat) : Option Generation :=
  let positions := (rows.filter fun row => o.generationOf row = generation).map (·.position)
  match positions.min?, positions.max? with
  | some first, some last => some ⟨generation, first, last⟩
  | _, _ => none

/-- The second statement of an epoch's start, once its snapshot is known. -/
def startEpoch (rows : List Row) (key : PositionKey) (delivered epoch : Snapshot) : Start :=
  let names := o.ring.generationsNew (.ofSnapshot delivered) (.ofSnapshot epoch)
  if names = ∅ then ⟨epoch, none, none, []⟩
  else
    let generations :=
      (List.range o.ring.generations).filterMap (o.span (o.members rows names key delivered epoch))
    ⟨epoch, (generations.map (·.first)).min?, (generations.map (·.last)).max?, generations⟩

/-- A generation's branch of a batch. -/
def branch (rows : List Row) (key : PositionKey) (epoch : Epoch) (delivered : Snapshot)
    (generation : Generation) : List Row :=
  rows.filter fun row => decide (o.generationOf row = generation.generation ∧ o.Covers key row ∧
    max epoch.offset (generation.first - 1) < row.position ∧ row.position ≤ generation.last ∧
    New delivered epoch.snapshot row)

def readBatch (rows : List Row) (key : PositionKey) (epoch : Epoch) (delivered : Snapshot)
    (limit : Nat) : List Row :=
  FirstN.mergeN (·.position) limit
    ((epoch.generations.filter fun generation => decide (epoch.offset < generation.last)).map
      (o.branch rows key epoch delivered))

variable {o} {rows : List Row} {key : PositionKey} {delivered epoch : Snapshot} {row : Row}

theorem mem_members (hrow : row ∈ rows) (hcovers : o.Covers key row)
    (hnew : New delivered epoch row) :
    row ∈ o.members rows (o.ring.generationsNew (.ofSnapshot delivered) (.ofSnapshot epoch)) key
      delivered epoch := by
  have hnamed : o.generationOf row ∈ o.ring.generationsNew (.ofSnapshot delivered) (.ofSnapshot epoch) :=
    Ring.generationOf_mem_generationsNew hnew.2 hnew.1
  rw [members, List.mem_append, List.mem_filter, List.mem_filter, decide_eq_true_eq,
    decide_eq_true_eq]
  rcases Snapshot.visible_eq_false_iff.mp hnew.2 with hpast | hopen
  · exact Or.inl ⟨hrow, hnamed, hcovers, hpast, Snapshot.lt_xmax_of_visible hnew.1, hnew.1⟩
  · exact Or.inr ⟨hrow, hnamed, hcovers, List.mem_filter.mpr ⟨hopen, hnew.1⟩⟩

/-- A generation's span bounds its rows. -/
theorem span_of_mem {generation : Nat} (hrow : row ∈ rows) (hgen : o.generationOf row = generation) :
    ∃ g, o.span rows generation = some g ∧ g.generation = generation ∧
      g.first ≤ row.position ∧ row.position ≤ g.last := by
  have hmem : row.position ∈
      (rows.filter fun row => o.generationOf row = generation).map (·.position) :=
    List.mem_map_of_mem (List.mem_filter.mpr ⟨hrow, decide_eq_true hgen⟩)
  rw [span]
  generalize (rows.filter fun row => o.generationOf row = generation).map (·.position) = ps at hmem
  cases hmin : ps.min? with
  | none =>
    rw [List.min?_eq_none_iff.mp hmin] at hmem
    cases hmem
  | some first =>
    cases hmax : ps.max? with
    | none =>
      rw [List.max?_eq_none_iff.mp hmax] at hmem
      cases hmem
    | some last =>
      exact ⟨⟨generation, first, last⟩, rfl, rfl, (List.min?_eq_some_iff.mp hmin).2 _ hmem,
        (List.max?_eq_some_iff.mp hmax).2 _ hmem⟩

@[simp] theorem startEpoch_epoch : (o.startEpoch rows key delivered epoch).epoch = epoch := by
  rw [startEpoch]
  split <;> rfl

/-- The generations found cover every row of the epoch. -/
theorem startEpoch_generations (hrow : row ∈ rows) (hcovers : o.Covers key row)
    (hnew : New delivered epoch row) :
    ∃ g ∈ (o.startEpoch rows key delivered epoch).generations,
      g.generation = o.generationOf row ∧ g.first ≤ row.position ∧ row.position ≤ g.last := by
  have hnamed : o.generationOf row ∈ o.ring.generationsNew (.ofSnapshot delivered) (.ofSnapshot epoch) :=
    Ring.generationOf_mem_generationsNew hnew.2 hnew.1
  obtain ⟨g, hspan, hg, hfirst, hlast⟩ := span_of_mem (mem_members hrow hcovers hnew) rfl
  rw [startEpoch, if_neg (Finset.ne_empty_of_mem hnamed)]
  exact ⟨g, List.mem_filterMap.mpr ⟨_, List.mem_range.mpr Ring.generationOf_lt, hspan⟩, hg, hfirst,
    hlast⟩

theorem startEpoch_first {g : Generation} {first : Int}
    (hg : g ∈ (o.startEpoch rows key delivered epoch).generations)
    (hfirst : (o.startEpoch rows key delivered epoch).first = some first) : first ≤ g.first := by
  rw [startEpoch] at hg hfirst
  split at hg
  · cases hg
  · rw [if_neg ‹_›] at hfirst
    exact (List.min?_eq_some_iff.mp hfirst).2 _ (List.mem_map_of_mem hg)

/-- Without a first or a last position, the epoch has no row. -/
theorem startEpoch_empty (h : (o.startEpoch rows key delivered epoch).first = none ∨
    (o.startEpoch rows key delivered epoch).last = none) :
    (o.startEpoch rows key delivered epoch).generations = [] := by
  rw [startEpoch] at h ⊢
  split
  · rfl
  · rw [if_neg ‹_›] at h
    rcases h with h | h
    · exact List.map_eq_nil_iff.mp (List.min?_eq_none_iff.mp h)
    · exact List.map_eq_nil_iff.mp (List.max?_eq_none_iff.mp h)

theorem startEpoch_names :
    ((o.startEpoch rows key delivered epoch).generations.map (·.generation)).Nodup := by
  have hspan : ∀ {rows' : List Row} {generation : Nat} {g : Generation},
      o.span rows' generation = some g → g.generation = generation := by
    intro rows' generation g hg
    rw [span] at hg
    split at hg
    · cases hg
      rfl
    · cases hg
  rw [startEpoch]
  split
  · exact List.nodup_nil
  · refine (List.nodup_range (n := o.ring.generations)).sublist ?_
    dsimp only
    induction List.range o.ring.generations with
    | nil => exact .slnil
    | cons generation rest ih =>
      rw [List.filterMap_cons]
      split
      · exact ih.cons _
      · rename_i g hg
        rw [List.map_cons, hspan hg]
        exact ih.cons_cons _

section Batch

variable {inFlight : Epoch} {limit : Nat}

theorem mem_branch {generation : Generation} :
    row ∈ o.branch rows key inFlight delivered generation ↔
      row ∈ rows ∧ o.generationOf row = generation.generation ∧ o.Covers key row ∧
        max inFlight.offset (generation.first - 1) < row.position ∧
        row.position ≤ generation.last ∧ New delivered inFlight.snapshot row := by
  rw [branch, List.mem_filter, decide_eq_true_eq]

theorem mem_readBatch (h : row ∈ o.readBatch rows key inFlight delivered limit) :
    row ∈ rows ∧ o.Covers key row ∧ inFlight.offset < row.position ∧
      New delivered inFlight.snapshot row := by
  obtain ⟨branch, hbranch, hrow⟩ := FirstN.mem_branch_of_mem_mergeN h
  obtain ⟨generation, _, rfl⟩ := List.mem_map.mp hbranch
  obtain ⟨hrows, _, hcovers, hfrom, _, hnew⟩ := mem_branch.mp hrow
  exact ⟨hrows, hcovers, lt_of_le_of_lt (le_max_left _ _) hfrom, hnew⟩

theorem length_readBatch_le : (o.readBatch rows key inFlight delivered limit).length ≤ limit :=
  FirstN.length_mergeN_le

theorem readBatch_sorted :
    (o.readBatch rows key inFlight delivered limit).Pairwise fun a b => a.position ≤ b.position :=
  FirstN.mergeN_sorted

theorem readBatch_nodup (hrows : rows.Nodup)
    (hnames : (inFlight.generations.map (·.generation)).Nodup) :
    (o.readBatch rows key inFlight delivered limit).Nodup := by
  apply FirstN.mergeN_nodup
  rw [List.nodup_flatten]
  refine ⟨?_, ?_⟩
  · intro branch hbranch
    obtain ⟨g, _, rfl⟩ := List.mem_map.mp hbranch
    exact hrows.sublist List.filter_sublist
  · rw [List.pairwise_map]
    refine ((List.pairwise_map.mp hnames).sublist List.filter_sublist).imp ?_
    intro g g' hne r hr hr'
    exact hne ((mem_branch.mp hr).2.1.symm.trans (mem_branch.mp hr').2.1)

/-- A row of the epoch past the offset that a batch leaves out comes after all of a full batch. -/
theorem readBatch_le (hrows : rows.Nodup) (hrow : row ∈ rows) (hcovers : o.Covers key row)
    (hnew : New delivered inFlight.snapshot row) (hpast : inFlight.offset < row.position)
    (hfound : ∃ g ∈ inFlight.generations, g.generation = o.generationOf row ∧
      g.first ≤ row.position ∧ row.position ≤ g.last)
    (hout : row ∉ o.readBatch rows key inFlight delivered limit) :
    (o.readBatch rows key inFlight delivered limit).length = limit ∧
      ∀ r ∈ o.readBatch rows key inFlight delivered limit, r.position ≤ row.position := by
  obtain ⟨g, hg, hgen, hfirst, hlast⟩ := hfound
  have hbranch : o.branch rows key inFlight delivered g ∈
      (inFlight.generations.filter fun g => decide (inFlight.offset < g.last)).map
        (o.branch rows key inFlight delivered) :=
    List.mem_map_of_mem (List.mem_filter.mpr ⟨hg, decide_eq_true (by omega)⟩)
  exact FirstN.mergeN_le hbranch (hrows.sublist List.filter_sublist)
    (mem_branch.mpr ⟨hrow, hgen.symm, hcovers, max_lt hpast (by omega), hlast, hnew⟩) hout

end Batch

end PgOutbox

/-- The position an acknowledgement writes over `row`, with the pair it keeps up. -/
def PositionRow.ack (row : PositionRow) (drainedTo : Option Snapshot) (epoch : Option Epoch) :
    PositionRow :=
  let delivered := drainedTo.getD row.delivered
  { delivered
    epoch
    lastProcessedTransactionId := delivered.xmin - 1
    offsetAcked := maxI64 }

/-- The server's text of what `snapshot` sees below `xid`, read back as a snapshot. -/
def below (snapshot : Snapshot) (xid : Nat) : Option Snapshot :=
  let xid := max xid 1
  Snapshot.read (Snapshot.text (min snapshot.xmin xid) (min snapshot.xmax xid)
    (snapshot.xip.filter (· < xid)))

theorem below_eq (snapshot : Snapshot) (xid : Nat) :
    below snapshot xid = some (snapshot.cut (max xid 1) (by omega)) :=
  Snapshot.read_text (snapshot.cut (max xid 1) (by omega))

theorem below_visible {snapshot cut : Snapshot} {xid x : Nat} (h : below snapshot xid = some cut) :
    cut.visible x ↔ x < max xid 1 ∧ snapshot.visible x := by
  rw [below_eq, Option.some.injEq] at h
  subst h
  exact Snapshot.cut_visible

/-- Where a position the group's selection of everything does not give starts. -/
def freshStart (intactFrom : Option Nat) (now : Snapshot) : Option Snapshot :=
  match intactFrom with
  | none => some nothing
  | some xid => below now xid

/-- The position a move writes over `row`, with the pair it keeps up. -/
def PositionRow.moved (row : PositionRow) (move : Move) (now : Snapshot) : Option PositionRow :=
  let delivered := match move with
    | .start => some nothing
    | .now => some now
    | .fromId xid => below row.delivered xid
  delivered.map fun delivered =>
    { delivered
      epoch := none
      lastProcessedTransactionId := delivered.xmin - 1
      offsetAcked := maxI64 }

/-- A position row as inserted: nothing acknowledged under the old rule. -/
def PositionRow.created (delivered : Snapshot) : PositionRow :=
  { delivered, epoch := none, lastProcessedTransactionId := 0, offsetAcked := 0 }

/-- A 32-bit id of the views, widened to the full one nearest the next. -/
def widened (next xid : Int) : Int :=
  next + ((xid - next % 4294967296 + 6442450944) % 4294967296) - 2147483648

end AsceticDdd.Outbox
