import AsceticDdd.Outbox.Dispatch
import AsceticDdd.Outbox.Named

/-!
# A batch is the plain query

The statement of a batch has a branch for each generation the epoch's start found rows in, each with bounds and a
limit of its own. What it returns is what a query of the whole table would.
-/

namespace AsceticDdd.Outbox

open Postgres

section Filters

variable {α ι : Type} {p q : α → Bool} {l : List α}

theorem filter_append_filter_perm (apart : ∀ a ∈ l, ¬ (p a = true ∧ q a = true)) :
    (l.filter p ++ l.filter q).Perm (l.filter fun a => p a || q a) := by
  have first : (l.filter fun a => p a || q a).filter p = l.filter p := by
    rw [List.filter_filter]
    exact List.filter_congr fun a _ => by cases p a <;> simp
  have second : (l.filter fun a => p a || q a).filter (fun a => !p a) = l.filter q := by
    rw [List.filter_filter]
    refine List.filter_congr fun a ha => ?_
    have := apart a ha
    cases hp : p a <;> simp_all
  rw [← first, ← second]
  exact List.filter_append_perm _ _

/-- Filters that no element passes two of. -/
theorem flatten_filter_perm {p : ι → α → Bool} {names : List ι}
    (apart : names.Pairwise fun i j => ∀ a ∈ l, ¬ (p i a = true ∧ p j a = true)) :
    (names.map fun i => l.filter (p i)).flatten.Perm (l.filter fun a => names.any fun i => p i a) := by
  induction names with
  | nil => simp
  | cons i names ih =>
    obtain ⟨first, apart⟩ := List.pairwise_cons.mp apart
    have disjoint : ∀ a ∈ l, ¬ (p i a = true ∧ (names.any fun j => p j a) = true) := by
      rintro a ha ⟨one, other⟩
      obtain ⟨j, hj, other⟩ := List.any_eq_true.mp other
      exact first j hj a ha ⟨one, other⟩
    simp only [List.map_cons, List.flatten_cons, List.any_cons]
    exact ((ih apart).append_left _).trans (filter_append_filter_perm disjoint)

end Filters

namespace PgOutbox

variable {o : PgOutbox} {rows found : List Row} {key : PositionKey} {delivered epoch : Snapshot} {row : Row}

/-- The rows of the slot's selection new in the epoch. -/
def newRows (o : PgOutbox) (rows : List Row) (key : PositionKey) (delivered epoch : Snapshot) : List Row :=
  rows.filter fun row => decide (o.Covers key row ∧ New delivered epoch row)

/-- The first of them above the offset: one query of the whole table. -/
def plain (o : PgOutbox) (rows : List Row) (key : PositionKey) (delivered : Snapshot) (epoch : Epoch) : List Row :=
  (o.newRows rows key delivered epoch.snapshot).filter fun row => decide (epoch.offset < row.position)

/-- The rows of the two branches of an epoch's start are the new ones, each once. -/
theorem members_perm :
    (o.members rows (o.ring.generationsNew (.ofSnapshot delivered) (.ofSnapshot epoch)) key delivered epoch).Perm
      (o.newRows rows key delivered epoch) := by
  refine (filter_append_filter_perm ?_).trans (List.Perm.of_eq (List.filter_congr ?_))
  · rintro row _ ⟨past, ended⟩
    simp only [decide_eq_true_eq, List.mem_filter] at past ended
    have := delivered.within _ ended.2.2.1
    omega
  · intro row _
    rw [← Bool.decide_or, decide_eq_decide]
    constructor
    · rintro (⟨_, covers, past, _, seen⟩ | ⟨_, covers, ended⟩)
      · exact ⟨covers, seen, Snapshot.visible_eq_false_iff.mpr (.inl past)⟩
      · obtain ⟨running, seen⟩ := List.mem_filter.mp ended
        exact ⟨covers, seen, Snapshot.visible_eq_false_iff.mpr (.inr running)⟩
    · rintro ⟨covers, new⟩
      have named : o.generationOf row ∈ o.ring.generationsNew (.ofSnapshot delivered) (.ofSnapshot epoch) :=
        Ring.generationOf_mem_generationsNew new.2 new.1
      obtain past | running := Snapshot.visible_eq_false_iff.mp new.2
      · exact .inl ⟨named, covers, past, Snapshot.lt_xmax_of_visible new.1, new.1⟩
      · exact .inr ⟨named, covers, List.mem_filter.mpr ⟨running, new.1⟩⟩

/-- The branches of a batch are apart, each in a generation of its own. -/
theorem branches_perm {inFlight : Epoch} (names : (inFlight.generations.map (·.generation)).Nodup)
    (bounds : ∀ row ∈ rows, o.Covers key row → New delivered inFlight.snapshot row →
      ∃ g ∈ inFlight.generations, g.generation = o.generationOf row ∧ g.first ≤ row.position ∧
        row.position ≤ g.last) :
    ((inFlight.generations.filter fun g => decide (inFlight.offset < g.last)).map
      (o.branch rows key inFlight delivered)).flatten.Perm (o.plain rows key delivered inFlight) := by
  refine (flatten_filter_perm ?_).trans (List.Perm.of_eq ?_)
  · refine ((List.pairwise_map.mp names).sublist List.filter_sublist).imp ?_
    rintro g g' apart row _ ⟨one, other⟩
    exact apart ((of_decide_eq_true one).1.symm.trans (of_decide_eq_true other).1)
  · rw [plain, newRows, List.filter_filter]
    refine List.filter_congr fun row hrow => ?_
    rw [← Bool.decide_and, Bool.eq_iff_iff, List.any_eq_true, decide_eq_true_eq]
    constructor
    · rintro ⟨g, _, inside⟩
      obtain ⟨_, covers, from', _, new⟩ := of_decide_eq_true inside
      exact ⟨(max_lt_iff.mp from').1, covers, new⟩
    · rintro ⟨past, covers, new⟩
      obtain ⟨g, hg, same, first, last⟩ := bounds row hrow covers new
      refine ⟨g, List.mem_filter.mpr ⟨hg, decide_eq_true (by omega)⟩, decide_eq_true ?_⟩
      exact ⟨same.symm, covers, max_lt past (by omega), last, new⟩

/-- Of a table whose rows of the epoch were there at its start, a batch is the first of the plain query's rows. -/
theorem readBatch_isFirst {inFlight : Epoch} {limit : Nat}
    (generations : inFlight.generations = (o.startEpoch found key delivered inFlight.snapshot).generations)
    (kept : ∀ row ∈ rows, inFlight.snapshot.visible row.transactionId → row ∈ found) :
    FirstN.IsFirst (·.position) limit (o.plain rows key delivered inFlight)
      (o.readBatch rows key inFlight delivered limit) := by
  apply FirstN.mergeN_isFirst.of_perm
  apply branches_perm
  · exact generations ▸ startEpoch_names
  · intro row hrow covers new
    exact generations ▸ startEpoch_generations (kept row hrow new.1) covers new

theorem startEpoch_generations_iff :
    (o.startEpoch rows key delivered epoch).generations = [] ↔ o.newRows rows key delivered epoch = [] := by
  constructor
  · intro nothing
    refine List.eq_nil_iff_forall_not_mem.mpr fun row hrow => ?_
    obtain ⟨hrow, new⟩ := List.mem_filter.mp hrow
    obtain ⟨covers, new⟩ := of_decide_eq_true new
    obtain ⟨g, hg, _⟩ := startEpoch_generations hrow covers new
    rw [nothing] at hg
    cases hg
  · intro nothing
    have members : (o.members rows (o.ring.generationsNew (.ofSnapshot delivered) (.ofSnapshot epoch)) key delivered
        epoch).Perm [] := nothing ▸ members_perm
    rw [startEpoch]
    split
    · rfl
    · refine List.filterMap_eq_nil_iff.mpr fun generation _ => ?_
      rw [members.eq_nil]
      rfl

/-- An epoch's start finds a first row, and a last, exactly when there is one. -/
theorem startEpoch_ends_iff :
    ((o.startEpoch rows key delivered epoch).first = none ↔ o.newRows rows key delivered epoch = []) ∧
      ((o.startEpoch rows key delivered epoch).last = none ↔ o.newRows rows key delivered epoch = []) := by
  rw [← startEpoch_generations_iff, startEpoch]
  split
  · simp
  · simp [List.min?_eq_none_iff, List.max?_eq_none_iff]

/-- A batch of an epoch is the plain query: the first rows above the offset of those new in the epoch. A short one
leaves nothing of them, and the epoch's start found a row exactly when there was one, and each once. -/
theorem batch_is_plain_query {inFlight : Epoch} {limit : Nat}
    (generations : inFlight.generations = (o.startEpoch found key delivered inFlight.snapshot).generations)
    (kept : ∀ row ∈ rows, inFlight.snapshot.visible row.transactionId → row ∈ found) :
    FirstN.IsFirst (·.position) limit (o.plain rows key delivered inFlight)
        (o.readBatch rows key inFlight delivered limit) ∧
      ((o.readBatch rows key inFlight delivered limit).length < limit →
        (o.readBatch rows key inFlight delivered limit).Perm (o.plain rows key delivered inFlight)) ∧
      ((o.startEpoch found key delivered inFlight.snapshot).first = none ↔
        o.newRows found key delivered inFlight.snapshot = []) ∧
      ((o.startEpoch found key delivered inFlight.snapshot).last = none ↔
        o.newRows found key delivered inFlight.snapshot = []) ∧
      (o.members found (o.ring.generationsNew (.ofSnapshot delivered) (.ofSnapshot inFlight.snapshot)) key delivered
        inFlight.snapshot).Perm (o.newRows found key delivered inFlight.snapshot) := by
  exact ⟨readBatch_isFirst generations kept, (readBatch_isFirst generations kept).perm, startEpoch_ends_iff.1,
    startEpoch_ends_iff.2, members_perm⟩

section Example

def fourGenerations : PgOutbox := ⟨1, .new 4 10, 2, 0, fun _ => 0⟩

def everything : PositionKey := ⟨"g", "", 0⟩

def rowOf (position : Int) (xid : Nat) : Row := ⟨⟨"kafka://orders", [], .null⟩, "", position, xid⟩

def before : Snapshot := ⟨3, 25, [12], by decide, by decide, by simp, by simp⟩

def after : Snapshot := ⟨30, 42, [30], by decide, by decide, by simp, by simp⟩

/-- A row of an id that ended, two of the range, and the row of an id that runs. -/
def fourRows : List Row := [rowOf 4 12, rowOf 2 26, rowOf 3 41, rowOf 1 30]

def started (generations : List Generation) : Epoch := ⟨after, 1, none, generations⟩

/-- The generation of the first is emptied after the epoch's start. -/
theorem two_rows_are_plain_query :
    fourGenerations.readBatch (fourRows.drop 1) everything
      (started (fourGenerations.startEpoch fourRows everything before after).generations) before 3 =
        [rowOf 2 26, rowOf 3 41] ∧
    [rowOf 2 26, rowOf 3 41].Perm (fourGenerations.plain (fourRows.drop 1) everything before
      (started (fourGenerations.startEpoch fourRows everything before after).generations)) := by
  have read : fourGenerations.readBatch (fourRows.drop 1) everything
      (started (fourGenerations.startEpoch fourRows everything before after).generations) before 3 =
        [rowOf 2 26, rowOf 3 41] := by decide
  have kept : ∀ row ∈ fourRows.drop 1, after.visible row.transactionId → row ∈ fourRows :=
    fun row hrow _ => List.mem_of_mem_drop hrow
  have short := (@batch_is_plain_query fourGenerations (fourRows.drop 1) fourRows everything before
    (started (fourGenerations.startEpoch fourRows everything before after).generations) 3 rfl kept).2.1
  rw [read] at short
  exact ⟨read, short (by decide)⟩

end Example

end PgOutbox

end AsceticDdd.Outbox
