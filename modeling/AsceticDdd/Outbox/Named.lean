import AsceticDdd.Machine.Unsigned
import AsceticDdd.Outbox.Ring

/-!
# The generations named are those of the new ids

The names are worked out on 64-bit integers, from the ends of a range and from a list of ids. No step of it is past
the type, and the generations are exactly those that a new id can lie in.
-/

namespace AsceticDdd.Outbox

open Machine Postgres

namespace Ring

variable (ring : Ring)

def generationOf64 (xid : Nat) : Option Nat := do
  return cast32 (← rem64 (← div64 xid ring.window) ring.generations)

def generationsBetween64 (start stop : Nat) : Option (Finset Nat) :=
  if start ≥ stop then some ∅
  else do
    let first ← div64 start ring.window
    let last ← div64 (← sub64 stop 1) ring.window
    if (← add64 (← sub64 last first) 1) ≥ ring.generations then return Finset.range ring.generations
    else
      let names ← (List.range' first (last + 1 - first)).mapM fun window => (rem64 window ring.generations).map cast32
      return names.toFinset

def generationsNew64 (delivered epoch : SnapshotText) : Option (Finset Nat) := do
  let names ← ring.generationsBetween64 delivered.xmax epoch.xmax
  let ended ← (delivered.xip.filter epoch.sees).mapM ring.generationOf64
  return names ∪ ended.toFinset

variable {ring} {start stop xid generation : Nat}

theorem new_generations_le (generations window : Nat) : (Ring.new generations window).generations ≤ 32767 := by
  change max 2 (min generations 32767) ≤ 32767
  omega

theorem generationOf64_eq (small : ring.generations ≤ 32767) :
    ring.generationOf64 xid = some (ring.generationOf xid) := by
  have below : ring.generationOf xid < ring.generations := generationOf_lt
  have positive := ring.generations_pos
  rw [generationOf64, div64_eq ring.window_pos, Option.bind_eq_bind, Option.bind_some, rem64_eq (by omega),
    Option.bind_some]
  exact congrArg some (cast32_eq (by rw [generationOf] at below; omega))

theorem mapM_some {α β : Type} {f : α → Option β} {g : α → β} {l : List α} (h : ∀ a ∈ l, f a = some (g a)) :
    l.mapM f = some (l.map g) := by
  induction l with
  | nil => rfl
  | cons a l ih =>
    rw [List.mapM_cons, h a List.mem_cons_self, ih fun b hb => h b (List.mem_cons_of_mem _ hb)]
    rfl

/-- The windows of a range are no more than its ids, so to count them does not overflow. -/
theorem generationsBetween64_eq (small : ring.generations ≤ 32767) (bounded : stop < 2 ^ 64) :
    ring.generationsBetween64 start stop = some (ring.generationsBetween start stop) := by
  rw [generationsBetween64, generationsBetween]
  split
  · rfl
  · rename_i before
    have ordered : start / ring.window ≤ (stop - 1) / ring.window := Nat.div_le_div_right (by omega)
    have count : (stop - 1) / ring.window ≤ stop - 1 := Nat.div_le_self _ _
    have positive := ring.generations_pos
    have windows : add64 ((stop - 1) / ring.window - start / ring.window) 1 =
        some ((stop - 1) / ring.window - start / ring.window + 1) :=
      add64_eq (Nat.lt_of_le_of_lt (Nat.succ_le_succ ((Nat.sub_le _ _).trans count)) (by omega))
    simp only [div64_eq ring.window_pos, sub64_eq (show 1 ≤ stop by omega), sub64_eq ordered, windows,
      Option.bind_eq_bind, Option.bind_some]
    split
    · rfl
    · rw [mapM_some (g := (· % ring.generations)) fun window _ => ?_]
      · refine congrArg some ?_
        ext name
        simp only [List.mem_toFinset, List.mem_map, List.mem_range'_1, Finset.mem_image, Finset.mem_Icc]
        constructor
        · rintro ⟨window, within, rfl⟩
          exact ⟨window, by omega, rfl⟩
        · rintro ⟨window, within, rfl⟩
          exact ⟨window, by omega, rfl⟩
      · rw [rem64_eq (by omega), Option.map_some, cast32_eq]
        exact (Nat.mod_lt _ (by omega)).trans (by omega)

theorem generationsNew64_eq {delivered epoch : SnapshotText} (small : ring.generations ≤ 32767)
    (bounded : epoch.xmax < 2 ^ 64) :
    ring.generationsNew64 delivered epoch = some (ring.generationsNew delivered epoch) := by
  rw [generationsNew64, generationsBetween64_eq small bounded, Option.bind_eq_bind, Option.bind_some,
    mapM_some fun xid _ => generationOf64_eq small]
  rfl

/-- Each window of a range has an id of it: its first, or the range's. -/
theorem exists_of_window {window : Nat} (before : start < stop) (first : start / ring.window ≤ window)
    (last : window ≤ (stop - 1) / ring.window) : ∃ xid, start ≤ xid ∧ xid < stop ∧ xid / ring.window = window := by
  have positive := ring.window_pos
  obtain same | after := first.eq_or_lt
  · exact ⟨start, le_rfl, before, same⟩
  · have above : start < window * ring.window := (Nat.div_lt_iff_lt_mul positive).mp after
    have under : window * ring.window ≤ stop - 1 := (Nat.le_div_iff_mul_le positive).mp last
    exact ⟨window * ring.window, above.le, by omega, Nat.mul_div_cancel _ positive⟩

/-- Of as many windows in a row as there are generations, one is a generation's. -/
theorem exists_window (first : Nat) (below : generation < ring.generations) :
    ∃ window, first ≤ window ∧ window < first + ring.generations ∧ window % ring.generations = generation := by
  have positive : 0 < ring.generations := Nat.zero_lt_of_lt below
  refine ⟨first + (generation + (ring.generations - first % ring.generations)) % ring.generations, by omega,
    Nat.add_lt_add_left (Nat.mod_lt _ positive) _, ?_⟩
  have within := Nat.mod_lt first positive
  calc (first + (generation + (ring.generations - first % ring.generations)) % ring.generations) % ring.generations
      = (first % ring.generations + (generation + (ring.generations - first % ring.generations))) %
          ring.generations := by simp [Nat.add_mod]
    _ = (generation + ring.generations) % ring.generations := by congr 1; omega
    _ = generation := by rw [Nat.add_mod_right, Nat.mod_eq_of_lt below]

/-- The generations between two ids are those of the ids between them, however many laps apart they are. -/
theorem mem_generationsBetween_iff :
    generation ∈ ring.generationsBetween start stop ↔
      ∃ xid, start ≤ xid ∧ xid < stop ∧ ring.generationOf xid = generation := by
  constructor
  · intro named
    rw [generationsBetween] at named
    split at named
    · cases named
    · rename_i before
      obtain ⟨window, first, last, rfl⟩ : ∃ window, start / ring.window ≤ window ∧
          window ≤ (stop - 1) / ring.window ∧ window % ring.generations = generation := by
        dsimp only at named
        split at named
        · have positive := ring.generations_pos
          obtain ⟨window, first, last, found⟩ :=
            exists_window (start / ring.window) (Finset.mem_range.mp named)
          exact ⟨window, first, by omega, found⟩
        · obtain ⟨window, within, found⟩ := Finset.mem_image.mp named
          exact ⟨window, (Finset.mem_Icc.mp within).1, (Finset.mem_Icc.mp within).2, found⟩
      obtain ⟨xid, from', to', found⟩ := exists_of_window (by omega) first last
      exact ⟨xid, from', to', by rw [generationOf, found]⟩
  · rintro ⟨xid, from', to', rfl⟩
    exact generationOf_mem_generationsBetween from' to'

/-- The generations named are those of the ids between the two ends, and of the ids that ended in between. -/
theorem mem_generationsNew_iff {delivered epoch : SnapshotText} :
    generation ∈ ring.generationsNew delivered epoch ↔
      (∃ xid, delivered.xmax ≤ xid ∧ xid < epoch.xmax ∧ ring.generationOf xid = generation) ∨
        ∃ xid ∈ delivered.xip, epoch.sees xid ∧ ring.generationOf xid = generation := by
  simp only [generationsNew, Finset.mem_union, mem_generationsBetween_iff, List.mem_toFinset, List.mem_map,
    List.mem_filter, and_assoc]

/-- A ring as made names exactly the generations that can hold new rows, and no step of its arithmetic overflows or
divides by zero. -/
theorem names_new_generations (generations window : Nat) (delivered epoch : Postgres.Snapshot)
    (bounded : epoch.xmax < 2 ^ 64) :
    ∃ names, (Ring.new generations window).generationsNew64 (.ofSnapshot delivered) (.ofSnapshot epoch) = some names ∧
      (∀ generation, generation ∈ names ↔
        (∃ xid, delivered.xmax ≤ xid ∧ xid < epoch.xmax ∧
          (Ring.new generations window).generationOf64 xid = some generation) ∨
        ∃ xid ∈ delivered.xip, epoch.visible xid ∧
          (Ring.new generations window).generationOf64 xid = some generation) ∧
      ∀ xid, epoch.visible xid → delivered.visible xid = false →
        ∃ generation ∈ names, (Ring.new generations window).generationOf64 xid = some generation := by
  have small := new_generations_le generations window
  refine ⟨_, generationsNew64_eq small bounded, fun generation => ?_, fun xid seen new => ?_⟩
  · simp only [generationOf64_eq small, Option.some.injEq]
    exact mem_generationsNew_iff
  · exact ⟨_, generationOf_mem_generationsNew new seen, generationOf64_eq small⟩

/-- The ids `25` to `41` are of three windows of ten, the last of them in the next lap. -/
theorem four_generations_name_new :
    (Ring.new 4 10).generationsNew64 ⟨3, 25, []⟩ ⟨30, 42, []⟩ = some {0, 2, 3} ∧
      ∃ generation ∈ ({0, 2, 3} : Finset Nat), (Ring.new 4 10).generationOf64 41 = some generation := by
  let delivered : Postgres.Snapshot := ⟨3, 25, [], by decide, by decide, .nil, by simp⟩
  let epoch : Postgres.Snapshot := ⟨30, 42, [], by decide, by decide, .nil, by simp⟩
  obtain ⟨names, computed, _, covers⟩ := names_new_generations 4 10 delivered epoch (by decide)
  have named : (Ring.new 4 10).generationsNew64 ⟨3, 25, []⟩ ⟨30, 42, []⟩ = some {0, 2, 3} := by decide
  obtain rfl : names = {0, 2, 3} := Option.some.inj (computed.symm.trans named)
  exact ⟨named, covers 41 (by decide) (by decide)⟩

end Ring

end AsceticDdd.Outbox
