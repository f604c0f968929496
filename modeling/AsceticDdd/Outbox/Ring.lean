import AsceticDdd.Outbox.Message
import Mathlib.Order.Interval.Finset.Nat

/-!
# The ring the outbox's table is cut into

Each generation takes in turn the rows of `window` consecutive transaction ids. A statement
names the generations it reads: every row it looks for has to lie in one of them.
-/

namespace AsceticDdd.Outbox

structure Ring where
  generations : Nat
  window : Nat
  generations_pos : 2 ≤ generations
  window_pos : 1 ≤ window
deriving DecidableEq

namespace Ring

/-- `i16::MAX` generations at most, two at least, and a window of one id at least. -/
def new (generations window : Nat) : Ring where
  generations := max 2 (min generations 32767)
  window := max window 1
  generations_pos := le_max_left _ _
  window_pos := le_max_right _ _

variable (ring : Ring)

def generationOf (xid : Nat) : Nat := xid / ring.window % ring.generations

/-- The generations of the ids in `[start, stop)`: every one, once they span as many windows. -/
def generationsBetween (start stop : Nat) : Finset Nat :=
  if start ≥ stop then ∅
  else
    let first := start / ring.window
    let last := (stop - 1) / ring.window
    if last - first + 1 ≥ ring.generations then Finset.range ring.generations
    else (Finset.Icc first last).image (· % ring.generations)

/-- The generations the rows new in `epoch` since `delivered` can lie in. -/
def generationsNew (delivered epoch : SnapshotText) : Finset Nat :=
  ring.generationsBetween delivered.xmax epoch.xmax ∪
    ((delivered.xip.filter epoch.sees).map ring.generationOf).toFinset

variable {ring} {start stop xid : Nat}

theorem generationOf_lt : ring.generationOf xid < ring.generations :=
  Nat.mod_lt _ (Nat.lt_of_lt_of_le (by decide) ring.generations_pos)

theorem generationOf_mem_generationsBetween (hstart : start ≤ xid) (hstop : xid < stop) :
    ring.generationOf xid ∈ ring.generationsBetween start stop := by
  rw [generationsBetween, if_neg (by omega)]
  dsimp only
  split
  · exact Finset.mem_range.mpr generationOf_lt
  · refine Finset.mem_image.mpr ⟨xid / ring.window, Finset.mem_Icc.mpr ⟨?_, ?_⟩, rfl⟩
    · exact Nat.div_le_div_right hstart
    · exact Nat.div_le_div_right (Nat.le_sub_one_of_lt hstop)

/-- Every id the epoch sees and `delivered` does not lies in a generation named. -/
theorem generationOf_mem_generationsNew {delivered epoch : Postgres.Snapshot}
    (hnew : delivered.visible xid = false) (hseen : epoch.visible xid) :
    ring.generationOf xid ∈ ring.generationsNew (.ofSnapshot delivered) (.ofSnapshot epoch) := by
  rw [generationsNew, Finset.mem_union]
  rcases Postgres.Snapshot.visible_eq_false_iff.mp hnew with hpast | hopen
  · exact Or.inl (generationOf_mem_generationsBetween hpast
      (Postgres.Snapshot.lt_xmax_of_visible hseen))
  · refine Or.inr (List.mem_toFinset.mpr (List.mem_map.mpr ⟨xid, ?_, rfl⟩))
    exact List.mem_filter.mpr ⟨hopen, hseen⟩

end Ring

end AsceticDdd.Outbox
