import AsceticDdd.Outbox.Reclaim
import AsceticDdd.Postgres.Bigint

/-!
# Widening a transaction id

The views show the low half of an id. The server adds and subtracts `bigint`s to find the id nearest the next one.
-/

namespace AsceticDdd.Outbox

open Machine Postgres

/-- The expression as the server evaluates it. -/
def widenedBySql (xid next : Int) : Option Int := do
  let low ← Bigint.rem next 4294967296
  let apart ← Bigint.add (← Bigint.sub xid low) 6442450944
  let above ← Bigint.add next (← Bigint.rem apart 4294967296)
  Bigint.sub above 2147483648

/-- The ids of the sessions of this database and of its prepared transactions, each statement with a next of its
own. -/
def openHereBySql (next next' : Nat) (sessions prepared : List Nat) : Option (List Nat) := do
  let sessions ← sessions.mapM fun xid : Nat => (widenedBySql xid next).bind transactionId
  let prepared ← prepared.mapM fun xid : Nat => (widenedBySql xid next').bind transactionId
  return sessions ++ prepared

/-- An id the server can say of, within `2 ^ 31` of the next one. -/
structure Near (next x : Nat) : Prop where
  next_bounded : next < 2 ^ 63
  bounded : x < 2 ^ 63
  below : next ≤ x + 2 ^ 31
  above : x < next + 2 ^ 31

/-- A view's column of ids. -/
def shown (xids : List Nat) : List Nat := xids.map (· % 2 ^ 32)

variable {next next' x : Nat} {sessions prepared : List Nat}

/-- What is added before the last subtraction is past the id by what is then subtracted. -/
theorem widenedBySql_near (near : Near next x) :
    widenedBySql (x % 2 ^ 32 : Nat) next = if x < 2 ^ 63 - 2 ^ 31 then some (x : Int) else none := by
  obtain ⟨next_bounded, bounded, below, above⟩ := near
  have low : Bigint.rem next 4294967296 = some (next % 4294967296 : Int) :=
    Bigint.rem_eq (by omega) (by decide) (by unfold Fits; omega)
  have apart : Bigint.sub (x % 2 ^ 32 : Nat) (next % 4294967296) = some ((x % 2 ^ 32 : Nat) - next % 4294967296 : Int) :=
    Bigint.inRange_eq (by unfold Fits; omega)
  have shifted : Bigint.add ((x % 2 ^ 32 : Nat) - next % 4294967296 : Int) 6442450944 =
      some ((x % 2 ^ 32 : Nat) - next % 4294967296 + 6442450944 : Int) :=
    Bigint.inRange_eq (by unfold Fits; omega)
  have turn : Bigint.rem ((x % 2 ^ 32 : Nat) - next % 4294967296 + 6442450944 : Int) 4294967296 =
      some (((x % 2 ^ 32 : Nat) - next % 4294967296 + 6442450944) % 4294967296 : Int) :=
    Bigint.rem_eq (by omega) (by decide) (by unfold Fits; omega)
  have sum : Bigint.add next (((x % 2 ^ 32 : Nat) - next % 4294967296 + 6442450944) % 4294967296 : Int) =
      Bigint.inRange (x + 2147483648) := congrArg Bigint.inRange (by omega)
  simp only [widenedBySql, low, apart, shifted, turn, sum, Option.bind_eq_bind, Option.bind_some]
  split
  · rw [Bigint.inRange_eq (by unfold Fits; omega), Option.bind_some, Bigint.sub, add_sub_cancel_right,
      Bigint.inRange_eq (by unfold Fits; omega)]
  · rw [Bigint.inRange_eq_none (by unfold Fits; omega), Option.bind_none]

theorem shown_widened (near : ∀ x ∈ sessions, Near next x) :
    ((shown sessions).mapM fun xid : Nat => (widenedBySql xid next).bind transactionId) =
      if ∀ x ∈ sessions, x < 2 ^ 63 - 2 ^ 31 then some sessions else none := by
  induction sessions with
  | nil => rfl
  | cons x sessions ih =>
    have rest := ih fun y hy => near y (List.mem_cons_of_mem _ hy)
    rw [shown] at rest ⊢
    rw [List.map_cons, List.mapM_cons, rest, widenedBySql_near (near x List.mem_cons_self)]
    simp only [List.forall_mem_cons]
    by_cases small : x < 2 ^ 63 - 2 ^ 31
    · have read : transactionId (x : Int) = some x := by simp [transactionId]
      rw [if_pos small, Option.bind_some, read]
      simp only [small, true_and, Option.bind_eq_bind, Option.bind_some]
      split <;> rfl
    · simp only [small, if_false, false_and]
      rfl

/-- An id is widened to itself exactly when it is none of the last `2 ^ 31` that a `bigint` has, and so are the ids
that are open: their least is at or below each. -/
theorem widened_to_itself (next next' x : Nat) (sessions prepared : List Nat) :
    (Near next x → (widenedBySql (x % 2 ^ 32 : Nat) next = some (x : Int) ↔ x < 2 ^ 63 - 2 ^ 31)) ∧
    ((∀ x ∈ sessions, Near next x) → (∀ x ∈ prepared, Near next' x) →
      ((∃ ids, openHereBySql next next' (shown sessions) (shown prepared) = some ids) ↔
        ∀ x ∈ sessions ++ prepared, x < 2 ^ 63 - 2 ^ 31) ∧
      ∀ ids, openHereBySql next next' (shown sessions) (shown prepared) = some ids →
        ids = sessions ++ prepared ∧ ∀ x ∈ sessions ++ prepared, ∃ least ∈ ids.min?, least ≤ x) := by
  refine ⟨fun near => ?_, fun here there => ?_⟩
  · rw [widenedBySql_near near]
    split
    · exact iff_of_true rfl ‹_›
    · exact iff_of_false (by simp) ‹_›
  · have computed : openHereBySql next next' (shown sessions) (shown prepared) =
        if ∀ x ∈ sessions ++ prepared, x < 2 ^ 63 - 2 ^ 31 then some (sessions ++ prepared) else none := by
      rw [openHereBySql, shown_widened here, shown_widened there]
      simp only [List.forall_mem_append]
      by_cases first : ∀ x ∈ sessions, x < 2 ^ 63 - 2 ^ 31
      · by_cases second : ∀ x ∈ prepared, x < 2 ^ 63 - 2 ^ 31
        · rw [if_pos first, if_pos second, if_pos (And.intro first second)]
          rfl
        · rw [if_pos first, if_neg second, if_neg (second ∘ And.right)]
          rfl
      · rw [if_neg first, if_neg (first ∘ And.left)]
        rfl
    rw [computed]
    refine ⟨?_, fun ids found => ?_⟩
    · split
      · exact iff_of_true ⟨_, rfl⟩ ‹_›
      · exact iff_of_false (by simp) ‹_›
    · obtain rfl : sessions ++ prepared = ids := by
        split at found
        · exact Option.some.inj found
        · cases found
      refine ⟨rfl, fun x hx => ?_⟩
      cases minimum : (sessions ++ prepared).min? with
      | none =>
        rw [List.min?_eq_none_iff.mp minimum] at hx
        cases hx
      | some least => exact ⟨least, rfl, (List.min?_eq_some_iff.mp minimum).2 x hx⟩

/-- An id before a wrap and one after it, seen from after it. -/
theorem widened_to_itself_at_wrap :
    widenedBySql (4294967295 % 2 ^ 32 : Nat) 4294967299 = some 4294967295 ∧
      openHereBySql 4294967299 4294967300 (shown [4294967295, 4294967298]) (shown [4294967297]) =
        some [4294967295, 4294967298, 4294967297] := by
  have near : ∀ x ∈ [4294967295, 4294967298], Near 4294967299 x := by
    intro x hx
    simp only [List.mem_cons, List.not_mem_nil, or_false] at hx
    obtain rfl | rfl := hx <;> exact ⟨by decide, by decide, by decide, by decide⟩
  have near' : ∀ x ∈ [4294967297], Near 4294967300 x := by
    intro x hx
    obtain rfl := List.mem_singleton.mp hx
    exact ⟨by decide, by decide, by decide, by decide⟩
  obtain ⟨one, opened⟩ := widened_to_itself 4294967299 4294967300 4294967295 [4294967295, 4294967298] [4294967297]
  obtain ⟨some_iff, all⟩ := opened near near'
  refine ⟨(one (near _ List.mem_cons_self)).mpr (by decide), ?_⟩
  obtain ⟨ids, found⟩ := some_iff.mpr (by decide)
  rw [found, (all ids found).1]
  rfl

/-- The sum before the subtraction is out of range. -/
theorem last_id_not_widened :
    Near (2 ^ 63 - 1) (2 ^ 63 - 1) ∧
      widenedBySql ((2 ^ 63 - 1) % 2 ^ 32 : Nat) (2 ^ 63 - 1 : Nat) = none := by
  exact ⟨⟨by decide, by decide, by decide, by decide⟩, by decide⟩

end AsceticDdd.Outbox
