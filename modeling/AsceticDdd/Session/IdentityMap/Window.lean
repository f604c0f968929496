import Mathlib.Data.Finset.Card
import Mathlib.Data.Finset.SDiff
import Mathlib.Logic.Function.Basic
import Mathlib.Order.Basic

/-!
# The window: which keys the identity map keeps alive on its own

A window of either kind says which keys lose their place at each operation; what that means for
an entity is the slot's business.
-/

namespace AsceticDdd.Session.IdentityMap

variable {κ : Type} [DecidableEq κ]

/-- The order in which a hash set is gone through: any there is. -/
structure Iteration (κ : Type) where
  list : Finset κ → List κ
  mem_list : ∀ s k, k ∈ list s ↔ k ∈ s

/-- Keys by the tick of their last use, oldest first. -/
structure Recency (κ : Type) where
  size : Nat
  clock : Nat
  ticks : κ → Option Nat
  order : List (Nat × κ)

namespace Recency

def new (size : Nat) : Recency κ := ⟨size, 0, fun _ => none, []⟩

/-- An entry of the ordered map, at its place. -/
def insertOrdered (now : Nat) (key : κ) : List (Nat × κ) → List (Nat × κ)
  | [] => [(now, key)]
  | entry :: rest =>
    if now < entry.1 then (now, key) :: entry :: rest
    else if now = entry.1 then (now, key) :: rest
    else entry :: insertOrdered now key rest

def removeTick (tick : Option Nat) (order : List (Nat × κ)) : List (Nat × κ) :=
  order.filter fun entry => some entry.1 ≠ tick

/-- The oldest keys go until the window fits. -/
def evictFrom (size : Nat) (ticks : κ → Option Nat) :
    List (Nat × κ) → List κ × (κ → Option Nat) × List (Nat × κ)
  | [] => ([], ticks, [])
  | entry :: rest =>
    if size < rest.length + 1 then
      let gone := evictFrom size (Function.update ticks entry.2 none) rest
      (entry.2 :: gone.1, gone.2)
    else ([], ticks, entry :: rest)

def evict (w : Recency κ) : List κ × Recency κ :=
  let gone := evictFrom w.size w.ticks w.order
  (gone.1, { w with ticks := gone.2.1, order := gone.2.2 })

def admitKey (w : Recency κ) (key : κ) : List κ × Recency κ :=
  let now := w.clock + 1
  evict { w with
    clock := now
    ticks := Function.update w.ticks key (some now)
    order := insertOrdered now key (removeTick (w.ticks key) w.order) }

def remove (w : Recency κ) (key : κ) : Recency κ :=
  { w with ticks := Function.update w.ticks key none, order := removeTick (w.ticks key) w.order }

def clear (w : Recency κ) : Recency κ := { w with ticks := fun _ => none, order := [] }

def resize (w : Recency κ) (size : Nat) : List κ × Recency κ := evict { w with size := size }

end Recency

structure Generations (κ : Type) where
  size : Nat
  young : Finset κ
  old : Finset κ

namespace Generations

def new (size : Nat) : Generations κ := ⟨size, ∅, ∅⟩

/-- The young generation grows old; the old one goes, but for what the young one held as well. -/
def bump (it : Iteration κ) (w : Generations κ) : List κ × Generations κ :=
  ((it.list w.old).filter fun key => key ∉ w.young, { w with young := ∅, old := w.young })

def admitKey (it : Iteration κ) (w : Generations κ) (key : κ) : List κ × Generations κ :=
  if w.size = 0 then ([key], w)
  else if key ∈ w.young then ([], w)
  else
    let bumped := if w.size ≤ w.young.card then bump it w else ([], w)
    (bumped.1.filter fun other => other ≠ key,
      { bumped.2 with young := insert key bumped.2.young })

def remove (w : Generations κ) (key : κ) : Generations κ :=
  { w with young := w.young.erase key, old := w.old.erase key }

def clear (w : Generations κ) : Generations κ := { w with young := ∅, old := ∅ }

def resize (it : Iteration κ) (w : Generations κ) (size : Nat) : List κ × Generations κ :=
  let kept := ((it.list w.young ++ (it.list w.old).filter fun key => key ∉ w.young).take size).toFinset
  (it.list ((w.young ∪ w.old).filter fun key => key ∉ kept), ⟨size, kept, ∅⟩)

end Generations

inductive Window (κ : Type)
  | recency (w : Recency κ)
  | generations (w : Generations κ)

namespace Window

def admitKey (it : Iteration κ) (key : κ) : Window κ → List κ × Window κ
  | recency w => ((w.admitKey key).1, recency (w.admitKey key).2)
  | generations w => ((w.admitKey it key).1, generations (w.admitKey it key).2)

def remove (key : κ) : Window κ → Window κ
  | recency w => recency (w.remove key)
  | generations w => generations (w.remove key)

def clear : Window κ → Window κ
  | recency w => recency w.clear
  | generations w => generations w.clear

def resize (it : Iteration κ) (size : Nat) : Window κ → List κ × Window κ
  | recency w => ((w.resize size).1, recency (w.resize size).2)
  | generations w => ((w.resize it size).1, generations (w.resize it size).2)

end Window

namespace Recency

variable {w : Recency κ} {key other : κ} {tick : Nat}

/-- The two maps say the same, and no tick is yet to come. -/
structure Agrees (w : Recency κ) : Prop where
  ordered : w.order.Pairwise fun entry later => entry.1 < later.1
  mem_order : ∀ tick key, (tick, key) ∈ w.order ↔ w.ticks key = some tick
  le_clock : ∀ entry ∈ w.order, entry.1 ≤ w.clock

def Has (w : Recency κ) (key : κ) : Prop := ∃ tick, w.ticks key = some tick

omit [DecidableEq κ] in
theorem eq_of_ordered {order : List (Nat × κ)} (h : order.Pairwise fun entry later => entry.1 < later.1)
    (ha : (tick, key) ∈ order) (hb : (tick, other) ∈ order) : key = other := by
  induction h with
  | nil => cases ha
  | @cons entry rest hfirst _ ih =>
    obtain rfl | harest := List.mem_cons.mp ha
    · obtain heq | hbrest := List.mem_cons.mp hb
      · exact (congrArg Prod.snd heq).symm
      · exact absurd (hfirst _ hbrest) (Nat.lt_irrefl _)
    · obtain rfl | hbrest := List.mem_cons.mp hb
      · exact absurd (hfirst _ harest) (Nat.lt_irrefl _)
      · exact ih harest hbrest

omit [DecidableEq κ] in
/-- A tick after all others goes to the end. -/
theorem insertOrdered_eq_append {order : List (Nat × κ)} (h : ∀ entry ∈ order, entry.1 < tick) :
    insertOrdered tick key order = order ++ [(tick, key)] := by
  induction order with
  | nil => rfl
  | cons entry rest ih =>
    obtain ⟨hentry, hrest⟩ := List.forall_mem_cons.mp h
    rw [insertOrdered, if_neg (Nat.lt_asymm hentry), if_neg (Nat.ne_of_gt hentry), ih hrest]
    rfl

omit [DecidableEq κ] in
theorem mem_removeTick {order : List (Nat × κ)} {gone : Option Nat} :
    (tick, key) ∈ removeTick gone order ↔ (tick, key) ∈ order ∧ some tick ≠ gone := by
  simp [removeTick]

theorem evictFrom_agrees (size : Nat) {ticks : κ → Option Nat} {order : List (Nat × κ)}
    (hordered : order.Pairwise fun entry later => entry.1 < later.1)
    (hmem : ∀ tick key, (tick, key) ∈ order ↔ ticks key = some tick) :
    (evictFrom size ticks order).2.2.Pairwise (fun entry later => entry.1 < later.1) ∧
    (∀ tick key, (tick, key) ∈ (evictFrom size ticks order).2.2 ↔
      (evictFrom size ticks order).2.1 key = some tick) ∧
    (∀ entry ∈ (evictFrom size ticks order).2.2, entry ∈ order) ∧
    ∀ key, (∃ tick, (evictFrom size ticks order).2.1 key = some tick) ↔
      (∃ tick, ticks key = some tick) ∧ key ∉ (evictFrom size ticks order).1 := by
  induction hordered generalizing ticks with
  | nil => exact ⟨.nil, hmem, fun _ h => h, fun _ => by simp [evictFrom]⟩
  | @cons entry rest hfirst hrest ih =>
    rw [evictFrom]
    split
    · have hmem' : ∀ tick key, (tick, key) ∈ rest ↔ Function.update ticks entry.2 none key = some tick := by
        intro tick key
        by_cases hkey : key = entry.2
        · subst hkey
          simp only [Function.update_self, reduceCtorEq, iff_false]
          intro hlater
          have hother := (hmem tick entry.2).mp (List.mem_cons_of_mem _ hlater)
          have hself := (hmem entry.1 entry.2).mp List.mem_cons_self
          have hlt : entry.1 < tick := hfirst _ hlater
          rw [hself, Option.some.injEq] at hother
          omega
        · rw [Function.update_of_ne hkey, ← hmem, List.mem_cons, or_iff_right]
          exact fun heq => hkey (congrArg Prod.snd heq)
      obtain ⟨hordered', hagree, hsub, hhas⟩ := ih hmem'
      refine ⟨hordered', hagree, fun e he => List.mem_cons_of_mem _ (hsub e he), fun key => ?_⟩
      dsimp only
      rw [hhas, List.mem_cons, not_or, ← and_assoc]
      refine and_congr_left fun _ => ?_
      by_cases hkey : key = entry.2
      · subst hkey
        simp
      · simp [hkey]
    · exact ⟨hrest.cons hfirst, hmem, fun _ h => h, fun _ => by simp⟩

theorem evict_agrees (h : w.Agrees) :
    w.evict.2.Agrees ∧ ∀ key, w.evict.2.Has key ↔ w.Has key ∧ key ∉ w.evict.1 := by
  obtain ⟨hordered, hmem, hsub, hhas⟩ := evictFrom_agrees w.size h.ordered h.mem_order
  exact ⟨⟨hordered, hmem, fun entry he => h.le_clock entry (hsub entry he)⟩, hhas⟩

theorem admitKey_agrees (h : w.Agrees) (key : κ) :
    (w.admitKey key).2.Agrees ∧
      ∀ other, (w.admitKey key).2.Has other ↔ (other = key ∨ w.Has other) ∧ other ∉ (w.admitKey key).1 := by
  have hlast : insertOrdered (w.clock + 1) key (removeTick (w.ticks key) w.order) =
      removeTick (w.ticks key) w.order ++ [(w.clock + 1, key)] := by
    refine insertOrdered_eq_append fun entry he => ?_
    exact Nat.lt_succ_of_le (h.le_clock entry (mem_removeTick.mp he).1)
  have hadmitted : Agrees { w with
      clock := w.clock + 1
      ticks := Function.update w.ticks key (some (w.clock + 1))
      order := insertOrdered (w.clock + 1) key (removeTick (w.ticks key) w.order) } := by
    rw [hlast]
    refine ⟨?_, fun tick other => ?_, fun entry he => ?_⟩
    · refine List.pairwise_append.mpr ⟨h.ordered.filter _, List.pairwise_singleton _ _, fun entry he last hl => ?_⟩
      rw [List.mem_singleton.mp hl]
      exact Nat.lt_succ_of_le (h.le_clock entry (mem_removeTick.mp he).1)
    · dsimp only
      rw [List.mem_append, mem_removeTick, List.mem_singleton, h.mem_order, Prod.mk.injEq]
      by_cases hkey : other = key
      · subst hkey
        rw [Function.update_self, Option.some.injEq]
        constructor
        · rintro (⟨hold, hne⟩ | ⟨rfl, -⟩)
          · exact absurd hold.symm hne
          · rfl
        · rintro rfl
          exact .inr ⟨rfl, rfl⟩
      · rw [Function.update_of_ne hkey]
        constructor
        · rintro (⟨hold, -⟩ | ⟨-, heq⟩)
          · exact hold
          · exact absurd heq hkey
        · intro hold
          refine .inl ⟨hold, fun hsame => hkey ?_⟩
          exact eq_of_ordered h.ordered ((h.mem_order _ _).mpr hold) ((h.mem_order _ _).mpr hsame.symm)
    · obtain he | he := List.mem_append.mp he
      · exact Nat.le_succ_of_le (h.le_clock entry (mem_removeTick.mp he).1)
      · rw [List.mem_singleton.mp he]
  obtain ⟨hagrees, hhas⟩ := evict_agrees hadmitted
  refine ⟨hagrees, fun other => (hhas other).trans (and_congr_left fun _ => ?_)⟩
  by_cases hkey : other = key
  · subst hkey
    simp [Has]
  · simp [Has, hkey]

theorem remove_agrees (h : w.Agrees) (key : κ) :
    (w.remove key).Agrees ∧ ∀ other, (w.remove key).Has other ↔ w.Has other ∧ other ≠ key := by
  refine ⟨⟨h.ordered.filter _, fun tick other => ?_, fun entry he => ?_⟩, fun other => ?_⟩
  · rw [remove, mem_removeTick, h.mem_order]
    by_cases hkey : other = key
    · subst hkey
      simp +contextual
    · simp only [Function.update_of_ne hkey, and_iff_left_iff_imp]
      intro hold hsame
      exact hkey (eq_of_ordered h.ordered ((h.mem_order _ _).mpr hold) ((h.mem_order _ _).mpr hsame.symm))
  · exact h.le_clock entry (mem_removeTick.mp he).1
  · by_cases hkey : other = key
    · subst hkey
      simp [Has, remove]
    · simp [Has, remove, hkey]

end Recency

namespace Generations

variable {it : Iteration κ} {w : Generations κ}

def Has (w : Generations κ) (key : κ) : Prop := key ∈ w.young ∨ key ∈ w.old

/-- A window of no size has no keys. -/
def Agrees (w : Generations κ) : Prop := w.size = 0 → w.young = ∅ ∧ w.old = ∅

theorem admitKey_agrees (h : w.Agrees) (key : κ) :
    (w.admitKey it key).2.Agrees ∧
      ∀ other, (w.admitKey it key).2.Has other ↔
        (other = key ∨ w.Has other) ∧ other ∉ (w.admitKey it key).1 := by
  rw [admitKey]
  split
  · rename_i hsize
    obtain ⟨hyoung, hold⟩ := h hsize
    exact ⟨h, fun other => by simp [Has, hyoung, hold]⟩
  · rename_i hsize
    split
    · rename_i hkey
      refine ⟨h, fun other => ?_⟩
      simp only [Has, List.not_mem_nil, not_false_eq_true, and_true]
      constructor
      · exact .inr
      · rintro (rfl | hother)
        · exact .inl hkey
        · exact hother
    · rename_i hkey
      split
      · refine ⟨fun hzero => absurd hzero hsize, fun other => ?_⟩
        simp only [Has, bump, Finset.mem_insert, Finset.notMem_empty, or_false, List.mem_filter,
          it.mem_list, decide_eq_true_eq, ne_eq]
        by_cases hother : other = key
        · simp [hother]
        · by_cases hyoung : other ∈ w.young <;> by_cases hold : other ∈ w.old <;> simp [*]
      · refine ⟨fun hzero => absurd hzero hsize, fun other => ?_⟩
        simp only [Has, Finset.mem_insert, List.filter_nil, List.not_mem_nil, not_false_eq_true, and_true,
          or_assoc]

theorem remove_agrees (h : w.Agrees) (key : κ) :
    (w.remove key).Agrees ∧ ∀ other, (w.remove key).Has other ↔ w.Has other ∧ other ≠ key := by
  refine ⟨fun hzero => ?_, fun other => ?_⟩
  · obtain ⟨hyoung, hold⟩ := h hzero
    simp [remove, hyoung, hold]
  · simp only [Has, remove, Finset.mem_erase]
    tauto

theorem resize_agrees (size : Nat) :
    (w.resize it size).2.Agrees ∧
      ∀ other, (w.resize it size).2.Has other ↔ w.Has other ∧ other ∉ (w.resize it size).1 := by
  refine ⟨fun hzero => ?_, fun other => ?_⟩
  · dsimp only [resize] at hzero
    subst hzero
    simp [resize]
  · simp only [Has, resize, it.mem_list, Finset.mem_filter, Finset.mem_union, Finset.notMem_empty, or_false]
    constructor
    · intro hkept
      refine ⟨?_, fun hgone => hgone.2 hkept⟩
      obtain hmem | hmem := List.mem_append.mp (List.mem_of_mem_take (List.mem_toFinset.mp hkept))
      · exact .inl ((it.mem_list _ _).mp hmem)
      · exact .inr ((it.mem_list _ _).mp (List.mem_of_mem_filter hmem))
    · rintro ⟨hhas, hkept⟩
      by_contra hgone
      exact hkept ⟨hhas, hgone⟩

end Generations

namespace Window

variable {w : Window κ}

def Has : Window κ → κ → Prop
  | recency w, key => w.Has key
  | generations w, key => w.Has key

def Agrees : Window κ → Prop
  | recency w => w.Agrees
  | generations w => w.Agrees

/-- The window a map is made with. -/
inductive IsNew : Window κ → Prop
  | recency (size : Nat) : IsNew (.recency (.new size))
  | generations (size : Nat) : IsNew (.generations (.new size))

omit [DecidableEq κ] in
theorem IsNew.agrees (h : w.IsNew) : w.Agrees := by
  cases h with
  | recency size => exact ⟨.nil, fun _ _ => by simp [Recency.new], fun _ h => by cases h⟩
  | generations size => exact fun _ => ⟨rfl, rfl⟩

omit [DecidableEq κ] in
theorem IsNew.not_has (h : w.IsNew) (key : κ) : ¬ w.Has key := by
  cases h with
  | recency size => simp [Has, Recency.Has, Recency.new]
  | generations size => simp [Has, Generations.Has, Generations.new]

theorem admitKey_agrees (it : Iteration κ) (h : w.Agrees) (key : κ) :
    (w.admitKey it key).2.Agrees ∧
      ∀ other, (w.admitKey it key).2.Has other ↔
        (other = key ∨ w.Has other) ∧ other ∉ (w.admitKey it key).1 := by
  cases w with
  | recency w => exact Recency.admitKey_agrees h key
  | generations w => exact Generations.admitKey_agrees h key

theorem remove_agrees (h : w.Agrees) (key : κ) :
    (w.remove key).Agrees ∧ ∀ other, (w.remove key).Has other ↔ w.Has other ∧ other ≠ key := by
  cases w with
  | recency w => exact Recency.remove_agrees h key
  | generations w => exact Generations.remove_agrees h key

omit [DecidableEq κ] in
theorem clear_agrees : w.clear.Agrees ∧ ∀ key, ¬ w.clear.Has key := by
  cases w with
  | recency w =>
    refine ⟨⟨.nil, fun _ _ => by simp [Recency.clear], fun _ h => by cases h⟩, fun key => ?_⟩
    simp [clear, Has, Recency.Has, Recency.clear]
  | generations w => exact ⟨fun _ => ⟨rfl, rfl⟩, fun key => by simp [clear, Has, Generations.Has, Generations.clear]⟩

theorem resize_agrees (it : Iteration κ) (h : w.Agrees) (size : Nat) :
    (w.resize it size).2.Agrees ∧
      ∀ other, (w.resize it size).2.Has other ↔ w.Has other ∧ other ∉ (w.resize it size).1 := by
  cases w with
  | recency w =>
    exact Recency.evict_agrees (w := { w with size := size }) ⟨h.ordered, h.mem_order, h.le_clock⟩
  | generations w => exact Generations.resize_agrees size

end Window

end AsceticDdd.Session.IdentityMap
