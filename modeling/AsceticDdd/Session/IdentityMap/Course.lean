import AsceticDdd.Session.IdentityMap.Answers
import AsceticDdd.Session.IdentityMap.Recent

/-!
# The window and the slots over a run

Beside the state a course keeps the references of both windows; how many counted operations each
dead slot has survived; and how many slots there were right after the last counted operation. Only
`remember`, and `recallKey` of a key with a slot, are counted, so only they sweep.
-/

namespace AsceticDdd.Session.IdentityMap

variable {κ ε : Type} [DecidableEq κ] [DecidableEq ε]

/-- The domain takes a handle of an entity or drops those it has, or calls the state. -/
inductive Call (κ ε : Type)
  | hold (e : ε)
  | drop (e : ε)
  | remember (key : κ) (fact : Fact ε)
  | recallKey (key : κ)
  | forget (key : κ)
  | forgetAll
  | resize (size : Nat)
  | len

def Window.size : Window κ → Nat
  | recency w => w.size
  | generations w => w.size

/-- The key's slot is released, and nothing holds its entity any more. -/
def dead (held : List ε) (slots : Slots κ ε) (key : κ) : Bool :=
  match slots.lookup key with
  | some (.released e) => !alive held slots e
  | _ => false

namespace State

variable (it : Iteration κ) (held : List ε)

/-- The state after a call, and what is held then. -/
def call (s : State κ ε) : Call κ ε → State κ ε × List ε
  | .hold e => (s, e :: held)
  | .drop e => (s, held.filter (· ≠ e))
  | .remember key fact => (s.remember it held key fact, held)
  | .recallKey key =>
    let recalled := s.recallKey it held key
    (recalled.2, holding recalled.1 held)
  | .forget key => (s.forget key, held)
  | .forgetAll => (s.forgetAll, held)
  | .resize size => (s.resize it held size, held)
  | .len => ((s.len held).2, held)

/-- What a call asks of the window. -/
def use (s : State κ ε) : Call κ ε → Use κ
  | .remember key _ => .admitKey key
  | .recallKey key =>
    match s.slots.lookup key with
    | none => .keep
    | some slot =>
      match (slot.recallKey (alive held (s.slots.erase key))).1 with
      | some _ => .admitKey key
      | none => .remove key
  | .forget key => .remove key
  | .forgetAll => .clear
  | .resize size => .resize size
  | .hold _ | .drop _ | .len => .keep

def counted (s : State κ ε) : Call κ ε → Bool
  | .remember _ _ => true
  | .recallKey key => (s.slots.lookup key).isSome
  | _ => false

end State

structure Course (κ ε : Type) where
  state : State κ ε
  held : List ε
  recent : Recent κ
  lineage : Lineage κ
  survived : κ → Nat
  room : Nat

namespace Course

def start (window : Window κ) : Course κ ε :=
  ⟨.new window, [], ⟨window.size, []⟩, fun _ => none, fun _ => 0, 0⟩

def step (it : Iteration κ) (c : Course κ ε) (call : Call κ ε) : Course κ ε :=
  let called := c.state.call it c.held call
  let use := c.state.use c.held call
  let counted := c.state.counted call
  { state := called.1
    held := called.2
    recent := c.recent.use use
    lineage :=
      match c.state.window with
      | .generations w => c.lineage.use w use
      | .recency _ => c.lineage
    survived := fun key =>
      if dead c.held c.state.slots key && dead called.2 called.1.slots key then
        c.survived key + if counted then 1 else 0
      else 0
    room := if counted then called.1.slots.entries.length else c.room }

/-- Hash sets are gone through in any order, at each step another. -/
inductive Reached (window : Window κ) : Course κ ε → Prop
  | start : Reached window (start window)
  | step {c : Course κ ε} (it : Iteration κ) (call : Call κ ε) :
    Reached window c → Reached window (c.step it call)

end Course

namespace State

variable {it : Iteration κ} {held : List ε} {s x : State κ ε}

omit [DecidableEq κ] in
theorem window_sweepWhenDue : (s.sweepWhenDue held).window = s.window := by
  rw [sweepWhenDue]
  split <;> rfl

/-- A recall does nothing, or uses the key anew, or finds its entity dead. -/
theorem recall_cases (it : Iteration κ) (held : List ε) (s : State κ ε) (key : κ) :
    s.slots.lookup key = none ∧ s.recallKey it held key = (.unknown, s) ∧
      s.use held (.recallKey key) = .keep ∨
    (∃ fact, (s.slots.lookup key).isSome ∧ s.use held (.recallKey key) = .admitKey key ∧
      s.recallKey it held key = (fact.recallKey,
        (({ s with slots := (s.slots.erase key).insert key (.anchored fact) } : State κ ε).admitKey it
          (holding fact.recallKey held) key).sweepWhenDue (holding fact.recallKey held))) ∨
    (s.slots.lookup key).isSome ∧ s.use held (.recallKey key) = .remove key ∧
      s.recallKey it held key = (.unknown, (s.forget key).sweepWhenDue held) := by
  simp only [recallKey, use]
  obtain _ | fact | e := s.slots.lookup key
  · exact .inl ⟨rfl, rfl, rfl⟩
  · exact .inr (.inl ⟨fact, rfl, rfl, rfl⟩)
  · by_cases he : alive held (s.slots.erase key) e = true
    · have hslot : (Slot.released e).recallKey (alive held (s.slots.erase key)) =
          (some (.anchored (.entity e)), .found e) := if_pos he
      refine .inr (.inl ⟨.entity e, rfl, ?_, ?_⟩)
      · simp only [hslot]
      · simp only [hslot]
        rfl
    · have hslot : (Slot.released e).recallKey (alive held (s.slots.erase key)) = (none, .unknown) := if_neg he
      refine .inr (.inr ⟨rfl, ?_, ?_⟩)
      · simp only [hslot]
      · simp only [hslot]
        rfl

theorem window_call (it : Iteration κ) (held : List ε) (s : State κ ε) (call : Call κ ε) :
    (s.call it held call).1.window = s.window.use it (s.use held call) := by
  cases call with
  | remember key fact => exact window_sweepWhenDue
  | recallKey key =>
    rw [State.call]
    obtain ⟨-, heq, huse⟩ | ⟨fact, -, huse, heq⟩ | ⟨-, huse, heq⟩ := recall_cases it held s key
    · rw [heq, huse]
      rfl
    · rw [heq, huse]
      exact window_sweepWhenDue
    · rw [heq, huse]
      exact window_sweepWhenDue
  | _ => rfl

theorem kept_call (it : Iteration κ) (held : List ε) (h : s.Kept) (call : Call κ ε) :
    (s.call it held call).1.Kept := by
  cases call with
  | hold e => exact h
  | drop e => exact h
  | remember key fact =>
    refine (h.used it held fact ?_ fun k => ?_).2
    · rfl
    · split
      · rename_i hk
        rw [hk, AList.lookup_insert]
      · rename_i hk
        rw [AList.lookup_insert_ne hk]
  | recallKey key =>
    rw [State.call]
    obtain ⟨-, heq, -⟩ | ⟨fact, -, -, heq⟩ | ⟨-, -, heq⟩ := recall_cases it held s key
    · rw [heq]
      exact h
    · rw [heq]
      refine (h.used it _ fact ?_ lookup_insert_erase).2
      rfl
    · rw [heq]
      exact (sweepWhenDue_spec held (h.forget key)).2
  | forget key => exact h.forget key
  | forgetAll => exact .forgetAll s
  | resize size => exact (h.resize it held size).2
  | len => exact ⟨h.agrees, fun k => (h.has_iff k).trans anchored_retain.symm⟩

theorem alive_retain {slots : Slots κ ε} {e : ε} (h : alive held slots e = true) :
    alive held (retain held slots) e = true := by
  rw [alive_iff] at h ⊢
  refine h.imp_right fun ⟨k, hk⟩ => ⟨k, ?_⟩
  rw [lookup_retain, hk]
  rfl

/-- A sweep leaves no dead slot. -/
theorem not_dead_retain (held : List ε) (slots : Slots κ ε) (key : κ) : dead held (retain held slots) key = false := by
  rw [dead, lookup_retain]
  match slots.lookup key with
  | none => rfl
  | some (.anchored _) => rfl
  | some (.released e) =>
    by_cases he : alive held slots e = true
    · simp [Option.filter, Slot.isAlive, he, alive_retain he]
    · simp [Option.filter, Slot.isAlive, he]

/-- A sweep that is due leaves no dead slot; until it is, there are as many slots as operations. -/
theorem sweepWhenDue_cases (held : List ε) (s : State κ ε) :
    (s.sweepWhenDue held).sinceSweep ≤ (s.sweepWhenDue held).slots.entries.length ∧
      ∀ key, dead held (s.sweepWhenDue held).slots key = true →
        (s.sweepWhenDue held).sinceSweep = s.sinceSweep + 1 := by
  rw [sweepWhenDue]
  split
  · refine ⟨Nat.zero_le _, fun key hdead => ?_⟩
    rw [sweep, not_dead_retain] at hdead
    cases hdead
  · rename_i hfits
    exact ⟨Nat.le_of_not_lt hfits, fun _ _ => rfl⟩

/-- A counted operation ends with a sweep when one is due. -/
theorem call_of_counted (it : Iteration κ) (held : List ε) {call : Call κ ε} (h : s.counted call = true) :
    ∃ x : State κ ε, x.sinceSweep = s.sinceSweep ∧
      (s.call it held call).1 = x.sweepWhenDue (s.call it held call).2 := by
  cases call with
  | remember key fact =>
    refine ⟨_, ?_, rfl⟩
    rfl
  | recallKey key =>
    rw [State.call]
    obtain ⟨hnone, -, -⟩ | ⟨fact, -, -, heq⟩ | ⟨-, -, heq⟩ := recall_cases it held s key
    · rw [counted, hnone] at h
      cases h
    · rw [heq]
      refine ⟨_, ?_, rfl⟩
      rfl
    · rw [heq]
      refine ⟨_, ?_, rfl⟩
      rfl
  | _ => cases h

/-- Any other leaves the count, but for `len`, which sweeps. -/
theorem call_of_not_counted (it : Iteration κ) (held : List ε) {call : Call κ ε} (h : s.counted call = false) :
    (s.call it held call).1.sinceSweep ≤ s.sinceSweep ∧
      ∀ key, dead (s.call it held call).2 (s.call it held call).1.slots key = true →
        (s.call it held call).1.sinceSweep = s.sinceSweep := by
  cases call with
  | remember key fact => cases h
  | recallKey key =>
    rw [State.call]
    obtain ⟨-, heq, -⟩ | ⟨fact, hsome, -, -⟩ | ⟨hsome, -, -⟩ := recall_cases it held s key
    · rw [heq]
      exact ⟨Nat.le_refl _, fun _ _ => rfl⟩
    · rw [counted, hsome] at h
      cases h
    · rw [counted, hsome] at h
      cases h
  | len =>
    refine ⟨Nat.zero_le _, fun key hdead => ?_⟩
    have hnot := not_dead_retain held s.slots key
    exact absurd (hnot.symm.trans hdead) (by simp)
  | hold e => exact ⟨Nat.le_refl _, fun _ _ => rfl⟩
  | drop e => exact ⟨Nat.le_refl _, fun _ _ => rfl⟩
  | forget key => exact ⟨Nat.le_refl _, fun _ _ => rfl⟩
  | forgetAll => exact ⟨Nat.le_refl _, fun _ _ => rfl⟩
  | resize size => exact ⟨Nat.le_refl _, fun _ _ => rfl⟩

end State

namespace Window

theorem use_recency (it : Iteration κ) (w : Recency κ) (use : Use κ) :
    ∃ w', (Window.recency w).use it use = .recency w' := by
  cases use <;> exact ⟨_, rfl⟩

theorem use_generations (it : Iteration κ) (g : Generations κ) (use : Use κ) :
    ∃ g', (Window.generations g).use it use = .generations g' := by
  cases use <;> exact ⟨_, rfl⟩

end Window

namespace Course

variable {window : Window κ} {c : Course κ ε} {it : Iteration κ}

/-- The references say what the window holds, and the dead slots are younger than the last sweep. -/
structure Sound (c : Course κ ε) : Prop where
  kept : c.state.Kept
  recent : ∀ w, c.state.window = .recency w → w.recent = c.recent
  generations : ∀ w, c.state.window = .generations w → w.Bounded ∧ w.Traced c.lineage
  survived : ∀ key, dead c.held c.state.slots key = true → c.survived key ≤ c.state.sinceSweep
  room : c.state.sinceSweep ≤ c.room

theorem start_sound (hnew : window.IsNew) : (start window : Course κ ε).Sound where
  kept := by
    refine ⟨hnew.agrees, fun key => iff_of_false (hnew.not_has key) ?_⟩
    rintro ⟨_, ⟨⟩⟩
  recent w hw := by
    cases hnew with
    | recency size =>
      cases hw
      rfl
    | generations size => cases hw
  generations w hw := by
    cases hnew with
    | recency size => cases hw
    | generations size =>
      cases hw
      refine ⟨⟨Nat.zero_le _, Nat.zero_le _⟩, ?_⟩
      rintro _ _ ⟨⟩
  survived key hdead := by cases hdead
  room := Nat.le_refl _

theorem Sound.survived_step (h : c.Sound) (it : Iteration κ) (call : Call κ ε) :
    (∀ key, dead (c.step it call).held (c.step it call).state.slots key = true →
      (c.step it call).survived key ≤ (c.step it call).state.sinceSweep) ∧
    (c.step it call).state.sinceSweep ≤ (c.step it call).room := by
  simp only [step]
  cases hcounted : c.state.counted call with
  | true =>
    obtain ⟨x, hsince, heq⟩ := State.call_of_counted it c.held hcounted
    obtain ⟨hroom, hdue⟩ := State.sweepWhenDue_cases (c.state.call it c.held call).2 x
    rw [← heq] at hroom hdue
    refine ⟨fun key hdead => ?_, hroom⟩
    rw [hdue key hdead, hsince]
    split
    · rename_i hboth
      rw [Bool.and_eq_true] at hboth
      exact Nat.succ_le_succ (h.survived key hboth.1)
    · exact Nat.zero_le _
  | false =>
    obtain ⟨hsince, hsame⟩ := State.call_of_not_counted it c.held hcounted
    refine ⟨fun key hdead => ?_, hsince.trans h.room⟩
    rw [hsame key hdead]
    split
    · rename_i hboth
      rw [Bool.and_eq_true] at hboth
      exact h.survived key hboth.1
    · exact Nat.zero_le _

theorem Sound.step (h : c.Sound) (it : Iteration κ) (call : Call κ ε) : (c.step it call).Sound := by
  obtain ⟨hsurvived, hroom⟩ := h.survived_step it call
  have hwindow := State.window_call it c.held c.state call
  refine ⟨State.kept_call it c.held h.kept call, fun w hw => ?_, fun w hw => ?_, hsurvived, hroom⟩
  · have hw := hwindow.symm.trans hw
    cases hbefore : c.state.window with
    | recency before =>
      have hagrees := h.kept.agrees
      rw [hbefore] at hw hagrees
      rw [Recency.recent_use hagrees _ hw, h.recent before hbefore]
      rfl
    | generations before =>
      obtain ⟨after, hafter⟩ := Window.use_generations it before (c.state.use c.held call)
      rw [hbefore, hafter] at hw
      cases hw
  · have hw := hwindow.symm.trans hw
    cases hbefore : c.state.window with
    | recency before =>
      obtain ⟨after, hafter⟩ := Window.use_recency it before (c.state.use c.held call)
      rw [hbefore, hafter] at hw
      cases hw
    | generations before =>
      obtain ⟨hbounded, htraced⟩ := h.generations before hbefore
      rw [hbefore] at hw
      simp only [Course.step, hbefore]
      exact ⟨Generations.bounded_use hbounded _ hw, Generations.traced_use htraced _ hw⟩

theorem Reached.sound (h : Reached window c) (hnew : window.IsNew) : c.Sound := by
  induction h with
  | start => exact start_sound hnew
  | step it call _ ih => exact ih.step it call

/-- A key is in the window exactly when its slot is anchored; the window by recency is its reference
list, and its two maps say the same; the window by generations is bounded, and keeps a key and lets
it go as its lineage says. A dead slot has survived no more counted operations than there were slots
right after the last of them. -/
theorem window_and_slots (hnew : window.IsNew) (h : Reached window c) :
    (∀ key, c.state.window.Has key ↔ Anchored c.state.slots key) ∧
    (∀ w, c.state.window = .recency w → w.recent = c.recent ∧
      (∀ tick key, (tick, key) ∈ w.order ↔ w.ticks key = some tick) ∧
      w.order.Pairwise fun entry later => entry.1 < later.1) ∧
    (∀ w, c.state.window = .generations w → (w.young ∪ w.old).card ≤ 2 * w.size ∧
      ∀ key others, c.lineage key = some others →
        (others.card ≤ w.size → w.Has key) ∧ (2 * w.size ≤ others.card → ¬ w.Has key)) ∧
    (∀ key, dead c.held c.state.slots key = true → c.survived key ≤ c.room) ∧
    ∀ it call key, c.state.counted call = true →
      dead (c.step it call).held (c.step it call).state.slots key = true →
      (c.step it call).survived key ≤ (c.step it call).state.slots.entries.length := by
  have hsound := h.sound hnew
  refine ⟨hsound.kept.has_iff, fun w hw => ?_, fun w hw => ?_, fun key hdead => ?_,
    fun it call key hcounted hdead => ?_⟩
  · have hagrees := hsound.kept.agrees
    rw [hw] at hagrees
    exact ⟨hsound.recent w hw, hagrees.mem_order, hagrees.ordered⟩
  · obtain ⟨hbounded, htraced⟩ := hsound.generations w hw
    exact ⟨hbounded.card_le, fun key others hlineage => (htraced key others hlineage).2.has hbounded⟩
  · exact (hsound.survived key hdead).trans hsound.room
  · obtain ⟨hsurvived, hroom⟩ := hsound.survived_step it call
    have hafter : (c.step it call).room = (c.step it call).state.slots.entries.length := by
      simp only [Course.step, hcounted, if_true]
    exact hafter ▸ (hsurvived key hdead).trans hroom

theorem Reached.foldl (calls : List (Call κ ε)) (h : Reached window c) :
    Reached window (calls.foldl (Course.step it) c) := by
  induction calls generalizing c with
  | nil => exact h
  | cons call rest ih => exact ih (.step it call h)

noncomputable def anyOrder : Iteration Nat := ⟨Finset.toList, fun _ _ => Finset.mem_toList⟩

/-- The first entity dies right after a sweep; the third key is asked for three times; and then the
second is forgotten. -/
noncomputable def forgotten : Course Nat Nat :=
  [.hold 1, .hold 2, .remember 1 (.entity 1), .remember 2 (.entity 2), .remember 3 .absence, .len, .drop 1,
    .recallKey 3, .recallKey 3, .recallKey 3, .forget 2].foldl (Course.step anyOrder) (start (.recency (.new 1)))

theorem forgotten_reached : Reached (.recency (.new 1)) forgotten := .foldl _ .start

/-- An order in which a set of three keys is gone through. -/
def ascending : Iteration (Fin 3) where
  list s := [0, 1, 2].filter (· ∈ s)
  mem_list s k := by
    have hlisted : k ∈ [(0 : Fin 3), 1, 2] := by revert k; decide
    simp [List.mem_filter, hlisted, -List.mem_cons]

/-- Two generations of one key each, and three keys. -/
def aged : Course (Fin 3) Nat :=
  [.hold 1, .remember 0 (.entity 1), .remember 1 .absence, .remember 2 .absence].foldl (Course.step ascending)
    (start (.generations (.new 1)))

theorem aged_reached : Reached (.generations (.new 1)) aged := .foldl _ .start

theorem window_and_slots_forgotten :
    (dead forgotten.held forgotten.state.slots 1 = true ∧ forgotten.survived 1 ≤ forgotten.room) ∧
    (∃ w, forgotten.state.window = .recency w ∧ w.recent = forgotten.recent ∧
      ∀ tick key, (tick, key) ∈ w.order ↔ w.ticks key = some tick) ∧
    ∃ w, aged.state.window = .generations w ∧ (w.young ∪ w.old).card ≤ 2 * w.size ∧ w.Has 1 ∧ ¬w.Has 0 := by
  have hdead : dead forgotten.held forgotten.state.slots 1 = true := by rfl
  obtain ⟨_, hrecency, _, hsurvived, _⟩ := window_and_slots (.recency 1) forgotten_reached
  obtain ⟨_, _, hgenerations, _⟩ := window_and_slots (.generations 1) aged_reached
  refine ⟨⟨hdead, hsurvived 1 hdead⟩, ⟨_, rfl, ?_⟩, ⟨_, rfl, ?_⟩⟩
  · obtain ⟨hrecent, hticks, _⟩ := hrecency _ rfl
    exact ⟨hrecent, hticks⟩
  · obtain ⟨hcard, hkeys⟩ := hgenerations _ rfl
    have hsecond : aged.lineage 1 = some {2} := by decide
    have hfirst : aged.lineage 0 = some {2, 1} := by decide
    exact ⟨hcard, (hkeys 1 _ hsecond).1 (by decide), (hkeys 0 _ hfirst).2 (by decide)⟩

/-- Two slots are left, and the dead one of them has survived three counted operations. -/
theorem dead_slot_outlives_slots : ¬ ∀ (window : Window Nat) (c : Course Nat Nat), window.IsNew →
    Reached window c → ∀ key, dead c.held c.state.slots key = true →
      c.survived key ≤ c.state.slots.entries.length := by
  intro h
  have hle : forgotten.survived 1 ≤ forgotten.state.slots.entries.length :=
    h _ forgotten (.recency 1) forgotten_reached 1 rfl
  have hthree : forgotten.survived 1 = 3 := rfl
  have htwo : forgotten.state.slots.entries.length = 2 := rfl
  omega

end Course

end AsceticDdd.Session.IdentityMap
