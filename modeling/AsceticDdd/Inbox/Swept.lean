import AsceticDdd.Inbox.Store
import AsceticDdd.Order.FirstN

/-!
# What the sweep forgets, pass after pass

A process keeps for each channel the latest time that its sweep has forgotten, and every statement starts there. Rows
that earlier statements passed by, or that were committed behind that time, are before it.
-/

namespace AsceticDdd.Inbox

/-- A statement of the sweep: its time, whether it was given the sweep's lock, and the rows locked elsewhere. -/
structure Statement where
  now : Nat
  held : Bool
  locked : Row → Bool

/-- The table, what the process remembers of its sweep, and all that the process has forgotten. -/
structure Sweep where
  rows : List Row
  sweptTo : String → Option Nat
  forgotten : List Row

/-- `max(processed_at)` -/
def latest (rows : List Row) : Option Nat := (rows.filterMap (·.processedAt)).max?

/-- Rows of a channel with a window that were due when a pass began, and that no waiting row named. -/
def Due (rows : List Row) (began : Nat) (channel : String) (window : Nat) (row : Row) : Prop :=
  forgettable channel window none began row = true ∧ ∀ w ∈ rows, w.waitingFor ≠ some row.identity

namespace Sweep

/-- How many statements one pass gives a channel at most. -/
def batchesPerPass : Nat := 100

variable (batch : Nat) (channel : String) (window : Nat) (sweep : Sweep)

def gone (statement : Statement) : List Row :=
  ((sweepable sweep.rows channel window (sweep.sweptTo channel) statement.now).filter fun row =>
    !statement.locked row).take (max batch 1)

/-- One statement of a channel's sweep, and whether it forgot a whole batch. -/
def forgetBatch (statement : Statement) : Sweep × Bool :=
  if statement.held then
    let gone := sweep.gone batch channel window statement
    ({ rows := sweep.rows.filter (· ∉ gone)
       sweptTo := match latest gone with
         | some time => Function.update sweep.sweptTo channel (some time)
         | none => sweep.sweptTo
       forgotten := sweep.forgotten ++ gone }, decide (max batch 1 ≤ gone.length))
  else (sweep, false)

/-- The statements of a channel, from the `n`th of a pass on: what they leave, how many they were, and whether the
last of them was short. -/
def sweepChannel (statements : Nat → Statement) : Nat → Nat → Sweep → Sweep × Nat × Bool
  | 0, n, sweep => (sweep, n, false)
  | left + 1, n, sweep =>
    let (after, full) := sweep.forgetBatch batch channel window (statements n)
    if full then sweepChannel statements left (n + 1) after else (after, n + 1, true)

/-- A pass: every channel with a window, and whether none was cut off. -/
def pass (statements : Nat → Statement) : List (String × Nat) → Nat → Sweep → Sweep × Bool
  | [], _, sweep => (sweep, true)
  | (channel, window) :: windows, n, sweep =>
    let (after, n, ended) := sweepChannel batch channel window statements batchesPerPass n sweep
    let (last, all) := pass statements windows n after
    (last, ended && all)

/-- The statement has the sweep's lock, and meets no row locked elsewhere. -/
structure Unhindered (began : Nat) (statement : Statement) : Prop where
  held : statement.held = true
  unlocked : ∀ row, statement.locked row = false
  since : began ≤ statement.now

variable {batch channel window sweep} {statement : Statement} {began : Nat} {row : Row} {start : List Row}

/-- The statement comes to the row: it is not before the time its channel's sweep starts at. -/
def Reaches (sweep : Sweep) (channel : String) (row : Row) : Prop :=
  ∀ time ∈ sweep.sweptTo channel, ∃ at_ ∈ row.processedAt, time ≤ at_

theorem forgettable_iff {sweptTo : Option Nat} {now : Nat} :
    forgettable channel window sweptTo now row = true ↔ channelOf row.uri = channel ∧
      (∃ at_ ∈ row.processedAt, at_ + window < now) ∧ (∀ time ∈ sweptTo, ∃ at_ ∈ row.processedAt, time ≤ at_) ∧
        row.processedPosition.isSome = true := by
  simp only [forgettable, Bool.and_eq_true, decide_eq_true_eq, Option.any_eq_true, Option.all_eq_true, and_assoc,
    Option.mem_def]

/-- What a statement forgets is of its channel, and not before where it starts. -/
theorem of_mem_gone (h : row ∈ sweep.gone batch channel window statement) :
    row ∈ sweep.rows ∧ channelOf row.uri = channel ∧ row.processedAt.isSome = true ∧ sweep.Reaches channel row := by
  have found := (List.mem_filter.mp (List.mem_of_mem_take h)).1
  obtain ⟨here, forgettable, _⟩ := mem_sweepable.mp found
  obtain ⟨same, ⟨at_, processed, _⟩, reached, _⟩ := forgettable_iff.mp forgettable
  exact ⟨here, same, Option.isSome_iff_exists.mpr ⟨at_, processed⟩, reached⟩

theorem gone_eq (unhindered : Unhindered began statement) : sweep.gone batch channel window statement =
    FirstN.firstN (fun row : Row => row.processedAt.getD 0) (max batch 1)
      (sweep.rows.filter fun row => forgettable channel window (sweep.sweptTo channel) statement.now row &&
        sweep.rows.all fun waiter => waiter.waitingFor ≠ some row.identity) := by
  have unlocked : ∀ rows : List Row, (rows.filter fun row => !statement.locked row) = rows :=
    fun rows => List.filter_eq_self.mpr fun row _ => by rw [unhindered.unlocked]; rfl
  rw [gone, unlocked]
  rfl

/-- A due row that a statement reaches is forgotten, unless what is forgotten is a whole batch of rows no later. -/
theorem gone_or_later (unhindered : Unhindered began statement) (due : Due start began channel window row)
    (within : ∀ w ∈ sweep.rows, w ∈ start) (here : row ∈ sweep.rows) (reached : sweep.Reaches channel row)
    (left : row ∉ sweep.gone batch channel window statement) :
    (sweep.gone batch channel window statement).length = max batch 1 ∧
      ∀ r ∈ sweep.gone batch channel window statement, r.processedAt.getD 0 ≤ row.processedAt.getD 0 := by
  obtain ⟨same, ⟨at_, processed, before⟩, _, marked⟩ := forgettable_iff.mp due.1
  have since := unhindered.since
  have found : row ∈ sweep.rows.filter fun row =>
      forgettable channel window (sweep.sweptTo channel) statement.now row &&
        sweep.rows.all fun waiter => waiter.waitingFor ≠ some row.identity := by
    refine List.mem_filter.mpr ⟨here, Bool.and_eq_true_iff.mpr ⟨?_, ?_⟩⟩
    · exact forgettable_iff.mpr ⟨same, ⟨at_, processed, by omega⟩, reached, marked⟩
    · exact List.all_eq_true.mpr fun w hw => decide_eq_true (due.2 w (within w hw))
  rw [gone_eq unhindered] at left ⊢
  exact ⟨FirstN.firstN_full found left, fun r hr => FirstN.firstN_le hr found left⟩

theorem latest_eq_some {rows : List Row} {time : Nat} (h : latest rows = some time) :
    (∃ r ∈ rows, r.processedAt = some time) ∧ ∀ r ∈ rows, ∀ at_ ∈ r.processedAt, at_ ≤ time := by
  obtain ⟨here, most⟩ := List.max?_eq_some_iff.mp h
  refine ⟨List.mem_filterMap.mp here, fun r hr at_ processed => ?_⟩
  exact most at_ (List.mem_filterMap.mpr ⟨r, hr, processed⟩)

theorem latest_eq_none {rows : List Row} (h : latest rows = none) : ∀ r ∈ rows, ∀ at_, r.processedAt ≠ some at_ := by
  intro r hr at_ its
  have here : at_ ∈ rows.filterMap (·.processedAt) := List.mem_filterMap.mpr ⟨r, hr, its⟩
  rw [List.max?_eq_none_iff.mp h] at here
  cases here

@[simp] theorem mem_forgetBatch_rows (held : statement.held = true) :
    row ∈ (sweep.forgetBatch batch channel window statement).1.rows ↔
      row ∈ sweep.rows ∧ row ∉ sweep.gone batch channel window statement := by
  rw [forgetBatch, if_pos held]
  simp

theorem forgetBatch_sweptTo (held : statement.held = true) (own : String) :
    (sweep.forgetBatch batch channel window statement).1.sweptTo own =
      if own = channel then (latest (sweep.gone batch channel window statement)).or (sweep.sweptTo own)
      else sweep.sweptTo own := by
  rw [forgetBatch, if_pos held]
  cases found : latest (sweep.gone batch channel window statement) with
  | none => simp [found]
  | some time =>
    simp only [found]
    rw [Function.update_apply]
    rfl

theorem forgetBatch_rows_subset (h : row ∈ (sweep.forgetBatch batch channel window statement).1.rows) :
    row ∈ sweep.rows := by
  cases held : statement.held with
  | true => exact ((mem_forgetBatch_rows held).mp h).1
  | false =>
    rw [forgetBatch, held] at h
    exact h

theorem forgetBatch_other {own : String} (other : own ≠ channel) :
    (sweep.forgetBatch batch channel window statement).1.sweptTo own = sweep.sweptTo own := by
  cases held : statement.held with
  | true => rw [forgetBatch_sweptTo held, if_neg other]
  | false => rw [forgetBatch, held]; rfl

/-- What a statement leaves of the due rows that it reaches, the next one reaches; a short one leaves none. -/
theorem forgetBatch_due (unhindered : Unhindered began statement) (due : Due start began channel window row)
    (within : ∀ w ∈ sweep.rows, w ∈ start) (reached : sweep.Reaches channel row)
    (left : row ∈ (sweep.forgetBatch batch channel window statement).1.rows) :
    (sweep.forgetBatch batch channel window statement).2 = true ∧
      (sweep.forgetBatch batch channel window statement).1.Reaches channel row := by
  obtain ⟨here, kept⟩ := (mem_forgetBatch_rows unhindered.held).mp left
  obtain ⟨full, later⟩ := gone_or_later unhindered due within here reached kept
  constructor
  · rw [forgetBatch, if_pos unhindered.held]
    exact decide_eq_true full.ge
  · intro time next
    obtain ⟨_, ⟨at_, processed, _⟩, _⟩ := forgettable_iff.mp due.1
    rw [forgetBatch_sweptTo unhindered.held, if_pos rfl] at next
    cases found : latest (sweep.gone batch channel window statement) with
    | none =>
      rw [found] at next
      exact reached time next
    | some time' =>
      rw [found] at next
      obtain rfl : time' = time := Option.some.inj next
      obtain ⟨⟨r, hr, its⟩, _⟩ := latest_eq_some found
      have := later r hr
      rw [its, Option.mem_def.mp processed] at this
      exact ⟨at_, processed, this⟩

/-- A row that its channel's sweep has passed stays where it is, and stays passed. -/
theorem forgetBatch_passed {own : String} (same : channelOf row.uri = own) (here : row ∈ sweep.rows)
    (passed : ¬ sweep.Reaches own row) :
    row ∈ (sweep.forgetBatch batch channel window statement).1.rows ∧
      ¬ (sweep.forgetBatch batch channel window statement).1.Reaches own row := by
  cases held : statement.held with
  | false =>
    rw [forgetBatch, held]
    exact ⟨here, passed⟩
  | true =>
    constructor
    · refine (mem_forgetBatch_rows held).mpr ⟨here, fun gone => ?_⟩
      obtain ⟨_, same', _, reached⟩ := of_mem_gone gone
      obtain rfl := same.symm.trans same'
      exact passed reached
    · intro reached
      refine passed fun time before => ?_
      have next : (sweep.forgetBatch batch channel window statement).1.sweptTo own =
          if own = channel then (latest (sweep.gone batch channel window statement)).or (sweep.sweptTo own)
          else sweep.sweptTo own := forgetBatch_sweptTo held own
      split at next
      · rename_i mine
        subst mine
        cases found : latest (sweep.gone batch own window statement) with
        | none =>
          rw [found] at next
          exact reached time (next.trans before)
        | some time' =>
          rw [found] at next
          obtain ⟨at_, processed, later⟩ := reached time' next
          obtain ⟨⟨r, hr, its⟩, _⟩ := latest_eq_some found
          obtain ⟨_, its', between⟩ := (of_mem_gone hr).2.2.2 time before
          obtain rfl := Option.some.inj (its.symm.trans its')
          exact ⟨at_, processed, between.trans later⟩
      · exact reached time (next.trans before)

section Pass

variable {statements : Nat → Statement} {left n : Nat}

theorem sweepChannel_succ : sweepChannel batch channel window statements (left + 1) n sweep =
    if (sweep.forgetBatch batch channel window (statements n)).2 = true then
      sweepChannel batch channel window statements left (n + 1)
        (sweep.forgetBatch batch channel window (statements n)).1
    else ((sweep.forgetBatch batch channel window (statements n)).1, n + 1, true) := rfl

/-- What every statement of a channel keeps, all of them keep. -/
theorem sweepChannel_keeps {P : Sweep → Prop}
    (step : ∀ sweep statement, P sweep → P (forgetBatch batch channel window sweep statement).1) (holds : P sweep) :
    P (sweepChannel batch channel window statements left n sweep).1 := by
  induction left generalizing n sweep with
  | zero => exact holds
  | succ left ih =>
    rw [sweepChannel_succ]
    split
    · exact ih (step _ _ holds)
    · exact step _ _ holds

/-- The statements of a channel that reach its due rows forget them all, unless they are cut off. -/
theorem sweepChannel_due (unhindered : ∀ n, Unhindered began (statements n))
    (within : ∀ w ∈ sweep.rows, w ∈ start)
    (reached : ∀ row ∈ sweep.rows, Due start began channel window row → sweep.Reaches channel row)
    (ended : (sweepChannel batch channel window statements left n sweep).2.2 = true) :
    ∀ row ∈ (sweepChannel batch channel window statements left n sweep).1.rows, ¬ Due start began channel window row := by
  induction left generalizing n sweep with
  | zero => cases ended
  | succ left ih =>
    rw [sweepChannel_succ] at ended ⊢
    split at ended
    · rename_i full
      rw [if_pos full]
      refine ih (fun w hw => within w (forgetBatch_rows_subset hw)) (fun row here due => ?_) ended
      exact (forgetBatch_due (unhindered n) due within (reached row (forgetBatch_rows_subset here) due) here).2
    · rename_i short
      rw [if_neg short]
      intro row here due
      exact short (forgetBatch_due (unhindered n) due within (reached row (forgetBatch_rows_subset here) due) here).1

variable {windows : List (String × Nat)}

theorem pass_cons : pass batch statements ((channel, window) :: windows) n sweep =
    ((pass batch statements windows (sweepChannel batch channel window statements batchesPerPass n sweep).2.1
        (sweepChannel batch channel window statements batchesPerPass n sweep).1).1,
      (sweepChannel batch channel window statements batchesPerPass n sweep).2.2 &&
        (pass batch statements windows (sweepChannel batch channel window statements batchesPerPass n sweep).2.1
          (sweepChannel batch channel window statements batchesPerPass n sweep).1).2) := rfl

theorem pass_keeps {P : Sweep → Prop}
    (step : ∀ channel window sweep statement, P sweep → P (forgetBatch batch channel window sweep statement).1)
    (holds : P sweep) : P (pass batch statements windows n sweep).1 := by
  induction windows generalizing n sweep with
  | nil => exact holds
  | cons rule windows ih =>
    rw [pass_cons]
    exact ih (sweepChannel_keeps (step rule.1 rule.2) holds)

/-- A pass that reaches every due row forgets them all, unless it is cut off. -/
theorem pass_due (unhindered : ∀ n, Unhindered began (statements n)) (keys : (windows.map (·.1)).Nodup)
    (within : ∀ w ∈ sweep.rows, w ∈ start)
    (reached : ∀ rule ∈ windows, ∀ row ∈ sweep.rows, Due start began rule.1 rule.2 row → sweep.Reaches rule.1 row)
    (ended : (pass batch statements windows n sweep).2 = true) :
    ∀ rule ∈ windows, ∀ row ∈ (pass batch statements windows n sweep).1.rows, ¬ Due start began rule.1 rule.2 row := by
  induction windows generalizing n sweep with
  | nil => simp
  | cons rule windows ih =>
    obtain ⟨channel, window⟩ := rule
    rw [pass_cons] at ended ⊢
    obtain ⟨ended, others⟩ := Bool.and_eq_true_iff.mp ended
    obtain ⟨fresh, keys⟩ := List.nodup_cons.mp keys
    have subset : ∀ row ∈ (sweepChannel batch channel window statements batchesPerPass n sweep).1.rows,
        row ∈ sweep.rows :=
      sweepChannel_keeps (P := fun after => ∀ row ∈ after.rows, row ∈ sweep.rows)
        (fun _ _ kept row here => kept row (forgetBatch_rows_subset here)) fun _ => id
    have same : ∀ own ≠ channel, (sweepChannel batch channel window statements batchesPerPass n sweep).1.sweptTo own =
        sweep.sweptTo own := fun own other =>
      sweepChannel_keeps (P := fun after => after.sweptTo own = sweep.sweptTo own)
        (fun _ _ kept => (forgetBatch_other other).trans kept) rfl
    intro rule hrule row here
    obtain rfl | hrule := List.mem_cons.mp hrule
    · refine sweepChannel_due unhindered within (reached _ List.mem_cons_self) ended row ?_
      exact pass_keeps (P := fun after => ∀ row ∈ after.rows,
          row ∈ (sweepChannel batch channel window statements batchesPerPass n sweep).1.rows)
        (fun _ _ _ _ kept row here => kept row (forgetBatch_rows_subset here)) (fun _ => id) row here
    · refine ih keys (fun w hw => within w (subset w hw)) (fun rule hrule row here due => ?_) others rule hrule row here
      have other : rule.1 ≠ channel := fun same => fresh (List.mem_map.mpr ⟨rule, hrule, same⟩)
      have reaches := reached rule (List.mem_cons_of_mem _ hrule) row (subset row here) due
      intro time next
      exact reaches time (by rwa [same _ other] at next)

end Pass

/-- What a process's sweep comes to, from its start: others change the table, and its statements forget, hindered or
not. -/
inductive History (batch : Nat) : Sweep → Prop
  | start (rows : List Row) : History batch ⟨rows, fun _ => none, []⟩
  | others {sweep : Sweep} (rows : List Row) (history : History batch sweep) : History batch { sweep with rows }
  | statement {sweep : Sweep} (channel : String) (window : Nat) (statement : Statement) (history : History batch sweep) :
    History batch (sweep.forgetBatch batch channel window statement).1

/-- What the process has forgotten of a channel. -/
def forgottenOf (sweep : Sweep) (channel : String) : List Row :=
  sweep.forgotten.filter fun row => channelOf row.uri = channel

theorem latest_append {rows later : List Row} {time : Nat} (found : latest later = some time)
    (before : ∀ t ∈ latest rows, t ≤ time) : latest (rows ++ later) = some time := by
  obtain ⟨⟨r, hr, its⟩, most⟩ := latest_eq_some found
  refine List.max?_eq_some_iff.mpr ⟨List.mem_filterMap.mpr ⟨r, List.mem_append_right _ hr, its⟩, fun at_ hat => ?_⟩
  obtain ⟨r', hr', its'⟩ := List.mem_filterMap.mp hat
  obtain hr' | hr' := List.mem_append.mp hr'
  · cases old : latest rows with
    | none => exact absurd its' (latest_eq_none old r' hr' at_)
    | some t => exact ((latest_eq_some old).2 r' hr' at_ its').trans (before t old)
  · exact most r' hr' at_ its'

/-- A channel's sweep starts at the latest time it has forgotten. -/
theorem History.sweptTo_eq (history : History batch sweep) (own : String) :
    sweep.sweptTo own = latest (sweep.forgottenOf own) := by
  induction history with
  | start rows => rfl
  | others rows history ih => exact ih
  | @statement sweep channel window statement history ih =>
    cases held : statement.held with
    | false =>
      rw [forgetBatch, held]
      exact ih
    | true =>
      rw [forgetBatch_sweptTo held, forgetBatch, if_pos held, forgottenOf, List.filter_append]
      split
      · rename_i mine
        subst mine
        have all : (sweep.gone batch own window statement).filter (fun row => channelOf row.uri = own) =
            sweep.gone batch own window statement :=
          List.filter_eq_self.mpr fun row gone => decide_eq_true (of_mem_gone gone).2.1
        rw [all]
        cases found : latest (sweep.gone batch own window statement) with
        | none =>
          have nothing : sweep.gone batch own window statement = [] := by
            refine List.eq_nil_iff_forall_not_mem.mpr fun row gone => ?_
            obtain ⟨at_, its⟩ := Option.isSome_iff_exists.mp (of_mem_gone gone).2.2.1
            exact latest_eq_none found row gone at_ its
          rw [nothing, List.append_nil, ih]
          rfl
        | some time =>
          obtain ⟨⟨r, hr, its⟩, _⟩ := latest_eq_some found
          refine (latest_append found fun t before => ?_).symm
          obtain ⟨at_, its', between⟩ := (of_mem_gone hr).2.2.2 t (ih.trans before)
          obtain rfl := Option.some.inj (its.symm.trans its')
          exact between
      · rename_i other
        have none' : (sweep.gone batch channel window statement).filter (fun row => channelOf row.uri = own) = [] :=
          List.filter_eq_nil_iff.mpr fun row gone same =>
            other ((of_decide_eq_true same).symm.trans (of_mem_gone gone).2.1)
        rw [none', List.append_nil]
        exact ih

/-- The process's sweep has forgotten no row of the channel that was processed after this one. -/
def NothingLater (sweep : Sweep) (channel : String) (row : Row) : Prop :=
  ∀ r ∈ sweep.forgotten, channelOf r.uri = channel → ∀ time ∈ r.processedAt, ∃ at_ ∈ row.processedAt, time ≤ at_

theorem History.reaches_iff (history : History batch sweep) :
    sweep.Reaches channel row ↔ sweep.NothingLater channel row := by
  rw [Reaches, history.sweptTo_eq]
  constructor
  · intro reached r hr same time its
    have mine : r ∈ sweep.forgottenOf channel := List.mem_filter.mpr ⟨hr, decide_eq_true same⟩
    cases found : latest (sweep.forgottenOf channel) with
    | none => exact absurd its (latest_eq_none found r mine time)
    | some most =>
      obtain ⟨at_, processed, later⟩ := reached most found
      have before := (latest_eq_some found).2 r mine time its
      exact ⟨at_, processed, before.trans later⟩
  · intro nothing time found
    obtain ⟨⟨r, hr, its⟩, _⟩ := latest_eq_some found
    obtain ⟨hr, same⟩ := List.mem_filter.mp hr
    exact nothing r hr (of_decide_eq_true same) time its

/-- After any history, a pass that is not hindered and not cut off leaves no row that was due when it began, exactly
when of no channel has a row processed later been forgotten already. -/
theorem pass_forgets_due_iff {statements : Nat → Statement} {windows : List (String × Nat)}
    (history : History batch sweep) (unhindered : ∀ n, Unhindered began (statements n))
    (keys : (windows.map (·.1)).Nodup) (ended : (pass batch statements windows 0 sweep).2 = true) :
    (∀ rule ∈ windows, ∀ row ∈ (pass batch statements windows 0 sweep).1.rows,
        ¬ Due sweep.rows began rule.1 rule.2 row) ↔
      ∀ rule ∈ windows, ∀ row ∈ sweep.rows, Due sweep.rows began rule.1 rule.2 row →
        sweep.NothingLater rule.1 row := by
  constructor
  · intro cleared rule hrule row here due
    rw [← history.reaches_iff]
    by_contra passed
    obtain ⟨same, _⟩ := forgettable_iff.mp due.1
    have stays : row ∈ (pass batch statements windows 0 sweep).1.rows ∧
        ¬ (pass batch statements windows 0 sweep).1.Reaches rule.1 row :=
      pass_keeps (P := fun after => row ∈ after.rows ∧ ¬ after.Reaches rule.1 row)
        (fun _ _ _ _ kept => forgetBatch_passed same kept.1 kept.2) ⟨here, passed⟩
    exact cleared rule hrule row stays.1 due
  · intro nothing
    refine pass_due unhindered keys (fun _ => id) (fun rule hrule row here due => ?_) ended
    exact history.reaches_iff.mpr (nothing rule hrule row here due)

section Example

def processed (position time : Nat) : Row :=
  { Row.received ⟨"t", "s", .null, position, "kafka://orders/1", [], none⟩ position with
    processedPosition := some position, processedAt := some time }

def quiet : Statement := ⟨100, true, fun _ => false⟩

def started : Sweep := ⟨[processed 1 1, processed 2 2], fun _ => none, []⟩

theorem quiet_unhindered (n : Nat) : Unhindered 100 ((fun _ => quiet) n) := ⟨rfl, fun _ => rfl, le_rfl⟩

/-- The second row is locked elsewhere when the first is forgotten, the next statement has not the sweep's lock, and
a third row is processed. -/
def hindered : Sweep :=
  let first := (started.forgetBatch 10 "kafka://orders" 10 ⟨100, true, fun row => row.streamPosition = 2⟩).1
  let second := (first.forgetBatch 10 "kafka://orders" 10 ⟨100, false, fun _ => false⟩).1
  { second with rows := second.rows ++ [processed 3 3] }

theorem two_rows_forgotten : hindered.forgotten = [processed 1 1] ∧ hindered.rows = [processed 2 2, processed 3 3] ∧
    (pass 10 (fun _ => quiet) [("kafka://orders", 10)] 0 hindered).1.rows = [] ∧
    ∀ rule ∈ [("kafka://orders", 10)], ∀ row ∈ (pass 10 (fun _ => quiet) [("kafka://orders", 10)] 0 hindered).1.rows,
      ¬ Due hindered.rows 100 rule.1 rule.2 row := by
  have history : History 10 hindered := .others _ (.statement _ _ _ (.statement _ _ _ (.start _)))
  have gone : hindered.forgotten = [processed 1 1] := by decide
  have here : hindered.rows = [processed 2 2, processed 3 3] := by decide
  refine ⟨gone, here, by decide, ?_⟩
  refine (pass_forgets_due_iff history quiet_unhindered (by decide) (by decide)).mpr fun _ _ row hrow _ r hr _ => ?_
  rw [gone, List.mem_singleton] at hr
  rw [here, List.mem_pair] at hrow
  subst hr
  rcases hrow with rfl | rfl <;> decide

/-- The first row is locked elsewhere when the second is forgotten: the next pass, with nothing in its way, starts
past it. -/
theorem locked_row_never_forgotten :
    (pass 10 (fun _ => quiet) [("kafka://orders", 10)] 0
      (started.forgetBatch 10 "kafka://orders" 10 ⟨100, true, fun row => row.streamPosition = 1⟩).1).1.rows =
        [processed 1 1] ∧
    (pass 10 (fun _ => quiet) [("kafka://orders", 10)] 0
      (started.forgetBatch 10 "kafka://orders" 10 ⟨100, true, fun row => row.streamPosition = 1⟩).1).2 = true ∧
    History 10 (started.forgetBatch 10 "kafka://orders" 10 ⟨100, true, fun row => row.streamPosition = 1⟩).1 ∧
    Due [processed 1 1] 100 "kafka://orders" 10 (processed 1 1) :=
  ⟨by decide, by decide, .statement _ _ _ (.start _), by decide, by decide⟩

end Example

end Sweep

end AsceticDdd.Inbox
