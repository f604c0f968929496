import AsceticDdd.Bus.Kafka
import Mathlib.Data.List.Basic

/-!
# The offset stored passes what is handled

While no message is received behind one of its partition that waits for its handler, or that a stopped task has
given up, messages are handed on in order and no offset stored passes one that is not handled.
-/

namespace AsceticDdd.Bus.Kafka

open Concurrency

namespace Consumer

/-- A call of a handler with the message returned, or panicked. -/
def Done (consumer : Consumer) (partition offset : Nat) : Prop :=
  ∃ assignment, .settled ⟨partition, assignment, offset⟩ ∈ consumer.history

/-- Every message that was not committed at the start, and is before the offset, is done with. -/
def Handled (consumer : Consumer) (start : Nat → Nat) (partition bound : Nat) : Prop :=
  ∀ offset < bound, consumer.log partition offset = true → start partition ≤ offset → consumer.Done partition offset

/-- A task has the message in its hands, and its handler has not returned. -/
def Holds (consumer : Consumer) (received : Received) : Prop :=
  ∃ task ∈ consumer.tasks, task.phase = .calling received ∨ task.phase = .pausing received

/-- The message waits for its handler, or was given up. -/
def Open (consumer : Consumer) (received : Received) : Prop :=
  consumer.Holds received ∨ .abandoned received ∈ consumer.history

/-- A message is handed on after those of its assignment before it are done with. -/
def InOrder : List Event → Prop
  | [] => True
  | .called received :: earlier =>
    (∀ before, .called before ∈ earlier → before.partition = received.partition →
      before.assignment = received.assignment →
      before.offset = received.offset ∨ before.offset < received.offset ∧ .settled before ∈ earlier) ∧ InOrder earlier
  | _ :: earlier => InOrder earlier

/-- No task receives a message behind one of its partition that is still open. -/
def Meets (consumer : Consumer) : Action → Prop
  | .receive _ partition _ => ∀ received, consumer.Open received → received.partition = partition →
      received.assignment ≠ (consumer.partitions partition).assignment
  | _ => True

/-- The messages that are open. -/
def opens (consumer : Consumer) : List Received :=
  (consumer.tasks.filterMap fun task =>
    match task.phase with
    | .calling received | .pausing received => some received
    | _ => none) ++
  consumer.history.filterMap fun event =>
    match event with
    | .abandoned received => some received
    | _ => none

theorem mem_opens {consumer : Consumer} {received : Received} :
    received ∈ consumer.opens ↔ consumer.Open received := by
  simp only [opens, List.mem_append, List.mem_filterMap, Open, Holds]
  constructor
  · rintro (⟨task, member, hand⟩ | ⟨event, member, givenUp⟩)
    · refine .inl ⟨task, member, ?_⟩
      split at hand
      case h_1 calling => exact .inl (Option.some.inj hand ▸ calling)
      case h_2 pausing => exact .inr (Option.some.inj hand ▸ pausing)
      case h_3 => cases hand
    · refine .inr ?_
      split at givenUp
      case h_1 => exact Option.some.inj givenUp ▸ member
      case h_2 => cases givenUp
  · rintro (⟨task, member, calling | pausing⟩ | abandoned)
    · exact .inl ⟨task, member, by rw [calling]⟩
    · exact .inl ⟨task, member, by rw [pausing]⟩
    · exact .inr ⟨_, abandoned, rfl⟩

instance (consumer : Consumer) (action : Action) : Decidable (consumer.Meets action) :=
  match action with
  | .receive _ partition _ =>
    decidable_of_iff (∀ received ∈ consumer.opens, received.partition = partition →
        received.assignment ≠ (consumer.partitions partition).assignment)
      ⟨fun free received still => free received (mem_opens.mpr still),
        fun free received still => free received (mem_opens.mp still)⟩
  | .subscribe | .cancel _ | .fail _ | .settle _ | .retry _ | .stop _ | .store _ _ | .commit _ | .assign _ =>
    inferInstanceAs (Decidable True)

structure Sound (consumer : Consumer) (start : Nat → Nat) : Prop where
  called : ∀ received, .called received ∈ consumer.history →
    .settled received ∈ consumer.history ∨ consumer.Open received
  bound : ∀ received, .called received ∈ consumer.history →
    received.assignment ≤ (consumer.partitions received.partition).assignment ∧
    (received.assignment = (consumer.partitions received.partition).assignment →
      received.offset < (consumer.partitions received.partition).position)
  /-- What is in hand comes next in its partition. -/
  held : ∀ received, consumer.Holds received → .called received ∈ consumer.history ∧
    consumer.Handled start received.partition received.offset ∧
    ∀ before, .called before ∈ consumer.history → before.partition = received.partition →
      before.assignment = received.assignment →
      before.offset = received.offset ∨ before.offset < received.offset ∧ .settled before ∈ consumer.history
  storing : ∀ task ∈ consumer.tasks, ∀ received, task.phase = .storing received →
    consumer.Handled start received.partition (received.offset + 1)
  position : ∀ partition, ∀ offset < (consumer.partitions partition).position, consumer.log partition offset = true →
    start partition ≤ offset → consumer.Done partition offset ∨
      consumer.Open ⟨partition, (consumer.partitions partition).assignment, offset⟩
  stored : ∀ partition, ∀ offset ∈ (consumer.partitions partition).stored, consumer.Handled start partition offset
  committed : ∀ partition, consumer.Handled start partition (consumer.partitions partition).committed
  order : InOrder consumer.history

theorem sound_new (log : Nat → Nat → Bool) (start : Nat → Nat) : (new log start).Sound start where
  called _ called := by cases called
  bound _ called := by cases called
  held _ held := by
    obtain ⟨_, member, _⟩ := held
    cases member
  storing _ member := by cases member
  position partition offset before _ after := absurd before (Nat.not_lt_of_le after)
  stored _ _ stored := by cases stored
  committed partition offset before _ after := absurd before (Nat.not_lt_of_le after)
  order := trivial

variable {consumer consumer' : Consumer} {start : Nat → Nat} {id : Nat}

theorem Handled.mono {partition bound : Nat} (handled : consumer.Handled start partition bound)
    (log : consumer'.log = consumer.log) (more : ∀ event ∈ consumer.history, event ∈ consumer'.history) :
    consumer'.Handled start partition bound := by
  intro offset before message after
  rw [log] at message
  obtain ⟨assignment, done⟩ := handled offset before message after
  exact ⟨assignment, more _ done⟩

theorem holds_setTask {task' : Task} (received : Received)
    (holds : (consumer.setTask id task').Holds received) :
    consumer.Holds received ∨ task'.phase = .calling received ∨ task'.phase = .pausing received := by
  obtain ⟨other, member, phase⟩ := holds
  obtain old | rfl := List.mem_or_eq_of_mem_set member
  · exact .inl ⟨other, old, phase⟩
  · exact .inr phase

theorem holds_of_setTask {task task' : Task} (found : consumer.tasks[id]? = some task) {received : Received}
    (holds : consumer.Holds received) :
    (consumer.setTask id task').Holds received ∨ task.phase = .calling received ∨ task.phase = .pausing received := by
  obtain ⟨other, member, phase⟩ := holds
  obtain ⟨i, here⟩ := List.mem_iff_getElem?.mp member
  by_cases same : i = id
  · subst same
    obtain rfl : other = task := Option.some.inj (here.symm.trans found)
    exact .inr phase
  · exact .inl ⟨other, List.mem_of_getElem? ((List.getElem?_set_ne (Ne.symm same)).trans here), phase⟩

/-- A message done with beyond those before it. -/
theorem Handled.succ {partition offset : Nat} (handled : consumer.Handled start partition offset)
    (done : consumer.Done partition offset) : consumer.Handled start partition (offset + 1) := by
  intro offset' before message after
  obtain less | rfl := Nat.lt_succ_iff_lt_or_eq.mp before
  · exact handled offset' less message after
  · exact done

/-- What the tasks do between receiving and storing: nothing new comes in hand, and what is no longer open is done
with. -/
theorem Sound.tasks (sound : consumer.Sound start) (log : consumer'.log = consumer.log)
    (partitions : consumer'.partitions = consumer.partitions)
    (more : ∀ event ∈ consumer.history, event ∈ consumer'.history)
    (holds : ∀ received, consumer'.Holds received → consumer.Holds received)
    (opened : ∀ received, consumer.Open received → consumer'.Open received ∨ .settled received ∈ consumer'.history)
    (called : ∀ received, .called received ∈ consumer'.history → .called received ∈ consumer.history)
    (storing : ∀ task ∈ consumer'.tasks, ∀ received, task.phase = .storing received →
      (∃ task ∈ consumer.tasks, task.phase = .storing received) ∨
        consumer.Holds received ∧ .settled received ∈ consumer'.history)
    (order : InOrder consumer'.history) : consumer'.Sound start where
  called received handed := by
    obtain settled | still := sound.called received (called received handed)
    · exact .inl (more _ settled)
    · exact (opened received still).symm
  bound received handed := by
    rw [partitions]
    exact sound.bound received (called received handed)
  held received inHand := by
    obtain ⟨handed, handled, behind⟩ := sound.held received (holds received inHand)
    refine ⟨more _ handed, handled.mono log more, fun before earlier partition assignment => ?_⟩
    obtain same | ⟨less, settled⟩ := behind before (called before earlier) partition assignment
    · exact .inl same
    · exact .inr ⟨less, more _ settled⟩
  storing task member received phase := by
    obtain ⟨task', member', phase'⟩ | ⟨inHand, settled⟩ := storing task member received phase
    · exact (sound.storing task' member' received phase').mono log more
    · exact ((sound.held received inHand).2.1.mono log more).succ ⟨received.assignment, settled⟩
  position partition offset before message after := by
    rw [partitions] at before ⊢
    rw [log] at message
    obtain ⟨assignment, done⟩ | still := sound.position partition offset before message after
    · exact .inl ⟨assignment, more _ done⟩
    · obtain still | settled := opened _ still
      · exact .inr still
      · exact .inl ⟨_, settled⟩
  stored partition offset stored := by
    rw [partitions] at stored
    exact (sound.stored partition offset stored).mono log more
  committed partition := by
    rw [partitions]
    exact (sound.committed partition).mono log more
  order := order

theorem Sound.notify (sound : consumer.Sound start) : (consumer.notify id).Sound start := by
  have phases {task : Task} (member : task ∈ (consumer.notify id).tasks) :
      ∃ task' ∈ consumer.tasks, task'.phase = task.phase := by
    obtain ⟨i, found⟩ := List.mem_iff_getElem?.mp member
    rw [Consumer.notify, List.getElem?_modify] at found
    obtain ⟨task', found', rfl⟩ := Option.map_eq_some_iff.mp found
    refine ⟨task', List.mem_of_getElem? found', ?_⟩
    split <;> rfl
  have phases' {task : Task} (member : task ∈ consumer.tasks) :
      ∃ task' ∈ (consumer.notify id).tasks, task'.phase = task.phase := by
    obtain ⟨i, found⟩ := List.mem_iff_getElem?.mp member
    refine ⟨if id = i then { task with stop := true } else task, List.mem_of_getElem? (i := i) ?_, ?_⟩
    · rw [Consumer.notify, List.getElem?_modify, found]
      rfl
    · split <;> rfl
  refine sound.tasks rfl rfl (fun _ kept => kept) ?_ ?_ (fun _ kept => kept) ?_ sound.order
  · rintro received ⟨task, member, phase⟩
    obtain ⟨task', member', same⟩ := phases member
    exact ⟨task', member', same ▸ phase⟩
  · rintro received (⟨task, member, phase⟩ | abandoned)
    · obtain ⟨task', member', same⟩ := phases' member
      exact .inl (.inl ⟨task', member', same ▸ phase⟩)
    · exact .inl (.inr abandoned)
  · intro task member received phase
    obtain ⟨task', member', same⟩ := phases member
    exact .inl ⟨task', member', same.trans phase⟩

theorem Sound.subscribe (sound : consumer.Sound start) (subscribed : consumer.subscribe = some consumer') :
    consumer'.Sound start := by
  have added {before : Consumer} (sound : before.Sound start) (delivery : Option Nat) :
      Consumer.Sound { before with tasks := before.tasks ++ [⟨false, .receiving⟩], delivery } start := by
    refine sound.tasks rfl rfl (fun _ kept => kept) ?_ ?_ (fun _ kept => kept) ?_ sound.order
    · rintro received ⟨task, member, phase⟩
      obtain old | new := List.mem_append.mp member
      · exact ⟨task, old, phase⟩
      · obtain rfl := List.mem_singleton.mp new
        simp at phase
    · rintro received (⟨task, member, phase⟩ | abandoned)
      · exact .inl (.inl ⟨task, List.mem_append_left _ member, phase⟩)
      · exact .inl (.inr abandoned)
    · intro task member received phase
      obtain old | new := List.mem_append.mp member
      · exact .inl ⟨task, old, phase⟩
      · obtain rfl := List.mem_singleton.mp new
        cases phase
  rw [← Option.some.inj subscribed]
  cases consumer.delivery with
  | none => exact added sound _
  | some previous => exact added sound.notify _

/-- One task goes on, and what it does is recorded. -/
theorem Sound.goes_on {task : Task} {stop : Bool} {phase phase' : Phase} {event : Event}
    (sound : consumer.Sound start) (found : consumer.tasks[id]? = some task) (was : task.phase = phase)
    (holds : ∀ received, phase' = .calling received ∨ phase' = .pausing received → consumer.Holds received)
    (opened : ∀ received, phase = .calling received ∨ phase = .pausing received →
      phase' = .calling received ∨ phase' = .pausing received ∨ event = .abandoned received ∨ event = .settled received)
    (called : ∀ received, event = .called received → consumer.Holds received)
    (storing : ∀ received, phase' = .storing received → consumer.Holds received ∧ event = .settled received) :
    ((consumer.setTask id ⟨stop, phase'⟩).record event).Sound start := by
  subst was
  have within : id < consumer.tasks.length := (List.getElem?_eq_some_iff.mp found).1
  have new : ⟨stop, phase'⟩ ∈ consumer.tasks.set id ⟨stop, phase'⟩ := List.mem_set within _
  refine sound.tasks rfl rfl (fun _ => List.mem_cons_of_mem _) ?_ ?_ ?_ ?_ ?_
  · intro received inHand
    obtain old | mine := holds_setTask received inHand
    · exact old
    · exact holds received mine
  · rintro received (inHand | abandoned)
    · obtain still | mine := holds_of_setTask found inHand
      · exact .inl (.inl still)
      · obtain calling | pausing | rfl | rfl := opened received mine
        · exact .inl (.inl ⟨_, new, .inl calling⟩)
        · exact .inl (.inl ⟨_, new, .inr pausing⟩)
        · exact .inl (.inr List.mem_cons_self)
        · exact .inr List.mem_cons_self
    · exact .inl (.inr (List.mem_cons_of_mem _ abandoned))
  · intro received handed
    obtain rfl | old := List.mem_cons.mp handed
    · exact (sound.held received (called received rfl)).1
    · exact old
  · intro other member received phase
    obtain old | rfl := List.mem_or_eq_of_mem_set member
    · exact .inl ⟨other, old, phase⟩
    · obtain ⟨inHand, rfl⟩ := storing received phase
      exact .inr ⟨inHand, List.mem_cons_self⟩
  · cases event with
    | called received => exact ⟨(sound.held received (called received rfl)).2.2, sound.order⟩
    | failed received => exact sound.order
    | settled received => exact sound.order
    | abandoned received => exact sound.order

theorem Sound.fail (sound : consumer.Sound start) (failed : consumer.fail id = some consumer') :
    consumer'.Sound start := by
  obtain ⟨task, found, failed⟩ := Option.bind_eq_some_iff.mp failed
  split at failed
  case h_1 received calling =>
    obtain rfl := Option.some.inj failed
    refine sound.goes_on found calling ?_ ?_ ?_ ?_
    · rintro _ (⟨⟨⟩⟩ | ⟨⟨⟩⟩)
      exact ⟨task, List.mem_of_getElem? found, .inl calling⟩
    · rintro _ (⟨⟨⟩⟩ | ⟨⟨⟩⟩)
      exact .inr (.inl rfl)
    · rintro _ ⟨⟩
    · rintro _ ⟨⟩
  case h_2 => cases failed

theorem Sound.settle (sound : consumer.Sound start) (settled : consumer.settle id = some consumer') :
    consumer'.Sound start := by
  obtain ⟨task, found, settled⟩ := Option.bind_eq_some_iff.mp settled
  split at settled
  case h_1 received calling =>
    obtain rfl := Option.some.inj settled
    refine sound.goes_on found calling ?_ ?_ ?_ ?_
    · rintro _ (⟨⟨⟩⟩ | ⟨⟨⟩⟩)
    · rintro _ (⟨⟨⟩⟩ | ⟨⟨⟩⟩)
      exact .inr (.inr (.inr rfl))
    · rintro _ ⟨⟩
    · rintro _ ⟨⟩
      exact ⟨⟨task, List.mem_of_getElem? found, .inl calling⟩, rfl⟩
  case h_2 => cases settled

theorem Sound.retry (sound : consumer.Sound start) (retried : consumer.retry id = some consumer') :
    consumer'.Sound start := by
  obtain ⟨task, found, retried⟩ := Option.bind_eq_some_iff.mp retried
  split at retried
  case h_1 received pausing =>
    obtain rfl := Option.some.inj retried
    have inHand : consumer.Holds received := ⟨task, List.mem_of_getElem? found, .inr pausing⟩
    refine sound.goes_on found pausing ?_ ?_ ?_ ?_
    · rintro _ (⟨⟨⟩⟩ | ⟨⟨⟩⟩)
      exact inHand
    · rintro _ (⟨⟨⟩⟩ | ⟨⟨⟩⟩)
      exact .inl rfl
    · rintro _ ⟨⟩
      exact inHand
    · rintro _ ⟨⟩
  case h_2 => cases retried

theorem Sound.stop (sound : consumer.Sound start) (stopped : consumer.stop id = some consumer') :
    consumer'.Sound start := by
  obtain ⟨task, found, stopped⟩ := Option.bind_eq_some_iff.mp stopped
  split at stopped
  case isFalse => cases stopped
  case isTrue =>
    split at stopped
    case h_1 receiving =>
      obtain rfl := Option.some.inj stopped
      refine sound.tasks rfl rfl (fun _ kept => kept) ?_ ?_ (fun _ kept => kept) ?_ sound.order
      · intro received inHand
        obtain old | ⟨⟨⟩⟩ | ⟨⟨⟩⟩ := holds_setTask received inHand
        exact old
      · rintro received (inHand | abandoned)
        · obtain still | mine | mine := holds_of_setTask found inHand
          · exact .inl (.inl still)
          · exact absurd (receiving.symm.trans mine) (by rintro ⟨⟩)
          · exact absurd (receiving.symm.trans mine) (by rintro ⟨⟩)
        · exact .inl (.inr abandoned)
      · intro other member received phase
        obtain old | rfl := List.mem_or_eq_of_mem_set member
        · exact .inl ⟨other, old, phase⟩
        · cases phase
    case h_2 received pausing =>
      obtain rfl := Option.some.inj stopped
      refine sound.goes_on found pausing ?_ ?_ ?_ ?_
      · rintro _ (⟨⟨⟩⟩ | ⟨⟨⟩⟩)
      · rintro _ (⟨⟨⟩⟩ | ⟨⟨⟩⟩)
        exact .inr (.inr (.inl rfl))
      · rintro _ ⟨⟩
      · rintro _ ⟨⟩
    case h_3 => cases stopped

/-- What the client keeps of its partitions changes, and nothing else. -/
theorem Sound.partitions (sound : consumer.Sound start) {partitions : Nat → Partition}
    (bound : ∀ partition, (partitions partition).assignment = (consumer.partitions partition).assignment ∧
        (partitions partition).position = (consumer.partitions partition).position ∨
      (consumer.partitions partition).assignment < (partitions partition).assignment ∧
        (partitions partition).position = (consumer.partitions partition).committed)
    (stored : ∀ partition, ∀ offset ∈ (partitions partition).stored, consumer.Handled start partition offset)
    (committed : ∀ partition, consumer.Handled start partition (partitions partition).committed) :
    Consumer.Sound { consumer with partitions } start where
  called := sound.called
  bound received handed := by
    obtain ⟨older, within⟩ := sound.bound received handed
    obtain ⟨assignment, position⟩ | ⟨later, _⟩ := bound received.partition
    · show received.assignment ≤ (partitions received.partition).assignment ∧
        (received.assignment = (partitions received.partition).assignment →
          received.offset < (partitions received.partition).position)
      rw [assignment, position]
      exact ⟨older, within⟩
    · exact ⟨Nat.le_of_lt (Nat.lt_of_le_of_lt older later),
        fun same => absurd (same ▸ later) (Nat.not_lt_of_le older)⟩
  held := sound.held
  storing := sound.storing
  position partition offset before message after := by
    obtain ⟨assignment, position⟩ | ⟨_, position⟩ := bound partition
    · have before : offset < (partitions partition).position := before
      rw [position] at before
      obtain done | still := sound.position partition offset before message after
      · exact .inl done
      · refine .inr ?_
        show Open _ ⟨partition, (partitions partition).assignment, offset⟩
        rw [assignment]
        exact still
    · have before : offset < (partitions partition).position := before
      rw [position] at before
      exact .inl (sound.committed partition offset before message after)
  stored := stored
  committed := committed
  order := sound.order

theorem Sound.store {succeeds : Bool} (sound : consumer.Sound start)
    (stored : consumer.store id succeeds = some consumer') : consumer'.Sound start := by
  obtain ⟨task, found, stored⟩ := Option.bind_eq_some_iff.mp stored
  split at stored
  case h_2 => cases stored
  case h_1 received storing =>
    have next : (consumer.setTask id { task with phase := .receiving }).Sound start := by
      refine sound.tasks rfl rfl (fun _ kept => kept) ?_ ?_ (fun _ kept => kept) ?_ sound.order
      · intro received inHand
        obtain old | ⟨⟨⟩⟩ | ⟨⟨⟩⟩ := holds_setTask received inHand
        exact old
      · rintro received (inHand | abandoned)
        · obtain still | mine | mine := holds_of_setTask found inHand
          · exact .inl (.inl still)
          · exact absurd (storing.symm.trans mine) (by rintro ⟨⟩)
          · exact absurd (storing.symm.trans mine) (by rintro ⟨⟩)
        · exact .inl (.inr abandoned)
      · intro other member received phase
        obtain old | rfl := List.mem_or_eq_of_mem_set member
        · exact .inl ⟨other, old, phase⟩
        · cases phase
    split at stored
    case isFalse =>
      obtain rfl := Option.some.inj stored
      exact next
    case isTrue =>
      obtain rfl := Option.some.inj stored
      have handled := sound.storing task (List.mem_of_getElem? found) received storing
      refine next.partitions ?_ ?_ ?_
      · intro partition
        by_cases here : partition = received.partition
        · subst here
          exact .inl (by simp [setTask])
        · exact .inl (by simp [setTask, here])
      · intro partition offset kept
        by_cases here : partition = received.partition
        · subst here
          simp only [Function.update_self, Option.mem_def, Option.some.injEq] at kept
          exact kept ▸ handled
        · rw [Function.update_of_ne here] at kept
          exact sound.stored partition offset kept
      · intro partition
        by_cases here : partition = received.partition
        · subst here
          rw [Function.update_self]
          exact sound.committed received.partition
        · rw [Function.update_of_ne here]
          exact sound.committed partition

theorem Sound.commit (sound : consumer.Sound start) (committed : consumer.commit id = some consumer') :
    consumer'.Sound start := by
  obtain ⟨offset, stored, committed⟩ := Option.bind_eq_some_iff.mp committed
  obtain rfl := Option.some.inj committed
  refine sound.partitions (fun partition => ?_) (fun partition offset' kept => ?_) (fun partition => ?_)
  · by_cases here : partition = id
    · subst here
      exact .inl (by simp)
    · exact .inl (by simp [here])
  · by_cases here : partition = id
    · subst here
      rw [Function.update_self] at kept
      exact sound.stored partition offset' kept
    · rw [Function.update_of_ne here] at kept
      exact sound.stored partition offset' kept
  · by_cases here : partition = id
    · subst here
      rw [Function.update_self]
      exact sound.stored partition offset stored
    · rw [Function.update_of_ne here]
      exact sound.committed partition

theorem Sound.assign (sound : consumer.Sound start) (assigned : consumer.assign id = some consumer') :
    consumer'.Sound start := by
  obtain rfl := Option.some.inj assigned
  refine sound.partitions (fun partition => ?_) (fun partition offset kept => ?_) (fun partition => ?_)
  · by_cases here : partition = id
    · subst here
      exact .inr (by simp)
    · exact .inl (by simp [here])
  · by_cases here : partition = id
    · subst here
      simp at kept
    · rw [Function.update_of_ne here] at kept
      exact sound.stored partition offset kept
  · by_cases here : partition = id
    · subst here
      rw [Function.update_self]
      exact sound.committed partition
    · rw [Function.update_of_ne here]
      exact sound.committed partition

theorem Sound.receive {partition offset : Nat} (sound : consumer.Sound start)
    (meets : consumer.Meets (.receive id partition offset))
    (received : consumer.receive id partition offset = some consumer') : consumer'.Sound start := by
  obtain ⟨task, found, received⟩ := Option.bind_eq_some_iff.mp received
  split at received
  case isFalse => cases received
  case isTrue free =>
    obtain ⟨receiving, notBefore, message, between⟩ := free
    obtain rfl := Option.some.inj received
    have within : id < consumer.tasks.length := (List.getElem?_eq_some_iff.mp found).1
    let r : Received := ⟨partition, (consumer.partitions partition).assignment, offset⟩
    have new : (⟨task.stop, .calling r⟩ : Task) ∈ consumer.tasks.set id ⟨task.stop, .calling r⟩ := List.mem_set within _
    have opened {before : Received} (still : consumer.Open before) :
        Open (((consumer.setPartition partition { consumer.partitions partition with position := offset + 1 }).setTask id
          ⟨task.stop, .calling r⟩).record (.called r)) before := by
      obtain inHand | abandoned := still
      · obtain still | mine | mine := holds_of_setTask found inHand
        · exact .inl still
        · exact absurd (receiving.symm.trans mine) (by rintro ⟨⟩)
        · exact absurd (receiving.symm.trans mine) (by rintro ⟨⟩)
      · exact .inr (List.mem_cons_of_mem _ abandoned)
    -- what is behind the message in its partition is done with
    have handled : consumer.Handled start partition offset := by
      intro before less written after
      obtain early | late := Nat.lt_or_ge before (consumer.partitions partition).position
      · obtain done | still := sound.position partition before early written after
        · exact done
        · exact absurd rfl (meets _ still rfl)
      · exact absurd (written.symm.trans (between before less late)) (by decide)
    have behind : ∀ before, .called before ∈ consumer.history → before.partition = partition →
        before.assignment = (consumer.partitions partition).assignment →
        before.offset = offset ∨ before.offset < offset ∧ .settled before ∈ consumer.history := by
      rintro before handed rfl assignment
      have less := (sound.bound before handed).2 assignment
      obtain settled | still := sound.called before handed
      · exact .inr ⟨Nat.lt_of_lt_of_le less notBefore, settled⟩
      · exact absurd assignment (meets before still rfl)
    refine ⟨fun before handed => ?_, fun before handed => ?_, fun before inHand => ?_,
      fun other member before phase => ?_, fun other before less written after => ?_, fun other bound stored => ?_,
      fun other => ?_, ⟨behind, sound.order⟩⟩
    · obtain ⟨⟨⟩⟩ | old := List.mem_cons.mp handed
      · exact .inr (.inl ⟨_, new, .inl rfl⟩)
      · obtain settled | still := sound.called before old
        · exact .inl (List.mem_cons_of_mem _ settled)
        · exact .inr (opened still)
    · obtain ⟨⟨⟩⟩ | old := List.mem_cons.mp handed
      · simp [record, setTask, setPartition]
      · obtain ⟨older, less⟩ := sound.bound before old
        by_cases here : before.partition = partition
        · subst here
          simp only [record, setTask, setPartition, Function.update_self]
          exact ⟨older, fun same => Nat.lt_succ_of_lt (Nat.lt_of_lt_of_le (less same) notBefore)⟩
        · simp only [record, setTask, setPartition, Function.update_of_ne here]
          exact ⟨older, less⟩
    · obtain old | ⟨⟨⟩⟩ | ⟨⟨⟩⟩ := holds_setTask before inHand
      · have old : consumer.Holds before := old
        obtain ⟨handed, handled', behind'⟩ := sound.held before old
        refine ⟨List.mem_cons_of_mem _ handed, handled'.mono rfl fun _ => List.mem_cons_of_mem _,
          fun earlier handed partition' assignment => ?_⟩
        obtain ⟨⟨⟩⟩ | handed := List.mem_cons.mp handed
        · exact absurd assignment.symm (meets before (.inl old) partition'.symm)
        · obtain same | ⟨less, settled⟩ := behind' earlier handed partition' assignment
          · exact .inl same
          · exact .inr ⟨less, List.mem_cons_of_mem _ settled⟩
      · refine ⟨List.mem_cons_self, handled.mono rfl fun _ => List.mem_cons_of_mem _,
          fun earlier handed partition' assignment => ?_⟩
        obtain ⟨⟨⟩⟩ | handed := List.mem_cons.mp handed
        · exact .inl rfl
        · obtain same | ⟨less, settled⟩ := behind earlier handed partition' assignment
          · exact .inl same
          · exact .inr ⟨less, List.mem_cons_of_mem _ settled⟩
    · obtain old | rfl := List.mem_or_eq_of_mem_set member
      · exact (sound.storing other old before phase).mono rfl fun _ => List.mem_cons_of_mem _
      · cases phase
    · by_cases here : other = partition
      · subst here
        simp only [record, setTask, setPartition, Function.update_self] at less ⊢
        obtain earlier | rfl := Nat.lt_succ_iff_lt_or_eq.mp less
        · obtain ⟨assignment, done⟩ := handled before earlier written after
          exact .inl ⟨assignment, List.mem_cons_of_mem _ done⟩
        · exact .inr (.inl ⟨_, new, .inl rfl⟩)
      · simp only [record, setTask, setPartition, Function.update_of_ne here] at less ⊢
        obtain ⟨assignment, done⟩ | still := sound.position other before less written after
        · exact .inl ⟨assignment, List.mem_cons_of_mem _ done⟩
        · exact .inr (opened still)
    · refine (sound.stored other bound ?_).mono rfl fun _ => List.mem_cons_of_mem _
      by_cases here : other = partition
      · subst here
        simpa [record, setTask, setPartition] using stored
      · simpa [record, setTask, setPartition, here] using stored
    · have kept : ((((consumer.setPartition partition { consumer.partitions partition with position := offset + 1 }).setTask
          id ⟨task.stop, .calling r⟩).record (.called r)).partitions other).committed =
          (consumer.partitions other).committed := by
        by_cases here : other = partition
        · subst here
          simp [record, setTask, setPartition]
        · simp [record, setTask, setPartition, here]
      rw [kept]
      exact (sound.committed other).mono rfl fun _ => List.mem_cons_of_mem _

theorem Sound.step {action : Action} (sound : consumer.Sound start) (meets : consumer.Meets action)
    (stepped : consumer.step action = some consumer') : consumer'.Sound start := by
  cases action with
  | subscribe => exact sound.subscribe stepped
  | cancel task =>
    obtain rfl := Option.some.inj stepped
    exact sound.notify
  | receive task partition offset => exact sound.receive meets stepped
  | fail task => exact sound.fail stepped
  | settle task => exact sound.settle stepped
  | retry task => exact sound.retry stepped
  | stop task => exact sound.stop stepped
  | store task succeeds => exact sound.store stepped
  | commit partition => exact sound.commit stepped
  | assign partition => exact sound.assign stepped

/-- In a run in which no task receives a message behind one of its partition that is still open, no offset stored
passes a message that is not done with, and messages are handed on in order, one that fails again before any
later one. -/
theorem passes_over_no_message {log : Nat → Nat → Bool} {start : Nat → Nat}
    (reach : consumers.Reach Meets (new log start) consumer) :
    (∀ partition, ∀ stored ∈ (consumer.partitions partition).stored, consumer.Handled start partition stored) ∧
      InOrder consumer.history := by
  have sound : consumer.Sound start :=
    reach.invariant (I := fun consumer => consumer.Sound start) (fun _ _ _ sound meets stepped => sound.step meets stepped) (sound_new log start)
  exact ⟨sound.stored, sound.order⟩

/-- A handler that fails once, its task stopped after the message, and another subscription. -/
def retried : List Action :=
  [.subscribe, .receive 0 0 0, .fail 0, .retry 0, .settle 0, .store 0 true, .cancel 0, .stop 0, .subscribe,
    .receive 1 0 1, .settle 1, .store 1 true]

theorem passes_over_no_message_retried : ∃ consumer,
    consumers.exec (fun consumer action => decide (consumer.Meets action)) (new (fun _ _ => true) fun _ => 0) retried =
      some consumer ∧
    (consumer.partitions 0).stored = some 2 ∧ consumer.Handled (fun _ => 0) 0 2 := by
  have possible : (consumers.exec (fun consumer action => decide (consumer.Meets action))
      (new (fun _ _ => true) fun _ => 0) retried).map (fun consumer => (consumer.partitions 0).stored) = some (some 2) := by
    decide
  obtain ⟨consumer, done, stored⟩ := Option.map_eq_some_iff.mp possible
  have reach : consumers.Reach Meets (new (fun _ _ => true) fun _ => 0) consumer :=
    Machine.reach_of_exec (fun _ _ checked => of_decide_eq_true checked) done
  exact ⟨consumer, done, stored, (passes_over_no_message reach).1 0 2 stored⟩

/-- A task is stopped between two tries, and the next one goes on behind the message it gave up. -/
def givenUp : List Action :=
  [.subscribe, .receive 0 0 0, .fail 0, .subscribe, .stop 0, .receive 1 0 1, .settle 1, .store 1 true]

theorem message_passed_over : ∃ consumer,
    consumers.exec (fun _ _ => true) (new (fun _ _ => true) fun _ => 0) givenUp = some consumer ∧
    (consumer.partitions 0).stored = some 2 ∧ ¬consumer.Handled (fun _ => 0) 0 2 := by
  have possible : (consumers.exec (fun _ _ => true) (new (fun _ _ => true) fun _ => 0) givenUp).map
      (fun consumer => (consumer.log 0 0, (consumer.partitions 0).stored, consumer.history)) =
      some (true, some 2, [.settled ⟨0, 0, 1⟩, .called ⟨0, 0, 1⟩, .abandoned ⟨0, 0, 0⟩, .failed ⟨0, 0, 0⟩,
        .called ⟨0, 0, 0⟩]) := by
    decide
  obtain ⟨consumer, done, same⟩ := Option.map_eq_some_iff.mp possible
  obtain ⟨message, stored, history⟩ := by simpa only [Prod.mk.injEq] using same
  refine ⟨consumer, done, stored, fun handled => ?_⟩
  obtain ⟨assignment, settled⟩ := handled 0 (by decide) message (Nat.le_refl 0)
  simp [history] at settled

end Consumer

end AsceticDdd.Bus.Kafka
