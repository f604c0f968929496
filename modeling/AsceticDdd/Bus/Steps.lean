import AsceticDdd.Bus.Attached

/-!
# What a step of the broker can do

To the calls in hand at a topic, to the handlers attached, to a cancel and to a subscription.
-/

namespace AsceticDdd.Bus

variable {M : Type}

namespace Broker

variable {broker broker' : Broker M} {action : Action M}

/-- What a step does to the calls in hand at a topic. -/
inductive HandStep (broker : Broker M) (uri : String) (after : Topic M) : Prop
  | same (calls : after.calls = (broker.topics uri).calls) (running : after.running = (broker.topics uri).running)
  | received (idle : (broker.topics uri).calls = [])
      (admitted : ∀ call ∈ after.calls, ∃ group, broker.Attached call.subscription uri group)
  | begun (waits : (broker.topics uri).running = false) (calls : after.calls = (broker.topics uri).calls)
  | finished (call : Call M) (hand : (broker.topics uri).calls = call :: after.calls)
      (runs : (broker.topics uri).running = true) (free : ¬broker.Cancelling uri)

theorem step_hand (stepped : broker.step action = some broker') (uri : String) :
    HandStep broker uri (broker'.topics uri) := by
  cases action with
  | publish uri' message =>
    simp only [step, Broker.publish, Option.ite_none_right_eq_some, Option.some.injEq] at stepped
    obtain ⟨_, rfl⟩ := stepped
    rw [setTopic_topics]
    split
    case isTrue here => exact .same (by rw [here]) (by rw [here])
    case isFalse => exact .same rfl rfl
  | consumer uri' group =>
    simp only [step, Broker.consumer, Option.ite_none_left_eq_some, Option.some.injEq] at stepped
    obtain ⟨_, rfl⟩ := stepped
    rw [setTopic_topics]
    split
    case isTrue here => exact .same (by rw [here]) (by rw [here])
    case isFalse => exact .same rfl rfl
  | subscribe uri' group =>
    simp only [step, Broker.subscribe, Option.ite_none_right_eq_some, Option.some.injEq] at stepped
    obtain ⟨_, rfl⟩ := stepped
    simp only [setTopic_topics]
    split
    case isTrue here => exact .same (by rw [here]; rfl) (by rw [here]; rfl)
    case isFalse => exact .same rfl rfl
  | receive uri' handlers =>
    simp only [step, Broker.receive] at stepped
    split at stepped
    case h_1 => cases stepped
    case h_2 message queue _ =>
      simp only [Option.ite_none_right_eq_some, Option.some.injEq] at stepped
      obtain ⟨⟨idle, order⟩, rfl⟩ := stepped
      simp only [setTopic_topics]
      split
      case isTrue here =>
        refine .received (here ▸ idle) fun call admitted => ?_
        obtain ⟨id, handler, rfl⟩ := List.mem_map.mp admitted
        exact here ▸ mem_attached.mp (order.mem_iff.mp handler)
      case isFalse => exact .same rfl rfl
  | begin uri' =>
    simp only [step, Broker.begin', Option.ite_none_right_eq_some, Option.some.injEq] at stepped
    obtain ⟨⟨_, waits⟩, rfl⟩ := stepped
    rw [setTopic_topics]
    split
    case isTrue here => exact .begun (here ▸ waits) (by rw [here])
    case isFalse => exact .same rfl rfl
  | finish uri' =>
    simp only [step, Broker.finish] at stepped
    split at stepped
    case h_1 => cases stepped
    case h_2 call calls hand =>
      simp only [Option.ite_none_right_eq_some, Option.some.injEq] at stepped
      obtain ⟨⟨runs, free⟩, rfl⟩ := stepped
      simp only [setTopic_topics]
      split
      case isTrue here => exact .finished call (by rw [here, hand]) (here ▸ runs) (here ▸ free)
      case isFalse => exact .same rfl rfl
  | cancel subscription inside =>
    simp only [step, Broker.cancel, Option.ite_none_right_eq_some, Option.some.injEq] at stepped
    obtain ⟨_, rfl⟩ := stepped
    exact .same rfl rfl
  | take id =>
    obtain ⟨_, _, _, _, _, ⟨_, rfl⟩ | ⟨_, rfl⟩⟩ := take_cases stepped
    · exact .same rfl rfl
    · exact .same rfl rfl
  | detach id =>
    obtain ⟨_, _, subscription, _, _, rfl⟩ := detach_cases stepped
    rw [setPhase_topics, setTopic_topics]
    split
    case isTrue here => exact .same (by rw [here]; rfl) (by rw [here]; rfl)
    case isFalse => exact .same rfl rfl
  | «return» id =>
    obtain ⟨_, _, _, _, _, _, rfl⟩ := return_cases stepped
    exact .same rfl rfl

/-- Only a subscription just made is attached. -/
theorem step_attached (stepped : broker.step action = some broker') {id : Nat} {uri group : String}
    (attached : broker'.Attached id uri group) : broker.Attached id uri group ∨ id = broker.subscriptions.length := by
  cases action with
  | publish uri' message =>
    simp only [step, Broker.publish, Option.ite_none_right_eq_some, Option.some.injEq] at stepped
    obtain ⟨_, rfl⟩ := stepped
    rw [Attached, setTopic_topics] at attached
    split at attached
    case isTrue here => exact .inl (here ▸ attached)
    case isFalse => exact .inl attached
  | consumer uri' group =>
    simp only [step, Broker.consumer, Option.ite_none_left_eq_some, Option.some.injEq] at stepped
    obtain ⟨_, rfl⟩ := stepped
    rw [Attached, setTopic_topics] at attached
    split at attached
    case isTrue here =>
      subst here
      exact .inl (by simpa [Attached] using attached)
    case isFalse => exact .inl attached
  | subscribe uri' group =>
    simp only [step, Broker.subscribe, Option.ite_none_right_eq_some, Option.some.injEq] at stepped
    obtain ⟨_, rfl⟩ := stepped
    simp only [Attached, setTopic_topics] at attached
    split at attached
    case isTrue here =>
      subst here
      obtain ⟨_, made⟩ | before := mem_insert attached
      · exact .inr made
      · exact .inl before
    case isFalse => exact .inl attached
  | receive uri' handlers =>
    simp only [step, Broker.receive] at stepped
    split at stepped
    case h_1 => cases stepped
    case h_2 message queue _ =>
      simp only [Option.ite_none_right_eq_some, Option.some.injEq] at stepped
      obtain ⟨_, rfl⟩ := stepped
      simp only [Attached, setTopic_topics] at attached
      split at attached
      case isTrue here => exact .inl (here ▸ attached)
      case isFalse => exact .inl attached
  | begin uri' =>
    simp only [step, Broker.begin', Option.ite_none_right_eq_some, Option.some.injEq] at stepped
    obtain ⟨_, rfl⟩ := stepped
    rw [Attached, setTopic_topics] at attached
    split at attached
    case isTrue here => exact .inl (here ▸ attached)
    case isFalse => exact .inl attached
  | finish uri' =>
    simp only [step, Broker.finish] at stepped
    split at stepped
    case h_1 => cases stepped
    case h_2 call calls hand =>
      simp only [Option.ite_none_right_eq_some, Option.some.injEq] at stepped
      obtain ⟨_, rfl⟩ := stepped
      simp only [Attached, setTopic_topics] at attached
      split at attached
      case isTrue here => exact .inl (here ▸ attached)
      case isFalse => exact .inl attached
  | cancel subscription inside =>
    simp only [step, Broker.cancel, Option.ite_none_right_eq_some, Option.some.injEq] at stepped
    obtain ⟨_, rfl⟩ := stepped
    exact .inl attached
  | take id =>
    obtain ⟨_, _, _, _, _, ⟨_, rfl⟩ | ⟨_, rfl⟩⟩ := take_cases stepped
    · exact .inl attached
    · exact .inl attached
  | detach id =>
    obtain ⟨_, _, subscription, _, _, rfl⟩ := detach_cases stepped
    rw [Attached, setPhase_topics, setTopic_topics] at attached
    split at attached
    case isTrue here => exact .inl (here ▸ (mem_clear.mp attached).1)
    case isFalse => exact .inl attached
  | «return» id =>
    obtain ⟨_, _, _, _, _, _, rfl⟩ := return_cases stepped
    exact .inl attached

/-- Whatever is not a step of a cancel leaves the cancels as they are. -/
def Other : Action M → Prop
  | .cancel _ _ | .take _ | .detach _ | .return _ => False
  | _ => True

theorem step_other (stepped : broker.step action = some broker') (other : Other action) :
    broker'.cancels = broker.cancels := by
  cases action with
  | publish uri message =>
    simp only [step, Broker.publish, Option.ite_none_right_eq_some, Option.some.injEq] at stepped
    obtain ⟨_, rfl⟩ := stepped
    rfl
  | consumer uri group =>
    simp only [step, Broker.consumer, Option.ite_none_left_eq_some, Option.some.injEq] at stepped
    obtain ⟨_, rfl⟩ := stepped
    rfl
  | subscribe uri group =>
    simp only [step, Broker.subscribe, Option.ite_none_right_eq_some, Option.some.injEq] at stepped
    obtain ⟨_, rfl⟩ := stepped
    rfl
  | receive uri handlers =>
    simp only [step, Broker.receive] at stepped
    split at stepped
    case h_1 => cases stepped
    case h_2 =>
      simp only [Option.ite_none_right_eq_some, Option.some.injEq] at stepped
      obtain ⟨_, rfl⟩ := stepped
      rfl
  | begin uri =>
    simp only [step, Broker.begin', Option.ite_none_right_eq_some, Option.some.injEq] at stepped
    obtain ⟨_, rfl⟩ := stepped
    rfl
  | finish uri =>
    simp only [step, Broker.finish] at stepped
    split at stepped
    case h_1 => cases stepped
    case h_2 =>
      simp only [Option.ite_none_right_eq_some, Option.some.injEq] at stepped
      obtain ⟨_, rfl⟩ := stepped
      rfl
  | cancel _ _ => cases other
  | take _ => cases other
  | detach _ => cases other
  | «return» _ => cases other

/-- What a step does to the cancel `i`. -/
inductive CancelStep (broker broker' : Broker M) (action : Action M) (i : Nat) (after : Cancel) : Prop
  | same (before : broker.cancels[i]? = some after)
  | made (phase : after.phase = .called) (fresh : i = broker.cancels.length)
      (known : after.subscription < broker.subscriptions.length)
      (inHand : ∀ call ∈ after.inside.here, (broker.topics call.1).Runs call.2) (topics : broker'.topics = broker.topics)
  | taken (cancel : Cancel) (before : broker.cancels[i]? = some cancel) (phase : cancel.phase = .called)
      (same : after = { cancel with phase := .detaching })
  | skipped (cancel : Cancel) (before : broker.cancels[i]? = some cancel) (phase : cancel.phase = .called)
      (taken : action = .take i)
      (late : ∃ subscription ∈ broker.subscriptions[cancel.subscription]?, subscription.armed = false)
      (same : after = { cancel with phase := .waiting })
  | detached (cancel : Cancel) (before : broker.cancels[i]? = some cancel) (phase : cancel.phase = .detaching)
      (detaches : broker.detach i = some broker') (same : after = { cancel with phase := .waiting })
  | returned (cancel : Cancel) (before : broker.cancels[i]? = some cancel) (phase : cancel.phase = .waiting)
      (returns : action = .return i)
      (free : ∃ subscription ∈ broker.subscriptions[cancel.subscription]?,
        cancel.inside.isInside ∨ subscription.inFlight = 0)
      (same : after = { cancel with phase := .returned })

theorem setPhase_cancels {i j : Nat} {phase : Phase} {after : Cancel}
    (found : (broker.setPhase j phase).cancels[i]? = some after) :
    (i ≠ j ∧ broker.cancels[i]? = some after) ∨
      i = j ∧ ∃ cancel, broker.cancels[i]? = some cancel ∧ after = { cancel with phase } := by
  rw [setPhase, List.getElem?_modify] at found
  obtain ⟨cancel, before, same⟩ := Option.map_eq_some_iff.mp found
  split at same
  case isTrue here => exact .inr ⟨here.symm, cancel, before, same.symm⟩
  case isFalse elsewhere => exact .inl ⟨Ne.symm elsewhere, same ▸ before⟩

theorem step_cancel (stepped : broker.step action = some broker') {i : Nat} {after : Cancel}
    (found : broker'.cancels[i]? = some after) : CancelStep broker broker' action i after := by
  cases action with
  | cancel subscription inside =>
    simp only [step, Broker.cancel, Option.ite_none_right_eq_some, Option.some.injEq] at stepped
    obtain ⟨⟨known, inHand⟩, rfl⟩ := stepped
    rw [List.getElem?_append] at found
    split at found
    case isTrue => exact .same found
    case isFalse beyond =>
      have last : i - broker.cancels.length = 0 := by
        have bound := (List.getElem?_eq_some_iff.mp found).1
        simp only [List.length_cons, List.length_nil] at bound
        omega
      rw [last] at found
      cases found
      exact .made rfl (by omega) known inHand rfl
  | take j =>
    obtain ⟨cancel, before, subscription, known, phase, ⟨_, rfl⟩ | ⟨late, rfl⟩⟩ := take_cases stepped
    · obtain ⟨_, old⟩ | ⟨rfl, cancel', before', same⟩ := setPhase_cancels found
      · exact .same old
      · obtain rfl : cancel' = cancel := Option.some.inj (before'.symm.trans before)
        exact .taken cancel' before phase same
    · obtain ⟨_, old⟩ | ⟨rfl, cancel', before', same⟩ := setPhase_cancels found
      · exact .same old
      · obtain rfl : cancel' = cancel := Option.some.inj (before'.symm.trans before)
        exact .skipped cancel' before phase rfl ⟨subscription, known, late⟩ same
  | detach j =>
    have detaches : broker.detach j = some broker' := stepped
    obtain ⟨cancel, before, subscription, known, phase, rfl⟩ := detach_cases stepped
    obtain ⟨_, old⟩ | ⟨rfl, cancel', before', same⟩ := setPhase_cancels found
    · exact .same old
    · obtain rfl : cancel' = cancel := Option.some.inj (before'.symm.trans before)
      exact .detached cancel' before phase detaches same
  | «return» j =>
    obtain ⟨cancel, before, subscription, known, phase, free, rfl⟩ := return_cases stepped
    obtain ⟨_, old⟩ | ⟨rfl, cancel', before', same⟩ := setPhase_cancels found
    · exact .same old
    · obtain rfl : cancel' = cancel := Option.some.inj (before'.symm.trans before)
      exact .returned cancel' before phase rfl ⟨subscription, known, free⟩ same
  | publish _ _ => exact .same (step_other stepped trivial ▸ found)
  | consumer _ _ => exact .same (step_other stepped trivial ▸ found)
  | subscribe _ _ => exact .same (step_other stepped trivial ▸ found)
  | receive _ _ => exact .same (step_other stepped trivial ▸ found)
  | begin _ => exact .same (step_other stepped trivial ▸ found)
  | finish _ => exact .same (step_other stepped trivial ▸ found)

theorem step_cancels_length (stepped : broker.step action = some broker') :
    broker.cancels.length ≤ broker'.cancels.length := by
  cases action with
  | cancel subscription inside =>
    simp only [step, Broker.cancel, Option.ite_none_right_eq_some, Option.some.injEq] at stepped
    obtain ⟨_, rfl⟩ := stepped
    simp
  | take j =>
    obtain ⟨_, _, _, _, _, ⟨_, rfl⟩ | ⟨_, rfl⟩⟩ := take_cases stepped
    · simp [setPhase]
    · simp [setPhase]
  | detach j =>
    obtain ⟨_, _, _, _, _, rfl⟩ := detach_cases stepped
    simp [setPhase]
  | «return» j =>
    obtain ⟨_, _, _, _, _, _, rfl⟩ := return_cases stepped
    simp [setPhase]
  | publish _ _ => exact Nat.le_of_eq (by rw [step_other stepped trivial])
  | consumer _ _ => exact Nat.le_of_eq (by rw [step_other stepped trivial])
  | subscribe _ _ => exact Nat.le_of_eq (by rw [step_other stepped trivial])
  | receive _ _ => exact Nat.le_of_eq (by rw [step_other stepped trivial])
  | begin _ => exact Nat.le_of_eq (by rw [step_other stepped trivial])
  | finish _ => exact Nat.le_of_eq (by rw [step_other stepped trivial])

theorem foldl_admitCall_length (handlers : List Nat) (subscriptions : List Subscription) :
    (handlers.foldl admitCall subscriptions).length = subscriptions.length := by
  induction handlers generalizing subscriptions with
  | nil => rfl
  | cons first handlers ih => rw [List.foldl_cons, ih, admitCall, List.length_modify]

theorem step_subscriptions_length (stepped : broker.step action = some broker') :
    broker.subscriptions.length ≤ broker'.subscriptions.length := by
  cases action with
  | publish uri message =>
    simp only [step, Broker.publish, Option.ite_none_right_eq_some, Option.some.injEq] at stepped
    obtain ⟨_, rfl⟩ := stepped
    exact Nat.le_refl _
  | consumer uri group =>
    simp only [step, Broker.consumer, Option.ite_none_left_eq_some, Option.some.injEq] at stepped
    obtain ⟨_, rfl⟩ := stepped
    exact Nat.le_refl _
  | subscribe uri group =>
    simp only [step, Broker.subscribe, Option.ite_none_right_eq_some, Option.some.injEq] at stepped
    obtain ⟨_, rfl⟩ := stepped
    simp
  | receive uri handlers =>
    simp only [step, Broker.receive] at stepped
    split at stepped
    case h_1 => cases stepped
    case h_2 =>
      simp only [Option.ite_none_right_eq_some, Option.some.injEq] at stepped
      obtain ⟨_, rfl⟩ := stepped
      exact Nat.le_of_eq (foldl_admitCall_length ..).symm
  | begin uri =>
    simp only [step, Broker.begin', Option.ite_none_right_eq_some, Option.some.injEq] at stepped
    obtain ⟨_, rfl⟩ := stepped
    exact Nat.le_refl _
  | finish uri =>
    simp only [step, Broker.finish] at stepped
    split at stepped
    case h_1 => cases stepped
    case h_2 =>
      simp only [Option.ite_none_right_eq_some, Option.some.injEq] at stepped
      obtain ⟨_, rfl⟩ := stepped
      simp [countOut]
  | cancel subscription inside =>
    simp only [step, Broker.cancel, Option.ite_none_right_eq_some, Option.some.injEq] at stepped
    obtain ⟨_, rfl⟩ := stepped
    exact Nat.le_refl _
  | take j =>
    obtain ⟨_, _, _, _, _, ⟨_, rfl⟩ | ⟨_, rfl⟩⟩ := take_cases stepped
    · simp [setSubscription]
    · exact Nat.le_refl _
  | detach j =>
    obtain ⟨_, _, _, _, _, rfl⟩ := detach_cases stepped
    exact Nat.le_refl _
  | «return» j =>
    obtain ⟨_, _, _, _, _, _, rfl⟩ := return_cases stepped
    exact Nat.le_refl _

/-- What a step does to a subscription: it is made, or it keeps its topic and its group, and its `detach` is taken
by a cancel that is to run it. -/
theorem step_subscription (stepped : broker.step action = some broker') {id : Nat} {after : Subscription}
    (found : broker'.subscriptions[id]? = some after) :
    (id = broker.subscriptions.length ∧ after.armed = true) ∨
      ∃ before, broker.subscriptions[id]? = some before ∧ after.uri = before.uri ∧ after.group = before.group ∧
        (after.armed = before.armed ∨ ∃ (i : Nat) (cancel : Cancel), broker'.cancels[i]? = some cancel ∧
          cancel.subscription = id ∧ cancel.phase = .detaching) := by
  cases action with
  | publish uri message =>
    simp only [step, Broker.publish, Option.ite_none_right_eq_some, Option.some.injEq] at stepped
    obtain ⟨_, rfl⟩ := stepped
    exact .inr ⟨after, found, rfl, rfl, .inl rfl⟩
  | consumer uri group =>
    simp only [step, Broker.consumer, Option.ite_none_left_eq_some, Option.some.injEq] at stepped
    obtain ⟨_, rfl⟩ := stepped
    exact .inr ⟨after, found, rfl, rfl, .inl rfl⟩
  | subscribe uri group =>
    simp only [step, Broker.subscribe, Option.ite_none_right_eq_some, Option.some.injEq] at stepped
    obtain ⟨_, rfl⟩ := stepped
    have found : (broker.subscriptions ++ [⟨uri, group, true, 0⟩])[id]? = some after := found
    rw [List.getElem?_append] at found
    split at found
    case isTrue => exact .inr ⟨after, found, rfl, rfl, .inl rfl⟩
    case isFalse beyond =>
      have last : id - broker.subscriptions.length = 0 := by
        have bound := (List.getElem?_eq_some_iff.mp found).1
        simp only [List.length_cons, List.length_nil] at bound
        omega
      rw [last] at found
      cases found
      exact .inl ⟨by omega, rfl⟩
  | receive uri handlers =>
    simp only [step, Broker.receive] at stepped
    split at stepped
    case h_1 => cases stepped
    case h_2 =>
      simp only [Option.ite_none_right_eq_some, Option.some.injEq] at stepped
      obtain ⟨_, rfl⟩ := stepped
      obtain ⟨before, known, rfl⟩ := Option.map_eq_some_iff.mp ((foldl_admitCall ..).symm.trans found)
      exact .inr ⟨before, known, rfl, rfl, .inl rfl⟩
  | begin uri =>
    simp only [step, Broker.begin', Option.ite_none_right_eq_some, Option.some.injEq] at stepped
    obtain ⟨_, rfl⟩ := stepped
    exact .inr ⟨after, found, rfl, rfl, .inl rfl⟩
  | finish uri =>
    simp only [step, Broker.finish] at stepped
    split at stepped
    case h_1 => cases stepped
    case h_2 call calls _ =>
      simp only [Option.ite_none_right_eq_some, Option.some.injEq] at stepped
      obtain ⟨_, rfl⟩ := stepped
      obtain ⟨before, known, rfl⟩ := Option.map_eq_some_iff.mp ((List.getElem?_modify ..).symm.trans found)
      refine .inr ⟨before, known, ?_⟩
      by_cases counted : call.subscription = id <;> simp [counted]
  | cancel subscription inside =>
    simp only [step, Broker.cancel, Option.ite_none_right_eq_some, Option.some.injEq] at stepped
    obtain ⟨_, rfl⟩ := stepped
    exact .inr ⟨after, found, rfl, rfl, .inl rfl⟩
  | take j =>
    obtain ⟨cancel, before, subscription, known, _, ⟨_, rfl⟩ | ⟨_, rfl⟩⟩ := take_cases stepped
    · have set : (broker.subscriptions.set cancel.subscription { subscription with armed := false })[id]? =
          some after := found
      rw [List.getElem?_set'] at set
      split at set
      case isTrue same =>
        subst same
        rw [Option.mem_def.mp known] at set
        cases set
        refine .inr ⟨subscription, known, rfl, rfl, .inr ⟨j, { cancel with phase := .detaching }, ?_, rfl, rfl⟩⟩
        rw [setPhase, setSubscription_cancels, List.getElem?_modify, Option.mem_def.mp before]
        simp
      case isFalse => exact .inr ⟨after, set, rfl, rfl, .inl rfl⟩
    · exact .inr ⟨after, found, rfl, rfl, .inl rfl⟩
  | detach j =>
    obtain ⟨_, _, _, _, _, rfl⟩ := detach_cases stepped
    exact .inr ⟨after, found, rfl, rfl, .inl rfl⟩
  | «return» j =>
    obtain ⟨_, _, _, _, _, _, rfl⟩ := return_cases stepped
    exact .inr ⟨after, found, rfl, rfl, .inl rfl⟩

end Broker

end AsceticDdd.Bus
