import AsceticDdd.Bus.Cancelled

/-!
# A cancel returns

Once its handler is detached no call of it is admitted any more, and those in hand are made one after another: a
cancel returns if every handler's call that runs does.
-/

namespace AsceticDdd.Bus

open Concurrency

variable {M : Type}

namespace Broker

variable {broker broker' : Broker M} {action : Action M}

/-- The broker's two invariants. -/
structure Good (broker : Broker M) : Prop where
  sound : broker.Sound
  settled : broker.Settled

theorem good_new (capacity : Nat) : (new capacity : Broker M).Good := ⟨sound_new capacity, settled_new capacity⟩

theorem Good.step (good : broker.Good) (meets : broker.Meets action) (stepped : broker.step action = some broker') :
    broker'.Good := ⟨good.sound.step stepped, good.settled.step good.sound meets stepped⟩

/-- The cancel `i` is at this point. -/
def At (broker : Broker M) (i id : Nat) (inside : Within) (phase : Phase) : Prop :=
  broker.cancels[i]? = some ⟨id, inside, phase⟩

/-- The next step of a cancel. -/
def next (i : Nat) : Phase → Option (Action M)
  | .called => some (.take i)
  | .detaching => some (.detach i)
  | .waiting => some (.return i)
  | .returned => none

variable {i id : Nat} {inside : Within} {phase : Phase}

/-- The ways on from a phase. -/
inductive Follows : Phase → Phase → Prop
  | taken : Follows .called .detaching
  | skipped : Follows .called .waiting
  | detached : Follows .detaching .waiting
  | returned : Follows .waiting .returned

/-- A cancel is where it was, or one step on. -/
theorem At.step (here : broker.At i id inside phase) (stepped : broker.step action = some broker') :
    broker'.At i id inside phase ∨ ∃ phase', Follows phase phase' ∧ broker'.At i id inside phase' ∧
      (phase = .waiting → ∃ subscription ∈ broker.subscriptions[id]?, inside.isInside ∨ subscription.inFlight = 0) := by
  have stays := Nat.lt_of_lt_of_le (List.getElem?_eq_some_iff.mp here).1 (step_cancels_length stepped)
  have after := List.getElem?_eq_getElem stays
  cases step_cancel stepped after with
  | same before => exact .inl (after.trans (before.symm.trans here))
  | made _ fresh => exact absurd (List.getElem?_eq_some_iff.mp here).1 (by omega)
  | taken cancel before called same =>
    obtain rfl := Option.some.inj (before.symm.trans here)
    obtain rfl : phase = .called := called
    exact .inr ⟨_, .taken, after.trans (congrArg some same), by rintro ⟨⟩⟩
  | skipped cancel before called _ _ same =>
    obtain rfl := Option.some.inj (before.symm.trans here)
    obtain rfl : phase = .called := called
    exact .inr ⟨_, .skipped, after.trans (congrArg some same), by rintro ⟨⟩⟩
  | detached cancel before detaching _ same =>
    obtain rfl := Option.some.inj (before.symm.trans here)
    obtain rfl : phase = .detaching := detaching
    exact .inr ⟨_, .detached, after.trans (congrArg some same), by rintro ⟨⟩⟩
  | returned cancel before waiting _ free same =>
    obtain rfl := Option.some.inj (before.symm.trans here)
    obtain rfl : phase = .waiting := waiting
    exact .inr ⟨_, .returned, after.trans (congrArg some same), fun _ => free⟩

/-- The cancel's own step takes it on. -/
theorem next_moves (mine : next i phase = some action) (stepped : broker.step action = some broker') :
    ¬broker'.At i id inside phase := by
  intro here
  have moved {phase' : Phase} {before : Broker M} (found : (before.setPhase i phase').At i id inside phase) :
      phase = phase' := by
    obtain ⟨elsewhere, _⟩ | ⟨_, cancel, _, same⟩ := setPhase_cancels found
    · exact absurd rfl elsewhere
    · exact congrArg Cancel.phase same
  cases phase with
  | called =>
    obtain rfl := Option.some.inj mine
    obtain ⟨_, _, _, _, _, ⟨_, rfl⟩ | ⟨_, rfl⟩⟩ := take_cases stepped
    · cases moved here
    · cases moved here
  | detaching =>
    obtain rfl := Option.some.inj mine
    obtain ⟨_, _, _, _, _, rfl⟩ := detach_cases stepped
    cases moved here
  | waiting =>
    obtain rfl := Option.some.inj mine
    obtain ⟨_, _, _, _, _, _, rfl⟩ := return_cases stepped
    cases moved here
  | returned => cases mine

/-- The cancel's subscription. -/
theorem Good.subscription (good : broker.Good) (here : broker.At i id inside phase) :
    ∃ subscription, broker.subscriptions[id]? = some subscription :=
  ⟨_, List.getElem?_eq_getElem (good.settled.known _ (List.mem_of_getElem? here))⟩

theorem Good.take_possible (good : broker.Good) (here : broker.At i id inside .called) : (broker.take i).isSome := by
  obtain ⟨subscription, known⟩ := good.subscription here
  have here : broker.cancels[i]? = some ⟨id, inside, .called⟩ := here
  simp only [take, here, Option.bind_eq_bind, Option.bind_some, known]
  cases subscription.armed <;> rfl

theorem Good.detach_possible (good : broker.Good) (here : broker.At i id inside .detaching) :
    (broker.detach i).isSome := by
  obtain ⟨subscription, known⟩ := good.subscription here
  have here : broker.cancels[i]? = some ⟨id, inside, .detaching⟩ := here
  simp only [detach, here, Option.bind_eq_bind, Option.bind_some, known]
  rfl

theorem Good.return_possible (good : broker.Good) (here : broker.At i id inside .waiting)
    (free : inside.isInside ∨ ∀ subscription ∈ broker.subscriptions[id]?, subscription.inFlight = 0) :
    (broker.return' i).isSome := by
  obtain ⟨subscription, known⟩ := good.subscription here
  have here : broker.cancels[i]? = some ⟨id, inside, .waiting⟩ := here
  have free : inside.isInside ∨ subscription.inFlight = 0 := free.imp_right fun idle => idle subscription known
  simp only [return', here, Option.bind_eq_bind, Option.bind_some, known, free, and_self, if_true]
  rfl

/-- No call of the subscription's handler is in hand. -/
def Idle (broker : Broker M) (id : Nat) : Prop :=
  ∀ uri, ∀ call ∈ (broker.topics uri).calls, call.subscription ≠ id

theorem Idle.inFlight (idle : broker.Idle id) (sound : broker.Sound) :
    ∀ subscription ∈ broker.subscriptions[id]?, subscription.inFlight = 0 := by
  intro subscription known
  rw [sound.counted id subscription known, List.count_eq_zero]
  intro admitted
  obtain ⟨call, member, same⟩ := List.mem_map.mp admitted
  exact idle _ call member same

theorem Idle.step (idle : broker.Idle id) (off : broker.Off id) (stepped : broker.step action = some broker') :
    broker'.Idle id := by
  intro uri call admitted
  cases step_hand stepped uri with
  | same calls => exact idle uri call (calls ▸ admitted)
  | received _ attached =>
    rintro rfl
    obtain ⟨group, attached⟩ := attached call admitted
    exact off uri group attached
  | begun _ calls => exact idle uri call (calls ▸ admitted)
  | finished first hand => exact idle uri call (hand ▸ List.mem_cons_of_mem _ admitted)

/-- What is left of the calls in hand: each is to begin and to be over. -/
def left (topic : Topic M) : Nat := 2 * topic.calls.length - topic.running.toNat

/-- A step at the topic makes what is left less, and the others leave it or make it less. -/
theorem left_step (stepped : broker.step action = some broker') {uri : String}
    (busy : (broker.topics uri).calls ≠ []) :
    left (broker'.topics uri) ≤ left (broker.topics uri) ∧
      (action = .begin uri ∨ action = .finish uri → left (broker'.topics uri) < left (broker.topics uri)) := by
  have some' : 0 < (broker.topics uri).calls.length := List.length_pos_iff.mpr busy
  have less : action = .begin uri ∨ action = .finish uri → left (broker'.topics uri) < left (broker.topics uri) := by
    rintro (rfl | rfl)
    · simp only [Broker.step, Broker.begin', Option.ite_none_right_eq_some, Option.some.injEq] at stepped
      obtain ⟨⟨_, waits⟩, rfl⟩ := stepped
      simp only [setTopic_topics, if_true, left, waits, Bool.toNat_true, Bool.toNat_false]
      omega
    · simp only [Broker.step, Broker.finish] at stepped
      split at stepped
      case h_1 => cases stepped
      case h_2 call calls hand =>
        simp only [Option.ite_none_right_eq_some, Option.some.injEq] at stepped
        obtain ⟨⟨runs, _⟩, rfl⟩ := stepped
        simp only [setTopic_topics, if_true, left, runs, hand, List.length_cons, Bool.toNat_true, Bool.toNat_false]
        omega
  refine ⟨?_, less⟩
  cases step_hand stepped uri with
  | same calls running => simp [left, calls, running]
  | received idle => exact absurd idle busy
  | begun waits calls =>
    simp only [left, calls, waits, Bool.toNat_false]
    omega
  | finished first hand runs =>
    simp only [left, hand, List.length_cons, runs, Bool.toNat_true]
    omega

end Broker

open Broker

/-- Every call that a task has in hand goes on, and a cancel takes the step that it goes on being able to. -/
structure Fair (b : brokers.Behaviour (Meets (M := M))) : Prop where
  deliveries : ∀ uri n, ((b.state n).topics uri).calls ≠ [] →
    ∃ m, n ≤ m ∧ (b.action m = some (.begin uri) ∨ b.action m = some (.finish uri))
  cancels : ∀ i n phase action, next i phase = some action →
    (∀ m, n ≤ m → (∃ id inside, (b.state m).At i id inside phase) ∧ (step (b.state m) action).isSome) →
    ∃ m, n ≤ m ∧ b.action m = some action

namespace Fair

variable {b : brokers.Behaviour (Meets (M := M))} {i id : Nat} {inside : Within}

theorem good (start : (b.state 0).Good) (n : Nat) : (b.state n).Good :=
  b.always (fun _ _ _ good meets stepped => good.step meets stepped) start (Nat.zero_le n)

/-- A cancel that can take its next step for as long as it does not, takes it. -/
theorem moves (fair : Fair b) {phase : Phase} {action : Action M} (R : Broker M → Prop) (mine : next i phase = some action)
    (kept : ∀ s a s', s.Good → s.At i id inside phase → R s → step s a = some s' → R s')
    (possible : ∀ s, s.Good → s.At i id inside phase → R s → (step s action).isSome) {n : Nat}
    (good : (b.state n).Good) (here : (b.state n).At i id inside phase) (holds : R (b.state n)) :
    ∃ m, n ≤ m ∧ (b.state m).Good ∧ ∃ phase', Follows phase phase' ∧ (b.state m).At i id inside phase' := by
  refine b.leads_to (fun s => s.Good ∧ s.At i id inside phase ∧ R s)
    (fun s => s.Good ∧ ∃ phase', Follows phase phase' ∧ s.At i id inside phase') (· = action) (fun _ => 0) ?_ ?_ ?_ ⟨good, here, holds⟩
  · rintro s a s' ⟨good, here, holds⟩ meets stepped
    obtain stays | ⟨phase', follows, there, _⟩ := here.step stepped
    · exact .inr ⟨⟨good.step meets stepped, stays, kept s a s' good here holds stepped⟩, Nat.le_refl _⟩
    · exact .inl ⟨good.step meets stepped, phase', follows, there⟩
  · rintro s a s' ⟨good, here, holds⟩ rfl meets stepped
    obtain stays | ⟨phase', follows, there, _⟩ := here.step stepped
    · exact absurd stays (next_moves mine stepped)
    · exact .inl ⟨good.step meets stepped, phase', follows, there⟩
  · intro n holds
    by_cases always : ∀ m, n ≤ m → (b.state m).Good ∧ (b.state m).At i id inside phase ∧ R (b.state m)
    case pos =>
      obtain ⟨m, later, taken⟩ := fair.cancels i n phase action mine fun m later =>
        ⟨⟨id, inside, (always m later).2.1⟩, possible _ (always m later).1 (always m later).2.1 (always m later).2.2⟩
      exact ⟨m, later, .inl ⟨action, taken, rfl⟩⟩
    case neg =>
      obtain ⟨m, fails⟩ := Classical.not_forall.mp always
      obtain ⟨later, fails⟩ := Classical.not_imp.mp fails
      exact ⟨m, later, .inr fails⟩

/-- The calls of a handler that is detached come to an end. -/
theorem drained (fair : Fair b) {n : Nat} (good : (b.state n).Good) (here : (b.state n).At i id .nowhere .waiting) :
    ∃ m, n ≤ m ∧ (b.state m).Good ∧ (b.state m).At i id .nowhere .waiting ∧ (b.state m).Idle id := by
  by_cases idle : (b.state n).Idle id
  case pos => exact ⟨n, Nat.le_refl n, good, here, idle⟩
  case neg =>
    simp only [Idle, not_forall, not_not] at idle
    obtain ⟨uri, call, admitted, same⟩ := idle
    obtain ⟨subscription, known⟩ := good.subscription here
    have home := (good.sound.count_pos known admitted same).1
    refine b.leads_to (fun s => s.Good ∧ s.At i id .nowhere .waiting ∧
        (∃ call ∈ (s.topics uri).calls, call.subscription = id) ∧ ∃ subscription ∈ s.subscriptions[id]?, subscription.uri = uri)
      (fun s => s.Good ∧ s.At i id .nowhere .waiting ∧ s.Idle id)
      (fun a => a = .begin uri ∨ a = .finish uri) (fun s => left (s.topics uri)) ?_ ?_ ?_
      ⟨good, here, ⟨call, admitted, same⟩, subscription, known, home⟩
    · rintro s a s' ⟨good, here, ⟨call, admitted, same⟩, subscription, known, home⟩ meets stepped
      have busy : (s.topics uri).calls ≠ [] := List.ne_nil_of_mem admitted
      have good' := good.step meets stepped
      obtain stays | ⟨_, follows, _, free⟩ := here.step stepped
      · obtain ⟨subscription', known'⟩ := good'.subscription stays
        have home' : subscription'.uri = uri := by
          obtain ⟨made, _⟩ | ⟨before, known'', same', _⟩ := step_subscription stepped known'
          · exact absurd (List.getElem?_eq_some_iff.mp known).1 (by omega)
          · obtain rfl : before = subscription := Option.some.inj (known''.symm.trans known)
            exact same'.trans home
        by_cases still : ∃ call ∈ (s'.topics uri).calls, call.subscription = id
        case pos => exact .inr ⟨⟨good', stays, still, subscription', known', home'⟩, (left_step stepped busy).1⟩
        case neg =>
          refine .inl ⟨good', stays, fun uri' call' admitted' mine => still ?_⟩
          obtain rfl : uri' = uri := (good'.sound.count_pos known' admitted' mine).1.symm.trans home'
          exact ⟨call', admitted', mine⟩
      · obtain ⟨subscription', known', free⟩ := free rfl
        have counted := (good.sound.count_pos known' admitted same).2
        simp [Within.isInside] at free
        omega
    · rintro s a s' ⟨_, _, ⟨call, admitted, _⟩, _⟩ helps _ stepped
      exact .inr ((left_step stepped (List.ne_nil_of_mem admitted)).2 helps)
    · rintro n ⟨_, _, ⟨call, admitted, _⟩, _⟩
      obtain ⟨m, later, taken | taken⟩ := fair.deliveries uri n (List.ne_nil_of_mem admitted)
      · exact ⟨m, later, .inl ⟨_, taken, .inl rfl⟩⟩
      · exact ⟨m, later, .inl ⟨_, taken, .inr rfl⟩⟩

/-- A cancel that waits returns: inside a call at once, elsewhere when the calls are over. -/
theorem waiting_returns (fair : Fair b) {n : Nat} (good : (b.state n).Good)
    (here : (b.state n).At i id inside .waiting) : ∃ m, n ≤ m ∧ (b.state m).At i id inside .returned := by
  have freed {k : Nat} (good : (b.state k).Good) (here : (b.state k).At i id inside .waiting)
      (free : inside.isInside ∨ (b.state k).Idle id) : ∃ m, k ≤ m ∧ (b.state m).At i id inside .returned := by
    have mine : next i .waiting = some (.return i : Action M) := rfl
    obtain ⟨m, later, _, _, ⟨⟩, there⟩ := fair.moves (fun s => inside.isInside ∨ s.Idle id) mine
      (fun s a s' good here free stepped => free.imp_right fun idle =>
        idle.step (good.settled.off _ (List.mem_of_getElem? here) (.inl rfl)) stepped)
      (fun s good here free => good.return_possible here (free.imp_right fun idle => idle.inFlight good.sound))
      good here free
    exact ⟨m, later, there⟩
  cases inside with
  | call _ _ | elsewhere => exact freed good here (.inl rfl)
  | nowhere =>
    obtain ⟨m, later, good, here, idle⟩ := fair.drained good here
    obtain ⟨k, after, there⟩ := freed good here (.inr idle)
    exact ⟨k, Nat.le_trans later after, there⟩

theorem detaching_returns (fair : Fair b) {n : Nat} (good : (b.state n).Good)
    (here : (b.state n).At i id inside .detaching) : ∃ m, n ≤ m ∧ (b.state m).At i id inside .returned := by
  have mine : next i .detaching = some (.detach i : Action M) := rfl
  obtain ⟨m, later, good, _, ⟨⟩, there⟩ := fair.moves (fun _ => True) mine
    (fun _ _ _ _ _ _ _ => trivial) (fun s good here _ => good.detach_possible here) good here trivial
  obtain ⟨k, after, there⟩ := fair.waiting_returns good there
  exact ⟨k, Nat.le_trans later after, there⟩

/-- Every cancel returns, in a run in which every call of a handler does. -/
theorem returns (fair : Fair b) (start : (b.state 0).Good) {n : Nat} {phase : Phase}
    (here : (b.state n).At i id inside phase) : ∃ m, n ≤ m ∧ (b.state m).At i id inside .returned := by
  have good := good start n
  cases phase with
  | returned => exact ⟨n, Nat.le_refl n, here⟩
  | waiting => exact fair.waiting_returns good here
  | detaching => exact fair.detaching_returns good here
  | called =>
    have mine : next i .called = some (.take i : Action M) := rfl
    obtain ⟨m, later, good, phase', follows, there⟩ := fair.moves (fun _ => True) mine
      (fun _ _ _ _ _ _ _ => trivial) (fun s good here _ => good.take_possible here) good here
      trivial
    cases follows with
    | taken =>
      obtain ⟨k, after, there⟩ := fair.detaching_returns good there
      exact ⟨k, Nat.le_trans later after, there⟩
    | skipped =>
      obtain ⟨k, after, there⟩ := fair.waiting_returns good there
      exact ⟨k, Nat.le_trans later after, there⟩

end Fair

namespace Broker

variable {broker broker' : Broker M}

theorem reach_good {capacity : Nat} (reach : brokers.Reach Meets (new capacity) broker) : broker.Good :=
  reach.invariant (fun _ _ _ good meets stepped => good.step meets stepped) (good_new capacity)

/-- No call starts of a handler whose cancel has returned. -/
theorem Good.not_begun (good : broker.Good) {cancel : Cancel} (member : cancel ∈ broker.cancels)
    (phase : cancel.phase = .returned) {uri : String} (begun : broker.begin' uri = some broker') :
    ∀ call ∈ (broker.topics uri).calls.head?, call.subscription ≠ cancel.subscription := by
  intro call first same
  have runs := (good.settled.quiet cancel member phase uri call (List.mem_of_mem_head? first) same).2
  simp only [Broker.begin', Option.ite_none_right_eq_some] at begun
  exact absurd (runs.1.symm.trans begun.1.2) (by decide)

/-- Where no cancel finds `detach` taken and not yet run, and none made in another handler's call, of the broker or not,
finds a call in flight, a subscription whose cancel has returned is not running, but for the call that has cancelled it; inside a
call a cancel does not wait; no cancel detaches another handler; and every cancel returns if the running handlers
do. -/
theorem cancelled_not_running {capacity : Nat} (reach : brokers.Reach Meets (new capacity) broker) :
    (∀ cancel ∈ broker.cancels, cancel.phase = .returned →
      (¬cancel.Own → broker.Idle cancel.subscription) ∧
      ∀ uri broker', broker.step (.begin uri) = some broker' →
        ∀ call ∈ (broker.topics uri).calls.head?, call.subscription ≠ cancel.subscription) ∧
    (∀ i id inside phase, broker.At i id inside phase → phase ≠ .returned → inside.isInside →
      ∃ action, next i phase = some action ∧ (broker.step action).isSome) ∧
    (∀ i broker', broker.step (.detach i) = some broker' → ∀ cancel ∈ broker.cancels[i]?, ∀ uri group id,
      broker.Attached id uri group → id ≠ cancel.subscription → broker'.Attached id uri group) ∧
    ∀ b : brokers.Behaviour Meets, b.state 0 = broker → Fair b → ∀ n i id inside phase,
      (b.state n).At i id inside phase → ∃ m, n ≤ m ∧ (b.state m).At i id inside .returned := by
  have good := reach_good reach
  refine ⟨fun cancel member phase => ⟨fun elsewhere uri call admitted same => ?_, fun uri broker' begun =>
    good.not_begun member phase begun⟩, fun i id inside phase here goesOn made => ?_,
    fun i broker' detached cancel found uri group id attached other => ?_,
    fun b start fair n i id inside phase here => fair.returns (start ▸ good) here⟩
  · exact elsewhere (good.settled.quiet cancel member phase uri call admitted same).1
  · cases phase with
    | called => exact ⟨_, rfl, good.take_possible here⟩
    | detaching => exact ⟨_, rfl, good.detach_possible here⟩
    | waiting => exact ⟨_, rfl, good.return_possible here (.inl made)⟩
    | returned => exact absurd rfl goesOn
  · obtain ⟨cancel', found', subscription, _, _, rfl⟩ := detach_cases detached
    obtain rfl : cancel' = cancel := Option.some.inj (found'.symm.trans found)
    rw [Attached, setPhase_topics, setTopic_topics]
    split
    case isTrue here =>
      refine mem_clear.mpr ⟨here ▸ attached, fun same => other ?_⟩
      exact (Prod.mk.inj same).2
    case isFalse => exact attached

/-- A cancel from outside a call, of a handler that runs; and another from a call of another transport's handler. -/
def waited : List (Action Unit) :=
  [.consumer "orders" "billing", .subscribe "orders" "billing", .publish "orders" (), .receive "orders" [0],
    .begin "orders", .cancel 0 .nowhere, .take 0, .detach 0, .finish "orders", .return 0, .cancel 0 .elsewhere,
    .take 1, .return 1]

theorem cancelled_not_running_waited : ∃ broker : Broker Unit,
    brokers.exec (fun broker action => decide (Meets broker action)) (new 1) waited = some broker ∧
    broker.cancels = [⟨0, .nowhere, .returned⟩, ⟨0, .elsewhere, .returned⟩] ∧ broker.Idle 0 := by
  obtain ⟨broker, done⟩ := Option.isSome_iff_exists.mp
    (show (brokers.exec (fun broker action => decide (Meets broker action)) (new 1) waited).isSome by decide)
  have cancels : broker.cancels = [⟨0, .nowhere, .returned⟩, ⟨0, .elsewhere, .returned⟩] := by
    have same : (brokers.exec (fun broker action => decide (Meets broker action)) (new 1) waited).map (·.cancels) =
      some [⟨0, .nowhere, .returned⟩, ⟨0, .elsewhere, .returned⟩] := by decide
    rw [done] at same
    exact Option.some.inj same
  have reach : brokers.Reach Meets (new 1) broker :=
    Machine.reach_of_exec (fun _ _ checked => of_decide_eq_true checked) done
  refine ⟨broker, done, cancels, ?_⟩
  refine ((cancelled_not_running reach).1 ⟨0, .elsewhere, .returned⟩ (by simp [cancels]) rfl).1 ?_
  rintro ⟨_, ⟨⟩⟩

/-- The second of two cancels finds `detach` taken, and returns before the first has run it. -/
def overtaken : List (Action Unit) :=
  [.consumer "orders" "billing", .subscribe "orders" "billing", .cancel 0 .nowhere, .cancel 0 .nowhere, .take 0, .take 1,
    .return 1, .publish "orders" (), .receive "orders" [0], .begin "orders"]

/-- A handler cancels another group's, whose call of the same message is admitted and has not begun. -/
def admittedBehind : List (Action Unit) :=
  [.consumer "orders" "billing", .consumer "orders" "shipping", .subscribe "orders" "billing",
    .subscribe "orders" "shipping", .publish "orders" (), .receive "orders" [0, 1], .begin "orders",
    .cancel 1 (.call "orders" 0), .take 0, .detach 0, .return 0, .finish "orders", .begin "orders"]

theorem cancelled_running :
    ((brokers.exec (fun _ _ => true) (new 1) overtaken).any fun broker =>
      broker.cancels[1]? = some ⟨0, .nowhere, .returned⟩ ∧ (broker.topics "orders").Runs 0) ∧
    (brokers.exec (fun _ _ => true) (new 1) admittedBehind).any fun broker =>
      broker.cancels[0]? = some ⟨1, .call "orders" 0, .returned⟩ ∧ (broker.topics "orders").Runs 1 := by
  decide

end Broker

end AsceticDdd.Bus
