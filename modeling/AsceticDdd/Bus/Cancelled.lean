import AsceticDdd.Bus.Steps

/-!
# A cancelled subscription is not running

A cancel that finds `detach` taken goes on as if it had run, and inside a call of any handler a cancel does not
wait. Where neither matters, a handler whose cancel has returned is attached nowhere and no call of it is in hand,
but for the call that has cancelled it.
-/

namespace AsceticDdd.Bus

open Concurrency

variable {M : Type}

namespace Broker

variable {broker broker' : Broker M} {action : Action M}

/-- A cancel does not find `detach` taken and not yet run, and one made in a call of another handler, of this broker or not,
finds no call in flight. -/
def Meets (broker : Broker M) : Action M → Prop
  | .take id => ∀ cancel ∈ broker.cancels[id]?, ∀ other ∈ broker.cancels,
      other.subscription = cancel.subscription → other.phase ≠ .detaching
  | .return id => ∀ cancel ∈ broker.cancels[id]?, cancel.inside.isInside →
      (∀ call ∈ cancel.inside.here, call.2 ≠ cancel.subscription) → ∀ subscription ∈ broker.subscriptions[cancel.subscription]?, subscription.inFlight = 0
  | _ => True

instance (broker : Broker M) (action : Action M) : Decidable (broker.Meets action) :=
  match action with
  | .take id => inferInstanceAs (Decidable (∀ cancel ∈ broker.cancels[id]?, ∀ other ∈ broker.cancels, _ → _))
  | .return id => inferInstanceAs (Decidable (∀ cancel ∈ broker.cancels[id]?, cancel.inside.isInside → _ → _))
  | .publish _ _ | .consumer _ _ | .subscribe _ _ | .receive _ _ | .begin _ | .finish _ | .cancel _ _ | .detach _ =>
    inferInstanceAs (Decidable True)

/-- The subscription's handler is attached nowhere. -/
def Off (broker : Broker M) (id : Nat) : Prop := ∀ uri group, ¬broker.Attached id uri group

structure Settled (broker : Broker M) : Prop where
  known : ∀ cancel ∈ broker.cancels, cancel.subscription < broker.subscriptions.length
  /-- A `detach` that is taken is run, or is to be. -/
  taken : ∀ id, ∀ subscription ∈ broker.subscriptions[id]?, subscription.armed = false →
    (∃ cancel ∈ broker.cancels, cancel.subscription = id ∧ cancel.phase = .detaching) ∨ broker.Off id
  inHand : ∀ cancel ∈ broker.cancels, cancel.phase ≠ .returned → ∀ call ∈ cancel.inside.here,
    (broker.topics call.1).Runs call.2
  off : ∀ cancel ∈ broker.cancels, cancel.phase = .waiting ∨ cancel.phase = .returned → broker.Off cancel.subscription
  quiet : ∀ cancel ∈ broker.cancels, cancel.phase = .returned → ∀ uri, ∀ call ∈ (broker.topics uri).calls,
    call.subscription = cancel.subscription → cancel.Own ∧ (broker.topics uri).Runs cancel.subscription

theorem settled_new (capacity : Nat) : (new capacity : Broker M).Settled where
  known _ cancel := by cases cancel
  taken _ _ found := by cases found
  inHand _ cancel := by cases cancel
  off _ cancel := by cases cancel
  quiet _ cancel := by cases cancel

theorem Off.step {id : Nat} (off : broker.Off id) (known : id < broker.subscriptions.length)
    (stepped : broker.step action = some broker') : broker'.Off id := by
  intro uri group attached
  obtain before | made := step_attached stepped attached
  · exact off uri group before
  · omega

/-- A call that has begun stays in hand while something is to be done in it. -/
theorem Runs.step {uri : String} {id : Nat} (runs : (broker.topics uri).Runs id)
    (stepped : broker.step action = some broker') :
    (broker'.topics uri).Runs id ∨ ¬broker.Cancelling uri := by
  obtain ⟨running, call, first, same⟩ := runs
  cases step_hand stepped uri with
  | same calls running' => exact .inl ⟨by rw [running', running], call, by rwa [calls], same⟩
  | received idle => simp [idle] at first
  | begun waits => simp [waits] at running
  | finished _ _ _ free => exact .inr free

theorem detach_off (sound : broker.Sound) {i : Nat} {cancel : Cancel} (found : broker.cancels[i]? = some cancel)
    (detached : broker.detach i = some broker') : broker'.Off cancel.subscription := by
  obtain ⟨cancel', found', subscription, known, _, rfl⟩ := detach_cases detached
  obtain rfl : cancel' = cancel := Option.some.inj (found'.symm.trans found)
  intro uri group attached
  rw [Attached, setPhase_topics, setTopic_topics] at attached
  split at attached
  case isTrue here =>
    obtain ⟨before, other⟩ := mem_clear.mp attached
    obtain ⟨subscription', known', _, own⟩ := sound.attached _ _ _ before
    obtain rfl : subscription' = subscription := Option.some.inj (known'.symm.trans known)
    exact other (by rw [own])
  case isFalse elsewhere =>
    obtain ⟨subscription', known', here, _⟩ := sound.attached _ _ _ attached
    obtain rfl : subscription' = subscription := Option.some.inj (known'.symm.trans known)
    exact elsewhere here.symm

theorem cancelling_of {cancel : Cancel} (member : cancel ∈ broker.cancels) (phase : cancel.phase ≠ .returned)
    {call : String × Nat} (inside : call ∈ cancel.inside.here) : broker.Cancelling call.1 :=
  ⟨cancel, member, phase, call, inside, rfl⟩

/-- The call of a subscription's handler in hand is at its own topic. -/
theorem Sound.count_pos (sound : broker.Sound) {id : Nat} {subscription : Subscription}
    (found : subscription ∈ broker.subscriptions[id]?) {uri : String} {call : Call M}
    (admitted : call ∈ (broker.topics uri).calls) (same : call.subscription = id) :
    subscription.uri = uri ∧ 0 < subscription.inFlight := by
  subst same
  obtain ⟨subscription', found', here⟩ := sound.known uri call admitted
  obtain rfl : subscription' = subscription := Option.some.inj (found'.symm.trans found)
  refine ⟨here, ?_⟩
  rw [sound.counted _ _ found, here]
  exact List.count_pos_iff.mpr (List.mem_map_of_mem admitted)

theorem Settled.quiet_step (sound : broker.Sound) (settled : broker.Settled) (meets : broker.Meets action)
    (stepped : broker.step action = some broker') {cancel : Cancel} (member : cancel ∈ broker'.cancels)
    (phase : cancel.phase = .returned) {uri : String} {call : Call M} (admitted : call ∈ (broker'.topics uri).calls)
    (own : call.subscription = cancel.subscription) :
    cancel.Own ∧ (broker'.topics uri).Runs cancel.subscription := by
  obtain ⟨i, found⟩ := List.mem_iff_getElem?.mp member
  cases step_cancel stepped found with
  | same before =>
    have earlier := List.mem_of_getElem? before
    cases step_hand stepped uri with
    | same calls running =>
      obtain ⟨inside, runs⟩ := settled.quiet cancel earlier phase uri call (calls ▸ admitted) own
      exact ⟨inside, by rwa [Topic.Runs, calls, running]⟩
    | received _ attached =>
      obtain ⟨group, attached⟩ := attached call admitted
      exact absurd (own ▸ attached) (settled.off cancel earlier (.inr phase) uri group)
    | begun waits calls =>
      obtain ⟨_, running, _⟩ := settled.quiet cancel earlier phase uri call (calls ▸ admitted) own
      exact absurd (running.symm.trans waits) (by decide)
    | finished first hand =>
      have inHand : call ∈ (broker.topics uri).calls := hand ▸ List.mem_cons_of_mem _ admitted
      obtain ⟨_, _, head, isHead, same⟩ := settled.quiet cancel earlier phase uri call inHand own
      have once := sound.once uri
      rw [hand, List.map_cons, List.nodup_cons] at once
      rw [hand] at isHead
      obtain rfl : first = head := Option.some.inj isHead
      exact absurd (List.mem_map.mpr ⟨call, admitted, own.trans same.symm⟩) once.1
  | made called => exact absurd (called.symm.trans phase) (by decide)
  | taken _ _ _ same => simp [same] at phase
  | skipped _ _ _ _ _ same => simp [same] at phase
  | detached _ _ _ _ same => simp [same] at phase
  | returned cancel' before waiting returns free same =>
    subst same returns
    obtain ⟨_, _, _, _, _, _, rfl⟩ := return_cases stepped
    obtain ⟨subscription, known, free⟩ := free
    obtain ⟨here, busy⟩ := sound.count_pos known admitted own
    cases inside : cancel'.inside with
    | nowhere =>
      obtain within | idle := free
      · simp [inside, Within.isInside] at within
      · omega
    | elsewhere =>
      have idle := meets cancel' before (by rw [inside]; rfl) (by rw [inside]; rintro _ ⟨⟩) subscription known
      omega
    | call uri' id =>
      by_cases mine : id = cancel'.subscription
      case neg =>
        have idle := meets cancel' before (by rw [inside]; rfl) (by rw [inside]; rintro _ ⟨⟩; exact mine) subscription
          known
        omega
      case pos =>
        subst mine
        have runs := settled.inHand cancel' (List.mem_of_getElem? before) (by rw [waiting]; decide) (uri', _)
          (by rw [inside]; rfl)
        obtain ⟨running, first, isFirst, same⟩ := runs
        obtain ⟨there, _⟩ := sound.count_pos known (List.mem_of_mem_head? isFirst) same
        obtain rfl : uri = uri' := here.symm.trans there
        exact ⟨⟨uri, rfl⟩, running, first, isFirst, same⟩

theorem Settled.step (sound : broker.Sound) (settled : broker.Settled) (meets : broker.Meets action)
    (stepped : broker.step action = some broker') : broker'.Settled := by
  have more := step_subscriptions_length stepped
  -- what a cancel that was there before waits to have done in its call goes on
  have goesOn {i : Nat} {cancel : Cancel} (before : broker.cancels[i]? = some cancel) (phase : cancel.phase ≠ .returned)
      (call : String × Nat) (inside : call ∈ cancel.inside.here) : (broker'.topics call.1).Runs call.2 := by
    have member := List.mem_of_getElem? before
    obtain runs | free := Runs.step (settled.inHand cancel member phase call inside) stepped
    · exact runs
    · exact absurd (cancelling_of member phase inside) free
  refine ⟨fun cancel member => ?_, fun id subscription found late => ?_, fun cancel member phase call inside => ?_,
    fun cancel member phase => ?_, fun cancel member phase uri call admitted own =>
      settled.quiet_step sound meets stepped member phase admitted own⟩
  · obtain ⟨i, found⟩ := List.mem_iff_getElem?.mp member
    cases step_cancel stepped found with
    | same before => exact Nat.lt_of_lt_of_le (settled.known _ (List.mem_of_getElem? before)) more
    | made _ _ known => exact Nat.lt_of_lt_of_le known more
    | taken cancel' before _ same => exact same ▸ Nat.lt_of_lt_of_le (settled.known cancel' (List.mem_of_getElem? before)) more
    | skipped cancel' before _ _ _ same =>
      exact same ▸ Nat.lt_of_lt_of_le (settled.known cancel' (List.mem_of_getElem? before)) more
    | detached cancel' before _ _ same =>
      exact same ▸ Nat.lt_of_lt_of_le (settled.known cancel' (List.mem_of_getElem? before)) more
    | returned cancel' before _ _ _ same =>
      exact same ▸ Nat.lt_of_lt_of_le (settled.known cancel' (List.mem_of_getElem? before)) more
  · obtain ⟨_, armed⟩ | ⟨subscription', found', _, _, armed | ⟨i, cancel, taken, mine, phase⟩⟩ :=
      step_subscription stepped found
    · exact absurd (armed.symm.trans late) (by decide)
    · have known := (List.getElem?_eq_some_iff.mp found').1
      obtain ⟨cancel, member, rfl, phase⟩ | off := settled.taken id subscription' found' (armed.symm.trans late)
      · obtain ⟨i, before⟩ := List.mem_iff_getElem?.mp member
        have stays := Nat.lt_of_lt_of_le (List.getElem?_eq_some_iff.mp before).1 (step_cancels_length stepped)
        have after := List.getElem?_eq_getElem stays
        cases step_cancel stepped after with
        | same before' =>
          obtain rfl := Option.some.inj (before'.symm.trans before)
          exact .inl ⟨_, List.getElem_mem stays, rfl, phase⟩
        | made _ fresh => exact absurd (List.getElem?_eq_some_iff.mp before).1 (by omega)
        | taken cancel' before' called =>
          obtain rfl := Option.some.inj (before'.symm.trans before)
          exact absurd (called.symm.trans phase) (by decide)
        | skipped cancel' before' called =>
          obtain rfl := Option.some.inj (before'.symm.trans before)
          exact absurd (called.symm.trans phase) (by decide)
        | detached cancel' before' _ detaches => exact .inr (detach_off sound before detaches)
        | returned cancel' before' waiting =>
          obtain rfl := Option.some.inj (before'.symm.trans before)
          exact absurd (waiting.symm.trans phase) (by decide)
      · exact .inr (off.step known stepped)
    · exact .inl ⟨cancel, List.mem_of_getElem? taken, mine, phase⟩
  · obtain ⟨i, found⟩ := List.mem_iff_getElem?.mp member
    cases step_cancel stepped found with
    | same before => exact goesOn before phase call inside
    | made _ _ _ inHand topics => exact topics ▸ inHand call inside
    | taken cancel' before called same =>
      subst same
      exact goesOn before (by rw [called]; decide) call inside
    | skipped cancel' before called _ _ same =>
      subst same
      exact goesOn before (by rw [called]; decide) call inside
    | detached cancel' before detaching _ same =>
      subst same
      exact goesOn before (by rw [detaching]; decide) call inside
    | returned cancel' before _ _ _ same => exact absurd (congrArg Cancel.phase same) phase
  · obtain ⟨i, found⟩ := List.mem_iff_getElem?.mp member
    cases step_cancel stepped found with
    | same before =>
      have earlier := List.mem_of_getElem? before
      exact (settled.off cancel earlier phase).step (settled.known cancel earlier) stepped
    | made called => simp [called] at phase
    | taken cancel' before _ same => simp [same] at phase
    | skipped cancel' before _ takes late same =>
      subst same takes
      have earlier := List.mem_of_getElem? before
      obtain ⟨subscription, known, late⟩ := late
      obtain ⟨other, member', mine, detaching⟩ | off := settled.taken _ subscription known late
      · exact absurd detaching (meets cancel' before other member' mine)
      · exact off.step (settled.known cancel' earlier) stepped
    | detached cancel' before _ detaches same =>
      have off : broker'.Off cancel'.subscription := detach_off sound before detaches
      exact same ▸ off
    | returned cancel' before waiting _ _ same =>
      subst same
      have earlier := List.mem_of_getElem? before
      exact (settled.off cancel' earlier (.inl waiting)).step (settled.known cancel' earlier) stepped

end Broker

end AsceticDdd.Bus
