import AsceticDdd.Bus.InMemory

/-!
# The calls admitted and the handlers attached

Every call in hand is of a subscription of its topic, is one of at most one, and is counted. A handler is
attached in its own group's slot and nowhere else.
-/

namespace AsceticDdd.Bus

variable {M : Type}

namespace Broker

/-- The subscription's handler is in the group's slot. -/
def Attached (broker : Broker M) (id : Nat) (uri group : String) : Prop :=
  (group, some id) ∈ (broker.topics uri).groups

structure Sound (broker : Broker M) : Prop where
  known : ∀ uri, ∀ call ∈ (broker.topics uri).calls,
    ∃ subscription ∈ broker.subscriptions[call.subscription]?, subscription.uri = uri
  once : ∀ uri, ((broker.topics uri).calls.map (·.subscription)).Nodup
  counted : ∀ id, ∀ subscription ∈ broker.subscriptions[id]?,
    subscription.inFlight = ((broker.topics subscription.uri).calls.map (·.subscription)).count id
  slots : ∀ uri, ((broker.topics uri).groups.map Prod.fst).Nodup
  attached : ∀ id uri group, broker.Attached id uri group →
    ∃ subscription ∈ broker.subscriptions[id]?, subscription.uri = uri ∧ subscription.group = group

theorem sound_new (capacity : Nat) : (new capacity : Broker M).Sound where
  known _ _ call := by cases call
  once _ := List.nodup_nil
  counted _ _ found := by cases found
  slots _ := List.nodup_nil
  attached _ _ _ attached := by cases attached

variable {broker broker' : Broker M} {uri group : String} {id : Nat}

@[simp]
theorem setTopic_topics (uri' : String) (topic : Topic M) :
    (broker.setTopic uri topic).topics uri' = if uri' = uri then topic else broker.topics uri' := by
  simp [setTopic, Function.update_apply]

@[simp]
theorem setTopic_subscriptions (topic : Topic M) : (broker.setTopic uri topic).subscriptions = broker.subscriptions := rfl

@[simp]
theorem setTopic_cancels (topic : Topic M) : (broker.setTopic uri topic).cancels = broker.cancels := rfl

@[simp]
theorem setPhase_topics (phase : Phase) : (broker.setPhase id phase).topics = broker.topics := rfl

@[simp]
theorem setPhase_subscriptions (phase : Phase) : (broker.setPhase id phase).subscriptions = broker.subscriptions := rfl

@[simp]
theorem setSubscription_topics (subscription : Subscription) :
    (broker.setSubscription id subscription).topics = broker.topics := rfl

@[simp]
theorem setSubscription_cancels (subscription : Subscription) :
    (broker.setSubscription id subscription).cancels = broker.cancels := rfl

theorem foldl_admitCall (handlers : List Nat) (subscriptions : List Subscription) (id : Nat) :
    (handlers.foldl admitCall subscriptions)[id]? =
      subscriptions[id]?.map fun subscription =>
        { subscription with inFlight := subscription.inFlight + handlers.count id } := by
  induction handlers generalizing subscriptions with
  | nil => simp
  | cons first handlers ih =>
    rw [List.foldl_cons, ih, admitCall, List.getElem?_modify]
    cases subscriptions[id]? with
    | none => rfl
    | some subscription =>
      by_cases same : first = id
      · simp [same]
        omega
      · simp [same]

/-- The handlers attached to a topic are of different subscriptions. -/
theorem Sound.attached_nodup (sound : broker.Sound) (uri : String) : (broker.topics uri).attached.Nodup := by
  have slots := sound.slots uri
  have known := fun id group => sound.attached id uri group
  simp only [Attached] at known
  rw [Topic.attached]
  generalize (broker.topics uri).groups = groups at slots known
  induction groups with
  | nil => exact List.nodup_nil
  | cons slot groups ih =>
    obtain ⟨group, handler⟩ := slot
    obtain ⟨fresh, slots⟩ := List.nodup_cons.mp slots
    have rest := ih slots fun id group attached => known id group (List.mem_cons_of_mem _ attached)
    cases handler with
    | none => exact rest
    | some id =>
      refine List.nodup_cons.mpr ⟨fun again => ?_, rest⟩
      obtain ⟨⟨group', _⟩, attached, rfl⟩ := List.mem_filterMap.mp again
      obtain ⟨subscription, found, _, rfl⟩ := known _ group List.mem_cons_self
      obtain ⟨subscription', found', _, rfl⟩ := known _ group' (List.mem_cons_of_mem _ attached)
      obtain rfl : subscription = subscription' := Option.some.inj (found.symm.trans found')
      exact fresh (List.mem_map_of_mem (f := Prod.fst) attached)

/-- The invariant reads the calls, the groups and what `take` leaves of a subscription. -/
theorem Sound.congr (sound : broker.Sound) (calls : ∀ uri, (broker'.topics uri).calls = (broker.topics uri).calls)
    (groups : ∀ uri, (broker'.topics uri).groups = (broker.topics uri).groups)
    (same : ∀ id : Nat, ∀ subscription' ∈ broker'.subscriptions[id]?, ∃ subscription ∈ broker.subscriptions[id]?,
      subscription'.uri = subscription.uri ∧ subscription'.inFlight = subscription.inFlight)
    (kept : ∀ id : Nat, ∀ subscription ∈ broker.subscriptions[id]?, ∃ subscription' ∈ broker'.subscriptions[id]?,
      subscription'.uri = subscription.uri ∧ subscription'.group = subscription.group) : broker'.Sound where
  known uri call admitted := by
    rw [calls] at admitted
    obtain ⟨subscription, found, here⟩ := sound.known uri call admitted
    obtain ⟨subscription', found', there, _⟩ := kept _ subscription found
    exact ⟨subscription', found', there.trans here⟩
  once uri := by
    rw [calls]
    exact sound.once uri
  counted id subscription' found' := by
    obtain ⟨subscription, found, there, count⟩ := same id subscription' found'
    rw [count, there, calls]
    exact sound.counted id subscription found
  slots uri := by
    rw [groups]
    exact sound.slots uri
  attached id uri group attached := by
    rw [Attached, groups] at attached
    obtain ⟨subscription, found, here, own⟩ := sound.attached id uri group attached
    obtain ⟨subscription', found', there, own'⟩ := kept _ subscription found
    exact ⟨subscription', found', there.trans here, own'.trans own⟩

theorem Sound.congr_topics (sound : broker.Sound)
    (calls : ∀ uri, (broker'.topics uri).calls = (broker.topics uri).calls)
    (groups : ∀ uri, (broker'.topics uri).groups = (broker.topics uri).groups)
    (subscriptions : broker'.subscriptions = broker.subscriptions) : broker'.Sound := by
  refine sound.congr calls groups ?_ ?_
  · intro id subscription found
    exact ⟨subscription, subscriptions ▸ found, rfl, rfl⟩
  · intro id subscription found
    exact ⟨subscription, subscriptions ▸ found, rfl, rfl⟩

theorem Sound.publish {message : M} (sound : broker.Sound) (published : broker.publish uri message = some broker') :
    broker'.Sound := by
  simp only [Broker.publish, Option.ite_none_right_eq_some, Option.some.injEq] at published
  obtain ⟨_, rfl⟩ := published
  refine sound.congr_topics (fun other => ?_) (fun other => ?_) rfl
  · rw [setTopic_topics]
    split <;> simp_all
  · rw [setTopic_topics]
    split <;> simp_all

theorem Sound.consumer (sound : broker.Sound) (joined : broker.consumer uri group = some broker') :
    broker'.Sound := by
  simp only [Broker.consumer, Option.ite_none_left_eq_some, Option.some.injEq] at joined
  obtain ⟨fresh, rfl⟩ := joined
  have calls (other : String) : ((broker.setTopic uri { broker.topics uri with
      groups := (broker.topics uri).groups ++ [(group, none)] }).topics other).calls = (broker.topics other).calls := by
    rw [setTopic_topics]
    split <;> simp_all
  refine ⟨?_, ?_, ?_, ?_, ?_⟩
  · intro other call admitted
    rw [calls] at admitted
    exact sound.known other call admitted
  · intro other
    rw [calls]
    exact sound.once other
  · intro id subscription found
    rw [calls]
    exact sound.counted id subscription found
  · intro other
    rw [setTopic_topics]
    split
    case isTrue here =>
      simp only [List.map_append, List.map_cons, List.map_nil]
      exact (List.perm_append_singleton _ _).nodup_iff.mpr (List.nodup_cons.mpr ⟨fresh, sound.slots uri⟩)
    case isFalse => exact sound.slots other
  · intro id other group' attached
    refine sound.attached id other group' ?_
    rw [Attached, setTopic_topics] at attached
    split at attached
    case isTrue here =>
      subst here
      simpa [Attached] using attached
    case isFalse => exact attached

theorem insert_keys (topic : Topic M) (group : String) (id : Nat) :
    (topic.insert group id).groups.map Prod.fst = topic.groups.map Prod.fst := by
  simp only [Topic.insert, List.map_map]
  apply List.map_congr_left
  rintro ⟨group', handler⟩ _
  by_cases same : group' = group <;> simp [same]

theorem clear_keys (topic : Topic M) (group : String) (id : Nat) :
    (topic.clear group id).groups.map Prod.fst = topic.groups.map Prod.fst := by
  simp only [Topic.clear, List.map_map]
  apply List.map_congr_left
  rintro ⟨group', handler⟩ _
  simp only [Function.comp_apply]
  split
  case isTrue same => exact (congrArg Prod.fst same).symm
  case isFalse => rfl

/-- A subscription's own handler takes the place of the one before. -/
theorem mem_insert {topic : Topic M} {group group' : String} {id id' : Nat}
    (attached : (group', some id') ∈ (topic.insert group id).groups) :
    (group' = group ∧ id' = id) ∨ (group', some id') ∈ topic.groups := by
  simp only [Topic.insert, List.mem_map] at attached
  obtain ⟨slot, member, placed⟩ := attached
  split at placed
  case isTrue =>
    simp only [Prod.mk.injEq, Option.some.injEq] at placed
    exact .inl ⟨placed.1.symm, placed.2.symm⟩
  case isFalse => exact .inr (placed ▸ member)

/-- Nothing but the subscription's own handler is detached. -/
theorem mem_clear {topic : Topic M} {group group' : String} {id id' : Nat} :
    (group', some id') ∈ (topic.clear group id).groups ↔
      (group', some id') ∈ topic.groups ∧ (group', id') ≠ (group, id) := by
  simp only [Topic.clear, List.mem_map]
  constructor
  · rintro ⟨slot, member, placed⟩
    split at placed
    case isTrue => simp at placed
    case isFalse other =>
      subst placed
      exact ⟨member, by simpa using other⟩
  · rintro ⟨member, other⟩
    exact ⟨_, member, if_neg (by simpa using other)⟩

theorem Sound.subscribe (sound : broker.Sound) (subscribed : broker.subscribe uri group = some broker') :
    broker'.Sound := by
  simp only [Broker.subscribe, Option.ite_none_right_eq_some, Option.some.injEq] at subscribed
  obtain ⟨joined, rfl⟩ := subscribed
  have old {id : Nat} {subscription : Subscription} (found : subscription ∈ broker.subscriptions[id]?) :
      subscription ∈ (broker.subscriptions ++ [⟨uri, group, true, 0⟩])[id]? := by
    rw [List.getElem?_append_left (List.getElem?_eq_some_iff.mp found).1]
    exact found
  have calls (other : String) : ((broker.setTopic uri ((broker.topics uri).insert group
      broker.subscriptions.length)).topics other).calls = (broker.topics other).calls := by
    rw [setTopic_topics]
    split
    case isTrue here => rw [here]; rfl
    case isFalse => rfl
  refine ⟨fun other call admitted => ?_, fun other => ?_, fun id subscription found => ?_, fun other => ?_,
    fun id other group' attached => ?_⟩
  · obtain ⟨subscription, found, here⟩ := sound.known other call (calls other ▸ admitted)
    exact ⟨subscription, old found, here⟩
  · show (((broker.setTopic _ _).topics other).calls.map _).Nodup
    rw [calls]
    exact sound.once other
  · show subscription.inFlight = (((broker.setTopic _ _).topics _).calls.map _).count id
    rw [calls]
    obtain known | ⟨rfl, rfl⟩ : subscription ∈ broker.subscriptions[id]? ∨
        id = broker.subscriptions.length ∧ subscription = ⟨uri, group, true, 0⟩ := by
      rw [Option.mem_def, List.getElem?_append] at found
      split at found
      case isTrue => exact .inl found
      case isFalse beyond =>
        have last : id - broker.subscriptions.length = 0 := by
          have bound := (List.getElem?_eq_some_iff.mp found).1
          simp only [List.length_cons, List.length_nil] at bound
          omega
        rw [last] at found
        exact .inr ⟨by omega, (Option.some.inj found).symm⟩
    · exact sound.counted id subscription known
    · refine (List.count_eq_zero.mpr fun admitted => ?_).symm
      obtain ⟨call, admitted, same⟩ := List.mem_map.mp admitted
      obtain ⟨_, found, _⟩ := sound.known uri call admitted
      exact absurd (List.getElem?_eq_some_iff.mp found).1 (by omega)
  · show (((broker.setTopic _ _).topics other).groups.map _).Nodup
    rw [setTopic_topics]
    split
    case isTrue =>
      rw [insert_keys]
      exact sound.slots uri
    case isFalse => exact sound.slots other
  · have attached : (group', some id) ∈ ((broker.setTopic uri ((broker.topics uri).insert group
      broker.subscriptions.length)).topics other).groups := attached
    rw [setTopic_topics] at attached
    split at attached
    case isTrue here =>
      subst here
      obtain ⟨rfl, rfl⟩ | before := mem_insert attached
      · exact ⟨⟨other, group', true, 0⟩, by simp, rfl, rfl⟩
      · obtain ⟨subscription, found, same⟩ := sound.attached id other group' before
        exact ⟨subscription, old found, same⟩
    case isFalse =>
      obtain ⟨subscription, found, same⟩ := sound.attached id other group' attached
      exact ⟨subscription, old found, same⟩

theorem mem_attached {topic : Topic M} {id : Nat} :
    id ∈ topic.attached ↔ ∃ group, (group, some id) ∈ topic.groups := by
  simp only [Topic.attached, List.mem_filterMap, Prod.exists]
  constructor
  · rintro ⟨group, handler, member, rfl⟩
    exact ⟨group, member⟩
  · rintro ⟨group, member⟩
    exact ⟨group, _, member, rfl⟩

theorem Sound.receive {handlers : List Nat} (sound : broker.Sound)
    (received : broker.receive uri handlers = some broker') : broker'.Sound := by
  simp only [Broker.receive] at received
  split at received
  case h_1 => cases received
  case h_2 message queue _ =>
    simp only [Option.ite_none_right_eq_some, Option.some.injEq] at received
    obtain ⟨⟨idle, order⟩, rfl⟩ := received
    have nodup : handlers.Nodup := order.nodup_iff.mpr (sound.attached_nodup uri)
    have owner (id : Nat) (member : id ∈ handlers) :
        ∃ subscription ∈ broker.subscriptions[id]?, subscription.uri = uri := by
      obtain ⟨group, attached⟩ := mem_attached.mp (order.mem_iff.mp member)
      obtain ⟨subscription, found, here, _⟩ := sound.attached id uri group attached
      exact ⟨subscription, found, here⟩
    have admitted {id : Nat} {subscription : Subscription} (found : subscription ∈ broker.subscriptions[id]?) :
        (handlers.foldl admitCall broker.subscriptions)[id]? =
          some { subscription with inFlight := subscription.inFlight + handlers.count id } := by
      rw [foldl_admitCall, Option.mem_def.mp found]
      rfl
    refine ⟨fun other call member => ?_, fun other => ?_, fun id subscription found => ?_, fun other => ?_,
      fun id other group attached => ?_⟩
    · simp only [setTopic_topics] at member
      split at member
      case isTrue here =>
        obtain ⟨id, handler, rfl⟩ := List.mem_map.mp member
        obtain ⟨subscription, found, same⟩ := owner id handler
        exact ⟨_, admitted found, same.trans here.symm⟩
      case isFalse =>
        obtain ⟨subscription, found, same⟩ := sound.known other call member
        exact ⟨_, admitted found, same⟩
    · simp only [setTopic_topics]
      split
      case isTrue => simpa [Function.comp_def] using nodup
      case isFalse => exact sound.once other
    · have after : subscription ∈ (handlers.foldl admitCall broker.subscriptions)[id]? := found
      rw [foldl_admitCall, Option.mem_def, Option.map_eq_some_iff] at after
      obtain ⟨before, known, rfl⟩ := after
      have counted := sound.counted id before known
      simp only [setTopic_topics]
      split
      case isTrue here =>
        rw [counted, here, idle]
        simp [Function.comp_def]
      case isFalse elsewhere =>
        have absent : id ∉ handlers := by
          intro member
          obtain ⟨subscription, found', here⟩ := owner id member
          obtain rfl : before = subscription := Option.some.inj (known.symm.trans found')
          exact elsewhere here
        rw [counted, List.count_eq_zero.mpr absent, Nat.add_zero]
    · simp only [setTopic_topics]
      split
      case isTrue => exact sound.slots uri
      case isFalse => exact sound.slots other
    · have before : broker.Attached id other group := by
        simp only [Attached, setTopic_topics] at attached
        split at attached
        case isTrue here => exact here ▸ attached
        case isFalse => exact attached
      obtain ⟨subscription, found, same⟩ := sound.attached id other group before
      exact ⟨_, admitted found, same⟩

theorem Sound.begin (sound : broker.Sound) (begun : broker.begin' uri = some broker') : broker'.Sound := by
  simp only [Broker.begin', Option.ite_none_right_eq_some, Option.some.injEq] at begun
  obtain ⟨_, rfl⟩ := begun
  refine sound.congr_topics (fun other => ?_) (fun other => ?_) rfl
  · rw [setTopic_topics]
    split <;> simp_all
  · rw [setTopic_topics]
    split <;> simp_all

theorem Sound.finish (sound : broker.Sound) (finished : broker.finish uri = some broker') : broker'.Sound := by
  simp only [Broker.finish] at finished
  split at finished
  case h_1 => cases finished
  case h_2 call calls hand =>
    simp only [Option.ite_none_right_eq_some, Option.some.injEq] at finished
    obtain ⟨_, rfl⟩ := finished
    have once := sound.once uri
    rw [hand, List.map_cons, List.nodup_cons] at once
    have counted {id : Nat} {subscription : Subscription} (found : subscription ∈ broker.subscriptions[id]?) :
        (countOut broker.subscriptions call.subscription)[id]? =
          some (if call.subscription = id then { subscription with inFlight := subscription.inFlight - 1 }
            else subscription) := by
      rw [countOut, List.getElem?_modify, Option.mem_def.mp found]
      rfl
    refine ⟨fun other call' member => ?_, fun other => ?_, fun id subscription found => ?_, fun other => ?_,
      fun id other group attached => ?_⟩
    · have before : call' ∈ (broker.topics other).calls := by
        simp only [setTopic_topics] at member
        split at member
        case isTrue here =>
          rw [here, hand]
          exact List.mem_cons_of_mem _ member
        case isFalse => exact member
      obtain ⟨subscription, found, here⟩ := sound.known other call' before
      refine ⟨_, counted found, ?_⟩
      split
      · exact here
      · exact here
    · simp only [setTopic_topics]
      split
      case isTrue => exact once.2
      case isFalse => exact sound.once other
    · have after : subscription ∈ (countOut broker.subscriptions call.subscription)[id]? := found
      rw [countOut, List.getElem?_modify, Option.mem_def] at after
      obtain ⟨before, known, rfl⟩ := Option.map_eq_some_iff.mp after
      have count := sound.counted id before known
      obtain ⟨owner, foundOwner, here⟩ := sound.known uri call (by rw [hand]; exact List.mem_cons_self)
      split
      case isTrue same =>
        subst same
        obtain rfl : before = owner := Option.some.inj (known.symm.trans foundOwner)
        rw [here, hand, List.map_cons, List.count_cons_self] at count
        simp [here, count]
      case isFalse different =>
        simp only [setTopic_topics]
        split
        case isTrue at' =>
          rw [at', hand, List.map_cons, List.count_cons_of_ne different] at count
          exact count
        case isFalse => exact count
    · simp only [setTopic_topics]
      split
      case isTrue => exact sound.slots uri
      case isFalse => exact sound.slots other
    · have before : broker.Attached id other group := by
        simp only [Attached, setTopic_topics] at attached
        split at attached
        case isTrue here => exact here ▸ attached
        case isFalse => exact attached
      obtain ⟨subscription, found, same⟩ := sound.attached id other group before
      refine ⟨_, counted found, ?_⟩
      split
      · exact same
      · exact same

theorem take_cases (taken : broker.take id = some broker') :
    ∃ cancel ∈ broker.cancels[id]?, ∃ subscription ∈ broker.subscriptions[cancel.subscription]?,
      cancel.phase = .called ∧
      ((subscription.armed = true ∧ broker' =
        (broker.setSubscription cancel.subscription { subscription with armed := false }).setPhase id .detaching) ∨
      (subscription.armed = false ∧ broker' = broker.setPhase id .waiting)) := by
  obtain ⟨cancel, found, taken⟩ := Option.bind_eq_some_iff.mp taken
  obtain ⟨subscription, known, taken⟩ := Option.bind_eq_some_iff.mp taken
  refine ⟨cancel, found, subscription, known, ?_⟩
  split at taken
  case isTrue called =>
    refine ⟨called, ?_⟩
    split at taken
    case isTrue armed => exact .inl ⟨armed, (Option.some.inj taken).symm⟩
    case isFalse armed => exact .inr ⟨Bool.eq_false_iff.mpr armed, (Option.some.inj taken).symm⟩
  case isFalse => cases taken

theorem detach_cases (detached : broker.detach id = some broker') :
    ∃ cancel ∈ broker.cancels[id]?, ∃ subscription ∈ broker.subscriptions[cancel.subscription]?,
      cancel.phase = .detaching ∧ broker' = (broker.setTopic subscription.uri
        ((broker.topics subscription.uri).clear subscription.group cancel.subscription)).setPhase id .waiting := by
  obtain ⟨cancel, found, detached⟩ := Option.bind_eq_some_iff.mp detached
  obtain ⟨subscription, known, detached⟩ := Option.bind_eq_some_iff.mp detached
  refine ⟨cancel, found, subscription, known, ?_⟩
  split at detached
  case isTrue detaching => exact ⟨detaching, (Option.some.inj detached).symm⟩
  case isFalse => cases detached

theorem return_cases (returned : broker.return' id = some broker') :
    ∃ cancel ∈ broker.cancels[id]?, ∃ subscription ∈ broker.subscriptions[cancel.subscription]?,
      cancel.phase = .waiting ∧ (cancel.inside.isInside ∨ subscription.inFlight = 0) ∧
      broker' = broker.setPhase id .returned := by
  obtain ⟨cancel, found, returned⟩ := Option.bind_eq_some_iff.mp returned
  obtain ⟨subscription, known, returned⟩ := Option.bind_eq_some_iff.mp returned
  refine ⟨cancel, found, subscription, known, ?_⟩
  split at returned
  case isTrue free => exact ⟨free.1, free.2, (Option.some.inj returned).symm⟩
  case isFalse => cases returned

theorem Sound.take (sound : broker.Sound) (taken : broker.take id = some broker') : broker'.Sound := by
  obtain ⟨cancel, _, subscription, known, _, ⟨_, rfl⟩ | ⟨_, rfl⟩⟩ := take_cases taken
  · have after (id : Nat) : (broker.setSubscription cancel.subscription { subscription with armed := false }).subscriptions[id]? =
        if cancel.subscription = id then broker.subscriptions[id]?.map fun _ => { subscription with armed := false }
        else broker.subscriptions[id]? := List.getElem?_set'
    refine sound.congr (fun _ => rfl) (fun _ => rfl) (fun id subscription' found => ?_) (fun id subscription' found => ?_)
    · rw [setPhase_subscriptions, after, Option.mem_def] at found
      split at found
      case isTrue same =>
        subst same
        rw [Option.mem_def.mp known] at found
        cases found
        exact ⟨subscription, known, rfl, rfl⟩
      case isFalse => exact ⟨subscription', found, rfl, rfl⟩
    · rw [setPhase_subscriptions, after]
      split
      case isTrue same =>
        subst same
        obtain rfl : subscription' = subscription := Option.some.inj (found.symm.trans known)
        exact ⟨{ subscription' with armed := false }, by rw [Option.mem_def.mp known]; rfl, rfl, rfl⟩
      case isFalse => exact ⟨subscription', found, rfl, rfl⟩
  · exact sound.congr_topics (fun _ => rfl) (fun _ => rfl) rfl

theorem Sound.detach (sound : broker.Sound) (detached : broker.detach id = some broker') : broker'.Sound := by
  obtain ⟨cancel, _, subscription, _, _, rfl⟩ := detach_cases detached
  have calls (other : String) : ((broker.setTopic subscription.uri
      ((broker.topics subscription.uri).clear subscription.group cancel.subscription)).topics other).calls =
      (broker.topics other).calls := by
    rw [setTopic_topics]
    split
    case isTrue here => rw [here]; rfl
    case isFalse => rfl
  refine ⟨fun other call admitted => ?_, fun other => ?_, fun id found => ?_, fun other => ?_,
    fun id other group attached => ?_⟩
  · rw [setPhase_topics, calls] at admitted
    exact sound.known other call admitted
  · rw [setPhase_topics, calls]
    exact sound.once other
  · rw [setPhase_topics, calls]
    exact sound.counted id found
  · rw [setPhase_topics, setTopic_topics]
    split
    case isTrue =>
      rw [clear_keys]
      exact sound.slots _
    case isFalse => exact sound.slots other
  · refine sound.attached id other group ?_
    rw [Attached, setPhase_topics, setTopic_topics] at attached
    split at attached
    case isTrue here => exact here ▸ (mem_clear.mp attached).1
    case isFalse => exact attached

theorem Sound.return (sound : broker.Sound) (returned : broker.return' id = some broker') : broker'.Sound := by
  obtain ⟨_, _, _, _, _, _, rfl⟩ := return_cases returned
  exact sound.congr_topics (fun _ => rfl) (fun _ => rfl) rfl

theorem Sound.cancel {inside : Within} (sound : broker.Sound)
    (called : broker.cancel id inside = some broker') : broker'.Sound := by
  simp only [Broker.cancel, Option.ite_none_right_eq_some, Option.some.injEq] at called
  obtain ⟨_, rfl⟩ := called
  exact sound.congr_topics (fun _ => rfl) (fun _ => rfl) rfl

theorem Sound.step {action : Action M} (sound : broker.Sound) (stepped : broker.step action = some broker') :
    broker'.Sound := by
  cases action with
  | publish uri message => exact sound.publish stepped
  | consumer uri group => exact sound.consumer stepped
  | subscribe uri group => exact sound.subscribe stepped
  | receive uri handlers => exact sound.receive stepped
  | begin uri => exact sound.begin stepped
  | finish uri => exact sound.finish stepped
  | cancel subscription inside => exact sound.cancel stepped
  | take id => exact sound.take stepped
  | detach id => exact sound.detach stepped
  | «return» id => exact sound.return stepped

end Broker

end AsceticDdd.Bus
