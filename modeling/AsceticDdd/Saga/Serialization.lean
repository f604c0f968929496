import AsceticDdd.Control.Except
import AsceticDdd.Saga.RoutingSlip
import Mathlib.Data.List.Forall2
import Mathlib.Data.List.Induction
import Mathlib.Logic.Function.Basic

/-!
# A slip on the wire

Activity types travel by name. The resolver keeps two maps, each overwritten by itself, so a name
given to another type is still what its former type is sent under.
-/

namespace AsceticDdd.Saga

structure ActivityTypeResolver (T : Type) where
  resolve : String → Except SagaError T
  getName : T → Except SagaError String

structure SerializableWorkItem (A : Type) where
  activityTypeName : String
  arguments : A

structure SerializableWorkLog (R : Type) where
  activityTypeName : String
  result : R

variable {T A R : Type}

abbrev SerializableRoutingSlip (A R : Type) :=
  RoutingSlip (SerializableWorkItem A) (SerializableWorkLog R)

def WorkLog.toSerializable (resolver : ActivityTypeResolver T) (log : WorkLog T R) :
    Except SagaError (SerializableWorkLog R) := do
  let name ← resolver.getName log.activityType
  pure ⟨name, log.result⟩

def WorkItem.toSerializable (resolver : ActivityTypeResolver T) (item : WorkItem T A) :
    Except SagaError (SerializableWorkItem A) := do
  let name ← resolver.getName item.activityType
  pure ⟨name, item.arguments⟩

def toSerializable (resolver : ActivityTypeResolver T)
    (slip : RoutingSlip (WorkItem T A) (WorkLog T R)) : Except SagaError (SerializableRoutingSlip A R) := do
  let completedWorkLogs ← slip.completedWorkLogs.mapM (WorkLog.toSerializable resolver)
  let nextWorkItems ← slip.nextWorkItems.mapM (WorkItem.toSerializable resolver)
  pure ⟨completedWorkLogs, nextWorkItems⟩

def SerializableWorkItem.restored (resolver : ActivityTypeResolver T) (item : SerializableWorkItem A) :
    Except SagaError (WorkItem T A) := do
  let t ← resolver.resolve item.activityTypeName
  pure ⟨t, item.arguments⟩

def SerializableWorkLog.restored (resolver : ActivityTypeResolver T) (log : SerializableWorkLog R) :
    Except SagaError (WorkLog T R) := do
  let t ← resolver.resolve log.activityTypeName
  pure ⟨t, log.result⟩

def fromSerializable (resolver : ActivityTypeResolver T) (wire : SerializableRoutingSlip A R) :
    Except SagaError (RoutingSlip (WorkItem T A) (WorkLog T R)) := do
  let slip ← wire.nextWorkItems.foldlM (fun slip item => do
    let item ← item.restored resolver
    pure (slip.addWorkItem item)) (RoutingSlip.new [])
  wire.completedWorkLogs.foldlM (fun slip log => do
    let log ← log.restored resolver
    pure (slip.addCompletedWorkLog log)) slip

/-- Each map is written by itself. -/
structure MapBasedResolver (T : Type) where
  nameToType : String → Option T
  typeToName : T → Option String

namespace MapBasedResolver

def new : MapBasedResolver T := ⟨fun _ => none, fun _ => none⟩

def register [DecidableEq T] (resolver : MapBasedResolver T) (name : String) (activityType : T) :
    MapBasedResolver T :=
  ⟨Function.update resolver.nameToType name (some activityType),
    Function.update resolver.typeToName activityType (some name)⟩

/-- The last segment of a type's path. -/
def shortName (typePath : String) : String := (typePath.splitOn "::").getLast?.getD typePath

/-- An unregistered type is asked for the name it has itself. -/
def toResolver (resolver : MapBasedResolver T) (create : T → Activity T A R) (typePath : T → String) :
    ActivityTypeResolver T where
  resolve typeName :=
    match resolver.nameToType typeName with
    | some t => .ok t
    | none => .error (.activityTypeNotRegistered typeName)
  getName t :=
    match resolver.typeToName t with
    | some name => .ok name
    | none =>
      match (create t).typeName with
      | some name => .ok name
      | none => .error (.activityTypeNotRegistered (shortName (typePath t)))

/-- The resolver a sequence of registrations builds. -/
def ofRegistered [DecidableEq T] (registered : List (String × T)) : MapBasedResolver T :=
  registered.foldl (fun resolver r => resolver.register r.1 r.2) new

end MapBasedResolver

section Wire

variable {resolver : ActivityTypeResolver T} {slip back : RoutingSlip (WorkItem T A) (WorkLog T R)}

/-- What a type comes back as: the type its name stands for. -/
def ActivityTypeResolver.sent (resolver : ActivityTypeResolver T) (t : T) : Except SagaError T :=
  resolver.getName t >>= resolver.resolve

def RoutingSlip.activityTypes (slip : RoutingSlip (WorkItem T A) (WorkLog T R)) : List T :=
  slip.completedWorkLogs.map (·.activityType) ++ slip.nextWorkItems.map (·.activityType)

/-- Whenever the slip is sent and received, it is the slip that was sent. -/
def RoundTrips (resolver : ActivityTypeResolver T) (slip : RoutingSlip (WorkItem T A) (WorkLog T R)) :
    Prop :=
  ∀ wire back, toSerializable resolver slip = .ok wire → fromSerializable resolver wire = .ok back →
    back = slip

open Control

variable {ε α β γ σ : Type}

theorem mapM_eq_ok {f : α → Except ε β} {as : List α} {bs : List β} :
    as.mapM f = .ok bs ↔ List.Forall₂ (fun a b => f a = .ok b) as bs := by
  induction as generalizing bs with
  | nil =>
    rw [List.mapM_nil, List.forall₂_nil_left_iff]
    exact ⟨fun h => (Except.ok.inj h).symm, fun h => h ▸ rfl⟩
  | cons a as ih =>
    rw [List.mapM_cons, bind_eq_ok]
    constructor
    · rintro ⟨b, hb, h⟩
      obtain ⟨rest, hrest, h⟩ := bind_eq_ok.mp h
      cases h
      exact .cons hb (ih.mp hrest)
    · rintro (_ | ⟨hb, hrest⟩)
      exact ⟨_, hb, bind_eq_ok.mpr ⟨_, ih.mpr hrest, rfl⟩⟩

/-- A loop that adds what it makes of each element adds all of it in order. -/
theorem foldlM_add_eq_ok {f : α → Except ε β} {add : σ → β → σ} {as : List α} {s s' : σ} :
    as.foldlM (fun s a => do let b ← f a; pure (add s b)) s = .ok s' ↔
      ∃ bs, List.Forall₂ (fun a b => f a = .ok b) as bs ∧ s' = bs.foldl add s := by
  induction as generalizing s with
  | nil =>
    rw [List.foldlM_nil]
    constructor
    · intro h
      exact ⟨[], .nil, (Except.ok.inj h).symm⟩
    · rintro ⟨_, ⟨⟩, rfl⟩
      rfl
  | cons a as ih =>
    rw [List.foldlM_cons, bind_eq_ok]
    constructor
    · rintro ⟨next, hnext, h⟩
      obtain ⟨b, hb, hnext⟩ := bind_eq_ok.mp hnext
      cases hnext
      obtain ⟨bs, hbs, rfl⟩ := ih.mp h
      exact ⟨b :: bs, .cons hb hbs, rfl⟩
    · rintro ⟨_, _ | ⟨hb, hbs⟩, rfl⟩
      exact ⟨_, bind_eq_ok.mpr ⟨_, hb, rfl⟩, ih.mpr ⟨_, hbs, rfl⟩⟩

theorem foldl_addWorkItem {items : List (WorkItem T A)} :
    items.foldl RoutingSlip.addWorkItem slip =
      ⟨slip.completedWorkLogs, slip.nextWorkItems ++ items⟩ := by
  induction items generalizing slip with
  | nil => simp
  | cons item items ih => simp [ih, RoutingSlip.addWorkItem]

theorem foldl_addCompletedWorkLog {logs : List (WorkLog T R)} :
    logs.foldl RoutingSlip.addCompletedWorkLog slip =
      ⟨slip.completedWorkLogs ++ logs, slip.nextWorkItems⟩ := by
  induction logs generalizing slip with
  | nil => simp
  | cons log logs ih => simp [ih, RoutingSlip.addCompletedWorkLog]

theorem forall₂_comp {P : α → β → Prop} {Q : β → γ → Prop} {as : List α} {cs : List γ} :
    (∃ bs, List.Forall₂ P as bs ∧ List.Forall₂ Q bs cs) ↔
      List.Forall₂ (fun a c => ∃ b, P a b ∧ Q b c) as cs := by
  constructor
  · rintro ⟨bs, hp, hq⟩
    induction hp generalizing cs with
    | nil =>
      cases hq
      exact .nil
    | cons hab _ ih =>
      obtain _ | ⟨hbc, hq⟩ := hq
      exact .cons ⟨_, hab, hbc⟩ (ih hq)
  · intro h
    induction h with
    | nil => exact ⟨[], .nil, .nil⟩
    | cons hac _ ih =>
      obtain ⟨b, hab, hbc⟩ := hac
      obtain ⟨bs, hp, hq⟩ := ih
      exact ⟨b :: bs, .cons hab hp, .cons hbc hq⟩

theorem log_restored_iff {log log' : WorkLog T R} :
    (∃ w, log.toSerializable resolver = .ok w ∧ w.restored resolver = .ok log') ↔
      ∃ t, resolver.sent log.activityType = .ok t ∧ log' = ⟨t, log.result⟩ := by
  constructor
  · rintro ⟨w, hw, hback⟩
    obtain ⟨name, hname, hw⟩ := bind_eq_ok.mp hw
    cases hw
    obtain ⟨t, ht, hback⟩ := bind_eq_ok.mp hback
    exact ⟨t, bind_eq_ok.mpr ⟨name, hname, ht⟩, (Except.ok.inj hback).symm⟩
  · rintro ⟨t, ht, rfl⟩
    obtain ⟨name, hname, ht⟩ := bind_eq_ok.mp ht
    exact ⟨⟨name, log.result⟩, bind_eq_ok.mpr ⟨name, hname, rfl⟩, bind_eq_ok.mpr ⟨t, ht, rfl⟩⟩

theorem item_restored_iff {item item' : WorkItem T A} :
    (∃ w, item.toSerializable resolver = .ok w ∧ w.restored resolver = .ok item') ↔
      ∃ t, resolver.sent item.activityType = .ok t ∧ item' = ⟨t, item.arguments⟩ := by
  constructor
  · rintro ⟨w, hw, hback⟩
    obtain ⟨name, hname, hw⟩ := bind_eq_ok.mp hw
    cases hw
    obtain ⟨t, ht, hback⟩ := bind_eq_ok.mp hback
    exact ⟨t, bind_eq_ok.mpr ⟨name, hname, ht⟩, (Except.ok.inj hback).symm⟩
  · rintro ⟨t, ht, rfl⟩
    obtain ⟨name, hname, ht⟩ := bind_eq_ok.mp ht
    exact ⟨⟨name, item.arguments⟩, bind_eq_ok.mpr ⟨name, hname, rfl⟩, bind_eq_ok.mpr ⟨t, ht, rfl⟩⟩

/-- A slip comes back with what each of its activity types is sent as, and all else as it was. -/
theorem received_iff :
    (∃ wire, toSerializable resolver slip = .ok wire ∧ fromSerializable resolver wire = .ok back) ↔
      List.Forall₂ (fun log log' => ∃ t, resolver.sent log.activityType = .ok t ∧
        log' = WorkLog.mk t log.result) slip.completedWorkLogs back.completedWorkLogs ∧
      List.Forall₂ (fun item item' => ∃ t, resolver.sent item.activityType = .ok t ∧
        item' = WorkItem.mk t item.arguments) slip.nextWorkItems back.nextWorkItems := by
  simp only [← log_restored_iff, ← item_restored_iff, ← forall₂_comp]
  constructor
  · rintro ⟨wire, hto, hfrom⟩
    obtain ⟨wlogs, hwlogs, hto⟩ := bind_eq_ok.mp hto
    obtain ⟨witems, hwitems, hto⟩ := bind_eq_ok.mp hto
    cases hto
    obtain ⟨queued, hqueued, hfrom⟩ := bind_eq_ok.mp hfrom
    obtain ⟨items, hitems, rfl⟩ := foldlM_add_eq_ok.mp hqueued
    obtain ⟨logs, hlogs, rfl⟩ := foldlM_add_eq_ok.mp hfrom
    rw [foldl_addCompletedWorkLog, foldl_addWorkItem]
    exact ⟨⟨wlogs, mapM_eq_ok.mp hwlogs, hlogs⟩, witems, mapM_eq_ok.mp hwitems, hitems⟩
  · rintro ⟨⟨wlogs, hwlogs, hlogs⟩, witems, hwitems, hitems⟩
    refine ⟨⟨wlogs, witems⟩, ?_, ?_⟩
    · exact bind_eq_ok.mpr ⟨_, mapM_eq_ok.mpr hwlogs, bind_eq_ok.mpr ⟨_, mapM_eq_ok.mpr hwitems, rfl⟩⟩
    · refine bind_eq_ok.mpr ⟨_, foldlM_add_eq_ok.mpr ⟨_, hitems, rfl⟩, foldlM_add_eq_ok.mpr ⟨_, hlogs, ?_⟩⟩
      rw [foldl_addWorkItem, foldl_addCompletedWorkLog]
      rfl

theorem exists_forall₂_iff {P : α → β → Prop} {as : List α} :
    (∃ bs, List.Forall₂ P as bs) ↔ ∀ a ∈ as, ∃ b, P a b := by
  induction as with
  | nil =>
    constructor
    · rintro _ _ ⟨⟩
    · exact fun _ => ⟨[], .nil⟩
  | cons a as ih =>
    rw [List.forall_mem_cons, ← ih]
    constructor
    · rintro ⟨_, _ | ⟨hab, h⟩⟩
      exact ⟨⟨_, hab⟩, _, h⟩
    · rintro ⟨⟨b, hab⟩, bs, h⟩
      exact ⟨b :: bs, .cons hab h⟩

theorem forall_activityTypes {P : T → Prop} :
    (∀ t ∈ slip.activityTypes, P t) ↔
      (∀ log ∈ slip.completedWorkLogs, P log.activityType) ∧ ∀ item ∈ slip.nextWorkItems, P item.activityType := by
  simp only [RoutingSlip.activityTypes, List.forall_mem_append, List.forall_mem_map]

theorem eq_of_forall₂ {P : α → α → Prop} {as bs : List α} (h : List.Forall₂ P as bs)
    (heq : ∀ a ∈ as, ∀ b, P a b → b = a) : bs = as := by
  induction h with
  | nil => rfl
  | cons hab _ ih =>
    obtain ⟨hfirst, hrest⟩ := List.forall_mem_cons.mp heq
    rw [hfirst _ hab, ih hrest]

/-- The round trip gives the slip back when every activity type is sent as itself, and it does not
happen when one of them cannot be sent. -/
theorem roundTrips_iff_sent :
    RoundTrips resolver slip ↔ (∃ t ∈ slip.activityTypes, ∀ t', resolver.sent t ≠ .ok t') ∨
      ∀ t ∈ slip.activityTypes, resolver.sent t = .ok t := by
  have hback : RoundTrips resolver slip ↔ ∀ back,
      (∃ wire, toSerializable resolver slip = .ok wire ∧ fromSerializable resolver wire = .ok back) →
        back = slip := by
    constructor
    · rintro h back ⟨wire, hto, hfrom⟩
      exact h wire back hto hfrom
    · exact fun h wire back hto hfrom => h back ⟨wire, hto, hfrom⟩
  simp only [hback, received_iff]
  constructor
  · intro h
    by_cases hsent : ∀ t ∈ slip.activityTypes, ∃ t', resolver.sent t = .ok t'
    · right
      obtain ⟨hlogs, hitems⟩ := forall_activityTypes.mp hsent
      have hlogs : ∀ log ∈ slip.completedWorkLogs, ∃ log' : WorkLog T R,
          ∃ t, resolver.sent log.activityType = .ok t ∧ log' = ⟨t, log.result⟩ := by
        intro log hlog
        obtain ⟨t, ht⟩ := hlogs log hlog
        exact ⟨_, t, ht, rfl⟩
      have hitems : ∀ item ∈ slip.nextWorkItems, ∃ item' : WorkItem T A,
          ∃ t, resolver.sent item.activityType = .ok t ∧ item' = ⟨t, item.arguments⟩ := by
        intro item hitem
        obtain ⟨t, ht⟩ := hitems item hitem
        exact ⟨_, t, ht, rfl⟩
      obtain ⟨logs, hlogs⟩ := exists_forall₂_iff.mpr hlogs
      obtain ⟨items, hitems⟩ := exists_forall₂_iff.mpr hitems
      obtain rfl := h ⟨logs, items⟩ ⟨hlogs, hitems⟩
      refine forall_activityTypes.mpr ⟨fun log hlog => ?_, fun item hitem => ?_⟩
      · obtain ⟨t, ht, hlog'⟩ := List.forall₂_same.mp hlogs log hlog
        rw [ht, hlog']
      · obtain ⟨t, ht, hitem'⟩ := List.forall₂_same.mp hitems item hitem
        rw [ht, hitem']
    · left
      simp only [not_forall, not_exists] at hsent
      obtain ⟨t, ht, hunsent⟩ := hsent
      exact ⟨t, ht, hunsent⟩
  · rintro (⟨t, ht, hunsent⟩ | hself) back ⟨hlogs, hitems⟩
    · exfalso
      have hsent : ∀ t ∈ slip.activityTypes, ∃ t', resolver.sent t = .ok t' := by
        refine forall_activityTypes.mpr ⟨fun log hlog => ?_, fun item hitem => ?_⟩
        · obtain ⟨_, t', ht', -⟩ := exists_forall₂_iff.mp ⟨_, hlogs⟩ log hlog
          exact ⟨t', ht'⟩
        · obtain ⟨_, t', ht', -⟩ := exists_forall₂_iff.mp ⟨_, hitems⟩ item hitem
          exact ⟨t', ht'⟩
      obtain ⟨t', ht'⟩ := hsent t ht
      exact hunsent t' ht'
    · obtain ⟨hlogself, hitemself⟩ := forall_activityTypes.mp hself
      have hlogs' := eq_of_forall₂ hlogs (by
        rintro log hlog _ ⟨t, ht, rfl⟩
        rw [Except.ok.inj (ht.symm.trans (hlogself log hlog))])
      have hitems' := eq_of_forall₂ hitems (by
        rintro item hitem _ ⟨t, ht, rfl⟩
        rw [Except.ok.inj (ht.symm.trans (hitemself item hitem))])
      calc
        back = ⟨back.completedWorkLogs, back.nextWorkItems⟩ := rfl
        _ = slip := by rw [hlogs', hitems']

end Wire

namespace MapBasedResolver

variable [DecidableEq T] {create : T → Activity T A R} {typePath : T → String}
  {registered : List (String × T)}

/-- The name a type was last registered under. -/
def lastName (registered : List (String × T)) (t : T) : Option String :=
  (registered.reverse.find? fun r => r.2 = t).map (·.1)

/-- The type last registered under a name. -/
def lastType (registered : List (String × T)) (name : String) : Option T :=
  (registered.reverse.find? fun r => r.1 = name).map (·.2)

/-- The name a type goes by: the last it was registered under, else its own. -/
def nameOf (create : T → Activity T A R) (registered : List (String × T)) (t : T) : Option String :=
  (lastName registered t).or (create t).typeName

theorem ofRegistered_append {r : String × T} :
    ofRegistered (registered ++ [r]) = (ofRegistered registered).register r.1 r.2 := by
  rw [ofRegistered, List.foldl_append]
  rfl

theorem typeToName_ofRegistered (t : T) :
    (ofRegistered registered).typeToName t = lastName registered t := by
  induction registered using List.reverseRec with
  | nil => rfl
  | append_singleton registered r ih =>
    simp only [ofRegistered_append, register, Function.update_apply, lastName, List.reverse_append,
      List.reverse_singleton, List.singleton_append, List.find?_cons]
    by_cases h : t = r.2
    · simp [h]
    · simpa [h, Ne.symm h, lastName] using ih

theorem nameToType_ofRegistered (name : String) :
    (ofRegistered registered).nameToType name = lastType registered name := by
  induction registered using List.reverseRec with
  | nil => rfl
  | append_singleton registered r ih =>
    simp only [ofRegistered_append, register, Function.update_apply, lastType, List.reverse_append,
      List.reverse_singleton, List.singleton_append, List.find?_cons]
    by_cases h : name = r.1
    · simp [h]
    · simpa [h, Ne.symm h, lastType] using ih

theorem getName_ofRegistered {t : T} {name : String} :
    ((ofRegistered registered).toResolver create typePath).getName t = .ok name ↔
      nameOf create registered t = some name := by
  simp only [toResolver, typeToName_ofRegistered, nameOf]
  cases lastName registered t with
  | some last => simp
  | none => cases (create t).typeName <;> simp

theorem resolve_ofRegistered {t : T} {name : String} :
    ((ofRegistered registered).toResolver create typePath).resolve name = .ok t ↔
      lastType registered name = some t := by
  simp only [toResolver, nameToType_ofRegistered]
  cases lastType registered name <;> simp

theorem sent_ofRegistered {t t' : T} :
    ((ofRegistered registered).toResolver create typePath).sent t = .ok t' ↔
      ∃ name, nameOf create registered t = some name ∧ lastType registered name = some t' := by
  simp only [ActivityTypeResolver.sent, Control.bind_eq_ok, getName_ofRegistered, resolve_ofRegistered]

/-- A slip comes back as it was sent exactly when each of its activity types is the last registered
under the name it goes by, or when one of them has no name or one nothing is registered under. -/
theorem roundTrips_iff (registered : List (String × T)) (slip : RoutingSlip (WorkItem T A) (WorkLog T R)) :
    RoundTrips ((ofRegistered registered).toResolver create typePath) slip ↔
      (∃ t ∈ slip.activityTypes, ∀ name, nameOf create registered t = some name →
        lastType registered name = none) ∨
      ∀ t ∈ slip.activityTypes, ∃ name, nameOf create registered t = some name ∧
        lastType registered name = some t := by
  simp only [roundTrips_iff_sent, sent_ofRegistered, ne_eq, not_exists, not_and]
  refine or_congr (exists_congr fun t => and_congr_right fun _ => ?_) Iff.rfl
  constructor
  · intro h name hname
    exact Option.eq_none_iff_forall_ne_some.mpr fun t' => h t' name hname
  · intro h t' name hname
    rw [h name hname]
    simp

/-- The hotel is registered under the name the car had: a car to be reserved comes back as a
hotel. -/
theorem car_comes_back_as_hotel :
    ¬ RoundTrips ((ofRegistered [("booking", "car"), ("booking", "hotel")]).toResolver
        (fun _ => (⟨fun _ _ => .ok none, fun _ slip _ => (.ok true, slip), "", "", none⟩ :
          Activity String Unit Unit)) id)
      (⟨[], [⟨"car", ()⟩]⟩ : RoutingSlip (WorkItem String Unit) (WorkLog String Unit)) := by
  intro h
  have hback := h ⟨[], [⟨"booking", ()⟩]⟩ ⟨[], [⟨"hotel", ()⟩]⟩ rfl rfl
  exact absurd hback (by decide)

end MapBasedResolver

end AsceticDdd.Saga
