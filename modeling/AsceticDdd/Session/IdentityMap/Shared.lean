import AsceticDdd.Session.IdentityMap.Answers
import Mathlib.Data.Set.Insert

/-!
# One identity map for nested scopes

A session outside a transaction has a map that admits nothing; the outermost scope is given a fresh
one, and shares it with every scope nested in it. Sessions of all kinds do the same. What stands is
what was told in scopes that are open or have returned Ok: a scope that fails takes its facts with
it, but the map keeps them. What is told while several scopes are open is put down to the innermost
one, whichever session of the tree it was told through.
-/

namespace AsceticDdd.Session.IdentityMap

variable {κ ε : Type} [DecidableEq κ] [DecidableEq ε]

def DEFAULT_CACHE_SIZE : Nat := 100

def Map.withIsolation (isolation : IsolationLevel) : Map κ ε :=
  ⟨isolation, .new (.recency (.new DEFAULT_CACHE_SIZE))⟩

/-- An open scope: what stood when it was opened, and the keys that were told of in it. -/
structure Frame (κ ε : Type) where
  saved : κ → Option (Fact ε)
  told : Set κ

/-- A session and its open scopes, the innermost first: the map of the innermost one, with what was
told to it; the map the session has outside; what stands; and the keys that a scope told of that
failed, and none has since. -/
structure Shared (κ ε : Type) where
  isolation : IsolationLevel
  world : World κ ε
  outside : Map κ ε
  standing : κ → Option (Fact ε)
  stale : Set κ
  frames : List (Frame κ ε)

namespace Shared

inductive Action (κ ε : Type)
  /-- The map of the innermost scope is used, or the domain makes or drops an entity. -/
  | use (op : Op κ ε)
  | enter
  /-- The innermost scope returns, and is committed or rolled back. -/
  | leave (ok : Bool)

def acquire (isolation : IsolationLevel) : Shared κ ε where
  isolation := isolation
  world := ⟨.withIsolation .readUncommitted, [], [], fun _ => none, fun _ => none⟩
  outside := .withIsolation .readUncommitted
  standing _ := none
  stale := ∅
  frames := []

/-- The map of the innermost scope is `map`, and nothing was told to it. -/
def switch (s : Shared κ ε) (map : Map κ ε) : World κ ε :=
  { s.world with map := map, told := fun _ => none, admitted := fun _ => none }

def use (it : Iteration κ) (s : Shared κ ε) (op : Op κ ε) : Option (Shared κ ε) :=
  (s.world.step it op).map fun world =>
    let told := {key | op.Tells s.world.map.isolation key}
    { s with
      world := world
      standing := fun key =>
        if op.Tells s.world.map.isolation key then world.admitted key else s.standing key
      stale := s.stale \ told
      frames := s.frames.modifyHead fun frame => { frame with told := frame.told ∪ told } }

/-- A child of the session outside a transaction has a fresh map, any other its parent's. -/
def enter (s : Shared κ ε) : Shared κ ε :=
  match s.frames with
  | [] =>
    { s with
      world := s.switch (.withIsolation s.isolation)
      outside := s.world.map
      standing := fun _ => none
      stale := ∅
      frames := [⟨fun _ => none, ∅⟩] }
  | frames => { s with frames := ⟨s.standing, ∅⟩ :: frames }

/-- The map is cleared with the outermost scope; a nested one that fails leaves it as it is. -/
def leave (s : Shared κ ε) (ok : Bool) : Option (Shared κ ε) :=
  match s.frames with
  | [] => none
  | [_] =>
    some { s with
      world := s.switch s.outside
      standing := fun _ => none
      stale := ∅
      frames := [] }
  | frame :: outer :: rest =>
    if ok then some { s with frames := { outer with told := outer.told ∪ frame.told } :: rest }
    else
      some { s with
        standing := frame.saved
        stale := s.stale ∪ frame.told
        frames := outer :: rest }

def step (it : Iteration κ) (s : Shared κ ε) : Action κ ε → Option (Shared κ ε)
  | .use op => s.use it op
  | .enter => some s.enter
  | .leave ok => s.leave ok

/-- The states a session comes to, hash sets gone through in any order at each step. -/
inductive Reached (isolation : IsolationLevel) : Shared κ ε → Prop
  | acquire : Reached isolation (acquire isolation)
  | step {s s' : Shared κ ε} {action : Action κ ε} (it : Iteration κ) :
    Reached isolation s → s.step it action = some s' → Reached isolation s'

/-- What stands is what stood when each open scope was opened, but for the keys told of in it. -/
def Rests (standing : κ → Option (Fact ε)) : List (Frame κ ε) → Prop
  | [] => True
  | frame :: rest => (∀ key, key ∉ frame.told → standing key = frame.saved key) ∧ Rests frame.saved rest

/-- The map knows what was told to it, which is what stands but for the keys that are stale. -/
structure Agrees (isolation : IsolationLevel) (s : Shared κ ε) : Prop where
  isolation_eq : s.isolation = isolation
  answerable : s.world.Answerable (if s.frames = [] then .readUncommitted else isolation)
  outside : s.outside.isolation = .readUncommitted ∧ s.outside.state.Kept ∧
    ∀ held, Knows held s.outside.state.slots fun _ => none
  fresh : ∀ key, key ∉ s.stale → s.standing key = s.world.admitted key
  rests : Rests s.standing s.frames

variable {isolation : IsolationLevel} {s s' : Shared κ ε} {it : Iteration κ} {action : Action κ ε}

omit [DecidableEq κ] [DecidableEq ε] in
theorem rests_modifyHead {standing standing' : κ → Option (Fact ε)} {frames : List (Frame κ ε)} {told : Set κ}
    (h : Rests standing frames) (hsame : ∀ key, key ∉ told → standing' key = standing key) :
    Rests standing' (frames.modifyHead fun frame => { frame with told := frame.told ∪ told }) := by
  cases frames with
  | nil => trivial
  | cons frame rest =>
    refine ⟨fun key hkey => ?_, h.2⟩
    rw [hsame key fun hin => hkey (.inr hin)]
    exact h.1 key fun hin => hkey (.inl hin)

theorem Agrees.use (h : s.Agrees isolation) {op : Op κ ε} (huse : s.use it op = some s') :
    s'.Agrees isolation := by
  obtain ⟨world, hstep, rfl⟩ := Option.map_eq_some_iff.mp huse
  have hframes : (s.frames.modifyHead fun frame =>
      { frame with told := frame.told ∪ {key | op.Tells s.world.map.isolation key} }) = [] ↔ s.frames = [] := by
    cases s.frames with
    | nil => simp
    | cons => simp
  refine ⟨h.isolation_eq, ?_, h.outside, fun key hkey => ?_, rests_modifyHead h.rests fun key hkey => if_neg hkey⟩
  · simp only [hframes]
    exact h.answerable.step hstep
  · by_cases htells : op.Tells s.world.map.isolation key
    · exact if_pos htells
    · refine (if_neg htells).trans ((h.fresh key fun hstale => hkey ⟨hstale, htells⟩).trans ?_)
      exact (World.step_admitted hstep htells).symm

omit [DecidableEq ε] in
theorem withIsolation_kept (isolation : IsolationLevel) :
    (Map.withIsolation isolation : Map κ ε).state.Kept :=
  have hnew : (Window.recency (Recency.new DEFAULT_CACHE_SIZE) : Window κ).IsNew := .recency _
  ⟨hnew.agrees, fun k => iff_of_false (hnew.not_has k) (by rintro ⟨_, ⟨⟩⟩)⟩

theorem knows_empty (held : List ε) : Knows held (∅ : Slots κ ε) fun _ => none :=
  ⟨by rintro _ _ ⟨⟩, by rintro _ _ ⟨⟩, by rintro _ _ ⟨⟩⟩

/-- A map that knows of nothing may be switched to. -/
theorem Agrees.switch (h : s.Agrees isolation) {map : Map κ ε} (hkept : map.state.Kept)
    (hknows : ∀ held, Knows held map.state.slots fun _ => none) :
    (s.switch map).Answerable map.isolation :=
  ⟨rfl, hkept, hknows _, h.answerable.held_born, by rintro _ _ ⟨⟩, by rintro _ _ ⟨⟩, fun _ => rfl⟩

theorem acquire_agrees (isolation : IsolationLevel) : (acquire isolation : Shared κ ε).Agrees isolation where
  isolation_eq := rfl
  answerable := ⟨rfl, withIsolation_kept _, knows_empty _, by rintro _ ⟨⟩, by rintro _ _ ⟨⟩, by rintro _ _ ⟨⟩,
    fun _ => rfl⟩
  outside := ⟨rfl, withIsolation_kept _, knows_empty⟩
  fresh _ _ := rfl
  rests := trivial

theorem Agrees.enter (h : s.Agrees isolation) : s.enter.Agrees isolation := by
  rw [Shared.enter]
  cases hframes : s.frames with
  | nil =>
    have hanswerable := h.answerable
    rw [if_pos hframes] at hanswerable
    have hnone : ∀ k fact, s.world.admitted k ≠ some fact := by
      intro k fact hfact
      have hadmits := hanswerable.admits k fact hfact
      cases hadmits
    refine ⟨h.isolation_eq, ?_, ⟨hanswerable.level, hanswerable.kept, fun held => ?_⟩, fun _ _ => rfl,
      fun _ _ => rfl, trivial⟩
    · exact h.isolation_eq ▸ h.switch (withIsolation_kept s.isolation) knows_empty
    · refine ⟨fun k fact hk => absurd (hanswerable.knows.anchored k fact hk) (hnone k fact),
        fun k e hk => absurd (hanswerable.knows.released k e hk) (hnone k _), by rintro _ _ ⟨⟩⟩
  | cons frame rest =>
    refine ⟨h.isolation_eq, ?_, h.outside, h.fresh, fun _ _ => rfl, hframes ▸ h.rests⟩
    have hanswerable := h.answerable
    rwa [hframes] at hanswerable

theorem Agrees.leave (h : s.Agrees isolation) {ok : Bool} (hleave : s.leave ok = some s') :
    s'.Agrees isolation := by
  have hrests := h.rests
  have hanswerable := h.answerable
  rw [Shared.leave] at hleave
  split at hleave
  · cases hleave
  · cases hleave
    refine ⟨h.isolation_eq, ?_, h.outside, fun _ _ => rfl, trivial⟩
    have hswitch := h.switch h.outside.2.1 h.outside.2.2
    rwa [h.outside.1] at hswitch
  · rename_i frame outer rest hframes
    rw [hframes] at hrests hanswerable
    obtain ⟨hinner, houter, hlast⟩ := hrests
    split at hleave
    · cases hleave
      refine ⟨h.isolation_eq, hanswerable, h.outside, h.fresh, fun key hkey => ?_, hlast⟩
      rw [hinner key fun hin => hkey (.inr hin)]
      exact houter key fun hin => hkey (.inl hin)
    · cases hleave
      refine ⟨h.isolation_eq, hanswerable, h.outside, fun key hkey => ?_, houter, hlast⟩
      dsimp only
      rw [← hinner key fun hin => hkey (.inr hin)]
      exact h.fresh key fun hstale => hkey (.inl hstale)

theorem Reached.agrees (h : Reached isolation s) : s.Agrees isolation := by
  induction h with
  | acquire => exact acquire_agrees isolation
  | @step s s' action it _ hstep ih =>
    cases action with
    | use op => exact ih.use hstep
    | enter =>
      cases hstep
      exact ih.enter
    | leave ok => exact ih.leave hstep

/-- What the map answers in a tree of scopes: what was told last, and what stands unless it is stale. -/
theorem get_standing (h : Reached isolation s) (it : Iteration κ) (key : κ) :
    (s.frames = [] → (s.world.map.get it s.world.held key).1 = .unknown) ∧
    (∀ e, (s.world.map.get it s.world.held key).1 = .found e → s.world.admitted key = some (.entity e)) ∧
    ((s.world.map.get it s.world.held key).1 = .absent → s.world.admitted key = some .absence) ∧
    (key ∉ s.stale →
      (∀ e, (s.world.map.get it s.world.held key).1 = .found e → s.standing key = some (.entity e)) ∧
      ((s.world.map.get it s.world.held key).1 = .absent → s.standing key = some .absence) ∧
      ∀ e, s.standing key = some (.entity e) → e ∈ s.world.held ∨ s.world.map.state.window.Has key →
        (s.world.map.get it s.world.held key).1 = .found e) := by
  have hagrees := h.agrees
  have hanswerable := hagrees.answerable
  have hrecalled := State.recall_spec it key hanswerable.kept hanswerable.knows
  have hget : (s.world.map.get it s.world.held key).1 = (s.world.map.state.recallKey it s.world.held key).1 :=
    hanswerable.recall_eq
  rw [hget]
  refine ⟨fun houtside => ?_, hrecalled.found, hrecalled.absent, fun hfresh => ?_⟩
  · rw [if_pos houtside] at hanswerable
    match hanswer : (s.world.map.state.recallKey it s.world.held key).1 with
    | .found e => cases hanswerable.admits key _ (hrecalled.found e hanswer)
    | .absent => cases hanswerable.admits key _ (hrecalled.absent hanswer)
    | .unknown => rfl
  · rw [hagrees.fresh key hfresh]
    refine ⟨hrecalled.found, hrecalled.absent, fun e hfact hkeeps => hrecalled.answers e hfact ?_⟩
    refine alive_iff.mpr (hkeeps.imp_right fun hhas => ?_)
    obtain ⟨fact, hslot⟩ := (hanswerable.kept.has_iff key).mp hhas
    cases (hanswerable.knows.anchored key fact hslot).symm.trans hfact
    exact ⟨key, hslot⟩

def after (it : Iteration κ) (s : Shared κ ε) : List (Action κ ε) → Shared κ ε
  | [] => s
  | action :: rest => (s.step it action).elim s (after it · rest)

theorem Reached.after (it : Iteration κ) (actions : List (Action κ ε)) (h : Reached isolation s) :
    Reached isolation (s.after it actions) := by
  induction actions generalizing s with
  | nil => exact h
  | cons action actions ih =>
    rw [Shared.after]
    cases hstep : s.step it action with
    | none => exact h
    | some s' => exact ih (h.step it hstep)

/-- A scope adds an entity, and a scope nested in it adds another and fails. -/
def besideFailed : Shared Bool Nat :=
  (acquire .serializable).after World.pair
    [.enter, .use (.create 7), .use (.add false 7 true), .enter, .use (.create 8), .use (.add true 8 true),
      .leave false]

theorem get_standing_beside : besideFailed.frames ≠ [] ∧
    (besideFailed.world.map.get World.pair besideFailed.world.held true).1 = .found 8 ∧
    besideFailed.world.admitted true = some (.entity 8) ∧ true ∈ besideFailed.stale ∧
    false ∉ besideFailed.stale ∧
    (besideFailed.world.map.get World.pair besideFailed.world.held false).1 = .found 7 ∧
    besideFailed.standing false = some (.entity 7) := by
  have hreached : Reached .serializable besideFailed := .after World.pair _ .acquire
  obtain ⟨_, htold, _⟩ := get_standing hreached World.pair true
  obtain ⟨_, _, _, hfresh⟩ := get_standing hreached World.pair false
  have hadded : (besideFailed.world.map.get World.pair besideFailed.world.held true).1 = .found 8 := by decide
  have hnot : false ∉ besideFailed.stale := by
    rintro (h | (h | h) | h)
    · exact h.1.1.1.1
    · exact h
    · exact h
    · cases h.1
  obtain ⟨hfound, _, hanswers⟩ := hfresh hnot
  have hseven : (besideFailed.world.map.get World.pair besideFailed.world.held false).1 = .found 7 :=
    hanswers 7 rfl (.inl (by decide))
  exact ⟨by rintro ⟨⟩, hadded, htold 8 hadded, .inr (.inr ⟨rfl, rfl⟩), hnot, hseven, hfound 7 hseven⟩

/-- A nested scope adds an entity and fails; its parent goes on. -/
def addedAndFailed : List (Action Unit Nat) :=
  [.enter, .enter, .use (.create 7), .use (.add () 7 true), .leave false]

/-- The entity that was added in the scope that failed is answered, though it does not stand. -/
theorem rolled_back_found : ¬ ∀ (isolation : IsolationLevel) (s : Shared Unit Nat) (it : Iteration Unit) (key : Unit)
    (e : Nat), Reached isolation s → (s.world.map.get it s.world.held key).1 = .found e →
    s.standing key = some (.entity e) := by
  intro h
  have hstanding := h .serializable ((acquire .serializable).after World.single addedAndFailed) World.single () 7
    (.after World.single addedAndFailed .acquire) (by decide)
  cases hstanding

end Shared

end AsceticDdd.Session.IdentityMap
