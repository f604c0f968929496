import AsceticDdd.Session.IdentityMap.Knows

/-!
# What the identity map answers

A run tells the map facts, asks it, and drops entities. Beside the map it keeps the last fact told
of each key since the key was removed or the map cleared, and the last of those that the level
admits.
-/

namespace AsceticDdd.Session.IdentityMap

variable {κ ε : Type} [DecidableEq κ] [DecidableEq ε]

/-- The map, the entities the domain holds, and those there have been; and what was told. -/
structure World (κ ε : Type) where
  map : Map κ ε
  held : List ε
  born : List ε
  told : κ → Option (Fact ε)
  admitted : κ → Option (Fact ε)

inductive Op (κ ε : Type)
  | create (e : ε)
  | drop (e : ε)
  /-- The entity is told of, and the domain keeps a handle of its own or not. -/
  | add (key : κ) (e : ε) (keeps : Bool)
  | addAbsent (key : κ)
  | get (key : κ)
  | has (key : κ)
  | remove (key : κ)
  | clear
  | setSize (size : Nat)

/-- The operation tells a fact of the key that the level admits, or takes back what was told. -/
def Op.Tells (isolation : IsolationLevel) (key : κ) : Op κ ε → Prop
  | add key' _ _ => key' = key ∧ admits isolation .entity
  | addAbsent key' => key' = key ∧ admits isolation .absence
  | remove key' => key' = key
  | clear => True
  | _ => False

instance (isolation : IsolationLevel) (key : κ) : (op : Op κ ε) → Decidable (op.Tells isolation key)
  | .add _ _ _ | .addAbsent _ => instDecidableAnd
  | .remove key' => inferInstanceAs (Decidable (key' = key))
  | .clear => .isTrue trivial
  | .create _ | .drop _ | .get _ | .has _ | .setSize _ => .isFalse id

namespace World

def start (isolation : IsolationLevel) (window : Window κ) : World κ ε :=
  ⟨⟨isolation, .new window⟩, [], [], fun _ => none, fun _ => none⟩

/-- The facts after one more was told. -/
def tell (w : World κ ε) (key : κ) (fact : Fact ε) : World κ ε :=
  { w with
    told := Function.update w.told key (some fact)
    admitted :=
      if admits w.map.isolation fact.kind then Function.update w.admitted key (some fact)
      else w.admitted }

/-- An allocation is new; only an entity that is held can be told of. -/
def step (it : Iteration κ) (w : World κ ε) : Op κ ε → Option (World κ ε)
  | .create e => if e ∈ w.born then none else some { w with held := e :: w.held, born := e :: w.born }
  | .drop e => some { w with held := w.held.filter (· ≠ e) }
  | .add key e keeps =>
    if e ∈ w.held then
      let held := if keeps then w.held else w.held.filter (· ≠ e)
      some { w.tell key (.entity e) with map := w.map.add it held key e, held := held }
    else none
  | .addAbsent key => some { w.tell key .absence with map := w.map.addAbsent it w.held key }
  | .get key =>
    let answer := w.map.get it w.held key
    let held := match answer.1 with | .found e => e :: w.held | _ => w.held
    some { w with map := answer.2, held := held }
  | .has key => some { w with map := (w.map.has it w.held key).2 }
  | .remove key =>
    some { w with
      map := w.map.remove key
      told := Function.update w.told key none
      admitted := Function.update w.admitted key none }
  | .clear => some { w with map := w.map.clear, told := fun _ => none, admitted := fun _ => none }
  | .setSize size => some { w with map := w.map.setSize it w.held size }

/-- What a run of such operations leads to, hash sets gone through in any order at each. -/
inductive Run (allowed : Op κ ε → Prop) (w : World κ ε) : World κ ε → Prop
  | refl : Run allowed w w
  | step {v v' : World κ ε} {op : Op κ ε} (it : Iteration κ) :
    Run allowed w v → allowed op → v.step it op = some v' → Run allowed w v'

end World

namespace State

variable {it : Iteration κ} {held held' : List ε} {s : State κ ε} {facts : κ → Option (Fact ε)} {key : κ}

/-- Inserting an anchored fact, admitting its key and sweeping. -/
theorem remembered_spec (it : Iteration κ) (s' : State κ ε) (held' : List ε) {fact : Fact ε} (hkept : s.Kept) (h : Knows held s.slots facts)
    (hwindow : s'.window = s.window)
    (hlookup : ∀ k, s'.slots.lookup k = if k = key then some (.anchored fact) else s.slots.lookup k)
    (halive : ∀ e, alive held' s'.slots e = true → alive held s.slots e = true) :
    ((s'.admitKey it held' key).sweepWhenDue held').Kept ∧
      Knows held' ((s'.admitKey it held' key).sweepWhenDue held').slots
        (Function.update facts key (some fact)) := by
  obtain ⟨hloosens, hswept⟩ := hkept.used it held' fact hwindow hlookup
  exact ⟨hswept, (h.insert fact hlookup halive).loosen hloosens⟩

theorem remember_spec (it : Iteration κ) (key : κ) {fact : Fact ε} (hkept : s.Kept) (h : Knows held s.slots facts)
    (hheld : ∀ e ∈ held', e ∈ held) (hfact : ∀ e, fact = .entity e → e ∈ held) :
    (s.remember it held' key fact).Kept ∧
      Knows held' (s.remember it held' key fact).slots (Function.update facts key (some fact)) := by
  have hlookup : ∀ k, (s.slots.insert key (.anchored fact)).lookup k =
      if k = key then some (.anchored fact) else s.slots.lookup k := by
    intro k
    split
    · rename_i hk
      rw [hk, AList.lookup_insert]
    · rename_i hk
      rw [AList.lookup_insert_ne hk]
  refine remembered_spec it _ held' hkept h rfl hlookup fun e he => ?_
  rw [alive_iff] at he ⊢
  obtain he | ⟨k, hk⟩ := he
  · exact .inl (hheld e he)
  · rw [hlookup] at hk
    split at hk
    · cases hk
      exact .inl (hfact e rfl)
    · exact .inr ⟨k, hk⟩

/-- The entities that are held while the map answers. -/
def holding (answer : Lookup ε) (held : List ε) : List ε :=
  match answer with
  | .found e => e :: held
  | _ => held

/-- An answer is the key's fact; an entity that is alive is answered; and the slots know what they
knew, the answered entity being held. -/
structure Recalled (facts : κ → Option (Fact ε)) (held : List ε) (s : State κ ε) (key : κ)
    (r : Lookup ε × State κ ε) : Prop where
  found : ∀ e, r.1 = .found e → facts key = some (.entity e)
  absent : r.1 = .absent → facts key = some .absence
  answers : ∀ e, facts key = some (.entity e) → alive held s.slots e = true → r.1 = .found e
  kept : r.2.Kept
  knows : Knows (holding r.1 held) r.2.slots facts
  alive : ∀ e, r.1 = .found e → IdentityMap.alive held s.slots e = true

/-- The slot answers, and its key is admitted anew. -/
theorem recall_found_spec (it : Iteration κ) {fact : Fact ε} (hkept : s.Kept) (h : Knows held s.slots facts)
    (hfact : facts key = some fact) (halive : ∀ e, fact = .entity e → alive held s.slots e = true) :
    let s' := (({ s with slots := (s.slots.erase key).insert key (.anchored fact) } : State κ ε).admitKey it
      (holding fact.recallKey held) key).sweepWhenDue (holding fact.recallKey held)
    s'.Kept ∧ Knows (holding fact.recallKey held) s'.slots facts := by
  have hsame : Function.update facts key (some fact) = facts := hfact ▸ Function.update_eq_self key facts
  have hspec := remembered_spec it { s with slots := (s.slots.erase key).insert key (.anchored fact) }
    (holding fact.recallKey held) hkept h rfl lookup_insert_erase ?_
  · rwa [hsame] at hspec
  · intro e he
    rw [alive_iff] at he
    obtain he | ⟨k, hk⟩ := he
    · cases fact with
      | absence => exact alive_iff.mpr (.inl he)
      | entity answered =>
        obtain rfl | he := List.mem_cons.mp he
        · exact halive _ rfl
        · exact alive_iff.mpr (.inl he)
    · rw [lookup_insert_erase] at hk
      split at hk
      · cases hk
        exact halive e rfl
      · exact alive_iff.mpr (.inr ⟨k, hk⟩)

/-- The entity of a released slot has died: the key is forgotten. -/
theorem recall_dead_spec {e : ε} (hkept : s.Kept) (h : Knows held s.slots facts)
    (hslot : s.slots.lookup key = some (.released e)) (hdead : ¬ alive held (s.slots.erase key) e = true) :
    let s' := ({ s with slots := s.slots.erase key, window := s.window.remove key } : State κ ε).sweepWhenDue held
    s'.Kept ∧ Knows held s'.slots facts := by
  have herased : Loosens held s.slots (s.slots.erase key) := by
    refine ⟨fun x hx => alive_erase hx, fun k => ?_⟩
    rw [lookup_erase_eq]
    split
    · rename_i hk
      subst hk
      exact .inr (.inr ⟨e, hslot, rfl, hdead⟩)
    · exact .inl rfl
  obtain ⟨hsweep, hswept⟩ := sweepWhenDue_spec held (hkept.forget key)
  exact ⟨hswept, h.loosen (herased.trans hsweep)⟩

theorem alive_erase_released {e x : ε} (hslot : s.slots.lookup key = some (.released e))
    (hx : alive held s.slots x = true) : alive held (s.slots.erase key) x = true := by
  rw [alive_iff] at hx ⊢
  refine hx.imp_right fun ⟨k, hk⟩ => ⟨k, ?_⟩
  rw [lookup_erase_eq]
  split
  · rename_i hkey
    rw [hkey, hslot] at hk
    cases hk
  · exact hk

theorem recall_spec (it : Iteration κ) (key : κ) (hkept : s.Kept) (h : Knows held s.slots facts) :
    Recalled facts held s key (s.recallKey it held key) := by
  rw [recallKey]
  match hslot : s.slots.lookup key with
  | none =>
    refine ⟨by rintro _ ⟨⟩, by rintro ⟨⟩, fun e hfact he => ?_, hkept, h, by rintro _ ⟨⟩⟩
    obtain hk | hk := h.kept key e hfact he
    · rw [hslot] at hk
      cases hk
    · rw [hslot] at hk
      cases hk
  | some (.anchored .absence) =>
    have hfact := h.anchored key _ hslot
    obtain ⟨hkept', hknows⟩ := recall_found_spec it hkept h hfact (by rintro _ ⟨⟩)
    refine ⟨by rintro _ ⟨⟩, fun _ => hfact, fun e he _ => ?_, hkept', hknows, by rintro _ ⟨⟩⟩
    rw [hfact] at he
    cases he
  | some (.anchored (.entity e)) =>
    have hfact := h.anchored key _ hslot
    have halive : alive held s.slots e = true := alive_iff.mpr (.inr ⟨key, hslot⟩)
    obtain ⟨hkept', hknows⟩ := recall_found_spec it hkept h hfact (by rintro _ ⟨⟩; exact halive)
    refine ⟨by rintro _ ⟨⟩; exact hfact, by rintro ⟨⟩, fun e' he _ => ?_, hkept', hknows, by rintro _ ⟨⟩; exact halive⟩
    rw [hfact] at he
    cases he
    rfl
  | some (.released e) =>
    have hfact := h.released key _ hslot
    by_cases he : alive held (s.slots.erase key) e = true
    · have halive := alive_erase he
      obtain ⟨hkept', hknows⟩ := recall_found_spec it hkept h hfact (by rintro _ ⟨⟩; exact halive)
      simp only [Slot.recallKey, he, if_true]
      refine ⟨by rintro _ ⟨⟩; exact hfact, by rintro ⟨⟩, fun e' he' _ => ?_, hkept', hknows, by rintro _ ⟨⟩; exact halive⟩
      rw [hfact] at he'
      cases he'
      rfl
    · obtain ⟨hkept', hknows⟩ := recall_dead_spec hkept h hslot he
      simp only [Slot.recallKey, he]
      refine ⟨by rintro _ ⟨⟩, by rintro ⟨⟩, fun e' he' halive => ?_, hkept', hknows, by rintro _ ⟨⟩⟩
      rw [hfact] at he'
      cases he'
      exact absurd (alive_erase_released hslot halive) he

theorem forget_spec (key : κ) (hkept : s.Kept) (h : Knows held s.slots facts) :
    (s.forget key).Kept ∧ Knows held (s.forget key).slots (Function.update facts key none) :=
  ⟨hkept.forget key, h.erase⟩

theorem forgetAll_spec (held : List ε) (s : State κ ε) : s.forgetAll.Kept ∧ Knows held s.forgetAll.slots fun _ => none := by
  refine ⟨.forgetAll s, ⟨?_, ?_, ?_⟩⟩
  · rintro _ _ ⟨⟩
  · rintro _ _ ⟨⟩
  · rintro _ _ ⟨⟩

theorem resize_spec (it : Iteration κ) (size : Nat) (hkept : s.Kept) (h : Knows held s.slots facts) :
    (s.resize it held size).Kept ∧ Knows held (s.resize it held size).slots facts := by
  obtain ⟨hloosens, hresized⟩ := hkept.resize it held size
  exact ⟨hresized, h.loosen hloosens⟩

end State

omit [DecidableEq ε] in
theorem update_eq_some {facts : κ → Option (Fact ε)} {key k : κ} {fact : Option (Fact ε)} {f : Fact ε}
    (h : Function.update facts key fact k = some f) : fact = some f ∨ facts k = some f := by
  by_cases hk : k = key
  · subst hk
    exact .inl (Function.update_self k fact facts ▸ h)
  · exact .inr (Function.update_of_ne hk fact facts ▸ h)

namespace World

variable {it : Iteration κ} {w w' : World κ ε} {op : Op κ ε} {isolation : IsolationLevel} {key : κ}

/-- The map knows what was told of and admitted. -/
structure Answerable (isolation : IsolationLevel) (w : World κ ε) : Prop where
  level : w.map.isolation = isolation
  kept : w.map.state.Kept
  knows : Knows w.held w.map.state.slots w.admitted
  held_born : ∀ e ∈ w.held, e ∈ w.born
  admitted_born : ∀ k e, w.admitted k = some (.entity e) → e ∈ w.born
  admits : ∀ k fact, w.admitted k = some fact → admits isolation fact.kind = true
  told : isolation = .serializable → w.admitted = w.told

theorem start_answerable {window : Window κ} (hnew : window.IsNew) :
    (start isolation window : World κ ε).Answerable isolation where
  level := rfl
  kept := ⟨hnew.agrees, fun k => iff_of_false (hnew.not_has k) (by rintro ⟨_, ⟨⟩⟩)⟩
  knows := ⟨by rintro _ _ ⟨⟩, by rintro _ _ ⟨⟩, by rintro _ _ ⟨⟩⟩
  held_born := by rintro _ ⟨⟩
  admitted_born := by rintro _ _ ⟨⟩
  admits := by rintro _ _ ⟨⟩
  told _ := rfl

/-- A fact is told of what the domain holds; the domain may hold less after. -/
theorem Answerable.tell (h : w.Answerable isolation) {fact : Fact ε} {held : List ε}
    (hheld : ∀ e ∈ held, e ∈ w.held) (hfact : ∀ e, fact = .entity e → e ∈ w.held) :
    { w.tell key fact with map := w.map.remember it held key fact, held := held }.Answerable isolation := by
  have hborn : ∀ e ∈ held, e ∈ w.born := fun e he => h.held_born e (hheld e he)
  by_cases hadmits : IdentityMap.admits w.map.isolation fact.kind = true
  · obtain ⟨hkept, hknows⟩ := State.remember_spec it key h.kept h.knows hheld hfact
    simp only [World.tell, Map.remember, hadmits, if_true]
    refine ⟨h.level, hkept, hknows, hborn, fun k e hk => ?_, fun k f hk => ?_, fun hser => ?_⟩
    · obtain hnew | hold := update_eq_some hk
      · cases hnew
        exact h.held_born e (hfact e rfl)
      · exact h.admitted_born k e hold
    · obtain hnew | hold := update_eq_some hk
      · cases hnew
        exact h.level ▸ hadmits
      · exact h.admits k f hold
    · rw [h.told hser]
  · simp only [World.tell, Map.remember, hadmits]
    refine ⟨h.level, h.kept, h.knows.mono fun e he => ?_, hborn, h.admitted_born, h.admits, fun hser => ?_⟩
    · rw [alive_iff] at he ⊢
      exact he.imp_left (hheld e)
    · rw [h.level, hser] at hadmits
      exact absurd rfl hadmits

/-- What the slots recall, the level admits. -/
theorem Answerable.recall_eq (h : w.Answerable isolation) :
    (w.map.recallKey it w.held key).1 = (w.map.state.recallKey it w.held key).1 := by
  have hrecalled := State.recall_spec it key h.kept h.knows
  rw [Map.recallKey]
  match hanswer : (w.map.state.recallKey it w.held key).1 with
  | .found e =>
    have hadmits := h.admits key _ (hrecalled.found e hanswer)
    simp only [Fact.kind] at hadmits
    simp [Lookup.admitted, h.level, hadmits]
  | .absent =>
    have hadmits := h.admits key _ (hrecalled.absent hanswer)
    simp only [Fact.kind] at hadmits
    simp [Lookup.admitted, h.level, hadmits]
  | .unknown => rfl

theorem Answerable.create (h : w.Answerable isolation) {e : ε} (hnew : e ∉ w.born) :
    { w with held := e :: w.held, born := e :: w.born }.Answerable isolation where
  level := h.level
  kept := h.kept
  knows := by
    refine ⟨h.knows.anchored, h.knows.released, fun k x hfact hx => h.knows.kept k x hfact ?_⟩
    rw [alive_iff] at hx ⊢
    obtain hheld | hslot := hx
    · obtain rfl | hheld := List.mem_cons.mp hheld
      · exact absurd (h.admitted_born k _ hfact) hnew
      · exact .inl hheld
    · exact .inr hslot
  held_born x hx := by
    obtain rfl | hx := List.mem_cons.mp hx
    · exact List.mem_cons_self
    · exact List.mem_cons_of_mem _ (h.held_born x hx)
  admitted_born k x hk := List.mem_cons_of_mem _ (h.admitted_born k x hk)
  admits := h.admits
  told := h.told

/-- The map is asked, and the domain goes on holding no more than the answer. -/
theorem Answerable.recallKey (h : w.Answerable isolation) {held : List ε}
    (hheld : ∀ e ∈ held, e ∈ State.holding (w.map.recallKey it w.held key).1 w.held) :
    { w with map := (w.map.recallKey it w.held key).2, held := held }.Answerable isolation := by
  have hrecalled := State.recall_spec it key h.kept h.knows
  rw [h.recall_eq] at hheld
  refine ⟨h.level, hrecalled.kept, hrecalled.knows.mono fun e he => ?_, fun e he => ?_, h.admitted_born, h.admits, h.told⟩
  · rw [alive_iff] at he ⊢
    exact he.imp_left (hheld e)
  · have hmem := hheld e he
    match hanswer : (w.map.state.recallKey it w.held key).1 with
    | .found x =>
      rw [hanswer] at hmem
      obtain rfl | hmem := List.mem_cons.mp hmem
      · exact h.admitted_born key _ (hrecalled.found _ hanswer)
      · exact h.held_born e hmem
    | .absent => exact h.held_born e (by rwa [hanswer] at hmem)
    | .unknown => exact h.held_born e (by rwa [hanswer] at hmem)

theorem Answerable.step (h : w.Answerable isolation) (hstep : w.step it op = some w') :
    w'.Answerable isolation := by
  cases op with
  | create e =>
    simp only [World.step, Option.ite_none_left_eq_some, Option.some.injEq] at hstep
    obtain ⟨hnew, rfl⟩ := hstep
    exact h.create hnew
  | drop e =>
    cases hstep
    refine ⟨h.level, h.kept, h.knows.mono fun x hx => ?_, fun x hx => h.held_born x (List.mem_of_mem_filter hx),
      h.admitted_born, h.admits, h.told⟩
    rw [alive_iff] at hx ⊢
    exact hx.imp_left List.mem_of_mem_filter
  | add key e keeps =>
    simp only [World.step, Option.ite_none_right_eq_some, Option.some.injEq] at hstep
    obtain ⟨hheld, rfl⟩ := hstep
    refine h.tell (fun x hx => ?_) (by rintro _ ⟨⟩; exact hheld)
    cases keeps with
    | true => exact hx
    | false => exact List.mem_of_mem_filter hx
  | addAbsent key =>
    cases hstep
    exact h.tell (fun _ hx => hx) (by rintro _ ⟨⟩)
  | get key =>
    cases hstep
    exact h.recallKey fun _ hx => hx
  | has key =>
    cases hstep
    refine h.recallKey fun e he => ?_
    cases (w.map.recallKey it w.held key).1 with
    | found x => exact List.mem_cons_of_mem _ he
    | absent => exact he
    | unknown => exact he
  | remove key =>
    cases hstep
    obtain ⟨hkept, hknows⟩ := State.forget_spec key h.kept h.knows
    have hfacts : ∀ k fact, Function.update w.admitted key none k = some fact → w.admitted k = some fact := by
      intro k fact hk
      obtain hnone | hk := update_eq_some hk
      · cases hnone
      · exact hk
    refine ⟨h.level, hkept, hknows, h.held_born, fun k e hk => h.admitted_born k e (hfacts k _ hk),
      fun k fact hk => h.admits k fact (hfacts k _ hk), fun hser => ?_⟩
    dsimp only
    rw [h.told hser]
  | clear =>
    cases hstep
    obtain ⟨hkept, hknows⟩ := State.forgetAll_spec w.held w.map.state
    exact ⟨h.level, hkept, hknows, h.held_born, by rintro _ _ ⟨⟩, by rintro _ _ ⟨⟩, fun _ => rfl⟩
  | setSize size =>
    cases hstep
    obtain ⟨hkept, hknows⟩ := State.resize_spec it size h.kept h.knows
    exact ⟨h.level, hkept, hknows, h.held_born, h.admitted_born, h.admits, h.told⟩

theorem Run.answerable {allowed : Op κ ε → Prop} (hrun : Run allowed w w') (h : w.Answerable isolation) :
    w'.Answerable isolation := by
  induction hrun with
  | refl => exact h
  | step it _ _ hstep ih => exact ih.step hstep

/-- Only an operation that tells of the key changes the fact that was last told of it. -/
theorem step_admitted (hstep : w.step it op = some w') (hop : ¬ op.Tells w.map.isolation key) :
    w'.admitted key = w.admitted key := by
  have htell : ∀ key' (fact : Fact ε), ¬ (key' = key ∧ admits w.map.isolation fact.kind = true) →
      (w.tell key' fact).admitted key = w.admitted key := by
    intro key' fact hnot
    by_cases hadmits : admits w.map.isolation fact.kind = true
    · simp only [World.tell, hadmits, if_true]
      exact Function.update_of_ne (fun hk => hnot ⟨hk.symm, hadmits⟩) _ _
    · simp only [World.tell, hadmits]
      rfl
  cases op with
  | create e =>
    simp only [World.step, Option.ite_none_left_eq_some, Option.some.injEq] at hstep
    obtain ⟨-, rfl⟩ := hstep
    rfl
  | add key' e keeps =>
    simp only [World.step, Option.ite_none_right_eq_some, Option.some.injEq] at hstep
    obtain ⟨-, rfl⟩ := hstep
    exact htell key' (.entity e) hop
  | addAbsent key' =>
    cases hstep
    exact htell key' .absence hop
  | remove key' =>
    cases hstep
    exact Function.update_of_ne (fun hk => hop hk.symm) _ _
  | clear => exact absurd trivial hop
  | drop | get | has | setSize =>
    cases hstep
    rfl

theorem Run.admitted (hrun : Run (fun op => ¬ op.Tells isolation key) w w') (h : w.Answerable isolation) :
    w'.admitted key = w.admitted key := by
  suffices hboth : w'.Answerable isolation ∧ w'.admitted key = w.admitted key from hboth.2
  induction hrun with
  | refl => exact ⟨h, rfl⟩
  | step it _ hop hstep ih =>
    exact ⟨ih.1.step hstep, (step_admitted hstep (ih.1.level ▸ hop)).trans ih.2⟩

/-- What the map answers, on any run of it. -/
theorem get_answers {window : Window κ} (hnew : window.IsNew)
    (hrun : Run (fun _ => True) (start isolation window) w) (it : Iteration κ) (key : κ) :
    (∀ e, (w.map.get it w.held key).1 = .found e → w.admitted key = some (.entity e)) ∧
    ((w.map.get it w.held key).1 = .absent →
      isolation = .serializable ∧ w.told key = some .absence) ∧
    (isolation = .readUncommitted ∨ isolation = .readCommitted →
      (w.map.get it w.held key).1 = .unknown) ∧
    (∀ e, w.admitted key = some (.entity e) → e ∈ w.held ∨ w.map.state.window.Has key →
      (w.map.get it w.held key).1 = .found e) ∧
    (isolation = .serializable → w.told = w.admitted) ∧
    ∀ w' it' e e', Run (fun op => ¬ op.Tells isolation key) w w' →
      (w.map.get it w.held key).1 = .found e → (w'.map.get it' w'.held key).1 = .found e' → e = e' := by
  have h := hrun.answerable (start_answerable hnew)
  have hrecalled := State.recall_spec it key h.kept h.knows
  have hget : (w.map.get it w.held key).1 = (w.map.state.recallKey it w.held key).1 := h.recall_eq
  rw [hget]
  refine ⟨hrecalled.found, fun habsent => ?_, fun hlevel => ?_, fun e hfact hkeeps => ?_, fun hser => (h.told hser).symm,
    fun w' it' e e' hquiet he he' => ?_⟩
  · have hfact := hrecalled.absent habsent
    have hser : isolation = .serializable := by
      have hadmits := h.admits key _ hfact
      cases isolation with
      | serializable => rfl
      | _ => cases hadmits
    exact ⟨hser, h.told hser ▸ hfact⟩
  · have hnone : ∀ fact : Fact ε, w.admitted key ≠ some fact := by
      intro fact hfact
      have hadmits := h.admits key fact hfact
      obtain rfl | rfl := hlevel
      · cases hadmits
      · cases hadmits
    match hanswer : (w.map.state.recallKey it w.held key).1 with
    | .found e => exact absurd (hrecalled.found e hanswer) (hnone _)
    | .absent => exact absurd (hrecalled.absent hanswer) (hnone _)
    | .unknown => rfl
  · refine hrecalled.answers e hfact (alive_iff.mpr ?_)
    obtain hheld | hhas := hkeeps
    · exact .inl hheld
    · obtain ⟨fact, hslot⟩ := (h.kept.has_iff key).mp hhas
      have hsame := (h.knows.anchored key fact hslot).symm.trans hfact
      cases hsame
      exact .inr ⟨key, hslot⟩
  · have h' := hquiet.answerable h
    have hsame : w'.admitted key = w.admitted key := hquiet.admitted h
    have hfound' := (State.recall_spec it' key h'.kept h'.knows).found e' (h'.recall_eq ▸ he')
    have hfacts := (hrecalled.found e he).symm.trans (hsame.symm.trans hfound')
    cases hfacts
    rfl

/-- Steps one after another, as long as they are taken. -/
def after (it : Iteration κ) (w : World κ ε) : List (Op κ ε) → World κ ε
  | [] => w
  | op :: rest => (w.step it op).elim w (after it · rest)

theorem Run.after {allowed : Op κ ε → Prop} (it : Iteration κ) {ops : List (Op κ ε)} (h : Run allowed w w')
    (hops : ∀ op ∈ ops, allowed op) : Run allowed w (w'.after it ops) := by
  induction ops generalizing w' with
  | nil => exact h
  | cons op rest ih =>
    rw [World.after]
    cases hstep : w'.step it op with
    | none => exact h
    | some v =>
      exact ih (.step it h (hops op List.mem_cons_self) hstep) fun op hop => hops op (List.mem_cons_of_mem _ hop)

/-- An order in which a set of two keys is gone through. -/
def pair : Iteration Bool where
  list s := [false, true].filter (· ∈ s)
  mem_list s k := by cases k <;> simp

/-- The second key takes the place of the first in a window of one; the domain has let the entity of the second go, and
then that of the first. -/
def evicted : World Bool Nat :=
  (start .repeatableRead (.recency (.new 1))).after pair
    [.create 7, .add false 7 true, .create 8, .add true 8 false]

def letGo : World Bool Nat := evicted.after pair [.drop 7]

theorem get_answers_evicted :
    ¬evicted.map.state.window.Has false ∧ (evicted.map.get pair evicted.held false).1 = .found 7 ∧
    8 ∉ evicted.held ∧ (evicted.map.get pair evicted.held true).1 = .found 8 ∧
    evicted.admitted true = some (.entity 8) ∧ (letGo.map.get pair letGo.held false).1 = .unknown ∧
    ∀ e, (letGo.map.get pair letGo.held true).1 = .found e → 8 = e := by
  have hrun : Run (fun _ => True) (start .repeatableRead (.recency (.new 1))) evicted :=
    .after pair .refl fun _ _ => trivial
  have hquiet : Run (fun op => ¬op.Tells .repeatableRead true) evicted letGo := .after pair .refl (by simp [Op.Tells])
  have hnot : ¬evicted.map.state.window.Has false := by rintro ⟨_, ⟨⟩⟩
  obtain ⟨_, _, _, hfirst, _⟩ := get_answers (.recency 1) hrun pair false
  obtain ⟨hfound, _, _, hsecond, _, hsame⟩ := get_answers (.recency 1) hrun pair true
  have height : (evicted.map.get pair evicted.held true).1 = .found 8 := hsecond 8 rfl (.inr ⟨2, rfl⟩)
  exact ⟨hnot, hfirst 7 rfl (.inl (by decide)), by decide, height, hfound 8 height, by decide,
    fun e => hsame letGo pair 8 e hquiet height⟩

/-- The one order in which a set of one key is gone through. -/
def single : Iteration Unit where
  list s := if () ∈ s then [()] else []
  mem_list s k := by
    by_cases h : () ∈ s
    · simp [h]
    · simp [h]

/-- At repeatable read an entity is told of, then marked absent. -/
def markedAbsent : World Unit Nat :=
  let w : World Unit Nat := ⟨⟨.repeatableRead, .new (.recency (.new 1))⟩, [7], [7], fun _ => none, fun _ => none⟩
  let told := { w.tell () (.entity 7) with map := w.map.add single [7] () 7 }
  { told.tell () .absence with map := told.map.addAbsent single [7] () }

theorem markedAbsent_run :
    Run (fun _ => True) (start .repeatableRead (.recency (.new 1))) markedAbsent := by
  have hcreated : Run (fun _ => True) (start .repeatableRead (.recency (.new 1)))
      ⟨⟨.repeatableRead, .new (.recency (.new 1))⟩, [7], [7], fun _ => none, fun _ => none⟩ :=
    .step single .refl trivial (rfl : step single _ (.create 7) = _)
  exact .step single (.step single hcreated trivial (rfl : step single _ (.add () 7 true) = _)) trivial
    (rfl : step single _ (.addAbsent ()) = _)

/-- The absence tells the map nothing, which goes on answering the entity. -/
theorem marked_absent_found : ¬ ∀ (isolation : IsolationLevel) (window : Window Unit) (w : World Unit Nat)
    (it : Iteration Unit) (key : Unit) (e : Nat), window.IsNew →
    Run (fun _ => True) (start isolation window) w → (w.map.get it w.held key).1 = .found e →
    w.told key = some (.entity e) := by
  intro h
  have htold := h .repeatableRead (.recency (.new 1)) markedAbsent single () 7 (.recency 1) markedAbsent_run (by decide)
  cases htold

end World

end AsceticDdd.Session.IdentityMap
