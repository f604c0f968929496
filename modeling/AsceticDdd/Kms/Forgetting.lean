import AsceticDdd.Kms.Cached

/-!
# What a cache forgets

A deletion and a retirement forget the tenant's keys before their transaction ends. A key unwrapped before may
be put into the cache after.
-/

namespace AsceticDdd.Kms

open Interleaving

namespace Cached

variable {K : Type} {c : Cached} {now fuel capacity : Nat} {entries : Entries K} {tenantId : String} {wrapped : Bytes}
  {key : K} {entry : (String × Bytes) × Entry K}

theorem get_eq_some (h : c.get now entries tenantId wrapped = some key) :
    ∃ since, ((tenantId, wrapped), ⟨key, since⟩) ∈ entries ∧ now - since < c.ttl := by
  unfold get at h
  split at h
  · rename_i entry hlookup
    obtain ⟨hfresh, h⟩ := Option.ite_none_right_eq_some.mp h
    cases h
    obtain ⟨before, after, rfl, _⟩ := List.lookup_eq_some_iff.mp hlookup
    exact ⟨entry.since, List.mem_append_right _ List.mem_cons_self, hfresh⟩
  · cases h

theorem mem_of_mem_makeRoom (h : entry ∈ makeRoom capacity fuel entries) : entry ∈ entries := by
  induction fuel generalizing entries with
  | zero => exact h
  | succ fuel ih =>
    unfold makeRoom at h
    split at h
    · split at h
      · exact List.mem_of_mem_filter (ih h)
      · exact h
    · exact h

/-- There is room for one more. -/
theorem length_makeRoom (hcapacity : 0 < capacity) (h : entries.length ≤ fuel) :
    (makeRoom capacity fuel entries).length < capacity := by
  induction fuel generalizing entries with
  | zero =>
    rw [Nat.le_zero, List.length_eq_zero_iff] at h
    subst h
    exact hcapacity
  | succ fuel ih =>
    unfold makeRoom
    split
    · split
      · rename_i oldest holdest
        apply ih
        have hmem : oldest ∈ entries := List.argmin_mem holdest
        have hlt : (entries.filter (·.1 ≠ oldest.1)).length < entries.length :=
          List.length_filter_lt_length_iff_exists.mpr ⟨oldest, hmem, by simp⟩
        omega
      · rename_i hfull _ hnone
        rw [List.argmin_eq_none] at hnone
        subst hnone
        exact absurd hfull (Nat.not_le_of_lt hcapacity)
    · omega

theorem mem_put (h : entry ∈ c.put now entries tenantId wrapped key) :
    entry = ((tenantId, wrapped), ⟨key, now⟩) ∨ entry ∈ entries := by
  unfold put at h
  split at h
  · exact Or.inr h
  · rcases List.mem_cons.mp h with h | h
    · exact Or.inl h
    · exact Or.inr (List.mem_of_mem_filter (mem_of_mem_makeRoom (List.mem_of_mem_filter h)))

theorem length_put (h : entries.length ≤ c.capacity) :
    (c.put now entries tenantId wrapped key).length ≤ c.capacity := by
  unfold put
  split
  · exact h
  · rename_i hkeeps
    have hcapacity : 0 < c.capacity := Nat.pos_of_ne_zero fun heq => hkeeps (Or.inl heq)
    exact Nat.lt_of_le_of_lt (List.length_filter_le _ _) (length_makeRoom hcapacity (Nat.le_refl _))

/-- What has just been put into the cache is found there. -/
theorem get_put (hcapacity : 0 < c.capacity) (httl : 0 < c.ttl) :
    c.get now (c.put now entries tenantId wrapped key) tenantId wrapped = some key := by
  have hkeeps : ¬(c.capacity = 0 ∨ c.ttl = 0) := by omega
  simp [get, put, hkeeps, httl]

end Cached

variable {K V : Type} {v : Service K V} {i : Nat} {a : CacheAct K V}

abbrev CacheWorld (K V : Type) := World (Cache K V) Nat (Calling K V)

variable {w w' : CacheWorld K V}

/-- The service has unwrapped this. -/
def Cache.Unwrapped (c : Cache K V) (tenantId : String) (wrapped : Bytes) (key : K) : Prop :=
  .unwrapped tenantId wrapped key ∈ c.log

/-- The cache holds no more than it may, and what it holds the service has unwrapped. -/
structure Sound (v : Service K V) (w : CacheWorld K V) : Prop where
  room : w.shared.entries.length ≤ v.capacity
  held : ∀ entry ∈ w.shared.entries,
    .kept entry.1.1 entry.1.2 entry.2.key entry.2.since ∈ w.shared.log
  kept : ∀ tenantId wrapped key since, .kept tenantId wrapped key since ∈ w.shared.log →
    w.shared.Unwrapped tenantId wrapped key
  keeps : ∀ s tenantId wrapped key, w.procs s = .keeping tenantId wrapped key →
    w.shared.Unwrapped tenantId wrapped key
  answers : ∀ s tenantId wrapped key cached, w.procs s = .answered tenantId wrapped (some key) cached →
    w.shared.Unwrapped tenantId wrapped key

/-- What a step has to show of its own. -/
theorem Sound.update (h : Sound v w) {c : Cache K V} {p : Calling K V} {added : List (Event K)}
    (hlog : c.log = w.shared.log ++ added) (hroom : c.entries.length ≤ v.capacity)
    (hentries : ∀ entry ∈ c.entries, entry ∈ w.shared.entries ∨
      .kept entry.1.1 entry.1.2 entry.2.key entry.2.since ∈ added)
    (hadded : ∀ tenantId wrapped key since, .kept tenantId wrapped key since ∈ added →
      w.shared.Unwrapped tenantId wrapped key)
    (hkeeps : ∀ tenantId wrapped key, p = .keeping tenantId wrapped key → c.Unwrapped tenantId wrapped key)
    (hanswers : ∀ tenantId wrapped key cached, p = .answered tenantId wrapped (some key) cached →
      c.Unwrapped tenantId wrapped key) : Sound v ⟨c, Function.update w.procs i p⟩ := by
  have hmono : ∀ {tenantId wrapped key}, w.shared.Unwrapped tenantId wrapped key →
      c.Unwrapped tenantId wrapped key := by
    intro tenantId wrapped key hunwrapped
    rw [Cache.Unwrapped, hlog]
    exact List.mem_append_left _ hunwrapped
  constructor
  case room => exact hroom
  case held =>
    intro entry hentry
    simp only [hlog, List.mem_append]
    exact (hentries entry hentry).imp_left (h.held entry)
  case kept =>
    intro tenantId wrapped key since hkept
    simp only [hlog, List.mem_append] at hkept
    exact hmono (hkept.elim (h.kept tenantId wrapped key since) (hadded tenantId wrapped key since))
  case keeps =>
    intro s tenantId wrapped key hp
    by_cases hs : s = i
    · subst hs
      exact hkeeps tenantId wrapped key (by simpa using hp)
    · exact hmono (h.keeps s tenantId wrapped key (by simpa [hs] using hp))
  case answers =>
    intro s tenantId wrapped key cached hp
    by_cases hs : s = i
    · subst hs
      exact hanswers tenantId wrapped key cached (by simpa using hp)
    · exact hmono (h.answers s tenantId wrapped key cached (by simpa [hs] using hp))

/-- A step that puts nothing into the cache and unwraps nothing. -/
theorem Sound.quiet (h : Sound v w) {c : Cache K V} {p : Calling K V} (hlog : c.log = w.shared.log)
    (hentries : c.entries.Sublist w.shared.entries)
    (hkeeps : ∀ tenantId wrapped key, p = .keeping tenantId wrapped key → c.Unwrapped tenantId wrapped key)
    (hanswers : ∀ tenantId wrapped key cached, p = .answered tenantId wrapped (some key) cached →
      c.Unwrapped tenantId wrapped key) : Sound v ⟨c, Function.update w.procs i p⟩ :=
  h.update (hlog.trans (List.append_nil _).symm) (hentries.length_le.trans h.room)
    (fun _ hentry => Or.inl (hentries.subset hentry)) (by rintro _ _ _ _ ⟨⟩) hkeeps hanswers

/-- An empty cache, and nobody at work. -/
def emptyCache (K V : Type) (now : Nat) : CacheWorld K V := ⟨⟨now, [], fun _ => [], []⟩, fun _ => .idle⟩

theorem Sound.beginning (now : Nat) : Sound v (emptyCache K V now) where
  room := Nat.zero_le _
  held := by rintro _ ⟨⟩
  kept := by rintro _ _ _ _ ⟨⟩
  keeps := by rintro _ _ _ _ ⟨⟩
  answers := by rintro _ _ _ _ _ ⟨⟩

/-- No key is put into the cache under a version that a call which has forgotten the tenant's keys deletes. -/
def Timely (v : Service K V) (w : CacheWorld K V) (s : Nat) (a : CacheAct K V) : Prop :=
  ∀ tenantId wrapped key order, w.procs s = .keeping tenantId wrapped key → a = .keep order →
    v.under key ∉ w.shared.deleted tenantId ∧
    ∀ t versions, w.procs t = .returned tenantId versions → v.under key ∉ versions

/-- The cache holds nothing under a version that is deleted, or that a call past its forgetting deletes. -/
structure Clean (v : Service K V) (w : CacheWorld K V) : Prop where
  deleted : ∀ entry ∈ w.shared.entries, v.under entry.2.key ∉ w.shared.deleted entry.1.1
  returned : ∀ entry ∈ w.shared.entries, ∀ t versions, w.procs t = .returned entry.1.1 versions →
    v.under entry.2.key ∉ versions

/-- A step after which the cache holds no more, and nobody else has forgotten. -/
theorem Clean.quiet (h : Clean v w) {c : Cache K V} {p : Calling K V}
    (hentries : ∀ entry ∈ c.entries, entry ∈ w.shared.entries) (hdeleted : c.deleted = w.shared.deleted)
    (hp : ∀ tenantId versions, p = .returned tenantId versions → w.procs i = .returned tenantId versions) :
    Clean v ⟨c, Function.update w.procs i p⟩ where
  deleted entry hentry := by
    rw [hdeleted]
    exact h.deleted entry (hentries entry hentry)
  returned entry hentry t versions hreturned := by
    refine h.returned entry (hentries entry hentry) t versions ?_
    by_cases ht : t = i
    · subst ht
      exact hp _ _ (by simpa using hreturned)
    · simpa [ht] using hreturned

theorem Clean.beginning (now : Nat) : Clean v (emptyCache K V now) where
  deleted := by rintro _ ⟨⟩
  returned := by rintro _ ⟨⟩

variable [DecidableEq K] [DecidableEq V]

theorem Sound.act (h : Sound v w) (hact : v.program.act w i a = some w') : Sound v w' := by
  obtain ⟨c, p, hstep, rfl⟩ := (v.program.act_eq_some).mp hact
  have hkeeps := h.keeps i
  have hanswers := h.answers i
  generalize w.procs i = q at hstep hkeeps hanswers
  cases Service.step_cases hstep with
  | tick => exact h.quiet rfl (.refl _) hkeeps hanswers
  | begun hnext =>
    refine h.quiet rfl (.refl _) ?_ ?_
    · rintro _ _ _ rfl
      obtain ⟨_, _, hp⟩ | ⟨_, hp⟩ | ⟨_, _, hp⟩ := hnext <;> cases hp
    · rintro _ _ _ _ rfl
      obtain ⟨_, _, hp⟩ | ⟨_, hp⟩ | ⟨_, _, hp⟩ := hnext <;> cases hp
  | hit hget =>
    refine h.quiet rfl (.refl _) (by rintro _ _ _ ⟨⟩) ?_
    rintro _ _ _ _ ⟨⟩
    obtain ⟨since, hmem, _⟩ := Cached.get_eq_some hget
    exact h.kept _ _ _ _ (h.held _ hmem)
  | missed => exact h.quiet rfl (.refl _) (by rintro _ _ _ ⟨⟩) (by rintro _ _ _ _ ⟨⟩)
  | unwrapped =>
    refine h.update rfl h.room (fun _ => Or.inl) (by simp) ?_ (by rintro _ _ _ _ ⟨⟩)
    rintro _ _ _ ⟨⟩
    exact List.mem_append_right _ List.mem_cons_self
  | failed => exact h.quiet rfl (.refl _) (by rintro _ _ _ ⟨⟩) (by rintro _ _ _ _ ⟨⟩)
  | kept horder =>
    have hunwrapped := hkeeps _ _ _ rfl
    refine h.update rfl (Cached.length_put (horder.length_eq.trans_le h.room)) ?_ ?_ (by rintro _ _ _ ⟨⟩) ?_
    · intro entry hentry
      rcases Cached.mem_put hentry with rfl | hmem
      · exact Or.inr List.mem_cons_self
      · exact Or.inl (horder.mem_iff.mp hmem)
    · intro _ _ _ _ hkept
      cases List.mem_singleton.mp hkept
      exact hunwrapped
    · rintro _ _ _ _ ⟨⟩
      exact List.mem_append_left _ hunwrapped
  | deleted => exact h.quiet rfl (.refl _) (by rintro _ _ _ ⟨⟩) (by rintro _ _ _ _ ⟨⟩)
  | forgot => exact h.quiet rfl List.filter_sublist (by rintro _ _ _ ⟨⟩) (by rintro _ _ _ _ ⟨⟩)
  | committed => exact h.quiet rfl (.refl _) (by rintro _ _ _ ⟨⟩) (by rintro _ _ _ _ ⟨⟩)
  | ended => exact h.quiet rfl (.refl _) (by rintro _ _ _ ⟨⟩) (by rintro _ _ _ _ ⟨⟩)

theorem Sound.run {now : Nat} {ok : CacheWorld K V → Nat → CacheAct K V → Prop}
    (hrun : v.program.Run ok (emptyCache K V now) w) : Sound v w :=
  hrun.invariant (fun _ _ _ _ h _ hact => h.act hact) (.beginning now)

theorem Clean.act (h : Clean v w) (hok : Timely v w i a) (hact : v.program.act w i a = some w') :
    Clean v w' := by
  obtain ⟨c, p, hstep, rfl⟩ := (v.program.act_eq_some).mp hact
  generalize hq : w.procs i = q at hstep
  cases Service.step_cases hstep with
  | tick => exact h.quiet (fun _ => id) rfl fun _ _ hp => hq.trans hp
  | begun hnext =>
    refine h.quiet (fun _ => id) rfl ?_
    rintro _ _ rfl
    obtain ⟨_, _, hp⟩ | ⟨_, hp⟩ | ⟨_, _, hp⟩ := hnext <;> cases hp
  | kept horder =>
    obtain ⟨hdeleted, hreturned⟩ := hok _ _ _ _ hq rfl
    constructor
    case deleted =>
      intro entry hentry
      rcases Cached.mem_put hentry with rfl | hmem
      · exact hdeleted
      · exact h.deleted entry (horder.mem_iff.mp hmem)
    case returned =>
      intro entry hentry t versions hp
      have ht : t ≠ i := by
        rintro rfl
        simp at hp
      have hp : w.procs t = .returned entry.1.1 versions := by simpa [ht] using hp
      rcases Cached.mem_put hentry with rfl | hmem
      · exact hreturned t versions hp
      · exact h.returned entry (horder.mem_iff.mp hmem) t versions hp
  | @forgot tenantId versions =>
    have hkept : ∀ entry ∈ Cached.forget w.shared.entries tenantId,
        entry ∈ w.shared.entries ∧ entry.1.1 ≠ tenantId := by
      intro entry hentry
      simpa [Cached.forget] using hentry
    constructor
    case deleted => exact fun entry hentry => h.deleted entry (hkept entry hentry).1
    case returned =>
      intro entry hentry t versions' hp
      by_cases ht : t = i
      · subst ht
        simp only [Function.update_self, Calling.returned.injEq] at hp
        exact absurd hp.1.symm (hkept entry hentry).2
      · exact h.returned entry (hkept entry hentry).1 t versions' (by simpa [ht] using hp)
  | @committed tenantId versions =>
    constructor
    case deleted =>
      intro entry hentry
      by_cases htenant : entry.1.1 = tenantId
      · subst htenant
        simp only [Function.update_self, List.mem_append, not_or]
        exact ⟨h.deleted entry hentry, h.returned entry hentry i versions hq⟩
      · simp only [Function.update_of_ne htenant]
        exact h.deleted entry hentry
    case returned =>
      intro entry hentry t versions' hp
      have ht : t ≠ i := by
        rintro rfl
        simp at hp
      exact h.returned entry hentry t versions' (by simpa [ht] using hp)
  | _ => exact h.quiet (fun _ => id) rfl (by rintro _ _ ⟨⟩)

/-- What is deleted stays so. -/
theorem Service.deleted_mono (hact : v.program.act w i a = some w') {tenantId : String} {version : V}
    (h : version ∈ w.shared.deleted tenantId) : version ∈ w'.shared.deleted tenantId := by
  obtain ⟨c, p, hstep, rfl⟩ := (v.program.act_eq_some).mp hact
  generalize w.procs i = q at hstep
  cases Service.step_cases hstep with
  | @committed tenantId' versions =>
    by_cases htenant : tenantId = tenantId'
    · subst htenant
      simp only [Function.update_self, List.mem_append]
      exact Or.inl h
    · simpa only [Function.update_of_ne htenant] using h
  | _ => exact h

/-- A clean cache answers with nothing that is deleted. -/
theorem Clean.answers (h : Clean v w) (hact : v.program.act w i a = some w') {s : Nat} {tenantId : String}
    {wrapped : Bytes} {key : K} (hp : w'.procs s = .answered tenantId wrapped (some key) true) :
    w.procs s = .answered tenantId wrapped (some key) true ∨
      s = i ∧ v.under key ∉ w.shared.deleted tenantId := by
  obtain ⟨c, p, hstep, rfl⟩ := (v.program.act_eq_some).mp hact
  by_cases hs : s = i
  · subst hs
    simp only [Function.update_self] at hp
    subst hp
    generalize w.procs s = q at hstep
    generalize hnext : Calling.answered tenantId wrapped (some key) true = next at hstep
    cases Service.step_cases hstep with
    | tick => exact Or.inl rfl
    | hit hget =>
      cases hnext
      obtain ⟨since, hmem, _⟩ := Cached.get_eq_some hget
      exact Or.inr ⟨rfl, h.deleted _ hmem⟩
    | begun hstarts =>
      subst hnext
      obtain ⟨_, _, hp⟩ | ⟨_, hp⟩ | ⟨_, _, hp⟩ := hstarts <;> cases hp
    | _ => cases hnext
  · exact Or.inl (by simpa [hs] using hp)

/-- What the cache holds answers an unwrap begun now. -/
theorem answers_begun {tenantId : String} {wrapped : Bytes} {key : K} {p : Option K} {cached : Bool}
    (hp : w.procs i = .answered tenantId wrapped p cached)
    (hget : v.get w.shared.now w.shared.entries tenantId wrapped = some key) :
    ∃ w₂ w₃, v.program.act w i (.decryptDek tenantId wrapped) = some w₂ ∧
      v.program.act w₂ i .look = some w₃ ∧ w₃.procs i = .answered tenantId wrapped (some key) true := by
  have hbegins : v.program.act w i (.decryptDek tenantId wrapped) =
      some ⟨w.shared, Function.update w.procs i (.looking tenantId wrapped)⟩ := by
    refine (v.program.act_eq_some).mpr ⟨w.shared, _, ?_, rfl⟩
    rw [hp]
    rfl
  refine ⟨_, ⟨w.shared, Function.update (Function.update w.procs i (.looking tenantId wrapped)) i
    (.answered tenantId wrapped (some key) true)⟩, hbegins, ?_, Function.update_self ..⟩
  refine (v.program.act_eq_some).mpr ⟨w.shared, _, ?_, rfl⟩
  simp [Service.program, Service.step, hget]

/-- The call that has forgotten commits, and what the cache holds answers still. -/
theorem answers_committed {tenantId : String} {wrapped : Bytes} {key : K} {p : Option K} {cached : Bool} {t : Nat}
    {versions : List V} (hp : w.procs i = .answered tenantId wrapped p cached)
    (hget : v.get w.shared.now w.shared.entries tenantId wrapped = some key)
    (hreturned : w.procs t = .returned tenantId versions) (hmem : v.under key ∈ versions) :
    ∃ w₁ w₂ w₃, v.program.Run (fun _ _ _ => True) w w₁ ∧ v.under key ∈ w₁.shared.deleted tenantId ∧
      v.program.act w₁ i (.decryptDek tenantId wrapped) = some w₂ ∧ v.program.act w₂ i .look = some w₃ ∧
      w₃.procs i = .answered tenantId wrapped (some key) true := by
  have ht : i ≠ t := by
    rintro rfl
    rw [hp] at hreturned
    cases hreturned
  let w₁ : CacheWorld K V := ⟨{ w.shared with
    deleted := Function.update w.shared.deleted tenantId (w.shared.deleted tenantId ++ versions) },
    Function.update w.procs t .idle⟩
  have hcommits : v.program.act w t .commit = some w₁ := by
    refine (v.program.act_eq_some).mpr ⟨_, _, ?_, rfl⟩
    rw [hreturned]
    rfl
  have hp₁ : w₁.procs i = .answered tenantId wrapped p cached := (Function.update_of_ne ht ..).trans hp
  obtain ⟨w₂, w₃, hbegins, hlooks, hp₃⟩ := answers_begun (v := v) hp₁ hget
  refine ⟨w₁, w₂, w₃, (Program.Run.refl w).step trivial hcommits, ?_, hbegins, hlooks, hp₃⟩
  simp [w₁, hmem]

/-- What was just put into the cache under a version a call past its forgetting deletes answers after that
call's commit. -/
theorem answers_late (hcapacity : 0 < v.capacity) (httl : 0 < v.ttl) (hok : ¬Timely v w i a)
    (hact : v.program.act w i a = some w') : ∃ tenantId wrapped key w₁ w₂ w₃,
      v.program.Run (fun _ _ _ => True) w' w₁ ∧ v.under key ∈ w₁.shared.deleted tenantId ∧
      v.program.act w₁ i (.decryptDek tenantId wrapped) = some w₂ ∧ v.program.act w₂ i .look = some w₃ ∧
      w₃.procs i = .answered tenantId wrapped (some key) true := by
  simp only [Timely, not_forall] at hok
  obtain ⟨tenantId, wrapped, key, order, hp, rfl, hlate⟩ := hok
  have hw' : w'.procs i = .answered tenantId wrapped (some key) false ∧
      v.get w'.shared.now w'.shared.entries tenantId wrapped = some key ∧
      w'.shared.deleted = w.shared.deleted ∧ ∀ t, t ≠ i → w'.procs t = w.procs t := by
    obtain ⟨c, p, hstep, rfl⟩ := (v.program.act_eq_some).mp hact
    have hstep : v.step w.shared (w.procs i) (.keep order) = some (c, p) := hstep
    rw [hp] at hstep
    obtain ⟨_, hstep⟩ := Option.ite_none_right_eq_some.mp hstep
    cases hstep
    exact ⟨Function.update_self .., Cached.get_put hcapacity httl, rfl, fun t ht => Function.update_of_ne ht ..⟩
  obtain ⟨hp', hget, hdeleted', hprocs⟩ := hw'
  by_cases hdeleted : v.under key ∈ w.shared.deleted tenantId
  · obtain ⟨w₂, w₃, hbegins, hlooks, hp₃⟩ := answers_begun (v := v) hp' hget
    exact ⟨tenantId, wrapped, key, w', w₂, w₃, .refl _, by rwa [hdeleted'], hbegins, hlooks, hp₃⟩
  · simp only [hdeleted, not_false_iff, true_and, not_forall, Classical.not_not] at hlate
    obtain ⟨t, versions, hreturned, hmem⟩ := hlate
    have ht : t ≠ i := by
      rintro rfl
      rw [hp] at hreturned
      cases hreturned
    obtain ⟨w₁, w₂, w₃, h⟩ := answers_committed (v := v) hp' hget ((hprocs t ht).trans hreturned) hmem
    exact ⟨tenantId, wrapped, key, w₁, w₂, w₃, h⟩

/-- The cache holds no more than it may; every answer is one the service gave, and every one of the cache was
put there less than `ttl` before. In a run where no key is put into the cache late, no unwrap begun after a
version is deleted is answered under it; a key put there late answers one that is. -/
theorem deleted_never_serves (v : Service K V) (now : Nat) :
    (∀ w, v.program.Run (fun _ _ _ => True) (emptyCache K V now) w → w.shared.entries.length ≤ v.capacity) ∧
    (∀ w s tenantId wrapped key cached, v.program.Run (fun _ _ _ => True) (emptyCache K V now) w →
      w.procs s = .answered tenantId wrapped (some key) cached → w.shared.Unwrapped tenantId wrapped key) ∧
    (∀ w s w' tenantId wrapped key, v.program.Run (fun _ _ _ => True) (emptyCache K V now) w →
      v.program.act w s .look = some w' → w'.procs s = .answered tenantId wrapped (some key) true →
        ∃ since, .kept tenantId wrapped key since ∈ w.shared.log ∧ w.shared.now - since < v.ttl) ∧
    (∀ w s tenantId wrapped w₁ w₂ key, v.program.Run (Timely v) (emptyCache K V now) w →
      v.program.act w s (.decryptDek tenantId wrapped) = some w₁ → v.program.Run (Timely v) w₁ w₂ →
        ∀ tenantId' wrapped', w₂.procs s = .answered tenantId' wrapped' (some key) true →
          v.under key ∉ w.shared.deleted tenantId') ∧
    ∀ w s a w', v.program.Run (fun _ _ _ => True) (emptyCache K V now) w → 0 < v.capacity → 0 < v.ttl →
      ¬Timely v w s a → v.program.act w s a = some w' → ∃ tenantId wrapped key w₁ w₂ w₃,
        v.program.Run (fun _ _ _ => True) w' w₁ ∧ v.under key ∈ w₁.shared.deleted tenantId ∧
        v.program.act w₁ s (.decryptDek tenantId wrapped) = some w₂ ∧ v.program.act w₂ s .look = some w₃ ∧
        w₃.procs s = .answered tenantId wrapped (some key) true := by
  refine ⟨fun w hrun => (Sound.run hrun).room, fun w s tenantId wrapped key cached hrun =>
    (Sound.run hrun).answers s tenantId wrapped key cached, ?_, ?_,
    fun w s a w' _ hcapacity httl hok hact => answers_late hcapacity httl hok hact⟩
  · intro w s w' tenantId wrapped key hrun hact hp
    obtain ⟨c, p, hstep, rfl⟩ := (v.program.act_eq_some).mp hact
    simp only [Function.update_self] at hp
    subst hp
    generalize w.procs s = q at hstep
    generalize hnext : Calling.answered tenantId wrapped (some key) true = next at hstep
    cases Service.step_cases hstep with
    | hit hget =>
      cases hnext
      obtain ⟨since, hmem, hfresh⟩ := Cached.get_eq_some hget
      exact ⟨since, (Sound.run hrun).held _ hmem, hfresh⟩
    | begun hstarts =>
      subst hnext
      obtain ⟨_, _, hp⟩ | ⟨_, hp⟩ | ⟨_, _, hp⟩ := hstarts <;> cases hp
    | _ => cases hnext
  · intro w s tenantId wrapped w₁ w₂ key hrun hact hrun' tenantId' wrapped' hp
    have hclean : Clean v w := hrun.invariant (fun _ _ _ _ h hok hact => h.act hok hact) (.beginning now)
    have hbegun : ∃ tenantId wrapped, w₁.procs s = .looking tenantId wrapped := by
      obtain ⟨c, p, hstep, rfl⟩ := (v.program.act_eq_some).mp hact
      generalize w.procs s = q at hstep
      cases q <;> cases hstep <;> exact ⟨_, _, Function.update_self ..⟩
    have hreached := hrun'.invariant (I := fun u => Clean v u ∧
      (∀ tenantId version, version ∈ w.shared.deleted tenantId → version ∈ u.shared.deleted tenantId) ∧
      ∀ tenantId wrapped key, u.procs s = .answered tenantId wrapped (some key) true →
        v.under key ∉ w.shared.deleted tenantId) ?_ ⟨hclean.act (fun _ _ _ _ _ h => by cases h) hact,
          fun _ _ => Service.deleted_mono hact, ?_⟩
    · exact hreached.2.2 tenantId' wrapped' key hp
    · rintro u j b u' ⟨hclean, hmono, hanswers⟩ hok hact
      refine ⟨hclean.act hok hact, fun _ _ h => Service.deleted_mono hact (hmono _ _ h), ?_⟩
      intro tenantId wrapped key hp
      rcases hclean.answers hact hp with hbefore | ⟨_, hlive⟩
      · exact hanswers tenantId wrapped key hbefore
      · exact fun hdeleted => hlive (hmono _ _ hdeleted)
    · obtain ⟨_, _, hlooking⟩ := hbegun
      intro _ _ _ hanswered
      rw [hlooking] at hanswered
      cases hanswered

/-- A cache of a thousand keys, each kept for three hundred, in front of a service whose keys name their
version. -/
def named : Service Nat Nat := ⟨⟨1000, 300⟩, id⟩

/-- A key is unwrapped, deleted with its version, and put into the cache. -/
def putBack : CacheWorld Nat Nat := named.program.after (emptyCache Nat Nat 0)
  [(1, .decryptDek "tenant" [7]), (1, .look), (1, .unwrap (some 1)), (2, .deleteKek "tenant"),
    (2, .done [1]), (2, .forget), (2, .commit), (1, .keep [])] (by decide +kernel)

/-- An unwrap begun after. -/
def begun : CacheWorld Nat Nat := ⟨putBack.shared, Function.update putBack.procs 3 (.looking "tenant" [7])⟩

def answered : CacheWorld Nat Nat := named.program.after begun [(3, .look)] (by decide +kernel)

theorem deleted_serves : ¬∀ (v : Service Nat Nat) (now : Nat) (w : CacheWorld Nat Nat) (s : Nat) (tenantId : String)
    (wrapped : Bytes) (w₁ w₂ : CacheWorld Nat Nat) (key : Nat),
    v.program.Run (fun _ _ _ => True) (emptyCache Nat Nat now) w →
    v.program.act w s (.decryptDek tenantId wrapped) = some w₁ →
    v.program.Run (fun _ _ _ => True) w₁ w₂ → ∀ tenantId' wrapped',
      w₂.procs s = .answered tenantId' wrapped' (some key) true → v.under key ∉ w.shared.deleted tenantId' := by
  intro h
  have hact : named.program.act putBack 3 (.decryptDek "tenant" [7]) = some begun := by
    have hidle : putBack.procs 3 = .idle := by decide +kernel
    refine (named.program.act_eq_some).mpr ⟨putBack.shared, _, ?_, rfl⟩
    rw [hidle]
    rfl
  exact h named 0 putBack 3 "tenant" [7] begun answered 1 (Program.Run.after fun _ _ _ => trivial) hact
    (Program.Run.after fun _ _ _ => trivial) "tenant" [7] (by decide +kernel) (by decide +kernel)

end AsceticDdd.Kms
