import AsceticDdd.Dek.Rewrap

/-!
# Keys that outlive a retirement

Every row is wrapped under a row of the tenant's key. Once the custodian has selected the rows it wraps again,
what is wrapped under an earlier version is among them, as long as no transaction still holds such a version.
-/

namespace AsceticDdd.Dek

open Kms Interleaving

variable {o : PgDekStore} {w w' : World} {i s : Nat} {a : Act} {p : Process} {t t' : Tables}

/-- A transaction has been given a row of the tenant's key, and has not committed what it wraps with it. -/
def Holds (w : World) (s : Nat) (kek : Kek) : Prop :=
  (w.procs s).holds = some kek ∨ ∃ dek, w.shared.inserted s = some dek ∧ dek.kek = kek

/-- The rows still to be wrapped again, or wrapped again and not committed. -/
def Stored.Among (dek : Stored) (rows : List Stored) : Prop :=
  ∃ other ∈ rows, other.resource = dek.resource ∧ other.version = dek.version

structure Wrapped (w : World) : Prop extends Kept w where
  others : ∀ s, s ≠ 0 → w.shared.rewrapped s = []
  answered : ∀ s dek, w.shared.inserted s = some dek → w.procs s = .creating (.done (.ok dek))
  held : ∀ s kek, Holds w s kek → kek ∈ w.shared.ring.seen s
  keys : ∀ dek ∈ w.shared.deks, dek.kek ∈ w.shared.ring.committed
  again : ∀ dek ∈ w.shared.rewrapped 0, dek.kek ∈ w.shared.ring.committed ∧ (w.procs 0).left.isSome ∧
    ∀ version, (w.procs 0).rotated = some version → version ≤ dek.kek.version
  updates : ∀ version dek kek left, w.procs 0 = .maintaining (.updating version dek kek left) →
    kek ∈ w.shared.ring.committed ∧ version ≤ kek.version
  selected : ∀ version left, (w.procs 0).rotated = some version → (w.procs 0).left = some left →
    (∀ s kek, Holds w s kek → version ≤ kek.version) ∧
    ∀ dek ∈ w.shared.deks, dek.kek.version < version → dek.Among (left ++ w.shared.rewrapped 0)
  retires : ∀ version, (w.procs 0).retires = some version →
    (∀ s kek, Holds w s kek → version ≤ kek.version) ∧ ∀ dek ∈ w.shared.deks, version ≤ dek.kek.version

/-- When the custodian selects the rows to wrap again, no transaction holds a version before the one the rotation
answered. -/
def Settled (w : World) (i : Nat) (a : Act) : Prop :=
  i = 0 → a = .next → ∀ version, w.procs 0 = .maintaining (.rewrapping version) →
    ∀ s kek, Holds w s kek → version ≤ kek.version

namespace Wrapped

theorem own_inserted (h : Wrapped w) : w.shared.inserted 0 = none := by
  cases hinserted : w.shared.inserted 0 with
  | none => rfl
  | some dek =>
    obtain ⟨m, hm⟩ := h.custodian.1
    cases (hm.symm.trans (h.answered 0 dek hinserted))

theorem own_rewrapped (h : Wrapped w) (hleft : (w.procs 0).left = none) : w.shared.rewrapped 0 = [] := by
  refine List.eq_nil_iff_forall_not_mem.mpr fun dek hdek => ?_
  have := (h.again dek hdek).2.1
  rw [hleft] at this
  cases this

/-- A step of another session than the custodian's, before its end. -/
theorem step (h : Wrapped w) (hi : i ≠ 0) (hkept : Kept ⟨t, Function.update w.procs i p⟩)
    (hcommitted : t.ring.committed = w.shared.ring.committed) (hdeleter : t.ring.deleter = w.shared.ring.deleter)
    (hring : ∀ s, s ≠ i → t.ring.inserted s = w.shared.ring.inserted s) (hdeks : t.deks = w.shared.deks)
    (hrewrapped : t.rewrapped = w.shared.rewrapped)
    (hinserted : ∀ s, s ≠ i → t.inserted s = w.shared.inserted s)
    (hinserts : ∀ dek, t.inserted i = some dek → p = .creating (.done (.ok dek)))
    (hheld : ∀ kek, Holds ⟨t, Function.update w.procs i p⟩ i kek → kek ∈ t.ring.seen i ∧
      (Holds w i kek ∨ ∀ version, (w.procs 0).rotated = some version → version ≤ kek.version)) :
    Wrapped ⟨t, Function.update w.procs i p⟩ := by
  have hzero : Function.update w.procs i p 0 = w.procs 0 := Function.update_of_ne (Ne.symm hi) ..
  have hothers : ∀ {s kek}, s ≠ i → (Holds ⟨t, Function.update w.procs i p⟩ s kek ↔ Holds w s kek) := by
    intro s kek hs
    simp only [Holds, hinserted s hs, Function.update_of_ne hs]
  have hbound : ∀ {version}, (w.procs 0).rotated = some version →
      (∀ s kek, Holds w s kek → version ≤ kek.version) →
      ∀ s kek, Holds ⟨t, Function.update w.procs i p⟩ s kek → version ≤ kek.version := by
    intro version hversion hholds s kek hkek
    by_cases hs : s = i
    · subst hs
      exact (hheld kek hkek).2.elim (hholds s kek) fun hall => hall version hversion
    · exact hholds s kek ((hothers hs).mp hkek)
  refine ⟨hkept, ?others, ?answered, ?held, ?keys, ?again, ?updates, ?selected, ?retires⟩ <;>
    simp only [hcommitted, hdeks, hrewrapped, hzero]
  case others => exact h.others
  case answered =>
    intro s dek hdek
    by_cases hs : s = i
    · subst hs
      simpa using hinserts dek hdek
    · rw [hinserted s hs] at hdek
      simpa [hs] using h.answered s dek hdek
  case held =>
    intro s kek hkek
    by_cases hs : s = i
    · subst hs
      exact (hheld kek hkek).1
    · have := h.held s kek ((hothers hs).mp hkek)
      rw [Keyring.mem_seen] at this ⊢
      rwa [hcommitted, hdeleter, hring s hs]
  case keys => exact h.keys
  case again => exact h.again
  case updates => exact h.updates
  case selected =>
    intro version left hversion hleft
    obtain ⟨hholds, hamong⟩ := h.selected version left hversion hleft
    exact ⟨hbound hversion hholds, hamong⟩
  case retires =>
    intro version hretires
    obtain ⟨hholds, hdeks⟩ := h.retires version hretires
    exact ⟨hbound (Process.rotated_of_retires hretires) hholds, hdeks⟩

theorem create (h : Wrapped w) (hi : i ≠ 0) {c c' : Creating} (hp : w.procs i = .creating c)
    (hc : ∀ dek, c ≠ .done (.ok dek)) (hcreated : Created w.shared i c t' c') :
    Wrapped ⟨t', Function.update w.procs i (.creating c')⟩ := by
  have hkept := h.toKept.create hi hp hcreated
  have hnone : w.shared.inserted i = none := by
    by_contra hsome
    obtain ⟨dek, hdek⟩ := Option.ne_none_iff_exists'.mp hsome
    cases hp.symm.trans (h.answered i dek hdek)
    exact hc dek rfl
  -- before its insert, a transaction holds no more than the row it has been given
  have hbefore : ∀ {t : Tables}, t.inserted = w.shared.inserted → (∀ dek, t.inserted i = some dek →
        Process.creating c' = .creating (.done (.ok dek))) ∧
      ∀ kek, Holds ⟨t, Function.update w.procs i (.creating c')⟩ i kek →
        (Process.creating c').holds = some kek := by
    intro t hinserted
    refine ⟨fun dek hdek => ?_, fun kek hkek => ?_⟩
    · rw [hinserted, hnone] at hdek
      cases hdek
    · rcases hkek with hholds | ⟨dek, hdek, _⟩
      · simpa using hholds
      · simp only [hinserted, hnone] at hdek
        cases hdek
  cases hcreated with
  | quiet hring hdeks hinserted hrewrapped hholds _ =>
    refine h.step hi hkept (by rw [hring]) (by rw [hring]) (fun _ _ => by rw [hring]) hdeks hrewrapped
      (fun _ _ => by rw [hinserted]) (hbefore hinserted).1 fun kek hkek => ?_
    have := (hbefore hinserted).2 kek hkek
    rw [hholds] at this
    cases this
  | took _ ht =>
    subst ht
    refine h.step hi hkept rfl rfl (fun _ _ => rfl) rfl rfl (fun _ _ => rfl) (hbefore rfl).1 fun kek hkek => ?_
    cases (hbefore rfl).2 kek hkek
  | none _ _ ht =>
    subst ht
    refine h.step hi hkept rfl rfl (fun _ _ => rfl) rfl rfl (fun _ _ => rfl) (hbefore rfl).1 fun kek hkek => ?_
    cases (hbefore rfl).2 kek hkek
  | made hmaking ht =>
    subst ht hmaking
    have hempty : w.shared.ring.committed = [] := h.makes i (by rw [hp]; trivial)
    refine h.step hi hkept rfl rfl (fun s hs => Function.update_of_ne hs ..) rfl rfl (fun _ _ => rfl) (hbefore rfl).1
      fun kek hkek => ?_
    cases (hbefore rfl).2 kek hkek
    refine ⟨Keyring.mem_seen.mpr (Or.inr (Function.update_self ..)), Or.inr fun version hversion => ?_⟩
    obtain ⟨kek, hkek, _⟩ := h.rotated version hversion
    rw [hempty] at hkek
    cases hkek
  | got hgot ht =>
    subst ht
    refine h.step hi hkept rfl rfl (fun _ _ => rfl) rfl rfl (fun _ _ => rfl) (hbefore rfl).1 fun kek hkek => ?_
    cases (hbefore rfl).2 kek hkek
    refine ⟨(Keyring.currentKek_spec hgot).1, Or.inr fun version hversion => ?_⟩
    obtain ⟨kek', hcurrent, hle⟩ := h.current hversion i
    rw [hgot, Option.some.injEq] at hcurrent
    rwa [hcurrent]
  | @inserted resource kek hinserting ht =>
    subst ht hinserting
    have hholds : Holds w i kek := Or.inl (by rw [hp]; rfl)
    refine h.step hi hkept rfl rfl (fun _ _ => rfl) rfl rfl (fun s hs => Function.update_of_ne hs ..)
      (fun dek hdek => ?_) fun kek' hkek' => ?_
    · obtain rfl : ⟨resource, 1, kek⟩ = dek := by simpa [Tables.insert] using hdek
      rfl
    · obtain rfl : kek = kek' := by
        rcases hkek' with hnothing | ⟨dek, hdek, rfl⟩
        · simp [Process.holds] at hnothing
        · obtain rfl : ⟨resource, 1, kek⟩ = dek := by simpa [Tables.insert] using hdek
          rfl
      exact ⟨h.held i kek hholds, Or.inl hholds⟩

theorem mem_seen_of_rewrapped (h : w.shared.rewrapped i = []) {dek : Stored} :
    dek ∈ w.shared.seen i ↔ dek ∈ w.shared.deks ∨ w.shared.inserted i = some dek := by
  simp [Tables.seen, h, Stored.updated]

/-- The end of another session's transaction than the custodian's. -/
theorem finish (h : Wrapped w) (hi : i ≠ 0) (commits : Bool) :
    Wrapped ⟨w.shared.finish i commits, Function.update w.procs i .idle⟩ := by
  have hzero : Function.update w.procs i Process.idle 0 = w.procs 0 := Function.update_of_ne (Ne.symm hi) ..
  have hmono := h.toKept.finish_mono hi commits
  have hdeks : ∀ dek ∈ (w.shared.finish i commits).deks, dek ∈ w.shared.deks ∨
      commits = true ∧ Holds w i dek.kek := by
    intro dek hdek
    cases commits with
    | false => exact Or.inl hdek
    | true =>
      exact ((mem_seen_of_rewrapped (h.others i hi)).mp hdek).imp_right fun hinserted =>
        ⟨rfl, Or.inr ⟨dek, hinserted, rfl⟩⟩
  have hholds : ∀ s kek, Holds ⟨w.shared.finish i commits, Function.update w.procs i .idle⟩ s kek →
      s ≠ i ∧ Holds w s kek := by
    intro s kek hkek
    have hs : s ≠ i := by
      rintro rfl
      rcases hkek with hnothing | ⟨_, hdek, _⟩
      · simp [Process.holds] at hnothing
      · simp [Tables.finish] at hdek
    refine ⟨hs, ?_⟩
    simpa only [Holds, Tables.finish, Function.update_of_ne hs] using hkek
  have hrewrapped : (w.shared.finish i commits).rewrapped 0 = w.shared.rewrapped 0 :=
    Function.update_of_ne (Ne.symm hi) ..
  refine ⟨h.toKept.finish hi commits, ?others, ?answered, ?held, ?keys, ?again, ?updates, ?selected, ?retires⟩ <;>
    simp only [hzero]
  case others =>
    intro s hs
    by_cases hsi : s = i
    · subst hsi
      exact Function.update_self ..
    · exact (Function.update_of_ne hsi ..).trans (h.others s hs)
  case answered =>
    intro s dek hdek
    have hsi : s ≠ i := by
      rintro rfl
      simp [Tables.finish] at hdek
    simp only [Tables.finish, Function.update_of_ne hsi] at hdek ⊢
    exact h.answered s dek hdek
  case held =>
    intro s kek hkek
    obtain ⟨hsi, hkek⟩ := hholds s kek hkek
    exact Keyring.mem_seen_finish hsi (h.held s kek hkek) (hmono kek)
  case keys =>
    intro dek hdek
    rcases hdeks dek hdek with hold | ⟨rfl, hown⟩
    · exact hmono _ (h.keys dek hold)
    · exact h.held i _ hown
  case again =>
    rw [hrewrapped]
    intro dek hdek
    obtain ⟨hcommitted, hrest⟩ := h.again dek hdek
    exact ⟨hmono _ hcommitted, hrest⟩
  case updates =>
    intro version dek kek left hp
    obtain ⟨hcommitted, hle⟩ := h.updates version dek kek left hp
    exact ⟨hmono _ hcommitted, hle⟩
  case selected =>
    intro version left hversion hleft
    obtain ⟨hbound, hamong⟩ := h.selected version left hversion hleft
    rw [hrewrapped]
    refine ⟨fun s kek hkek => hbound s kek (hholds s kek hkek).2, fun dek hdek hlt => ?_⟩
    rcases hdeks dek hdek with hdek | ⟨_, hdek⟩
    · exact hamong dek hdek hlt
    · exact absurd (hbound i _ hdek) (Nat.not_le_of_lt hlt)
  case retires =>
    intro version hretires
    obtain ⟨hbound, hrows⟩ := h.retires version hretires
    refine ⟨fun s kek hkek => hbound s kek (hholds s kek hkek).2, fun dek hdek => ?_⟩
    rcases hdeks dek hdek with hdek | ⟨_, hdek⟩
    · exact hrows dek hdek
    · exact hbound i _ hdek

/-- The custodian holds nothing. -/
theorem holds_own (h : Wrapped w) {m : Maintaining} (hinserted : t.inserted = w.shared.inserted) {kek : Kek} :
    Holds ⟨t, Function.update w.procs 0 (.maintaining m)⟩ s kek ↔ s ≠ 0 ∧ Holds w s kek := by
  by_cases hs : s = 0
  · subst hs
    simp [Holds, hinserted, h.own_inserted, Process.holds]
  · simp [Holds, hinserted, hs]

/-- A step of the custodian, within a transaction. -/
theorem own (h : Wrapped w) {m m' : Maintaining} (hm : w.procs 0 = .maintaining m)
    (hkept : Kept ⟨t, Function.update w.procs 0 (.maintaining m')⟩)
    (hcommitted : t.ring.committed = w.shared.ring.committed)
    (hseen : ∀ s kek, s ≠ 0 → kek ∈ w.shared.ring.seen s → kek ∈ t.ring.seen s)
    (hdeks : t.deks = w.shared.deks) (hinserted : t.inserted = w.shared.inserted)
    (hrewrapped : ∀ s, s ≠ 0 → t.rewrapped s = w.shared.rewrapped s)
    (hagain : ∀ dek ∈ t.rewrapped 0, dek.kek ∈ w.shared.ring.committed ∧ (Process.maintaining m').left.isSome ∧
      ∀ version, (Process.maintaining m').rotated = some version → version ≤ dek.kek.version)
    (hupdates : ∀ version dek kek left, m' = .updating version dek kek left →
      kek ∈ w.shared.ring.committed ∧ version ≤ kek.version)
    (hselected : ∀ version left, (Process.maintaining m').rotated = some version →
      (Process.maintaining m').left = some left → (∀ s kek, Holds w s kek → version ≤ kek.version) ∧
      ∀ dek ∈ w.shared.deks, dek.kek.version < version → dek.Among (left ++ t.rewrapped 0))
    (hretires : (Process.maintaining m').retires = (Process.maintaining m).retires) :
    Wrapped ⟨t, Function.update w.procs 0 (.maintaining m')⟩ := by
  refine ⟨hkept, ?others, ?answered, ?held, ?keys, ?again, ?updates, ?selected, ?retires⟩ <;>
    simp only [hcommitted, hdeks, Function.update_self, Process.maintaining.injEq]
  case others =>
    intro s hs
    rw [hrewrapped s hs]
    exact h.others s hs
  case answered =>
    intro s dek hdek
    rw [hinserted] at hdek
    have hs : s ≠ 0 := by
      rintro rfl
      rw [h.own_inserted] at hdek
      cases hdek
    simpa [hs] using h.answered s dek hdek
  case held =>
    intro s kek hkek
    obtain ⟨hs, hkek⟩ := (h.holds_own hinserted).mp hkek
    exact hseen s kek hs (h.held s kek hkek)
  case keys => exact h.keys
  case again => exact hagain
  case updates => exact hupdates
  case selected =>
    intro version left hversion hleft
    obtain ⟨hbound, hamong⟩ := hselected version left hversion hleft
    exact ⟨fun s kek hkek => hbound s kek ((h.holds_own hinserted).mp hkek).2, hamong⟩
  case retires =>
    intro version hversion
    rw [hretires, ← hm] at hversion
    obtain ⟨hbound, hrows⟩ := h.retires version hversion
    exact ⟨fun s kek hkek => hbound s kek ((h.holds_own hinserted).mp hkek).2, hrows⟩

/-- The rows after the custodian's transaction: those there were and are not wrapped again, and those that
are. -/
theorem mem_finish (h : Wrapped w) {commits : Bool} {dek : Stored} (hdek : dek ∈ (w.shared.finish 0 commits).deks) :
    dek ∈ w.shared.deks ∧ (commits = true → ¬dek.Among (w.shared.rewrapped 0)) ∨
      commits = true ∧ dek ∈ w.shared.rewrapped 0 := by
  cases commits with
  | false => exact Or.inl ⟨hdek, by rintro ⟨⟩⟩
  | true =>
    have hdek : dek ∈ w.shared.seen 0 := hdek
    simp only [Tables.seen, h.own_inserted, Option.toList_none, List.append_nil, List.mem_map] at hdek
    obtain ⟨old, hold, hupdated⟩ := hdek
    rw [Stored.updated] at hupdated
    cases hfind : (w.shared.rewrapped 0).find? fun other =>
        other.resource = old.resource ∧ other.version = old.version with
    | some other =>
      rw [hfind, Option.getD_some] at hupdated
      exact Or.inr ⟨rfl, hupdated ▸ List.mem_of_find?_eq_some hfind⟩
    | none =>
      rw [hfind, Option.getD_none] at hupdated
      subst hupdated
      refine Or.inl ⟨hold, fun _ => ?_⟩
      rintro ⟨other, hother, hkey⟩
      simpa [hkey] using List.find?_eq_none.mp hfind other hother

/-- The end of a transaction of the custodian. -/
theorem ends (h : Wrapped w) {m m' : Maintaining} (hm : w.procs 0 = .maintaining m) {commits : Bool}
    (hkept : Kept ⟨w.shared.finish 0 commits, Function.update w.procs 0 (.maintaining m')⟩)
    (hleft : (Process.maintaining m').left = none)
    (hretires : ∀ version, (Process.maintaining m').retires = some version →
      (Process.maintaining m).retires = some version ∨ m = .rewrapped version ∧ commits = true) :
    Wrapped ⟨w.shared.finish 0 commits, Function.update w.procs 0 (.maintaining m')⟩ := by
  have hmono : ∀ kek ∈ w.shared.ring.committed,
      (∀ version, (w.procs 0).retires = some version → version ≤ kek.version) →
      kek ∈ (w.shared.ring.finish 0 commits).committed := by
    intro kek hkek hbound
    cases commits with
    | false => exact hkek
    | true =>
      refine Keyring.mem_finish.mpr (Or.inl ⟨hkek, fun hdeleter => ?_⟩)
      obtain ⟨_, version, hversion, hlt⟩ := h.deletes kek 0 hdeleter
      exact absurd (hbound version hversion) (Nat.not_le_of_lt hlt)
  have hholds : ∀ s kek, Holds ⟨w.shared.finish 0 commits, Function.update w.procs 0 (.maintaining m')⟩ s kek →
      s ≠ 0 ∧ Holds w s kek := by
    intro s kek hkek
    have hs : s ≠ 0 := by
      rintro rfl
      rcases hkek with hnothing | ⟨_, hdek, _⟩
      · simp [Process.holds] at hnothing
      · simp [Tables.finish] at hdek
    refine ⟨hs, ?_⟩
    simpa only [Holds, Tables.finish, Function.update_of_ne hs] using hkek
  have hrewrapped : (w.shared.finish 0 commits).rewrapped 0 = [] := by simp [Tables.finish]
  refine ⟨hkept, ?others, ?answered, ?held, ?keys, ?again, ?updates, ?selected, ?retires⟩ <;>
    simp only [Function.update_self, Process.maintaining.injEq]
  case others =>
    intro s hs
    exact (Function.update_of_ne hs ..).trans (h.others s hs)
  case answered =>
    intro s dek hdek
    have hs : s ≠ 0 := by
      rintro rfl
      simp [Tables.finish] at hdek
    simp only [Tables.finish, Function.update_of_ne hs] at hdek ⊢
    exact h.answered s dek hdek
  case held =>
    intro s kek hkek
    obtain ⟨hs, hkek⟩ := hholds s kek hkek
    exact Keyring.mem_seen_finish hs (h.held s kek hkek) fun hcommitted =>
      hmono kek hcommitted fun version hversion => (h.retires version hversion).1 s kek hkek
  case keys =>
    intro dek hdek
    rcases h.mem_finish hdek with ⟨hold, _⟩ | ⟨_, hagain⟩
    · exact hmono _ (h.keys dek hold) fun version hversion => (h.retires version hversion).2 dek hold
    · obtain ⟨hcommitted, hselected, _⟩ := h.again dek hagain
      refine hmono _ hcommitted fun version hversion => ?_
      rw [Process.left_of_retires hversion] at hselected
      cases hselected
  case again =>
    rw [hrewrapped]
    rintro _ ⟨⟩
  case updates =>
    rintro version dek kek left rfl
    cases hleft
  case selected =>
    intro version left _ hsome
    rw [hleft] at hsome
    cases hsome
  case retires =>
    intro version hversion
    rcases hretires version hversion with hbefore | ⟨rfl, rfl⟩
    · rw [← hm] at hbefore
      obtain ⟨hbound, hrows⟩ := h.retires version hbefore
      refine ⟨fun s kek hkek => hbound s kek (hholds s kek hkek).2, fun dek hdek => ?_⟩
      rcases h.mem_finish hdek with ⟨hold, _⟩ | ⟨_, hagain⟩
      · exact hrows dek hold
      · exact (h.again dek hagain).2.2 version (Process.rotated_of_retires hbefore)
    · have hrotated : (w.procs 0).rotated = some version := by rw [hm]; rfl
      obtain ⟨hbound, hamong⟩ := h.selected version [] hrotated (by rw [hm]; rfl)
      refine ⟨fun s kek hkek => hbound s kek (hholds s kek hkek).2, fun dek hdek => ?_⟩
      rcases h.mem_finish hdek with ⟨hold, hnot⟩ | ⟨_, hagain⟩
      · by_contra hlt
        exact hnot rfl (hamong dek hold (Nat.lt_of_not_le hlt))
      · exact (h.again dek hagain).2.2 version hrotated

/-- A step of the custodian's rotation or retirement. -/
theorem aside (h : Wrapped w) {m m' : Maintaining} (hm : w.procs 0 = .maintaining m)
    (hkept : Kept ⟨t, Function.update w.procs 0 (.maintaining m')⟩)
    (hcommitted : t.ring.committed = w.shared.ring.committed)
    (hseen : ∀ s kek, s ≠ 0 → kek ∈ w.shared.ring.seen s → kek ∈ t.ring.seen s)
    (hdeks : t.deks = w.shared.deks) (hinserted : t.inserted = w.shared.inserted)
    (hrewrapped : t.rewrapped = w.shared.rewrapped) (hleft : (Process.maintaining m).left = none)
    (hleft' : (Process.maintaining m').left = none)
    (hretires : (Process.maintaining m').retires = (Process.maintaining m).retires) :
    Wrapped ⟨t, Function.update w.procs 0 (.maintaining m')⟩ := by
  refine h.own hm hkept hcommitted hseen hdeks hinserted (fun _ _ => by rw [hrewrapped]) ?_ ?_ ?_ hretires
  · rw [hrewrapped, h.own_rewrapped (by rw [hm]; exact hleft)]
    rintro _ ⟨⟩
  · rintro _ _ _ _ rfl
    cases hleft'
  · intro _ _ _ hsome
    rw [hleft'] at hsome
    cases hsome

/-- A step of the custodian between a row and the next, in its second transaction. -/
theorem between (h : Wrapped w) {m m' : Maintaining} (hm : w.procs 0 = .maintaining m)
    (hkept : Kept ⟨w.shared, Function.update w.procs 0 (.maintaining m')⟩)
    (hrotated : (Process.maintaining m').rotated = (Process.maintaining m).rotated)
    (hleft : (Process.maintaining m').left = (Process.maintaining m).left)
    (hupdates : ∀ version dek kek left, m' = .updating version dek kek left →
      kek ∈ w.shared.ring.committed ∧ version ≤ kek.version)
    (hretires : (Process.maintaining m').retires = (Process.maintaining m).retires) :
    Wrapped ⟨w.shared, Function.update w.procs 0 (.maintaining m')⟩ := by
  refine h.own hm hkept rfl (fun _ _ _ => id) rfl rfl (fun _ _ => rfl) ?_ hupdates ?_ hretires
  · rw [hrotated, hleft, ← hm]
    exact h.again
  · rw [hrotated, hleft, ← hm]
    exact h.selected

theorem maintain (h : Wrapped w) {m m' : Maintaining} (hm : w.procs 0 = .maintaining m)
    (hsettled : ∀ version, m = .rewrapping version → ∀ s kek, Holds w s kek → version ≤ kek.version)
    (hmaintained : Maintained w.shared m t' m') : Wrapped ⟨t', Function.update w.procs 0 (.maintaining m')⟩ := by
  have hkept := h.toKept.maintain hm hmaintained
  cases hmaintained with
  | fails =>
    refine h.ends hm hkept ?_ ?_
    · cases m <;> rfl
    · cases m <;> exact fun _ => Or.inl
  | rotationLocked => exact h.aside hm hkept rfl (fun _ _ _ => id) rfl rfl rfl rfl rfl rfl
  | rotationRead => exact h.aside hm hkept rfl (fun _ _ _ => id) rfl rfl rfl rfl rfl rfl
  | rotationInserted =>
    refine h.aside hm hkept rfl (fun s kek hs hseen => ?_) rfl rfl rfl rfl rfl rfl
    rw [Keyring.mem_seen] at hseen ⊢
    exact hseen.imp_right (Function.update_of_ne hs ..).trans
  | @selected version =>
    have hnone : w.shared.rewrapped 0 = [] := h.own_rewrapped (by rw [hm]; rfl)
    refine h.own hm hkept rfl (fun _ _ _ => id) rfl rfl (fun _ _ => rfl) ?_ (by rintro _ _ _ _ ⟨⟩) ?_ rfl
    · rw [hnone]
      rintro _ ⟨⟩
    · rintro _ _ ⟨⟩ ⟨⟩
      exact ⟨hsettled version rfl, fun dek hdek _ => ⟨dek, List.mem_append_left _
        ((mem_seen_of_rewrapped hnone).mpr (Or.inl hdek)), rfl, rfl⟩⟩
  | read => exact h.between hm hkept rfl rfl (by rintro _ _ _ _ ⟨⟩) rfl
  | @wrapped version dek left kek hcurrent =>
    refine h.between hm hkept rfl rfl ?_ rfl
    rintro _ _ _ _ ⟨⟩
    obtain ⟨kek', hcurrent', hle⟩ := h.current (by rw [hm]; rfl : (w.procs 0).rotated = some version) 0
    rw [hcurrent, Option.some.injEq] at hcurrent'
    subst hcurrent'
    refine ⟨?_, hle⟩
    rcases Keyring.mem_seen.mp (Keyring.currentKek_spec hcurrent).1 with ⟨hmem, _⟩ | hinserted
    · exact hmem
    · have hcases := (h.first 0 kek hinserted).2
      rw [if_pos rfl, hm] at hcases
      cases hcases
  | @updated version dek kek left =>
    obtain ⟨hcommitted, hle⟩ := h.updates version dek kek left hm
    have hrewrapped : (w.shared.update 0 { dek with kek := kek }).rewrapped 0 =
        { dek with kek := kek } :: w.shared.rewrapped 0 := by simp [Tables.update]
    refine h.own hm hkept rfl (fun _ _ _ => id) rfl rfl (fun s hs => Function.update_of_ne hs ..) ?_
      (by rintro _ _ _ _ ⟨⟩) ?_ rfl
    · rw [hrewrapped]
      intro other hother
      rcases List.mem_cons.mp hother with rfl | hother
      · exact ⟨hcommitted, rfl, by rintro _ ⟨⟩; exact hle⟩
      · obtain ⟨hin, _, hbound⟩ := h.again other hother
        exact ⟨hin, rfl, fun version hversion => hbound version (by rw [hm]; exact hversion)⟩
    · rintro _ _ ⟨⟩ ⟨⟩
      obtain ⟨hbound, hamong⟩ := h.selected version (dek :: left) (by rw [hm]; rfl) (by rw [hm]; rfl)
      refine ⟨hbound, fun old hold hlt => ?_⟩
      rw [hrewrapped]
      obtain ⟨other, hother, hkey⟩ := hamong old hold hlt
      -- the row just wrapped again stands for the one that was next
      rcases List.mem_append.mp hother with hother | hother
      · rcases List.mem_cons.mp hother with rfl | hother
        · exact ⟨{ other with kek := kek }, by simp, hkey⟩
        · exact ⟨other, by simp [hother], hkey⟩
      · exact ⟨other, by simp [hother], hkey⟩
  | allRead => exact h.between hm hkept rfl rfl (by rintro _ _ _ _ ⟨⟩) rfl
  | retirementLocked => exact h.aside hm hkept rfl (fun _ _ _ => id) rfl rfl rfl rfl rfl rfl
  | retirementChecked => exact h.aside hm hkept rfl (fun _ _ _ => id) rfl rfl rfl rfl rfl rfl
  | retirementFound => exact h.aside hm hkept rfl (fun _ _ _ => id) rfl rfl rfl rfl rfl rfl
  | allDeleted => exact h.aside hm hkept rfl (fun _ _ _ => id) rfl rfl rfl rfl rfl rfl
  | @deleted version row found ring hdelete =>
    rcases Keyring.delete_eq_some hdelete with ⟨_, rfl⟩ | ⟨_, _, rfl⟩
    · exact h.aside hm hkept rfl (fun _ _ _ => id) rfl rfl rfl rfl rfl rfl
    · refine h.aside hm hkept rfl (fun s kek hs hseen => ?_) rfl rfl rfl rfl rfl rfl
      rw [Keyring.mem_seen] at hseen ⊢
      refine hseen.imp_left fun ⟨hmem, hdeleter⟩ => ⟨hmem, ?_⟩
      by_cases hkek : kek = row
      · subst hkek
        simpa using Ne.symm hs
      · simpa [hkek] using hdeleter

theorem act (h : Wrapped w) (hsettled : Settled w i a) (hact : o.program.act w i a = some w') : Wrapped w' := by
  have hkept := h.toKept.act hact
  obtain ⟨t', p', hstep, rfl⟩ := (o.program.act_eq_some).mp hact
  have hstep : o.step w.shared i (w.procs i) a = some (t', p') := hstep
  by_cases hi : i = 0
  · subst hi
    obtain ⟨m, hm⟩ := h.custodian.1
    rw [hm] at hstep
    cases a with
    | getOrCreate => cases hstep
    | next =>
      obtain ⟨_, hnext, hstep⟩ := Option.map_eq_some_iff.mp hstep
      cases hstep
      refine h.maintain hm ?_ (h.toKept.maintain_cases hm hnext)
      rintro version rfl
      exact hsettled rfl rfl version hm
    | commit =>
      obtain ⟨_, hcommits, hstep⟩ := Option.map_eq_some_iff.mp hstep
      cases hstep
      cases m <;> cases hcommits
      · exact h.ends hm hkept rfl (by rintro _ ⟨⟩)
      · exact h.ends hm hkept rfl (by rintro _ ⟨⟩; exact Or.inr ⟨rfl, rfl⟩)
      · exact h.ends hm hkept rfl fun _ => Or.inl
    | crash =>
      cases hstep
      refine h.ends hm hkept ?_ ?_
      · cases m <;> rfl
      · cases m <;> exact fun _ => Or.inl
  · cases hp : w.procs i with
    | idle =>
      rw [hp] at hstep
      cases a <;> cases hstep
      have hnone : ∀ dek, w.shared.inserted i ≠ some dek := fun dek hdek => by
        cases hp.symm.trans (h.answered i dek hdek)
      refine h.step hi hkept rfl rfl (fun _ _ => rfl) rfl rfl (fun _ _ => rfl) (fun dek hdek => absurd hdek (hnone dek))
        fun kek hkek => ?_
      rcases hkek with hholds | ⟨dek, hdek, _⟩
      · simp [Process.holds] at hholds
      · exact absurd hdek (hnone dek)
    | creating c =>
      rw [hp] at hstep
      cases a with
      | getOrCreate => cases hstep
      | next =>
        obtain ⟨_, hnext, hstep⟩ := Option.map_eq_some_iff.mp hstep
        cases hstep
        refine h.create hi hp ?_ (PgDekStore.create_cases hnext)
        rintro dek rfl
        cases hnext
      | commit =>
        cases c with
        | done answer =>
          cases answer with
          | ok dek =>
            cases hstep
            exact h.finish hi true
          | error => cases hstep
        | _ => cases hstep
      | crash =>
        cases hstep
        exact h.finish hi false
    | maintaining m => exact absurd hp (h.custodian.2 i hi m)

theorem beginning {keks : List Kek} {deks : List Stored} (next : Nat) (hdeks : ∀ dek ∈ deks, dek.kek ∈ keks) :
    Wrapped (beginning keks deks next) where
  toKept := .beginning keks deks next
  others := fun _ _ => rfl
  answered := by rintro _ _ ⟨⟩
  held := by
    rintro s kek (hholds | ⟨_, hdek, _⟩)
    · by_cases hs : s = 0 <;> simp [Dek.beginning, Process.holds, hs] at hholds
    · cases hdek
  keys := hdeks
  again := by rintro _ ⟨⟩
  updates := by rintro _ _ _ _ ⟨⟩
  selected := by rintro _ _ ⟨⟩
  retires := by rintro _ ⟨⟩

theorem settled_of_idle (h : Wrapped w) (hidle : ∀ s, s ≠ 0 → w.procs s = .idle) : Settled w i a := by
  rintro - - version hp s kek hholds
  by_cases hs : s = 0
  · subst hs
    rcases hholds with hholds | ⟨dek, hdek, _⟩
    · rw [hp] at hholds
      cases hholds
    · cases h.own_inserted.symm.trans hdek
  · rcases hholds with hholds | ⟨dek, hdek, _⟩
    · rw [hidle s hs] at hholds
      cases hholds
    · cases (hidle s hs).symm.trans (h.answered s dek hdek)

end Wrapped

/-- Every row is wrapped under a row of the tenant's key, also after the retirement, in a run where none holds an
earlier version when the rows to wrap again are selected. -/
theorem retirement_loses_none {keks : List Kek} {deks : List Stored} {next : Nat}
    (hdeks : ∀ dek ∈ deks, dek.kek ∈ keks) (hrun : o.program.Run Settled (beginning keks deks next) w) :
    ∀ dek ∈ w.shared.deks, dek.kek ∈ w.shared.ring.committed := by
  have hwrapped : Wrapped w :=
    hrun.invariant (fun _ _ _ _ h hsettled hact => h.act hsettled hact) (.beginning next hdeks)
  exact hwrapped.keys

/-- A store of a tenant whose keys are made on first use. -/
def store : PgDekStore := ⟨"tenant", false, fun _ => 0⟩

def order : Resource := ⟨"Order", "7"⟩

def invoice : Resource := ⟨"Invoice", "7"⟩

def payment : Resource := ⟨"Payment", "7"⟩

/-- A key is made under the first version, and committed after the rotation and before the rows to wrap again are
selected. Another is made while they are wrapped. -/
def wrappedAgain : World := store.program.after (beginning [⟨1, 0⟩] [⟨order, 1, ⟨1, 0⟩⟩] 1)
  (List.flatten [(1, .getOrCreate invoice) :: List.replicate 4 (1, .next), List.replicate 3 (0, .next),
    [(0, .commit), (1, .next), (1, .commit)], List.replicate 3 (0, .next),
    (2, .getOrCreate payment) :: List.replicate 5 (2, .next), (2, .commit) :: List.replicate 5 (0, .next),
    (0, .commit) :: List.replicate 5 (0, .next), [(0, .commit)]]) (by decide +kernel)

def Process.selects : Process → Bool
  | .maintaining (.rewrapping _) => true
  | _ => false

/-- Three sessions are at work, and both others are idle when the custodian selects. -/
def Calm (w : World) (i : Nat) (_ : Act) : Prop :=
  i < 3 ∧ ((w.procs 0).selects → i = 0 → w.procs 1 = .idle ∧ w.procs 2 = .idle)

instance (w : World) (i : Nat) (a : Act) : Decidable (Calm w i a) := inferInstanceAs (Decidable (_ ∧ _))

theorem settled_of_calm {keks : List Kek} {deks : List Stored} {next : Nat} (h : Wrapped w) (hcalm : Calm w i a)
    (hidle : ∀ s, ¬s < 3 → w.procs s = (beginning keks deks next).procs s) : Settled w i a := by
  rintro rfl ha version hp
  obtain ⟨_, hquiet⟩ := hcalm
  obtain ⟨hfirst, hsecond⟩ := hquiet (by rw [hp]; rfl) rfl
  refine h.settled_of_idle (fun s hs => ?_) rfl ha version hp
  match s with
  | 0 => exact absurd rfl hs
  | 1 => exact hfirst
  | 2 => exact hsecond
  | s + 3 =>
    rw [hidle _ (by omega)]
    simp [beginning]

theorem retirement_loses_none_rotated : wrappedAgain.shared.ring.committed = [⟨2, 1⟩] ∧
    wrappedAgain.shared.deks.map (·.resource) = [order, invoice, payment] ∧
    ∀ dek ∈ wrappedAgain.shared.deks, dek.kek ∈ wrappedAgain.shared.ring.committed := by
  have hdeks : ∀ dek ∈ [(⟨order, 1, ⟨1, 0⟩⟩ : Stored)], dek.kek ∈ [(⟨1, 0⟩ : Kek)] := by decide
  have hcalm : store.program.Run Calm (beginning [⟨1, 0⟩] [⟨order, 1, ⟨1, 0⟩⟩] 1) wrappedAgain :=
    Program.Run.checked (fun w i a => decide (Calm w i a)) (by decide +kernel)
      fun _ _ _ checked => of_decide_eq_true checked
  have hamong := hcalm.among (· < 3) fun _ _ _ calm => calm.1
  refine ⟨by decide +kernel, by decide +kernel, retirement_loses_none hdeks ((hamong.and_invariant (I := Wrapped) ?_
    (.beginning 1 hdeks)).1.mono ?_)⟩
  · rintro v i a v' h ⟨calm, hidle⟩ hact
    exact h.act (settled_of_calm h calm hidle) hact
  · rintro v i a ⟨⟨calm, hidle⟩, h⟩
    exact settled_of_calm h calm hidle

/-- A key made under the first version is committed after the rows to wrap again are selected. -/
def missed : World := store.program.after (beginning [⟨1, 0⟩] [] 1)
  ((1, .getOrCreate order) :: List.replicate 4 (1, .next) ++ List.replicate 3 (0, .next) ++ (0, .commit) ::
    List.replicate 2 (0, .next) ++ [(0, .commit), (1, .next), (1, .commit)] ++ List.replicate 5 (0, .next) ++
    [(0, .commit)]) (by decide +kernel)

theorem retirement_loses : ¬∀ (o : PgDekStore) (keks : List Kek) (deks : List Stored) (next : Nat) (w : World)
    (version : Nat), (∀ dek ∈ deks, dek.kek ∈ keks) →
    o.program.Run (fun _ _ _ => True) (beginning keks deks next) w → w.procs 0 = .maintaining (.finished version) →
    ∀ dek ∈ w.shared.deks, ∃ kek ∈ w.shared.ring.committed, kek.version = dek.kek.version := by
  intro h
  have hdeks : missed.shared.deks = [⟨order, 1, ⟨1, 0⟩⟩] := by decide +kernel
  have hkeks : missed.shared.ring.committed = [⟨2, 1⟩] := by decide +kernel
  have hlost := h store [⟨1, 0⟩] [] 1 missed 2 (by rintro _ ⟨⟩) (Program.Run.after fun _ _ _ => trivial)
    (by decide +kernel)
  rw [hdeks, hkeks] at hlost
  exact absurd (hlost _ List.mem_cons_self) (by decide)

end AsceticDdd.Dek
