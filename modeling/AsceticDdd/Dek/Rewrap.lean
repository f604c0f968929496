import AsceticDdd.Dek.Store

/-!
# Keys wrapped again

The custodian's transactions see each other's rows. A key made meanwhile is wrapped under the version its
transaction has read, and is seen by the others once it is committed.
-/

namespace AsceticDdd.Dek

open Kms Interleaving

variable {o : PgDekStore} {w w' : World} {i s : Nat} {a : Act} {p : Process} {t t' : Tables}

namespace Process

/-- The row of the tenant's key a transaction has been given, and not used yet. -/
def holds : Process → Option Kek
  | .creating (.inserting _ kek) => some kek
  | _ => none

/-- The tenant's first key is about to be made. -/
def makes : Process → Prop
  | .creating (.generating _ .making) => True
  | _ => False

/-- The lock on the tenant's key has been taken. -/
def locks : Process → Prop
  | .creating (.generating _ .locked) | .creating (.generating _ .making) => True
  | .maintaining .rotationLocked | .maintaining (.rotationInserting _) | .maintaining (.rotated _) => True
  | _ => False

theorem makes.locks (h : p.makes) : p.locks := by
  cases p with
  | creating c =>
    cases c with
    | generating resource g => cases g <;> first | exact h.elim | trivial
    | _ => exact h.elim
  | _ => exact h.elim

/-- The version the committed rotation answered. -/
def rotated : Process → Option Nat
  | .maintaining m => match m with
    | .rewrapping version | .reading version _ | .wrapping version _ _ _ | .updating version _ _ _
    | .rewrapped version | .retiring version | .retirementLocked version | .retirementChecked version
    | .retirementDeleting version _ | .retired version | .finished version => some version
    | _ => none
  | _ => none

/-- The rows still to be wrapped again, of those found. -/
def left : Process → Option (List Stored)
  | .maintaining (.reading _ left) => some left
  | .maintaining (.wrapping _ dek left _) | .maintaining (.updating _ dek _ left) => some (dek :: left)
  | .maintaining (.rewrapped _) => some []
  | _ => none

/-- All are wrapped again and committed, under this version or later ones. -/
def retires : Process → Option Nat
  | .maintaining m => match m with
    | .retiring version | .retirementLocked version | .retirementChecked version
    | .retirementDeleting version _ | .retired version | .finished version => some version
    | _ => none
  | _ => none

theorem rotated_of_retires {version : Nat} (h : p.retires = some version) : p.rotated = some version := by
  cases p with
  | maintaining m => cases m <;> first | exact h | cases h
  | _ => cases h

theorem left_of_retires {version : Nat} (h : p.retires = some version) : p.left = none := by
  cases p with
  | maintaining m => cases m <;> first | rfl | cases h
  | _ => rfl

end Process

/-- What the transactions at work have done to the tenant's key. -/
structure Kept (w : World) : Prop where
  custodian : (∃ m, w.procs 0 = .maintaining m) ∧ ∀ s, s ≠ 0 → ∀ m, w.procs s ≠ .maintaining m
  locks : ∀ s, (w.procs s).locks → w.shared.ring.lock = some s
  makes : ∀ s, (w.procs s).makes → w.shared.ring.committed = []
  first : ∀ s kek, w.shared.ring.inserted s = some kek → w.shared.ring.lock = some s ∧
    if s = 0 then w.procs 0 = .maintaining (.rotated kek.version) else w.shared.ring.committed = []
  inserts : ∀ version, w.procs 0 = .maintaining (.rotated version) →
    ∃ kek, w.shared.ring.inserted 0 = some kek ∧ kek.version = version
  rotated : ∀ version, (w.procs 0).rotated = some version →
    ∃ kek ∈ w.shared.ring.committed, kek.version = version
  deletes : ∀ kek s, w.shared.ring.deleter kek = some s → s = 0 ∧
    ∃ version, (w.procs 0).retires = some version ∧ kek.version < version
  wraps : ∀ version dek left g, w.procs 0 = .maintaining (.wrapping version dek left g) → g = .current
  finds : ∀ version found, w.procs 0 = .maintaining (.retirementDeleting version found) →
    ∀ kek ∈ found, kek.version < version

/-- What a statement of `get_or_create` does. -/
inductive Created (t : Tables) (s : Nat) (c : Creating) (t' : Tables) : Creating → Prop
  | quiet {c' : Creating} (hring : t'.ring = t.ring) (hdeks : t'.deks = t.deks) (hinserted : t'.inserted = t.inserted)
      (hrewrapped : t'.rewrapped = t.rewrapped) (hholds : (Process.creating c').holds = none)
      (hlocks : ¬(Process.creating c').locks) : Created t s c t' c'
  | took {resource : Resource} (hfree : t.ring.lock = none ∨ t.ring.lock = some s)
      (ht : t' = { t with ring := { t.ring with lock := some s } }) :
      Created t s c t' (.generating resource .locked)
  | none {resource : Resource} (hc : c = .generating resource .locked) (hnone : t.ring.seen s = [])
      (ht : t' = t) : Created t s c t' (.generating resource .making)
  | made {resource : Resource} (hc : c = .generating resource .making)
      (ht : t' = { t with ring := t.ring.insert s 1 }) : Created t s c t' (.inserting resource ⟨1, t.ring.next⟩)
  | got {resource : Resource} {kek : Kek} (hcurrent : currentKek (t.ring.seen s) = some kek) (ht : t' = t) :
      Created t s c t' (.inserting resource kek)
  | inserted {resource : Resource} {kek : Kek} (hc : c = .inserting resource kek)
      (ht : t' = t.insert s ⟨resource, 1, kek⟩) : Created t s c t' (.done (.ok ⟨resource, 1, kek⟩))

theorem PgDekStore.create_cases {c c' : Creating} (h : o.create t s c = some (t', c')) : Created t s c t' c' := by
  cases c with
  | looking resource =>
    simp only [create] at h
    split at h <;> cases h <;> exact .quiet rfl rfl rfl rfl rfl id
  | locking resource =>
    obtain ⟨_, hlock, h⟩ := Option.map_eq_some_iff.mp h
    cases h
    obtain ⟨_, hlock⟩ := Option.ite_none_right_eq_some.mp hlock
    cases hlock
    exact .quiet rfl rfl rfl rfl rfl id
  | locked resource =>
    simp only [create] at h
    split at h <;> cases h <;> exact .quiet rfl rfl rfl rfl rfl id
  | generating resource g =>
    obtain ⟨⟨ring, r⟩, hget, h⟩ := Option.map_eq_some_iff.mp h
    cases g with
    | current =>
      simp only [getOrCreateCurrentKek] at hget
      split at hget
      · rename_i hcurrent
        cases hget
        cases h
        exact .got hcurrent rfl
      · split at hget <;> cases hget <;> cases h <;> exact .quiet rfl rfl rfl rfl rfl id
    | locking =>
      obtain ⟨_, hlock, hget⟩ := Option.map_eq_some_iff.mp hget
      obtain ⟨hfree, rfl⟩ := Keyring.lockKey_eq_some hlock
      cases hget
      cases h
      exact .took hfree rfl
    | locked =>
      simp only [getOrCreateCurrentKek] at hget
      split at hget
      · rename_i hcurrent
        cases hget
        cases h
        exact .got hcurrent rfl
      · rename_i hnone
        cases hget
        cases h
        exact .none rfl (Keyring.currentKek_eq_none.mp hnone) rfl
    | making =>
      cases hget
      cases h
      exact .made rfl rfl
  | inserting resource kek => cases h; exact .inserted rfl rfl
  | unwrapping dek =>
    simp only [create] at h
    split at h <;> cases h <;> exact .quiet rfl rfl rfl rfl rfl id
  | done => cases h

namespace Kept

/-- A step of another session than the custodian's, before its end. -/
theorem step (h : Kept w) (hi : i ≠ 0) (hcommitted : t.ring.committed = w.shared.ring.committed)
    (hdeleter : t.ring.deleter = w.shared.ring.deleter)
    (hinserted : ∀ s, s ≠ i → t.ring.inserted s = w.shared.ring.inserted s)
    (hlock : ∀ s, s ≠ i → w.shared.ring.lock = some s → t.ring.lock = some s)
    (hp : ∀ m, p ≠ .maintaining m) (hlocks : p.locks → t.ring.lock = some i)
    (hmakes : p.makes → w.shared.ring.committed = [])
    (hfirst : ∀ kek, t.ring.inserted i = some kek → t.ring.lock = some i ∧ w.shared.ring.committed = []) :
    Kept ⟨t, Function.update w.procs i p⟩ := by
  have hzero : Function.update w.procs i p 0 = w.procs 0 := Function.update_of_ne (Ne.symm hi) ..
  constructor <;> simp only [hcommitted, hdeleter, hzero]
  case custodian =>
    refine ⟨h.custodian.1, fun s hs m => ?_⟩
    by_cases hsi : s = i
    · subst hsi
      simpa using hp m
    · simpa [hsi] using h.custodian.2 s hs m
  case locks =>
    intro s hs
    by_cases hsi : s = i
    · subst hsi
      exact hlocks (by simpa using hs)
    · exact hlock s hsi (h.locks s (by simpa [hsi] using hs))
  case makes =>
    intro s hs
    by_cases hsi : s = i
    · subst hsi
      exact hmakes (by simpa using hs)
    · exact h.makes s (by simpa [hsi] using hs)
  case first =>
    intro s kek hkek
    by_cases hsi : s = i
    · subst hsi
      simpa [hi] using hfirst kek hkek
    · rw [hinserted s hsi] at hkek
      obtain ⟨hheld, hcases⟩ := h.first s kek hkek
      exact ⟨hlock s hsi hheld, hcases⟩
  case inserts =>
    intro version hrotated
    rw [hinserted 0 (Ne.symm hi)]
    exact h.inserts version hrotated
  case rotated => exact h.rotated
  case deletes => exact h.deletes
  case wraps => exact h.wraps
  case finds => exact h.finds

/-- A step that leaves the tenant's key as it was. -/
theorem quiet (h : Kept w) (hi : i ≠ 0) (hring : t.ring = w.shared.ring) (hp : ∀ m, p ≠ .maintaining m)
    (hlocks : p.locks → (w.procs i).locks) (hmakes : p.makes → w.shared.ring.committed = []) :
    Kept ⟨t, Function.update w.procs i p⟩ := by
  refine h.step hi (by rw [hring]) (by rw [hring]) (fun _ _ => by rw [hring]) (fun _ _ hlock => by rwa [hring]) hp
    (fun hl => ?_) hmakes fun kek hkek => ?_
  · rw [hring]
    exact h.locks i (hlocks hl)
  · rw [hring] at hkek ⊢
    simpa [hi] using h.first i kek hkek

/-- Only the custodian deletes. -/
theorem seen_eq (h : Kept w) (hi : i ≠ 0) :
    w.shared.ring.seen i = w.shared.ring.committed ++ (w.shared.ring.inserted i).toList := by
  rw [Keyring.seen, List.filter_eq_self.mpr]
  intro kek _
  simp only [decide_eq_true_eq]
  exact fun hdeleter => hi (h.deletes kek i hdeleter).1

/-- Who holds the lock on the tenant's key that has no version has nobody else's inserts to see. -/
theorem finish_empty (h : Kept w) (hs : s ≠ i) (hlock : w.shared.ring.lock = some s)
    (hempty : w.shared.ring.committed = []) (commits : Bool) :
    (w.shared.ring.finish i commits).committed = [] := by
  have hnone : w.shared.ring.inserted i = none := by
    by_contra hsome
    obtain ⟨kek, hkek⟩ := Option.ne_none_iff_exists'.mp hsome
    exact hs (Option.some.inj (hlock.symm.trans (h.first i kek hkek).1))
  cases commits with
  | false => exact hempty
  | true => simp [Keyring.finish, hempty, hnone]

/-- Only the custodian's commits delete. -/
theorem finish_mono (h : Kept w) (hi : i ≠ 0) (commits : Bool) :
    ∀ kek ∈ w.shared.ring.committed, kek ∈ (w.shared.ring.finish i commits).committed := by
  intro kek hkek
  cases commits with
  | false => exact hkek
  | true => exact Keyring.mem_finish.mpr (Or.inl ⟨hkek, fun hdeleter => hi (h.deletes kek i hdeleter).1⟩)

/-- The end of another session's transaction than the custodian's. -/
theorem finish (h : Kept w) (hi : i ≠ 0) (commits : Bool) :
    Kept ⟨w.shared.finish i commits, Function.update w.procs i .idle⟩ := by
  have hzero : Function.update w.procs i Process.idle 0 = w.procs 0 := Function.update_of_ne (Ne.symm hi) ..
  have hmono := h.finish_mono hi commits
  constructor <;> simp only [Tables.finish, hzero]
  case custodian =>
    refine ⟨h.custodian.1, fun s hs m => ?_⟩
    by_cases hsi : s = i
    · subst hsi
      simp
    · simpa [hsi] using h.custodian.2 s hs m
  case locks =>
    intro s hs
    have hsi : s ≠ i := by
      rintro rfl
      simp [Process.locks] at hs
    exact Keyring.finish_lock hsi (h.locks s (by simpa [hsi] using hs))
  case makes =>
    intro s hs
    have hsi : s ≠ i := by
      rintro rfl
      simp [Process.makes] at hs
    have hs : (w.procs s).makes := by simpa [hsi] using hs
    exact h.finish_empty hsi (h.locks s hs.locks) (h.makes s hs) commits
  case first =>
    intro s kek hkek
    have hsi : s ≠ i := by
      rintro rfl
      simp [Keyring.finish] at hkek
    obtain ⟨hlock, hcases⟩ := h.first s kek (by simpa [Keyring.finish, hsi] using hkek)
    refine ⟨Keyring.finish_lock hsi hlock, ?_⟩
    split
    · simpa [*] using hcases
    · rename_i hs
      simp only [hs, if_false] at hcases
      exact h.finish_empty hsi hlock hcases commits
  case inserts =>
    intro version hp
    obtain ⟨kek, hkek, hversion⟩ := h.inserts version hp
    exact ⟨kek, by simpa [Keyring.finish, Ne.symm hi] using hkek, hversion⟩
  case rotated =>
    intro version hp
    obtain ⟨kek, hkek, hversion⟩ := h.rotated version hp
    exact ⟨kek, hmono kek hkek, hversion⟩
  case deletes =>
    intro kek s hdeleter
    simp only [Keyring.finish] at hdeleter
    split at hdeleter
    · cases hdeleter
    · exact h.deletes kek s hdeleter
  case wraps => exact h.wraps
  case finds => exact h.finds

theorem create (h : Kept w) (hi : i ≠ 0) {c c' : Creating} (hp : w.procs i = .creating c)
    (hcreated : Created w.shared i c t' c') : Kept ⟨t', Function.update w.procs i (.creating c')⟩ := by
  cases hcreated with
  | quiet hring _ _ _ _ hlocks =>
    exact h.quiet hi hring (by rintro _ ⟨⟩) (fun hl => absurd hl hlocks) fun hm => absurd hm.locks hlocks
  | none hc hnone ht =>
    subst ht hc
    refine h.quiet hi rfl (by rintro _ ⟨⟩) (fun _ => by rw [hp]; trivial) fun _ => ?_
    rw [h.seen_eq hi, List.append_eq_nil_iff] at hnone
    exact hnone.1
  | got _ ht => subst ht; exact h.quiet hi rfl (by rintro _ ⟨⟩) False.elim False.elim
  | inserted _ ht => subst ht; exact h.quiet hi rfl (by rintro _ ⟨⟩) False.elim False.elim
  | took hfree ht =>
    subst ht
    refine h.step hi rfl rfl (fun _ _ => rfl) (fun s hs hlock => ?_) (by rintro _ ⟨⟩) (fun _ => rfl) False.elim
      fun kek hkek => ⟨rfl, ?_⟩
    · rw [hlock, Option.some.injEq] at hfree
      exact absurd (hfree.resolve_left (by rintro ⟨⟩)) hs
    · simpa [hi] using (h.first i kek hkek).2
  | made hc ht =>
    subst ht hc
    have hmakes : (w.procs i).makes := by
      rw [hp]
      trivial
    have hlock := h.locks i hmakes.locks
    refine h.step hi rfl rfl (fun s hs => Function.update_of_ne hs ..) (fun _ _ => id) (by rintro _ ⟨⟩) False.elim
      False.elim fun _ _ => ⟨hlock, h.makes i hmakes⟩

/-- A step of the custodian, within a transaction. -/
theorem own (h : Kept w) {m m' : Maintaining} (hm : w.procs 0 = .maintaining m)
    (hcommitted : t.ring.committed = w.shared.ring.committed)
    (hdeleter : ∀ kek s, t.ring.deleter kek = some s → w.shared.ring.deleter kek = some s ∨
      s = 0 ∧ ∃ version, (Process.maintaining m').retires = some version ∧ kek.version < version)
    (hinserted : ∀ s, s ≠ 0 → t.ring.inserted s = w.shared.ring.inserted s)
    (hlock : ∀ s, s ≠ 0 → w.shared.ring.lock = some s → t.ring.lock = some s)
    (hlocks : (Process.maintaining m').locks → t.ring.lock = some 0)
    (hfirst : ∀ kek, t.ring.inserted 0 = some kek → t.ring.lock = some 0 ∧ m' = .rotated kek.version)
    (hinserts : ∀ version, m' = .rotated version → ∃ kek, t.ring.inserted 0 = some kek ∧ kek.version = version)
    (hrotated : (Process.maintaining m').rotated = (Process.maintaining m).rotated)
    (hretires : (Process.maintaining m').retires = (Process.maintaining m).retires)
    (hwraps : ∀ version dek left g, m' = .wrapping version dek left g → g = .current)
    (hfinds : ∀ version found, m' = .retirementDeleting version found → ∀ kek ∈ found, kek.version < version) :
    Kept ⟨t, Function.update w.procs 0 (.maintaining m')⟩ := by
  constructor <;> simp only [hcommitted, Function.update_self, Process.maintaining.injEq]
  case custodian =>
    refine ⟨⟨m', rfl⟩, fun s hs m => ?_⟩
    simpa [hs] using h.custodian.2 s hs m
  case locks =>
    intro s hs
    by_cases hs0 : s = 0
    · subst hs0
      exact hlocks (by simpa using hs)
    · exact hlock s hs0 (h.locks s (by simpa [hs0] using hs))
  case makes =>
    intro s hs
    by_cases hs0 : s = 0
    · subst hs0
      simp [Process.makes] at hs
    · exact h.makes s (by simpa [hs0] using hs)
  case first =>
    intro s kek hkek
    by_cases hs0 : s = 0
    · subst hs0
      simpa using hfirst kek hkek
    · rw [hinserted s hs0] at hkek
      obtain ⟨hheld, hcases⟩ := h.first s kek hkek
      simp only [hs0, if_false] at hcases ⊢
      exact ⟨hlock s hs0 hheld, hcases⟩
  case inserts => exact hinserts
  case rotated =>
    intro version hversion
    exact h.rotated version (by rw [hm, ← hrotated, hversion])
  case deletes =>
    intro kek s hdel
    rcases hdeleter kek s hdel with hdel | hdel
    · rw [hretires, ← hm]
      exact h.deletes kek s hdel
    · exact hdel
  case wraps => exact hwraps
  case finds => exact hfinds

/-- A step of the custodian that leaves the tenant's key as it was. -/
theorem reads (h : Kept w) {m m' : Maintaining} (hm : w.procs 0 = .maintaining m)
    (hring : t.ring = w.shared.ring) (hlocks : (Process.maintaining m').locks → (Process.maintaining m).locks)
    (hnot : ∀ version, m ≠ .rotated version) (hnot' : ∀ version, m' ≠ .rotated version)
    (hrotated : (Process.maintaining m').rotated = (Process.maintaining m).rotated)
    (hretires : (Process.maintaining m').retires = (Process.maintaining m).retires)
    (hwraps : ∀ version dek left g, m' = .wrapping version dek left g → g = .current)
    (hfinds : ∀ version found, m' = .retirementDeleting version found → ∀ kek ∈ found, kek.version < version) :
    Kept ⟨t, Function.update w.procs 0 (.maintaining m')⟩ := by
  refine h.own hm (by rw [hring]) (fun _ _ hdeleter => Or.inl (hring ▸ hdeleter)) (fun _ _ => by rw [hring])
    (fun _ _ hlock => by rwa [hring]) (fun hl => ?_) (fun kek hkek => ?_)
    (fun version hv => absurd hv (hnot' version)) hrotated hretires hwraps hfinds
  · rw [hring]
    exact h.locks 0 (hm ▸ hlocks hl)
  · rw [hring] at hkek
    have hcases := (h.first 0 kek hkek).2
    rw [if_pos rfl, hm, Process.maintaining.injEq] at hcases
    exact absurd hcases (hnot kek.version)

/-- A step of the custodian that takes the lock. -/
theorem takes (h : Kept w) {m m' : Maintaining} (hm : w.procs 0 = .maintaining m)
    (hfree : w.shared.ring.lock = none ∨ w.shared.ring.lock = some 0)
    (ht : t = { w.shared with ring := { w.shared.ring with lock := some 0 } })
    (hnot : ∀ version, m ≠ .rotated version) (hnot' : ∀ version, m' ≠ .rotated version)
    (hrotated : (Process.maintaining m').rotated = (Process.maintaining m).rotated)
    (hretires : (Process.maintaining m').retires = (Process.maintaining m).retires)
    (hwraps : ∀ version dek left g, m' ≠ .wrapping version dek left g)
    (hfinds : ∀ version found, m' ≠ .retirementDeleting version found) :
    Kept ⟨t, Function.update w.procs 0 (.maintaining m')⟩ := by
  subst ht
  refine h.own hm rfl (fun _ _ => Or.inl) (fun _ _ => rfl) (fun s hs hlock => ?_) (fun _ => rfl) (fun kek hkek => ?_)
    (fun version hv => absurd hv (hnot' version)) hrotated hretires
    (fun version dek left g hv => absurd hv (hwraps version dek left g))
    (fun version found hv => absurd hv (hfinds version found))
  · rw [hlock, Option.some.injEq] at hfree
    exact absurd (hfree.resolve_left (by rintro ⟨⟩)) hs
  · have hcases := (h.first 0 kek hkek).2
    rw [if_pos rfl, hm, Process.maintaining.injEq] at hcases
    exact absurd hcases (hnot kek.version)

/-- The end of a transaction of the custodian. -/
theorem ends (h : Kept w) {m m' : Maintaining} (hm : w.procs 0 = .maintaining m) (commits : Bool)
    (hlocks : ¬(Process.maintaining m').locks) (hretires : ∀ version found, m' ≠ .retirementDeleting version found)
    (hwraps : ∀ version dek left g, m' ≠ .wrapping version dek left g)
    (hrotated : ∀ version, (Process.maintaining m').rotated = some version →
      (Process.maintaining m).rotated = some version ∨ m = .rotated version ∧ commits = true) :
    Kept ⟨w.shared.finish 0 commits, Function.update w.procs 0 (.maintaining m')⟩ := by
  constructor <;> simp only [Tables.finish, Function.update_self, Process.maintaining.injEq]
  case custodian =>
    refine ⟨⟨m', rfl⟩, fun s hs m => ?_⟩
    simpa [hs] using h.custodian.2 s hs m
  case locks =>
    intro s hs
    have hs0 : s ≠ 0 := by
      rintro rfl
      exact hlocks (by simpa using hs)
    exact Keyring.finish_lock hs0 (h.locks s (by simpa [hs0] using hs))
  case makes =>
    intro s hs
    have hs0 : s ≠ 0 := by
      rintro rfl
      simp [Process.makes] at hs
    have hs : (w.procs s).makes := by simpa [hs0] using hs
    exact h.finish_empty hs0 (h.locks s hs.locks) (h.makes s hs) commits
  case first =>
    intro s kek hkek
    have hs0 : s ≠ 0 := by
      rintro rfl
      simp [Keyring.finish] at hkek
    obtain ⟨hlock, hcases⟩ := h.first s kek (by simpa [Keyring.finish, hs0] using hkek)
    simp only [hs0, if_false] at hcases ⊢
    exact ⟨Keyring.finish_lock hs0 hlock, h.finish_empty hs0 hlock hcases commits⟩
  case inserts =>
    rintro version rfl
    exact absurd trivial hlocks
  case rotated =>
    intro version hversion
    rcases hrotated version hversion with hbefore | ⟨rfl, rfl⟩
    · rw [← hm] at hbefore
      obtain ⟨kek, hkek, rfl⟩ := h.rotated version hbefore
      refine ⟨kek, ?_, rfl⟩
      cases commits with
      | false => exact hkek
      | true =>
        refine Keyring.mem_finish.mpr (Or.inl ⟨hkek, fun hdeleter => ?_⟩)
        obtain ⟨_, version', hretires', hlt⟩ := h.deletes kek 0 hdeleter
        have := Process.rotated_of_retires hretires'
        rw [hbefore, Option.some.injEq] at this
        omega
    · obtain ⟨kek, hkek, rfl⟩ := h.inserts version hm
      exact ⟨kek, Keyring.mem_finish.mpr (Or.inr hkek), rfl⟩
  case deletes =>
    intro kek s hdeleter
    simp only [Keyring.finish] at hdeleter
    split at hdeleter
    · cases hdeleter
    · rename_i hnot
      obtain ⟨rfl, _⟩ := h.deletes kek s hdeleter
      exact absurd hdeleter hnot
  case wraps =>
    intro version dek left g hp
    exact absurd hp (hwraps version dek left g)
  case finds =>
    intro version found hp
    exact absurd hp (hretires version found)

/-- The row of the version the committed rotation answered is seen by everybody. -/
theorem current (h : Kept w) {version : Nat} (hrotated : (w.procs 0).rotated = some version) (i : Nat) :
    ∃ kek, currentKek (w.shared.ring.seen i) = some kek ∧ version ≤ kek.version := by
  obtain ⟨row, hrow, rfl⟩ := h.rotated version hrotated
  have hseen : row ∈ w.shared.ring.seen i := by
    refine Keyring.mem_seen.mpr (Or.inl ⟨hrow, fun hdeleter => ?_⟩)
    obtain ⟨_, version, hretires, hlt⟩ := h.deletes row i hdeleter
    rw [Process.rotated_of_retires hretires, Option.some.injEq] at hrotated
    omega
  cases hcurrent : currentKek (w.shared.ring.seen i) with
  | none =>
    rw [Keyring.currentKek_eq_none.mp hcurrent] at hseen
    cases hseen
  | some kek => exact ⟨kek, rfl, (Keyring.currentKek_spec hcurrent).2 row hseen⟩

end Kept

/-- What a statement of the custodian does. -/
inductive Maintained (t : Tables) : Maintaining → Tables → Maintaining → Prop
  | fails {m : Maintaining} : Maintained t m (t.finish 0 false) (PgDekStore.restart m)
  | rotationLocked (hfree : t.ring.lock = none ∨ t.ring.lock = some 0) :
      Maintained t .rotating { t with ring := { t.ring with lock := some 0 } } .rotationLocked
  | rotationRead {version : Nat} : Maintained t .rotationLocked t (.rotationInserting version)
  | rotationInserted {version : Nat} :
      Maintained t (.rotationInserting version) { t with ring := t.ring.insert 0 version } (.rotated version)
  | selected {version : Nat} : Maintained t (.rewrapping version) t (.reading version (t.seen 0))
  | read {version : Nat} {dek : Stored} {left : List Stored} :
      Maintained t (.reading version (dek :: left)) t (.wrapping version dek left .current)
  | wrapped {version : Nat} {dek : Stored} {left : List Stored} {kek : Kek}
      (hcurrent : currentKek (t.ring.seen 0) = some kek) :
      Maintained t (.wrapping version dek left .current) t (.updating version dek kek left)
  | updated {version : Nat} {dek : Stored} {kek : Kek} {left : List Stored} :
      Maintained t (.updating version dek kek left) (t.update 0 { dek with kek := kek }) (.reading version left)
  | allRead {version : Nat} : Maintained t (.reading version []) t (.rewrapped version)
  | retirementLocked {version : Nat} (hfree : t.ring.lock = none ∨ t.ring.lock = some 0) :
      Maintained t (.retiring version) { t with ring := { t.ring with lock := some 0 } } (.retirementLocked version)
  | retirementChecked {version : Nat} : Maintained t (.retirementLocked version) t (.retirementChecked version)
  | retirementFound {version : Nat} : Maintained t (.retirementChecked version) t
      (.retirementDeleting version ((t.ring.seen 0).filter (·.version < version)))
  | deleted {version : Nat} {row : Kek} {found : List Kek} {ring : Keyring} (hdelete : t.ring.delete 0 row = some ring) :
      Maintained t (.retirementDeleting version (row :: found)) { t with ring := ring }
        (.retirementDeleting version found)
  | allDeleted {version : Nat} : Maintained t (.retirementDeleting version []) t (.retired version)

theorem Kept.maintain_cases (h : Kept w) {m m' : Maintaining} (hm : w.procs 0 = .maintaining m)
    (hstep : o.maintain w.shared 0 m = some (t', m')) : Maintained w.shared m t' m' := by
  cases m with
  | rotating =>
    obtain ⟨_, hlock, hstep⟩ := Option.map_eq_some_iff.mp hstep
    obtain ⟨hfree, rfl⟩ := Keyring.lockKey_eq_some hlock
    cases hstep
    exact .rotationLocked hfree
  | rotationLocked =>
    simp only [PgDekStore.maintain] at hstep
    split at hstep
    · split at hstep <;> cases hstep
      · exact .rotationRead
      · exact .fails
    · cases hstep
      exact .fails
  | rotationInserting => cases hstep; exact .rotationInserted
  | rewrapping => cases hstep; exact .selected
  | reading version left =>
    cases left with
    | nil => cases hstep; exact .allRead
    | cons dek left =>
      simp only [PgDekStore.maintain] at hstep
      split at hstep <;> cases hstep
      · exact .read
      · exact .fails
  | wrapping version dek left g =>
    obtain rfl := h.wraps version dek left g hm
    obtain ⟨kek, hcurrent, _⟩ := h.current (by rw [hm]; rfl) 0
    simp only [PgDekStore.maintain, getOrCreateCurrentKek, hcurrent] at hstep
    cases hstep
    exact .wrapped hcurrent
  | updating => cases hstep; exact .updated
  | retiring =>
    obtain ⟨_, hlock, hstep⟩ := Option.map_eq_some_iff.mp hstep
    obtain ⟨hfree, rfl⟩ := Keyring.lockKey_eq_some hlock
    cases hstep
    exact .retirementLocked hfree
  | retirementLocked =>
    simp only [PgDekStore.maintain] at hstep
    split at hstep
    · split at hstep <;> cases hstep
      · exact .fails
      · exact .retirementChecked
    · cases hstep
      exact .fails
  | retirementChecked => cases hstep; exact .retirementFound
  | retirementDeleting version found =>
    cases found with
    | nil => cases hstep; exact .allDeleted
    | cons row found =>
      obtain ⟨_, hdelete, hstep⟩ := Option.map_eq_some_iff.mp hstep
      cases hstep
      exact .deleted hdelete
  | _ => cases hstep

namespace Kept

theorem maintain (h : Kept w) {m m' : Maintaining} (hm : w.procs 0 = .maintaining m)
    (hmaintained : Maintained w.shared m t' m') : Kept ⟨t', Function.update w.procs 0 (.maintaining m')⟩ := by
  cases hmaintained with
  | fails =>
    refine h.ends hm false ?_ ?_ ?_ ?_
    · cases m <;> exact id
    · cases m <;> rintro _ _ ⟨⟩
    · cases m <;> rintro _ _ _ _ ⟨⟩
    · cases m <;> exact fun _ => Or.inl
  | rotationLocked hfree =>
    exact h.takes hm hfree rfl (by rintro _ ⟨⟩) (by rintro _ ⟨⟩) rfl rfl (by rintro _ _ _ _ ⟨⟩) (by rintro _ _ ⟨⟩)
  | retirementLocked hfree =>
    exact h.takes hm hfree rfl (by rintro _ ⟨⟩) (by rintro _ ⟨⟩) rfl rfl (by rintro _ _ _ _ ⟨⟩) (by rintro _ _ ⟨⟩)
  | @rotationInserted version =>
    have hlock := h.locks 0 (by rw [hm]; trivial)
    refine h.own hm rfl (fun _ _ => Or.inl) (fun s hs => Function.update_of_ne hs ..) (fun _ _ => id)
      (fun _ => hlock) (fun kek hkek => ⟨hlock, ?_⟩) (fun version' hv => ?_) rfl rfl (by rintro _ _ _ _ ⟨⟩)
      (by rintro _ _ ⟨⟩)
    · obtain rfl : ⟨version, w.shared.ring.next⟩ = kek := by simpa [Keyring.insert] using hkek
      rfl
    · cases hv
      exact ⟨⟨version, w.shared.ring.next⟩, by simp [Keyring.insert], rfl⟩
  | @deleted version row found _ hdelete =>
    have hfinds := h.finds version _ hm
    have hleft : ∀ version' found', Maintaining.retirementDeleting version found = .retirementDeleting version' found' →
        ∀ kek ∈ found', kek.version < version' := by
      rintro _ _ ⟨⟩ kek hkek
      exact hfinds kek (List.mem_cons_of_mem row hkek)
    rcases Keyring.delete_eq_some hdelete with ⟨_, rfl⟩ | ⟨_, _, rfl⟩
    · exact h.reads hm rfl id (by rintro _ ⟨⟩) (by rintro _ ⟨⟩) rfl rfl (by rintro _ _ _ _ ⟨⟩) hleft
    · refine h.own hm rfl (fun kek s hdeleter => ?_) (fun _ _ => rfl) (fun _ _ => id) False.elim (fun kek hkek => ?_)
        (by rintro _ ⟨⟩) rfl rfl (by rintro _ _ _ _ ⟨⟩) hleft
      · by_cases hkek : kek = row
        · subst hkek
          simp only [Function.update_self, Option.some.injEq] at hdeleter
          exact Or.inr ⟨hdeleter.symm, version, rfl, hfinds kek List.mem_cons_self⟩
        · exact Or.inl (by simpa only [Function.update_of_ne hkek] using hdeleter)
      · have hcases := (h.first 0 kek hkek).2
        rw [if_pos rfl, hm] at hcases
        cases hcases
  | read =>
    exact h.reads hm rfl False.elim (by rintro _ ⟨⟩) (by rintro _ ⟨⟩) rfl rfl (by rintro _ _ _ _ ⟨⟩; rfl)
      (by rintro _ _ ⟨⟩)
  | retirementFound =>
    refine h.reads hm rfl False.elim (by rintro _ ⟨⟩) (by rintro _ ⟨⟩) rfl rfl (by rintro _ _ _ _ ⟨⟩) ?_
    rintro _ _ ⟨⟩ kek hkek
    simpa using (List.mem_filter.mp hkek).2
  | rotationRead =>
    exact h.reads hm rfl id (by rintro _ ⟨⟩) (by rintro _ ⟨⟩) rfl rfl (by rintro _ _ _ _ ⟨⟩) (by rintro _ _ ⟨⟩)
  | _ =>
    exact h.reads hm rfl False.elim (by rintro _ ⟨⟩) (by rintro _ ⟨⟩) rfl rfl (by rintro _ _ _ _ ⟨⟩)
      (by rintro _ _ ⟨⟩)

theorem act (h : Kept w) (hact : o.program.act w i a = some w') : Kept w' := by
  obtain ⟨t', p', hstep, rfl⟩ := (o.program.act_eq_some).mp hact
  have hstep : o.step w.shared i (w.procs i) a = some (t', p') := hstep
  by_cases hi : i = 0
  · subst hi
    obtain ⟨m, hm⟩ := h.custodian.1
    rw [hm] at hstep
    cases a with
    | getOrCreate => cases hstep
    | next =>
      obtain ⟨_, hnext, hstep⟩ := Option.map_eq_some_iff.mp hstep
      cases hstep
      exact h.maintain hm (h.maintain_cases hm hnext)
    | commit =>
      obtain ⟨_, hcommits, hstep⟩ := Option.map_eq_some_iff.mp hstep
      cases hstep
      cases m <;> cases hcommits
      · exact h.ends hm true id (by rintro _ _ ⟨⟩) (by rintro _ _ _ _ ⟨⟩) (by rintro _ ⟨⟩; exact Or.inr ⟨rfl, rfl⟩)
      · exact h.ends hm true id (by rintro _ _ ⟨⟩) (by rintro _ _ _ _ ⟨⟩) fun _ => Or.inl
      · exact h.ends hm true id (by rintro _ _ ⟨⟩) (by rintro _ _ _ _ ⟨⟩) fun _ => Or.inl
    | crash =>
      cases hstep
      exact h.maintain hm .fails
  · cases hp : w.procs i with
    | idle =>
      rw [hp] at hstep
      cases a <;> cases hstep
      exact h.quiet hi rfl (by rintro _ ⟨⟩) False.elim False.elim
    | creating c =>
      rw [hp] at hstep
      cases a with
      | getOrCreate => cases hstep
      | next =>
        obtain ⟨_, hnext, hstep⟩ := Option.map_eq_some_iff.mp hstep
        cases hstep
        exact h.create hi hp (PgDekStore.create_cases hnext)
      | commit =>
        cases c with
        | done answer =>
          cases answer with
          | ok dek =>
            cases hstep
            exact h.finish hi true
          | error => cases hstep
        | _ => cases hstep
      | crash =>
        cases hstep
        exact h.finish hi false
    | maintaining m => exact absurd hp (h.custodian.2 i hi m)

theorem beginning (keks : List Kek) (deks : List Stored) (next : Nat) : Kept (beginning keks deks next) where
  custodian := ⟨⟨.rotating, rfl⟩, fun s hs m => by simp [Dek.beginning, hs]⟩
  locks s hs := by
    by_cases hs0 : s = 0 <;> simp [Dek.beginning, Process.locks, hs0] at hs
  makes s hs := by
    by_cases hs0 : s = 0 <;> simp [Dek.beginning, Process.makes, hs0] at hs
  first := by rintro _ _ ⟨⟩
  inserts := by rintro _ ⟨⟩
  rotated := by rintro _ ⟨⟩
  deletes := by rintro _ _ ⟨⟩
  wraps := by rintro _ _ _ _ ⟨⟩
  finds := by rintro _ _ ⟨⟩

end Kept

end AsceticDdd.Dek
