import AsceticDdd.Kms.Vault

/-!
# The floor of a key

A retirement writes a bound above the floor it has read. The floor may have been raised above the bound
since, by the write of another retirement.
-/

namespace AsceticDdd.Kms.Vault

open Interleaving

variable {v : Service} {keys : Keys} {w w' : World} {i : Nat} {a : Act} {p : Calling}

/-- A retirement between its read and its write, and the bound it writes. -/
def Calling.Writes (p : Calling) (name : String) (bound : Nat) : Prop :=
  ∃ tenantId body missing, p = .writing tenantId name body missing ∧ body.minDecryptionVersion = bound

/-- The next request is handled by Vault. -/
def Act.handles : Act → Bool
  | .next | .silent | .lose true => true
  | _ => false

theorem versionField_of_lt {version : Nat} (h : version < 2 ^ 32) (field : String) :
    versionField (some version) field = .ok version :=
  if_pos h

theorem versionField_of_not_lt {version : Nat} (h : ¬version < 2 ^ 32) (field : String) :
    versionField (some version) field = .error (.malformed ("vault answered without `data." ++ field ++ "`")) :=
  if_neg h

theorem versionOr_of_lt {version : Nat} {field : String} {absent : Nat} (h : version < 2 ^ 32) :
    versionOr (some version) field absent = version := by
  rw [versionOr, versionField_of_lt h]
  rfl

theorem versionOr_of_not_lt {version : Nat} {field : String} {absent : Nat} (h : ¬version < 2 ^ 32) :
    versionOr (some version) field absent = absent := by
  rw [versionOr, versionField_of_not_lt h]
  rfl

/-- What a read leads to: the bound is above the floor read, and no higher than the latest version. -/
theorem retiring_eq_some {key : TransitKey} {version : Nat} {body : Config}
    (h : retiring key.described version = .ok (some body))
    (hkey : key.minDecryptionVersion ≤ key.latestVersion) :
    body.minDecryptionVersion = version ∧ key.minDecryptionVersion < version ∧
      version ≤ key.latestVersion := by
  unfold retiring at h
  split at h
  · cases h
  rename_i latest hlatest
  have hlatest : versionField (some key.latestVersion) "latest_version" = .ok latest := hlatest
  have hlt : key.latestVersion < 2 ^ 32 := by
    by_contra hge
    rw [versionField_of_not_lt hge] at hlatest
    cases hlatest
  obtain rfl : key.latestVersion = latest := by
    rw [versionField_of_lt hlt] at hlatest
    exact Except.ok.inj hlatest
  split at h
  · cases h
  rename_i hle
  split at h
  · cases h
  rename_i hfloor
  have hfloor : ¬version ≤ versionOr (some key.minDecryptionVersion) "min_decryption_version" 1 := hfloor
  rw [versionOr_of_lt (Nat.lt_of_le_of_lt hkey hlt)] at hfloor
  cases h
  exact ⟨rfl, Nat.lt_of_not_le hfloor, Nat.le_of_not_lt hle⟩

/-- What one step does to the keys: nothing, a rotation, or the write of a bound. -/
inductive Effect (keys : Keys) (p : Calling) (a : Act) : Keys → Prop
  | same : Effect keys p a keys
  | rotated {name : String} {key : TransitKey} (hkey : keys name = some key) :
      Effect keys p a (Function.update keys name (some key.rotated))
  | written {tenantId name : String} {key : TransitKey} {body : Config} {missing : Error}
      (hkey : keys name = some key) (hp : p = .writing tenantId name body missing) (ha : a.handles) :
      Effect keys p a (Function.update keys name (some (key.configured body)))

/-- A key was there before: it is as it was, a version newer, or its floor is the bound the step wrote. -/
theorem Effect.old {keys' : Keys} {name : String} {key : TransitKey} (h : Effect keys p a keys')
    (hkey : keys' name = some key) : ∃ old, keys name = some old ∧ (key = old ∨ key = old.rotated ∨
      ∃ body, a.handles ∧ p.Writes name body.minDecryptionVersion ∧ key = old.configured body) := by
  cases h with
  | same => exact ⟨key, hkey, Or.inl rfl⟩
  | @rotated other old hold =>
    by_cases hname : name = other
    · subst hname
      exact ⟨old, hold, Or.inr (Or.inl (by simpa using hkey.symm))⟩
    · exact ⟨key, by rwa [Function.update_of_ne hname] at hkey, Or.inl rfl⟩
  | @written tenantId other old body missing hold hp ha =>
    by_cases hname : name = other
    · subst hname
      exact ⟨old, hold, Or.inr (Or.inr ⟨body, ha, ⟨tenantId, body, missing, hp, rfl⟩, by simpa using hkey.symm⟩)⟩
    · exact ⟨key, by rwa [Function.update_of_ne hname] at hkey, Or.inl rfl⟩

/-- A key stays. -/
theorem Effect.stays {keys' : Keys} {name : String} (h : Effect keys p a keys') (hkey : (keys name).isSome) :
    (keys' name).isSome := by
  cases h with
  | same => exact hkey
  | rotated => simp only [Function.update_apply]; split <;> simp [hkey]
  | written => simp only [Function.update_apply]; split <;> simp [hkey]

theorem handle_effect {keys' : Keys} {key : Option TransitKey} (ha : a.handles)
    (h : handle keys p = some (keys', key)) : Effect keys p a keys' := by
  cases p with
  | idle => cases h
  | rotating tenantId name missing =>
    cases hkey : keys name with
    | none => simp only [handle, hkey] at h; cases h; exact .same
    | some key => simp only [handle, hkey] at h; cases h; exact .rotated hkey
  | writing tenantId name body missing =>
    cases hkey : keys name with
    | none => simp only [handle, hkey] at h; cases h; exact .same
    | some key => simp only [handle, hkey] at h; cases h; exact .written hkey rfl ha
  | rotated => cases h; exact .same
  | reading => cases h; exact .same
  | explaining => cases h; exact .same
  | done => cases h

theorem step_effect {keys' : Keys} {p' : Calling} (h : v.step keys p a = some (keys', p')) :
    Effect keys p a keys' := by
  cases a with
  | next =>
    obtain ⟨_, hhandle, h⟩ := Option.map_eq_some_iff.mp h
    cases h
    exact handle_effect rfl hhandle
  | silent =>
    obtain ⟨_, hhandle, h⟩ := Option.map_eq_some_iff.mp h
    cases h
    exact handle_effect rfl hhandle
  | refuse =>
    obtain ⟨_, _, h⟩ := Option.map_eq_some_iff.mp h
    cases h
    exact .same
  | lose handled =>
    obtain ⟨_, hhandle, h⟩ := Option.map_eq_some_iff.mp h
    cases h
    cases handled with
    | false => exact .same
    | true => exact handle_effect rfl hhandle
  | _ => cases h; exact .same

theorem refused_not_writes {tenantId name operation path message name' : String} {missing : Error}
    {status bound : Nat} : ¬(refused tenantId name operation path missing status message).Writes name' bound := by
  rintro ⟨_, _, _, h, _⟩
  unfold refused at h
  split at h <;> cases h

theorem named_not_writes {name : Except Error String} {call : String → Calling} {name' : String} {bound : Nat}
    (h : ∀ name, ¬(call name).Writes name' bound) : ¬(Calling.named name call).Writes name' bound := by
  cases name with
  | ok name => exact h name
  | error => rintro ⟨_, _, _, hp, _⟩; cases hp

/-- A step that ends before a write has read the floor. -/
theorem answered_writes {key : Option TransitKey} {silent : Bool} {name : String} {bound : Nat}
    (h : (answered key silent p).Writes name bound) : ∃ tenantId version missing k body,
      p = .reading tenantId name version missing ∧ key = some k ∧
        retiring k.described version = .ok (some body) ∧ body.minDecryptionVersion = bound := by
  cases p with
  | idle => obtain ⟨_, _, _, hp, _⟩ := h; cases hp
  | rotating tenantId name missing =>
    exfalso
    cases key with
    | none =>
      simp only [answered] at h
      exact refused_not_writes h
    | some key =>
      obtain ⟨_, _, _, hp, _⟩ := h
      simp only [answered] at hp
      split at hp <;> cases hp
  | rotated name =>
    obtain ⟨_, _, _, hp, _⟩ := h
    cases key <;> cases hp
  | reading tenantId name version missing =>
    obtain ⟨_, body, _, hp, hbound⟩ := h
    cases key with
    | none => cases hp
    | some key =>
      simp only [answered] at hp
      split at hp
      · cases hp
      · cases hp
      · rename_i hretiring
        cases hp
        exact ⟨_, version, _, key, body, rfl, rfl, hretiring, hbound⟩
  | writing tenantId name body missing =>
    exfalso
    cases key with
    | none =>
      simp only [answered] at h
      exact refused_not_writes h
    | some key => obtain ⟨_, _, _, hp, _⟩ := h; cases hp
  | explaining => obtain ⟨_, _, _, hp, _⟩ := h; cases hp
  | done => obtain ⟨_, _, _, hp, _⟩ := h; cases hp

theorem turnedAway_not_writes {status : Nat} {message name : String} {bound : Nat}
    (h : (handle keys p).isSome) : ¬(turnedAway status message p).Writes name bound := by
  cases p with
  | idle => cases h
  | rotating => exact refused_not_writes
  | writing => exact refused_not_writes
  | rotated =>
    rintro ⟨_, _, _, hp, _⟩
    simp only [turnedAway] at hp
    split at hp <;> cases hp
  | reading => rintro ⟨_, _, _, hp, _⟩; cases hp
  | explaining => rintro ⟨_, _, _, hp, _⟩; cases hp
  | done => cases h

/-- Who is about to write after its step has just read a floor below its bound. -/
theorem step_writes {keys' : Keys} {p' : Calling} {name : String} {bound : Nat}
    (h : v.step keys p a = some (keys', p')) (hwrites : p'.Writes name bound)
    (hkeys : ∀ name key, keys name = some key → key.minDecryptionVersion ≤ key.latestVersion) :
    ∃ key, keys' name = some key ∧ key.minDecryptionVersion < bound ∧ bound ≤ key.latestVersion := by
  have hanswered : ∀ {silent key}, handle keys p = some (keys', key) →
      (answered key silent p).Writes name bound →
      ∃ key, keys' name = some key ∧ key.minDecryptionVersion < bound ∧ bound ≤ key.latestVersion := by
    intro silent key hhandle hwrites
    obtain ⟨tenantId, version, missing, k, body, rfl, rfl, hretiring, rfl⟩ := answered_writes hwrites
    obtain ⟨rfl, hk⟩ := Prod.ext_iff.mp (Option.some.inj hhandle)
    obtain ⟨rfl, hlt, hle⟩ := retiring_eq_some hretiring (hkeys name k hk)
    exact ⟨k, hk, hlt, hle⟩
  cases a with
  | next =>
    obtain ⟨⟨_, key⟩, hhandle, h⟩ := Option.map_eq_some_iff.mp h
    cases h
    exact hanswered hhandle hwrites
  | silent =>
    obtain ⟨⟨_, key⟩, hhandle, h⟩ := Option.map_eq_some_iff.mp h
    cases h
    exact hanswered hhandle hwrites
  | refuse =>
    obtain ⟨_, hhandle, h⟩ := Option.map_eq_some_iff.mp h
    cases h
    exact absurd hwrites (turnedAway_not_writes (by rw [hhandle]; rfl))
  | lose handled =>
    obtain ⟨_, _, h⟩ := Option.map_eq_some_iff.mp h
    cases h
    obtain ⟨_, _, _, hp, _⟩ := hwrites
    cases p <;> cases hp
  | rotateKek => cases h; obtain ⟨_, _, _, hp, _⟩ := hwrites; cases hp
  | retireKekVersionsBefore => cases h; obtain ⟨_, _, _, hp, _⟩ := hwrites; cases hp
  | rotateSigningKey =>
    cases h
    exact absurd hwrites (named_not_writes fun _ => by rintro ⟨_, _, _, hp, _⟩; cases hp)
  | rotateMacKey =>
    cases h
    exact absurd hwrites (named_not_writes fun _ => by rintro ⟨_, _, _, hp, _⟩; cases hp)
  | retireSigningVersionsBefore =>
    cases h
    exact absurd hwrites (named_not_writes fun _ => by rintro ⟨_, _, _, hp, _⟩; cases hp)
  | retireMacVersionsBefore =>
    cases h
    exact absurd hwrites (named_not_writes fun _ => by rintro ⟨_, _, _, hp, _⟩; cases hp)

/-- No floor is above the latest version, and no bound about to be written. -/
structure Bounded (w : World) : Prop where
  floor : ∀ name key, w.shared name = some key → key.minDecryptionVersion ≤ key.latestVersion
  bound : ∀ i name bound, (w.procs i).Writes name bound →
    ∃ key, w.shared name = some key ∧ bound ≤ key.latestVersion

/-- The latest version of a key does not fall. -/
theorem Effect.latest {keys' : Keys} {name : String} {key : TransitKey} (h : Effect keys p a keys')
    (hkey : keys name = some key) :
    ∃ key', keys' name = some key' ∧ key.latestVersion ≤ key'.latestVersion := by
  obtain ⟨key', hkey'⟩ := Option.isSome_iff_exists.mp (h.stays (Option.isSome_iff_exists.mpr ⟨key, hkey⟩))
  obtain ⟨old, hold, hcases⟩ := h.old hkey'
  obtain rfl := Option.some.inj (hkey.symm.trans hold)
  refine ⟨key', hkey', ?_⟩
  obtain rfl | rfl | ⟨body, _, _, rfl⟩ := hcases
  · exact Nat.le_refl _
  · exact Nat.le_succ _
  · exact Nat.le_refl _

namespace Bounded

theorem act (h : Bounded w) (hact : v.program.act w i a = some w') : Bounded w' := by
  obtain ⟨keys', p', hstep, rfl⟩ := (v.program.act_eq_some).mp hact
  have hstep : v.step w.shared (w.procs i) a = some (keys', p') := hstep
  have heffect := step_effect hstep
  constructor
  case floor =>
    intro name key hkey
    obtain ⟨old, hold, rfl | rfl | ⟨body, _, hwrites, rfl⟩⟩ := heffect.old hkey
    · exact h.floor name key hold
    · exact Nat.le_succ_of_le (h.floor name old hold)
    · obtain ⟨key, hold', hle⟩ := h.bound i name _ hwrites
      obtain rfl := Option.some.inj (hold.symm.trans hold')
      exact hle
  case bound =>
    intro j name bound hwrites
    by_cases hj : j = i
    · subst hj
      simp only [Function.update_self] at hwrites
      obtain ⟨key, hkey, _, hle⟩ := step_writes hstep hwrites h.floor
      exact ⟨key, hkey, hle⟩
    · simp only [Function.update_of_ne hj] at hwrites
      obtain ⟨key, hkey, hle⟩ := h.bound j name bound hwrites
      obtain ⟨key', hkey', hle'⟩ := heffect.latest hkey
      exact ⟨key', hkey', Nat.le_trans hle hle'⟩

end Bounded

/-- A write comes while no retirement of a lower bound is between its read and its write. -/
def InOrder (w : World) (i : Nat) (a : Act) : Prop :=
  ∀ j name bound bound', a.handles → j ≠ i → (w.procs i).Writes name bound →
    (w.procs j).Writes name bound' → bound ≤ bound'

/-- No floor is above a bound about to be written. -/
structure Rising (w : World) : Prop extends Bounded w where
  rises : ∀ i name bound, (w.procs i).Writes name bound →
    ∀ key, w.shared name = some key → key.minDecryptionVersion ≤ bound

/-- A floor is raised, if at all, to the bound of the step's own write. -/
theorem Effect.floor {keys' : Keys} {name : String} {key : TransitKey} (h : Effect keys p a keys')
    (hkey : keys' name = some key) : ∃ old, keys name = some old ∧
      (key.minDecryptionVersion = old.minDecryptionVersion ∨
        a.handles ∧ p.Writes name key.minDecryptionVersion) := by
  obtain ⟨old, hold, rfl | rfl | ⟨body, ha, hwrites, rfl⟩⟩ := h.old hkey
  · exact ⟨key, hold, Or.inl rfl⟩
  · exact ⟨old, hold, Or.inl rfl⟩
  · exact ⟨old, hold, Or.inr ⟨ha, hwrites⟩⟩

namespace Rising

theorem act (h : Rising w) (hok : InOrder w i a) (hact : v.program.act w i a = some w') : Rising w' := by
  refine ⟨h.toBounded.act hact, ?_⟩
  obtain ⟨keys', p', hstep, rfl⟩ := (v.program.act_eq_some).mp hact
  have hstep : v.step w.shared (w.procs i) a = some (keys', p') := hstep
  intro j name bound hwrites key hkey
  by_cases hj : j = i
  · subst hj
    simp only [Function.update_self] at hwrites
    obtain ⟨key', hkey', hlt, _⟩ := step_writes hstep hwrites h.floor
    obtain rfl := Option.some.inj (hkey.symm.trans hkey')
    exact Nat.le_of_lt hlt
  · simp only [Function.update_of_ne hj] at hwrites
    obtain ⟨old, hold, heq | ⟨ha, hown⟩⟩ := (step_effect hstep).floor hkey
    · rw [heq]
      exact h.rises j name bound hwrites old hold
    · exact hok j name _ bound ha hj hown hwrites

/-- A step lowers no floor. -/
theorem floor_le (h : Rising w) (hact : v.program.act w i a = some w') {name : String} {key : TransitKey}
    (hkey : w.shared name = some key) :
    ∃ key', w'.shared name = some key' ∧ key.minDecryptionVersion ≤ key'.minDecryptionVersion := by
  obtain ⟨keys', p', hstep, rfl⟩ := (v.program.act_eq_some).mp hact
  have heffect : Effect w.shared (w.procs i) a keys' := step_effect hstep
  obtain ⟨key', hkey', _⟩ := heffect.latest hkey
  refine ⟨key', hkey', ?_⟩
  obtain ⟨old, hold, heq | ⟨_, hwrites⟩⟩ := heffect.floor hkey'
  · obtain rfl := Option.some.inj (hkey.symm.trans hold)
    exact Nat.le_of_eq heq.symm
  · exact h.rises i name _ hwrites key hkey

end Rising

/-- Keys there are, and nobody at work on them. -/
def beginning (keys : Keys) : World := ⟨keys, fun _ => .idle⟩

theorem Rising.beginning (hkeys : ∀ name key, keys name = some key →
    key.minDecryptionVersion ≤ key.latestVersion) : Rising (beginning keys) where
  floor := hkeys
  bound := by rintro _ _ _ ⟨_, _, _, hp, _⟩; cases hp
  rises := by rintro _ _ _ ⟨_, _, _, hp, _⟩; cases hp

theorem serves_eq_false {key : TransitKey} {version : Nat} (hkey : key.minDecryptionVersion ≤ key.latestVersion)
    (hlt : version < key.minDecryptionVersion) : serves key.described version = false := by
  by_cases hfloor : key.minDecryptionVersion < 2 ^ 32
  · have hnot : ¬key.minDecryptionVersion ≤ version := Nat.not_le_of_lt hlt
    simp [serves, TransitKey.described, versionOr_of_lt hfloor, hnot]
  -- a version Vault counts past what the code reads is no version at all
  · have hlatest : ¬key.latestVersion < 2 ^ 32 := fun hlt => hfloor (Nat.lt_of_le_of_lt hkey hlt)
    rw [serves, TransitKey.described, versionOr_of_not_lt hfloor, versionOr_of_not_lt hlatest]
    simp only [Bool.and_eq_false_iff, decide_eq_false_iff_not]
    omega

/-- A write that is handled sets the floor, and touches no other call. -/
theorem act_of_writes {name : String} {bound : Nat} {key : TransitKey} (h : (w.procs i).Writes name bound)
    (hkey : w.shared name = some key) (ha : a.handles) :
    ∃ w₁, v.program.act w i a = some w₁ ∧ ∃ key₁, w₁.shared name = some key₁ ∧
      key₁.minDecryptionVersion = bound ∧ ∀ j, j ≠ i → w₁.procs j = w.procs j := by
  obtain ⟨tenantId, body, missing, hp, rfl⟩ := h
  have hhandle : handle w.shared (w.procs i) =
      some (Function.update w.shared name (some (key.configured body)), some (key.configured body)) := by
    simp [hp, handle, hkey]
  have hstep : ∃ p', v.step w.shared (w.procs i) a =
      some (Function.update w.shared name (some (key.configured body)), p') := by
    cases a with
    | next => exact ⟨_, by rw [Service.step, hhandle]; rfl⟩
    | silent => exact ⟨_, by rw [Service.step, hhandle]; rfl⟩
    | lose handled =>
      cases handled with
      | false => cases ha
      | true => exact ⟨_, by rw [Service.step, hhandle]; rfl⟩
    | _ => cases ha
  obtain ⟨p', hstep⟩ := hstep
  exact ⟨_, (v.program.act_eq_some).mpr ⟨_, _, hstep, rfl⟩, _, Function.update_self .., rfl,
    fun j hj => Function.update_of_ne hj ..⟩

/-- A floor is never above the latest version; in a run of writes in order it is never lowered, and what is
below it never serves again. A write out of order lets the retirement between its read and its write lower
the floor. -/
theorem floor_kept (v : Service) (hkeys : ∀ name key, keys name = some key →
      key.minDecryptionVersion ≤ key.latestVersion) :
    (∀ w, v.program.Run (fun _ _ _ => True) (beginning keys) w →
      ∀ name key, w.shared name = some key → key.minDecryptionVersion ≤ key.latestVersion) ∧
    (∀ w w', v.program.Run InOrder (beginning keys) w → v.program.Run InOrder w w' →
      ∀ name key, w.shared name = some key → ∃ key', w'.shared name = some key' ∧
        key.minDecryptionVersion ≤ key'.minDecryptionVersion ∧
        ∀ version < key.minDecryptionVersion, serves key'.described version = false) ∧
    ∀ w i a, v.program.Run (fun _ _ _ => True) (beginning keys) w → ¬InOrder w i a →
      ∃ w₁ j w₂ name key₁ key₂, v.program.act w i a = some w₁ ∧ v.program.act w₁ j .next = some w₂ ∧
        w₁.shared name = some key₁ ∧ w₂.shared name = some key₂ ∧
        key₂.minDecryptionVersion < key₁.minDecryptionVersion := by
  have hbounded : ∀ w, v.program.Run (fun _ _ _ => True) (Vault.beginning keys) w → Bounded w := fun w hrun =>
    hrun.invariant (fun _ _ _ _ h _ hact => h.act hact) (Rising.beginning hkeys).toBounded
  refine ⟨fun w hrun => (hbounded w hrun).floor, fun w w' hrun hrun' name key hkey => ?_,
    fun w i a hrun hok => ?_⟩
  · have hrising := hrun.invariant (fun _ _ _ _ h hok hact => Rising.act h hok hact) (.beginning hkeys)
    obtain ⟨hrising', key', hkey', hle⟩ := hrun'.invariant
      (I := fun u => Rising u ∧ ∃ key', u.shared name = some key' ∧
        key.minDecryptionVersion ≤ key'.minDecryptionVersion)
      (fun u i a u' ⟨h, key', hkey', hle⟩ hok hact => by
        obtain ⟨key'', hkey'', hle'⟩ := h.floor_le hact hkey'
        exact ⟨h.act hok hact, key'', hkey'', Nat.le_trans hle hle'⟩)
      ⟨hrising, key, hkey, Nat.le_refl _⟩
    exact ⟨key', hkey', hle, fun version hlt =>
      serves_eq_false (hrising'.floor name key' hkey') (Nat.lt_of_lt_of_le hlt hle)⟩
  · simp only [InOrder, not_forall, Nat.not_le] at hok
    obtain ⟨j, name, bound, bound', ha, hj, hwrites, hwrites', hlt⟩ := hok
    have h := hbounded w hrun
    obtain ⟨key, hkey, _⟩ := h.bound i name bound hwrites
    obtain ⟨w₁, hact, key₁, hkey₁, hfloor₁, hprocs⟩ := act_of_writes (v := v) hwrites hkey ha
    obtain ⟨w₂, hact₂, key₂, hkey₂, hfloor₂, _⟩ :=
      act_of_writes (v := v) (a := .next) ((hprocs j hj).symm ▸ hwrites') hkey₁ rfl
    exact ⟨w₁, j, w₂, name, key₁, key₂, hact, hact₂, hkey₁, hkey₂, by omega⟩

/-- A key of seven versions, of which the first is retired. -/
def seven : TransitKey := ⟨7, 2, 0⟩

/-- A service that encodes no name, and one key. -/
def plainNames : Service := ⟨id⟩

def oneKey : Keys := fun name => if name = "tenant" then some seven else none

theorem oneKey_floor : ∀ name key, oneKey name = some key → key.minDecryptionVersion ≤ key.latestVersion := by
  intro name key h
  obtain ⟨_, h⟩ := Option.ite_none_right_eq_some.mp h
  cases h
  decide

/-- Two retirements have read the key, a rotation comes between their writes, the lower bound's first. -/
def retired : World :=
  plainNames.program.after (beginning oneKey) [(1, .retireKekVersionsBefore "tenant" 3),
    (2, .retireKekVersionsBefore "tenant" 5), (1, .next), (2, .next), (3, .rotateKek "tenant"), (1, .next),
    (3, .next), (2, .next)] (by decide +kernel)

def Calling.bound : Calling → Option (String × Nat)
  | .writing _ name body _ => some (name, body.minDecryptionVersion)
  | _ => none

theorem Calling.Writes.bound_eq {name : String} {bound : Nat} (h : p.Writes name bound) : p.bound = some (name, bound) := by
  obtain ⟨_, _, _, rfl, rfl⟩ := h
  rfl

/-- The first sessions are at work, in order. -/
def Orderly (w : World) (i : Nat) (_ : Act) : Prop :=
  i < 4 ∧ ∀ j < 4, j ≠ i → ∀ own ∈ (w.procs i).bound, ∀ other ∈ (w.procs j).bound,
    own.1 = other.1 → own.2 ≤ other.2

instance (w : World) (i : Nat) (a : Act) : Decidable (Orderly w i a) := inferInstanceAs (Decidable (_ ∧ _))

theorem inOrder_of_orderly (h : Orderly w i a) (hidle : ∀ j, ¬j < 4 → w.procs j = (beginning keys).procs j) :
    InOrder w i a := by
  intro j name bound bound' _ hj hwrites hwrites'
  by_cases hlt : j < 4
  · exact h.2 j hlt hj _ hwrites.bound_eq _ hwrites'.bound_eq rfl
  · obtain ⟨_, _, _, hp, _⟩ := hwrites'
    rw [hidle j hlt] at hp
    cases hp

theorem floor_kept_retired : retired.shared "tenant" = some ⟨8, 5, 0⟩ ∧
    ∃ key', retired.shared "tenant" = some key' ∧ seven.minDecryptionVersion ≤ key'.minDecryptionVersion ∧
      ∀ version < seven.minDecryptionVersion, serves key'.described version = false := by
  have horderly : plainNames.program.Run Orderly (beginning oneKey) retired :=
    Program.Run.checked (fun w i a => decide (Orderly w i a)) (by decide +kernel)
      fun _ _ _ checked => of_decide_eq_true checked
  have hrun : plainNames.program.Run InOrder (beginning oneKey) retired :=
    (horderly.among (· < 4) fun _ _ _ h => h.1).mono fun _ _ _ h => inOrder_of_orderly h.1 h.2
  exact ⟨by decide +kernel,
    (floor_kept plainNames oneKey_floor).2.1 (beginning oneKey) retired (.refl _) hrun "tenant" seven rfl⟩

/-- Two retirements have read the key, and the one of the higher bound has written. -/
def raised : World :=
  plainNames.program.after (beginning oneKey) [(1, .retireKekVersionsBefore "tenant" 3),
    (2, .retireKekVersionsBefore "tenant" 5), (1, .next), (2, .next), (2, .next)] (by decide +kernel)

/-- The other writes too. -/
def lowered : World := plainNames.program.after raised [(1, .next)] (by decide +kernel)

theorem floor_lowered : ¬∀ (v : Service) (keys : Keys) (w w' : World),
    (∀ name key, keys name = some key → key.minDecryptionVersion ≤ key.latestVersion) →
    v.program.Run (fun _ _ _ => True) (beginning keys) w → v.program.Run (fun _ _ _ => True) w w' →
    ∀ name key, w.shared name = some key → ∃ key', w'.shared name = some key' ∧
      key.minDecryptionVersion ≤ key'.minDecryptionVersion := by
  intro h
  obtain ⟨key', hkey', hle⟩ := h plainNames oneKey raised lowered oneKey_floor
    (Program.Run.after fun _ _ _ => trivial) (Program.Run.after fun _ _ _ => trivial) "tenant" ⟨7, 5, 0⟩
    (by decide +kernel)
  have hlowered : lowered.shared "tenant" = some ⟨7, 3, 0⟩ := by decide +kernel
  obtain rfl := Option.some.inj (hlowered.symm.trans hkey')
  exact absurd hle (by decide)

end AsceticDdd.Kms.Vault
