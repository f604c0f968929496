import AsceticDdd.Kms.Wrapped

/-!
# Rotated, wrapped again, retired

After a rotation the tenant has a version as high as its answer, as long as the tenant's key is not deleted and nothing
above that answer is retired. What is wrapped then is wrapped under such a version.
-/

namespace AsceticDdd.Kms.Pg

open Control Crypto Versions

variable {aead : AesGcm} {rotating retiring opening : PgKeyManagementService} {table : Keks} {tenantId : String}
  {making : Making} {version : Nat} {call : Call} {calls earlier before rest : List Call} {dek bytes : Octets}

/-- A call that leaves a tenant's versions from a bound on. -/
def Call.Spares (call : Call) (tenantId : String) (version : Nat) : Prop :=
  match call.request with
  | .retireKekVersionsBefore tenant bound => tenant = tenantId → bound ≤ version
  | .deleteKek tenant => tenant ≠ tenantId
  | _ => True

theorem Call.Spares.not_retires (h : call.Spares tenantId version) {number : Nat} (le : version ≤ number) :
    ¬call.Retires table tenantId number := by
  obtain ⟨service, request⟩ := call
  cases request with
  | retireKekVersionsBefore tenant bound =>
    rintro ⟨owner, lower, _⟩
    exact absurd (Nat.lt_of_lt_of_le lower (h owner)) (Nat.not_lt.mpr le)
  | deleteKek tenant => exact h
  | encryptDek | decryptDek | generateDek | rewrapDek | createKek | rotateKek => exact id

/-- The tenant has a version as high. -/
def Reaches (table : Keks) (tenantId : String) (version : Nat) : Prop :=
  ∃ row ∈ table, row.key = tenantId ∧ version ≤ row.version

theorem reaches_of_rotateKek (held : AllHold aead table)
    (h : (rotating.rotateKek aead table tenantId making).1 = .ok version) :
    Reaches (Write.apply (rotating.rotateKek aead table tenantId making).2 table) tenantId version := by
  obtain ⟨error, same⟩ | ⟨row, same, owner, _⟩ := rotateKek_cases held rotating tenantId making
  · rw [same] at h
    cases h
  · rw [same] at h ⊢
    exact ⟨row, mem_apply.mpr (Or.inr rfl), owner, Nat.le_of_eq (Except.ok.inj h).symm⟩

/-- Calls that spare a version leave the tenant one as high. -/
theorem reaches_after (held : AllHold aead table) (spares : ∀ call ∈ calls, call.Spares tenantId version)
    (h : Reaches table tenantId version) : Reaches (after aead table calls) tenantId version := by
  have both : AllHold aead (after aead table calls) ∧ Reaches (after aead table calls) tenantId version := by
    refine run_invariant (P := fun table => AllHold aead table ∧ Reaches table tenantId version) ?_ ⟨held, h⟩
    rintro table call mem ⟨held, row, hrow, owner, le⟩
    refine ⟨allHold_after [call] held, row, mem_apply.mpr (Or.inl ⟨hrow, fun taken => ?_⟩), owner, le⟩
    have retires := (takes_iff held).mp taken
    rw [owner] at retires
    exact (spares call mem).not_retires le retires
  exact both.2

/-- What is wrapped names a version as high as the tenant has. -/
theorem le_versionOf {keys : List Octets} (sound : Sound aead table keys) (fresh : (keys ++ drawn [call]).Nodup)
    (wraps : call.Wraps aead table tenantId dek bytes) (h : Reaches table tenantId version) :
    version ≤ versionOf bytes := by
  obtain ⟨row, mem, kek, nonce, wrapped, loads, hwrap, rfl, latest⟩ := exists_of_wraps sound.allHold wraps
  obtain ⟨other, there, owner, le⟩ := h
  have next : Sound aead ((call.write aead table).apply table) (keys ++ drawn [call]) :=
    sound_after [call] sound fresh
  rw [versionOf_wrap hwrap (loads.version ▸ next.small row mem), loads.version]
  have stays : ¬(call.write aead table).Takes other := fun taken =>
    wraps.not_retires ((takes_iff sound.allHold).mp taken)
  exact le.trans (latest other (mem_apply.mpr (Or.inl ⟨there, stays⟩)) owner)

/-- What was wrapped after a rotation opens after what is older than it was retired. -/
theorem decryptDek_retired (fresh : (drawn (earlier ++ ⟨rotating, .rotateKek tenantId making⟩ ::
      (before ++ call :: rest))).Nodup)
    (rotated : (rotating.rotateKek aead (after aead [] earlier) tenantId making).1 = .ok version)
    (spares : ∀ other ∈ before ++ rest, other.Spares tenantId version)
    (wraps : call.Wraps aead (after aead [] (earlier ++ ⟨rotating, .rotateKek tenantId making⟩ :: before)) tenantId dek
      bytes) (masters : opening.masterKey = call.service.masterKey)
    (contexts : opening.context = call.service.context) :
    opening.decryptDek aead (after aead [] (earlier ++ ⟨rotating, .rotateKek tenantId making⟩ :: (before ++
      call :: (rest ++ [⟨retiring, .retireKekVersionsBefore tenantId version⟩])))) tenantId bytes = .ok dek := by
  have spared : ∀ other ∈ rest ++ [⟨retiring, .retireKekVersionsBefore tenantId version⟩],
      other.Spares tenantId version := by
    intro other mem
    obtain mem | mem := List.mem_append.mp mem
    · exact spares other (List.mem_append_right _ mem)
    · rw [List.mem_singleton.mp mem]
      exact fun _ => Nat.le_refl _
  have whole : ∀ calls, earlier ++ ⟨rotating, .rotateKek tenantId making⟩ :: (before ++ call :: calls) =
      (earlier ++ ⟨rotating, .rotateKek tenantId making⟩ :: before) ++ call :: calls := fun calls => by
    rw [List.append_assoc, List.cons_append]
  have draws : drawn (call :: (rest ++ [⟨retiring, .retireKekVersionsBefore tenantId version⟩])) =
      drawn (call :: rest) := by
    rw [← List.cons_append, drawn_append]
    exact List.append_nil _
  rw [whole, drawn_append] at fresh
  have sound := sound_after _ (sound_nil aead) (List.nodup_append.mp fresh).1
  rw [List.nil_append] at sound
  have first : (drawn (earlier ++ ⟨rotating, .rotateKek tenantId making⟩ :: before) ++ drawn [call]).Nodup := by
    rw [show drawn (call :: rest) = drawn [call] ++ drawn rest from drawn_append [call] rest,
      ← List.append_assoc] at fresh
    exact (List.nodup_append.mp fresh).1
  have reaches : Reaches (after aead [] (earlier ++ ⟨rotating, .rotateKek tenantId making⟩ :: before)) tenantId
      version := by
    have held := allHold_after earlier (sound_nil aead).allHold
    have next := allHold_after [⟨rotating, .rotateKek tenantId making⟩] held
    have later := reaches_after next (fun other mem => spares other (List.mem_append_left _ mem))
      (reaches_of_rotateKek held rotated)
    rwa [after_append]
  rw [whole, after_append]
  refine (decryptDek_after sound (draws ▸ fresh) wraps).mpr ⟨rfl, masters, rfl, contexts, ?_⟩
  intro before' other rest' split
  refine (spared other ?_).not_retires (le_versionOf sound first wraps reaches)
  rw [split]
  exact List.mem_append_cons_self

set_option maxRecDepth 4000 in
/-- A key is made and rotated, and a data key drawn, before the first version is retired. -/
theorem decryptDek_retired_orders : ∃ (dek bytes : Octets), PgKeyManagementService.decryptDek AesGcm.framed
    orders (after AesGcm.framed [] ([⟨orders, .createKek "tenant" ⟨false, none⟩ ⟨keyOf 1, zeroNonce⟩⟩] ++
      ⟨orders, .rotateKek "tenant" ⟨keyOf 2, zeroNonce⟩⟩ :: ([] ++
        ⟨orders, .generateDek "tenant" (keyOf 4) ⟨keyOf 3, zeroNonce⟩ zeroNonce⟩ ::
          ([] ++ [⟨orders, .retireKekVersionsBefore "tenant" 2⟩])))) "tenant" bytes = .ok dek := by
  obtain ⟨bytes, h⟩ : ∃ bytes, (PgKeyManagementService.generateDek AesGcm.framed orders
      (after AesGcm.framed [] [⟨orders, .createKek "tenant" ⟨false, none⟩ ⟨keyOf 1, zeroNonce⟩⟩,
        ⟨orders, .rotateKek "tenant" ⟨keyOf 2, zeroNonce⟩⟩]) "tenant" (keyOf 4) ⟨keyOf 3, zeroNonce⟩ zeroNonce).1 =
      .ok ((keyOf 4).bytes, bytes) := ⟨_, rfl⟩
  exact ⟨_, bytes, decryptDek_retired (by decide) rfl (List.forall_mem_nil _) (.generated h) rfl rfl⟩

end AsceticDdd.Kms.Pg
