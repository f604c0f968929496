import AsceticDdd.Kms.Wrapped

/-!
# A table of keys in use

Whatever calls leave, what opens goes on opening until its version is taken, and what is wrapped opens.
-/

namespace AsceticDdd.Kms.Pg

open Control Crypto Versions

variable {aead : AesGcm} {service : PgKeyManagementService} {table : Keks} {tenantId : String} {call : Call}
  {calls : List Call} {dek bytes : Octets}

/-- Each version has one row, and each row a key. -/
structure Tidy (aead : AesGcm) (table : Keks) : Prop where
  distinct : Distinct table
  small : ∀ row ∈ table, row.version < 2 ^ 31
  held : AllHold aead table

theorem tidy_nil (aead : AesGcm) : Tidy aead [] where
  distinct := List.nodup_nil
  small := List.forall_mem_nil _
  held := List.forall_mem_nil _

theorem Tidy.step (tidy : Tidy aead table) (call : Call) : Tidy aead ((call.write aead table).apply table) := by
  have written := writes tidy.held call
  have added : ∀ {row}, call.write aead table = .insert row →
      ∃ making, Adds aead call.service table making row := by
    intro row h
    rw [h] at written
    cases written with
    | insert _ adds => exact ⟨_, adds⟩
  refine ⟨tidy.distinct.apply ?_, ?_, allHold_after [call] tidy.held⟩
  · intro row h
    obtain ⟨_, adds⟩ := added h
    exact adds.next
  · intro row mem
    obtain ⟨mem, _⟩ | h := mem_apply.mp mem
    · exact tidy.small row mem
    · obtain ⟨_, adds⟩ := added h
      exact adds.small

/-- What opens does until its version is taken. -/
theorem Tidy.decryptDek_stays (tidy : Tidy aead table) (h : service.decryptDek aead table tenantId bytes = .ok dek)
    (spared : ¬call.Retires table tenantId (versionOf bytes)) :
    service.decryptDek aead ((call.write aead table).apply table) tenantId bytes = .ok dek := by
  obtain ⟨wrapped, hparsed, h⟩ := bind_eq_ok.mp h
  obtain ⟨kek, hkek, h⟩ := bind_eq_ok.mp h
  have number : wrapped.keyVersion = versionOf bytes := by
    unfold WrappedKey.parse at hparsed
    split at hparsed
    · cases hparsed
    · cases hparsed
      rfl
  obtain ⟨stored, hstored, hkek⟩ := bind_eq_ok.mp hkek
  obtain ⟨rfl, _⟩ := storedVersion_eq_ok hstored
  split at hkek
  · rename_i row hrow
    obtain ⟨mem, owner, version⟩ := Table.find_spec hrow
    have stays : row ∈ (call.write aead table).apply table := by
      refine mem_apply.mpr (Or.inl ⟨mem, fun taken => spared ?_⟩)
      rw [← number, ← version, ← owner]
      exact (takes_iff tidy.held).mp taken
    refine bind_eq_ok.mpr ⟨wrapped, hparsed, bind_eq_ok.mpr ⟨kek, ?_, h⟩⟩
    rw [PgKeyManagementService.kek, hstored, ok_bind,
      (tidy.step call).distinct.find_eq_some.mpr ⟨stays, owner, version⟩]
    exact hkek
  · cases hkek

/-- What a call wraps opens on the table it leaves, and names the latest version there. -/
theorem Tidy.decryptDek_of_wraps (tidy : Tidy aead table) (wraps : call.Wraps aead table tenantId dek bytes) :
    call.service.decryptDek aead ((call.write aead table).apply table) tenantId bytes = .ok dek ∧
      ∀ row ∈ (call.write aead table).apply table, row.key = tenantId → row.version ≤ versionOf bytes := by
  obtain ⟨row, mem, kek, nonce, wrapped, loads, hwrap, rfl, latest⟩ := exists_of_wraps tidy.held wraps
  have next := tidy.step call
  have small : kek.version < 2 ^ 31 := loads.version ▸ next.small row mem
  constructor
  · exact (decryptDek_eq_ok next.distinct next.held hwrap small).mpr
      ⟨row, mem, loads.owner, loads.version.symm, loads.holds, loads.bound.symm, rfl⟩
  · rw [versionOf_wrap hwrap small, loads.version]
    exact latest

/-- A key that opens what is wrapped again is one of a tenant with a current key: none is made. -/
theorem write_rewrapDek {earlier : Octets} {making : Making} {nonce : Nonce} :
    (service.rewrapDek aead table tenantId earlier making nonce).2 = .nothing := by
  unfold PgKeyManagementService.rewrapDek
  split
  · rename_i wrapped kek read
    obtain ⟨parsed, _, read⟩ := bind_eq_ok.mp read
    obtain ⟨found, hfound, _⟩ := bind_eq_ok.mp read
    obtain ⟨version, _, hfound⟩ := bind_eq_ok.mp hfound
    have there : table.current tenantId ≠ none := by
      split at hfound
      · rename_i row hrow
        obtain ⟨mem, owner, _⟩ := Table.find_spec hrow
        intro absent
        exact Table.current_eq_none.mp absent row mem owner
      · cases hfound
    unfold answering PgKeyManagementService.getOrCreateCurrentKek
    split
    · rename_i key write made
      split at made
      · cases made
        rfl
      · rename_i error refused
        split at made
        · rename_i missing
          exact absurd (current_eq_none_of_missing refused (Bool.and_eq_true_iff.mp missing).1) there
        · cases made
    · rfl
  · rfl

/-- What is wrapped again opened. -/
theorem opened_of_rewrapDek {earlier : Octets} {making : Making} {nonce : Nonce}
    (h : (service.rewrapDek aead table tenantId earlier making nonce).1 = .ok bytes) :
    ∃ dek, service.decryptDek aead table tenantId earlier = .ok dek := by
  unfold PgKeyManagementService.rewrapDek at h
  split at h
  · rename_i wrapped kek read
    obtain ⟨parsed, hparsed, read⟩ := bind_eq_ok.mp read
    obtain ⟨found, hfound, read⟩ := bind_eq_ok.mp read
    cases read
    obtain ⟨current, write, _, answer, _⟩ := answering_eq_ok h
    obtain ⟨again, hagain, _⟩ := map_eq_ok.mp answer
    obtain ⟨dek, hdek, _⟩ := bind_eq_ok.mp hagain
    exact ⟨dek, bind_eq_ok.mpr ⟨wrapped, hparsed, bind_eq_ok.mpr ⟨kek, hfound, hdek⟩⟩⟩
  · cases h

/-- The bytes are a data key wrapped by a key. -/
def Bears (aead : AesGcm) (bytes dek key : Octets) : Prop :=
  ∃ (kek : Kek) (nonce : Nonce) (wrapped : WrappedKey), kek.cipher.key = key ∧ kek.version < 2 ^ 31 ∧
    kek.wrap aead nonce dek = .ok wrapped ∧ bytes = wrapped.toBytes

/-- Bytes open under a row that holds the key they were wrapped by, to what was wrapped. -/
theorem Bears.of_decryptDek {dek' key : Octets} (h : Bears aead bytes dek key) (tidy : Tidy aead table)
    (opens : service.decryptDek aead table tenantId bytes = .ok dek') :
    dek' = dek ∧ ∃ row ∈ table, row.key = tenantId ∧ row.version = versionOf bytes ∧
      Holds aead row service.masterKey key := by
  obtain ⟨kek, nonce, wrapped, rfl, small, hwrap, rfl⟩ := h
  obtain ⟨row, mem, owner, version, holds, _, same⟩ :=
    (decryptDek_eq_ok tidy.distinct tidy.held hwrap small).mp opens
  exact ⟨same, row, mem, owner, version.trans (versionOf_wrap hwrap small).symm, holds⟩

/-- What a call wraps is wrapped by a key that the table it leaves has. -/
theorem Tidy.bears_of_wraps (tidy : Tidy aead table) (wraps : call.Wraps aead table tenantId dek bytes) :
    ∃ row ∈ (call.write aead table).apply table, ∃ key, Holds aead row call.service.masterKey key ∧
      Bears aead bytes dek key := by
  obtain ⟨row, mem, kek, nonce, wrapped, loads, hwrap, rfl, _⟩ := exists_of_wraps tidy.held wraps
  have small : kek.version < 2 ^ 31 := loads.version ▸ (tidy.step call).small row mem
  exact ⟨row, mem, kek.cipher.key, loads.holds, kek, nonce, wrapped, rfl, small, hwrap, rfl⟩

theorem dek_of_generateDek {fresh : FreshKey} {making : Making} {nonce : Nonce}
    (h : (service.generateDek aead table tenantId fresh making nonce).1 = .ok (dek, bytes)) : dek = fresh.bytes := by
  obtain ⟨kek, write, _, answer, _⟩ := answering_eq_ok h
  obtain ⟨made, hmade, same⟩ := map_eq_ok.mp answer
  obtain ⟨wrapped, _, hmade⟩ := bind_eq_ok.mp hmade
  cases hmade
  exact (congrArg Prod.fst same).symm

theorem Sound.mono {keys keys' : List Octets} (sound : Sound aead table keys) (sub : keys ⊆ keys') :
    Sound aead table keys' where
  distinct := sound.distinct
  small := sound.small
  apart := sound.apart
  held row mem := by
    obtain ⟨master, key, known, holds⟩ := sound.held row mem
    exact ⟨master, key, sub known, holds⟩

/-- The keys rows hold were drawn. -/
theorem Sound.mem_keys {keys : List Octets} (sound : Sound aead table keys) {row : KekRow} (mem : row ∈ table)
    {master key : Octets} (holds : Holds aead row master key) : key ∈ keys := by
  obtain ⟨_, _, known, held⟩ := sound.held row mem
  rwa [(held.unique holds).2] at known

/-- A key that no row holds is held by none after a call that draws another. -/
theorem Sound.unheld_step {keys : List Octets} {key : Octets} (sound : Sound aead table keys) (known : key ∈ keys)
    (fresh : ∀ key ∈ drawn [call], key ∉ keys) (unheld : ∀ row ∈ table, ∀ master, ¬Holds aead row master key) :
    ∀ row ∈ (call.write aead table).apply table, ∀ master, ¬Holds aead row master key := by
  intro row mem master holds
  obtain ⟨mem, _⟩ | h := mem_apply.mp mem
  · exact unheld row mem master holds
  · have written := writes sound.allHold call
    rw [h] at written
    cases written with
    | insert draws adds =>
      obtain rfl := (holds.unique adds.holds).2
      exact fresh _ (mem_drawn draws) known

/-- What is wrapped again opens as before, and is wrapped by a key of the tenant's latest version. -/
structure Rewraps (aead : AesGcm) (service : PgKeyManagementService) (table : Keks) (tenantId : String)
    (earlier bytes dek : Octets) : Prop where
  opened : service.decryptDek aead table tenantId earlier = .ok dek
  opens : service.decryptDek aead table tenantId bytes = .ok dek
  latest : ∀ row ∈ table, row.key = tenantId → row.version ≤ versionOf bytes
  bears : ∃ row ∈ table, ∃ key, Holds aead row service.masterKey key ∧ Bears aead bytes dek key

theorem Tidy.rewraps (tidy : Tidy aead table) {earlier : Octets} {making : Making} {nonce : Nonce}
    (h : (service.rewrapDek aead table tenantId earlier making nonce).1 = .ok bytes) :
    ∃ dek, Rewraps aead service table tenantId earlier bytes dek := by
  obtain ⟨dek, opened⟩ := opened_of_rewrapDek h
  have wraps : Call.Wraps aead table ⟨service, .rewrapDek tenantId earlier making nonce⟩ tenantId dek bytes :=
    .rewrapped opened h
  have unwritten : Call.write aead table ⟨service, .rewrapDek tenantId earlier making nonce⟩ = .nothing :=
    write_rewrapDek
  have opens := tidy.decryptDek_of_wraps wraps
  have bears := tidy.bears_of_wraps wraps
  rw [unwritten, apply_nothing] at opens bears
  exact ⟨dek, opened, opens.1, opens.2, bears⟩

end AsceticDdd.Kms.Pg
