import AsceticDdd.Kms.Service

/-!
# What the rows of a run hold

Every row holds a key that was drawn for it, wrapped by the master key of the service that made it. A service loads the
key of a row under its own master key and for its own tenant, and serves what it finds current.
-/

namespace AsceticDdd.Kms.Pg

open Control Crypto Versions
open Dek.Bound (Algorithm KmsError)

variable {aead : AesGcm} {service : PgKeyManagementService} {table : Keks} {tenantId : String} {row row' : KekRow}
  {master master' key key' : Octets} {kek : Kek} {making : Making} {write : KekWrite}

/-- A key in a row, wrapped by a master key. -/
def Holds (aead : AesGcm) (row : KekRow) (master key : Octets) : Prop :=
  ∃ (wrapping : Kms.MasterKey) (nonce : Nonce) (wrapped : WrappedKey), wrapping.key = master ∧
    wrapping.wrap aead row.key nonce key = .ok wrapped ∧ key.length = Aes256Gcm.keySize ∧
      row.content = ⟨wrapped.toBytes, Algorithm.aes256Gcm.asStr, Algorithm.aes256Gcm.asStr⟩

/-- A tenant's key is that of a row, bound as the service binds it. -/
structure Loads (aead : AesGcm) (service : PgKeyManagementService) (tenantId : String) (row : KekRow) (kek : Kek) :
    Prop where
  owner : row.key = tenantId
  holds : Holds aead row service.masterKey kek.cipher.key
  version : kek.version = row.version
  bound : kek.cipher.aad = binding tenantId service.context
  tenant : kek.tenantId = tenantId
  context : kek.context = service.context

theorem fromStr_asStr (algorithm : Algorithm) : Algorithm.fromStr algorithm.asStr = .ok algorithm := by
  cases algorithm
  rfl

theorem masterKeyOf_eq_ok {algorithm : Algorithm} {made : MasterKey} (h : service.masterKeyOf algorithm = .ok made) :
    made.key = service.masterKey ∧ made.algorithm = algorithm := by
  cases algorithm
  obtain ⟨wrapping, hwrapping, h⟩ := map_eq_ok.mp (mapError_eq_ok.mp h)
  subst h
  unfold Kms.MasterKey.new at hwrapping
  split at hwrapping
  · cases hwrapping
    exact ⟨rfl, rfl⟩
  · cases hwrapping

theorem masterKeyOf_ok {algorithm : Algorithm} (sized : service.masterKey.length = Aes256Gcm.keySize) :
    service.masterKeyOf algorithm = .ok ⟨⟨service.masterKey, sized⟩, algorithm⟩ := by
  have made : Kms.MasterKey.new service.masterKey = .ok ⟨service.masterKey, sized⟩ := dif_pos sized
  cases algorithm
  rw [PgKeyManagementService.masterKeyOf, MasterKey.new, made]
  rfl

theorem small_of_wrap {wrapping : Kms.MasterKey} {name : String} {nonce : Nonce} {wrapped : WrappedKey}
    (h : wrapping.wrap aead name nonce key = .ok wrapped) : wrapped.keyVersion < 2 ^ 32 := by
  rw [(WrappedKey.wrap_eq_ok h).1]
  decide

/-- A row holds one key, of one master key. -/
theorem Holds.unique (h : Holds aead row master key) (h' : Holds aead row master' key') :
    master = master' ∧ key = key' := by
  obtain ⟨wrapping, nonce, wrapped, rfl, hwrapped, _, content⟩ := h
  obtain ⟨wrapping', nonce', wrapped', rfl, hwrapped', _, content'⟩ := h'
  have bytes := (Stored.mk.inj (content.symm.trans content')).1
  obtain rfl := WrappedKey.toBytes_injective (small_of_wrap hwrapped) (small_of_wrap hwrapped') bytes
  obtain ⟨masters, _, keys⟩ := WrappedKey.wrap_apart hwrapped hwrapped'
  exact ⟨masters, keys⟩

/-- A service loads what a row holds if the row is the tenant's and its master key wrapped it. -/
theorem loadKek_iff (h : Holds aead row master key) :
    (∃ kek, service.loadKek aead tenantId row = .ok kek) ↔ service.masterKey = master ∧ row.key = tenantId := by
  obtain ⟨wrapping, nonce, wrapped, rfl, hwrapped, sized, content⟩ := h
  have parsed := WrappedKey.parse_toBytes (small_of_wrap hwrapped)
  have read : service.loadKek aead tenantId row = (do
      let made ← service.masterKeyOf .aes256Gcm
      made.loadKek aead tenantId service.context wrapped row.version .aes256Gcm) := by
    rw [PgKeyManagementService.loadKek, content, parsed, fromStr_asStr]
    rfl
  rw [read]
  constructor
  · rintro ⟨kek, loaded⟩
    obtain ⟨made, hmade, loaded⟩ := bind_eq_ok.mp loaded
    obtain ⟨opened, hopened, _⟩ := bind_eq_ok.mp loaded
    have opens := mapError_eq_ok.mp hopened
    rw [MasterKey.unwrap_other hwrapped] at opens
    split at opens
    · rename_i same
      exact ⟨(masterKeyOf_eq_ok hmade).1.symm.trans same.1.symm, same.2⟩
    · cases opens
  · rintro ⟨same, owner⟩
    have opens : (Kms.MasterKey.unwrap aead ⟨service.masterKey, same ▸ wrapping.sized⟩ tenantId wrapped) = .ok key := by
      rw [MasterKey.unwrap_other hwrapped, if_pos ⟨same.symm, owner⟩]
    refine ⟨⟨tenantId, service.context, row.version, .aes256Gcm, ⟨key, binding tenantId service.context, sized⟩,
      wrapped⟩, ?_⟩
    rw [masterKeyOf_ok (same ▸ wrapping.sized), ok_bind, MasterKey.loadKek, opens]
    exact Kek.new_ok sized

theorem loads_of_loadKek (h : Holds aead row master key) (loaded : service.loadKek aead tenantId row = .ok kek) :
    Loads aead service tenantId row kek := by
  obtain ⟨same, owner⟩ := (loadKek_iff h).mp ⟨kek, loaded⟩
  have held := h
  obtain ⟨wrapping, nonce, wrapped, _, hwrapped, sized, content⟩ := h
  obtain ⟨wrapped', hparsed, loaded⟩ := bind_eq_ok.mp loaded
  obtain ⟨_, _, loaded⟩ := bind_eq_ok.mp loaded
  obtain ⟨_, _, loaded⟩ := bind_eq_ok.mp loaded
  obtain ⟨made, hmade, loaded⟩ := bind_eq_ok.mp loaded
  obtain ⟨opened, hopened, loaded⟩ := bind_eq_ok.mp loaded
  rw [content, WrappedKey.parse_toBytes (small_of_wrap hwrapped)] at hparsed
  obtain rfl := Except.ok.inj hparsed
  have opens := mapError_eq_ok.mp hopened
  rw [MasterKey.unwrap_other hwrapped] at opens
  split at opens
  · obtain rfl := Except.ok.inj opens
    obtain ⟨tenants, contexts, versions, _, _, keys, bound⟩ := Kek.new_eq_ok loaded
    exact ⟨owner, by rw [keys, same]; exact held, versions, bound, tenants, contexts⟩
  · cases opens

/-- A row that does not load is not missing. -/
theorem loadKek_not_missing {error : Failure} (h : service.loadKek aead tenantId row = .error error) :
    Failure.isKekNotFound error = false := by
  have cipher : ∀ {α : Type} {x : Except CipherError α} {error}, x.mapError Failure.cipher = .error error →
      Failure.isKekNotFound error = false := by
    intro α x error h
    cases x with
    | ok => cases h
    | error => cases h; rfl
  have bound : ∀ {context version algorithm key wrapped error},
      Kek.new tenantId context version algorithm key wrapped = .error error →
        Failure.isKekNotFound error = false := by
    intro context version algorithm key wrapped error h
    cases algorithm
    by_cases sized : key.length = Aes256Gcm.keySize
    · rw [Kek.new_ok sized] at h
      cases h
    · have refused : Aes256Gcm.new key (binding tenantId context) = .error (wrongSize key.length) := dif_neg sized
      rw [Kek.new, Algorithm.cipher, refused] at h
      cases h
      rfl
  have named : ∀ {name error}, (Algorithm.fromStr name).mapError Failure.kms = .error error →
      Failure.isKekNotFound error = false := by
    intro name error h
    unfold Algorithm.fromStr at h
    split at h <;> cases h
    rfl
  have made : ∀ {algorithm error}, service.masterKeyOf algorithm = .error error →
      Failure.isKekNotFound error = false := by
    intro algorithm error h
    cases algorithm
    exact cipher h
  unfold PgKeyManagementService.loadKek at h
  obtain h | ⟨wrapped, _, h⟩ := bind_eq_error.mp h
  · unfold WrappedKey.parse at h
    split at h <;> cases h
    rfl
  obtain h | ⟨_, _, h⟩ := bind_eq_error.mp h
  · exact named h
  obtain h | ⟨_, _, h⟩ := bind_eq_error.mp h
  · exact named h
  obtain h | ⟨_, _, h⟩ := bind_eq_error.mp h
  · exact made h
  obtain h | ⟨key, _, h⟩ := bind_eq_error.mp h
  · exact cipher h
  exact bound h

/-- A key that is missing has no row. -/
theorem current_eq_none_of_missing {error : Failure} (h : service.currentKek aead table tenantId = .error error)
    (missing : Failure.isKekNotFound error) : table.current tenantId = none := by
  unfold PgKeyManagementService.currentKek at h
  split at h
  · exact absurd missing (Bool.eq_false_iff.mp (loadKek_not_missing h))
  · assumption

theorem storedVersion_eq_ok {version stored : Nat} (h : storedVersion version = .ok stored) :
    stored = version ∧ version < 2 ^ 31 := by
  unfold storedVersion at h
  split at h
  · cases h
    exact ⟨rfl, ‹_›⟩
  · cases h

/-- What saves a key of a master key the service has is a row that holds it. -/
theorem saveKek_eq_ok (h : service.saveKek table kek = .ok write) : ∃ row : KekRow, write = .insert row ∧
    row.key = kek.tenantId ∧ row.version = kek.version ∧ kek.version < 2 ^ 31 ∧
      row.content = ⟨kek.wrapped.toBytes, service.masterAlgorithm.asStr, kek.algorithm.asStr⟩ := by
  obtain ⟨stored, hstored, h⟩ := bind_eq_ok.mp h
  obtain ⟨rfl, small⟩ := storedVersion_eq_ok hstored
  dsimp only at h
  split at h
  · cases h
  · cases h
    exact ⟨_, rfl, rfl, rfl, small, rfl⟩

/-- The row a service adds: the next version of the tenant's, of a key it has drawn. -/
structure Adds (aead : AesGcm) (service : PgKeyManagementService) (table : Keks) (making : Making) (row : KekRow) :
    Prop where
  holds : Holds aead row service.masterKey making.key.bytes
  next : row.version = (table.latest row.key).getD 0 + 1
  small : row.version < 2 ^ 31

theorem saved {made : MasterKey} {version : Nat} (hmade : service.masterKeyOf service.masterAlgorithm = .ok made)
    (h : made.makeKek aead tenantId service.context version making.key making.nonce = .ok kek)
    (next : version = (table.latest tenantId).getD 0 + 1) (hsave : service.saveKek table kek = .ok write) :
    ∃ row, write = .insert row ∧ row.version = version ∧ Loads aead service tenantId row kek ∧
      Adds aead service table making row := by
  obtain ⟨row, rfl, owner, versions, small, content⟩ := saveKek_eq_ok hsave
  obtain ⟨tenants, contexts, number, algorithms, keys, bound, wrapped⟩ := MasterKey.makeKek_eq_ok h
  rw [tenants] at owner
  rw [number] at versions small
  have holds : Holds aead row service.masterKey making.key.bytes := by
    refine ⟨made.toMasterKey, making.nonce, kek.wrapped, (masterKeyOf_eq_ok hmade).1, owner ▸ wrapped,
      making.key.sized, content.trans ?_⟩
    cases service.masterAlgorithm
    cases kek.algorithm
    rfl
  refine ⟨row, rfl, versions, ⟨owner, keys ▸ holds, number.trans versions.symm, bound, tenants, contexts⟩, holds, ?_,
    versions ▸ small⟩
  rw [versions, owner, next]

/-- Every row holds a key. -/
def AllHold (aead : AesGcm) (table : Keks) : Prop := ∀ row ∈ table, ∃ master key, Holds aead row master key

theorem loads_of_currentKek (held : AllHold aead table) (h : service.currentKek aead table tenantId = .ok kek) :
    ∃ row, table.current tenantId = some row ∧ Loads aead service tenantId row kek := by
  unfold PgKeyManagementService.currentKek at h
  split at h
  · rename_i row current
    obtain ⟨master, key, holds⟩ := held row (Table.current_spec current).1
    exact ⟨row, current, loads_of_loadKek holds h⟩
  · cases h

/-- The current key is that of a row the table has, or has after the write, of the latest version. -/
theorem makeCurrentKek_eq_ok (held : AllHold aead table)
    (h : service.makeCurrentKek aead table tenantId making = .ok (kek, write)) :
    ∃ row, Loads aead service tenantId row kek ∧ (write = .nothing ∧ table.current tenantId = some row ∨
      write = .insert row ∧ Adds aead service table making row) := by
  unfold PgKeyManagementService.makeCurrentKek at h
  split at h
  · rename_i found current
    cases h
    obtain ⟨row, hrow, loads⟩ := loads_of_currentKek held current
    exact ⟨row, loads, Or.inl ⟨rfl, hrow⟩⟩
  · rename_i error missing
    split at h
    · obtain ⟨made, hmade, h⟩ := bind_eq_ok.mp h
      obtain ⟨generated, hgenerated, h⟩ := bind_eq_ok.mp h
      obtain ⟨saving, hsaving, h⟩ := bind_eq_ok.mp h
      cases h
      have absent := current_eq_none_of_missing missing ‹_›
      have first : 1 = (table.latest tenantId).getD 0 + 1 := by rw [Table.latest_eq_map, absent]; rfl
      obtain ⟨row, rfl, _, loads, adds⟩ := saved hmade hgenerated first hsaving
      exact ⟨row, loads, Or.inr ⟨rfl, adds⟩⟩
    · cases h

theorem getOrCreateCurrentKek_eq_ok (held : AllHold aead table)
    (h : service.getOrCreateCurrentKek aead table tenantId making = .ok (kek, write)) :
    ∃ row, Loads aead service tenantId row kek ∧ (write = .nothing ∧ table.current tenantId = some row ∨
      write = .insert row ∧ Adds aead service table making row) := by
  unfold PgKeyManagementService.getOrCreateCurrentKek at h
  split at h
  · rename_i found current
    cases h
    obtain ⟨row, hrow, loads⟩ := loads_of_currentKek held current
    exact ⟨row, loads, Or.inl ⟨rfl, hrow⟩⟩
  · split at h
    · exact makeCurrentKek_eq_ok held h
    · cases h

/-- A call that takes a version of a tenant's: a retirement that succeeds, or a deletion. -/
def Call.Retires (table : Keks) (call : Call) (tenantId : String) (version : Nat) : Prop :=
  match call.request with
  | .retireKekVersionsBefore tenant bound => tenant = tenantId ∧ version < bound ∧
      (PgKeyManagementService.retireKekVersionsBefore table tenant bound).1 = .ok ()
  | .deleteKek tenant => tenant = tenantId
  | _ => False

/-- What a call writes: nothing, the row of a key it has drawn, or what takes the rows of a tenant. -/
inductive Writes (aead : AesGcm) (table : Keks) (call : Call) : KekWrite → Prop
  | nothing (kept : ∀ tenantId version, ¬call.Retires table tenantId version) : Writes aead table call .nothing
  | insert {making : Making} {row : KekRow} (draws : call.request.making = some making)
      (adds : Adds aead call.service table making row)
      (kept : ∀ tenantId version, ¬call.Retires table tenantId version) :
      Writes aead table call (.insert row)
  | deleteBelow {tenantId : String} {bound : Nat} (asked : call.request = .retireKekVersionsBefore tenantId bound)
      (retired : (PgKeyManagementService.retireKekVersionsBefore table tenantId bound).1 = .ok ()) :
      Writes aead table call (.deleteBelow tenantId bound)
  | deleteAll {tenantId : String} (asked : call.request = .deleteKek tenantId) :
      Writes aead table call (.deleteAll tenantId)

theorem answering_eq_ok {α β κ ρ : Type} {found : Except Failure (β × Write κ ρ)} {answer : β → Except Failure α}
    {a : α}
    (h : (answering found answer).1 = .ok a) : ∃ key write, found = .ok (key, write) ∧ answer key = .ok a ∧
      (answering found answer).2 = write := by
  cases found with
  | error error => cases h
  | ok found => exact ⟨found.1, found.2, rfl, h, rfl⟩

/-- A call that answers with a key it has found or made. -/
theorem writes_answering {α : Type} {call : Call} {found : Except Failure (Kek × KekWrite)}
    {answer : Kek → Except Failure α}
    (draws : call.request.making = some making) (kept : ∀ tenantId version, ¬call.Retires table tenantId version)
    (made : ∀ {kek write}, found = .ok (kek, write) → ∃ row, Loads aead call.service tenantId row kek ∧
      (write = .nothing ∧ table.current tenantId = some row ∨
        write = .insert row ∧ Adds aead call.service table making row)) :
    Writes aead table call (answering found answer).2 := by
  cases found with
  | error error => exact .nothing kept
  | ok found =>
    obtain ⟨row, _, ⟨same, _⟩ | ⟨same, adds⟩⟩ := made (show Except.ok found = .ok (found.1, found.2) from rfl)
    · exact (show (answering (.ok found) answer).2 = _ from same) ▸ .nothing kept
    · exact (show (answering (.ok found) answer).2 = _ from same) ▸ .insert draws adds kept

/-- A rotation that fails writes nothing, and another answers the version it adds. -/
theorem rotateKek_cases (held : AllHold aead table) (service : PgKeyManagementService) (tenantId : String)
    (making : Making) :
    (∃ error, service.rotateKek aead table tenantId making = (.error error, .nothing)) ∨
      ∃ row, service.rotateKek aead table tenantId making = (.ok row.version, .insert row) ∧ row.key = tenantId ∧
        Adds aead service table making row := by
  simp only [PgKeyManagementService.rotateKek, writing]
  split
  · rename_i answer write done
    refine Or.inr ?_
    obtain ⟨current, hcurrent, done⟩ := bind_eq_ok.mp done
    obtain ⟨made, hmade, done⟩ := bind_eq_ok.mp done
    obtain ⟨rotated, hrotated, done⟩ := bind_eq_ok.mp done
    obtain ⟨saving, hsaving, done⟩ := bind_eq_ok.mp done
    cases done
    obtain ⟨found, hfound, loads⟩ := loads_of_currentKek held hcurrent
    unfold MasterKey.rotateKek at hrotated
    split at hrotated
    · rw [loads.tenant, loads.context] at hrotated
      have next : current.version + 1 = (table.latest tenantId).getD 0 + 1 := by
        rw [(Table.current_spec hfound).2.2, loads.version]
        rfl
      obtain ⟨row, rfl, _, loaded, adds⟩ := saved hmade hrotated next hsaving
      exact ⟨row, by rw [loaded.version], loaded.owner, adds⟩
    · cases hrotated
  · exact Or.inl ⟨_, rfl⟩

/-- A retirement that fails writes nothing, and another is not above the latest version. -/
theorem retireVersionsBefore_cases {κ ρ : Type} [DecidableEq κ] (table : Table κ ρ) (key : κ) (missing : Failure)
    (version : Nat) : (∃ error, retireVersionsBefore table key missing version = (.error error, .nothing)) ∨
      (∃ latest, table.latest key = some latest ∧ version ≤ latest) ∧
        retireVersionsBefore table key missing version = (.ok (), .deleteBelow key version) := by
  simp only [retireVersionsBefore]
  split
  · exact Or.inl ⟨_, rfl⟩
  · rename_i latest hlatest
    split
    · exact Or.inl ⟨_, rfl⟩
    · rename_i le
      unfold storedVersion
      split
      · exact Or.inr ⟨⟨latest, hlatest, Nat.le_of_not_lt le⟩, rfl⟩
      · exact Or.inl ⟨_, rfl⟩

theorem writes (held : AllHold aead table) (call : Call) : Writes aead table call (call.write aead table) := by
  obtain ⟨service, request⟩ := call
  cases request with
  | encryptDek tenantId dek making nonce =>
    exact writes_answering rfl (fun _ _ => id) (getOrCreateCurrentKek_eq_ok held)
  | decryptDek => exact .nothing fun _ _ => id
  | generateDek tenantId dek making nonce =>
    exact writes_answering rfl (fun _ _ => id) (getOrCreateCurrentKek_eq_ok held)
  | rewrapDek tenantId dek making nonce =>
    simp only [Call.write, PgKeyManagementService.rewrapDek]
    split
    · exact writes_answering rfl (fun _ _ => id) (getOrCreateCurrentKek_eq_ok held)
    · exact .nothing fun _ _ => id
  | createKek tenantId options making =>
    simp only [Call.write, PgKeyManagementService.createKek, writing]
    split
    · rename_i answer write h
      obtain ⟨_, _, h⟩ := bind_eq_ok.mp h
      obtain ⟨⟨kek, written⟩, hmade, h⟩ := bind_eq_ok.mp h
      cases h
      obtain ⟨made, _, ⟨rfl, _⟩ | ⟨rfl, adds⟩⟩ := makeCurrentKek_eq_ok held hmade
      · exact .nothing fun _ _ => id
      · exact .insert rfl adds fun _ _ => id
    · exact .nothing fun _ _ => id
  | rotateKek tenantId making =>
    simp only [Call.write]
    obtain ⟨error, h⟩ | ⟨row, h, _, adds⟩ := rotateKek_cases held service tenantId making
    · rw [h]
      exact .nothing fun _ _ => id
    · rw [h]
      exact .insert rfl adds fun _ _ => id
  | retireKekVersionsBefore tenantId version =>
    simp only [Call.write]
    obtain ⟨error, h⟩ | ⟨_, h⟩ := retireVersionsBefore_cases table tenantId (kekNotFound tenantId none) version
    · rw [PgKeyManagementService.retireKekVersionsBefore, h]
      refine .nothing ?_
      rintro tenant number ⟨_, _, retired⟩
      rw [PgKeyManagementService.retireKekVersionsBefore, h] at retired
      cases retired
    · rw [PgKeyManagementService.retireKekVersionsBefore, h]
      exact .deleteBelow rfl (congrArg Prod.fst h)
  | deleteKek tenantId => exact .deleteAll rfl

end AsceticDdd.Kms.Pg
