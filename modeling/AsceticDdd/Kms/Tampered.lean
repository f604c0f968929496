import AsceticDdd.Kms.Signed

/-!
# A tampered column

Whoever writes the column of public halves without the master key has nothing published or verified under another half.
-/

namespace AsceticDdd.Kms.Pg

open Control Crypto Versions
open PgKeyManagementService (versions)

variable {aead : AesGcm} {schemes : Schemes} {service : PgKeyManagementService} {table : SigningKeys}
  {tenantId : String} {algorithm : SignatureAlgorithm} {row : SigningRow} {message : Octets} {signature : Signature}
  {calls : List (SigningCall schemes)}

/-- A row with another public half. -/
def forged (forge : SigningRow → Octets) (row : SigningRow) : SigningRow :=
  { row with content := { row.content with publicKey := forge row } }

variable {forge : SigningRow → Octets}

theorem find_forged (table : SigningKeys) (key : String × SignatureAlgorithm) (version : Nat) :
    Table.find (table.map (forged forge)) key version = (table.find key version).map (forged forge) :=
  List.find?_map

theorem ofKey_forged (table : SigningKeys) (key : String × SignatureAlgorithm) :
    Table.ofKey (table.map (forged forge)) key = (table.ofKey key).map (forged forge) :=
  List.filter_map

theorem versions_forged (table : SigningKeys) :
    versions (table.map (forged forge)) tenantId algorithm =
      (versions table tenantId algorithm).map (forged forge) := by
  rw [versions, ofKey_forged]
  exact (List.map_insertionSort _ _ (forged forge) _ fun _ _ _ _ => Iff.rfl).symm

/-- A check passes as it did, or finds the row tampered with. -/
theorem checkedSigningKey_forged (forge : SigningRow → Octets) {key : SigningKey schemes}
    (h : service.checkedSigningKey aead schemes tenantId algorithm row = .ok key) :
    service.checkedSigningKey aead schemes tenantId algorithm (forged forge row) = .ok key ∨
      service.checkedSigningKey aead schemes tenantId algorithm (forged forge row) = .error (tampered key) := by
  obtain ⟨loaded, _⟩ := checkedSigningKey_eq_ok h
  have same : service.loadSigningKey aead schemes tenantId algorithm (forged forge row) = .ok key := loaded
  rw [PgKeyManagementService.checkedSigningKey, same, ok_bind]
  split
  · exact Or.inl rfl
  · exact Or.inr rfl

/-- Checks of rows answer as they did, or one finds its row tampered with. -/
theorem mapM_forged (forge : SigningRow → Octets) {rows : SigningKeys}
    (answer : SigningKey schemes → Nat × PublicKey)
    (each : ∀ row ∈ rows, ∃ key, service.checkedSigningKey aead schemes tenantId algorithm row = .ok key) :
    let check := fun row => do
      let key ← service.checkedSigningKey aead schemes tenantId algorithm row
      return answer key
    (rows.map (forged forge)).mapM check = rows.mapM check ∨
      ∃ key : SigningKey schemes, (rows.map (forged forge)).mapM check = .error (tampered key) := by
  intro check
  induction rows with
  | nil => exact Or.inl rfl
  | cons row rows ih =>
    obtain ⟨key, checked⟩ := each row List.mem_cons_self
    have first : check row = .ok (answer key) := by
      show (service.checkedSigningKey aead schemes tenantId algorithm row >>= _) = _
      rw [checked]
      rfl
    rw [List.map_cons, List.mapM_cons, List.mapM_cons]
    obtain passed | refused := checkedSigningKey_forged forge checked
    · have again : check (forged forge row) = .ok (answer key) := by
        show (service.checkedSigningKey aead schemes tenantId algorithm (forged forge row) >>= _) = _
        rw [passed]
        rfl
      rw [first, again, ok_bind, ok_bind]
      obtain same | ⟨other, h⟩ := ih fun row mem => each row (List.mem_cons_of_mem _ mem)
      · exact Or.inl (by rw [same])
      · exact Or.inr ⟨other, by rw [h]; rfl⟩
    · refine Or.inr ⟨key, ?_⟩
      have again : check (forged forge row) = .error (tampered key) := by
        show (service.checkedSigningKey aead schemes tenantId algorithm (forged forge row) >>= _) = _
        rw [refused]
        rfl
      rw [again]
      rfl

/-- Whatever public halves are written into the rows that services of one master key left, what is verified or published
is as before, or refused for a row that was tampered with. -/
theorem tampering_refused (one : ∀ call ∈ calls, call.service.masterKey = service.masterKey)
    (forge : SigningRow → Octets) (tenantId : String) (message : Octets) (signature : Signature) :
    let table := SigningCall.after aead [] calls
    let written := table.map (forged forge)
    (service.verify aead schemes written tenantId message signature =
        service.verify aead schemes table tenantId message signature ∨ ∃ key : SigningKey schemes,
      service.verify aead schemes written tenantId message signature = .error (tampered key)) ∧
    (service.publicKeys aead schemes written tenantId signature.algorithm =
        service.publicKeys aead schemes table tenantId signature.algorithm ∨ ∃ key : SigningKey schemes,
      service.publicKeys aead schemes written tenantId signature.algorithm = .error (tampered key)) := by
  intro table written
  have kept : Kept aead schemes service.masterKey table := kept_after _ kept_nil one
  constructor
  · simp only [PgKeyManagementService.verify, PgKeyManagementService.signingKeyOfVersion, written, find_forged,
      ofKey_forged, List.isEmpty_map]
    cases stored : storedVersion signature.keyVersion with
    | error error => exact Or.inl rfl
    | ok version =>
      simp only [ok_bind]
      cases found : table.find (tenantId, signature.algorithm) version with
      | none => exact Or.inl rfl
      | some row =>
        obtain ⟨mem, owner, _⟩ := Table.find_spec found
        obtain ⟨key, checked, _⟩ := checkedSigningKey_ok (kept.holds row mem) owner
        dsimp only [Option.map_some]
        obtain passed | refused := checkedSigningKey_forged forge checked
        · exact Or.inl (by rw [passed, checked])
        · exact Or.inr ⟨key, by rw [refused]; rfl⟩
  · simp only [PgKeyManagementService.publicKeys, written, versions_forged, List.isEmpty_map]
    have each : ∀ row ∈ versions table tenantId signature.algorithm, ∃ key,
        service.checkedSigningKey aead schemes tenantId signature.algorithm row = .ok key := by
      intro row mem
      obtain ⟨there, owner⟩ := mem_versions.mp mem
      obtain ⟨key, checked, _⟩ := checkedSigningKey_ok (kept.holds row there) owner
      exact ⟨key, checked⟩
    split
    · exact Or.inl rfl
    · obtain same | ⟨key, refused⟩ := mapM_forged forge
        (fun key => (key.version, key.publicKey)) each
      · exact Or.inl (by rw [same])
      · exact Or.inr ⟨key, by rw [refused]; rfl⟩

/-- A signing key made, and its public half written over. -/
def creates : SigningCall clearSchemes := ⟨orders, .createSigningKey "tenant" .ed25519 none (seedOf 1)⟩

def overwritten : SigningKeys := (SigningCall.after AesGcm.framed [] [creates]).map (forged fun _ => (keyOf 2).bytes)

/-- Nothing is verified, nor published. -/
theorem tampering_refused_orders :
    (∃ key : SigningKey clearSchemes,
      orders.verify AesGcm.framed clearSchemes overwritten "tenant" [7] firstSigned = .error (tampered key)) ∧
    ∃ key : SigningKey clearSchemes,
      orders.publicKeys AesGcm.framed clearSchemes overwritten "tenant" .ed25519 = .error (tampered key) := by
  have one : ∀ call ∈ [creates], call.service.masterKey = orders.masterKey := by
    intro call mem
    rw [List.mem_singleton.mp mem]
    rfl
  obtain ⟨verify, publish⟩ := tampering_refused one (fun _ => (keyOf 2).bytes) "tenant" [7] firstSigned
  constructor
  · have refused : (orders.verify AesGcm.framed clearSchemes overwritten "tenant" [7] firstSigned).isOk = false := by
      decide +kernel
    refine verify.resolve_left fun same => ?_
    have verified : (orders.verify AesGcm.framed clearSchemes (SigningCall.after AesGcm.framed [] [creates]) "tenant"
        [7] firstSigned).isOk = true := by decide +kernel
    have both : true = false := verified.symm.trans ((congrArg Except.isOk same).symm.trans refused)
    cases both
  · have refused : (orders.publicKeys AesGcm.framed clearSchemes overwritten "tenant" .ed25519).isOk = false := by
      decide +kernel
    refine publish.resolve_left fun same => ?_
    have published : (orders.publicKeys AesGcm.framed clearSchemes (SigningCall.after AesGcm.framed [] [creates])
        "tenant" .ed25519).isOk = true := by decide +kernel
    have both : true = false := published.symm.trans ((congrArg Except.isOk same).symm.trans refused)
    cases both

end AsceticDdd.Kms.Pg
