import AsceticDdd.Kms.Signing
import AsceticDdd.Kms.Wrapped

/-!
# What verifies, inside and outside

A signature verifies against the table's key of its version just when it verifies against the published keyring.
-/

namespace AsceticDdd.Kms.Pg

open Control Crypto Versions

variable {aead : AesGcm} {schemes : Schemes} {service : PgKeyManagementService} {table : SigningKeys}
  {tenantId : String} {algorithm : SignatureAlgorithm} {row : SigningRow} {key : SigningKey schemes}
  {ring : PublicKeyring}

open PgKeyManagementService (versions)

theorem mem_versions : row ∈ versions table tenantId algorithm ↔ row ∈ table ∧ row.key = (tenantId, algorithm) := by
  rw [versions, List.mem_insertionSort, Table.mem_ofKey]

/-- The published versions are those of the rows, each with the public half of its row. -/
theorem publicKeys_eq_ok (h : service.publicKeys aead schemes table tenantId algorithm = .ok ring) :
    (∃ row ∈ table, row.key = (tenantId, algorithm)) ∧
      (∀ row ∈ table, row.key = (tenantId, algorithm) → ∃ key,
        service.checkedSigningKey aead schemes tenantId algorithm row = .ok key ∧
          ring.get row.version = some key.publicKey) ∧
        ∀ version publicKey, ring.get version = some publicKey → ∃ row ∈ table, row.key = (tenantId, algorithm) ∧
          row.version = version := by
  unfold PgKeyManagementService.publicKeys at h
  dsimp only at h
  split at h
  · cases h
  · rename_i some
    obtain ⟨keys, hkeys, made⟩ := bind_eq_ok.mp h
    have members := PublicKeyring.mem_of_new made
    refine ⟨?_, ?_, ?_⟩
    · obtain ⟨row, mem⟩ := List.exists_mem_of_ne_nil _ (fun nil => some (List.isEmpty_iff.mpr nil))
      exact ⟨row, mem_versions.mp mem⟩
    · intro row mem owner
      obtain ⟨entry, hentry, there⟩ := mem_of_mapM_eq_ok hkeys (mem_versions.mpr ⟨mem, owner⟩)
      obtain ⟨key, hkey, hentry⟩ := bind_eq_ok.mp hentry
      cases hentry
      refine ⟨key, hkey, ?_⟩
      rw [← (loadSigningKey_eq_ok (checkedSigningKey_eq_ok hkey).1).2.2]
      exact PublicKeyring.get_eq_some.mpr ((members _).mpr there)
    · intro version publicKey found
      obtain ⟨row, mem, hentry⟩ := exists_of_mapM_eq_ok hkeys ((members _).mp (PublicKeyring.get_eq_some.mp found))
      obtain ⟨key, hkey, hentry⟩ := bind_eq_ok.mp hentry
      obtain ⟨rfl, _⟩ := Prod.mk.inj (Except.ok.inj hentry)
      obtain ⟨there, owner⟩ := mem_versions.mp mem
      exact ⟨row, there, owner, (loadSigningKey_eq_ok (checkedSigningKey_eq_ok hkey).1).2.2.symm⟩

/-- The refusal of a version that no row has. -/
def versionRefusal (version : Nat) : Failure :=
  if version < 2 ^ 31 then .refused (.noKeyOfVersion version)
  else .refused (.malformed ("key version " ++ toString version ++ " does not fit the column"))

/-- Whatever the rows hold, once their keyring is published the service verifies as a holder of the keyring does. -/
theorem verify_eq_published (fit : ∀ row ∈ table, row.version < 2 ^ 31)
    (published : service.publicKeys aead schemes table tenantId algorithm = .ok ring) (message : Octets)
    (signature : Signature) (same : signature.algorithm = algorithm) :
    service.verify aead schemes table tenantId message signature =
      ((ring.get signature.keyVersion).elim (.error (versionRefusal signature.keyVersion))
        fun key => key.verify schemes message signature) := by
  subst same
  obtain ⟨⟨some, hsome, owned⟩, rows, found⟩ := publicKeys_eq_ok published
  by_cases small : signature.keyVersion < 2 ^ 31
  · have stored : storedVersion signature.keyVersion = .ok signature.keyVersion := if_pos small
    rw [PgKeyManagementService.verify, PgKeyManagementService.signingKeyOfVersion, stored, ok_bind]
    cases hrow : table.find (tenantId, signature.algorithm) signature.keyVersion with
    | some row =>
      obtain ⟨mem, owner, version⟩ := Table.find_spec hrow
      obtain ⟨key, hkey, there⟩ := rows row mem owner
      dsimp only
      rw [hkey, ← version, there]
      rfl
    | none =>
      have absent : ring.get signature.keyVersion = none := by
        rw [Option.eq_none_iff_forall_ne_some]
        intro publicKey there
        obtain ⟨row, mem, owner, version⟩ := found _ _ there
        exact Table.find_eq_none.mp hrow row mem ⟨owner, version⟩
      have full : (table.ofKey (tenantId, signature.algorithm)).isEmpty = false :=
        List.isEmpty_eq_false_iff.mpr (List.ne_nil_of_mem (Table.mem_ofKey.mpr ⟨hsome, owned⟩))
      rw [absent, full, versionRefusal, if_pos small]
      rfl
  · have stored : storedVersion signature.keyVersion = .error (versionRefusal signature.keyVersion) := by
      rw [storedVersion, versionRefusal, if_neg small, if_neg small]
    have absent : ring.get signature.keyVersion = none := by
      rw [Option.eq_none_iff_forall_ne_some]
      intro publicKey there
      obtain ⟨row, mem, _, version⟩ := found _ _ there
      exact small (version ▸ fit row mem)
    rw [PgKeyManagementService.verify, PgKeyManagementService.signingKeyOfVersion, stored, absent]
    rfl

def clearSchemes : Schemes := fun _ => .clear

def seedOf (byte : UInt8) : SigningMaking clearSchemes .ed25519 :=
  ⟨(keyOf byte).bytes, (keyOf byte).bytes, rfl, zeroNonce⟩

/-- The table of a first signing key. -/
def firstKey : SigningKeys :=
  (orders.createSigningKey AesGcm.framed [] "tenant" none (seedOf 1)).2.apply []

/-- What the first key signs a message with. -/
def firstSigned : Signature := ⟨.ed25519, 1, Signatures.clear.sign (keyOf 1).bytes [7]⟩

set_option maxRecDepth 8000 in
/-- The version that there is, and one that no row has. -/
theorem verify_eq_published_firstKey :
    orders.verify AesGcm.framed clearSchemes firstKey "tenant" [7] firstSigned = .ok () ∧
    orders.verify AesGcm.framed clearSchemes firstKey "tenant" [7] ⟨.ed25519, 2, []⟩ = .error (versionRefusal 2) := by
  obtain ⟨ring, key, published, there, verified, unknown⟩ : ∃ (ring : PublicKeyring) (key : PublicKey),
      orders.publicKeys AesGcm.framed clearSchemes firstKey "tenant" .ed25519 = .ok ring ∧ ring.get 1 = some key ∧
        key.verify clearSchemes [7] firstSigned = .ok () ∧ ring.get 2 = none := ⟨_, _, rfl, rfl, rfl, rfl⟩
  have fit : ∀ row ∈ firstKey, row.version < 2 ^ 31 := by
    intro row mem
    rw [List.mem_singleton.mp mem]
    decide
  constructor
  · have same := verify_eq_published fit published [7] firstSigned rfl
    rw [show firstSigned.keyVersion = 1 from rfl, there] at same
    exact same.trans verified
  · have same := verify_eq_published fit published [7] ⟨.ed25519, 2, []⟩ rfl
    rwa [unknown] at same

end AsceticDdd.Kms.Pg
