import AsceticDdd.Kms.Published

/-!
# Signatures over a run

A signature verifies, in the service and against its published keyring, until its version is retired. Then neither knows
the version.
-/

namespace AsceticDdd.Kms.Pg

open Control Crypto Versions
open Dek.Bound (Algorithm)

/-- A request on signing keys that may write, or signs, with what is drawn for it. -/
inductive SigningRequest (schemes : Schemes)
  | sign (tenantId : String) (algorithm : SignatureAlgorithm) (message : Octets)
    (making : SigningMaking schemes algorithm)
  | signWithVersion (tenantId : String) (algorithm : SignatureAlgorithm) (version : Nat) (message : Octets)
  | createSigningKey (tenantId : String) (algorithm : SignatureAlgorithm) (autoRotatePeriod : Option Nat)
    (making : SigningMaking schemes algorithm)
  | rotateSigningKey (tenantId : String) (algorithm : SignatureAlgorithm) (making : SigningMaking schemes algorithm)
  | retireSigningVersionsBefore (tenantId : String) (algorithm : SignatureAlgorithm) (version : Nat)
  | deleteSigningKey (tenantId : String) (algorithm : SignatureAlgorithm)

structure SigningCall (schemes : Schemes) where
  service : PgKeyManagementService
  request : SigningRequest schemes

section Calls

variable (aead : AesGcm) {schemes : Schemes} (table : SigningKeys)

namespace SigningCall

variable (call : SigningCall schemes)

def write : SigningWrite :=
  match call.request with
  | .sign tenantId _ message making => (call.service.sign aead table tenantId message making).2
  | .signWithVersion _ _ _ _ => .nothing
  | .createSigningKey tenantId _ autoRotatePeriod making =>
    (call.service.createSigningKey aead table tenantId autoRotatePeriod making).2
  | .rotateSigningKey tenantId _ making => (call.service.rotateSigningKey aead table tenantId making).2
  | .retireSigningVersionsBefore tenantId algorithm version =>
    (PgKeyManagementService.retireSigningVersionsBefore table tenantId algorithm version).2
  | .deleteSigningKey tenantId algorithm => (PgKeyManagementService.deleteSigningKey tenantId algorithm).2

/-- A retirement of a version that succeeds. -/
def Retires (tenantId : String) (algorithm : SignatureAlgorithm) (version : Nat) : Prop :=
  match call.request with
  | .retireSigningVersionsBefore tenant named bound => (tenant, named) = (tenantId, algorithm) ∧ version < bound ∧
      (PgKeyManagementService.retireSigningVersionsBefore table tenant named bound).1 = .ok ()
  | _ => False

/-- A deletion of a tenant's key of the algorithm. -/
def Deletes (tenantId : String) (algorithm : SignatureAlgorithm) : Prop :=
  match call.request with
  | .deleteSigningKey tenant named => (tenant, named) = (tenantId, algorithm)
  | _ => False

/-- A call that answers with a signature, of the latest version or of one it names. -/
inductive Signs : SigningCall schemes → (tenantId : String) → SignatureAlgorithm → (message : Octets) → Signature → Prop
  | latest {service : PgKeyManagementService} {tenantId : String} {algorithm : SignatureAlgorithm} {message : Octets}
      {making : SigningMaking schemes algorithm} {signature : Signature}
      (h : (service.sign aead table tenantId message making).1 = .ok signature) :
      Signs ⟨service, .sign tenantId algorithm message making⟩ tenantId algorithm message signature
  | named {service : PgKeyManagementService} {tenantId : String} {algorithm : SignatureAlgorithm} {version : Nat}
      {message : Octets} {signature : Signature}
      (h : service.signWithVersion aead schemes table tenantId algorithm version message = .ok signature) :
      Signs ⟨service, .signWithVersion tenantId algorithm version message⟩ tenantId algorithm message signature

/-- A table of signing keys after calls of services, one after another, each of which commits. -/
def after (calls : List (SigningCall schemes)) : SigningKeys := run (write aead) table calls

end SigningCall

end Calls

open PgKeyManagementService (versions)

variable {aead : AesGcm} {schemes : Schemes} {service : PgKeyManagementService} {table : SigningKeys}
  {tenantId : String} {algorithm : SignatureAlgorithm} {row : SigningRow} {key : SigningKey schemes}
  {master message : Octets} {signature : Signature} {write : SigningWrite} {call : SigningCall schemes}
  {calls earlier later : List (SigningCall schemes)} {version : Nat}

/-- A private half in a row, wrapped by the master key, and the public half derived from it. -/
def HoldsKey (aead : AesGcm) (schemes : Schemes) (master : Octets) (row : SigningRow) : Prop :=
  ∃ (wrapping : Kms.MasterKey) (nonce : Nonce) (wrapped : WrappedKey) (privateHalf : Octets), wrapping.key = master ∧
    wrapping.wrap aead (row.key.2.nameOf row.key.1) nonce privateHalf = .ok wrapped ∧
      (schemes row.key.2).publicOf privateHalf = some row.content.publicKey ∧
        row.content.encryptedKey = wrapped.toBytes ∧ row.content.masterAlgorithm = Algorithm.aes256Gcm.asStr

/-- A key is that of a row. -/
structure IsOf (key : SigningKey schemes) (row : SigningRow) : Prop where
  owner : row.key = (key.tenantId, key.algorithm)
  version : key.version = row.version
  publicHalf : key.publicHalf = row.content.publicKey

/-- Under the master key of a row its key loads, and passes the check. -/
theorem loadSigningKey_ok (holds : HoldsKey aead schemes service.masterKey row)
    (owner : row.key = (tenantId, algorithm)) :
    ∃ key, service.loadSigningKey aead schemes tenantId algorithm row = .ok key ∧ IsOf key row := by
  obtain ⟨wrapping, nonce, wrapped, privateHalf, same, hwrapped, derived, bytes, named⟩ := holds
  have parsed := WrappedKey.parse_toBytes (small_of_wrap hwrapped)
  rw [owner] at hwrapped derived
  have opens : Kms.MasterKey.unwrap aead ⟨service.masterKey, same ▸ wrapping.sized⟩ (algorithm.nameOf tenantId)
      wrapped =
      .ok privateHalf := by
    rw [MasterKey.unwrap_other hwrapped, if_pos ⟨same, rfl⟩]
  have loaded : service.loadSigningKey aead schemes tenantId algorithm row =
      SigningKey.load tenantId algorithm row.version privateHalf := by
    rw [PgKeyManagementService.loadSigningKey, bytes, parsed, ok_bind, named, fromStr_asStr]
    simp only [Except.mapError, ok_bind]
    rw [masterKeyOf_ok (same ▸ wrapping.sized), ok_bind, opens]
    rfl
  refine ⟨⟨tenantId, algorithm, row.version, privateHalf, row.content.publicKey, derived⟩, ?_, owner, rfl, rfl⟩
  rw [loaded, SigningKey.load]
  split
  · rename_i publicHalf h
    obtain rfl := Option.some.inj (h.symm.trans derived)
    rfl
  · rename_i h
    rw [derived] at h
    cases h

theorem checkedSigningKey_ok (holds : HoldsKey aead schemes service.masterKey row)
    (owner : row.key = (tenantId, algorithm)) :
    ∃ key, service.checkedSigningKey aead schemes tenantId algorithm row = .ok key ∧ IsOf key row := by
  obtain ⟨key, loaded, isOf⟩ := loadSigningKey_ok holds owner
  refine ⟨key, ?_, isOf⟩
  rw [PgKeyManagementService.checkedSigningKey, loaded, ok_bind, if_pos isOf.publicHalf.symm]
  rfl

/-- A table that services of one master key wrote. -/
structure Kept (aead : AesGcm) (schemes : Schemes) (master : Octets) (table : SigningKeys) : Prop where
  distinct : Distinct table
  counted : ∀ row ∈ table, row.version ≠ 0 ∧ row.version < 2 ^ 31
  holds : ∀ row ∈ table, HoldsKey aead schemes master row

/-- A new version of a key, of a row that holds it. -/
theorem generateSigningKey_eq_ok {making : SigningMaking schemes algorithm}
    (h : service.generateSigningKey aead table tenantId version making = .ok (key, write)) :
    ∃ row, write = .insert row ∧ IsOf key row ∧ row.key = (tenantId, algorithm) ∧ row.version = version ∧
      version < 2 ^ 31 ∧ HoldsKey aead schemes service.masterKey row := by
  obtain ⟨saving, hsaving, h⟩ := bind_eq_ok.mp h
  cases h
  obtain ⟨made, hmade, h⟩ := bind_eq_ok.mp hsaving
  obtain ⟨wrapped, hwrapped, h⟩ := bind_eq_ok.mp h
  obtain ⟨stored, hstored, h⟩ := bind_eq_ok.mp h
  obtain ⟨rfl, small⟩ := storedVersion_eq_ok hstored
  dsimp only at h
  split at h
  · cases h
  · cases h
    refine ⟨_, rfl, ⟨rfl, rfl, rfl⟩, rfl, rfl, small, made.toMasterKey, making.nonce, wrapped, making.privateHalf,
      (masterKeyOf_eq_ok hmade).1, mapError_eq_ok.mp hwrapped, making.derived, rfl, ?_⟩
    cases service.masterAlgorithm
    rfl

/-- What a call writes: nothing, the next version of a key, or what takes versions below a bound or a key. -/
inductive WritesKeys (aead : AesGcm) (table : SigningKeys) (call : SigningCall schemes) : SigningWrite → Prop
  | nothing : WritesKeys aead table call .nothing
  | insert {row : SigningRow} (holds : HoldsKey aead schemes call.service.masterKey row)
      (next : row.version = (table.latest row.key).getD 0 + 1) (small : row.version < 2 ^ 31) :
      WritesKeys aead table call (.insert row)
  | deleteBelow {tenantId : String} {algorithm : SignatureAlgorithm} {bound latest : Nat}
      (asked : call.request = .retireSigningVersionsBefore tenantId algorithm bound)
      (retired : (PgKeyManagementService.retireSigningVersionsBefore table tenantId algorithm bound).1 = .ok ())
      (known : table.latest (tenantId, algorithm) = some latest) (le : bound ≤ latest) :
      WritesKeys aead table call (.deleteBelow (tenantId, algorithm) bound)
  | deleteAll {tenantId : String} {algorithm : SignatureAlgorithm}
      (asked : call.request = .deleteSigningKey tenantId algorithm) :
      WritesKeys aead table call (.deleteAll (tenantId, algorithm))

/-- The current key, or the first one made, is that of a row the table has or is given. -/
theorem getOrCreateSigningKey_eq_ok (kept : ∀ row ∈ table, HoldsKey aead schemes service.masterKey row)
    {making : SigningMaking schemes algorithm}
    (h : service.getOrCreateSigningKey aead table tenantId making = .ok (key, write)) :
    ∃ row, IsOf key row ∧ row.key = (tenantId, algorithm) ∧ (write = .nothing ∧ row ∈ table ∨
      write = .insert row ∧ HoldsKey aead schemes service.masterKey row ∧
        row.version = (table.latest row.key).getD 0 + 1 ∧ row.version < 2 ^ 31) := by
  obtain ⟨current, hcurrent, h⟩ := bind_eq_ok.mp h
  unfold PgKeyManagementService.currentSigningKey at hcurrent
  split at hcurrent
  · rename_i row hrow
    obtain ⟨mem, owner, _⟩ := Table.current_spec hrow
    obtain ⟨found, loaded, isOf⟩ := loadSigningKey_ok (kept row mem) owner
    rw [loaded] at hcurrent
    cases hcurrent
    cases h
    exact ⟨row, isOf, owner, Or.inl ⟨rfl, mem⟩⟩
  · rename_i absent
    cases hcurrent
    dsimp only at h
    split at h
    · cases h
    · obtain ⟨row, rfl, isOf, owner, versions, small, holds⟩ := generateSigningKey_eq_ok h
      refine ⟨row, isOf, owner, Or.inr ⟨rfl, holds, ?_, versions ▸ small⟩⟩
      rw [versions, owner, Table.latest_eq_map, absent]
      rfl

theorem writesKeys (call : SigningCall schemes)
    (kept : ∀ row ∈ table, HoldsKey aead schemes call.service.masterKey row) :
    WritesKeys aead table call (call.write aead table) := by
  obtain ⟨service, request⟩ := call
  cases request with
  | sign tenantId algorithm message making =>
    simp only [SigningCall.write, PgKeyManagementService.sign]
    cases found : service.getOrCreateSigningKey aead table tenantId making with
    | error error => exact .nothing
    | ok made =>
      obtain ⟨key, write⟩ := made
      obtain ⟨row, _, _, ⟨rfl, _⟩ | ⟨rfl, holds, next, small⟩⟩ := getOrCreateSigningKey_eq_ok kept found
      · exact .nothing
      · exact .insert holds next small
  | signWithVersion => exact .nothing
  | createSigningKey tenantId algorithm autoRotatePeriod making =>
    simp only [SigningCall.write, PgKeyManagementService.createSigningKey, writing]
    split
    · rename_i answer write done
      obtain ⟨_, _, done⟩ := bind_eq_ok.mp done
      split at done
      · cases done
        exact .nothing
      · rename_i absent
        obtain ⟨⟨key, written⟩, made, done⟩ := bind_eq_ok.mp done
        cases done
        obtain ⟨row, rfl, _, owner, versions, small, holds⟩ := generateSigningKey_eq_ok made
        refine .insert holds ?_ (versions ▸ small)
        rw [versions, owner, absent]
        rfl
    · exact .nothing
  | rotateSigningKey tenantId algorithm making =>
    simp only [SigningCall.write, PgKeyManagementService.rotateSigningKey, writing]
    split
    · rename_i answer write done
      split at done
      · cases done
      · rename_i latest known
        obtain ⟨⟨key, written⟩, made, done⟩ := bind_eq_ok.mp done
        cases done
        obtain ⟨row, rfl, _, owner, versions, small, holds⟩ := generateSigningKey_eq_ok made
        refine .insert holds ?_ (versions ▸ small)
        rw [versions, owner, known]
        rfl
    · exact .nothing
  | retireSigningVersionsBefore tenantId algorithm version =>
    simp only [SigningCall.write]
    obtain ⟨error, h⟩ | ⟨⟨latest, known, le⟩, h⟩ := retireVersionsBefore_cases table (tenantId, algorithm)
      (noSigningKey tenantId algorithm) version
    · rw [PgKeyManagementService.retireSigningVersionsBefore, h]
      exact .nothing
    · rw [PgKeyManagementService.retireSigningVersionsBefore, h]
      exact .deleteBelow rfl (congrArg Prod.fst h) known le
  | deleteSigningKey tenantId algorithm => exact .deleteAll rfl

theorem Kept.step (kept : Kept aead schemes master table) (same : call.service.masterKey = master) :
    Kept aead schemes master ((call.write aead table).apply table) := by
  have written := writesKeys call (same ▸ kept.holds)
  have added : ∀ {row}, call.write aead table = .insert row → HoldsKey aead schemes master row ∧
      row.version = (table.latest row.key).getD 0 + 1 ∧ row.version < 2 ^ 31 := by
    intro row h
    rw [h] at written
    cases written with
    | insert holds next small => exact ⟨same ▸ holds, next, small⟩
  refine ⟨kept.distinct.apply fun row h => (added h).2.1, ?_, ?_⟩
  · intro row mem
    obtain ⟨mem, _⟩ | h := mem_apply.mp mem
    · exact kept.counted row mem
    · obtain ⟨_, next, small⟩ := added h
      exact ⟨by omega, small⟩
  · intro row mem
    obtain ⟨mem, _⟩ | h := mem_apply.mp mem
    · exact kept.holds row mem
    · exact (added h).1

theorem kept_after (calls : List (SigningCall schemes)) (kept : Kept aead schemes master table)
    (one : ∀ call ∈ calls, call.service.masterKey = master) :
    Kept aead schemes master (SigningCall.after aead table calls) :=
  run_invariant (fun _ call mem kept => kept.step (one call mem)) kept

theorem kept_nil : Kept aead schemes master [] where
  distinct := List.nodup_nil
  counted := List.forall_mem_nil _
  holds := List.forall_mem_nil _

/-- A signature is that of a row the table has, or is given. -/
theorem exists_of_signs (kept : Kept aead schemes master table) (same : call.service.masterKey = master)
    (h : call.Signs aead table tenantId algorithm message signature) : ∃ row ∈ (call.write aead table).apply table,
      ∃ key : SigningKey schemes, IsOf key row ∧ row.key = (tenantId, algorithm) ∧ signature = key.sign message := by
  cases h with
  | latest h =>
    obtain ⟨key, write, found, answer, rfl⟩ := answering_eq_ok h
    obtain ⟨row, isOf, owner, ⟨nothing, mem⟩ | ⟨inserted, _⟩⟩ := getOrCreateSigningKey_eq_ok (same ▸ kept.holds) found
    · have unwritten : (SigningCall.write aead table ⟨_, .sign tenantId algorithm message _⟩) = .nothing := nothing
      exact ⟨row, mem_apply.mpr (Or.inl ⟨mem, unwritten ▸ id⟩), key, isOf, owner, (Except.ok.inj answer).symm⟩
    · exact ⟨row, mem_apply.mpr (Or.inr inserted), key, isOf, owner, (Except.ok.inj answer).symm⟩
  | named h =>
    obtain ⟨key, hkey, h⟩ := bind_eq_ok.mp h
    obtain ⟨stored, _, hkey⟩ := bind_eq_ok.mp hkey
    split at hkey
    · rename_i row hrow
      obtain ⟨mem, owner, _⟩ := Table.find_spec hrow
      obtain ⟨found, checked, isOf⟩ := checkedSigningKey_ok (same ▸ kept.holds row mem) owner
      rw [checked] at hkey
      cases hkey
      exact ⟨row, mem_apply.mpr (Or.inl ⟨mem, id⟩), key, isOf, owner, (Except.ok.inj h).symm⟩
    · split at hkey <;> cases hkey

/-- The keyring of a table that services of one master key wrote. -/
theorem publicKeys_ok (kept : Kept aead schemes service.masterKey table) (mem : row ∈ table)
    (owner : row.key = (tenantId, algorithm)) :
    ∃ ring, service.publicKeys aead schemes table tenantId algorithm = .ok ring := by
  have each : ∀ row ∈ versions table tenantId algorithm, (do
      let key ← service.checkedSigningKey aead schemes tenantId algorithm row
      return (key.version, key.publicKey)) =
        (.ok (row.version, ⟨algorithm, row.content.publicKey⟩) : Except Failure (Nat × PublicKey)) := by
    intro row mem
    obtain ⟨there, owned⟩ := mem_versions.mp mem
    obtain ⟨key, checked, isOf⟩ := checkedSigningKey_ok (kept.holds row there) owned
    have same : key.algorithm = algorithm := (Prod.mk.inj (isOf.owner.symm.trans owned)).2
    rw [checked, ok_bind, SigningKey.publicKey, isOf.version, isOf.publicHalf, same]
    rfl
  have there : row ∈ versions table tenantId algorithm := mem_versions.mpr ⟨mem, owner⟩
  have apart : ((versions table tenantId algorithm).map (·.version)).Nodup := by
    have rows : (versions table tenantId algorithm).Nodup :=
      (List.perm_insertionSort _ _).nodup_iff.mpr (kept.distinct.of_map.filter _)
    refine rows.map_on ?_
    intro row mem row' mem' same
    obtain ⟨there, owned⟩ := mem_versions.mp mem
    obtain ⟨there', owned'⟩ := mem_versions.mp mem'
    exact kept.distinct.eq there there' (owned.trans owned'.symm) same
  unfold PgKeyManagementService.publicKeys
  dsimp only
  rw [if_neg (by simp only [List.isEmpty_iff]; exact List.ne_nil_of_mem there), mapM_eq_ok_map each, ok_bind]
  refine PublicKeyring.new_ok ?_ ?_ ?_
  · intro entry hentry
    obtain ⟨row, mem, rfl⟩ := List.mem_map.mp hentry
    exact ⟨(kept.counted row (mem_versions.mp mem).1).1, rfl⟩
  · rwa [List.map_map]
  · exact List.ne_nil_of_mem (List.mem_map_of_mem there)

/-- What takes a row retires its version or deletes its key. -/
theorem retires_of_takes (kept : ∀ row ∈ table, HoldsKey aead schemes call.service.masterKey row)
    (taken : (call.write aead table).Takes row) (owner : row.key = (tenantId, algorithm)) :
    call.Retires table tenantId algorithm row.version ∨ call.Deletes tenantId algorithm := by
  have written := writesKeys call kept
  generalize call.write aead table = write at written taken
  cases written with
  | nothing => exact taken.elim
  | insert => exact taken.elim
  | deleteBelow asked retired =>
    rw [SigningCall.Retires, asked]
    exact Or.inl ⟨taken.1.symm.trans owner, taken.2, retired⟩
  | deleteAll asked =>
    rw [SigningCall.Deletes, asked]
    exact Or.inr ((show row.key = _ from taken).symm.trans owner)

theorem write_of_retires (kept : ∀ row ∈ table, HoldsKey aead schemes call.service.masterKey row)
    (retires : call.Retires table tenantId algorithm version) : ∃ bound latest,
      call.write aead table = .deleteBelow (tenantId, algorithm) bound ∧ version < bound ∧
        table.latest (tenantId, algorithm) = some latest ∧ bound ≤ latest := by
  obtain ⟨serving, request⟩ := call
  cases request with
  | retireSigningVersionsBefore tenant named bound =>
    obtain ⟨same, lower, retired⟩ := retires
    obtain ⟨rfl, rfl⟩ := Prod.mk.inj same
    obtain ⟨error, h⟩ | ⟨⟨latest, known, le⟩, h⟩ := retireVersionsBefore_cases table (tenant, named)
      (noSigningKey tenant named) bound
    · rw [PgKeyManagementService.retireSigningVersionsBefore, h] at retired
      cases retired
    · exact ⟨bound, latest, congrArg Prod.snd h, lower, known, le⟩
  | sign | signWithVersion | createSigningKey | rotateSigningKey | deleteSigningKey => exact retires.elim

/-- A version is gone, and the key has a later one. -/
def Gone (table : SigningKeys) (tenantId : String) (algorithm : SignatureAlgorithm) (version : Nat) : Prop :=
  (∃ row ∈ table, row.key = (tenantId, algorithm) ∧ version < row.version) ∧
    ∀ row ∈ table, row.key = (tenantId, algorithm) → row.version ≠ version

/-- The latest version is not below a bound that is not above it. -/
theorem gone_of_deleteBelow {bound latest : Nat} (known : table.latest (tenantId, algorithm) = some latest)
    (le : bound ≤ latest) (later : version < latest) (gone : ∀ row ∈ table, row.key = (tenantId, algorithm) →
      bound ≤ row.version → row.version ≠ version) :
    Gone ((Write.deleteBelow (tenantId, algorithm) bound).apply table) tenantId algorithm version := by
  obtain ⟨⟨row, mem, owner, rfl⟩, _⟩ := Table.latest_eq_some.mp known
  refine ⟨⟨row, mem_apply.mpr (Or.inl ⟨mem, fun taken => absurd taken.2 (Nat.not_lt.mpr le)⟩), owner, later⟩, ?_⟩
  intro other hother owned
  obtain ⟨there, left⟩ | ⟨⟨⟩⟩ := mem_apply.mp hother
  exact gone other there owned (Nat.le_of_not_lt fun lower => left ⟨owned, lower⟩)

theorem gone_of_retires (kept : ∀ row ∈ table, HoldsKey aead schemes call.service.masterKey row)
    (retires : call.Retires table tenantId algorithm version) :
    Gone ((call.write aead table).apply table) tenantId algorithm version := by
  obtain ⟨bound, latest, written, lower, known, le⟩ := write_of_retires kept retires
  rw [written]
  exact gone_of_deleteBelow known le (Nat.lt_of_lt_of_le lower le) fun row _ _ higher =>
    Nat.ne_of_gt (Nat.lt_of_lt_of_le lower higher)

theorem Gone.step (gone : Gone table tenantId algorithm version)
    (kept : ∀ row ∈ table, HoldsKey aead schemes call.service.masterKey row)
    (alive : ¬call.Deletes tenantId algorithm) :
    Gone ((call.write aead table).apply table) tenantId algorithm version := by
  have written := writesKeys call kept
  obtain ⟨⟨row, mem, owner, later⟩, absent⟩ := gone
  generalize call.write aead table = write at written
  cases written with
  | nothing =>
    refine ⟨⟨row, mem_apply.mpr (Or.inl ⟨mem, id⟩), owner, later⟩, fun other hother owned => ?_⟩
    obtain ⟨there, _⟩ | ⟨⟨⟩⟩ := mem_apply.mp hother
    exact absent other there owned
  | insert holds next small =>
    refine ⟨⟨row, mem_apply.mpr (Or.inl ⟨mem, id⟩), owner, later⟩, fun other hother owned => ?_⟩
    obtain ⟨there, _⟩ | same := mem_apply.mp hother
    · exact absent other there owned
    · obtain rfl := Write.insert.inj same
      have above := lt_next mem
      rw [owner, ← owned, ← next] at above
      exact Nat.ne_of_gt (later.trans above)
  | @deleteBelow tenant named bound latest asked retired known le =>
    by_cases same : (tenant, named) = (tenantId, algorithm)
    · rw [same] at known ⊢
      have higher := (Table.latest_eq_some.mp known).2 row mem owner
      exact gone_of_deleteBelow known le (Nat.lt_of_lt_of_le later higher) fun other there owned _ =>
        absent other there owned
    · refine ⟨⟨row, mem_apply.mpr (Or.inl ⟨mem, fun taken => same (taken.1.symm.trans owner)⟩), owner, later⟩, ?_⟩
      intro other hother owned
      obtain ⟨there, _⟩ | ⟨⟨⟩⟩ := mem_apply.mp hother
      exact absent other there owned
  | @deleteAll tenant named asked =>
    have other : (tenant, named) ≠ (tenantId, algorithm) := by
      rw [SigningCall.Deletes, asked] at alive
      exact alive
    refine ⟨⟨row, mem_apply.mpr (Or.inl ⟨mem, fun taken => other ?_⟩), owner, later⟩, fun third hthird owned => ?_⟩
    · exact (show row.key = _ from taken).symm.trans owner
    · obtain ⟨there, _⟩ | ⟨⟨⟩⟩ := mem_apply.mp hthird
      exact absent third there owned

theorem Gone.after (gone : Gone table tenantId algorithm version) (kept : Kept aead schemes master table)
    (one : ∀ call ∈ calls, call.service.masterKey = master) (alive : ∀ call ∈ calls, ¬call.Deletes tenantId algorithm) :
    Gone (SigningCall.after aead table calls) tenantId algorithm version := by
  have both : Kept aead schemes master (SigningCall.after aead table calls) ∧
      Gone (SigningCall.after aead table calls) tenantId algorithm version := by
    refine run_invariant (P := fun table => Kept aead schemes master table ∧ Gone table tenantId algorithm version) ?_
      ⟨kept, gone⟩
    rintro table call mem ⟨kept, gone⟩
    exact ⟨kept.step (one call mem), gone.step ((one call mem).symm ▸ kept.holds) (alive call mem)⟩
  exact both.2

/-- What a key signed verifies while its row is there. -/
theorem verify_of_mem (kept : Kept aead schemes service.masterKey table) (mem : row ∈ table) (isOf : IsOf key row)
    (owner : row.key = (tenantId, algorithm)) (message : Octets) :
    service.verify aead schemes table tenantId message (key.sign message) = .ok () ∧ ∃ ring,
      service.publicKeys aead schemes table tenantId algorithm = .ok ring ∧ ∃ publicKey,
        ring.get row.version = some publicKey ∧ publicKey.verify schemes message (key.sign message) = .ok () := by
  have same : key.algorithm = algorithm := (Prod.mk.inj (isOf.owner.symm.trans owner)).2
  have verified := key.verify_sign message
  have halves : ∀ {loaded : SigningKey schemes}, IsOf loaded row → loaded.publicKey = key.publicKey := by
    intro loaded loads
    have algorithms := (Prod.mk.inj (loads.owner.symm.trans owner)).2
    rw [SigningKey.publicKey, SigningKey.publicKey, algorithms, same, loads.publicHalf, isOf.publicHalf]
  obtain ⟨loaded, checked, loads⟩ := checkedSigningKey_ok (kept.holds row mem) owner
  constructor
  · have found : table.find (tenantId, algorithm) row.version = some row :=
      kept.distinct.find_eq_some.mpr ⟨mem, owner, rfl⟩
    have stored : storedVersion row.version = .ok row.version := if_pos (kept.counted row mem).2
    rw [← halves loads] at verified
    simp only [PgKeyManagementService.verify, PgKeyManagementService.signingKeyOfVersion, SigningKey.sign, same,
      isOf.version, stored, ok_bind, found, checked]
    simpa only [SigningKey.sign, same, isOf.version] using verified
  · obtain ⟨ring, published⟩ := publicKeys_ok kept mem owner
    obtain ⟨other, checked', there⟩ := (publicKeys_eq_ok published).2.1 row mem owner
    obtain rfl := Except.ok.inj (checked.symm.trans checked')
    exact ⟨ring, published, _, there, halves loads ▸ verified⟩

/-- A version that is gone does not verify, and is not published. -/
theorem verify_of_gone (kept : Kept aead schemes service.masterKey table)
    (gone : Gone table tenantId signature.algorithm signature.keyVersion) :
    service.verify aead schemes table tenantId message signature =
        .error (.refused (.noKeyOfVersion signature.keyVersion)) ∧ ∃ ring,
      service.publicKeys aead schemes table tenantId signature.algorithm = .ok ring ∧
        ring.get signature.keyVersion = none := by
  obtain ⟨⟨row, mem, owner, later⟩, absent⟩ := gone
  have small : signature.keyVersion < 2 ^ 31 := later.trans (kept.counted row mem).2
  have stored : storedVersion signature.keyVersion = .ok signature.keyVersion := if_pos small
  constructor
  · have missing : table.find (tenantId, signature.algorithm) signature.keyVersion = none :=
      Table.find_eq_none.mpr fun row mem same => absent row mem same.1 same.2
    have full : (table.ofKey (tenantId, signature.algorithm)).isEmpty = false :=
      List.isEmpty_eq_false_iff.mpr (List.ne_nil_of_mem (Table.mem_ofKey.mpr ⟨mem, owner⟩))
    rw [PgKeyManagementService.verify, PgKeyManagementService.signingKeyOfVersion, stored, ok_bind, missing, full]
    rfl
  · obtain ⟨ring, published⟩ := publicKeys_ok kept mem owner
    refine ⟨ring, published, ?_⟩
    rw [Option.eq_none_iff_forall_ne_some]
    intro publicKey found
    obtain ⟨other, there, owned, version⟩ := (publicKeys_eq_ok published).2.2 _ _ found
    exact absent other there owned version

/-- From a retirement on a version is gone. -/
theorem gone_after (kept : Kept aead schemes master table) (one : ∀ call ∈ calls, call.service.masterKey = master)
    (alive : ∀ call ∈ calls, ¬call.Deletes tenantId algorithm) (retired : ∃ before other rest,
      calls = before ++ other :: rest ∧
        other.Retires (SigningCall.after aead table before) tenantId algorithm version) :
    Gone (SigningCall.after aead table calls) tenantId algorithm version := by
  obtain ⟨before, other, rest, rfl, retires⟩ := retired
  have first := kept_after before kept fun third mem => one third (List.mem_append_left _ mem)
  have same := one other (List.mem_append_right _ List.mem_cons_self)
  have gone := gone_of_retires (same.symm ▸ first.holds) retires
  have whole : SigningCall.after aead table (before ++ other :: rest) = SigningCall.after aead
      ((other.write aead (SigningCall.after aead table before)).apply (SigningCall.after aead table before)) rest :=
    run_append
  rw [whole]
  refine gone.after (first.step same) ?_ ?_
  · exact fun third mem => one third (List.mem_append_right _ (List.mem_cons_of_mem _ mem))
  · exact fun third mem => alive third (List.mem_append_right _ (List.mem_cons_of_mem _ mem))

/-- A row whose version is not retired, nor its key deleted, stays. -/
theorem mem_after_signing (kept : Kept aead schemes master table)
    (one : ∀ call ∈ calls, call.service.masterKey = master) (alive : ∀ call ∈ calls, ¬call.Deletes tenantId algorithm)
    (mem : row ∈ table) (owner : row.key = (tenantId, algorithm)) (untaken : ∀ before other rest,
      calls = before ++ other :: rest →
        ¬other.Retires (SigningCall.after aead table before) tenantId algorithm row.version) :
    row ∈ SigningCall.after aead table calls := by
  refine mem_run_of_kept mem ?_
  rintro before other rest rfl taken
  have first := kept_after before kept fun third mem => one third (List.mem_append_left _ mem)
  have member : other ∈ before ++ other :: rest := List.mem_append_cons_self
  obtain retires | deletes := retires_of_takes ((one other member).symm ▸ first.holds) taken owner
  · exact untaken before other rest rfl retires
  · exact alive other member deletes

/-- Until a version is retired what it signed verifies, in the service and against the keyring; then neither knows
it. -/
theorem verify_after (one : ∀ other ∈ earlier ++ call :: later, other.service.masterKey = service.masterKey)
    (signs : call.Signs aead (SigningCall.after aead [] earlier) tenantId algorithm message signature)
    (alive : ∀ other ∈ later, ¬other.Deletes tenantId algorithm) :
    ∃ ring, service.publicKeys aead schemes (SigningCall.after aead [] (earlier ++ call :: later)) tenantId algorithm =
        .ok ring ∧
      ((∀ before other rest, later = before ++ other :: rest → ¬other.Retires
          (SigningCall.after aead [] (earlier ++ call :: before)) tenantId algorithm signature.keyVersion) ∧
        service.verify aead schemes (SigningCall.after aead [] (earlier ++ call :: later)) tenantId message signature =
          .ok () ∧
        (∃ key, ring.get signature.keyVersion = some key ∧ key.verify schemes message signature = .ok ()) ∨
      (∃ before other rest, later = before ++ other :: rest ∧ other.Retires
          (SigningCall.after aead [] (earlier ++ call :: before)) tenantId algorithm signature.keyVersion) ∧
        service.verify aead schemes (SigningCall.after aead [] (earlier ++ call :: later)) tenantId message signature =
          .error (.refused (.noKeyOfVersion signature.keyVersion)) ∧
        ring.get signature.keyVersion = none) := by
  have onwards : ∀ calls, SigningCall.after aead [] (earlier ++ call :: calls) = SigningCall.after aead
      ((call.write aead (SigningCall.after aead [] earlier)).apply (SigningCall.after aead [] earlier)) calls :=
    fun calls => run_append
  have whole : Kept aead schemes service.masterKey (SigningCall.after aead [] (earlier ++ call :: later)) :=
    kept_after _ kept_nil one
  have start : Kept aead schemes service.masterKey (SigningCall.after aead [] earlier) :=
    kept_after _ kept_nil fun other mem => one other (List.mem_append_left _ mem)
  have same := one call (List.mem_append_right _ List.mem_cons_self)
  have next := start.step same
  obtain ⟨row, mem, key, isOf, owner, rfl⟩ := exists_of_signs start same signs
  have ones : ∀ other ∈ later, other.service.masterKey = service.masterKey := fun other mem =>
    one other (List.mem_append_right _ (List.mem_cons_of_mem _ mem))
  have algorithms : (key.sign message).algorithm = algorithm := (Prod.mk.inj (isOf.owner.symm.trans owner)).2
  have versions : (key.sign message).keyVersion = row.version := isOf.version
  simp only [onwards, versions] at whole ⊢
  generalize (call.write aead (SigningCall.after aead [] earlier)).apply (SigningCall.after aead [] earlier) = table
    at mem next whole ⊢
  by_cases retired : ∃ before other rest, later = before ++ other :: rest ∧
      other.Retires (SigningCall.after aead table before) tenantId algorithm row.version
  · have gone := gone_after next ones alive retired
    rw [← versions, ← algorithms] at gone
    obtain ⟨refused, ring, published, absent⟩ := verify_of_gone whole gone
    rw [versions] at refused absent
    exact ⟨ring, algorithms ▸ published, Or.inr ⟨retired, refused, absent⟩⟩
  · have untaken : ∀ before other rest, later = before ++ other :: rest →
        ¬other.Retires (SigningCall.after aead table before) tenantId algorithm row.version :=
      fun before other rest split retires => retired ⟨before, other, rest, split, retires⟩
    have there := mem_after_signing next ones alive mem owner untaken
    obtain ⟨verified, ring, published, outside⟩ := verify_of_mem whole there isOf owner message
    exact ⟨ring, published, Or.inl ⟨untaken, verified, outside⟩⟩

/-- A signature of the first version, and then a rotation. -/
def signs : SigningCall clearSchemes := ⟨orders, .sign "tenant" .ed25519 [7] (seedOf 1)⟩

def rotates : SigningCall clearSchemes := ⟨orders, .rotateSigningKey "tenant" .ed25519 (seedOf 2)⟩

def retires : SigningCall clearSchemes := ⟨orders, .retireSigningVersionsBefore "tenant" .ed25519 2⟩

/-- After the rotation the signature of the first version verifies, and after that version's retirement it does not. -/
theorem verify_after_orders :
    orders.verify AesGcm.framed clearSchemes (SigningCall.after AesGcm.framed [] ([] ++ signs :: [rotates])) "tenant" [7]
      firstSigned = .ok () ∧
    orders.verify AesGcm.framed clearSchemes (SigningCall.after AesGcm.framed [] ([] ++ signs :: [rotates, retires]))
      "tenant" [7] firstSigned = .error (.refused (.noKeyOfVersion 1)) := by
  have h : signs.Signs AesGcm.framed [] "tenant" .ed25519 [7] firstSigned := .latest rfl
  have one : ∀ calls ⊆ [rotates, retires], ∀ other ∈ [] ++ signs :: calls, other.service.masterKey = orders.masterKey := by
    intro calls among other mem
    obtain rfl | mem := List.mem_cons.mp mem
    · rfl
    · obtain rfl | rfl := List.mem_pair.mp (among mem) <;> rfl
  have alive : ∀ calls ⊆ [rotates, retires], ∀ other ∈ calls, ¬other.Deletes "tenant" .ed25519 := by
    intro calls among other mem
    obtain rfl | rfl := List.mem_pair.mp (among mem) <;> exact id
  constructor
  · obtain ⟨_, _, ⟨_, verified, _⟩ | ⟨⟨before, other, rest, split, retired⟩, _⟩⟩ :=
      verify_after (one [rotates] (by simp)) h (alive [rotates] (by simp))
    · exact verified
    · obtain rfl : other = rotates := List.mem_singleton.mp (split ▸ List.mem_append_cons_self)
      exact absurd retired id
  · obtain ⟨_, _, ⟨never, _⟩ | ⟨_, refused, _⟩⟩ :=
      verify_after (one [rotates, retires] (List.Subset.refl _)) h (alive [rotates, retires] (List.Subset.refl _))
    · exact absurd ⟨rfl, by decide, rfl⟩ (never [rotates] retires [] rfl)
    · exact refused

end AsceticDdd.Kms.Pg
