import AsceticDdd.Kms.Held
import AsceticDdd.Kms.PublicKeyring

/-!
# Signing keys in a table

A row is a version of a tenant's key of an algorithm: the private half wrapped under the key's name, and the public half
beside it. The public half is derived from the private one and checked against the row's.
-/

namespace AsceticDdd.Kms.Pg

open Control Crypto Versions
open Dek.Bound (Algorithm)

structure StoredSigningKey where
  encryptedKey : Octets
  publicKey : Octets
  masterAlgorithm : String

abbrev SigningRow := Row (String × SignatureAlgorithm) StoredSigningKey

abbrev SigningKeys := Table (String × SignatureAlgorithm) StoredSigningKey

abbrev SigningWrite := Write (String × SignatureAlgorithm) StoredSigningKey

/-- What is drawn to make a signing key: the first private half of the algorithm, and the nonce it is wrapped under. -/
structure SigningMaking (schemes : Schemes) (algorithm : SignatureAlgorithm) where
  privateHalf : Octets
  publicHalf : Octets
  derived : (schemes algorithm).publicOf privateHalf = some publicHalf
  nonce : Nonce

def noSigningKey (tenantId : String) (algorithm : SignatureAlgorithm) : Failure :=
  .refused (signingKeyNotFound tenantId algorithm)

def tampered {schemes : Schemes} (key : SigningKey schemes) : Failure :=
  .refused (.malformed ("the stored public half of `" ++ key.name ++ "` v" ++ toString key.version ++
    " is not its private half's"))

def SigningMaking.generate {schemes : Schemes} {algorithm : SignatureAlgorithm}
    (making : SigningMaking schemes algorithm)
    (tenantId : String) (version : Nat) : SigningKey schemes :=
  ⟨tenantId, algorithm, version, making.privateHalf, making.publicHalf, making.derived⟩

namespace PgKeyManagementService

variable (aead : AesGcm) (schemes : Schemes) (service : PgKeyManagementService) (table : SigningKeys)
  (tenantId : String) (algorithm : SignatureAlgorithm)

def loadSigningKey (row : SigningRow) : Except Failure (SigningKey schemes) := do
  let wrapped ← WrappedKey.parse row.content.encryptedKey
  let masterAlgorithm ← (Algorithm.fromStr row.content.masterAlgorithm).mapError .kms
  let master ← service.masterKeyOf masterAlgorithm
  let privateHalf ← (master.unwrap aead (algorithm.nameOf tenantId) wrapped).mapError .cipher
  SigningKey.load tenantId algorithm row.version privateHalf

def checkedSigningKey (row : SigningRow) : Except Failure (SigningKey schemes) := do
  let key ← service.loadSigningKey aead schemes tenantId algorithm row
  if row.content.publicKey = key.publicHalf then return key else .error (tampered key)

def currentSigningKey : Except Failure (Option (SigningKey schemes)) :=
  match table.current (tenantId, algorithm) with
  | some row => (service.loadSigningKey aead schemes tenantId algorithm row).map some
  | none => .ok none

def signingKeyOfVersion (version : Nat) : Except Failure (SigningKey schemes) := do
  match table.find (tenantId, algorithm) (← storedVersion version) with
  | some row => service.checkedSigningKey aead schemes tenantId algorithm row
  | none =>
    if (table.ofKey (tenantId, algorithm)).isEmpty then .error (noSigningKey tenantId algorithm)
    else .error (.refused (.noKeyOfVersion version))

def saveSigningKey (key : SigningKey schemes) (nonce : Nonce) : Except Failure SigningWrite := do
  let master ← service.masterKeyOf service.masterAlgorithm
  let wrapped ← (master.wrap aead key.name nonce key.privateHalf).mapError .cipher
  let row : SigningRow := ⟨(key.tenantId, key.algorithm), ← storedVersion key.version,
    wrapped.toBytes, key.publicHalf, service.masterAlgorithm.asStr⟩
  if (table.find row.key row.version).isSome then .error .database else .ok (.insert row)

variable {schemes algorithm}

/-- A version of the key, saved. -/
def generateSigningKey (version : Nat) (making : SigningMaking schemes algorithm) :
    Except Failure (SigningKey schemes × SigningWrite) := do
  let key := making.generate tenantId version
  return (key, ← service.saveSigningKey aead schemes table key making.nonce)

def getOrCreateSigningKey (making : SigningMaking schemes algorithm) :
    Except Failure (SigningKey schemes × SigningWrite) := do
  match ← service.currentSigningKey aead schemes table tenantId algorithm with
  | some key => return (key, .nothing)
  | none =>
    if service.managedKeys then .error (noSigningKey tenantId algorithm)
    else service.generateSigningKey aead table tenantId 1 making

def sign (message : Octets) (making : SigningMaking schemes algorithm) : Except Failure Signature × SigningWrite :=
  answering (service.getOrCreateSigningKey aead table tenantId making) fun key => .ok (key.sign message)

def createSigningKey (autoRotatePeriod : Option Nat) (making : SigningMaking schemes algorithm) :
    Except Failure Nat × SigningWrite :=
  writing do
    noScheduler autoRotatePeriod
    match table.latest (tenantId, algorithm) with
    | some latest => return (latest, .nothing)
    | none =>
      let (key, write) ← service.generateSigningKey aead table tenantId 1 making
      return (key.version, write)

def rotateSigningKey (making : SigningMaking schemes algorithm) : Except Failure Nat × SigningWrite :=
  writing do
    match table.latest (tenantId, algorithm) with
    | none => .error (noSigningKey tenantId algorithm)
    | some latest =>
      let (key, write) ← service.generateSigningKey aead table tenantId (latest + 1) making
      return (key.version, write)

variable (schemes algorithm)

def signWithVersion (version : Nat) (message : Octets) : Except Failure Signature := do
  let key ← service.signingKeyOfVersion aead schemes table tenantId algorithm version
  return key.sign message

def verify (message : Octets) (signature : Signature) : Except Failure Unit := do
  let key ← service.signingKeyOfVersion aead schemes table tenantId signature.algorithm signature.keyVersion
  key.publicKey.verify schemes message signature

def retireSigningVersionsBefore (version : Nat) : Except Failure Unit × SigningWrite :=
  retireVersionsBefore table (tenantId, algorithm) (noSigningKey tenantId algorithm) version

def deleteSigningKey : Except Failure Unit × SigningWrite := (.ok (), .deleteAll (tenantId, algorithm))

/-- The rows of a key, oldest first. -/
def versions : SigningKeys :=
  (table.ofKey (tenantId, algorithm)).insertionSort fun a b => a.version ≤ b.version

def publicKeys : Except Failure PublicKeyring := do
  let rows := versions table tenantId algorithm
  if rows.isEmpty then .error (noSigningKey tenantId algorithm)
  else
    let keys ← rows.mapM fun row => do
      let key ← service.checkedSigningKey aead schemes tenantId algorithm row
      return (key.version, key.publicKey)
    PublicKeyring.new algorithm keys

end PgKeyManagementService

section Agreement

variable {aead : AesGcm} {schemes : Schemes} {service : PgKeyManagementService} {table : SigningKeys}
  {tenantId : String} {algorithm : SignatureAlgorithm} {row : SigningRow} {key : SigningKey schemes}

theorem load_eq_ok {version : Nat} {privateHalf : Octets}
    (h : SigningKey.load tenantId algorithm version privateHalf = .ok key) :
    key.tenantId = tenantId ∧ key.algorithm = algorithm ∧ key.version = version ∧ key.privateHalf = privateHalf := by
  unfold SigningKey.load at h
  split at h
  · cases h
    exact ⟨rfl, rfl, rfl, rfl⟩
  · cases h

theorem loadSigningKey_eq_ok (h : service.loadSigningKey aead schemes tenantId algorithm row = .ok key) :
    key.tenantId = tenantId ∧ key.algorithm = algorithm ∧ key.version = row.version := by
  obtain ⟨_, _, h⟩ := bind_eq_ok.mp h
  obtain ⟨_, _, h⟩ := bind_eq_ok.mp h
  obtain ⟨_, _, h⟩ := bind_eq_ok.mp h
  obtain ⟨_, _, h⟩ := bind_eq_ok.mp h
  obtain ⟨tenants, algorithms, versions, _⟩ := load_eq_ok h
  exact ⟨tenants, algorithms, versions⟩

theorem checkedSigningKey_eq_ok (h : service.checkedSigningKey aead schemes tenantId algorithm row = .ok key) :
    service.loadSigningKey aead schemes tenantId algorithm row = .ok key ∧ row.content.publicKey = key.publicHalf := by
  obtain ⟨loaded, hloaded, h⟩ := bind_eq_ok.mp h
  split at h
  · cases h
    exact ⟨hloaded, ‹_›⟩
  · cases h

end Agreement

end AsceticDdd.Kms.Pg
