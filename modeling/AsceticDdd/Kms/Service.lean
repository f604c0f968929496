import AsceticDdd.Kms.Kek
import AsceticDdd.Machine.Versions

/-!
# The service of keys in a table

A row is a version of a tenant's key, wrapped by the master key. A request reads rows, answers, and writes once at most:
it inserts the row of a version, or deletes rows.
-/

namespace AsceticDdd.Kms.Pg

open Control Crypto Versions
open Dek.Bound (Algorithm KmsError)

/-- What a row holds beside the tenant and the version. -/
structure Stored where
  encryptedKey : Octets
  masterAlgorithm : String
  keyAlgorithm : String

abbrev KekRow := Row String Stored

abbrev Keks := Table String Stored

abbrev KekWrite := Write String Stored

structure PgKeyManagementService where
  masterKey : Octets
  masterAlgorithm : Algorithm
  context : Option String
  managedKeys : Bool

structure KekOptions where
  derived : Bool
  autoRotatePeriod : Option Nat

/-- What is drawn to make a key: the key, and the nonce it is wrapped under. -/
structure Making where
  key : FreshKey
  nonce : Nonce

def storedVersion (version : Nat) : Except Failure Nat :=
  if version < 2 ^ 31 then .ok version
  else .error (.refused (.malformed ("key version " ++ toString version ++ " does not fit the column")))

def kekNotFound (tenantId : String) (keyVersion : Option Nat) : Failure := .refused (.kekNotFound tenantId keyVersion)

def Failure.isKekNotFound : Failure → Bool
  | .kms (.refused (.kekNotFound _ _)) => true
  | _ => false

def noScheduler (autoRotatePeriod : Option Nat) : Except Failure Unit :=
  if autoRotatePeriod.isSome then
    .error (.refused (.unsupported "automatic rotation: the PostgreSQL KMS rotates on request only"))
  else .ok ()

/-- A transaction that fails writes nothing. -/
def writing {α κ ρ : Type} (done : Except Failure (α × Write κ ρ)) : Except Failure α × Write κ ρ :=
  match done with
  | .ok (answer, write) => (.ok answer, write)
  | .error error => (.error error, .nothing)

/-- What is answered with a key, and the key's row written whatever is answered. -/
def answering {α β κ ρ : Type} (found : Except Failure (β × Write κ ρ)) (answer : β → Except Failure α) :
    Except Failure α × Write κ ρ :=
  match found with
  | .ok (key, write) => (answer key, write)
  | .error error => (.error error, .nothing)

/-- Deletes the versions of a key below a bound that is not above the latest. -/
def retireVersionsBefore {κ ρ : Type} [DecidableEq κ] (table : Table κ ρ) (key : κ) (missing : Failure)
    (version : Nat) :
    Except Failure Unit × Write κ ρ :=
  writing do
    match table.latest key with
    | none => .error missing
    | some latest =>
      if latest < version then .error (.refused (.noKeyOfVersion version))
      else return ((), .deleteBelow key (← storedVersion version))

namespace PgKeyManagementService

variable (aead : AesGcm) (service : PgKeyManagementService) (table : Keks) (tenantId : String)

def masterKeyOf (algorithm : Algorithm) : Except Failure MasterKey := MasterKey.new service.masterKey algorithm

def loadKek (row : KekRow) : Except Failure Kek := do
  let wrapped ← WrappedKey.parse row.content.encryptedKey
  let masterAlgorithm ← (Algorithm.fromStr row.content.masterAlgorithm).mapError .kms
  let keyAlgorithm ← (Algorithm.fromStr row.content.keyAlgorithm).mapError .kms
  let master ← service.masterKeyOf masterAlgorithm
  master.loadKek aead tenantId service.context wrapped row.version keyAlgorithm

def currentKek : Except Failure Kek :=
  match table.current tenantId with
  | some row => service.loadKek aead tenantId row
  | none => .error (kekNotFound tenantId none)

def kek (version : Nat) : Except Failure Kek := do
  match table.find tenantId (← storedVersion version) with
  | some row => service.loadKek aead tenantId row
  | none => .error (kekNotFound tenantId (some version))

/-- The row of a key, if the table has none of its version. -/
def saveKek (kek : Kek) : Except Failure KekWrite := do
  let row : KekRow := ⟨kek.tenantId, ← storedVersion kek.version,
    kek.wrapped.toBytes, service.masterAlgorithm.asStr, kek.algorithm.asStr⟩
  if (table.find row.key row.version).isSome then .error .database else .ok (.insert row)

/-- Under the tenant's lock: the current key, or the first one made. -/
def makeCurrentKek (making : Making) : Except Failure (Kek × KekWrite) :=
  match service.currentKek aead table tenantId with
  | .ok kek => .ok (kek, .nothing)
  | .error error =>
    if Failure.isKekNotFound error then do
      let master ← service.masterKeyOf service.masterAlgorithm
      let kek ← master.generateKek aead tenantId service.context making.key making.nonce
      return (kek, ← service.saveKek table kek)
    else .error error

def getOrCreateCurrentKek (making : Making) : Except Failure (Kek × KekWrite) :=
  match service.currentKek aead table tenantId with
  | .ok kek => .ok (kek, .nothing)
  | .error error =>
    if Failure.isKekNotFound error && !service.managedKeys then service.makeCurrentKek aead table tenantId making
    else .error error

def encryptDek (dek : Octets) (making : Making) (nonce : Nonce) : Except Failure Octets × KekWrite :=
  answering (service.getOrCreateCurrentKek aead table tenantId making) fun kek =>
    (kek.wrap aead nonce dek).map WrappedKey.toBytes

def decryptDek (encryptedDek : Octets) : Except Failure Octets := do
  let wrapped ← WrappedKey.parse encryptedDek
  let kek ← service.kek aead table tenantId wrapped.keyVersion
  kek.unwrap aead wrapped

def generateDek (dek : FreshKey) (making : Making) (nonce : Nonce) : Except Failure (Octets × Octets) × KekWrite :=
  answering (service.getOrCreateCurrentKek aead table tenantId making) fun kek =>
    (kek.generateDek aead dek nonce).map (Prod.map id WrappedKey.toBytes)

def rewrapDek (encryptedDek : Octets) (making : Making) (nonce : Nonce) : Except Failure Octets × KekWrite :=
  match (do
    let wrapped ← WrappedKey.parse encryptedDek
    return (wrapped, ← service.kek aead table tenantId wrapped.keyVersion)) with
  | .ok (wrapped, earlier) =>
    answering (service.getOrCreateCurrentKek aead table tenantId making) fun kek =>
      (kek.rewrap aead nonce wrapped earlier).map WrappedKey.toBytes
  | .error error => (.error error, .nothing)

def createKek (options : KekOptions) (making : Making) : Except Failure Nat × KekWrite :=
  writing do
    noScheduler options.autoRotatePeriod
    let (kek, write) ← service.makeCurrentKek aead table tenantId making
    return (kek.version, write)

def rotateKek (making : Making) : Except Failure Nat × KekWrite :=
  writing do
    let current ← service.currentKek aead table tenantId
    let master ← service.masterKeyOf service.masterAlgorithm
    let kek ← master.rotateKek aead current making.key making.nonce
    return (kek.version, ← service.saveKek table kek)

def retireKekVersionsBefore (version : Nat) : Except Failure Unit × KekWrite :=
  retireVersionsBefore table tenantId (kekNotFound tenantId none) version

def deleteKek : Except Failure Unit × KekWrite := (.ok (), .deleteAll tenantId)

end PgKeyManagementService

/-- A request to a service, with what is drawn for it. -/
inductive Request
  | encryptDek (tenantId : String) (dek : Octets) (making : Making) (nonce : Nonce)
  | decryptDek (tenantId : String) (encryptedDek : Octets)
  | generateDek (tenantId : String) (dek : FreshKey) (making : Making) (nonce : Nonce)
  | rewrapDek (tenantId : String) (encryptedDek : Octets) (making : Making) (nonce : Nonce)
  | createKek (tenantId : String) (options : KekOptions) (making : Making)
  | rotateKek (tenantId : String) (making : Making)
  | retireKekVersionsBefore (tenantId : String) (version : Nat)
  | deleteKek (tenantId : String)

/-- What a request draws to make a key. -/
def Request.making : Request → Option Making
  | .encryptDek _ _ making _ | .generateDek _ _ making _ | .rewrapDek _ _ making _ | .createKek _ _ making
  | .rotateKek _ making => some making
  | .decryptDek _ _ | .retireKekVersionsBefore _ _ | .deleteKek _ => none

structure Call where
  service : PgKeyManagementService
  request : Request

/-- What a call writes. -/
def Call.write (aead : AesGcm) (table : Keks) (call : Call) : KekWrite :=
  match call.request with
  | .encryptDek tenantId dek making nonce => (call.service.encryptDek aead table tenantId dek making nonce).2
  | .decryptDek _ _ => .nothing
  | .generateDek tenantId dek making nonce => (call.service.generateDek aead table tenantId dek making nonce).2
  | .rewrapDek tenantId dek making nonce => (call.service.rewrapDek aead table tenantId dek making nonce).2
  | .createKek tenantId options making => (call.service.createKek aead table tenantId options making).2
  | .rotateKek tenantId making => (call.service.rotateKek aead table tenantId making).2
  | .retireKekVersionsBefore tenantId version =>
    (PgKeyManagementService.retireKekVersionsBefore table tenantId version).2
  | .deleteKek tenantId => (PgKeyManagementService.deleteKek tenantId).2

/-- A table after calls of services, one after another, each of which commits. -/
def after (aead : AesGcm) (table : Keks) (calls : List Call) : Keks := run (Call.write aead) table calls

/-- The keys drawn by calls. -/
def drawn (calls : List Call) : List Octets := calls.filterMap fun call => call.request.making.map (·.key.bytes)

end AsceticDdd.Kms.Pg
