import AsceticDdd.Concurrency.Interleaving
import AsceticDdd.Kms.Error
import Mathlib.Algebra.Group.Int.Defs
import Mathlib.Algebra.Group.Nat.Defs

/-!
# Retirements and rotations on Vault

A rotation is one request. A retirement reads the key, and then writes its floor in another. Vault
handles each at once, and the requests of several calls in any order.
-/

namespace AsceticDdd.Kms.Vault

open Interleaving

structure TransitKey where
  latestVersion : Nat
  minDecryptionVersion : Nat
  minEncryptionVersion : Nat
deriving DecidableEq

/-- What Vault says of a key: the numbers among its fields. -/
structure Answer where
  latestVersion : Option Nat
  minDecryptionVersion : Option Nat
  minEncryptionVersion : Option Nat
deriving DecidableEq

/-- What a retirement writes. -/
structure Config where
  minDecryptionVersion : Nat
  minEncryptionVersion : Option Nat
deriving DecidableEq

namespace TransitKey

def described (key : TransitKey) : Answer :=
  ⟨some key.latestVersion, some key.minDecryptionVersion, some key.minEncryptionVersion⟩

def rotated (key : TransitKey) : TransitKey := { key with latestVersion := key.latestVersion + 1 }

def configured (key : TransitKey) (body : Config) : TransitKey :=
  { key with
    minDecryptionVersion := body.minDecryptionVersion
    minEncryptionVersion := body.minEncryptionVersion.getD key.minEncryptionVersion }

end TransitKey

/-- `data.<field>` of an answer as a version. -/
def versionField (value : Option Nat) (field : String) : Except Error Nat :=
  match value with
  | some version =>
    if version < 2 ^ 32 then .ok version
    else .error (.malformed ("vault answered without `data." ++ field ++ "`"))
  | none => .error (.malformed ("vault answered without `data." ++ field ++ "`"))

def versionOr (value : Option Nat) (field : String) (absent : Nat) : Nat :=
  (versionField value field).toOption.getD absent

/-- Whether the key, as Vault describes it, serves `version`: made, and not retired. -/
def serves (answer : Answer) (version : Nat) : Bool :=
  versionOr answer.minDecryptionVersion "min_decryption_version" 1 ≤ version &&
    version ≤ versionOr answer.latestVersion "latest_version" 0

/-- What a retirement does after its read: it is over, or it writes. -/
def retiring (answer : Answer) (version : Nat) : Except Error (Option Config) :=
  match versionField answer.latestVersion "latest_version" with
  | .error error => .error error
  | .ok latest =>
    if latest < version then .error (.noKeyOfVersion version)
    else if version ≤ versionOr answer.minDecryptionVersion "min_decryption_version" 1 then .ok none
    else
      let signingFloor := versionOr answer.minEncryptionVersion "min_encryption_version" 0
      .ok (some ⟨version, if 1 ≤ signingFloor ∧ signingFloor < version then some version else none⟩)

/-- A call of a named key between two requests. -/
inductive Calling
  | idle
  | rotating (tenantId name : String) (missing : Error)
  | rotated (name : String)
  | reading (tenantId name : String) (version : Nat) (missing : Error)
  | writing (tenantId name : String) (body : Config) (missing : Error)
  | explaining (tenantId name operation : String) (missing : Error) (status : Nat) (error : Error)
  | done (answer : Except Error (Option Nat))

structure Service where
  /-- The percent-encoding of a tenant's id. -/
  utf8PercentEncode : String → String

def isKeyPart (text : String) : Bool :=
  text ≠ "" && text.toList.all fun c => c.isAlphanum || c = '_' || c = '-'

def tenantPart (tenantId : String) : Except Error String :=
  if isKeyPart tenantId then .ok tenantId
  else .error (.malformed
    ("a tenant id in a key name is letters, digits, `_` and `-`, not `" ++ tenantId ++ "`"))

def signingKeyName (tenantId : String) (algorithm : SignatureAlgorithm) : Except Error String := do
  return algorithm.nameOf (← tenantPart tenantId)

def macKeyName (tenantId purpose : String) : Except Error String := do
  return macNameOf (← tenantPart tenantId) purpose

def kekNotFound (tenantId : String) : Error := .kekNotFound tenantId none

/-- A call on a key, if it has a name. -/
def Calling.named (name : Except Error String) (call : String → Calling) : Calling :=
  match name with
  | .ok name => call name
  | .error error => .done (.error error)

namespace Service

variable (v : Service) (tenantId : String)

def keyName : String := v.utf8PercentEncode tenantId

def rotateKek : Calling := .rotating tenantId (v.keyName tenantId) (kekNotFound tenantId)

def retireKekVersionsBefore (version : Nat) : Calling :=
  .reading tenantId (v.keyName tenantId) version (kekNotFound tenantId)

def rotateSigningKey (algorithm : SignatureAlgorithm) : Calling :=
  .named (signingKeyName tenantId algorithm) fun name =>
    .rotating tenantId name (signingKeyNotFound tenantId algorithm)

def retireSigningVersionsBefore (algorithm : SignatureAlgorithm) (version : Nat) : Calling :=
  .named (signingKeyName tenantId algorithm) fun name =>
    .reading tenantId name version (signingKeyNotFound tenantId algorithm)

def rotateMacKey (purpose : String) : Calling :=
  .named (macKeyName tenantId purpose) fun name =>
    .rotating tenantId name (macKeyNotFound tenantId purpose)

def retireMacVersionsBefore (purpose : String) (version : Nat) : Calling :=
  .named (macKeyName tenantId purpose) fun name =>
    .reading tenantId name version (macKeyNotFound tenantId purpose)

end Service

/-- Vault's keys, by name. -/
abbrev Keys := String → Option TransitKey

/-- The path of a key's floor. -/
def configPath (name : String) : String := "/keys/" ++ name ++ "/config"

def rotatePath (name : String) : String := "/keys/" ++ name ++ "/rotate"

/-- What a refusal of a custody operation leads to: one read on a `400` or a `403`. -/
def refused (tenantId name operation path : String) (missing : Error) (status : Nat) (message : String) :
    Calling :=
  let error := Error.vault status "POST" path message
  if status = 400 ∨ status = 403 then .explaining tenantId name operation missing status error
  else .done (.error error)

/-- What the read after a refusal says of it. -/
def explained (tenantId operation : String) (missing : Error) (status : Nat) (error : Error) :
    Option Answer → Error
  | none => missing
  | some _ =>
    if status = 403 then .forbidden tenantId operation
    else match error with
      | .vault _ _ _ message => .malformed ("vault refused " ++ operation ++ ": " ++ message)
      | error => error

inductive Act
  | rotateKek (tenantId : String)
  | rotateSigningKey (tenantId : String) (algorithm : SignatureAlgorithm)
  | rotateMacKey (tenantId purpose : String)
  | retireKekVersionsBefore (tenantId : String) (version : Nat)
  | retireSigningVersionsBefore (tenantId : String) (algorithm : SignatureAlgorithm) (version : Nat)
  | retireMacVersionsBefore (tenantId purpose : String) (version : Nat)
  | next
  | silent
  | refuse (status : Nat) (message : String)
  | lose (handled : Bool)

/-- Vault handles a request, where it has the key. -/
def handle (keys : Keys) : Calling → Option (Keys × Option TransitKey)
  | .rotating _ name _ => some (match keys name with
    | some key => (Function.update keys name (some key.rotated), some key.rotated)
    | none => (keys, none))
  | .writing _ name body _ => some (match keys name with
    | some key => (Function.update keys name (some (key.configured body)), some (key.configured body))
    | none => (keys, none))
  | .rotated name | .reading _ name _ _ | .explaining _ name _ _ _ _ => some (keys, keys name)
  | .idle | .done _ => none

/-- Where an answered request leads. -/
def answered (key : Option TransitKey) (silent : Bool) : Calling → Calling
  | .rotating tenantId name missing =>
    match key with
    | none => refused tenantId name "rotate" (rotatePath name) missing 400 "key not found"
    | some key =>
      match versionField (if silent then none else some key.latestVersion) "latest_version" with
      | .ok version => .done (.ok (some version))
      | .error _ => .rotated name
  | .rotated name =>
    match key with
    | none => .done (.error (.malformed ("key `" ++ name ++ "` vanished while rotating")))
    | some key => .done ((versionField key.described.latestVersion "latest_version").map some)
  | .reading tenantId name version missing =>
    match key with
    | none => .done (.error missing)
    | some key =>
      match retiring key.described version with
      | .error error => .done (.error error)
      | .ok none => .done (.ok none)
      | .ok (some body) => .writing tenantId name body missing
  | .writing tenantId name _ missing =>
    match key with
    | none => refused tenantId name "retire" (configPath name) missing 400 "key not found"
    | some _ => .done (.ok none)
  | .explaining tenantId _ operation missing status error =>
    .done (.error (explained tenantId operation missing status error (key.map (·.described))))
  | p => p

/-- Where a request that Vault refused, changing nothing, leads. A read refused as not found finds no key. -/
def turnedAway (status : Nat) (message : String) : Calling → Calling
  | .rotating tenantId name missing => refused tenantId name "rotate" (rotatePath name) missing status message
  | .writing tenantId name _ missing => refused tenantId name "retire" (configPath name) missing status message
  | .rotated name =>
    if status = 404 then answered none false (.rotated name)
    else .done (.error (.vault status "GET" ("/keys/" ++ name) message))
  | .reading _ name _ missing =>
    .done (.error (if status = 404 then missing else .vault status "GET" ("/keys/" ++ name) message))
  | .explaining tenantId _ operation missing found error =>
    .done (.error (if status = 404 then explained tenantId operation missing found error none else error))
  | p => p

/-- Where a request whose answer was lost leads. -/
def lost : Calling → Calling
  | .explaining _ _ _ _ _ error => .done (.error error)
  | _ => .done (.error .transport)

namespace Service

variable (v : Service)

/-- A call's step: it begins, or its next request is handled, refused or lost. -/
def step (keys : Keys) (p : Calling) : Act → Option (Keys × Calling)
  | .next => (handle keys p).map fun r => (r.1, answered r.2 false p)
  | .silent => (handle keys p).map fun r => (r.1, answered r.2 true p)
  | .refuse status message => (handle keys p).map fun _ => (keys, turnedAway status message p)
  | .lose handled => (handle keys p).map fun r => (if handled then r.1 else keys, lost p)
  | .rotateKek tenantId => some (keys, v.rotateKek tenantId)
  | .rotateSigningKey tenantId algorithm => some (keys, rotateSigningKey tenantId algorithm)
  | .rotateMacKey tenantId purpose => some (keys, rotateMacKey tenantId purpose)
  | .retireKekVersionsBefore tenantId version => some (keys, v.retireKekVersionsBefore tenantId version)
  | .retireSigningVersionsBefore tenantId algorithm version =>
    some (keys, retireSigningVersionsBefore tenantId algorithm version)
  | .retireMacVersionsBefore tenantId purpose version =>
    some (keys, retireMacVersionsBefore tenantId purpose version)

def program : Program Keys Nat Calling Act where
  step keys _ p a := v.step keys p a

end Service

abbrev World := Interleaving.World Keys Nat Calling

end AsceticDdd.Kms.Vault
