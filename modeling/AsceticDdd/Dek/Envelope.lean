import AsceticDdd.Bus.Stage
import AsceticDdd.Dek.Canonical
import AsceticDdd.Dek.Versioned
import AsceticDdd.Text.Base64
import Mathlib.Logic.Function.Basic

/-!
# The envelope stage

On the way out a message is sealed with a key that is put, wrapped, into a header, and its payload is bound to headers
that another header names. On the way in the first header of each name is read, and those of the envelope go.
-/

namespace AsceticDdd.Dek.Envelope

open Bound Bus Canonical Crypto Kms Postgres Text

namespace Header

def tenantId : String := "tenant_id"

def dek : String := "dek"

def dekAlgorithm : String := "dek_algorithm"

def dekBoundTo : String := "dek_bound_to"

def messageId : String := "message_id"

end Header

/-- The envelope's own headers. -/
def envelopeHeaders : List String := [Header.dek, Header.dekAlgorithm, Header.dekBoundTo]

/-- A failure no retry will mend, for a reason or of the service, or one of the moment. -/
inductive StageError
  | refused (what : String)
  | permanent (error : KmsError)
  | failed (error : KmsError)
deriving DecidableEq

def verdict (error : KmsError) : StageError :=
  match error with
  | .refused (.signingKeyNotFound _ _) | .refused (.macKeyNotFound _ _) | .refused .transport
  | .refused (.vault _ _ _ _) => .failed error
  | _ => .permanent error

/-- A service that unwraps what it drew, for the tenant it was drawn for, and draws no key for two tenants. -/
structure IdealKms where
  Drawn : (tenantId : String) → (dek wrapped : Octets) → Prop
  decryptDek : (tenantId : String) → (wrapped : Octets) → Except KmsError Octets
  unwraps : ∀ {tenantId dek wrapped}, decryptDek tenantId wrapped = .ok dek ↔ Drawn tenantId dek wrapped
  owned : ∀ {tenantId tenantId' dek wrapped wrapped'}, Drawn tenantId dek wrapped → Drawn tenantId' dek wrapped' →
    tenantId = tenantId'
  sized : ∀ {tenantId dek wrapped}, Drawn tenantId dek wrapped → dek.length = Aes256Gcm.keySize

structure Reuse where
  messages : Nat
  lifetime : Nat

/-- A tenant's key in service. -/
structure Serving where
  dek : Octets
  wrapped : Octets
  since : Nat
  used : Nat

abbrev Servings := String → Option Serving

structure EnvelopeStage where
  kms : IdealKms
  algorithm : Algorithm
  boundTo : List String
  reuse : Option Reuse

/-- The message's header as text. -/
def header (m : Message) (name : String) : Except StageError String :=
  match m.header name with
  | none => .error (.refused ("the message has no `" ++ name ++ "` header"))
  | some value =>
    match fromUtf8 value with
    | some text => .ok text
    | none => .error (.refused ("the `" ++ name ++ "` header is not text"))

def tenantOf (m : Message) : Except StageError String := header m Header.tenantId

def pairOf (m : Message) (name : String) : Except StageError (String × String) := do
  return (name, ← header m name)

def wrappedOf (base64 : Base64) (encoded : String) : Except StageError Octets :=
  (base64.decode encoded.toList).mapError fun error => .refused ("the `dek` header is not base64: " ++ error)

/-- Names and values as they are written. -/
def pairsValue (pairs : List (String × String)) : Json (Number Empty) :=
  .array (pairs.map fun pair => .array [.string pair.1, .string pair.2])

/-- What a payload is bound to: headers in order. -/
def associatedData (m : Message) (names : List String) : Except StageError String := do
  return json (pairsValue (← names.mapM (pairOf m)))

def join (names : List String) : String := String.ofList ([','].intercalate (names.map String.toList))

def split (text : String) : List String := (text.toList.splitOn ',').map String.ofList

namespace EnvelopeStage

def new (kms : IdealKms) : EnvelopeStage := ⟨kms, .aes256Gcm, [Header.tenantId, Header.messageId], none⟩

variable (aead : AesGcm) (base64 : Base64) (stage : EnvelopeStage)

/-- The tenant's key in service, if it may serve once more. -/
def serving (servings : Servings) (now : Nat) (tenantId : String) : Option (Octets × Octets) × Servings :=
  match stage.reuse, servings tenantId with
  | some reuse, some current =>
    if reuse.messages ≤ current.used ∨ reuse.lifetime ≤ now - current.since then (none, servings)
    else
      (some (current.dek, current.wrapped),
        Function.update servings tenantId (some { current with used := current.used + 1 }))
  | _, _ => (none, servings)

def serve (servings : Servings) (since : Nat) (tenantId : String) (dek wrapped : Octets) : Servings :=
  match stage.reuse with
  | none => servings
  | some _ => Function.update servings tenantId (some ⟨dek, wrapped, since, 1⟩)

/-- The message with what its payload is sealed to, and the envelope's headers after the others. -/
def enveloped (m : Message) (sealed wrapped : Octets) : Message :=
  (((m.withPayload sealed).withHeader Header.dek (utf8 (base64.encode wrapped))).withHeader Header.dekAlgorithm
    (utf8 stage.algorithm.asStr.toList)).withHeader Header.dekBoundTo (utf8 (join stage.boundTo).toList)

def sealWith (nonce : Nonce) (m : Message) (aad : String) (dek wrapped : Octets) : Except StageError Message := do
  let cipher ← (stage.algorithm.cipher dek (utf8 aad.toList)).mapError verdict
  let sealed ← ((cipher.encrypt aead nonce m.payload).mapError KmsError.cipher).mapError verdict
  return stage.enveloped base64 m sealed wrapped

/-- What happens around a message on its way out: the clock, the service's answer to a tenant, and a nonce. -/
structure Call where
  now : Nat
  since : Nat
  generateDek : (tenantId : String) → Except KmsError (Octets × Octets)
  nonce : Nonce

def outbound (servings : Servings) (call : Call) (m : Message) : Except StageError Message × Servings :=
  match tenantOf m, associatedData m stage.boundTo with
  | .error error, _ => (.error error, servings)
  | .ok _, .error error => (.error error, servings)
  | .ok tenantId, .ok aad =>
    match stage.serving servings call.now tenantId with
    | (some (dek, wrapped), servings) => (stage.sealWith aead base64 call.nonce m aad dek wrapped, servings)
    | (none, servings) =>
      match call.generateDek tenantId with
      | .error error => (.error (verdict error), servings)
      | .ok (dek, wrapped) =>
        (stage.sealWith aead base64 call.nonce m aad dek wrapped, stage.serve servings call.since tenantId dek wrapped)

/-- The message with its payload, and without the envelope's headers. -/
def stripped (m : Message) (opened : Octets) : Message :=
  (((m.withPayload opened).withoutHeader Header.dek).withoutHeader Header.dekAlgorithm).withoutHeader Header.dekBoundTo

def inbound (m : Message) : Except StageError Message := do
  let tenantId ← tenantOf m
  let encoded ← header m Header.dek
  let wrapped ← wrappedOf base64 encoded
  let name ← header m Header.dekAlgorithm
  let algorithm ← (Algorithm.fromStr name).mapError verdict
  let names ← header m Header.dekBoundTo
  let aad ← associatedData m (split names)
  let dek ← (stage.kms.decryptDek tenantId wrapped).mapError verdict
  let cipher ← (algorithm.cipher dek (utf8 aad.toList)).mapError verdict
  let opened ← ((cipher.decrypt aead m.payload).mapError KmsError.cipher).mapError verdict
  return stripped m opened

/-- What the keys in service may have become: looked at, and put there as they were drawn. -/
inductive Reached : Servings → Prop
  | start : Reached fun _ => none
  | serving {servings : Servings} (now : Nat) (tenantId : String) (h : Reached servings) :
    Reached (stage.serving servings now tenantId).2
  | serve {servings : Servings} (since : Nat) {tenantId : String} {dek wrapped : Octets} (h : Reached servings)
    (drawn : stage.kms.Drawn tenantId dek wrapped) : Reached (stage.serve servings since tenantId dek wrapped)

end EnvelopeStage

/-- A stage as a message goes through it: with the keys it has in service, and what happens meanwhile. -/
structure Pass where
  stage : EnvelopeStage
  servings : Servings
  reached : stage.Reached servings
  call : EnvelopeStage.Call
  drawn : ∀ {tenantId dek wrapped}, call.generateDek tenantId = .ok (dek, wrapped) →
    stage.kms.Drawn tenantId dek wrapped

def Pass.toStage (aead : AesGcm) (base64 : Base64) (pass : Pass) : Stage StageError where
  outbound m := (pass.stage.outbound aead base64 pass.servings pass.call m).1
  inbound m := pass.stage.inbound aead base64 m

end AsceticDdd.Dek.Envelope
