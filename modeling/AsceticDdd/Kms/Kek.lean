import AsceticDdd.Control.Except
import AsceticDdd.Dek.Versioned

/-!
# A tenant's keys

The master key makes a tenant's keys and loads them, each wrapped under the tenant. A tenant's key wraps data keys under
its version, bound to the tenant and the context it serves.
-/

namespace AsceticDdd.Kms

open Control Crypto Text
open Dek.Bound (Algorithm KmsError fromBeBytes fromBeBytes_toBeBytes)

inductive Failure
  | kms (error : KmsError)
  | invalidSignature
  | database
deriving DecidableEq

def Failure.cipher (error : CipherError) : Failure := .kms (.cipher error)

def Failure.refused (error : Error) : Failure := .kms (.refused error)

def versionSize : Nat := 4

namespace WrappedKey

def parse (bytes : Octets) : Except Failure WrappedKey :=
  if bytes.length < versionSize then
    .error (.refused (.malformed (toString bytes.length ++
      " bytes cannot be a wrapped key: the key version alone is " ++ toString versionSize)))
  else .ok ⟨fromBeBytes (bytes.take versionSize), bytes.drop versionSize⟩

def toBytes (wrapped : WrappedKey) : Octets := toBeBytes wrapped.keyVersion ++ wrapped.sealed

theorem parse_toBytes {wrapped : WrappedKey} (small : wrapped.keyVersion < 2 ^ 32) :
    parse wrapped.toBytes = .ok wrapped := by
  have size : (toBeBytes wrapped.keyVersion).length = versionSize := rfl
  rw [parse, toBytes, if_neg (by rw [List.length_append, size]; omega), List.take_left' size, List.drop_left' size,
    fromBeBytes_toBeBytes small]

theorem toBytes_injective {wrapped wrapped' : WrappedKey} (small : wrapped.keyVersion < 2 ^ 32)
    (small' : wrapped'.keyVersion < 2 ^ 32) (same : wrapped.toBytes = wrapped'.toBytes) : wrapped = wrapped' := by
  have read := parse_toBytes small
  rw [same, parse_toBytes small'] at read
  exact (Except.ok.inj read).symm

end WrappedKey

/-- A key drawn from the operating system. -/
structure FreshKey where
  bytes : Octets
  sized : bytes.length = Aes256Gcm.keySize

namespace Pg

/-- One version of a tenant's key. -/
structure Kek where
  tenantId : String
  context : Option String
  version : Nat
  algorithm : Algorithm
  cipher : Aes256Gcm
  wrapped : WrappedKey

structure MasterKey extends Kms.MasterKey where
  algorithm : Algorithm

section Keys

variable (aead : AesGcm)

namespace Kek

def new (tenantId : String) (context : Option String) (version : Nat) (algorithm : Algorithm) (key : Octets)
    (wrapped : WrappedKey) : Except Failure Kek := do
  let cipher ← (algorithm.cipher key (binding tenantId context)).mapError .kms
  return ⟨tenantId, context, version, algorithm, cipher, wrapped⟩

variable (kek : Kek)

def wrap (nonce : Nonce) (dek : Octets) : Except Failure WrappedKey :=
  (WrappedKey.wrap aead kek.version kek.cipher nonce dek).mapError .cipher

def unwrap (wrapped : WrappedKey) : Except Failure Octets :=
  (wrapped.unwrap aead kek.version kek.cipher).mapError .cipher

/-- Wraps again what an earlier version wrapped. -/
def rewrap (nonce : Nonce) (wrapped : WrappedKey) (earlier : Kek) : Except Failure WrappedKey := do
  kek.wrap aead nonce (← earlier.unwrap aead wrapped)

/-- A drawn key in the clear, and wrapped. -/
def generateDek (dek : FreshKey) (nonce : Nonce) : Except Failure (Octets × WrappedKey) := do
  return (dek.bytes, ← kek.wrap aead nonce dek.bytes)

end Kek

namespace MasterKey

def new (key : Octets) : Algorithm → Except Failure MasterKey
  | .aes256Gcm => ((Kms.MasterKey.new key).map (⟨·, .aes256Gcm⟩)).mapError .cipher

variable (master : MasterKey)

/-- A drawn key as a version of a tenant's. -/
def makeKek (tenantId : String) (context : Option String) (version : Nat) (key : FreshKey) (nonce : Nonce) :
    Except Failure Kek := do
  let wrapped ← (master.wrap aead tenantId nonce key.bytes).mapError .cipher
  Kek.new tenantId context version master.algorithm key.bytes wrapped

def generateKek (tenantId : String) (context : Option String) (key : FreshKey) (nonce : Nonce) : Except Failure Kek :=
  master.makeKek aead tenantId context 1 key nonce

def loadKek (tenantId : String) (context : Option String) (wrapped : WrappedKey) (version : Nat)
    (algorithm : Algorithm) : Except Failure Kek := do
  let key ← (master.unwrap aead tenantId wrapped).mapError .cipher
  Kek.new tenantId context version algorithm key wrapped

def rotateKek (kek : Kek) (key : FreshKey) (nonce : Nonce) : Except Failure Kek :=
  if kek.version + 1 < 2 ^ 32 then master.makeKek aead kek.tenantId kek.context (kek.version + 1) key nonce
  else .error (.refused (.malformed ("no key version after " ++ toString kek.version)))

end MasterKey

end Keys

end Pg

section Specs

variable {aead : AesGcm} {nonce : Nonce} {key : Octets} {wrapped : WrappedKey}

theorem WrappedKey.wrap_eq_ok {version : Nat} {c : Aes256Gcm} (h : wrap aead version c nonce key = .ok wrapped) :
    wrapped.keyVersion = version ∧ c.encrypt aead nonce key = .ok wrapped.sealed := by
  obtain ⟨sealed, hsealed, h⟩ := bind_eq_ok.mp h
  cases h
  exact ⟨rfl, hsealed⟩

/-- What is wrapped opens under the same key and the same data, and nothing else. -/
theorem WrappedKey.unwrap_eq {version : Nat} {c : Aes256Gcm} (h : wrap aead version c nonce key = .ok wrapped)
    (c' : Aes256Gcm) : wrapped.unwrap aead version c' =
      if c.key = c'.key ∧ c.aad = c'.aad then .ok key else .error .decrypt := by
  obtain ⟨versions, sealed⟩ := wrap_eq_ok h
  rw [unwrap, if_neg (not_not_intro versions), Aes256Gcm.decrypt_eq sealed]

/-- Bytes of one wrapping are of one key and one associated data. -/
theorem WrappedKey.wrap_apart {version version' : Nat} {c c' : Aes256Gcm} {nonce' : Nonce} {key' : Octets}
    (h : wrap aead version c nonce key = .ok wrapped) (h' : wrap aead version' c' nonce' key' = .ok wrapped) :
    c.key = c'.key ∧ c.aad = c'.aad ∧ key = key' := by
  have versions := (wrap_eq_ok h).1.symm.trans (wrap_eq_ok h').1
  subst versions
  have opened := unwrap_eq h c'
  rw [unwrap_eq h' c', if_pos ⟨rfl, rfl⟩] at opened
  split at opened
  · exact ⟨(‹_ ∧ _› : _).1, (‹_ ∧ _› : _).2, (Except.ok.inj opened).symm⟩
  · cases opened

theorem MasterKey.unwrap_other {master master' : MasterKey} {name name' : String}
    (h : master.wrap aead name nonce key = .ok wrapped) : master'.unwrap aead name' wrapped =
      if master.key = master'.key ∧ name = name' then .ok key else .error .decrypt := by
  refine (WrappedKey.unwrap_eq h (master'.cipherFor name')).trans ?_
  refine if_congr (and_congr_right fun _ => ⟨fun same => ?_, ?_⟩) rfl rfl
  · exact String.toList_inj.mp (utf8_injective same)
  · rintro rfl
    rfl

/-- The contexts of one tenant are bound apart. -/
theorem binding_injective {tenantId : String} {context context' : Option String}
    (same : binding tenantId context = binding tenantId context') : context = context' := by
  have lengths := congrArg List.length same
  cases context with
  | none =>
    cases context' with
    | none => rfl
    | some context' =>
      simp only [binding, toBeBytes, List.length_append, List.length_cons, List.length_nil] at lengths
      omega
  | some context =>
    cases context' with
    | none =>
      simp only [binding, toBeBytes, List.length_append, List.length_cons, List.length_nil] at lengths
      omega
    | some context' =>
      have contexts := List.append_cancel_left (List.append_cancel_left same)
      rw [String.toList_inj.mp (utf8_injective contexts)]

namespace Pg

variable {tenantId : String} {context : Option String} {version : Nat} {algorithm : Algorithm} {kek : Kek}

theorem Kek.new_eq_ok (h : Kek.new tenantId context version algorithm key wrapped = .ok kek) :
    kek.tenantId = tenantId ∧ kek.context = context ∧ kek.version = version ∧ kek.algorithm = algorithm ∧
      kek.wrapped = wrapped ∧ kek.cipher.key = key ∧ kek.cipher.aad = binding tenantId context := by
  obtain ⟨cipher, hcipher, h⟩ := bind_eq_ok.mp h
  cases h
  have made := mapError_eq_ok.mp hcipher
  cases algorithm
  have made := mapError_eq_ok.mp made
  unfold Aes256Gcm.new at made
  split at made
  · cases made
    exact ⟨rfl, rfl, rfl, rfl, rfl, rfl, rfl⟩
  · cases made

theorem Kek.new_ok (sized : key.length = Aes256Gcm.keySize) :
    Kek.new tenantId context version algorithm key wrapped =
      .ok ⟨tenantId, context, version, algorithm, ⟨key, binding tenantId context, sized⟩, wrapped⟩ := by
  cases algorithm
  have made : Aes256Gcm.new key (binding tenantId context) = .ok ⟨key, binding tenantId context, sized⟩ := dif_pos sized
  rw [Kek.new, Algorithm.cipher, made]
  rfl

theorem MasterKey.makeKek_eq_ok {master : MasterKey} {fresh : FreshKey}
    (h : master.makeKek aead tenantId context version fresh nonce = .ok kek) :
    kek.tenantId = tenantId ∧ kek.context = context ∧ kek.version = version ∧ kek.algorithm = master.algorithm ∧
      kek.cipher.key = fresh.bytes ∧ kek.cipher.aad = binding tenantId context ∧
        master.wrap aead tenantId nonce fresh.bytes = .ok kek.wrapped := by
  obtain ⟨wrapped, hwrapped, h⟩ := bind_eq_ok.mp h
  obtain ⟨tenants, contexts, versions, algorithms, wraps, keys, bound⟩ := Kek.new_eq_ok h
  refine ⟨tenants, contexts, versions, algorithms, keys, bound, ?_⟩
  rw [wraps]
  exact mapError_eq_ok.mp hwrapped

end Pg

end Specs

end AsceticDdd.Kms
