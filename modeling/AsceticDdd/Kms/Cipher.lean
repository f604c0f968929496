import AsceticDdd.Crypto.Aead
import AsceticDdd.Kms.Error
import AsceticDdd.Text.Utf8
import Mathlib.Algebra.Group.Int.Defs
import Mathlib.Algebra.Group.Nat.Defs

/-!
# Keys wrapped by keys

The cipher of a key is bound to associated data. The master key wraps a tenant's keys bound to a name, and a tenant's
key wraps data keys bound to the tenant and a derivation context.
-/

namespace AsceticDdd.Kms

open Crypto Text

inductive CipherError
  | malformed (detail : String)
  | decrypt
  | wrongKeyVersion (expected found : Nat)
deriving DecidableEq

namespace Aes256Gcm

def keySize : Nat := 32

def nonceSize : Nat := 12

def tagSize : Nat := 16

end Aes256Gcm

/-- The cipher of the `aes_gcm` crate. -/
structure AesGcm extends Aead where
  tag : toAead.tagSize = Aes256Gcm.tagSize
  plain : toAead.maxPlain = 2 ^ 36
  data : toAead.maxData = 2 ^ 36

/-- An ideal cipher of its sizes. -/
def AesGcm.framed : AesGcm where
  toAead := Aead.framed (2 ^ 36) (2 ^ 36) Aes256Gcm.tagSize
  tag := rfl
  plain := rfl
  data := rfl

/-- The nonce a sealing draws. -/
structure Nonce where
  bytes : Octets
  sized : bytes.length = Aes256Gcm.nonceSize

structure Aes256Gcm where
  key : Octets
  aad : Octets
  sized : key.length = Aes256Gcm.keySize

def tooShort (length : Nat) : CipherError :=
  .malformed (toString length ++ " bytes cannot be sealed: a nonce and a tag alone are " ++
    toString (Aes256Gcm.nonceSize + Aes256Gcm.tagSize))

def wrongSize (length : Nat) : CipherError :=
  .malformed ("a key for AES-256-GCM is " ++ toString Aes256Gcm.keySize ++ " bytes, this one is " ++ toString length)

section Sealing

variable (aead : AesGcm)

namespace Aes256Gcm

def new (key aad : Octets) : Except CipherError Aes256Gcm :=
  if sized : key.length = keySize then .ok ⟨key, aad, sized⟩ else .error (wrongSize key.length)

def encrypt (c : Aes256Gcm) (nonce : Nonce) (plaintext : Octets) : Except CipherError Octets :=
  match aead.encrypt c.key nonce.bytes c.aad plaintext with
  | some sealed => .ok (nonce.bytes ++ sealed)
  | none => .error (.malformed "the plaintext is longer than AES-GCM seals")

def decrypt (c : Aes256Gcm) (sealed : Octets) : Except CipherError Octets :=
  if sealed.length < nonceSize then .error (tooShort sealed.length)
  else if (sealed.drop nonceSize).length < tagSize then .error (tooShort sealed.length)
  else
    match aead.decrypt c.key (sealed.take nonceSize) c.aad (sealed.drop nonceSize) with
    | some plaintext => .ok plaintext
    | none => .error .decrypt

end Aes256Gcm

/-- A key wrapped by a version of another. -/
structure WrappedKey where
  keyVersion : Nat
  sealed : Octets
deriving DecidableEq

namespace WrappedKey

def wrap (version : Nat) (c : Aes256Gcm) (nonce : Nonce) (key : Octets) : Except CipherError WrappedKey := do
  return ⟨version, ← c.encrypt aead nonce key⟩

def unwrap (wrapped : WrappedKey) (version : Nat) (c : Aes256Gcm) : Except CipherError Octets :=
  if wrapped.keyVersion ≠ version then .error (.wrongKeyVersion version wrapped.keyVersion)
  else c.decrypt aead wrapped.sealed

end WrappedKey

def masterKeyVersion : Nat := 1

structure MasterKey where
  key : Octets
  sized : key.length = Aes256Gcm.keySize

namespace MasterKey

def new (key : Octets) : Except CipherError MasterKey :=
  if sized : key.length = Aes256Gcm.keySize then .ok ⟨key, sized⟩ else .error (wrongSize key.length)

variable (master : MasterKey)

/-- The master key bound to a name. -/
def cipherFor (name : String) : Aes256Gcm := ⟨master.key, utf8 name.toList, master.sized⟩

def wrap (name : String) (nonce : Nonce) (key : Octets) : Except CipherError WrappedKey :=
  WrappedKey.wrap aead masterKeyVersion (master.cipherFor name) nonce key

def unwrap (name : String) (wrapped : WrappedKey) : Except CipherError Octets :=
  wrapped.unwrap aead masterKeyVersion (master.cipherFor name)

end MasterKey

variable {aead} {c c' : Aes256Gcm} {nonce : Nonce} {plaintext sealed : Octets}

theorem Aes256Gcm.encrypt_eq_ok (h : c.encrypt aead nonce plaintext = .ok sealed) :
    ∃ body, aead.encrypt c.key nonce.bytes c.aad plaintext = some body ∧ sealed = nonce.bytes ++ body := by
  unfold encrypt at h
  split at h
  · exact ⟨_, ‹_›, (Except.ok.inj h).symm⟩
  · cases h

/-- A key and associated data short enough to seal. -/
theorem Aes256Gcm.encrypt_ok (aead : AesGcm) (c : Aes256Gcm) (nonce : Nonce) (short : plaintext.length ≤ 2 ^ 36)
    (few : c.aad.length ≤ 2 ^ 36) : ∃ sealed, c.encrypt aead nonce plaintext = .ok sealed := by
  obtain ⟨body, hbody⟩ := aead.seals c.key nonce.bytes c.aad plaintext (aead.plain ▸ short) (aead.data ▸ few)
  exact ⟨nonce.bytes ++ body, by rw [encrypt, hbody]⟩

theorem Aes256Gcm.decrypt_eq (h : c.encrypt aead nonce plaintext = .ok sealed) (c' : Aes256Gcm) :
    c'.decrypt aead sealed =
      if c.key = c'.key ∧ c.aad = c'.aad then .ok plaintext else .error .decrypt := by
  obtain ⟨body, hbody, rfl⟩ := encrypt_eq_ok h
  have tagged : Aes256Gcm.tagSize ≤ body.length := aead.tag ▸ aead.tagged hbody
  rw [decrypt, List.drop_left' nonce.sized, List.take_left' nonce.sized, List.length_append, nonce.sized,
    if_neg (Nat.not_lt.mpr (Nat.le_add_right _ _)), if_neg (Nat.not_lt.mpr tagged)]
  by_cases same : c.key = c'.key ∧ c.aad = c'.aad
  · rw [if_pos same, ← same.1, ← same.2, aead.opens_iff.mpr hbody]
  · rw [if_neg same, aead.never_opens hbody (not_and_or.mp same)]

/-- What is wrapped under one name opens under it alone. -/
theorem MasterKey.unwrap_eq {master : MasterKey} {name name' : String} {key : Octets} {wrapped : WrappedKey}
    (h : master.wrap aead name nonce key = .ok wrapped) :
    master.unwrap aead name' wrapped = if name = name' then .ok key else .error .decrypt := by
  obtain ⟨sealed, hsealed, rfl⟩ : ∃ sealed, (master.cipherFor name).encrypt aead nonce key = .ok sealed ∧
      (⟨masterKeyVersion, sealed⟩ : WrappedKey) = wrapped := by
    unfold wrap WrappedKey.wrap at h
    cases hsealed : (master.cipherFor name).encrypt aead nonce key with
    | ok sealed =>
      rw [hsealed] at h
      exact ⟨sealed, rfl, Except.ok.inj h⟩
    | error error =>
      rw [hsealed] at h
      cases h
  have names : (master.cipherFor name).key = (master.cipherFor name').key ∧
      (master.cipherFor name).aad = (master.cipherFor name').aad ↔ name = name' := by
    constructor
    · intro same
      exact String.toList_inj.mp (utf8_injective same.2)
    · rintro rfl
      exact ⟨rfl, rfl⟩
  rw [unwrap, WrappedKey.unwrap, if_neg (not_not_intro rfl), Aes256Gcm.decrypt_eq hsealed]
  exact if_congr names rfl rfl

theorem MasterKey.wrap_ok (aead : AesGcm) (master : MasterKey) (name : String) (nonce : Nonce) (key : Octets)
    (short : key.length ≤ 2 ^ 36) (few : (utf8 name.toList).length ≤ 2 ^ 36) :
    ∃ wrapped, master.wrap aead name nonce key = .ok wrapped := by
  obtain ⟨sealed, hsealed⟩ := Aes256Gcm.encrypt_ok aead (master.cipherFor name) nonce short few
  exact ⟨⟨masterKeyVersion, sealed⟩, by rw [wrap, WrappedKey.wrap, hsealed]; rfl⟩

end Sealing

/-- `u32::to_be_bytes` -/
def toBeBytes (n : Nat) : Octets :=
  [UInt8.ofNat (n / 2 ^ 24), UInt8.ofNat (n / 2 ^ 16), UInt8.ofNat (n / 2 ^ 8), UInt8.ofNat n]

/-- The associated data a tenant's key wraps under. -/
def binding (tenantId : String) (context : Option String) : Octets :=
  match context with
  | none => utf8 tenantId.toList
  | some context =>
    let length := min (utf8 tenantId.toList).length (2 ^ 32 - 1)
    toBeBytes length ++ (utf8 tenantId.toList ++ utf8 context.toList)

section Binding

variable {tenantId tenantId' : String} {context context' : Option String}

/-- Texts run into one another: two tenants of 4 GiB and their contexts, or a tenant that starts with the length of
another, of 16 MiB at least, and goes on with it and its context. -/
def RunsInto (tenantId tenantId' : String) : Option String → Option String → Prop
  | none, none => False
  | some context, some context' => 2 ^ 32 - 1 ≤ (utf8 tenantId.toList).length ∧
      2 ^ 32 - 1 ≤ (utf8 tenantId'.toList).length ∧
        tenantId.toList ++ context.toList = tenantId'.toList ++ context'.toList
  | none, some context' => 2 ^ 24 ≤ (utf8 tenantId'.toList).length ∧
      utf8 tenantId.toList = toBeBytes (min (utf8 tenantId'.toList).length (2 ^ 32 - 1)) ++
        utf8 (tenantId'.toList ++ context'.toList)
  | some context, none => 2 ^ 24 ≤ (utf8 tenantId.toList).length ∧
      utf8 tenantId'.toList = toBeBytes (min (utf8 tenantId.toList).length (2 ^ 32 - 1)) ++
        utf8 (tenantId.toList ++ context.toList)

theorem toBeBytes_inj {m n : Nat} (hm : m < 2 ^ 32) (hn : n < 2 ^ 32) (same : toBeBytes m = toBeBytes n) : m = n := by
  have value : ∀ {a b : Nat}, UInt8.ofNat a = UInt8.ofNat b → a % 256 = b % 256 := fun h => congrArg UInt8.toNat h
  simp only [toBeBytes, List.cons.injEq, and_true] at same
  obtain ⟨first, second, third, fourth⟩ := same
  have first := value first
  have second := value second
  have third := value third
  have fourth := value fourth
  omega

/-- A text without a NUL that starts with a length. -/
theorem length_of_binding (plain : '\x00' ∉ tenantId.toList) {n : Nat} {rest : Octets}
    (same : utf8 tenantId.toList = toBeBytes n ++ rest) : 2 ^ 24 ≤ n := by
  by_contra short
  have zero : UInt8.ofNat (n / 2 ^ 24) = 0 := by
    rw [Nat.div_eq_of_lt (Nat.not_le.mp short)]
    rfl
  apply plain
  apply nul_mem
  rw [same, toBeBytes, zero]
  exact List.mem_cons_self

theorem binding_eq_iff (different : (tenantId, context) ≠ (tenantId', context')) (plain : '\x00' ∉ tenantId.toList)
    (plain' : '\x00' ∉ tenantId'.toList) :
    binding tenantId context = binding tenantId' context' ↔ RunsInto tenantId tenantId' context context' := by
  have clamped : ∀ n, min n (2 ^ 32 - 1) < 2 ^ 32 := fun n => by omega
  cases context with
  | none =>
    cases context' with
    | none =>
      refine ⟨fun same => different ?_, False.elim⟩
      rw [String.toList_inj.mp (utf8_injective same)]
    | some context' =>
      simp only [binding, RunsInto, utf8_append]
      refine ⟨fun same => ⟨?_, same⟩, And.right⟩
      have long := length_of_binding plain same
      omega
  | some context =>
    cases context' with
    | none =>
      simp only [binding, RunsInto, utf8_append]
      refine ⟨fun same => ⟨?_, same.symm⟩, fun runs => runs.2.symm⟩
      have long := length_of_binding plain' same.symm
      omega
    | some context' =>
      simp only [binding, RunsInto]
      constructor
      · intro same
        obtain ⟨lengths, rest⟩ := List.append_inj same rfl
        have counts := toBeBytes_inj (clamped _) (clamped _) lengths
        have unequal : (utf8 tenantId.toList).length ≠ (utf8 tenantId'.toList).length := by
          intro equal
          obtain ⟨tenants, contexts⟩ := List.append_inj rest equal
          apply different
          rw [String.toList_inj.mp (utf8_injective tenants), String.toList_inj.mp (utf8_injective contexts)]
        rw [← utf8_append, ← utf8_append] at rest
        exact ⟨by omega, by omega, utf8_injective rest⟩
      · rintro ⟨long, long', same⟩
        rw [Nat.min_eq_right long, Nat.min_eq_right long', ← utf8_append, ← utf8_append, same]

end Binding

end AsceticDdd.Kms
