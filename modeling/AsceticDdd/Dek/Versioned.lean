import AsceticDdd.Kms.Cipher

/-!
# Ciphers that carry the key version along

What a version of a resource's key seals starts with the version, and it alone opens it. A keyring holds every version
and opens with the one that is named.
-/

namespace AsceticDdd.Dek.Bound

open Crypto Kms Text

inductive Algorithm
  | aes256Gcm
deriving DecidableEq

inductive KmsError
  | refused (error : Kms.Error)
  | cipher (error : CipherError)
  | unsupportedAlgorithm (name : String)
deriving DecidableEq

namespace Algorithm

def asStr : Algorithm → String
  | aes256Gcm => "AES-256-GCM"

def fromStr (name : String) : Except KmsError Algorithm :=
  if name = "AES-256-GCM" then .ok aes256Gcm else .error (.unsupportedAlgorithm name)

def cipher (algorithm : Algorithm) (key aad : Octets) : Except KmsError Aes256Gcm :=
  match algorithm with
  | aes256Gcm => (Aes256Gcm.new key aad).mapError .cipher

end Algorithm

def versionSize : Nat := 4

/-- `version || sealed` -/
def stamp (version : UInt32) (sealed : Octets) : Octets := toBeBytes version.toNat ++ sealed

def fromBeBytes (bytes : Octets) : Nat := bytes.foldl (fun value byte => 256 * value + byte.toNat) 0

def read (bytes : Octets) : Except KmsError (UInt32 × Octets) :=
  if bytes.length < versionSize then
    .error (.refused (.malformed (toString bytes.length ++ " bytes cannot be versioned: the version alone is " ++
      toString versionSize)))
  else .ok (UInt32.ofNat (fromBeBytes (bytes.take versionSize)), bytes.drop versionSize)

structure VersionedCipher where
  version : UInt32
  cipher : Aes256Gcm

/-- Every version of a resource's key, the newest apart. -/
structure Keyring where
  newest : VersionedCipher
  older : List (UInt32 × Aes256Gcm)

section Sealing

variable (aead : AesGcm)

namespace VersionedCipher

def encrypt (c : VersionedCipher) (nonce : Nonce) (plaintext : Octets) : Except KmsError Octets :=
  ((c.cipher.encrypt aead nonce plaintext).map (stamp c.version)).mapError .cipher

def decrypt (c : VersionedCipher) (sealed : Octets) : Except KmsError Octets :=
  match read sealed with
  | .error error => .error error
  | .ok (version, sealed) =>
    if version ≠ c.version then .error (.cipher (.wrongKeyVersion c.version.toNat version.toNat))
    else (c.cipher.decrypt aead sealed).mapError .cipher

end VersionedCipher

namespace Keyring

def new (version : UInt32) (cipher : Aes256Gcm) : Keyring := ⟨⟨version, cipher⟩, []⟩

/-- `BTreeMap::insert` -/
def insert (older : List (UInt32 × Aes256Gcm)) (version : UInt32) (cipher : Aes256Gcm) : List (UInt32 × Aes256Gcm) :=
  (version, cipher) :: older.filter (·.1 ≠ version)

def withVersion (ring : Keyring) (version : UInt32) (cipher : Aes256Gcm) : Keyring :=
  if ring.newest.version ≤ version then
    { newest := ⟨version, cipher⟩
      older := if ring.newest.version < version then insert ring.older ring.newest.version ring.newest.cipher
        else ring.older }
  else { ring with older := insert ring.older version cipher }

def encrypt (ring : Keyring) (nonce : Nonce) (plaintext : Octets) : Except KmsError Octets :=
  ring.newest.encrypt aead nonce plaintext

def decrypt (ring : Keyring) (sealed : Octets) : Except KmsError Octets :=
  match read sealed with
  | .error error => .error error
  | .ok (version, rest) =>
    if version = ring.newest.version then (ring.newest.cipher.decrypt aead rest).mapError .cipher
    else
      match ring.older.lookup version with
      | none => .error (.refused (.noKeyOfVersion version.toNat))
      | some cipher => (cipher.decrypt aead rest).mapError .cipher

end Keyring

variable {aead} {c c' : VersionedCipher} {nonce : Nonce} {plaintext sealed : Octets} {ring : Keyring} {aad : Octets}

theorem fromBeBytes_toBeBytes {n : Nat} (small : n < 2 ^ 32) : fromBeBytes (toBeBytes n) = n := by
  have value : ∀ m, (UInt8.ofNat m).toNat = m % 256 := fun _ => rfl
  simp only [fromBeBytes, toBeBytes, List.foldl_cons, List.foldl_nil, value]
  omega

theorem read_stamp (version : UInt32) (sealed : Octets) : read (stamp version sealed) = .ok (version, sealed) := by
  have size : (toBeBytes version.toNat).length = versionSize := rfl
  rw [read, stamp, if_neg (by rw [List.length_append, size]; omega), List.take_left' size, List.drop_left' size,
    fromBeBytes_toBeBytes version.toNat_lt, UInt32.ofNat_toNat]

theorem encrypt_eq_ok (h : c.encrypt aead nonce plaintext = .ok sealed) :
    ∃ body, c.cipher.encrypt aead nonce plaintext = .ok body ∧ sealed = stamp c.version body := by
  unfold VersionedCipher.encrypt at h
  cases hbody : c.cipher.encrypt aead nonce plaintext with
  | ok body =>
    rw [hbody] at h
    exact ⟨body, rfl, (Except.ok.inj h).symm⟩
  | error error =>
    rw [hbody] at h
    cases h

/-- What a version sealed it opens. -/
theorem opens (h : c.encrypt aead nonce plaintext = .ok sealed) : c.decrypt aead sealed = .ok plaintext := by
  obtain ⟨body, hbody, rfl⟩ := encrypt_eq_ok h
  rw [VersionedCipher.decrypt, read_stamp]
  show (if c.version ≠ c.version then _ else _) = _
  rw [if_neg (not_not_intro rfl), Aes256Gcm.decrypt_eq hbody, if_pos ⟨rfl, rfl⟩]
  rfl

/-- A cipher bound to other data never opens it. -/
theorem refuses (h : c.encrypt aead nonce plaintext = .ok sealed) {cipher : Aes256Gcm}
    (other : c.cipher.aad ≠ cipher.aad) {rest : Octets} {version : UInt32} (hread : read sealed = .ok (version, rest)) (opened : Octets) :
    (cipher.decrypt aead rest).mapError KmsError.cipher ≠ .ok opened := by
  obtain ⟨body, hbody, rfl⟩ := encrypt_eq_ok h
  rw [read_stamp] at hread
  obtain ⟨rfl, rfl⟩ := Prod.mk.inj (Except.ok.inj hread)
  rw [Aes256Gcm.decrypt_eq hbody, if_neg fun same => other same.2]
  rintro ⟨⟩

theorem never_opens (h : c.encrypt aead nonce plaintext = .ok sealed) (other : c.cipher.aad ≠ c'.cipher.aad)
    (opened : Octets) : c'.decrypt aead sealed ≠ .ok opened := by
  unfold VersionedCipher.decrypt
  split
  · rintro ⟨⟩
  · split
    · rintro ⟨⟩
    · exact refuses h other ‹_› opened

namespace Keyring

/-- Its ciphers are bound to the data. -/
def BoundTo (ring : Keyring) (aad : Octets) : Prop :=
  ring.newest.cipher.aad = aad ∧ ∀ entry ∈ ring.older, entry.2.aad = aad

theorem boundTo_new {version : UInt32} {cipher : Aes256Gcm} (bound : cipher.aad = aad) :
    (new version cipher).BoundTo aad :=
  ⟨bound, List.forall_mem_nil _⟩

theorem BoundTo.withVersion (h : ring.BoundTo aad) {version : UInt32} {cipher : Aes256Gcm} (bound : cipher.aad = aad) :
    (ring.withVersion version cipher).BoundTo aad := by
  have inserted : ∀ {version cipher}, cipher.aad = aad →
      ∀ entry ∈ insert ring.older version cipher, entry.2.aad = aad := by
    intro version cipher bound entry hentry
    obtain rfl | hentry := List.mem_cons.mp hentry
    · exact bound
    · exact h.2 entry (List.mem_of_mem_filter hentry)
  unfold Keyring.withVersion
  split
  · refine ⟨bound, ?_⟩
    show ∀ entry ∈ ite _ _ _, _
    split
    · exact inserted h.1
    · exact h.2
  · exact ⟨h.1, inserted bound⟩

theorem never_opens (h : c.encrypt aead nonce plaintext = .ok sealed) (bound : ring.BoundTo aad)
    (other : c.cipher.aad ≠ aad) (opened : Octets) : ring.decrypt aead sealed ≠ .ok opened := by
  unfold decrypt
  split
  · rintro ⟨⟩
  · split
    · exact refuses h (bound.1 ▸ other) ‹_› opened
    · split
      · rintro ⟨⟩
      · obtain ⟨before, after, holder, _⟩ := List.lookup_eq_some_iff.mp ‹_›
        exact refuses h (bound.2 _ (holder ▸ List.mem_append_cons_self) ▸ other) ‹_› opened

end Keyring

end Sealing

end AsceticDdd.Dek.Bound
