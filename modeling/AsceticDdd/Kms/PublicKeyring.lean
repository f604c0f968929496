import AsceticDdd.Control.Except
import AsceticDdd.Crypto.Signatures
import AsceticDdd.Kms.Kek
import Mathlib.Data.List.Sort

/-!
# Signatures and the keys that verify them

A keyring holds the public halves of versions of a key, oldest first. It is never empty, is of one algorithm, names a
version once and counts from one.
-/

namespace AsceticDdd.Kms

open Control Crypto

structure Signature where
  algorithm : SignatureAlgorithm
  keyVersion : Nat
  bytes : Octets

structure PublicKey where
  algorithm : SignatureAlgorithm
  bytes : Octets
deriving DecidableEq

/-- The signatures of each algorithm. -/
abbrev Schemes := SignatureAlgorithm → Signatures

def notPublicKey (algorithm : SignatureAlgorithm) (bytes : Octets) : Failure :=
  .refused (.malformed (match algorithm with
    | .ed25519 =>
      if bytes.length = 32 then "not an Ed25519 public key" else "an Ed25519 public key is thirty-two bytes"
    | .ecdsaP256 => "not a P-256 public key"))

def notPrivateKey (algorithm : SignatureAlgorithm) : Failure :=
  .refused (.malformed (match algorithm with
    | .ed25519 => "an Ed25519 private key is thirty-two bytes"
    | .ecdsaP256 => "a P-256 private key is a scalar of the field"))

section Keys

variable (schemes : Schemes)

namespace PublicKey

def new (algorithm : SignatureAlgorithm) (bytes : Octets) : Except Failure PublicKey :=
  match (schemes algorithm).parse bytes with
  | some bytes => .ok ⟨algorithm, bytes⟩
  | none => .error (notPublicKey algorithm bytes)

def verify (key : PublicKey) (message : Octets) (signature : Signature) : Except Failure Unit :=
  if signature.algorithm ≠ key.algorithm then .error .invalidSignature
  else if ¬(schemes key.algorithm).isSignature signature.bytes then .error .invalidSignature
  else
    match (schemes key.algorithm).parse key.bytes with
    | none => .error (notPublicKey key.algorithm key.bytes)
    | some publicHalf =>
      if (schemes key.algorithm).verifies publicHalf message signature.bytes then .ok () else .error .invalidSignature

end PublicKey

/-- One version of a tenant's signing key. -/
structure SigningKey where
  tenantId : String
  algorithm : SignatureAlgorithm
  version : Nat
  privateHalf : Octets
  publicHalf : Octets
  derived : (schemes algorithm).publicOf privateHalf = some publicHalf

namespace SigningKey

variable {schemes}

def load (tenantId : String) (algorithm : SignatureAlgorithm) (version : Nat) (privateHalf : Octets) :
    Except Failure (SigningKey schemes) :=
  match h : (schemes algorithm).publicOf privateHalf with
  | some publicHalf => .ok ⟨tenantId, algorithm, version, privateHalf, publicHalf, h⟩
  | none => .error (notPrivateKey algorithm)

variable (key : SigningKey schemes)

def publicKey : PublicKey := ⟨key.algorithm, key.publicHalf⟩

def name : String := key.algorithm.nameOf key.tenantId

def sign (message : Octets) : Signature :=
  ⟨key.algorithm, key.version, (schemes key.algorithm).sign key.privateHalf message⟩

/-- What a key signed its public half verifies. -/
theorem verify_sign (message : Octets) : key.publicKey.verify schemes message (key.sign message) = .ok () := by
  obtain ⟨formed, verifies⟩ := (schemes key.algorithm).signs message key.derived
  have parsed := (schemes key.algorithm).derived key.derived
  simp only [PublicKey.verify, sign, publicKey, ne_eq, not_true_eq_false, if_false, formed, parsed, verifies, if_true]

end SigningKey

end Keys

/-- The public halves of the versions that verify. -/
structure PublicKeyring where
  algorithm : SignatureAlgorithm
  keys : List (Nat × PublicKey)
  nonempty : keys ≠ []
  ordered : keys.Pairwise fun a b => a.1 < b.1
  counted : ∀ entry ∈ keys, entry.1 ≠ 0 ∧ entry.2.algorithm = algorithm

namespace PublicKeyring

/-- `BTreeMap::insert` of a version that is not there. -/
def enter (entry : Nat × PublicKey) (ring : List (Nat × PublicKey)) : List (Nat × PublicKey) :=
  ring.orderedInsert (fun a b => a.1 ≤ b.1) entry

/-- A keyring with one more version, checked. -/
def insert (algorithm : SignatureAlgorithm) (ring : List (Nat × PublicKey)) (entry : Nat × PublicKey) :
    Except Failure (List (Nat × PublicKey)) :=
  if entry.1 = 0 then .error (.refused (.malformed "a keyring's versions count from one"))
  else if entry.2.algorithm ≠ algorithm then
    .error (.refused (.malformed ("version " ++ toString entry.1 ++ " is a " ++ entry.2.algorithm.asStr ++
      " key in a " ++ algorithm.asStr ++ " keyring")))
  else if entry.1 ∈ ring.map Prod.fst then
    .error (.refused (.malformed ("version " ++ toString entry.1 ++ " is named twice in a keyring")))
  else .ok (enter entry ring)

/-- A keyring but for its being empty. -/
def Checked (algorithm : SignatureAlgorithm) (ring : List (Nat × PublicKey)) : Prop :=
  (ring.Pairwise fun a b => a.1 < b.1) ∧ ∀ entry ∈ ring, entry.1 ≠ 0 ∧ entry.2.algorithm = algorithm

variable {algorithm : SignatureAlgorithm} {ring ring' : List (Nat × PublicKey)} {entry : Nat × PublicKey}

theorem insert_eq_ok : insert algorithm ring entry = .ok ring' ↔ (entry.1 ≠ 0 ∧ entry.2.algorithm = algorithm) ∧
    entry.1 ∉ ring.map Prod.fst ∧ enter entry ring = ring' := by
  unfold insert
  split
  · rename_i zero
    refine ⟨?_, fun h => absurd zero h.1.1⟩
    rintro ⟨⟩
  split
  · rename_i other
    refine ⟨?_, fun h => absurd h.1.2 other⟩
    rintro ⟨⟩
  split
  · rename_i twice
    refine ⟨?_, fun h => absurd twice h.2.1⟩
    rintro ⟨⟩
  · rename_i zero same new
    exact ⟨fun h => ⟨⟨zero, not_not.mp same⟩, new, Except.ok.inj h⟩, fun h => congrArg _ h.2.2⟩

theorem mem_enter {other : Nat × PublicKey} : other ∈ enter entry ring ↔ other = entry ∨ other ∈ ring := by
  unfold enter
  exact List.mem_orderedInsert _

theorem pairwise_enter (ordered : ring.Pairwise fun a b => a.1 < b.1) (new : entry.1 ∉ ring.map Prod.fst) :
    (enter entry ring).Pairwise fun a b => a.1 < b.1 := by
  induction ring with
  | nil => exact List.pairwise_singleton _ _
  | cons head ring ih =>
    obtain ⟨first, rest⟩ := List.pairwise_cons.mp ordered
    obtain ⟨other, new⟩ := not_or.mp (List.mem_cons.not.mp new)
    unfold enter
    rw [List.orderedInsert_cons]
    split
    · rename_i le
      have lt := Nat.lt_of_le_of_ne le other
      refine List.pairwise_cons.mpr ⟨?_, ordered⟩
      intro later mem
      obtain rfl | mem := List.mem_cons.mp mem
      · exact lt
      · exact lt.trans (first later mem)
    · rename_i gt
      refine List.pairwise_cons.mpr ⟨?_, ih rest new⟩
      intro later mem
      obtain rfl | mem := mem_enter.mp mem
      · exact Nat.lt_of_not_le gt
      · exact first later mem

theorem Checked.step (checked : Checked algorithm ring) (h : insert algorithm ring entry = .ok ring') :
    Checked algorithm ring' := by
  obtain ⟨sound, new, rfl⟩ := insert_eq_ok.mp h
  refine ⟨pairwise_enter checked.1 new, ?_⟩
  intro other mem
  obtain rfl | mem := mem_enter.mp mem
  · exact sound
  · exact checked.2 other mem

theorem checked_fold {keys : List (Nat × PublicKey)} (h : keys.foldlM (insert algorithm) [] = .ok ring) :
    Checked algorithm ring :=
  foldlM_invariant (P := Checked algorithm) (fun _ _ _ checked inserted => checked.step inserted) h
    ⟨List.Pairwise.nil, List.forall_mem_nil _⟩

def new (algorithm : SignatureAlgorithm) (keys : List (Nat × PublicKey)) : Except Failure PublicKeyring :=
  match h : keys.foldlM (insert algorithm) [] with
  | .error error => .error error
  | .ok ring =>
    if empty : ring = [] then .error (.refused (.malformed "a keyring has at least one version that verifies"))
    else .ok ⟨algorithm, ring, empty, (checked_fold h).1, (checked_fold h).2⟩

/-- The public half of a version, if it verifies. -/
def get (ring : PublicKeyring) (version : Nat) : Option PublicKey := ring.keys.lookup version

theorem get_eq_some {ring : PublicKeyring} {version : Nat} {key : PublicKey} :
    ring.get version = some key ↔ (version, key) ∈ ring.keys := by
  rw [get, List.lookup_eq_some_iff]
  constructor
  · rintro ⟨before, rest, whole, _⟩
    rw [whole]
    exact List.mem_append_cons_self
  · intro mem
    obtain ⟨before, rest, whole⟩ := List.append_of_mem mem
    refine ⟨before, rest, whole, ?_⟩
    intro entry first
    have lt := (List.pairwise_append.mp (whole ▸ ring.ordered)).2.2 entry first (version, key) List.mem_cons_self
    exact bne_iff_ne.mpr (Nat.ne_of_gt lt)

theorem mem_of_fold {keys : List (Nat × PublicKey)} (h : keys.foldlM (insert algorithm) ring = .ok ring') :
    ∀ other, other ∈ ring' ↔ other ∈ ring ∨ other ∈ keys := by
  induction keys generalizing ring with
  | nil =>
    cases h
    exact fun other => (or_iff_left List.not_mem_nil).symm
  | cons entry keys ih =>
    rw [List.foldlM_cons] at h
    obtain ⟨next, hnext, h⟩ := bind_eq_ok.mp h
    obtain ⟨_, _, rfl⟩ := insert_eq_ok.mp hnext
    intro other
    rw [ih h, mem_enter, List.mem_cons, or_comm (a := other = entry), or_assoc]

/-- The versions of a keyring and their public halves are those it was made of. -/
theorem mem_of_new {keys : List (Nat × PublicKey)} {made : PublicKeyring} (h : new algorithm keys = .ok made) :
    ∀ entry, entry ∈ made.keys ↔ entry ∈ keys := by
  unfold new at h
  split at h
  · cases h
  · split at h
    · cases h
    · cases h
      intro entry
      exact (mem_of_fold ‹_› entry).trans (or_iff_right List.not_mem_nil)

theorem fold_ok {keys : List (Nat × PublicKey)} (counted : ∀ entry ∈ keys, entry.1 ≠ 0 ∧ entry.2.algorithm = algorithm)
    (distinct : (keys.map Prod.fst).Nodup) (new : ∀ entry ∈ keys, entry.1 ∉ ring.map Prod.fst) :
    ∃ ring', keys.foldlM (insert algorithm) ring = .ok ring' := by
  induction keys generalizing ring with
  | nil => exact ⟨ring, rfl⟩
  | cons entry keys ih =>
    obtain ⟨first, distinct⟩ := List.nodup_cons.mp distinct
    have entered := insert_eq_ok.mpr ⟨counted entry List.mem_cons_self, new entry List.mem_cons_self, rfl⟩
    rw [List.foldlM_cons, entered, ok_bind]
    refine ih (fun other mem => counted other (List.mem_cons_of_mem _ mem)) distinct ?_
    intro other mem there
    obtain ⟨twin, htwin, same⟩ := List.mem_map.mp there
    obtain rfl | htwin := mem_enter.mp htwin
    · exact first (same ▸ List.mem_map_of_mem mem)
    · exact new other (List.mem_cons_of_mem _ mem) (same ▸ List.mem_map_of_mem htwin)

/-- Versions are a keyring if there is one, none is zero or named twice, and the keys are of the algorithm. -/
theorem new_ok {keys : List (Nat × PublicKey)} (counted : ∀ entry ∈ keys, entry.1 ≠ 0 ∧ entry.2.algorithm = algorithm)
    (distinct : (keys.map Prod.fst).Nodup) (some : keys ≠ []) : ∃ made, new algorithm keys = .ok made := by
  obtain ⟨ring, folded⟩ : ∃ ring, keys.foldlM (insert algorithm) [] = .ok ring :=
    fold_ok counted distinct fun _ _ => List.not_mem_nil
  have full : ring ≠ [] := by
    obtain ⟨entry, mem⟩ := List.exists_mem_of_ne_nil keys some
    exact List.ne_nil_of_mem ((mem_of_fold folded entry).mpr (Or.inr mem))
  unfold new
  split
  · rename_i error failed
    rw [folded] at failed
    cases failed
  · rename_i made done
    rw [folded] at done
    obtain rfl := Except.ok.inj done
    rw [dif_neg full]
    exact ⟨_, rfl⟩

end PublicKeyring

end AsceticDdd.Kms
