import AsceticDdd.Control.Except
import AsceticDdd.Dek.Canonical
import AsceticDdd.Dek.Versioned
import Mathlib.Data.List.Sort

/-!
# One resource, one key, one binding

A resource's rows are found by equality of `jsonb`, and its ciphers are bound to its canonical text. The two agree on
two resources unless the ids hold equal numbers that are written apart.
-/

namespace AsceticDdd.Dek.Bound

open Canonical Crypto Kms Postgres Text

variable {F : Type} [Floats F]

structure Resource (F : Type) where
  tenantId : String
  kind : String
  id : Json (Number F)
  distinct : id.Distinct

namespace Resource

variable (r r' : Resource F)

def canonical : String := json (.array [.string r.tenantId, .string r.kind, r.id])

/-- The id as the column holds it. -/
def resourceId : Json Numeric := (r.id.map Number.numeral).jsonb

/-- The table takes the two for one. -/
def SameRow : Prop := r.tenantId = r'.tenantId ∧ r.kind = r'.kind ∧ Json.Same r.resourceId r'.resourceId

instance : Decidable (SameRow r r') := inferInstanceAs (Decidable (_ ∧ _ ∧ _))

end Resource

/-- Both are integers or both are not, and neither is a zero with a sign that the other has not. -/
def Alike : Number F → Number F → Prop
  | .int _ _, .int _ _ => True
  | .float x, .float y => (Floats.numeral x).negative = (Floats.numeral y).negative
  | _, _ => False

instance : DecidableRel (Alike (F := F)) := fun x y => by
  unfold Alike
  split <;> infer_instance

/-- Where one has a number the other has one that is written alike. -/
def Resource.Alike (r r' : Resource F) : Prop :=
  Json.Related Bound.Alike (r.id.ordered (· ≤ ·)) (r'.id.ordered (· ≤ ·))

instance (r r' : Resource F) : Decidable (r.Alike r') := inferInstanceAs (Decidable (Json.Related _ _ _))

/-! ## The store -/

inductive Error (F : Type)
  | dekNotFound (resource : Resource F) (version : Option UInt32)
  | kms (error : KmsError)
  | malformed (detail : String)

/-- A row of the table. -/
structure Row where
  tenantId : String
  kind : String
  resourceId : Json Numeric
  version : Int
  encryptedDek : Octets
  algorithm : String

structure Stored where
  version : UInt32
  encryptedDek : Octets
  algorithm : Algorithm

/-- The key management service, as a store sees it in one call. -/
structure KeyManagementService where
  generateDek : (tenantId : String) → Except KmsError (Octets × Octets)
  decryptDek : (tenantId : String) → Octets → Except KmsError Octets

structure PgDekStore where
  kms : KeyManagementService
  table : String
  algorithm : Algorithm
  hashtext : String → BitVec 32

/-- The arguments of `pg_advisory_xact_lock`. -/
abbrev Lock := BitVec 32 × BitVec 32

def storedVersion (version : UInt32) : Except (Error F) Int :=
  if version.toNat < 2 ^ 31 then .ok version.toNat
  else .error (.malformed ("DEK version " ++ toString version.toNat ++ " does not fit the column"))

def readVersion (stored : Int) : Except (Error F) UInt32 :=
  if 0 ≤ stored then .ok (UInt32.ofNat stored.toNat)
  else .error (.malformed ("DEK version " ++ toString stored ++ " is not a count"))

def Stored.read (row : Row) : Except (Error F) Stored := do
  let version ← readVersion row.version
  let algorithm ← (Algorithm.fromStr row.algorithm).mapError .kms
  return ⟨version, row.encryptedDek, algorithm⟩

/-- The rows of a resource: `tenant_id = $1 AND kind = $2 AND resource_id = $3`. -/
def rowsOf (rows : List Row) (r : Resource F) : List Row :=
  rows.filter fun row => row.tenantId = r.tenantId ∧ row.kind = r.kind ∧ Json.Same row.resourceId r.resourceId

namespace PgDekStore

/-- Bound to the resource as associated data. -/
def cipher (dek : Octets) (r : Resource F) (version : UInt32) (algorithm : Algorithm) :
    Except (Error F) VersionedCipher := do
  let cipher ← (algorithm.cipher dek (utf8 r.canonical.toList)).mapError .kms
  return ⟨version, cipher⟩

variable (o : PgDekStore) (rows : List Row) (r : Resource F)

def lockResource : Lock := (o.hashtext o.table, o.hashtext r.canonical)

def latest : Except (Error F) (Option Stored) :=
  match ((rowsOf rows r).insertionSort (·.version ≥ ·.version)).head? with
  | some row => (Stored.read row).map some
  | none => .ok none

def insert (version : UInt32) (encryptedDek : Octets) : Except (Error F) (List Row) := do
  let version ← storedVersion version
  return rows ++ [⟨r.tenantId, r.kind, r.resourceId, version, encryptedDek, o.algorithm.asStr⟩]

def unwrap (stored : Stored) : Except (Error F) VersionedCipher := do
  let dek ← (o.kms.decryptDek r.tenantId stored.encryptedDek).mapError .kms
  cipher dek r stored.version stored.algorithm

/-- The lock that is taken, and the answer with the rows left: `locked` is what the table holds once it is. -/
def getOrCreate (locked : List Row) : Option Lock × Except (Error F) (VersionedCipher × List Row) :=
  match latest rows r with
  | .error error => (none, .error error)
  | .ok (some stored) => (none, (o.unwrap r stored).map fun cipher => (cipher, rows))
  | .ok none => (some (o.lockResource r), do
      match ← latest locked r with
      | some stored => return (← o.unwrap r stored, locked)
      | none =>
        let (dek, encryptedDek) ← (o.kms.generateDek r.tenantId).mapError .kms
        let rows ← o.insert locked r 1 encryptedDek
        return (← cipher dek r 1 o.algorithm, rows))

def get (version : UInt32) : Except (Error F) VersionedCipher := do
  let stored ← storedVersion version
  match (rowsOf rows r).find? (·.version = stored) with
  | some row => o.unwrap r (← Stored.read row)
  | none => .error (.dekNotFound r (some version))

/-- A row's cipher added to those of the rows before it. -/
def addTo (keyring : Option Keyring) (row : Row) : Except (Error F) (Option Keyring) := do
  let stored ← Stored.read row
  let cipher ← o.unwrap r stored
  return some (match keyring with
    | none => .new cipher.version cipher.cipher
    | some keyring => keyring.withVersion cipher.version cipher.cipher)

def getAll : Except (Error F) Keyring := do
  match ← ((rowsOf rows r).insertionSort (·.version ≤ ·.version)).foldlM (o.addTo r) none with
  | some keyring => return keyring
  | none => .error (.dekNotFound r none)

end PgDekStore

/-! ## A text says the row, and the numbers as they are written -/

variable {r r' : Resource F}

theorem numeric_int {value : Int} (fits) : (Number.int (F := F) value fits).numeral.numeric = ⟨value, 0⟩ := by
  show Numeric.mk
    (if decide (value < 0) = true then -((value.natAbs * 1 : Nat) : Int) else (value.natAbs * 1 : Nat)) 0 = _
  rw [Nat.mul_one]
  apply congrArg (Numeric.mk · 0)
  split
  · have negative := of_decide_eq_true ‹_›
    omega
  · have positive := of_decide_eq_false (Bool.eq_false_of_not_eq_true ‹_›)
    omega

/-- Numbers are one when the server takes them for equal and they are written alike. -/
theorem number_eq_iff {x y : Number F} :
    x = y ↔ Numeric.Same x.numeral.numeric y.numeral.numeric ∧ Alike x y := by
  constructor
  · rintro rfl
    cases x <;> exact ⟨rfl, by constructor⟩
  · rintro ⟨same, alike⟩
    cases x with
    | int value fits =>
      cases y with
      | int value' fits' =>
        rw [numeric_int, numeric_int, Numeric.Same] at same
        have values : value = value' := by simpa using same
        cases values
        rfl
      | float value' => exact alike.elim
    | float value =>
      cases y with
      | int value' fits' => exact alike.elim
      | float value' => exact congrArg Number.float (Floats.apart same alike)

theorem Resource.sameRow_iff : r.SameRow r' ↔ r.tenantId = r'.tenantId ∧ r.kind = r'.kind ∧
    Json.Related (fun x y : Number F => Numeric.Same x.numeral.numeric y.numeral.numeric) (r.id.ordered (· ≤ ·))
      (r'.id.ordered (· ≤ ·)) := by
  rw [SameRow, resourceId, resourceId, Json.jsonb_eq, Json.jsonb_eq, Json.ordered_map, Json.ordered_map, Json.Same,
    Json.related_map, Json.related_map]
  exact and_congr Iff.rfl (and_congr Iff.rfl (Json.related_ordered_iff r.distinct r'.distinct))

theorem Resource.canonical_eq_iff_ordered : r.canonical = r'.canonical ↔
    r.tenantId = r'.tenantId ∧ r.kind = r'.kind ∧ r.id.ordered (· ≤ ·) = r'.id.ordered (· ≤ ·) := by
  rw [canonical, canonical, json_eq_iff]
  simp [Json.ordered, Json.orderedElements]

/-- Two resources have one text when the table takes them for one and their numbers are written alike. -/
theorem Resource.canonical_eq_iff : r.canonical = r'.canonical ↔ r.SameRow r' ∧ r.Alike r' := by
  rw [canonical_eq_iff_ordered, sameRow_iff, Resource.Alike]
  constructor
  · rintro ⟨tenants, kinds, ids⟩
    rw [ids]
    have own : ∀ x : Number F, Numeric.Same x.numeral.numeric x.numeral.numeric ∧ Bound.Alike x x := by
      intro x
      exact number_eq_iff.mp rfl
    exact ⟨⟨tenants, kinds, Json.related_refl (fun x => (own x).1) _⟩, Json.related_refl (fun x => (own x).2) _⟩
  · rintro ⟨⟨tenants, kinds, same⟩, alike⟩
    exact ⟨tenants, kinds, Json.eq_of_related (fun _ _ => number_eq_iff.mpr) (same.and alike)⟩

/-! ## What resources share -/

/-- A cipher the store answers for a resource. -/
inductive PgDekStore.Answers (o : PgDekStore) (rows : List Row) (r : Resource F) : VersionedCipher → Prop
  | created {locked left : List Row} {c : VersionedCipher} (h : (o.getOrCreate rows r locked).2 = .ok (c, left)) :
    Answers o rows r c
  | got {version : UInt32} {c : VersionedCipher} (h : o.get rows r version = .ok c) : Answers o rows r c

/-- The two take one lock whatever it is the hash of, have every version of the key in common, and open each other's
ciphertexts. -/
structure Shared (r r' : Resource F) : Prop where
  lock : ∀ o : PgDekStore, o.lockResource r = o.lockResource r'
  rows : ∀ rows, rowsOf rows r = rowsOf rows r'
  created : ∀ (o : PgDekStore) rows locked, o.getOrCreate rows r locked = o.getOrCreate rows r' locked
  got : ∀ (o : PgDekStore) rows version c, o.get rows r version = .ok c ↔ o.get rows r' version = .ok c
  gotAll : ∀ (o : PgDekStore) rows keyring, o.getAll rows r = .ok keyring ↔ o.getAll rows r' = .ok keyring
  opened : ∀ aead (o : PgDekStore) rows version c c' nonce plaintext sealed, o.get rows r version = .ok c →
    o.get rows r' version = .ok c' → c.encrypt aead nonce plaintext = .ok sealed →
      c'.decrypt aead sealed = .ok plaintext

/-- The two hash texts apart into their locks, have no row in common, and neither opens what the other sealed. -/
structure Apart (r r' : Resource F) : Prop where
  lock : ∃ o : PgDekStore, o.lockResource r ≠ o.lockResource r'
  rows : ∀ rows, ∀ row ∈ rowsOf rows r, row ∉ rowsOf rows r'
  closed : ∀ aead (o o' : PgDekStore) rows rows' c c' nonce plaintext sealed, o.Answers rows r c →
    o'.Answers rows' r' c' → c.encrypt aead nonce plaintext = .ok sealed → ∀ opened, c'.decrypt aead sealed ≠ .ok opened
  closedAll : ∀ aead (o o' : PgDekStore) rows rows' c keyring nonce plaintext sealed, o.Answers rows r c →
    o'.getAll rows' r' = .ok keyring → c.encrypt aead nonce plaintext = .ok sealed →
      ∀ opened, keyring.decrypt aead sealed ≠ .ok opened

/-- One text for one row, and what follows from it. -/
structure OneBinding (r r' : Resource F) : Prop where
  text : r.canonical = r'.canonical ↔ r.SameRow r'
  shared : r.SameRow r' → Shared r r'
  apart : ¬ r.SameRow r' → Apart r r'

section Same

variable (same : r.canonical = r'.canonical)

include same

theorem tenantId_eq : r.tenantId = r'.tenantId := (Resource.canonical_eq_iff_ordered.mp same).1

theorem resourceId_eq : r.resourceId = r'.resourceId := by
  have ids := (Resource.canonical_eq_iff_ordered.mp same).2.2
  have keys : r.id.ordered Json.KeyLe = r'.id.ordered Json.KeyLe := by
    rw [← Json.ordered_ordered (· ≤ ·) r.distinct, ids, Json.ordered_ordered (· ≤ ·) r'.distinct]
  rw [Resource.resourceId, Resource.resourceId, Json.jsonb_eq, Json.jsonb_eq, Json.ordered_map, Json.ordered_map, keys]

theorem rowsOf_eq (rows : List Row) : rowsOf rows r = rowsOf rows r' := by
  rw [rowsOf, rowsOf, tenantId_eq same, (Resource.canonical_eq_iff_ordered.mp same).2.1, resourceId_eq same]

theorem latest_eq (rows : List Row) : PgDekStore.latest rows r = PgDekStore.latest rows r' := by
  rw [PgDekStore.latest, PgDekStore.latest, rowsOf_eq same]

theorem cipher_eq (dek : Octets) (version : UInt32) (algorithm : Algorithm) :
    PgDekStore.cipher dek r version algorithm = PgDekStore.cipher dek r' version algorithm := by
  rw [PgDekStore.cipher, PgDekStore.cipher, same]

theorem unwrap_eq (o : PgDekStore) : o.unwrap r = o.unwrap r' := by
  funext stored
  simp only [PgDekStore.unwrap, tenantId_eq same, cipher_eq same]

theorem getOrCreate_eq (o : PgDekStore) (rows locked : List Row) :
    o.getOrCreate rows r locked = o.getOrCreate rows r' locked := by
  simp only [PgDekStore.getOrCreate, PgDekStore.insert, PgDekStore.lockResource, latest_eq same, unwrap_eq same,
    cipher_eq same, tenantId_eq same, resourceId_eq same, same, (Resource.canonical_eq_iff_ordered.mp same).2.1]

theorem get_eq (o : PgDekStore) (rows : List Row) (version : UInt32) (c : VersionedCipher) :
    o.get rows r version = .ok c ↔ o.get rows r' version = .ok c := by
  simp only [PgDekStore.get, rowsOf_eq same, unwrap_eq same]
  cases storedVersion (F := F) version with
  | error error => exact Iff.rfl
  | ok stored =>
    show (match (rowsOf rows r').find? (·.version = stored) with | some row => _ | none => _) = _ ↔
      (match (rowsOf rows r').find? (·.version = stored) with | some row => _ | none => _) = _
    cases (rowsOf rows r').find? (·.version = stored) with
    | some row => exact Iff.rfl
    | none => constructor <;> rintro ⟨⟩

theorem addTo_eq (o : PgDekStore) : o.addTo r = o.addTo r' := by
  funext keyring row
  simp only [PgDekStore.addTo, unwrap_eq same]

theorem getAll_eq (o : PgDekStore) (rows : List Row) (keyring : Keyring) :
    o.getAll rows r = .ok keyring ↔ o.getAll rows r' = .ok keyring := by
  simp only [PgDekStore.getAll, rowsOf_eq same, addTo_eq same]
  cases ((rowsOf rows r').insertionSort (·.version ≤ ·.version)).foldlM (o.addTo r') none with
  | error error => exact Iff.rfl
  | ok found =>
    cases found with
    | some keyring' => exact Iff.rfl
    | none => constructor <;> rintro ⟨⟩

theorem shared : Shared r r' where
  lock o := by rw [PgDekStore.lockResource, PgDekStore.lockResource, same]
  rows := rowsOf_eq same
  created o rows locked := getOrCreate_eq same o rows locked
  got := get_eq same
  gotAll := getAll_eq same
  opened aead o rows version c c' nonce plaintext sealed got got' sealing := by
    obtain rfl := Except.ok.inj (((get_eq same o rows version c).mp got).symm.trans got')
    exact opens sealing

end Same

section Answers

variable {o : PgDekStore} {rows : List Row} {c : VersionedCipher}

theorem aad_of_new {key aad : Octets} {cipher : Aes256Gcm} (h : Aes256Gcm.new key aad = .ok cipher) :
    cipher.aad = aad := by
  unfold Aes256Gcm.new at h
  split at h
  · rw [← Except.ok.inj h]
  · cases h

theorem aad_of_cipher {dek : Octets} {version : UInt32} {algorithm : Algorithm}
    (h : PgDekStore.cipher dek r version algorithm = .ok c) : c.cipher.aad = utf8 r.canonical.toList := by
  obtain ⟨cipher, hcipher, hc⟩ := Control.bind_eq_ok.mp h
  cases hc
  exact aad_of_new (Control.mapError_eq_ok.mp (Control.mapError_eq_ok.mp hcipher))

theorem aad_of_unwrap {stored : Stored} (h : o.unwrap r stored = .ok c) : c.cipher.aad = utf8 r.canonical.toList := by
  obtain ⟨dek, _, hcipher⟩ := Control.bind_eq_ok.mp h
  exact aad_of_cipher hcipher

theorem aad_of_getOrCreate {locked left : List Row} (h : (o.getOrCreate rows r locked).2 = .ok (c, left)) :
    c.cipher.aad = utf8 r.canonical.toList := by
  unfold PgDekStore.getOrCreate at h
  split at h
  · cases h
  · obtain ⟨cipher, hcipher, hc⟩ := Control.map_eq_ok.mp h
    cases hc
    exact aad_of_unwrap hcipher
  · obtain ⟨found, _, h⟩ := Control.bind_eq_ok.mp h
    cases found with
    | some stored =>
      obtain ⟨cipher, hcipher, hc⟩ := Control.bind_eq_ok.mp h
      cases hc
      exact aad_of_unwrap hcipher
    | none =>
      obtain ⟨made, _, h⟩ := Control.bind_eq_ok.mp h
      obtain ⟨rows, _, h⟩ := Control.bind_eq_ok.mp h
      obtain ⟨cipher, hcipher, hc⟩ := Control.bind_eq_ok.mp h
      cases hc
      exact aad_of_cipher hcipher

theorem aad_of_get {version : UInt32} (h : o.get rows r version = .ok c) : c.cipher.aad = utf8 r.canonical.toList := by
  obtain ⟨stored, _, h⟩ := Control.bind_eq_ok.mp h
  cases hrow : (rowsOf rows r).find? (·.version = stored) with
  | some row =>
    rw [hrow] at h
    obtain ⟨read, _, hunwrap⟩ := Control.bind_eq_ok.mp h
    exact aad_of_unwrap hunwrap
  | none =>
    rw [hrow] at h
    cases h

theorem PgDekStore.Answers.aad (h : o.Answers rows r c) : c.cipher.aad = utf8 r.canonical.toList := by
  cases h with
  | created h => exact aad_of_getOrCreate h
  | got h => exact aad_of_get h

/-- A keyring with no cipher but the resource's. -/
def AllBound (r : Resource F) (keyring : Option Keyring) : Prop :=
  ∀ ring, keyring = some ring → ring.BoundTo (utf8 r.canonical.toList)

theorem allBound_addTo {keyring keyring' : Option Keyring} {row : Row} (bound : AllBound r keyring)
    (h : o.addTo r keyring row = .ok keyring') : AllBound r keyring' := by
  obtain ⟨stored, _, h⟩ := Control.bind_eq_ok.mp h
  obtain ⟨c, hc, h⟩ := Control.bind_eq_ok.mp h
  cases h
  rintro ring ⟨⟩
  cases keyring with
  | none => exact Keyring.boundTo_new (aad_of_unwrap hc)
  | some ring => exact (bound ring rfl).withVersion (aad_of_unwrap hc)

theorem boundTo_of_getAll {keyring : Keyring} (h : o.getAll rows r = .ok keyring) :
    keyring.BoundTo (utf8 r.canonical.toList) := by
  obtain ⟨found, hfound, h⟩ := Control.bind_eq_ok.mp h
  have bound : AllBound r found :=
    Control.foldlM_invariant (fun _ _ _ bound h => allBound_addTo bound h) hfound (by rintro ring ⟨⟩)
  cases found with
  | some ring =>
    cases h
    exact bound keyring rfl
  | none => cases h

end Answers

theorem sameRow_of_mem {rows : List Row} {row : Row} (h : row ∈ rowsOf rows r) (h' : row ∈ rowsOf rows r') :
    r.SameRow r' := by
  obtain ⟨tenant, kind, id⟩ := of_decide_eq_true (List.mem_filter.mp h).2
  obtain ⟨tenant', kind', id'⟩ := of_decide_eq_true (List.mem_filter.mp h').2
  exact ⟨tenant.symm.trans tenant', kind.symm.trans kind', id.symm.trans id'⟩

theorem closed (other : r.canonical ≠ r'.canonical) {aead : AesGcm} {o o' : PgDekStore} {rows rows' : List Row}
    {c c' : VersionedCipher} {nonce : Nonce} {plaintext sealed : Octets} (answers : o.Answers rows r c)
    (answers' : o'.Answers rows' r' c') (sealing : c.encrypt aead nonce plaintext = .ok sealed) (opened : Octets) :
    c'.decrypt aead sealed ≠ .ok opened := by
  apply never_opens sealing
  rw [answers.aad, answers'.aad]
  exact fun same => other (String.toList_inj.mp (utf8_injective same))

theorem lockResource_eq_iff {o : PgDekStore} :
    o.lockResource r = o.lockResource r' ↔ o.hashtext r.canonical = o.hashtext r'.canonical := by
  rw [PgDekStore.lockResource, PgDekStore.lockResource, Prod.mk.injEq]
  exact and_iff_right rfl

/-- A server whose hash tells one text from every other. -/
def telling (text : String) : PgDekStore where
  kms := ⟨fun _ => .ok ([], []), fun _ _ => .ok []⟩
  table := "deks"
  algorithm := .aes256Gcm
  hashtext other := if other = text then 1 else 0

theorem telling_ne {text other : String} (h : text ≠ other) :
    (telling text).hashtext text ≠ (telling text).hashtext other := by
  show (if text = text then 1 else 0) ≠ (if other = text then 1 else 0 : BitVec 32)
  rw [if_pos rfl, if_neg (Ne.symm h)]
  decide

theorem apart (other : r.canonical ≠ r'.canonical) (rows : ¬ r.SameRow r') : Apart r r' where
  lock := ⟨telling r.canonical, lockResource_eq_iff.not.mpr (telling_ne other)⟩
  rows _ _ h h' := rows (sameRow_of_mem h h')
  closed _ _ _ _ _ _ _ _ _ _ answers answers' sealing := Bound.closed other answers answers' sealing
  closedAll aead o o' _ _ c keyring nonce plaintext sealed answers answers' sealing := by
    apply Keyring.never_opens sealing (boundTo_of_getAll answers')
    rw [answers.aad]
    exact fun same => other (String.toList_inj.mp (utf8_injective same))

/-- One text is one row, and what follows from it, unless the ids of one row hold numbers that are equal and written
apart. -/
theorem one_binding_iff (r r' : Resource F) : OneBinding r r' ↔ (r.SameRow r' → r.Alike r') := by
  constructor
  · intro binding same
    exact (Resource.canonical_eq_iff.mp (binding.text.mpr same)).2
  · intro alike
    have text : r.canonical = r'.canonical ↔ r.SameRow r' := by
      rw [Resource.canonical_eq_iff]
      exact ⟨And.left, fun same => ⟨same, alike same⟩⟩
    exact ⟨text, fun same => shared (text.mpr same), fun rows => apart (text.not.mpr rows) rows⟩

/-- A resource of one tenant and one kind. -/
def order (id : Json (Number Whole)) (distinct : id.Distinct) : Resource Whole := ⟨"acme", "order", id, distinct⟩

def one : Number Whole := .int 1 (by decide)

/-- A composite id is one however its keys are ordered. -/
theorem composite_one_binding :
    OneBinding (order (.object [("line", .number one), ("cart", .string "c")]) ⟨by decide, trivial, trivial, trivial⟩)
      (order (.object [("cart", .string "c"), ("line", .number one)]) ⟨by decide, trivial, trivial, trivial⟩) :=
  (one_binding_iff _ _).mpr (by decide +kernel)

def orderOne : Resource Whole := order (.number one) trivial

def orderOnePointZero : Resource Whole := order (.number (.float ⟨false, 1, by decide⟩)) trivial

/-- An id that is the integer and one that is the same number with a point: one row, two texts, and neither opens
what the other sealed. -/
theorem integer_and_float_apart :
    orderOne.SameRow orderOnePointZero ∧
    orderOne.canonical = "[\"acme\",\"order\",1]" ∧
    orderOnePointZero.canonical = "[\"acme\",\"order\",1.0]" ∧
    ¬ OneBinding orderOne orderOnePointZero ∧
    ∀ aead (o : PgDekStore) rows c c' nonce plaintext sealed, o.Answers rows orderOne c →
      o.Answers rows orderOnePointZero c' → c.encrypt aead nonce plaintext = .ok sealed →
        ∀ opened, c'.decrypt aead sealed ≠ .ok opened := by
  have same : orderOne.SameRow orderOnePointZero := by decide +kernel
  have text : orderOne.canonical = "[\"acme\",\"order\",1]" := by decide +kernel
  have text' : orderOnePointZero.canonical = "[\"acme\",\"order\",1.0]" := by decide +kernel
  have other : orderOne.canonical ≠ orderOnePointZero.canonical := by
    rw [text, text']
    decide
  refine ⟨same, text, text', fun binding => other (binding.text.mpr same), ?_⟩
  intro aead o rows c c' nonce plaintext sealed answers answers' sealing
  exact closed other answers answers' sealing

end AsceticDdd.Dek.Bound
