import AsceticDdd.Control.Except
import AsceticDdd.Kms.Cipher
import AsceticDdd.Kms.Vault
import AsceticDdd.Text.Percent

/-!
# What a key is called

Transit tells a tenant's keys apart by name, and the master key binds each to its name when it wraps it. A signing
key and a MAC key are named by the tenant and what the key is for, between dots. A tenant's own key is named by the
tenant, dots and all.
-/

namespace AsceticDdd.Kms

open Crypto Text

/-- What a MAC key is for. -/
structure KeyLabel where
  text : String
  short : text.utf8ByteSize ≤ 64
  part : Vault.isKeyPart text = true
deriving DecidableEq

/-- A key of a tenant: the one its data keys are wrapped under, one to sign with, or one to make MACs with. -/
inductive Named
  | kek (tenantId : String)
  | signing (tenantId : String) (algorithm : SignatureAlgorithm)
  | mac (tenantId : String) (purpose : KeyLabel)
deriving DecidableEq

namespace Vault

/-- The characters that are encoded in a path. -/
def keyName (byte : UInt8) : Bool :=
  let c := Char.ofUInt8 byte
  !(c.isAlphanum || c = '-' || c = '_' || c = '.' || c = '~')

def encoding [PercentEncoding] : Service := ⟨fun text => String.ofList (PercentEncoding.encode keyName text.toList)⟩

end Vault

namespace Named

def tenantId : Named → String
  | kek tenantId | signing tenantId _ | mac tenantId _ => tenantId

/-- What the master key wraps the key under. -/
def name : Named → String
  | kek tenantId => tenantId
  | signing tenantId algorithm => algorithm.nameOf tenantId
  | mac tenantId purpose => macNameOf tenantId purpose.text

/-- The Transit key. -/
def transitName [PercentEncoding] : Named → Except Error String
  | kek tenantId => .ok (Vault.encoding.keyName tenantId)
  | signing tenantId algorithm => Vault.signingKeyName tenantId algorithm
  | mac tenantId purpose => Vault.macKeyName tenantId purpose.text

/-- A tenant called as another's key to sign or to make MACs with. -/
def Poses : Named → Named → Prop
  | kek tenantId, signing other algorithm => tenantId = other ++ ".sign." ++ algorithm.asStr
  | kek tenantId, mac other purpose => tenantId = other ++ ".mac." ++ purpose.text
  | _, _ => False

instance : DecidableRel Poses := fun key other => by
  unfold Poses
  split <;> infer_instance

variable {k k' : Named}

/-- A part of a dotted name has no dot. -/
theorem dot_not_mem {text : String} (part : Vault.isKeyPart text = true) : '.' ∉ text.toList := by
  intro dot
  have plain := List.all_eq_true.mp (Bool.and_eq_true_iff.mp part).2 '.' dot
  revert plain
  decide

theorem isKeyPart_asStr (algorithm : SignatureAlgorithm) : Vault.isKeyPart algorithm.asStr = true := by
  cases algorithm <;> decide

/-- A dotted name is cut at its last two dots. -/
theorem dotted_inj {first first' second second' third third' : List Char} (hsecond : '.' ∉ second)
    (hsecond' : '.' ∉ second') (hthird : '.' ∉ third) (hthird' : '.' ∉ third')
    (same : first ++ '.' :: (second ++ '.' :: third) = first' ++ '.' :: (second' ++ '.' :: third')) :
    first = first' ∧ second = second' ∧ third = third' := by
  rw [← List.cons_append, ← List.cons_append, ← List.append_assoc, ← List.append_assoc] at same
  obtain ⟨before, rfl⟩ := append_lastStop hthird hthird' same
  obtain ⟨rfl, rfl⟩ := append_lastStop hsecond hsecond' before
  exact ⟨rfl, rfl, rfl⟩

theorem name_signing (tenantId : String) (algorithm : SignatureAlgorithm) : (signing tenantId algorithm).name.toList =
    tenantId.toList ++ '.' :: ("sign".toList ++ '.' :: algorithm.asStr.toList) := by
  rw [name, SignatureAlgorithm.nameOf, String.toList_append, String.toList_append, List.append_assoc]
  rfl

theorem name_mac (tenantId : String) (purpose : KeyLabel) : (mac tenantId purpose).name.toList =
    tenantId.toList ++ '.' :: ("mac".toList ++ '.' :: purpose.text.toList) := by
  rw [name, macNameOf, String.toList_append, String.toList_append, List.append_assoc]
  rfl

theorem name_signing_ne_mac (tenantId tenantId' : String) (algorithm : SignatureAlgorithm) (purpose : KeyLabel) :
    (signing tenantId algorithm).name ≠ (mac tenantId' purpose).name := by
  intro same
  have chars := congrArg String.toList same
  rw [name_signing, name_mac] at chars
  obtain ⟨_, kinds, _⟩ := dotted_inj (by decide) (by decide) (dot_not_mem (isKeyPart_asStr _))
    (dot_not_mem purpose.part) chars
  exact absurd kinds (by decide)

/-- Two keys have one name when one of them is a tenant's own and the tenant is called as the other key. -/
theorem name_eq_iff (different : k ≠ k') : k.name = k'.name ↔ Poses k k' ∨ Poses k' k := by
  constructor
  · intro same
    have chars := congrArg String.toList same
    cases k with
    | kek tenantId =>
      cases k' with
      | kek tenantId' => exact absurd (congrArg kek same) different
      | signing tenantId' algorithm => exact .inl same
      | mac tenantId' purpose => exact .inl same
    | signing tenantId algorithm =>
      cases k' with
      | kek tenantId' => exact .inr same.symm
      | signing tenantId' algorithm' =>
        rw [name_signing, name_signing] at chars
        obtain ⟨tenants, _, algorithms⟩ := dotted_inj (by decide) (by decide) (dot_not_mem (isKeyPart_asStr _))
          (dot_not_mem (isKeyPart_asStr _)) chars
        cases String.toList_inj.mp tenants
        have one : algorithm = algorithm' := by
          cases algorithm <;> cases algorithm' <;> first | rfl | exact absurd algorithms (by decide)
        exact absurd (one ▸ rfl) different
      | mac tenantId' purpose => exact (name_signing_ne_mac _ _ _ _ same).elim
    | mac tenantId purpose =>
      cases k' with
      | kek tenantId' => exact .inr same.symm
      | signing tenantId' algorithm => exact (name_signing_ne_mac _ _ _ _ same.symm).elim
      | mac tenantId' purpose' =>
        rw [name_mac, name_mac] at chars
        obtain ⟨tenants, _, purposes⟩ := dotted_inj (by decide) (by decide) (dot_not_mem purpose.part)
          (dot_not_mem purpose'.part) chars
        cases String.toList_inj.mp tenants
        obtain ⟨text, _, _⟩ := purpose
        obtain ⟨text', _, _⟩ := purpose'
        cases String.toList_inj.mp purposes
        exact absurd rfl different
  · have posing : ∀ {k k' : Named}, Poses k k' → k.name = k'.name := by
      intro k k' poses
      unfold Poses at poses
      split at poses
      · exact poses
      · exact poses
      · exact poses.elim
    rintro (poses | poses)
    · exact posing poses
    · exact (posing poses).symm

/-- A character of a dotted name is kept in a path. -/
theorem kept {c : Char} (h : c.isAlphanum || c = '_' || c = '-' || c = '.') :
    c.toNat < 128 ∧ Vault.keyName c.toUInt8 = false := by
  have ascii : c.toNat < 128 := by
    simp only [Bool.or_eq_true, decide_eq_true_eq] at h
    obtain ((alphanum | rfl) | rfl) | rfl := h
    · obtain alpha | digit := Bool.or_eq_true_iff.mp alphanum
      · obtain upper | lower := Bool.or_eq_true_iff.mp alpha
        · have both : c.val ≥ 'A'.val ∧ c.val ≤ 'Z'.val := of_decide_eq_true upper
          exact Nat.lt_of_le_of_lt both.2 (by decide)
        · have last : c.val ≤ 'z'.val := of_decide_eq_true (Bool.and_eq_true_iff.mp lower).2
          exact Nat.lt_of_le_of_lt last (by decide)
      · have last : c.val ≤ '9'.val := of_decide_eq_true (Bool.and_eq_true_iff.mp digit).2
        exact Nat.lt_of_le_of_lt last (by decide)
    · decide
    · decide
    · decide
  refine ⟨ascii, ?_⟩
  rw [Vault.keyName, ofUInt8_toUInt8 ascii]
  revert h
  simp only [Bool.or_eq_true, Bool.not_eq_false']
  tauto

/-- A part of a dotted name is kept in a path. -/
theorem kept_of_part {text : String} (part : Vault.isKeyPart text = true) {c : Char} (hc : c ∈ text.toList) :
    c.toNat < 128 ∧ Vault.keyName c.toUInt8 = false := by
  have plain := List.all_eq_true.mp (Bool.and_eq_true_iff.mp part).2 c hc
  exact kept (by rw [plain]; rfl)

theorem keyName_dotted [PercentEncoding] (second : String) {first third name : String}
    (hfirst : Vault.isKeyPart first = true) (hsecond : Vault.isKeyPart second = true)
    (hthird : Vault.isKeyPart third = true)
    (cut : name.toList = first.toList ++ '.' :: (second.toList ++ '.' :: third.toList)) :
    Vault.encoding.keyName name = name := by
  have plain : PercentEncoding.encode Vault.keyName name.toList = name.toList := by
    apply PercentEncoding.kept
    intro c hc
    have dot : '.'.toNat < 128 ∧ Vault.keyName '.'.toUInt8 = false := kept (by decide)
    rw [cut, List.mem_append, List.mem_cons, List.mem_append, List.mem_cons] at hc
    obtain hc | rfl | hc | rfl | hc := hc
    · exact kept_of_part hfirst hc
    · exact dot
    · exact kept_of_part hsecond hc
    · exact dot
    · exact kept_of_part hthird hc
  show String.ofList (PercentEncoding.encode Vault.keyName name.toList) = name
  rw [plain, String.ofList_toList]

/-- A key of Transit is called by its name, encoded. -/
theorem transitName_eq [PercentEncoding] {n : String} (h : k.transitName = .ok n) :
    n = Vault.encoding.keyName k.name := by
  have part : ∀ {tenantId tenantId' : String}, Vault.tenantPart tenantId = .ok tenantId' →
      tenantId' = tenantId ∧ Vault.isKeyPart tenantId = true := by
    intro tenantId tenantId' h
    unfold Vault.tenantPart at h
    split at h
    · exact ⟨(Except.ok.inj h).symm, ‹_›⟩
    · cases h
  cases k with
  | kek tenantId => exact (Except.ok.inj h).symm
  | signing tenantId algorithm =>
    obtain ⟨tenant, htenant, hname⟩ := Control.bind_eq_ok.mp h
    obtain ⟨rfl, hpart⟩ := part htenant
    cases hname
    exact (keyName_dotted "sign" hpart (by decide) (isKeyPart_asStr algorithm) (name_signing ..)).symm
  | mac tenantId purpose =>
    obtain ⟨tenant, htenant, hname⟩ := Control.bind_eq_ok.mp h
    obtain ⟨rfl, hpart⟩ := part htenant
    cases hname
    exact (keyName_dotted "mac" hpart (by decide) purpose.part (name_mac ..)).symm

/-- The tenant fits the tables' column. -/
def Fits (key : Named) : Prop := key.tenantId.toList.length ≤ 128 ∧ '\x00' ∉ key.tenantId.toList

theorem short_of_poses (poses : Poses k k' ∨ Poses k' k) (fits : k.Fits) (fits' : k'.Fits) :
    (utf8 k.name.toList).length ≤ 2 ^ 36 := by
  have own : ∀ {k k' : Named}, Poses k k' → k.name = k.tenantId := by
    intro k k' poses
    cases k with
    | kek tenantId => rfl
    | signing | mac => exact poses.elim
  have short : ∀ {k : Named}, k.Fits → (utf8 k.tenantId.toList).length ≤ 2 ^ 36 := by
    intro k fits
    exact Nat.le_trans (length_utf8_le _) (Nat.le_trans (Nat.mul_le_mul_left 4 fits.1) (by decide))
  by_cases same : k = k'
  · subst same
    exact own (or_self_iff.mp poses) ▸ short fits
  obtain poses | poses := poses
  · exact own poses ▸ short fits
  · rw [(name_eq_iff same).mpr (.inr poses), own poses]
    exact short fits'

/-- Two keys are told apart on Transit and by the master key, and one wrapped as the one never opens as the other,
unless one is a tenant's own and the tenant is called as the other key. The bindings of two tenants and contexts are
apart unless their texts run into one another. -/
theorem names_apart_iff [PercentEncoding] (aead : AesGcm) (master : MasterKey) (different : k ≠ k') :
    (∀ n n', k.transitName = .ok n → k'.transitName = .ok n' → (n ≠ n' ↔ ¬ (Poses k k' ∨ Poses k' k))) ∧
    ((master.cipherFor k.name).aad ≠ (master.cipherFor k'.name).aad ↔ ¬ (Poses k k' ∨ Poses k' k)) ∧
    (k.Fits → k'.Fits → ((∀ nonce key wrapped, master.wrap aead k.name nonce key = .ok wrapped →
      ∀ opened, master.unwrap aead k'.name wrapped ≠ .ok opened) ↔ ¬ (Poses k k' ∨ Poses k' k))) ∧
    ∀ tenantId context tenantId' context', (tenantId, context) ≠ (tenantId', context') →
      '\x00' ∉ tenantId.toList → '\x00' ∉ tenantId'.toList →
        (binding tenantId context ≠ binding tenantId' context' ↔ ¬ RunsInto tenantId tenantId' context context') := by
  refine ⟨fun n n' hn hn' => not_congr ?_, not_congr ?_, fun fits fits' => ?_, ?_⟩
  · rw [transitName_eq hn, transitName_eq hn', ← name_eq_iff different]
    constructor
    · intro same
      exact String.toList_inj.mp (PercentEncoding.injective (by decide) (String.ofList_inj.mp same))
    · exact congrArg _
  · rw [← name_eq_iff different]
    constructor
    · intro same
      exact String.toList_inj.mp (utf8_injective same)
    · exact congrArg fun name : String => utf8 name.toList
  · constructor
    · intro never poses
      obtain ⟨wrapped, hwrapped⟩ := master.wrap_ok aead k.name ⟨List.replicate 12 0, rfl⟩ (List.replicate 32 0)
        (by decide) (short_of_poses poses fits fits')
      apply never _ _ _ hwrapped (List.replicate 32 0)
      rw [MasterKey.unwrap_eq hwrapped, if_pos ((name_eq_iff different).mpr poses)]
    · intro apart nonce key wrapped hwrapped opened hopened
      rw [MasterKey.unwrap_eq hwrapped, if_neg (apart ∘ (name_eq_iff different).mp)] at hopened
      cases hopened
  · intro tenantId context tenantId' context' other plain plain'
    exact not_congr (binding_eq_iff other plain plain')

/-- The keys of a tenant called by a plain name. -/
theorem acme_names_apart :
    @transitName .hex (kek "acme") = .ok "acme" ∧
    @transitName .hex (signing "acme" .ed25519) = .ok "acme.sign.ed25519" ∧
    ∀ master : MasterKey, (master.cipherFor "acme").aad ≠ (master.cipherFor "acme.sign.ed25519").aad ∧
      (∀ nonce key wrapped, master.wrap .framed "acme" nonce key = .ok wrapped →
        ∀ opened, master.unwrap .framed "acme.sign.ed25519" wrapped ≠ .ok opened) ∧
      binding "acme" none ≠ binding "acme" (some "") := by
  refine ⟨by decide +kernel, by decide +kernel, fun master => ?_⟩
  have different : kek "acme" ≠ signing "acme" .ed25519 := by decide
  obtain ⟨_, datas, opening, bindings⟩ := @names_apart_iff _ _ .hex .framed master different
  have plain : ¬ (Poses (kek "acme") (signing "acme" .ed25519) ∨ Poses (signing "acme" .ed25519) (kek "acme")) := by
    decide
  refine ⟨datas.mpr plain, (opening ⟨by decide, by decide⟩ ⟨by decide, by decide⟩).mpr plain, ?_⟩
  refine (bindings "acme" none "acme" (some "") (by decide) (by decide) (by decide)).mpr fun runs => ?_
  exact absurd runs.1 (by decide)

/-- A tenant called as the signing key of another: its own key and that one are of one name, and one wrapped as
either opens as the other. -/
theorem posing_tenant : kek "acme.sign.ed25519" ≠ signing "acme" .ed25519 ∧
    @transitName .hex (kek "acme.sign.ed25519") = @transitName .hex (signing "acme" .ed25519) ∧
    ∀ master : MasterKey,
      (master.cipherFor (kek "acme.sign.ed25519").name).aad = (master.cipherFor (signing "acme" .ed25519).name).aad ∧
      ∀ nonce, ∃ wrapped, master.wrap .framed (signing "acme" .ed25519).name nonce (List.replicate 32 7) = .ok wrapped ∧
        master.unwrap .framed (kek "acme.sign.ed25519").name wrapped = .ok (List.replicate 32 7) := by
  refine ⟨by decide, by decide +kernel, fun master => ⟨rfl, fun nonce => ?_⟩⟩
  obtain ⟨wrapped, hwrapped⟩ := master.wrap_ok .framed "acme.sign.ed25519" nonce (List.replicate 32 7) (by decide)
    (by decide)
  refine ⟨wrapped, hwrapped, ?_⟩
  rw [MasterKey.unwrap_eq hwrapped]
  exact if_pos rfl

end Named

end AsceticDdd.Kms
