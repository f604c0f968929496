import AsceticDdd.Dek.Bound
import AsceticDdd.Dek.Envelope

/-!
# What a stage seals it opens

A message comes back as it went out when one stage is between, its bound names are read back from how they are joined,
and the message has none of the envelope's headers. A payload opens with its tenant and its bound headers alone.
-/

namespace AsceticDdd.Dek.Envelope

open Bound Bus Canonical Crypto Kms Postgres Text

variable {m m' : Message} {names names' : List String}

/-! ## The text a payload is bound to -/

theorem header_eq_ok {name text : String} : header m name = .ok text ↔ m.header name = some (utf8 text.toList) := by
  unfold header
  split
  case h_1 absent =>
    rw [absent]
    constructor <;> rintro ⟨⟩
  case h_2 value found =>
    rw [found, Option.some.injEq, eq_comm (b := utf8 text.toList), ← fromUtf8_eq_some]
    split
    case h_1 read same => rw [same, Except.ok.injEq, Option.some.injEq]
    case h_2 other =>
      rw [other]
      constructor <;> rintro ⟨⟩

theorem header_congr {name : String} (same : m.header name = m'.header name) : header m name = header m' name := by
  rw [header, header, same]

theorem pairOf_eq_ok {name : String} {pair : String × String} :
    pairOf m name = .ok pair ↔ pair.1 = name ∧ header m name = .ok pair.2 := by
  constructor
  · intro h
    obtain ⟨value, hvalue, h⟩ := Control.bind_eq_ok.mp h
    cases h
    exact ⟨rfl, hvalue⟩
  · rintro ⟨rfl, hvalue⟩
    exact Control.bind_eq_ok.mpr ⟨pair.2, hvalue, rfl⟩

theorem wrappedOf_eq_ok {base64 : Base64} {encoded : String} {wrapped : Octets} :
    wrappedOf base64 encoded = .ok wrapped ↔ base64.decode encoded.toList = .ok wrapped :=
  Control.mapError_eq_ok

theorem map_fst_of_mapM {pairs : List (String × String)} (h : names.mapM (pairOf m) = .ok pairs) :
    pairs.map Prod.fst = names := by
  induction names generalizing pairs with
  | nil =>
    cases h
    rfl
  | cons name names ih =>
    rw [List.mapM_cons] at h
    obtain ⟨pair, hpair, h⟩ := Control.bind_eq_ok.mp h
    obtain ⟨rest, hrest, h⟩ := Control.bind_eq_ok.mp h
    cases h
    rw [List.map_cons, (pairOf_eq_ok.mp hpair).1, ih hrest]

theorem header_of_mem {pairs : List (String × String)} (h : names.mapM (pairOf m) = .ok pairs)
    {pair : String × String} (hpair : pair ∈ pairs) : header m pair.1 = .ok pair.2 := by
  obtain ⟨name, _, hname⟩ := Control.exists_of_mapM_eq_ok h hpair
  obtain ⟨rfl, hvalue⟩ := pairOf_eq_ok.mp hname
  exact hvalue

theorem ordered_pairsValue (pairs : List (String × String)) :
    (pairsValue pairs).ordered (· ≤ ·) = pairsValue pairs := by
  rw [pairsValue, Json.ordered, Json.orderedElements_eq, List.map_map]
  rfl

theorem pairsValue_injective {pairs pairs' : List (String × String)} (same : pairsValue pairs = pairsValue pairs') :
    pairs = pairs' := by
  apply List.map_injective_iff.mpr _ (Json.array.inj same)
  rintro ⟨name, value⟩ ⟨name', value'⟩ texts
  cases texts
  rfl

/-- A text names the headers and says their values. -/
theorem headers_of_associatedData {aad : String} (h : associatedData m names = .ok aad)
    (h' : associatedData m' names' = .ok aad) : names = names' ∧ ∀ name ∈ names, m.header name = m'.header name := by
  obtain ⟨pairs, hpairs, text⟩ := Control.bind_eq_ok.mp h
  obtain ⟨pairs', hpairs', text'⟩ := Control.bind_eq_ok.mp h'
  have same := json_eq_iff.mp ((Except.ok.inj text).trans (Except.ok.inj text').symm)
  rw [ordered_pairsValue, ordered_pairsValue] at same
  obtain rfl := pairsValue_injective same
  obtain rfl := map_fst_of_mapM hpairs
  obtain rfl := map_fst_of_mapM hpairs'
  refine ⟨rfl, ?_⟩
  intro name hname
  obtain ⟨pair, hpair, rfl⟩ := List.mem_map.mp hname
  rw [header_eq_ok.mp (header_of_mem hpairs hpair), header_eq_ok.mp (header_of_mem hpairs' hpair)]

theorem associatedData_congr (same : ∀ name ∈ names, m.header name = m'.header name) :
    associatedData m names = associatedData m' names := by
  have pairs : names.mapM (pairOf m) = names.mapM (pairOf m') := by
    induction names with
    | nil => rfl
    | cons name names ih =>
      have own : pairOf m name = pairOf m' name := by
        rw [pairOf, pairOf, header_congr (same name List.mem_cons_self)]
      rw [List.mapM_cons, List.mapM_cons, own, ih fun other hother => same other (List.mem_cons_of_mem _ hother)]
  rw [associatedData, associatedData, pairs]

theorem text_of_associatedData {aad : String} (h : associatedData m names = .ok aad) {name : String}
    (hname : name ∈ names) : ∃ text, header m name = .ok text := by
  obtain ⟨pairs, hpairs, _⟩ := Control.bind_eq_ok.mp h
  rw [← map_fst_of_mapM hpairs] at hname
  obtain ⟨pair, hpair, rfl⟩ := List.mem_map.mp hname
  exact ⟨pair.2, header_of_mem hpairs hpair⟩

theorem isSome_of_associatedData {aad : String} (h : associatedData m names = .ok aad) {name : String}
    (hname : name ∈ names) : m.header name ≠ none := by
  obtain ⟨text, htext⟩ := text_of_associatedData h hname
  rw [header_eq_ok.mp htext]
  rintro ⟨⟩

/-- Names are read back from how they are joined if there is one and none has a comma. -/
theorem split_join_iff : split (join names) = names ↔ names ≠ [] ∧ ∀ name ∈ names, ',' ∉ name.toList := by
  have texts : (names.map String.toList).map String.ofList = names := by
    rw [List.map_map]
    exact (List.map_congr_left fun name _ => String.ofList_toList).trans (List.map_id names)
  have read : split (join names) = names ↔
      ([','].intercalate (names.map String.toList)).splitOn ',' = names.map String.toList := by
    rw [split, join, String.toList_ofList]
    nth_rewrite 2 [← texts]
    exact (List.map_injective_iff.mpr fun _ _ => String.ofList_inj.mp).eq_iff
  rw [read, splitOn_intercalate_iff, Ne, List.map_eq_nil_iff, List.forall_mem_map]

/-! ## Out and in -/

namespace EnvelopeStage

variable {aead : AesGcm} {base64 : Base64} {stage : EnvelopeStage} {servings : Servings} {call : Call} {sealed opened : Message}

/-- What a stage may seal with: drawn for the tenant. -/
def Keyed (stage : EnvelopeStage) (servings : Servings) : Prop :=
  ∀ tenantId current, servings tenantId = some current → stage.kms.Drawn tenantId current.dek current.wrapped

theorem Keyed.update (h : stage.Keyed servings) {tenantId : String} {current : Serving}
    (drawn : stage.kms.Drawn tenantId current.dek current.wrapped) :
    stage.Keyed (Function.update servings tenantId (some current)) := by
  intro other found hfound
  by_cases same : other = tenantId
  · subst same
    rw [Function.update_self] at hfound
    obtain rfl := Option.some.inj hfound
    exact drawn
  · rw [Function.update_of_ne same] at hfound
    exact h other found hfound

theorem drawn_of_serving (h : stage.Keyed servings) {now : Nat} {tenantId : String} {dek wrapped : Octets}
    {servings' : Servings} (hserving : stage.serving servings now tenantId = (some (dek, wrapped), servings')) :
    stage.kms.Drawn tenantId dek wrapped := by
  unfold serving at hserving
  split at hserving
  case h_1 current _ hcurrent =>
    split at hserving
    · cases hserving
    · cases hserving
      exact h tenantId current hcurrent
  case h_2 => cases hserving

theorem Reached.keyed (h : stage.Reached servings) : stage.Keyed servings := by
  induction h with
  | start => rintro tenantId current ⟨⟩
  | serving now tenantId _ ih =>
    unfold EnvelopeStage.serving
    split
    case h_1 current _ hcurrent =>
      split
      · exact ih
      · exact ih.update (ih tenantId current hcurrent)
    case h_2 => exact ih
  | serve since _ drawn ih =>
    unfold EnvelopeStage.serve
    split
    · exact ih
    · exact ih.update drawn

theorem sealWith_eq_ok {nonce : Nonce} {aad : String} {dek wrapped : Octets} :
    stage.sealWith aead base64 nonce m aad dek wrapped = .ok sealed ↔
      ∃ cipher body, Aes256Gcm.new dek (utf8 aad.toList) = .ok cipher ∧
        cipher.encrypt aead nonce m.payload = .ok body ∧ stage.enveloped base64 m body wrapped = sealed := by
  constructor
  · intro h
    obtain ⟨cipher, hcipher, h⟩ := Control.bind_eq_ok.mp h
    obtain ⟨body, hbody, h⟩ := Control.bind_eq_ok.mp h
    exact ⟨cipher, body, Control.mapError_eq_ok.mp (Control.mapError_eq_ok.mp hcipher),
      Control.mapError_eq_ok.mp (Control.mapError_eq_ok.mp hbody), Except.ok.inj h⟩
  · rintro ⟨cipher, body, hcipher, hbody, rfl⟩
    apply Control.bind_eq_ok.mpr ⟨cipher, Control.mapError_eq_ok.mpr (Control.mapError_eq_ok.mpr hcipher), _⟩
    exact Control.bind_eq_ok.mpr ⟨body, Control.mapError_eq_ok.mpr (Control.mapError_eq_ok.mpr hbody), rfl⟩

theorem key_of_new {key aad : Octets} {cipher : Aes256Gcm} (h : Aes256Gcm.new key aad = .ok cipher) :
    cipher.key = key := by
  unfold Aes256Gcm.new at h
  split at h
  · rw [← Except.ok.inj h]
  · cases h

/-- What a stage seals: with a key of the tenant's, bound to the headers. -/
inductive Seals (aead : AesGcm) (base64 : Base64) (stage : EnvelopeStage) (m : Message) : Message → Prop
  | intro {tenantId aad : String} {dek wrapped body : Octets} {nonce : Nonce} {cipher : Aes256Gcm}
    (tenant : tenantOf m = .ok tenantId) (data : associatedData m stage.boundTo = .ok aad)
    (drawn : stage.kms.Drawn tenantId dek wrapped) (keyed : Aes256Gcm.new dek (utf8 aad.toList) = .ok cipher)
    (seals : cipher.encrypt aead nonce m.payload = .ok body) : Seals aead base64 stage m (stage.enveloped base64 m body wrapped)

/-- What a stage opens: with the key that unwraps, bound to the headers that are named. -/
inductive Opens (aead : AesGcm) (base64 : Base64) (stage : EnvelopeStage) (m : Message) : Message → Prop
  | intro {tenantId encoded name names aad : String} {dek wrapped payload : Octets} {algorithm : Algorithm}
    {cipher : Aes256Gcm} (tenant : tenantOf m = .ok tenantId) (carried : header m Header.dek = .ok encoded)
    (decoded : base64.decode encoded.toList = .ok wrapped) (named : header m Header.dekAlgorithm = .ok name)
    (known : Algorithm.fromStr name = .ok algorithm) (bound : header m Header.dekBoundTo = .ok names)
    (data : associatedData m (split names) = .ok aad) (unwrapped : stage.kms.decryptDek tenantId wrapped = .ok dek)
    (keyed : algorithm.cipher dek (utf8 aad.toList) = .ok cipher)
    (opens : cipher.decrypt aead m.payload = .ok payload) : Opens aead base64 stage m (stripped m payload)

theorem seals_of_outbound (reached : stage.Reached servings)
    (drawn : ∀ {tenantId dek wrapped}, call.generateDek tenantId = .ok (dek, wrapped) →
      stage.kms.Drawn tenantId dek wrapped)
    (h : (stage.outbound aead base64 servings call m).1 = .ok sealed) : Seals aead base64 stage m sealed := by
  unfold outbound at h
  split at h
  case h_1 => cases h
  case h_2 => cases h
  case h_3 tenantId aad tenant data =>
    split at h
    case h_1 dek wrapped servings' hserving =>
      obtain ⟨cipher, body, keyed, seals, rfl⟩ := sealWith_eq_ok.mp h
      exact .intro tenant data (drawn_of_serving reached.keyed hserving) keyed seals
    case h_2 =>
      split at h
      · cases h
      · obtain ⟨cipher, body, keyed, seals, rfl⟩ := sealWith_eq_ok.mp h
        exact .intro tenant data (drawn ‹_›) keyed seals

theorem inbound_eq_ok : stage.inbound aead base64 m = .ok opened ↔ Opens aead base64 stage m opened := by
  constructor
  · intro h
    obtain ⟨tenantId, tenant, h⟩ := Control.bind_eq_ok.mp h
    obtain ⟨encoded, carried, h⟩ := Control.bind_eq_ok.mp h
    obtain ⟨wrapped, decoded, h⟩ := Control.bind_eq_ok.mp h
    obtain ⟨name, named, h⟩ := Control.bind_eq_ok.mp h
    obtain ⟨algorithm, known, h⟩ := Control.bind_eq_ok.mp h
    obtain ⟨names, bound, h⟩ := Control.bind_eq_ok.mp h
    obtain ⟨aad, data, h⟩ := Control.bind_eq_ok.mp h
    obtain ⟨dek, unwrapped, h⟩ := Control.bind_eq_ok.mp h
    obtain ⟨cipher, keyed, h⟩ := Control.bind_eq_ok.mp h
    obtain ⟨payload, opens, h⟩ := Control.bind_eq_ok.mp h
    cases h
    exact .intro tenant carried (wrappedOf_eq_ok.mp decoded) named (Control.mapError_eq_ok.mp known) bound data
      (Control.mapError_eq_ok.mp unwrapped) (Control.mapError_eq_ok.mp keyed)
      (Control.mapError_eq_ok.mp (Control.mapError_eq_ok.mp opens))
  · rintro ⟨tenant, carried, decoded, named, known, bound, data, unwrapped, keyed, opens⟩
    simp only [inbound, tenant, carried, wrappedOf_eq_ok.mpr decoded, named, bound, data,
      Control.mapError_eq_ok.mpr known, Control.mapError_eq_ok.mpr unwrapped, Control.mapError_eq_ok.mpr keyed,
      Control.ok_bind]
    exact Control.bind_eq_ok.mpr ⟨_, Control.mapError_eq_ok.mpr (Control.mapError_eq_ok.mpr opens), rfl⟩

/-! ## One stage -/

variable {body wrapped : Octets}

theorem header_enveloped_of_ne {name : String} (other : name ∉ envelopeHeaders) :
    (stage.enveloped base64 m body wrapped).header name = m.header name := by
  simp only [envelopeHeaders, List.mem_cons, List.not_mem_nil, or_false, not_or] at other
  rw [enveloped, Message.header_withHeader_ne (Ne.symm other.2.2), Message.header_withHeader_ne (Ne.symm other.2.1),
    Message.header_withHeader_ne (Ne.symm other.1), Message.header_withPayload]

theorem header_enveloped_of_some {name : String} (carried : m.header name ≠ none) :
    (stage.enveloped base64 m body wrapped).header name = m.header name := by
  have added : ∀ {m' : Message} {other value}, m'.header name = m.header name →
      (m'.withHeader other value).header name = m.header name := by
    intro m' other value same
    exact (Message.header_withHeader_of_some (same.trans_ne carried)).trans same
  exact added (added (added Message.header_withPayload))

theorem tenantOf_enveloped : tenantOf (stage.enveloped base64 m body wrapped) = tenantOf m :=
  header_congr (header_enveloped_of_ne (by decide))

theorem associatedData_enveloped {aad : String} (data : associatedData m names = .ok aad) :
    associatedData (stage.enveloped base64 m body wrapped) names = .ok aad := by
  rw [← data]
  apply associatedData_congr
  intro name hname
  exact header_enveloped_of_some (isSome_of_associatedData data hname)

section Plain

variable (plain : ∀ name ∈ envelopeHeaders, m.header name = none)

include plain

theorem header_dek : header (stage.enveloped base64 m body wrapped) Header.dek =
    .ok (String.ofList (base64.encode wrapped)) := by
  rw [header_eq_ok, enveloped, Message.header_withHeader_ne (by decide), Message.header_withHeader_ne (by decide),
    String.toList_ofList]
  exact Message.header_withHeader_self (plain Header.dek (by decide))

theorem header_dekAlgorithm : header (stage.enveloped base64 m body wrapped) Header.dekAlgorithm =
    .ok stage.algorithm.asStr := by
  rw [header_eq_ok, enveloped, Message.header_withHeader_ne (by decide)]
  apply Message.header_withHeader_self
  rw [Message.header_withHeader_ne (by decide)]
  exact plain Header.dekAlgorithm (by decide)

theorem header_dekBoundTo : header (stage.enveloped base64 m body wrapped) Header.dekBoundTo =
    .ok (join stage.boundTo) := by
  rw [header_eq_ok, enveloped]
  apply Message.header_withHeader_self
  rw [Message.header_withHeader_ne (by decide), Message.header_withHeader_ne (by decide)]
  exact plain Header.dekBoundTo (by decide)

theorem stripped_enveloped : stripped (stage.enveloped base64 m body wrapped) m.payload = m := by
  have restored : ∀ name ∈ envelopeHeaders, m.withoutHeader name = m := by
    intro name hname
    exact Message.withoutHeader_of_none (plain name hname)
  have algorithmNeDek : Header.dekAlgorithm ≠ Header.dek := by decide
  have boundToNeDek : Header.dekBoundTo ≠ Header.dek := by decide
  have boundToNeAlgorithm : Header.dekBoundTo ≠ Header.dekAlgorithm := by decide
  show (((((m.withHeader Header.dek _).withHeader Header.dekAlgorithm _).withHeader Header.dekBoundTo _).withoutHeader
    Header.dek).withoutHeader Header.dekAlgorithm).withoutHeader Header.dekBoundTo = m
  rw [Message.withoutHeader_withHeader_ne boundToNeDek, Message.withoutHeader_withHeader_ne algorithmNeDek,
    Message.withoutHeader_withHeader_self, restored Header.dek (by decide),
    Message.withoutHeader_withHeader_ne boundToNeAlgorithm, Message.withoutHeader_withHeader_self,
    Message.withoutHeader_withHeader_self, restored Header.dekAlgorithm (by decide),
    restored Header.dekBoundTo (by decide)]

end Plain

theorem header_stripped {payload : Octets} {name : String} (hname : name ∈ envelopeHeaders) :
    (stripped m payload).header name = none := by
  simp only [envelopeHeaders, List.mem_cons, List.not_mem_nil, or_false] at hname
  obtain rfl | rfl | rfl := hname
  · exact Message.header_withoutHeader_of_none (Message.header_withoutHeader_of_none Message.header_withoutHeader)
  · exact Message.header_withoutHeader_of_none Message.header_withoutHeader
  · exact Message.header_withoutHeader

theorem Opens.plain (h : Opens aead base64 stage m opened) : ∀ name ∈ envelopeHeaders, opened.header name = none := by
  intro name hname
  cases h
  exact header_stripped hname

/-- One tenant, and one value of every header a payload is bound to. -/
structure SameBinding (stage : EnvelopeStage) (m m' : Message) : Prop where
  tenant : tenantOf m' = tenantOf m
  bound : ∀ name ∈ stage.boundTo, m'.header name = m.header name

/-- A payload opens where the tenant, the names and the values are those it was sealed with. -/
theorem Seals.alone {opener : EnvelopeStage} (seals : Seals aead base64 stage m sealed) (kms : opener.kms = stage.kms)
    (payload : m'.payload = sealed.payload) (opens : Opens aead base64 opener m' opened) :
    SameBinding stage m m' ∧ ∃ names, header m' Header.dekBoundTo = .ok names ∧ split names = stage.boundTo := by
  obtain ⟨tenant, data, drawn, keyed, encrypted⟩ := seals
  obtain ⟨tenant', carried', decoded', named', known', bound', data', unwrapped', keyed', decrypted'⟩ := opens
  rw [payload] at decrypted'
  have opening := (Aes256Gcm.decrypt_eq encrypted _).symm.trans decrypted'
  split at opening
  case isFalse => cases opening
  case isTrue same =>
    obtain ⟨keys, texts⟩ := same
    have made := Control.mapError_eq_ok.mp keyed'
    rw [aad_of_new keyed, aad_of_new made] at texts
    rw [key_of_new keyed, key_of_new made] at keys
    obtain rfl := String.toList_inj.mp (utf8_injective texts)
    obtain ⟨names, values⟩ := headers_of_associatedData data data'
    have owner := stage.kms.owned (keys ▸ drawn) (kms ▸ opener.kms.unwraps.mp unwrapped')
    refine ⟨⟨?_, fun name hname => (values name hname).symm⟩, _, bound', names.symm⟩
    rw [tenant, tenant', owner]

/-- The message comes back through the stage that sealed it. -/
theorem Seals.opens_iff (seals : Seals aead base64 stage m sealed) :
    Opens aead base64 stage sealed m ↔
      split (join stage.boundTo) = stage.boundTo ∧ ∀ name ∈ envelopeHeaders, m.header name = none := by
  constructor
  · intro opens
    obtain ⟨_, names, carried, read⟩ := seals.alone rfl rfl opens
    have plain := opens.plain
    cases seals
    obtain rfl := Except.ok.inj ((header_dekBoundTo plain).symm.trans carried)
    exact ⟨read, plain⟩
  · rintro ⟨names, plain⟩
    obtain ⟨tenant, data, drawn, keyed, encrypted⟩ := seals
    rename_i tenantId aad dek wrapped body nonce cipher
    have decoded : base64.decode (String.ofList (base64.encode wrapped)).toList = .ok wrapped := by
      rw [String.toList_ofList, base64.decode_encode]
    have known : Algorithm.fromStr stage.algorithm.asStr = .ok stage.algorithm := rfl
    have bound : associatedData (stage.enveloped base64 m body wrapped) (split (join stage.boundTo)) = .ok aad := by
      rw [names]
      exact associatedData_enveloped data
    have decrypted : cipher.decrypt aead (stage.enveloped base64 m body wrapped).payload = .ok m.payload :=
      (Aes256Gcm.decrypt_eq encrypted cipher).trans (if_pos ⟨rfl, rfl⟩)
    have opened := Opens.intro (tenantOf_enveloped.trans tenant) (header_dek plain) decoded (header_dekAlgorithm plain)
      known (header_dekBoundTo plain) bound (stage.kms.unwraps.mpr drawn) (Control.mapError_eq_ok.mpr keyed) decrypted
    rwa [stripped_enveloped plain] at opened

theorem sealWith_ok {nonce : Nonce} {tenantId aad : String} {dek wrapped : Octets}
    (drawn : stage.kms.Drawn tenantId dek wrapped) (short : m.payload.length ≤ 2 ^ 36)
    (few : (utf8 aad.toList).length ≤ 2 ^ 36) : ∃ sealed, stage.sealWith aead base64 nonce m aad dek wrapped = .ok sealed := by
  have sized := stage.kms.sized drawn
  have keyed : Aes256Gcm.new dek (utf8 aad.toList) = .ok ⟨dek, utf8 aad.toList, sized⟩ := dif_pos sized
  obtain ⟨body, hbody⟩ := Aes256Gcm.encrypt_ok aead ⟨dek, utf8 aad.toList, sized⟩ nonce short few
  exact ⟨_, sealWith_eq_ok.mpr ⟨_, body, keyed, hbody, rfl⟩⟩

end EnvelopeStage

/-! ## Stages -/

open EnvelopeStage Stage

variable {aead : AesGcm} {base64 : Base64} {passes : List Pass} {sealed : Message}

namespace Pass

/-- The message has its headers as text, the service answers, and nothing is too long to seal. -/
structure Ready (pass : Pass) (m : Message) : Prop where
  tenant : ∃ tenantId, tenantOf m = .ok tenantId
  bound : ∀ name ∈ pass.stage.boundTo, ∃ text, header m name = .ok text
  answered : ∀ tenantId, tenantOf m = .ok tenantId → ∃ dek wrapped, pass.call.generateDek tenantId = .ok (dek, wrapped)
  short : m.payload.length ≤ 2 ^ 36
  few : ∀ aad, associatedData m pass.stage.boundTo = .ok aad → (utf8 aad.toList).length ≤ 2 ^ 36

variable {pass : Pass}

theorem seals (h : (pass.toStage aead base64).outbound m = .ok sealed) : Seals aead base64 pass.stage m sealed :=
  seals_of_outbound pass.reached pass.drawn h

theorem outbound_ok (ready : pass.Ready m) : ∃ sealed, (pass.toStage aead base64).outbound m = .ok sealed := by
  obtain ⟨tenantId, tenant⟩ := ready.tenant
  obtain ⟨aad, data⟩ : ∃ aad, associatedData m pass.stage.boundTo = .ok aad := by
    obtain ⟨pairs, hpairs⟩ := Control.mapM_eq_ok (f := pairOf m) fun name hname =>
      (ready.bound name hname).imp' (Prod.mk name) fun text htext => pairOf_eq_ok.mpr ⟨rfl, htext⟩
    exact ⟨_, Control.bind_eq_ok.mpr ⟨pairs, hpairs, rfl⟩⟩
  have few := ready.few aad data
  show ∃ sealed, (pass.stage.outbound aead base64 pass.servings pass.call m).1 = .ok sealed
  unfold EnvelopeStage.outbound
  rw [tenant, data]
  dsimp only
  split
  case h_1 dek wrapped servings' hserving =>
    exact sealWith_ok (drawn_of_serving pass.reached.keyed hserving) ready.short few
  case h_2 =>
    obtain ⟨dek, wrapped, answer⟩ := ready.answered tenantId tenant
    rw [answer]
    exact sealWith_ok (pass.drawn answer) ready.short few

end Pass

/-- What a nesting of stages is for: the message comes back as it went out, and what a stage seals opens in no message
of another tenant or with another value of a bound header. -/
structure OpensWhatItSealed (aead : AesGcm) (base64 : Base64) (passes : List Pass) (m sealed : Message) : Prop where
  restored : inboundAll (passes.map (Pass.toStage aead base64)) sealed = .ok m
  alone : ∀ pass ∈ passes, ∀ before out after opened, (pass.toStage aead base64).outbound before = .ok out →
    after.payload = out.payload → (pass.toStage aead base64).inbound after = .ok opened →
      SameBinding pass.stage before after

/-- One stage or none, names that are read back from how they are joined, and no header of the envelope's. -/
def Sealable : List Pass → Message → Prop
  | [], _ => True
  | [pass], m => (pass.stage.boundTo ≠ [] ∧ ∀ name ∈ pass.stage.boundTo, ',' ∉ name.toList) ∧
    ∀ name ∈ envelopeHeaders, m.header name = none
  | _, _ => False

/-- A stage lets in a message that carries a key, and leaves none. -/
theorem never_restored (many : 2 ≤ passes.length) :
    inboundAll (passes.map (Pass.toStage aead base64)) sealed ≠ .ok m := by
  apply inboundAll_ne_ok fun m => m.header Header.dek ≠ none
  · intro stage hstage m m' h
    obtain ⟨pass, _, rfl⟩ := List.mem_map.mp hstage
    exact not_not_intro ((inbound_eq_ok.mp h).plain Header.dek List.mem_cons_self)
  · intro stage hstage m m' h
    obtain ⟨pass, _, rfl⟩ := List.mem_map.mp hstage
    obtain ⟨tenant, carried⟩ := inbound_eq_ok.mp h
    rw [header_eq_ok.mp carried]
    rintro ⟨⟩
  · rwa [List.length_map]

theorem restored_iff (h : outboundAll (passes.map (Pass.toStage aead base64)) m = .ok sealed) :
    inboundAll (passes.map (Pass.toStage aead base64)) sealed = .ok m ↔ Sealable passes m := by
  rcases passes with _ | ⟨pass, _ | ⟨other, rest⟩⟩
  · cases h
    exact iff_of_true rfl trivial
  · rw [List.map_singleton, outboundAll_single] at h
    rw [List.map_singleton, inboundAll_single, Sealable, ← split_join_iff, ← (Pass.seals h).opens_iff]
    exact inbound_eq_ok
  · exact iff_of_false (never_restored (Nat.le_add_left 2 _)) id

/-- Stages send the messages they may, and what they seal they open, if they are sealable. -/
theorem opens_what_it_sealed_iff (aead : AesGcm) (base64 : Base64) (passes : List Pass) (m : Message) :
    (∀ pass ∈ passes, pass.Ready m → ∃ sealed, (pass.toStage aead base64).outbound m = .ok sealed) ∧
      ∀ sealed, outboundAll (passes.map (Pass.toStage aead base64)) m = .ok sealed →
        (OpensWhatItSealed aead base64 passes m sealed ↔ Sealable passes m) := by
  refine ⟨fun pass _ ready => Pass.outbound_ok ready, fun sealed h => ?_⟩
  rw [← restored_iff h]
  constructor
  · exact OpensWhatItSealed.restored
  · intro restored
    refine ⟨restored, ?_⟩
    intro pass _ before out after opened sealing payload opening
    exact ((Pass.seals sealing).alone rfl payload (inbound_eq_ok.mp opening)).1

/-! ## A tenant's messages -/

def key : Octets := List.replicate 32 7

def drawnFor (tenantId : String) : Except KmsError (Octets × Octets) :=
  if tenantId = "acme" then .ok (key, [1]) else .error (.refused .transport)

/-- A service with one tenant, one key and one wrapping of it. -/
def oneKey : IdealKms where
  Drawn tenantId dek wrapped := tenantId = "acme" ∧ wrapped = [1] ∧ key = dek
  decryptDek tenantId wrapped :=
    if tenantId = "acme" ∧ wrapped = [1] then .ok key else .error (.refused (.kekNotFound tenantId none))
  unwraps {tenantId dek wrapped} := by
    split
    case isTrue known => exact (Except.ok.injEq _ _).to_iff.trans (by rw [← and_assoc, and_iff_right known])
    case isFalse other =>
      constructor
      · rintro ⟨⟩
      · exact fun h => absurd ⟨h.1, h.2.1⟩ other
  owned h h' := h.1.trans h'.1.symm
  sized h := h.2.2 ▸ rfl

theorem drawn_of_drawnFor {tenantId : String} {dek wrapped : Octets} (h : drawnFor tenantId = .ok (dek, wrapped)) :
    oneKey.Drawn tenantId dek wrapped := by
  unfold drawnFor at h
  split at h
  · cases h
    exact ⟨‹_›, rfl, rfl⟩
  · cases h

/-- A stage that is new, bound to the headers. -/
def fresh (boundTo : List String) : Pass where
  stage := { EnvelopeStage.new oneKey with boundTo := boundTo }
  servings := fun _ => none
  reached := .start
  call := ⟨0, 0, drawnFor, ⟨List.replicate 12 0, rfl⟩⟩
  drawn := drawn_of_drawnFor

def paid : Message := ⟨none, [42], [("tenant_id", utf8 "acme".toList), ("message_id", utf8 "1".toList)]⟩

theorem fresh_ready {boundTo : List String} {aad : String} (tenant : tenantOf m = .ok "acme")
    (data : associatedData m boundTo = .ok aad) (short : m.payload.length ≤ 2 ^ 36)
    (few : (utf8 aad.toList).length ≤ 2 ^ 36) : (fresh boundTo).Ready m where
  tenant := ⟨_, tenant⟩
  bound _ hname := text_of_associatedData data hname
  answered tenantId named := by
    obtain rfl := Except.ok.inj (named.symm.trans tenant)
    exact ⟨key, [1], rfl⟩
  short := short
  few other same := Except.ok.inj (data.symm.trans same) ▸ few

def identity : List String := [Header.tenantId, Header.messageId]

def boundToIdentity : String := "[[\"tenant_id\",\"acme\"],[\"message_id\",\"1\"]]"

theorem paid_ready : (fresh identity).Ready paid := by
  have data : associatedData paid identity = .ok boundToIdentity := by decide +kernel
  exact fresh_ready (header_eq_ok.mpr rfl) data (by decide) (by decide +kernel)

/-- A payment comes back through one stage. -/
theorem paid_opened : ∃ sealed, outboundAll ([fresh identity].map (Pass.toStage AesGcm.framed Base64.standard)) paid = .ok sealed ∧
    OpensWhatItSealed AesGcm.framed Base64.standard [fresh identity] paid sealed := by
  have sends := (opens_what_it_sealed_iff AesGcm.framed Base64.standard [fresh identity] paid).1
  obtain ⟨sealed, sealing⟩ := sends (fresh identity) List.mem_cons_self paid_ready
  have sealable : Sealable [fresh identity] paid := ⟨⟨by decide, by decide +kernel⟩, by decide +kernel⟩
  have out := outboundAll_single.trans sealing
  exact ⟨sealed, out, ((opens_what_it_sealed_iff AesGcm.framed Base64.standard [fresh identity] paid).2 sealed out).mpr sealable⟩

/-- A payment sealed twice never comes back, and one that is bound to no header does not either. -/
theorem paid_never_opened :
    (∃ sealed, outboundAll ([fresh identity, fresh identity].map (Pass.toStage AesGcm.framed Base64.standard)) paid = .ok sealed ∧
      ¬ OpensWhatItSealed AesGcm.framed Base64.standard [fresh identity, fresh identity] paid sealed) ∧
    ∃ sealed, outboundAll ([fresh []].map (Pass.toStage AesGcm.framed Base64.standard)) paid = .ok sealed ∧
      ¬ OpensWhatItSealed AesGcm.framed Base64.standard [fresh []] paid sealed := by
  constructor
  · obtain ⟨sealed, out⟩ : ∃ sealed,
        outboundAll ([fresh identity, fresh identity].map (Pass.toStage AesGcm.framed Base64.standard)) paid = .ok sealed :=
      Control.ok_of_isOk (by decide +kernel)
    exact ⟨sealed, out, fun opens => never_restored (by decide) opens.restored⟩
  · have data : associatedData paid [] = .ok "[]" := by decide +kernel
    have ready : (fresh []).Ready paid := fresh_ready (header_eq_ok.mpr rfl) data (by decide) (by decide)
    obtain ⟨sealed, sealing⟩ := Pass.outbound_ok ready
    have out : outboundAll ([fresh []].map (Pass.toStage AesGcm.framed Base64.standard)) paid = .ok sealed :=
      outboundAll_single.trans sealing
    exact ⟨sealed, out, fun opens => ((restored_iff out).mp opens.restored).1.1 rfl⟩

end AsceticDdd.Dek.Envelope
