import AsceticDdd.Kms.Held

/-!
# What a run leaves of what was wrapped

A data key opens for the tenant and the context it was wrapped for, until its version is retired or the tenant's key is
deleted, however services rotated, retired, deleted and made keys meanwhile.
-/

namespace AsceticDdd.Kms.Pg

open Control Crypto Versions
open Dek.Bound (fromBeBytes fromBeBytes_toBeBytes)

/-- The version that wrapped bytes name. -/
def versionOf (bytes : Octets) : Nat := fromBeBytes (bytes.take versionSize)

/-- A call that answers with a data key wrapped: given it, drawing it, or opening it as it was wrapped before. -/
inductive Call.Wraps (aead : AesGcm) (table : Keks) : Call → (tenantId : String) → (dek bytes : Octets) → Prop
  | encrypted {service : PgKeyManagementService} {tenantId : String} {dek bytes : Octets} {making : Making}
      {nonce : Nonce} (h : (service.encryptDek aead table tenantId dek making nonce).1 = .ok bytes) :
      Wraps aead table ⟨service, .encryptDek tenantId dek making nonce⟩ tenantId dek bytes
  | generated {service : PgKeyManagementService} {tenantId : String} {fresh : FreshKey} {dek bytes : Octets}
      {making : Making} {nonce : Nonce}
      (h : (service.generateDek aead table tenantId fresh making nonce).1 = .ok (dek, bytes)) :
      Wraps aead table ⟨service, .generateDek tenantId fresh making nonce⟩ tenantId dek bytes
  | rewrapped {service : PgKeyManagementService} {tenantId : String} {dek earlier bytes : Octets} {making : Making}
      {nonce : Nonce} (opened : service.decryptDek aead table tenantId earlier = .ok dek)
      (h : (service.rewrapDek aead table tenantId earlier making nonce).1 = .ok bytes) :
      Wraps aead table ⟨service, .rewrapDek tenantId earlier making nonce⟩ tenantId dek bytes

variable {aead : AesGcm} {service : PgKeyManagementService} {table : Keks} {tenantId : String} {row row' : KekRow}
  {master master' key : Octets} {kek : Kek} {making : Making} {call : Call} {calls earlier later : List Call}
  {dek dek' bytes : Octets} {keys : List Octets}

/-- Each version has one row, each row a key of its own, of those drawn. -/
structure Sound (aead : AesGcm) (table : Keks) (keys : List Octets) : Prop where
  distinct : Distinct table
  small : ∀ row ∈ table, row.version < 2 ^ 31
  held : ∀ row ∈ table, ∃ master, ∃ key ∈ keys, Holds aead row master key
  apart : ∀ row ∈ table, ∀ row' ∈ table, ∀ {master master' key}, Holds aead row master key →
    Holds aead row' master' key → row = row'

theorem Sound.allHold (sound : Sound aead table keys) : AllHold aead table := by
  intro row mem
  obtain ⟨master, key, _, holds⟩ := sound.held row mem
  exact ⟨master, key, holds⟩

theorem drawn_append (earlier later : List Call) : drawn (earlier ++ later) = drawn earlier ++ drawn later :=
  List.filterMap_append

theorem mem_drawn (h : call.request.making = some making) : making.key.bytes ∈ drawn [call] := by
  rw [drawn, List.filterMap_cons, h]
  exact List.mem_singleton_self _

theorem Sound.step (sound : Sound aead table keys) (fresh : ∀ key ∈ drawn [call], key ∉ keys) :
    Sound aead ((call.write aead table).apply table) (keys ++ drawn [call]) := by
  have added : ∀ {row}, call.write aead table = .insert row → ∃ making, making.key.bytes ∈ drawn [call] ∧
      Adds aead call.service table making row := by
    intro row h
    have written := writes sound.allHold call
    rw [h] at written
    cases written with
    | insert draws adds => exact ⟨_, mem_drawn draws, adds⟩
  -- A row added holds a key that no row of the table holds.
  have new : ∀ {row row'}, row ∈ table → call.write aead table = .insert row' → ∀ {master master' key},
      Holds aead row master key → Holds aead row' master' key → False := by
    intro row row' mem h master master' key holds holds'
    obtain ⟨making, draws, adds⟩ := added h
    obtain ⟨_, other, known, holding⟩ := sound.held row mem
    rw [(holding.unique holds).2] at known
    rw [← (holds'.unique adds.holds).2] at draws
    exact fresh key draws known
  refine ⟨sound.distinct.apply ?_, ?_, ?_, ?_⟩
  · intro row h
    obtain ⟨_, _, adds⟩ := added h
    exact adds.next
  · intro row mem
    obtain ⟨mem, _⟩ | h := mem_apply.mp mem
    · exact sound.small row mem
    · obtain ⟨_, _, adds⟩ := added h
      exact adds.small
  · intro row mem
    obtain ⟨mem, _⟩ | h := mem_apply.mp mem
    · obtain ⟨master, key, known, holds⟩ := sound.held row mem
      exact ⟨master, key, List.mem_append_left _ known, holds⟩
    · obtain ⟨making, draws, adds⟩ := added h
      exact ⟨_, _, List.mem_append_right _ draws, adds.holds⟩
  · intro row mem row' mem' master master' key holds holds'
    obtain ⟨mem, _⟩ | h := mem_apply.mp mem
    · obtain ⟨mem', _⟩ | h' := mem_apply.mp mem'
      · exact sound.apart row mem row' mem' holds holds'
      · exact (new mem h' holds holds').elim
    · obtain ⟨mem', _⟩ | h' := mem_apply.mp mem'
      · exact (new mem' h holds' holds).elim
      · exact Write.insert.inj (h.symm.trans h')

/-- The tables of runs. -/
theorem sound_after (calls : List Call) (sound : Sound aead table keys) (fresh : (keys ++ drawn calls).Nodup) :
    Sound aead (after aead table calls) (keys ++ drawn calls) := by
  induction calls generalizing table keys with
  | nil => rwa [drawn, List.filterMap_nil, List.append_nil]
  | cons call calls ih =>
    have split : drawn (call :: calls) = drawn [call] ++ drawn calls := drawn_append [call] calls
    rw [split, ← List.append_assoc] at fresh ⊢
    refine ih (sound.step ?_) fresh
    intro key draws known
    exact List.disjoint_of_nodup_append (List.nodup_append.mp fresh).1 known draws

theorem sound_nil (aead : AesGcm) : Sound aead [] [] where
  distinct := List.nodup_nil
  small := List.forall_mem_nil _
  held := List.forall_mem_nil _
  apart := List.forall_mem_nil _

theorem takes_iff (held : AllHold aead table) :
    (call.write aead table).Takes row ↔ call.Retires table row.key row.version := by
  have written := writes held call
  generalize call.write aead table = write at written
  cases written with
  | nothing kept => exact (iff_false_right (kept _ _)).mpr id
  | insert _ _ kept => exact (iff_false_right (kept _ _)).mpr id
  | deleteBelow asked retired =>
    rw [Call.Retires, asked]
    exact ⟨fun h => ⟨h.1.symm, h.2, retired⟩, fun h => ⟨h.1.symm, h.2.1⟩⟩
  | deleteAll asked =>
    rw [Call.Retires, asked]
    exact eq_comm

theorem allHold_after (calls : List Call) (held : AllHold aead table) : AllHold aead (after aead table calls) := by
  refine run_invariant ?_ held
  intro table call _ held row mem
  obtain ⟨mem, _⟩ | h := mem_apply.mp mem
  · exact held row mem
  · have written := writes held call
    rw [h] at written
    cases written with
    | insert _ adds => exact ⟨_, _, adds.holds⟩

/-- A row that calls added holds a key they drew. -/
theorem draws_of_insert (held : AllHold aead table) {before rest : List Call} (split : calls = before ++ call :: rest)
    (h : call.write aead (after aead table before) = .insert row) :
    ∃ master, ∃ key ∈ drawn calls, Holds aead row master key := by
  have written := writes (allHold_after before held) call
  rw [h] at written
  cases written with
  | insert draws adds =>
    refine ⟨_, _, ?_, adds.holds⟩
    rw [split, drawn_append, ← List.singleton_append, drawn_append]
    exact List.mem_append_right _ (List.mem_append_left _ (mem_drawn draws))

/-- After calls that draw other keys, a row is where the key it holds is found. -/
theorem mem_after (row' : KekRow) (master' : Octets) (sound : Sound aead table keys)
    (fresh : (keys ++ drawn later).Nodup) (mem : row ∈ table)
    (holds : Holds aead row master key) : (row' ∈ after aead table later ∧ Holds aead row' master' key) ↔
      row' = row ∧ master' = master ∧ ∀ before other rest, later = before ++ other :: rest →
        ¬other.Retires (after aead table before) row.key row.version := by
  have known : key ∈ keys := by
    obtain ⟨_, _, known, held⟩ := sound.held row mem
    rwa [(held.unique holds).2] at known
  have drawnLater : ∀ {row}, Holds aead row master' key ∨ Holds aead row master key → ∀ {before other rest},
      later = before ++ other :: rest → other.write aead (after aead table before) ≠ .insert row := by
    intro row held before other rest split inserted
    obtain ⟨_, other, draws, holding⟩ := draws_of_insert sound.allHold split inserted
    have same : other = key := by
      obtain held | held := held
      · exact (holding.unique held).2
      · exact (holding.unique held).2
    exact List.disjoint_of_nodup_append fresh known (same ▸ draws)
  have kept : row ∈ after aead table later ↔ ∀ before other rest, later = before ++ other :: rest →
      ¬other.Retires (after aead table before) row.key row.version := by
    refine (mem_run fun before other rest split => drawnLater (Or.inr holds) split).trans ?_
    refine (and_iff_right mem).trans (forall₃_congr fun before other rest => imp_congr_right fun _ => not_congr ?_)
    exact takes_iff (allHold_after _ sound.allHold)
  constructor
  · rintro ⟨mem', held⟩
    have there : row' ∈ table := by
      obtain there | ⟨before, other, rest, split, inserted⟩ := mem_of_mem_run mem'
      · exact there
      · exact absurd inserted (drawnLater (Or.inl held) split)
    obtain rfl := sound.apart row' there row mem held holds
    exact ⟨rfl, (held.unique holds).1, kept.mp mem'⟩
  · rintro ⟨rfl, rfl, untaken⟩
    exact ⟨kept.mpr untaken, holds⟩

/-- Bytes that a row's key wrapped open under a row that holds the key. -/
theorem decryptDek_eq_ok (distinct : Distinct table) (held : AllHold aead table) {nonce : Nonce} {wrapped : WrappedKey}
    (hwrap : kek.wrap aead nonce dek = .ok wrapped) (small : kek.version < 2 ^ 31) :
    service.decryptDek aead table tenantId wrapped.toBytes = .ok dek' ↔
      ∃ row ∈ table, row.key = tenantId ∧ row.version = kek.version ∧
        Holds aead row service.masterKey kek.cipher.key ∧
          binding tenantId service.context = kek.cipher.aad ∧ dek' = dek := by
  have hwrap := mapError_eq_ok.mp hwrap
  obtain ⟨number, _⟩ := WrappedKey.wrap_eq_ok hwrap
  have parsed : WrappedKey.parse wrapped.toBytes = .ok wrapped := WrappedKey.parse_toBytes (by omega)
  have stored : storedVersion kek.version = .ok kek.version := if_pos small
  have read : service.decryptDek aead table tenantId wrapped.toBytes = (do
      let found ← service.kek aead table tenantId kek.version
      found.unwrap aead wrapped) := by
    rw [PgKeyManagementService.decryptDek, parsed, ok_bind, number]
  have opens : ∀ {row found}, Loads aead service tenantId row found → row.version = kek.version →
      (found.unwrap aead wrapped = .ok dek' ↔ kek.cipher.key = found.cipher.key ∧
        kek.cipher.aad = found.cipher.aad ∧ dek' = dek) := by
    intro row found loads same
    have hwrap := hwrap
    rw [← same, ← loads.version] at hwrap
    rw [Kek.unwrap, WrappedKey.unwrap_eq hwrap]
    split
    · rename_i both
      refine ⟨fun h => ⟨both.1, both.2, (Except.ok.inj h).symm⟩, ?_⟩
      rintro ⟨_, _, rfl⟩
      rfl
    · rename_i apart
      refine ⟨?_, fun h => absurd ⟨h.1, h.2.1⟩ apart⟩
      rintro ⟨⟩
  rw [read]
  constructor
  · intro h
    obtain ⟨found, hfound, h⟩ := bind_eq_ok.mp h
    rw [PgKeyManagementService.kek, stored, ok_bind] at hfound
    split at hfound
    · rename_i row hrow
      obtain ⟨mem, _, same⟩ := Table.find_spec hrow
      obtain ⟨_, _, holds⟩ := held row mem
      have loads := loads_of_loadKek holds hfound
      obtain ⟨keys, bound, rfl⟩ := (opens loads same).mp h
      exact ⟨row, mem, loads.owner, same, keys ▸ loads.holds, loads.bound.symm.trans bound.symm, rfl⟩
    · cases hfound
  · rintro ⟨row, mem, owner, same, holds, bound, rfl⟩
    obtain ⟨found, hfound⟩ := (loadKek_iff holds).mpr ⟨rfl, owner⟩
    have loads := loads_of_loadKek holds hfound
    rw [PgKeyManagementService.kek, stored, ok_bind, distinct.find_eq_some.mpr ⟨mem, owner, same⟩]
    refine bind_eq_ok.mpr ⟨found, hfound, (opens loads same).mpr ⟨?_, ?_, rfl⟩⟩
    · exact (holds.unique loads.holds).2
    · exact bound.symm.trans loads.bound.symm

/-- The current key's row is in the table that is left, the latest of the tenant's there. -/
theorem mem_of_getOrCreate (held : AllHold aead table) {write : KekWrite}
    (h : service.getOrCreateCurrentKek aead table tenantId making = .ok (kek, write)) :
    ∃ row ∈ write.apply table, Loads aead service tenantId row kek ∧
      ∀ other ∈ write.apply table, other.key = tenantId → other.version ≤ row.version := by
  obtain ⟨row, loads, ⟨rfl, current⟩ | ⟨rfl, adds⟩⟩ := getOrCreateCurrentKek_eq_ok held h
  · obtain ⟨mem, _, latest⟩ := Table.current_spec current
    refine ⟨row, mem_apply.mpr (Or.inl ⟨mem, id⟩), loads, ?_⟩
    intro other hother owner
    obtain ⟨there, _⟩ | ⟨⟨⟩⟩ := mem_apply.mp hother
    exact (Table.latest_eq_some.mp latest).2 other there owner
  · refine ⟨row, mem_apply.mpr (Or.inr rfl), loads, ?_⟩
    intro other hother owner
    obtain ⟨there, _⟩ | same := mem_apply.mp hother
    · have lower := lt_next there
      rw [owner, ← loads.owner, ← adds.next] at lower
      exact Nat.le_of_lt lower
    · rw [Write.insert.inj same]

theorem Call.Wraps.not_retires (h : call.Wraps aead table tenantId dek bytes) {tenant : String} {version : Nat} :
    ¬call.Retires table tenant version := by
  cases h <;> exact id

/-- A wrapped data key is wrapped by the key of the latest row. -/
theorem exists_of_wraps (held : AllHold aead table) (h : call.Wraps aead table tenantId dek bytes) :
    ∃ row ∈ (call.write aead table).apply table, ∃ kek nonce wrapped, Loads aead call.service tenantId row kek ∧
      kek.wrap aead nonce dek = .ok wrapped ∧ bytes = wrapped.toBytes ∧
        ∀ other ∈ (call.write aead table).apply table, other.key = tenantId → other.version ≤ row.version := by
  cases h with
  | @encrypted service tenantId dek bytes making nonce h =>
    obtain ⟨kek, write, found, answer, rfl⟩ := answering_eq_ok h
    obtain ⟨wrapped, hwrapped, rfl⟩ := map_eq_ok.mp answer
    obtain ⟨row, mem, loads, latest⟩ := mem_of_getOrCreate held found
    exact ⟨row, mem, kek, nonce, wrapped, loads, hwrapped, rfl, latest⟩
  | @generated service tenantId fresh dek bytes making nonce h =>
    obtain ⟨kek, write, found, answer, rfl⟩ := answering_eq_ok h
    obtain ⟨made, hmade, same⟩ := map_eq_ok.mp answer
    obtain ⟨wrapped, hwrapped, hmade⟩ := bind_eq_ok.mp hmade
    cases hmade
    cases same
    obtain ⟨row, mem, loads, latest⟩ := mem_of_getOrCreate held found
    exact ⟨row, mem, kek, nonce, wrapped, loads, hwrapped, rfl, latest⟩
  | @rewrapped service tenantId dek earlier bytes making nonce opened h =>
    obtain ⟨before, hparsed, opened⟩ := bind_eq_ok.mp opened
    obtain ⟨old, hold, opened⟩ := bind_eq_ok.mp opened
    have read : service.rewrapDek aead table tenantId earlier making nonce =
        answering (service.getOrCreateCurrentKek aead table tenantId making) fun kek =>
          (kek.rewrap aead nonce before old).map WrappedKey.toBytes := by
      rw [PgKeyManagementService.rewrapDek, hparsed, ok_bind, hold]
      rfl
    have written : (Call.write aead table ⟨service, .rewrapDek tenantId earlier making nonce⟩) =
        (service.rewrapDek aead table tenantId earlier making nonce).2 := rfl
    rw [written, read]
    rw [read] at h
    obtain ⟨kek, write, found, answer, rfl⟩ := answering_eq_ok h
    obtain ⟨wrapped, hwrapped, rfl⟩ := map_eq_ok.mp answer
    rw [Kek.rewrap, opened, ok_bind] at hwrapped
    obtain ⟨row, mem, loads, latest⟩ := mem_of_getOrCreate held found
    exact ⟨row, mem, kek, nonce, wrapped, loads, hwrapped, rfl, latest⟩

theorem versionOf_wrap {nonce : Nonce} {wrapped : WrappedKey} (h : kek.wrap aead nonce dek = .ok wrapped)
    (small : kek.version < 2 ^ 31) : versionOf wrapped.toBytes = kek.version := by
  have size : (toBeBytes wrapped.keyVersion).length = versionSize := rfl
  have number := (WrappedKey.wrap_eq_ok (mapError_eq_ok.mp h)).1
  rw [versionOf, WrappedKey.toBytes, List.take_left' size, fromBeBytes_toBeBytes (by omega), number]

/-- What is wrapped on a table opens after later calls where it was wrapped for, while none has taken its version. -/
theorem decryptDek_after (sound : Sound aead table keys) (fresh : (keys ++ drawn (call :: later)).Nodup)
    (wraps : call.Wraps aead table tenantId dek bytes) {service' : PgKeyManagementService} {tenantId' : String} :
    service'.decryptDek aead (after aead table (call :: later)) tenantId' bytes = .ok dek' ↔
      dek' = dek ∧ service'.masterKey = call.service.masterKey ∧ tenantId' = tenantId ∧
        service'.context = call.service.context ∧ ∀ before other rest, later = before ++ other :: rest →
          ¬other.Retires (after aead table (call :: before)) tenantId (versionOf bytes) := by
  have split : drawn (call :: later) = drawn [call] ++ drawn later := drawn_append [call] later
  have sound' := sound_after _ sound fresh
  rw [split, ← List.append_assoc] at fresh
  obtain ⟨row, mem, kek, nonce, wrapped, loads, hwrap, rfl, _⟩ := exists_of_wraps sound.allHold wraps
  have next : Sound aead ((call.write aead table).apply table) (keys ++ drawn [call]) :=
    sound_after [call] sound (List.nodup_append.mp fresh).1
  have small : kek.version < 2 ^ 31 := loads.version ▸ next.small row mem
  have number : versionOf wrapped.toBytes = row.version := (versionOf_wrap hwrap small).trans loads.version
  have kept := fun row' => mem_after row' service'.masterKey next fresh mem loads.holds
  rw [decryptDek_eq_ok sound'.distinct sound'.allHold hwrap small, number]
  constructor
  · rintro ⟨row', mem', owner, _, holds, bound, rfl⟩
    obtain ⟨rfl, masters, untaken⟩ := (kept row').mp ⟨mem', holds⟩
    have tenants : tenantId' = tenantId := owner.symm.trans loads.owner
    rw [loads.bound, tenants] at bound
    rw [loads.owner] at untaken
    exact ⟨rfl, masters, tenants, binding_injective bound, untaken⟩
  · rintro ⟨rfl, masters, rfl, contexts, untaken⟩
    rw [← loads.owner] at untaken
    obtain ⟨mem', holds⟩ := (kept row).mpr ⟨rfl, masters, untaken⟩
    refine ⟨row, mem', loads.owner, loads.version.symm, holds, ?_, rfl⟩
    rw [loads.bound, contexts]

theorem after_append : after aead table (earlier ++ later) = after aead (after aead table earlier) later := run_append

/-- Among the calls of services that draw keys apart, a data key that was wrapped opens where the master key, the tenant
and the context are those it was wrapped for, while no call has retired its version or deleted the tenant's key. -/
theorem decryptDek_iff (fresh : (drawn (earlier ++ call :: later)).Nodup)
    (wraps : call.Wraps aead (after aead [] earlier) tenantId dek bytes) (service' : PgKeyManagementService)
    (tenantId' : String) (dek' : Octets) :
    service'.decryptDek aead (after aead [] (earlier ++ call :: later)) tenantId' bytes = .ok dek' ↔
      dek' = dek ∧ service'.masterKey = call.service.masterKey ∧ tenantId' = tenantId ∧
        service'.context = call.service.context ∧ ∀ before other rest, later = before ++ other :: rest →
          ¬other.Retires (after aead [] (earlier ++ call :: before)) tenantId (versionOf bytes) := by
  rw [drawn_append] at fresh
  have sound := sound_after _ (sound_nil aead) (List.nodup_append.mp fresh).1
  simp only [after_append]
  exact decryptDek_after sound fresh wraps

def keyOf (byte : UInt8) : FreshKey := ⟨List.replicate Aes256Gcm.keySize byte, List.length_replicate⟩

def zeroNonce : Nonce := ⟨List.replicate Aes256Gcm.nonceSize 0, List.length_replicate⟩

/-- A service of one channel, that makes keys on first use. -/
def orders : PgKeyManagementService := ⟨(keyOf 0).bytes, .aes256Gcm, some "orders", false⟩

/-- A data key wrapped under a key made for it opens after a rotation. -/
theorem decryptDek_iff_orders : ∃ bytes, orders.decryptDek AesGcm.framed
    (after AesGcm.framed [] ([] ++ ⟨orders, .encryptDek "tenant" [7] ⟨keyOf 1, zeroNonce⟩ zeroNonce⟩ ::
      [⟨orders, .rotateKek "tenant" ⟨keyOf 2, zeroNonce⟩⟩])) "tenant" bytes = .ok [7] := by
  obtain ⟨bytes, h⟩ : ∃ bytes, (orders.encryptDek AesGcm.framed [] "tenant" [7] ⟨keyOf 1, zeroNonce⟩ zeroNonce).1 =
      .ok bytes := ⟨_, rfl⟩
  refine ⟨bytes, (decryptDek_iff (by decide) (.encrypted h) orders "tenant" [7]).mpr ⟨rfl, rfl, rfl, rfl, ?_⟩⟩
  intro before other rest split
  have mem : other ∈ before ++ other :: rest := List.mem_append_cons_self
  rw [← split, List.mem_singleton] at mem
  rw [mem]
  exact id

end AsceticDdd.Kms.Pg
