import AsceticDdd.Dek.Lasting

/-!
# Kept, or forgotten for good

A resource deleted has another key when it is made again, and a version retired is the last that its rows' keys were
wrapped under. What is done to the two tables keeps what was sealed, or nothing opens it any more.
-/

namespace AsceticDdd.Dek.Layered

open Canonical Control Crypto Kms Postgres Text
open Bound (VersionedCipher KmsError Algorithm)

variable {F : Type} [Floats F] {aead : AesGcm} {store : PgDekStore} {w : Tables} {r r' : Bound.Resource F} {row : Bound.Row}
  {keys deks : List Octets} {dek : Octets} {c : VersionedCipher} {draws : Draws} {act : Act F}
  {acts earlier later : List (Act F)}

/-- The tenants' keys an act draws. -/
def Act.keysDrawn : Act F → List Octets
  | .service call => Pg.drawn [call]
  | .getOrCreate _ draws => [draws.making.key.bytes]
  | .rewrap _ _ | .delete _ => []

/-- The resources' keys an act draws. -/
def Act.deksDrawn : Act F → List Octets
  | .getOrCreate _ draws => [draws.dek.bytes]
  | .service _ | .rewrap _ _ | .delete _ => []

/-- Tables of a run that drew keys: a row's key is one of them, wrapped by one of them. -/
structure Known (aead : AesGcm) (w : Tables) (keys deks : List Octets) : Prop extends Neat aead w where
  sound : Pg.Sound aead w.keks keys
  borne : ∀ row ∈ w.deks, ∃ dek ∈ deks, ∃ key ∈ keys, Pg.Bears aead row.encryptedDek dek key

theorem known_nil (aead : AesGcm) : Known aead ⟨[], []⟩ [] [] where
  toNeat := neat_nil aead
  sound := Pg.sound_nil aead
  borne := List.forall_mem_nil _

theorem Known.step (known : Known aead w keys deks) (fresh : ∀ key ∈ act.keysDrawn, key ∉ keys) :
    Known aead (step aead store w act) (keys ++ act.keysDrawn) (deks ++ act.deksDrawn) := by
  have wider : ∀ {row : Bound.Row}, row ∈ w.deks → ∃ dek ∈ deks ++ act.deksDrawn, ∃ key ∈ keys ++ act.keysDrawn,
      Pg.Bears aead row.encryptedDek dek key := by
    intro row mem
    obtain ⟨dek, hdek, key, hkey, bears⟩ := known.borne row mem
    exact ⟨dek, List.mem_append_left _ hdek, key, List.mem_append_left _ hkey, bears⟩
  have sound : Pg.Sound aead w.keks (keys ++ act.keysDrawn) := known.sound.mono (List.subset_append_left _ _)
  have neat : Neat aead (Layered.step aead store w act) := known.toNeat.step act
  cases act with
  | service call => exact ⟨neat, known.sound.step fresh, fun row => wider⟩
  | getOrCreate r draws =>
    have given := gives aead store w r draws
    generalize hout : store.getOrCreate aead w r draws = out at given
    simp only [Layered.step, hout] at neat ⊢
    cases given with
    | refused | found => exact ⟨neat, sound, fun row => wider⟩
    | @made dek bytes c absent drawn keyed =>
      have fresh : ∀ key ∈ Pg.drawn [store.generating r draws], key ∉ keys := fresh
      have sound := known.sound.step fresh
      refine ⟨neat, sound, ?_⟩
      intro row mem
      obtain mem | mem := List.mem_append.mp mem
      · exact wider mem
      · obtain rfl := List.mem_singleton.mp mem
        obtain ⟨kek, hkek, key, holds, bears⟩ := known.tidy.bears_of_wraps (.generated drawn)
        obtain rfl := Pg.dek_of_generateDek drawn
        exact ⟨_, List.mem_append_right _ (List.mem_singleton_self _), key, sound.mem_keys hkek holds, bears⟩
  | rewrap tenantId draws =>
    obtain ⟨keks, f, rows, rewrapped, _⟩ := known.toNeat.rewrap store tenantId draws
    refine ⟨neat, keks.symm ▸ sound, ?_⟩
    simp only [Layered.step, rows]
    intro row' mem'
    obtain ⟨row, mem, rfl⟩ := List.mem_map.mp mem'
    obtain same | ⟨dek, rewraps⟩ := (rewrapped row mem).again
    · rw [same]
      exact wider mem
    · obtain ⟨dek', hdek', key', _, bears'⟩ := known.borne row mem
      obtain ⟨rfl, _⟩ := bears'.of_decryptDek known.tidy rewraps.opened
      obtain ⟨kek, hkek, key, holds, bears⟩ := rewraps.bears
      exact ⟨dek, List.mem_append_left _ hdek', key, sound.mem_keys hkek holds, bears⟩
  | delete r => exact ⟨neat, sound, fun row mem => wider (List.mem_of_mem_filter mem)⟩

/-- No row of a resource's opens to a key, nor will it: it bears another, or the key it is wrapped by is gone. -/
def Lost (aead : AesGcm) (w : Tables) (keys : List Octets) (r : Bound.Resource F) (dek : Octets) : Prop :=
  ∀ row ∈ w.deks, IsOf row r → ∃ dek' key, key ∈ keys ∧ Pg.Bears aead row.encryptedDek dek' key ∧
    (dek' ≠ dek ∨ ∀ kek ∈ w.keks, ∀ master, ¬Pg.Holds aead kek master key)

theorem Lost.step (lost : Lost aead w keys r dek) (known : Known aead w keys deks)
    (fresh : ∀ key ∈ act.keysDrawn, key ∉ keys) (other : dek ∉ act.deksDrawn) :
    Lost aead (step aead store w act) (keys ++ act.keysDrawn) r dek := by
  -- The tenants' keys change by a call of the service.
  have called : ∀ {call : Pg.Call} {keys' : List Octets}, (∀ key ∈ Pg.drawn [call], key ∉ keys) →
      ∀ row ∈ w.deks, IsOf row r → ∃ dek' key, key ∈ keys ++ keys' ∧ Pg.Bears aead row.encryptedDek dek' key ∧
        (dek' ≠ dek ∨ ∀ kek ∈ (call.write aead w.keks).apply w.keks, ∀ master, ¬Pg.Holds aead kek master key) := by
    intro call keys' fresh row mem owned
    obtain ⟨dek', key, hkey, bears, gone⟩ := lost row mem owned
    exact ⟨dek', key, List.mem_append_left _ hkey, bears, gone.imp_right (known.sound.unheld_step hkey fresh)⟩
  have stays : Lost aead w (keys ++ act.keysDrawn) r dek := by
    intro row mem owned
    obtain ⟨dek', key, hkey, bears, gone⟩ := lost row mem owned
    exact ⟨dek', key, List.mem_append_left _ hkey, bears, gone⟩
  cases act with
  | service call => exact called fresh
  | getOrCreate r' draws =>
    have given := gives aead store w r' draws
    generalize hout : store.getOrCreate aead w r' draws = out at given
    simp only [Layered.step, hout]
    cases given with
    | refused | found => exact stays
    | @made dek' bytes c absent drawn keyed =>
      have fresh : ∀ key ∈ Pg.drawn [store.generating r' draws], key ∉ keys := fresh
      intro row mem owned
      obtain mem | mem := List.mem_append.mp mem
      · exact called fresh row mem owned
      · obtain rfl := List.mem_singleton.mp mem
        obtain ⟨kek, hkek, key, holds, bears⟩ := known.tidy.bears_of_wraps (.generated drawn)
        obtain rfl := Pg.dek_of_generateDek drawn
        have sound := known.sound.step fresh
        refine ⟨_, key, sound.mem_keys hkek holds, bears, Or.inl ?_⟩
        rintro rfl
        exact other (List.mem_singleton_self _)
  | rewrap tenantId draws =>
    obtain ⟨keks, f, rows, rewrapped, _⟩ := known.toNeat.rewrap store tenantId draws
    intro row' mem' owned'
    simp only [Layered.step, rows] at mem'
    simp only [Layered.step, keks]
    obtain ⟨row, mem, rfl⟩ := List.mem_map.mp mem'
    have owned := (rewrapped row mem).isOf_iff.mp owned'
    obtain same | ⟨dek', rewraps⟩ := (rewrapped row mem).again
    · rw [same]
      exact stays row mem owned
    · obtain ⟨dek', key, hkey, bears, gone⟩ := lost row mem owned
      obtain ⟨rfl, kek, hkek, _, _, holds⟩ := bears.of_decryptDek known.tidy rewraps.opened
      obtain ⟨kek', hkek', key', holds', bears'⟩ := rewraps.bears
      refine ⟨_, key', List.mem_append_left _ (known.sound.mem_keys hkek' holds'), bears', Or.inl ?_⟩
      exact gone.resolve_right fun unheld => unheld kek hkek _ holds
  | delete r' => exact fun row mem => stays row (List.mem_of_mem_filter mem)

/-- An act that does not spare a resource's key loses it. -/
theorem Known.lost (known : Known aead w keys deks) (serves : Serves aead store w r dek)
    (unspared : ¬act.Spares w r) (fresh : ∀ key ∈ act.keysDrawn, key ∉ keys) :
    Lost aead (Layered.step aead store w act) (keys ++ act.keysDrawn) r dek := by
  obtain ⟨row, mem, owned, opens⟩ := serves
  cases act with
  | service call =>
    obtain ⟨row', mem', owned', retires⟩ : ∃ row ∈ w.deks, IsOf row r ∧
        call.Retires w.keks r.tenantId (Pg.versionOf row.encryptedDek) := by
      by_contra none
      exact unspared fun row mem owned retires => none ⟨row, mem, owned, retires⟩
    obtain rfl := known.eq mem owned mem' owned'
    intro other hother owns
    obtain rfl := known.eq mem owned hother owns
    obtain ⟨dek', hdek', key, hkey, bears⟩ := known.borne row mem
    obtain ⟨rfl, kek, hkek, owner, version, holds⟩ := bears.of_decryptDek known.tidy opens
    refine ⟨_, key, List.mem_append_left _ hkey, bears, Or.inr ?_⟩
    intro kek' hkek' master holds'
    have taken : (call.write aead w.keks).Takes kek := by
      rw [Pg.takes_iff known.sound.allHold, owner, version]
      exact retires
    obtain ⟨there, untaken⟩ | inserted := Versions.mem_apply.mp hkek'
    · exact untaken (known.sound.apart kek hkek kek' there holds holds' ▸ taken)
    · rw [inserted] at taken
      exact taken
  | delete r' =>
    have same : r'.SameRow r := not_not.mp unspared
    intro row' mem' owned'
    refine absurd ?_ (of_decide_eq_true (List.mem_filter.mp mem').2)
    exact ⟨owned'.1.trans same.1.symm, owned'.2.1.trans same.2.1.symm, owned'.2.2.trans (Json.Same.symm same.2.2)⟩
  | getOrCreate | rewrap => exact absurd trivial unspared

/-- A run that draws keys no two alike. -/
structure Fresh (keys deks : List Octets) (acts : List (Act F)) : Prop where
  keys : (keys ++ acts.flatMap Act.keysDrawn).Nodup
  deks : (deks ++ acts.flatMap Act.deksDrawn).Nodup

omit [Floats F] in
theorem Fresh.tail (fresh : Fresh keys deks (act :: acts)) :
    Fresh (keys ++ act.keysDrawn) (deks ++ act.deksDrawn) acts := by
  obtain ⟨keys, deks⟩ := fresh
  rw [List.flatMap_cons, ← List.append_assoc] at keys deks
  exact ⟨keys, deks⟩

omit [Floats F] in
theorem Fresh.head (fresh : Fresh keys deks (act :: acts)) :
    (∀ key ∈ act.keysDrawn, key ∉ keys) ∧ ∀ dek ∈ deks, dek ∉ act.deksDrawn := by
  have first := fresh.tail
  constructor
  · intro key draws known
    exact List.disjoint_of_nodup_append (List.nodup_append.mp first.keys).1 known draws
  · intro dek known draws
    exact List.disjoint_of_nodup_append (List.nodup_append.mp first.deks).1 known draws

omit [Floats F] in
theorem Fresh.of_append (fresh : Fresh keys deks (earlier ++ later)) : Fresh keys deks earlier ∧
    Fresh (keys ++ earlier.flatMap Act.keysDrawn) (deks ++ earlier.flatMap Act.deksDrawn) later := by
  obtain ⟨keys, deks⟩ := fresh
  rw [List.flatMap_append, ← List.append_assoc] at keys deks
  exact ⟨⟨(List.nodup_append.mp keys).1, (List.nodup_append.mp deks).1⟩, ⟨keys, deks⟩⟩

theorem known_after (store : PgDekStore) (known : Known aead w keys deks) (fresh : Fresh keys deks acts) :
    Known aead (after aead store w acts) (keys ++ acts.flatMap Act.keysDrawn)
      (deks ++ acts.flatMap Act.deksDrawn) := by
  induction acts generalizing w keys deks with
  | nil =>
    rw [List.flatMap_nil, List.flatMap_nil, List.append_nil, List.append_nil]
    exact known
  | cons act acts ih =>
    rw [List.flatMap_cons, ← List.append_assoc, List.flatMap_cons, ← List.append_assoc]
    exact ih (known.step fresh.head.1) fresh.tail

theorem lost_after (lost : Lost aead w keys r dek) (known : Known aead w keys deks) (drawn : dek ∈ deks)
    (fresh : Fresh keys deks acts) :
    Lost aead (after aead store w acts) (keys ++ acts.flatMap Act.keysDrawn) r dek := by
  induction acts generalizing w keys deks with
  | nil =>
    rw [List.flatMap_nil, List.append_nil]
    exact lost
  | cons act acts ih =>
    rw [List.flatMap_cons, ← List.append_assoc]
    exact ih (lost.step known fresh.head.1 (fresh.head.2 dek drawn)) (known.step fresh.head.1)
      (List.mem_append_left _ drawn) fresh.tail

/-- A run spares a resource's key, or loses it. -/
theorem spared_or_lost (serves : Serves aead store w r dek) (known : Known aead w keys deks) (drawn : dek ∈ deks)
    (fresh : Fresh keys deks acts) : Spared aead store w r acts ∨
      Lost aead (after aead store w acts) (keys ++ acts.flatMap Act.keysDrawn) r dek := by
  induction acts generalizing w keys deks with
  | nil =>
    refine Or.inl ?_
    intro before act rest split
    exact absurd split.symm (List.append_ne_nil_of_right_ne_nil _ (List.cons_ne_nil _ _))
  | cons act acts ih =>
    have next : Known aead (step aead store w act) (keys ++ act.keysDrawn) (deks ++ act.deksDrawn) :=
      known.step fresh.head.1
    rw [List.flatMap_cons, ← List.append_assoc]
    by_cases spares : act.Spares w r
    · refine (ih (serves.step known.toNeat spares) next (List.mem_append_left _ drawn) fresh.tail).imp_left ?_
      intro spared before other rest split
      cases before with
      | nil =>
        obtain ⟨rfl, _⟩ := List.cons.inj split
        exact spares
      | cons first before =>
        obtain ⟨rfl, later⟩ := List.cons.inj split
        exact spared before other rest later
    · exact Or.inr (lost_after (known.lost serves spares fresh.head.1) next (List.mem_append_left _ drawn) fresh.tail)

/-- What a resource's lost key sealed, none of its keyrings opens. -/
theorem Lost.closed (lost : Lost aead w keys r dek) (neat : Neat aead w)
    (keyed : Bound.PgDekStore.cipher dek r 1 .aes256Gcm = .ok c) {nonce : Nonce} {plaintext sealed opened : Octets}
    (sealing : c.encrypt aead nonce plaintext = .ok sealed) {keyring : Bound.Keyring}
    (h : store.getAll aead w r draws = .ok keyring) : keyring.decrypt aead sealed ≠ .ok opened := by
  by_cases present : ∃ row ∈ w.deks, IsOf row r
  · obtain ⟨row, mem, owned⟩ := present
    obtain ⟨dek₁, c₁, opens, keyed₁, rfl⟩ := (neat.getAll_eq_ok mem owned).mp h
    obtain ⟨dek', key, _, bears, gone⟩ := lost row mem owned
    obtain ⟨rfl, kek, hkek, _, _, holds⟩ := bears.of_decryptDek neat.tidy opens
    have other := gone.resolve_right fun unheld => unheld kek hkek _ holds
    obtain ⟨version, key⟩ := cipher_eq_ok keyed
    obtain ⟨version₁, key₁⟩ := cipher_eq_ok keyed₁
    intro opened
    have same := ((decrypt_new sealing (version₁.trans version.symm)).mp opened).1
    rw [key, key₁] at same
    exact other same.symm
  · rw [getAll_absent fun row mem owned => present ⟨row, mem, owned⟩] at h
    cases h

/-- What was sealed with what a resource was given opens in a run that spares the resource's key, as it was, and in no
other. -/
theorem getAll_opens_iff (fresh : Fresh [] [] (earlier ++ .getOrCreate r draws :: later))
    (given : (store.getOrCreate aead (after aead store ⟨[], []⟩ earlier) r draws).1 = .ok c) {nonce : Nonce}
    {plaintext sealed : Octets} (sealing : c.encrypt aead nonce plaintext = .ok sealed) (reading : Draws)
    (opened : Octets) :
    (∃ keyring, store.getAll aead (after aead store ⟨[], []⟩ (earlier ++ .getOrCreate r draws :: later)) r reading =
        .ok keyring ∧ keyring.decrypt aead sealed = .ok opened) ↔
      Spared aead store (after aead store ⟨[], []⟩ (earlier ++ [.getOrCreate r draws])) r later ∧
        opened = plaintext := by
  have split : earlier ++ .getOrCreate r draws :: later = (earlier ++ [.getOrCreate r draws]) ++ later := by
    rw [List.append_assoc, List.singleton_append]
  rw [split] at fresh ⊢
  obtain ⟨freshBefore, freshLater⟩ := fresh.of_append
  have known := known_after store (known_nil aead) freshBefore
  obtain ⟨dek, serves, keyed⟩ := serves_of_getOrCreate (neat_after store (neat_nil aead) earlier) given
  have serves : Serves aead store (after aead store ⟨[], []⟩ (earlier ++ [.getOrCreate r draws])) r dek := by
    rw [after_append]
    exact serves
  obtain ⟨row, mem, owned, opens⟩ := id serves
  obtain ⟨dek', drawn, _, _, bears⟩ := known.borne row mem
  obtain ⟨rfl, _⟩ := bears.of_decryptDek known.tidy opens
  rw [after_append]
  constructor
  · rintro ⟨keyring, read, opens⟩
    obtain spared | lost := spared_or_lost serves known drawn freshLater
    · obtain ⟨ring, found, same⟩ := (serves_after serves known.toNeat spared).opens
        (neat_after store known.toNeat later) keyed sealing reading
      obtain rfl := Except.ok.inj (found.symm.trans read)
      exact ⟨spared, Except.ok.inj (opens.symm.trans same)⟩
    · exact absurd opens (lost.closed (neat_after store known.toNeat later) keyed sealing read)
  · rintro ⟨spared, rfl⟩
    exact (serves_after serves known.toNeat spared).opens (neat_after store known.toNeat later) keyed sealing reading

set_option maxRecDepth 4000 in
/-- Deleting an order forgets what was sealed for it. -/
theorem getAll_opens_iff_deleted : ∃ (c : VersionedCipher) (sealed : Octets),
    (orders.getOrCreate AesGcm.framed ⟨[], []⟩ Bound.orderOne drawsOne).1 = .ok c ∧
      c.encrypt AesGcm.framed Pg.zeroNonce [42] = .ok sealed ∧
        ¬∃ keyring, orders.getAll AesGcm.framed (after AesGcm.framed orders ⟨[], []⟩
          [.getOrCreate Bound.orderOne drawsOne, .delete Bound.orderOne]) Bound.orderOne drawsOne = .ok keyring ∧
            keyring.decrypt AesGcm.framed sealed = .ok [42] := by
  obtain ⟨c, given⟩ : ∃ c, (orders.getOrCreate AesGcm.framed ⟨[], []⟩ Bound.orderOne drawsOne).1 = .ok c := ⟨_, rfl⟩
  obtain ⟨sealed, sealing⟩ : ∃ sealed, c.encrypt AesGcm.framed Pg.zeroNonce [42] = .ok sealed := by
    cases given
    exact ⟨_, rfl⟩
  refine ⟨c, sealed, given, sealing, fun opens => ?_⟩
  have fresh : Fresh [] [] ([] ++ .getOrCreate Bound.orderOne drawsOne :: [.delete Bound.orderOne]) :=
    ⟨by decide, by decide⟩
  have spared := ((getAll_opens_iff fresh given sealing drawsOne [42]).mp opens).1
  exact spared [] _ [] rfl (by decide +kernel)

end AsceticDdd.Dek.Layered
