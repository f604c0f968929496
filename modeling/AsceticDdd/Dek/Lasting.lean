import AsceticDdd.Dek.Layered
import AsceticDdd.Dek.Opened
import AsceticDdd.Kms.Rotated

/-!
# What was sealed opens

A resource's row is kept by whatever is done to the two tables, and by what is done to the tenant's key as long as the
version the row is wrapped under is not retired. Wrapped again, it is under the latest.
-/

namespace AsceticDdd.Dek.Layered

open Canonical Control Crypto Kms Postgres Text
open Bound (VersionedCipher KmsError Algorithm)

variable {F : Type} [Floats F] {aead : AesGcm} {store : PgDekStore} {w : Tables} {r r' : Bound.Resource F} {row : Bound.Row}
  {dek : Octets} {c : VersionedCipher} {draws : Draws} {act : Act F} {acts earlier later : List (Act F)}

theorem neat_nil (aead : AesGcm) : Neat aead ⟨[], []⟩ where
  tidy := Pg.tidy_nil aead
  first := List.forall_mem_nil _
  apart := .nil

theorem Neat.step (neat : Neat aead w) (act : Act F) : Neat aead (step aead store w act) := by
  cases act with
  | service call => exact ⟨neat.tidy.step call, neat.first, neat.apart⟩
  | getOrCreate r draws =>
    have given := gives aead store w r draws
    generalize hout : store.getOrCreate aead w r draws = out at given
    simp only [Layered.step, hout]
    cases given with
    | refused | found => exact neat
    | @made dek bytes c absent drawn keyed =>
      refine ⟨neat.tidy.step _, ?_, ?_⟩
      · intro row mem
        obtain mem | mem := List.mem_append.mp mem
        · exact neat.first row mem
        · obtain rfl := List.mem_singleton.mp mem
          cases hstore : store.algorithm
          exact ⟨rfl, rfl⟩
      · refine List.pairwise_append.mpr ⟨neat.apart, List.pairwise_singleton .., ?_⟩
        intro row mem other hother same
        obtain rfl := List.mem_singleton.mp hother
        exact absent row mem ⟨same.1, same.2.1, same.2.2.1⟩
  | rewrap tenantId draws =>
    obtain ⟨keks, f, deks, rewrapped, _⟩ := neat.rewrap store tenantId draws
    have fields : ∀ row ∈ w.deks, (f row).version = row.version ∧ (f row).algorithm = row.algorithm := by
      intro row mem
      obtain ⟨bytes, same⟩ := (rewrapped row mem).bytes
      rw [same]
      exact ⟨rfl, rfl⟩
    refine ⟨keks.symm ▸ neat.tidy, ?_, ?_⟩
    · simp only [Layered.step, deks]
      intro row mem
      obtain ⟨other, hother, rfl⟩ := List.mem_map.mp mem
      rw [(fields other hother).1, (fields other hother).2]
      exact neat.first other hother
    · simp only [Layered.step, deks]
      refine List.pairwise_map.mpr (neat.apart.imp_of_mem fun hrow hrow' different same => different ?_)
      exact ((rewrapped _ hrow).sameKey_iff (rewrapped _ hrow')).mp same
  | delete r =>
    refine ⟨neat.tidy, ?_, neat.apart.filter _⟩
    intro row mem
    exact neat.first row (List.mem_of_mem_filter mem)

/-- A resource's row goes on opening to its key. -/
theorem Serves.step (serves : Serves aead store w r dek) (neat : Neat aead w) (spared : act.Spares w r) :
    Serves aead store (step aead store w act) r dek := by
  obtain ⟨row, mem, owned, opens⟩ := serves
  cases act with
  | service call =>
    exact ⟨row, mem, owned, neat.tidy.decryptDek_stays opens (spared row mem owned)⟩
  | getOrCreate r' draws =>
    have given := gives aead store w r' draws
    generalize hout : store.getOrCreate aead w r' draws = out at given
    simp only [Layered.step, hout]
    cases given with
    | refused | found => exact ⟨row, mem, owned, opens⟩
    | made => exact ⟨row, List.mem_append_left _ mem, owned, neat.tidy.decryptDek_stays opens id⟩
  | rewrap tenantId draws =>
    obtain ⟨keks, f, deks, rewrapped, _⟩ := neat.rewrap store tenantId draws
    refine ⟨f row, ?_, (rewrapped row mem).isOf_iff.mpr owned, ?_⟩
    · simp only [Layered.step, deks]
      exact List.mem_map_of_mem mem
    · simp only [Layered.step, keks]
      rw [← owned.1] at opens ⊢
      exact (rewrapped row mem).opens opens
  | delete r' =>
    refine ⟨row, List.mem_filter.mpr ⟨mem, decide_eq_true fun other => ?_⟩, owned, opens⟩
    exact spared (owned.same other)

theorem neat_after (store : PgDekStore) (neat : Neat aead w) (acts : List (Act F)) :
    Neat aead (after aead store w acts) := by
  induction acts generalizing w with
  | nil => exact neat
  | cons act acts ih => exact ih (neat.step act)

/-- What is done spares a resource's key, act after act. -/
def Spared (aead : AesGcm) (store : PgDekStore) (w : Tables) (r : Bound.Resource F) (acts : List (Act F)) : Prop :=
  ∀ before act rest, acts = before ++ act :: rest → act.Spares (after aead store w before) r

theorem serves_after (serves : Serves aead store w r dek) (neat : Neat aead w) (spared : Spared aead store w r acts) :
    Serves aead store (after aead store w acts) r dek := by
  induction acts generalizing w with
  | nil => exact serves
  | cons act acts ih =>
    refine ih (serves.step neat (spared [] act acts rfl)) (neat.step act) ?_
    intro before other rest split
    exact spared (act :: before) other rest (congrArg (act :: ·) split)

theorem after_append (w : Tables) (acts acts' : List (Act F)) :
    after aead store w (acts ++ acts') = after aead store (after aead store w acts) acts' := List.foldl_append

omit [Floats F] in
theorem Neat.read (neat : Neat aead w) (mem : row ∈ w.deks) :
    Bound.Stored.read (F := F) row = .ok ⟨1, row.encryptedDek, .aes256Gcm⟩ := by
  obtain ⟨first, named⟩ := neat.first row mem
  rw [Bound.Stored.read, first, named]
  rfl

/-- A cipher that is given is over the key of the resource's row. -/
theorem serves_of_getOrCreate (neat : Neat aead w) (h : (store.getOrCreate aead w r draws).1 = .ok c) :
    ∃ dek, Serves aead store (store.getOrCreate aead w r draws).2 r dek ∧
      Bound.PgDekStore.cipher dek r 1 .aes256Gcm = .ok c := by
  have given := gives aead store w r draws
  generalize hout : store.getOrCreate aead w r draws = out at given h
  cases given with
  | refused error => cases h
  | @found row stored dek c mem owned read opens keyed =>
    cases h
    rw [neat.read mem] at read
    cases read
    exact ⟨dek, ⟨row, mem, owned, opens⟩, keyed⟩
  | @made dek bytes c absent drawn keyed =>
    cases h
    have opens := (neat.tidy.decryptDek_of_wraps (.generated drawn)).1
    refine ⟨dek, ⟨_, List.mem_append_right _ (List.mem_singleton_self _), ⟨rfl, rfl, ?_⟩, opens⟩, ?_⟩
    · exact Json.related_refl (p := Numeric.Same) (fun _ => rfl) _
    · cases hstore : store.algorithm
      rw [hstore] at keyed
      exact keyed

/-- A resource's keyring is of the one key its row opens to. -/
theorem Neat.getAll_eq_ok (neat : Neat aead w) (mem : row ∈ w.deks) (owned : IsOf row r) {keyring : Bound.Keyring} :
    store.getAll aead w r draws = .ok keyring ↔ ∃ dek c,
      store.kms.decryptDek aead w.keks r.tenantId row.encryptedDek = .ok dek ∧
        Bound.PgDekStore.cipher dek r 1 .aes256Gcm = .ok c ∧ keyring = .new c.version c.cipher := by
  have one : (Bound.rowsOf w.deks r).insertionSort (·.version ≤ ·.version) = [row] := by
    rw [neat.rowsOf_eq mem owned]
    rfl
  rw [PgDekStore.getAll, Bound.PgDekStore.getAll, one, List.foldlM_cons]
  constructor
  · intro h
    obtain ⟨rings, h, last⟩ := bind_eq_ok.mp h
    obtain ⟨ring, added, h⟩ := bind_eq_ok.mp h
    rw [Bound.PgDekStore.addTo, neat.read mem, ok_bind] at added
    obtain ⟨c, unwrapped, added⟩ := bind_eq_ok.mp added
    obtain ⟨dek, opens, keyed⟩ := bind_eq_ok.mp unwrapped
    cases added
    cases h
    cases last
    exact ⟨dek, c, mapError_eq_ok.mp (mapError_eq_ok.mp opens), keyed, rfl⟩
  · rintro ⟨dek, c, opens, keyed, rfl⟩
    have unwraps : (store.overKms aead w.keks draws).unwrap r ⟨1, row.encryptedDek, .aes256Gcm⟩ = .ok c :=
      bind_eq_ok.mpr ⟨dek, mapError_eq_ok.mpr (mapError_eq_ok.mpr opens), keyed⟩
    rw [Bound.PgDekStore.addTo, neat.read mem, ok_bind, unwraps]
    rfl

theorem getAll_absent (absent : ∀ row ∈ w.deks, ¬IsOf row r) :
    store.getAll aead w r draws = .error (.dekNotFound r none) := by
  have empty : Bound.rowsOf w.deks r = [] := by
    rw [List.eq_nil_iff_forall_not_mem]
    intro row mem
    obtain ⟨mem, owned⟩ := mem_rowsOf.mp mem
    exact absent row mem owned
  rw [PgDekStore.getAll, Bound.PgDekStore.getAll, empty]
  rfl

theorem cipher_eq_ok {version : UInt32} {algorithm : Algorithm}
    (h : Bound.PgDekStore.cipher dek r version algorithm = .ok c) : c.version = version ∧ c.cipher.key = dek := by
  obtain ⟨cipher, hcipher, h⟩ := bind_eq_ok.mp h
  cases h
  exact ⟨rfl, Envelope.EnvelopeStage.key_of_new (mapError_eq_ok.mp (mapError_eq_ok.mp hcipher))⟩

/-- A ring of one key opens what is sealed with it. -/
theorem decrypt_new {c' : VersionedCipher} {nonce : Nonce} {plaintext sealed opened : Octets}
    (h : c.encrypt aead nonce plaintext = .ok sealed) (version : c'.version = c.version) :
    (Bound.Keyring.new c'.version c'.cipher).decrypt aead sealed = .ok opened ↔
      c.cipher.key = c'.cipher.key ∧ c.cipher.aad = c'.cipher.aad ∧ opened = plaintext := by
  obtain ⟨body, hbody, rfl⟩ := Bound.encrypt_eq_ok h
  rw [Bound.Keyring.decrypt, Bound.read_stamp]
  simp only [Bound.Keyring.new, version, if_true, mapError_eq_ok, Aes256Gcm.decrypt_eq hbody]
  split
  · rename_i same
    rw [Except.ok.injEq, eq_comm]
    exact ⟨fun h => ⟨same.1, same.2, h⟩, fun h => h.2.2⟩
  · rename_i apart
    exact ⟨fun h => (nomatch h), fun h => absurd ⟨h.1, h.2.1⟩ apart⟩

/-- A resource that is served opens what was sealed with its key. -/
theorem Serves.opens (serves : Serves aead store w r dek) (neat : Neat aead w)
    (keyed : Bound.PgDekStore.cipher dek r 1 .aes256Gcm = .ok c) {nonce : Nonce} {plaintext sealed : Octets}
    (sealing : c.encrypt aead nonce plaintext = .ok sealed) (draws : Draws) :
    ∃ keyring, store.getAll aead w r draws = .ok keyring ∧ keyring.decrypt aead sealed = .ok plaintext := by
  obtain ⟨row, mem, owned, opens⟩ := serves
  exact ⟨_, (neat.getAll_eq_ok mem owned).mpr ⟨dek, c, opens, keyed, rfl⟩,
    (decrypt_new sealing rfl).mpr ⟨rfl, rfl, rfl⟩⟩

/-! ## Rotated, wrapped again, retired -/

/-- An act that leaves the resource, and its tenant's versions from a bound on. -/
def Act.SparesFrom (r : Bound.Resource F) (version : Nat) : Act F → Prop
  | .service call => call.Spares r.tenantId version
  | .delete r' => ¬r'.SameRow r
  | .getOrCreate _ _ | .rewrap _ _ => True

/-- A resource's row opens under a version that the tenant has, from a bound on. -/
structure ServesFrom (aead : AesGcm) (store : PgDekStore) (w : Tables) (r : Bound.Resource F) (dek : Octets)
    (version : Nat) : Prop where
  reaches : Pg.Reaches w.keks r.tenantId version
  serves : ∃ row ∈ w.deks, IsOf row r ∧ store.kms.decryptDek aead w.keks r.tenantId row.encryptedDek = .ok dek ∧
    version ≤ Pg.versionOf row.encryptedDek

theorem ServesFrom.toServes {version : Nat} (h : ServesFrom aead store w r dek version) :
    Serves aead store w r dek := by
  obtain ⟨row, mem, owned, opens, _⟩ := h.serves
  exact ⟨row, mem, owned, opens⟩

theorem ServesFrom.step {version : Nat} (h : ServesFrom aead store w r dek version) (neat : Neat aead w)
    (spares : act.SparesFrom r version) : ServesFrom aead store (Layered.step aead store w act) r dek version := by
  obtain ⟨reaches, row, mem, owned, opens, from_version⟩ := h
  have called : ∀ {call : Pg.Call}, call.Spares r.tenantId version →
      Pg.Reaches ((call.write aead w.keks).apply w.keks) r.tenantId version := by
    intro call spares
    exact Pg.reaches_after neat.tidy.held (List.forall_mem_singleton.mpr spares) reaches
  cases act with
  | service call =>
    have kept := neat.tidy.decryptDek_stays opens (spares.not_retires from_version)
    exact ⟨called spares, row, mem, owned, kept, from_version⟩
  | getOrCreate r' draws =>
    have given := gives aead store w r' draws
    generalize hout : store.getOrCreate aead w r' draws = out at given
    simp only [Layered.step, hout]
    cases given with
    | refused | found => exact ⟨reaches, row, mem, owned, opens, from_version⟩
    | made =>
      have kept : store.kms.decryptDek aead (((store.generating r' draws).write aead w.keks).apply w.keks) r.tenantId
          row.encryptedDek = .ok dek := neat.tidy.decryptDek_stays opens id
      exact ⟨called trivial, row, List.mem_append_left _ mem, owned, kept, from_version⟩
  | rewrap tenantId draws =>
    obtain ⟨keks, f, deks, rewrapped, _⟩ := neat.rewrap store tenantId draws
    have again := rewrapped row mem
    rw [← owned.1] at opens reaches
    refine ⟨?_, f row, ?_, again.isOf_iff.mpr owned, ?_, ?_⟩
    · simp only [Layered.step, keks]
      exact owned.1 ▸ reaches
    · simp only [Layered.step, deks]
      exact List.mem_map_of_mem mem
    · simp only [Layered.step, keks]
      exact owned.1 ▸ again.opens opens
    · obtain same | ⟨_, rewraps⟩ := again.again
      · rw [same]
        exact from_version
      · obtain ⟨kek, hkek, owner, le⟩ := reaches
        exact le.trans (rewraps.latest kek hkek owner)
  | delete r' =>
    have left : row ∈ (PgDekStore.delete w r').deks := by
      refine List.mem_filter.mpr ⟨mem, decide_eq_true fun other => ?_⟩
      exact spares (owned.same other)
    exact ⟨reaches, row, left, owned, opens, from_version⟩

theorem servesFrom_after {version : Nat} (h : ServesFrom aead store w r dek version) (neat : Neat aead w)
    (spares : ∀ act ∈ acts, act.SparesFrom r version) :
    ServesFrom aead store (after aead store w acts) r dek version := by
  induction acts generalizing w with
  | nil => exact h
  | cons act acts ih =>
    obtain ⟨spares, rest⟩ := List.forall_mem_cons.mp spares
    exact ih (h.step neat spares) (neat.step act) rest

/-- Once a tenant's keys are wrapped again, they are under the latest version. -/
theorem servesFrom_of_rewrap {version count : Nat} {again : Bound.Row → Pg.Making × Nonce}
    (serves : Serves aead store w r dek) (neat : Neat aead w) (latest : w.keks.latest r.tenantId = some version)
    (rewrapped : (store.rewrap aead w r.tenantId again).1 = .ok count) :
    ServesFrom aead store (step aead store w (.rewrap (F := F) r.tenantId again)) r dek version := by
  obtain ⟨row, mem, owned, opens⟩ := serves
  obtain ⟨keks, f, deks, each, answered⟩ := neat.rewrap store r.tenantId again
  have newest := answered (by rw [rewrapped]; rfl) row mem owned.1
  obtain ⟨⟨kek, hkek, owner, number⟩, _⟩ := Versions.Table.latest_eq_some.mp latest
  refine ⟨?_, f row, ?_, (each row mem).isOf_iff.mpr owned, ?_, ?_⟩
  · simp only [Layered.step, keks]
    exact ⟨kek, hkek, owner, Nat.le_of_eq number.symm⟩
  · simp only [Layered.step, deks]
    exact List.mem_map_of_mem mem
  · simp only [Layered.step, keks]
    have stays := (each row mem).opens (owned.1 ▸ opens)
    exact owned.1 ▸ stays
  · rw [← number]
    exact newest kek hkek (owner.trans (owned.1.symm.trans (each row mem).tenantId.symm))

/-- What was sealed before a tenant's keys were wrapped again opens while nothing is retired above the version that was
the latest then. -/
theorem getAll_opens_of_rewrap {middle : List (Act F)} {version count : Nat}
    {again : Bound.Row → Pg.Making × Nonce} {nonce : Nonce} {plaintext sealed : Octets}
    (given : (store.getOrCreate aead (after aead store ⟨[], []⟩ earlier) r draws).1 = .ok c)
    (sealing : c.encrypt aead nonce plaintext = .ok sealed)
    (spared : Spared aead store (after aead store ⟨[], []⟩ (earlier ++ [.getOrCreate r draws])) r middle)
    (latest : (after aead store ⟨[], []⟩ (earlier ++ [.getOrCreate r draws] ++ middle)).keks.latest r.tenantId =
      some version)
    (rewrapped : (store.rewrap aead (after aead store ⟨[], []⟩ (earlier ++ [.getOrCreate r draws] ++ middle)) r.tenantId
      again).1 = .ok count) (spares : ∀ act ∈ later, act.SparesFrom r version) (reading : Draws) :
    ∃ keyring, store.getAll aead (after aead store ⟨[], []⟩ (earlier ++ [.getOrCreate r draws] ++ middle ++
        [.rewrap r.tenantId again] ++ later)) r reading = .ok keyring ∧
      keyring.decrypt aead sealed = .ok plaintext := by
  obtain ⟨dek, serves, keyed⟩ := serves_of_getOrCreate (neat_after store (neat_nil aead) earlier) given
  have served : Serves aead store (after aead store ⟨[], []⟩ (earlier ++ [.getOrCreate r draws])) r dek := by
    rw [after_append]
    exact serves
  have kept : Serves aead store (after aead store ⟨[], []⟩ (earlier ++ [.getOrCreate r draws] ++ middle)) r dek := by
    rw [after_append]
    exact serves_after served (neat_after store (neat_nil aead) _) spared
  have rewrapping := servesFrom_of_rewrap kept (neat_after store (neat_nil aead) _) latest rewrapped
  have neat : Neat aead (step aead store (after aead store ⟨[], []⟩ (earlier ++ [.getOrCreate r draws] ++ middle))
      (.rewrap (F := F) r.tenantId again)) := (neat_after store (neat_nil aead) _).step _
  rw [after_append, after_append]
  exact (servesFrom_after rewrapping neat spares).toServes.opens (neat_after store neat later) keyed sealing reading

/-! ## Orders -/

def orders : PgDekStore := ⟨Pg.orders, "deks", .aes256Gcm, fun _ => 0⟩

def drawsOne : Draws := ⟨Pg.keyOf 1, ⟨Pg.keyOf 2, Pg.zeroNonce⟩, Pg.zeroNonce⟩

/-- The tenant's key is rotated. -/
def rotating : Act Whole := .service ⟨Pg.orders, .rotateKek "acme" ⟨Pg.keyOf 3, Pg.zeroNonce⟩⟩

def again (_ : Bound.Row) : Pg.Making × Nonce := ⟨⟨Pg.keyOf 4, Pg.zeroNonce⟩, Pg.zeroNonce⟩

/-- The first version is retired. -/
def retiring : Act Whole := .service ⟨Pg.orders, .retireKekVersionsBefore "acme" 2⟩

set_option maxRecDepth 8000 in
/-- An order's key is wrapped again after a rotation, before the version it was under is retired. -/
theorem getAll_opens_of_rewrap_order : ∃ (c : VersionedCipher) (sealed : Octets),
    (orders.getOrCreate AesGcm.framed ⟨[], []⟩ Bound.orderOne drawsOne).1 = .ok c ∧
      c.encrypt AesGcm.framed Pg.zeroNonce [42] = .ok sealed ∧
        ∃ keyring, orders.getAll AesGcm.framed (after AesGcm.framed orders ⟨[], []⟩ ([] ++
          [.getOrCreate Bound.orderOne drawsOne] ++ [rotating] ++ [.rewrap "acme" again] ++ [retiring]))
            Bound.orderOne drawsOne = .ok keyring ∧ keyring.decrypt AesGcm.framed sealed = .ok [42] := by
  obtain ⟨c, given⟩ : ∃ c, (orders.getOrCreate AesGcm.framed ⟨[], []⟩ Bound.orderOne drawsOne).1 = .ok c := ⟨_, rfl⟩
  obtain ⟨sealed, sealing⟩ : ∃ sealed, c.encrypt AesGcm.framed Pg.zeroNonce [42] = .ok sealed := by
    cases given
    exact ⟨_, rfl⟩
  have spared : Spared AesGcm.framed orders (after AesGcm.framed orders ⟨[], []⟩
      ([] ++ [.getOrCreate Bound.orderOne drawsOne])) Bound.orderOne [rotating] := by
    intro before act rest split
    obtain ⟨_, alone⟩ | ⟨_, alone⟩ := List.singleton_eq_append_iff.mp split
    · obtain ⟨rfl, _⟩ := List.cons.inj alone
      exact fun _ _ _ => id
    · cases alone
  have spares : ∀ act ∈ [retiring], act.SparesFrom Bound.orderOne 2 :=
    List.forall_mem_singleton.mpr fun _ => Nat.le_refl 2
  exact ⟨c, sealed, given, sealing, getAll_opens_of_rewrap given sealing spared rfl (show _ = Except.ok 1 from rfl)
    spares drawsOne⟩

end AsceticDdd.Dek.Layered
