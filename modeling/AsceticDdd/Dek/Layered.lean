import AsceticDdd.Dek.Bound
import AsceticDdd.Kms.Tidy
import Mathlib.Data.List.Pairwise

/-!
# Keys in two layers

A resource's key is drawn by the key service, wrapped under the tenant's key, and kept wrapped. A custodian rotates and
retires the tenant's key in its own table, and the store wraps its rows again.
-/

namespace AsceticDdd.Dek.Layered

open Canonical Control Crypto Kms Postgres Text
open Bound (VersionedCipher KmsError Algorithm)

variable {F : Type} [Floats F]

/-- The two tables, of the service's keys and of the store's. -/
structure Tables where
  keks : Pg.Keks
  deks : List Bound.Row

/-- What is drawn to make a resource's key. -/
structure Draws where
  dek : FreshKey
  making : Pg.Making
  nonce : Nonce

structure PgDekStore where
  kms : Pg.PgKeyManagementService
  table : String
  algorithm : Algorithm
  hashtext : String → BitVec 32

/-- A failure of the service as its callers see it. -/
def refusal : Failure → KmsError
  | .kms error => error
  | .invalidSignature | .database => .refused .transport

/-- The row is the resource's. -/
def IsOf (row : Bound.Row) (r : Bound.Resource F) : Prop :=
  row.tenantId = r.tenantId ∧ row.kind = r.kind ∧ Json.Same row.resourceId r.resourceId

instance (row : Bound.Row) (r : Bound.Resource F) : Decidable (IsOf row r) := inferInstanceAs (Decidable (_ ∧ _ ∧ _))

/-- The primary key is the same. -/
def SameKey (a b : Bound.Row) : Prop :=
  a.tenantId = b.tenantId ∧ a.kind = b.kind ∧ Json.Same a.resourceId b.resourceId ∧ a.version = b.version

instance (a b : Bound.Row) : Decidable (SameKey a b) := inferInstanceAs (Decidable (_ ∧ _ ∧ _ ∧ _))

/-- `UPDATE … SET encrypted_dek = …` of a row by its primary key. -/
def update (deks : List Bound.Row) (row : Bound.Row) (bytes : Octets) : List Bound.Row :=
  deks.map fun other => if SameKey other row then { other with encryptedDek := bytes } else other

section Store

variable (aead : AesGcm) (store : PgDekStore)

namespace PgDekStore

/-- The store over the service's table. -/
def overKms (keks : Pg.Keks) (draws : Draws) : Bound.PgDekStore where
  kms :=
    { generateDek := fun tenantId =>
        (store.kms.generateDek aead keks tenantId draws.dek draws.making draws.nonce).1.mapError refusal
      decryptDek := fun tenantId bytes => (store.kms.decryptDek aead keks tenantId bytes).mapError refusal }
  table := store.table
  algorithm := store.algorithm
  hashtext := store.hashtext

/-- The service's part of making a resource's key. -/
def generating (r : Bound.Resource F) (draws : Draws) : Pg.Call :=
  ⟨store.kms, .generateDek r.tenantId draws.dek draws.making draws.nonce⟩

/-- The key is made if a lock was taken to make it; a transaction that fails leaves the tables. -/
def getOrCreate (w : Tables) (r : Bound.Resource F) (draws : Draws) : Except (Bound.Error F) VersionedCipher × Tables :=
  match (store.overKms aead w.keks draws).getOrCreate w.deks r w.deks with
  | (some _, .ok (cipher, deks)) =>
    (.ok cipher, ⟨((store.generating r draws).write aead w.keks).apply w.keks, deks⟩)
  | (none, .ok (cipher, deks)) => (.ok cipher, { w with deks := deks })
  | (_, .error error) => (.error error, w)

def getAll (w : Tables) (r : Bound.Resource F) (draws : Draws) : Except (Bound.Error F) Bound.Keyring :=
  (store.overKms aead w.keks draws).getAll w.deks r

/-- Wraps rows that were found again, one after another, as far as the service does. -/
def rewrapRows (tenantId : String) (draws : Bound.Row → Pg.Making × Nonce) :
    List Bound.Row → Tables → Except KmsError Nat × Tables
  | [], w => (.ok 0, w)
  | row :: rows, w =>
    match store.kms.rewrapDek aead w.keks tenantId row.encryptedDek (draws row).1 (draws row).2 with
    | (.error error, write) => (.error (refusal error), { w with keks := write.apply w.keks })
    | (.ok bytes, write) =>
      let (count, w) := rewrapRows tenantId draws rows ⟨write.apply w.keks, update w.deks row bytes⟩
      (count.map (· + 1), w)

def rewrap (w : Tables) (tenantId : String) (draws : Bound.Row → Pg.Making × Nonce) : Except KmsError Nat × Tables :=
  store.rewrapRows aead tenantId draws (w.deks.filter (·.tenantId = tenantId)) w

def delete (w : Tables) (r : Bound.Resource F) : Tables := { w with deks := w.deks.filter fun row => ¬IsOf row r }

end PgDekStore

/-- A call of the service's custodian or of another user of it, or of the store. -/
inductive Act (F : Type)
  | service (call : Pg.Call)
  | getOrCreate (r : Bound.Resource F) (draws : Draws)
  | rewrap (tenantId : String) (draws : Bound.Row → Pg.Making × Nonce)
  | delete (r : Bound.Resource F)

def step (w : Tables) : Act F → Tables
  | .service call => { w with keks := (call.write aead w.keks).apply w.keks }
  | .getOrCreate r draws => (store.getOrCreate aead w r draws).2
  | .rewrap tenantId draws => (store.rewrap aead w tenantId draws).2
  | .delete r => PgDekStore.delete w r

def after (w : Tables) (acts : List (Act F)) : Tables := acts.foldl (step aead store) w

end Store

/-- A call that leaves a resource's key: it does not retire the version the key is wrapped under, nor delete either. -/
def Act.Spares (w : Tables) (r : Bound.Resource F) : Act F → Prop
  | .service call => ∀ row ∈ w.deks, IsOf row r → ¬call.Retires w.keks r.tenantId (Pg.versionOf row.encryptedDek)
  | .delete r' => ¬r'.SameRow r
  | .getOrCreate _ _ | .rewrap _ _ => True

variable {aead : AesGcm} {store : PgDekStore} {w w' : Tables} {r r' : Bound.Resource F} {row row' : Bound.Row} {dek : Octets}
  {c : VersionedCipher} {draws : Draws} {act : Act F} {acts : List (Act F)}

theorem IsOf.same (h : IsOf row r) (h' : IsOf row r') : r'.SameRow r :=
  ⟨h'.1.symm.trans h.1, h'.2.1.symm.trans h.2.1, (Json.Same.symm h'.2.2).trans h.2.2⟩

theorem IsOf.sameKey (h : IsOf row r) (h' : IsOf row' r) (version : row.version = row'.version) : SameKey row row' :=
  ⟨h.1.trans h'.1.symm, h.2.1.trans h'.2.1.symm, h.2.2.trans (Json.Same.symm h'.2.2), version⟩

theorem mem_rowsOf {rows : List Bound.Row} : row ∈ Bound.rowsOf rows r ↔ row ∈ rows ∧ IsOf row r := by
  rw [Bound.rowsOf, List.mem_filter, decide_eq_true_eq]
  rfl

/-- Tables of a run: the store has first versions only, one of a resource. -/
structure Neat (aead : AesGcm) (w : Tables) : Prop where
  tidy : Pg.Tidy aead w.keks
  first : ∀ row ∈ w.deks, row.version = 1 ∧ row.algorithm = Algorithm.aes256Gcm.asStr
  apart : w.deks.Pairwise fun a b => ¬SameKey a b

/-- A resource's row opens to its key. -/
def Serves (aead : AesGcm) (store : PgDekStore) (w : Tables) (r : Bound.Resource F) (dek : Octets) : Prop :=
  ∃ row ∈ w.deks, IsOf row r ∧ store.kms.decryptDek aead w.keks r.tenantId row.encryptedDek = .ok dek

/-- A resource has one row. -/
theorem Neat.rowsOf_eq (neat : Neat aead w) (mem : row ∈ w.deks) (owned : IsOf row r) :
    Bound.rowsOf w.deks r = [row] := by
  have apart : (Bound.rowsOf w.deks r).Pairwise fun a b => ¬SameKey a b := neat.apart.filter _
  have there : row ∈ Bound.rowsOf w.deks r := mem_rowsOf.mpr ⟨mem, owned⟩
  have sameKey : ∀ a ∈ Bound.rowsOf w.deks r, ∀ b ∈ Bound.rowsOf w.deks r, SameKey a b := by
    intro a ha b hb
    obtain ⟨ha, ownsA⟩ := mem_rowsOf.mp ha
    obtain ⟨hb, ownsB⟩ := mem_rowsOf.mp hb
    exact ownsA.sameKey ownsB ((neat.first a ha).1.trans (neat.first b hb).1.symm)
  cases rows : Bound.rowsOf w.deks r with
  | nil =>
    rw [rows] at there
    cases there
  | cons head rest =>
    rw [rows] at apart there sameKey
    cases rest with
    | nil => rw [List.mem_singleton.mp there]
    | cons second rest =>
      have different := (List.pairwise_cons.mp apart).1 second List.mem_cons_self
      exact absurd (sameKey _ List.mem_cons_self _ (List.mem_cons_of_mem _ List.mem_cons_self)) different

theorem Neat.eq (neat : Neat aead w) (mem : row ∈ w.deks) (owned : IsOf row r) (mem' : row' ∈ w.deks)
    (owned' : IsOf row' r) : row = row' := by
  have there : row' ∈ Bound.rowsOf w.deks r := mem_rowsOf.mpr ⟨mem', owned'⟩
  rw [neat.rowsOf_eq mem owned, List.mem_singleton] at there
  exact there.symm

/-! ## Wrapped again -/

/-- The row's key is wrapped under the latest version of the tenant's. -/
def Latest (keks : Pg.Keks) (row : Bound.Row) : Prop :=
  ∀ kek ∈ keks, kek.key = row.tenantId → kek.version ≤ Pg.versionOf row.encryptedDek

/-- What a row is after its tenant's are wrapped again. -/
structure Rewrapped (aead : AesGcm) (store : PgDekStore) (keks : Pg.Keks) (row row' : Bound.Row) : Prop where
  bytes : ∃ bytes, row' = { row with encryptedDek := bytes }
  again : row' = row ∨ ∃ dek, Pg.Rewraps aead store.kms keks row.tenantId row.encryptedDek row'.encryptedDek dek

theorem SameKey.refl (row : Bound.Row) : SameKey row row :=
  ⟨rfl, rfl, Json.related_refl (p := Numeric.Same) (fun _ => rfl) _, rfl⟩

theorem SameKey.symm (h : SameKey row row') : SameKey row' row :=
  ⟨h.1.symm, h.2.1.symm, Json.Same.symm h.2.2.1, h.2.2.2.symm⟩

namespace Rewrapped

variable {keks : Pg.Keks} {row'' : Bound.Row}

theorem refl (row : Bound.Row) : Rewrapped aead store keks row row := ⟨⟨_, rfl⟩, Or.inl rfl⟩

theorem tenantId (h : Rewrapped aead store keks row row') : row'.tenantId = row.tenantId := by
  obtain ⟨bytes, rfl⟩ := h.bytes
  rfl

/-- What a row opened to it opens to. -/
theorem opens (h : Rewrapped aead store keks row row')
    (opened : store.kms.decryptDek aead keks row.tenantId row.encryptedDek = .ok dek) :
    store.kms.decryptDek aead keks row.tenantId row'.encryptedDek = .ok dek := by
  obtain rfl | ⟨dek', rewraps⟩ := h.again
  · exact opened
  · obtain rfl := Except.ok.inj (rewraps.opened.symm.trans opened)
    exact rewraps.opens

theorem latest (h : Rewrapped aead store keks row row') (latest : Latest keks row) : Latest keks row' := by
  obtain rfl | ⟨dek, rewraps⟩ := h.again
  · exact latest
  · intro kek mem owner
    exact rewraps.latest kek mem (owner.trans h.tenantId)

theorem trans (h : Rewrapped aead store keks row row') (h' : Rewrapped aead store keks row' row'') :
    Rewrapped aead store keks row row'' := by
  refine ⟨?_, ?_⟩
  · obtain ⟨bytes, rfl⟩ := h.bytes
    obtain ⟨bytes', rfl⟩ := h'.bytes
    exact ⟨bytes', rfl⟩
  · obtain rfl | ⟨dek, first⟩ := h.again
    · exact h'.again
    · obtain rfl | ⟨dek', second⟩ := h'.again
      · exact Or.inr ⟨dek, first⟩
      · rw [h.tenantId] at second
        obtain rfl := Except.ok.inj (first.opens.symm.trans second.opened)
        exact Or.inr ⟨dek, first.opened, second.opens, second.latest, second.bears⟩

theorem isOf_iff (h : Rewrapped aead store keks row row') : IsOf row' r ↔ IsOf row r := by
  obtain ⟨bytes, rfl⟩ := h.bytes
  exact Iff.rfl

theorem sameKey_iff {other other' : Bound.Row} (h : Rewrapped aead store keks row row')
    (h' : Rewrapped aead store keks other other') : SameKey row' other' ↔ SameKey row other := by
  obtain ⟨bytes, rfl⟩ := h.bytes
  obtain ⟨bytes', rfl⟩ := h'.bytes
  exact Iff.rfl

end Rewrapped

/-- Rows of a tenant's are wrapped again one after another: the service's keys stay, and so does what the rows open
to. -/
theorem rewrapRows_spec {tenantId : String} (draws : Bound.Row → Pg.Making × Nonce) {rows : List Bound.Row}
    (tidy : Pg.Tidy aead w.keks) (apart : w.deks.Pairwise fun a b => ¬SameKey a b)
    (selected : ∀ row ∈ rows, row ∈ w.deks ∧ row.tenantId = tenantId)
    (once : rows.Pairwise fun a b => ¬SameKey a b) :
    (store.rewrapRows aead tenantId draws rows w).2.keks = w.keks ∧
      ∃ f, (store.rewrapRows aead tenantId draws rows w).2.deks = w.deks.map f ∧
        (∀ row ∈ w.deks, Rewrapped aead store w.keks row (f row)) ∧
          ((store.rewrapRows aead tenantId draws rows w).1.isOk → ∀ row ∈ rows, Latest w.keks (f row)) := by
  induction rows generalizing w with
  | nil =>
    refine ⟨rfl, id, (List.map_id _).symm, fun row _ => .refl row, ?_⟩
    exact fun _ => List.forall_mem_nil _
  | cons row rows ih =>
    obtain ⟨⟨mem, owner⟩, selected⟩ := List.forall_mem_cons.mp selected
    obtain ⟨others, once⟩ := List.pairwise_cons.mp once
    cases done : store.kms.rewrapDek aead w.keks tenantId row.encryptedDek (draws row).1 (draws row).2 with
    | mk answer write =>
      have unwritten : write = .nothing := (congrArg Prod.snd done).symm.trans Pg.write_rewrapDek
      subst unwritten
      cases answer with
      | error error =>
        simp only [PgDekStore.rewrapRows, done, Versions.apply_nothing]
        refine ⟨trivial, id, (List.map_id _).symm, fun row _ => .refl row, ?_⟩
        rintro ⟨⟩
      | ok bytes =>
        simp only [PgDekStore.rewrapRows, done, Versions.apply_nothing]
        obtain ⟨dek, rewraps⟩ := tidy.rewraps (congrArg Prod.fst done)
        -- One row has the key of the row that is found, and it is that row.
        have only : ∀ other ∈ w.deks, SameKey other row → other = row := by
          intro other hother same
          by_contra different
          have symmetric : Std.Symm fun a b : Bound.Row => ¬SameKey a b := ⟨fun _ _ h same => h same.symm⟩
          exact apart.forall hother mem different same
        generalize hg : (fun other : Bound.Row => if SameKey other row then { other with encryptedDek := bytes }
          else other) = g
        have rewrapped : ∀ other ∈ w.deks, Rewrapped aead store w.keks other (g other) := by
          intro other hother
          subst hg
          dsimp only
          split
          · rename_i same
            obtain rfl := only other hother same
            subst owner
            exact ⟨⟨bytes, rfl⟩, Or.inr ⟨dek, rewraps⟩⟩
          · exact .refl other
        have updated : update w.deks row bytes = w.deks.map g := by rw [update, hg]
        have first : Latest w.keks (g row) := by
          subst hg owner
          dsimp only
          rw [if_pos (SameKey.refl row)]
          exact rewraps.latest
        have kept : ∀ other ∈ rows, g other = other := by
          intro other hother
          subst hg
          exact if_neg fun same => others other hother same.symm
        rw [updated]
        have apart' : (w.deks.map g).Pairwise fun a b => ¬SameKey a b := by
          refine List.pairwise_map.mpr (apart.imp_of_mem fun hother hother' different same => different ?_)
          exact ((rewrapped _ hother).sameKey_iff (rewrapped _ hother')).mp same
        have selected' : ∀ other ∈ rows, other ∈ w.deks.map g ∧ other.tenantId = tenantId := by
          intro other hother
          exact ⟨List.mem_map.mpr ⟨other, (selected other hother).1, kept other hother⟩, (selected other hother).2⟩
        obtain ⟨keks, f, deks, again, answered⟩ := ih (w := ⟨w.keks, w.deks.map g⟩) tidy apart' selected' once
        refine ⟨keks, f ∘ g, deks.trans (List.map_map ..), ?_, ?_⟩
        · intro other hother
          exact (rewrapped other hother).trans (again _ (List.mem_map_of_mem hother))
        · intro ok other hother
          have counted : (store.rewrapRows aead tenantId draws rows ⟨w.keks, w.deks.map g⟩).1.isOk := by
            revert ok
            cases (store.rewrapRows aead tenantId draws rows ⟨w.keks, w.deks.map g⟩).1 with
            | ok count => exact fun _ => rfl
            | error error => exact id
          obtain rfl | hother := List.mem_cons.mp hother
          · exact (again _ (List.mem_map_of_mem mem)).latest first
          · rw [Function.comp_apply, kept other hother]
            exact answered counted other hother

theorem Neat.rewrap (neat : Neat aead w) (store : PgDekStore) (tenantId : String)
    (draws : Bound.Row → Pg.Making × Nonce) :
    (store.rewrap aead w tenantId draws).2.keks = w.keks ∧
      ∃ f, (store.rewrap aead w tenantId draws).2.deks = w.deks.map f ∧
        (∀ row ∈ w.deks, Rewrapped aead store w.keks row (f row)) ∧
          ((store.rewrap aead w tenantId draws).1.isOk → ∀ row ∈ w.deks, row.tenantId = tenantId →
            Latest w.keks (f row)) := by
  have selected : ∀ row ∈ w.deks.filter (·.tenantId = tenantId), row ∈ w.deks ∧ row.tenantId = tenantId := by
    intro row mem
    obtain ⟨mem, owner⟩ := List.mem_filter.mp mem
    exact ⟨mem, of_decide_eq_true owner⟩
  obtain ⟨keks, f, deks, rewrapped, answered⟩ :=
    rewrapRows_spec draws neat.tidy neat.apart selected (neat.apart.filter _)
  refine ⟨keks, f, deks, rewrapped, fun ok row mem owner => ?_⟩
  exact answered ok row (List.mem_filter.mpr ⟨mem, decide_eq_true owner⟩)

/-! ## Made once -/

/-- What a resource is given: the cipher of its row, or of the row that is made for it. -/
inductive Gives (aead : AesGcm) (store : PgDekStore) (w : Tables) (r : Bound.Resource F) (draws : Draws) :
    Except (Bound.Error F) VersionedCipher × Tables → Prop
  | refused (error : Bound.Error F) : Gives aead store w r draws (.error error, w)
  | found {row : Bound.Row} {stored : Bound.Stored} {dek : Octets} {c : VersionedCipher} (mem : row ∈ w.deks)
      (owned : IsOf row r) (read : Bound.Stored.read (F := F) row = .ok stored)
      (opens : store.kms.decryptDek aead w.keks r.tenantId row.encryptedDek = .ok dek)
      (keyed : Bound.PgDekStore.cipher dek r stored.version stored.algorithm = .ok c) :
      Gives aead store w r draws (.ok c, w)
  | made {dek bytes : Octets} {c : VersionedCipher} (absent : ∀ row ∈ w.deks, ¬IsOf row r)
      (drawn : (store.kms.generateDek aead w.keks r.tenantId draws.dek draws.making draws.nonce).1 = .ok (dek, bytes))
      (keyed : Bound.PgDekStore.cipher dek r 1 store.algorithm = .ok c) :
      Gives aead store w r draws (.ok c, ⟨((store.generating r draws).write aead w.keks).apply w.keks,
        w.deks ++ [⟨r.tenantId, r.kind, r.resourceId, 1, bytes, store.algorithm.asStr⟩]⟩)

theorem latest_eq_none (h : Bound.PgDekStore.latest w.deks r = .ok none) : ∀ row ∈ w.deks, ¬IsOf row r := by
  unfold Bound.PgDekStore.latest at h
  split at h
  · obtain ⟨_, _, h⟩ := map_eq_ok.mp h
    cases h
  · rename_i empty
    intro row mem owned
    have there := (List.mem_insertionSort (·.version ≥ ·.version)).mpr (mem_rowsOf.mpr ⟨mem, owned⟩)
    rw [List.head?_eq_none_iff.mp empty] at there
    cases there

theorem latest_eq_some {stored : Bound.Stored} (h : Bound.PgDekStore.latest w.deks r = .ok (some stored)) :
    ∃ row ∈ w.deks, IsOf row r ∧ Bound.Stored.read (F := F) row = .ok stored := by
  unfold Bound.PgDekStore.latest at h
  split at h
  · rename_i row first
    obtain ⟨_, hread, h⟩ := map_eq_ok.mp h
    cases h
    have there := List.mem_of_head? first
    obtain ⟨mem, owned⟩ := mem_rowsOf.mp ((List.mem_insertionSort _).mp there)
    exact ⟨row, mem, owned, hread⟩
  · cases h

omit [Floats F] in
theorem encryptedDek_of_read {stored : Bound.Stored} (h : Bound.Stored.read (F := F) row = .ok stored) :
    stored.encryptedDek = row.encryptedDek := by
  obtain ⟨version, _, h⟩ := bind_eq_ok.mp h
  obtain ⟨algorithm, _, h⟩ := bind_eq_ok.mp h
  cases h
  rfl

theorem gives (aead : AesGcm) (store : PgDekStore) (w : Tables) (r : Bound.Resource F) (draws : Draws) :
    Gives aead store w r draws (store.getOrCreate aead w r draws) := by
  unfold PgDekStore.getOrCreate
  split
  · rename_i lock c deks h
    unfold Bound.PgDekStore.getOrCreate at h
    split at h
    · cases h
    · cases h
    · rename_i absent
      have h := congrArg Prod.snd h
      rw [absent, ok_bind] at h
      obtain ⟨⟨dek, bytes⟩, drawn, h⟩ := bind_eq_ok.mp h
      obtain ⟨rows, inserted, h⟩ := bind_eq_ok.mp h
      obtain ⟨made, keyed, h⟩ := bind_eq_ok.mp h
      cases h
      cases inserted
      exact .made (latest_eq_none absent) (mapError_eq_ok.mp (mapError_eq_ok.mp drawn)) keyed
  · rename_i c deks h
    unfold Bound.PgDekStore.getOrCreate at h
    split at h
    · cases h
    · rename_i stored found
      obtain ⟨made, hmade, same⟩ := map_eq_ok.mp (congrArg Prod.snd h)
      cases same
      obtain ⟨row, mem, owned, read⟩ := latest_eq_some found
      obtain ⟨dek, hdek, keyed⟩ := bind_eq_ok.mp hmade
      have opens := mapError_eq_ok.mp (mapError_eq_ok.mp hdek)
      rw [encryptedDek_of_read read] at opens
      exact .found mem owned read opens keyed
    · cases h
  · exact .refused _

end AsceticDdd.Dek.Layered
