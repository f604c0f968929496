import AsceticDdd.Outbox.Reclaimer
import AsceticDdd.Outbox.Ensured

/-!
# Making the ring keeps the invariant

The bound is fixed with every position's row held: below it every position has delivered what is
committed, and no transaction of this database is running.
-/

namespace AsceticDdd.Outbox

open Postgres

variable {o : PgOutbox} {fair : Nat → Prop} {d d' : Database} {s : Nat}

section Widened

/-- A view's id, widened against a next no further than `2 ^ 31` past it, is not past it. -/
theorem widened_le {next x : Nat} (h : next ≤ x + 2 ^ 31) : widened next (x % 2 ^ 32 : Nat) ≤ x := by
  simp only [widened]
  omega

theorem openHere_le {next x : Nat} {xids ids : List Nat}
    (hopen : PgOutbox.openHere next xids = some ids) (hx : x % 2 ^ 32 ∈ xids)
    (h : next ≤ x + 2 ^ 31) : ∃ y ∈ ids, y ≤ x := by
  obtain ⟨y, hy, hwide⟩ := (mapM_spec hopen).2 _ hx
  rw [transactionId] at hwide
  split at hwide
  · cases hwide
    have := widened_le h
    exact ⟨_, hy, by omega⟩
  · cases hwide

theorem foldl_min_le {ids : List Nat} {bound : Nat} :
    ids.foldl min bound ≤ bound ∧ ∀ y ∈ ids, ids.foldl min bound ≤ y := by
  induction ids generalizing bound with
  | nil => exact ⟨le_rfl, nofun⟩
  | cons y ids ih =>
    obtain ⟨hle, hall⟩ := @ih (min bound y)
    refine ⟨hle.trans (min_le_left _ _), fun z hz => ?_⟩
    rcases List.mem_cons.mp hz with rfl | hz
    · exact hle.trans (min_le_right _ _)
    · exact hall z hz

end Widened

theorem Consistent.lockCell_plain (h : Consistent o fair d) {key : PositionKey} {row : PositionRow}
    (hplain : d.Plain s) (hlock : d.lockCell s key = some (d', row)) : d'.Plain s := by
  obtain ⟨_, rfl, hguard, _⟩ := h.lockCell hlock
  intro key' hlock'
  obtain ⟨_, _, hanew, hhanding, hcalling, hsame⟩ := Database.lockCell_cells (d := d) rfl key'
  rw [hanew, hhanding, hcalling]
  rcases hsame with hsame | ⟨rfl, _⟩
  · exact hplain key' (hsame ▸ hlock')
  · rcases hguard with hfree | hmine
    · obtain ⟨hpending, hcalling⟩ := (h.cells key').unlocked hfree
      obtain ⟨hanew, hhanding⟩ := (h.cells key').unwritten hpending
      exact ⟨hanew, hcalling, hhanding⟩
    · exact hplain key' hmine

/-- A position that advances has no row of its selection new to it. -/
theorem advances_spec (h : Consistent o fair d) {key : PositionKey} {row : PositionRow}
    (hspares : d.Spares fair row)
    (hadvances : o.advances (d.visibleRows s) (d.snapshot s) key row = true) :
    row.epoch = none ∧ ∀ r ∈ d.written, d.Live s r.transactionId → fair r.transactionId →
      o.Covers key r → ¬New row.delivered (d.snapshot s) r := by
  simp only [PgOutbox.advances, Bool.and_eq_true, Option.isNone_iff_eq_none, Bool.not_eq_true',
    List.any_eq_false, decide_eq_true_eq] at hadvances
  obtain ⟨⟨hepoch, hpast⟩, hended⟩ := hadvances
  refine ⟨hepoch, fun r hr hlive hfair hcovers ⟨hvisible, hnew⟩ => ?_⟩
  have hmem : r ∈ d.visibleRows s := (h.rows.reads hspares).new r hr hlive hfair hnew
  rcases Snapshot.visible_eq_false_iff.mp hnew with hxmax | hxip
  · exact hpast r hmem ⟨hcovers, hxmax, hvisible⟩
  · refine hended _ hxip ?_
    exact ⟨hvisible, List.any_eq_true.mpr ⟨r, hmem, decide_eq_true ⟨hcovers, rfl⟩⟩⟩

/-- The update leaves a position's row alone, or writes over it what an idle look would. -/
theorem Consistent.advanced_cases (h : Consistent o fair d) (hrowless : d.Rowless s) (hplain : d.Plain s)
    (key : PositionKey) : o.advanced d s key = d.cells key ∨ Writes o fair d s key (o.advanced d s key) ∧
      ∃ row, o.advanced d s key = { d.cells key with pending := some row } := by
  rw [PgOutbox.advanced]
  dsimp only
  split
  · exact Or.inl rfl
  · rename_i row hrow
    split
    · rename_i hadvances
      obtain ⟨hlock, hadvances⟩ := hadvances
      obtain ⟨_, hcalling, hhanding⟩ := hplain key hlock
      have hhas : d.HasRow s key row := ⟨hlock, by rwa [Cell.seenBy, if_pos hlock] at hrow⟩
      obtain ⟨hepoch, hnone⟩ := advances_spec h (h.hasRow_spares hhas) hadvances
      have hgrows := (h.recent_of_seenBy hrow).1
      have hsound := h.hasRow_sound hhas hrowless
      have hidle : Sound o fair key d.written (d.Sees s) (d.Live s)
          (row.ack (some (d.snapshot s)) none).toPosition (d.cells key).beganNext
          ((d.cells key).handedNext ++ (d.cells key).calling) := by
        rw [hcalling, List.append_nil]
        obtain ⟨⟨delivered, _⟩, _, _⟩ := row
        cases hepoch
        exact hsound.idle (fun _ => id) hgrows hnone
      have hwrites := h.acknowledge hhas hidle hgrows (PairBelow.kept rfl)
      have hcell : { d.cells key with
          pending := some (row.ack (some (d.snapshot s)) none)
          handing := (d.cells key).handing ++ (d.cells key).calling
          calling := [] } =
          { d.cells key with pending := some (row.ack (some (d.snapshot s)) none) } := by
        simp only [hcalling, hhanding, List.append_nil]
      exact Or.inr ⟨hcell ▸ hwrites, _, rfl⟩
    · exact Or.inl rfl

theorem Consistent.advances (h : Consistent o fair d) (hrowless : d.Rowless s) (hplain : d.Plain s)
    (hstep : o.advance d s = some d') :
    Kept o fair s d d' ∧ d'.Plain s ∧ ∀ key, (d'.cells key).lock = (d.cells key).lock ∧
      (d'.cells key).committed = (d.cells key).committed := by
  rw [PgOutbox.advance_eq hstep]
  refine ⟨h.setCells fun key => ?_, fun key hlock => ?_, fun key => ?_⟩
  · exact (h.advanced_cases hrowless hplain key).imp_right And.left
  · dsimp only at hlock ⊢
    rcases h.advanced_cases hrowless hplain key with hsame | ⟨_, row, hcell⟩
    · rw [hsame] at hlock ⊢
      exact hplain key hlock
    · rw [hcell] at hlock ⊢
      exact hplain key hlock
  · dsimp only
    rcases h.advanced_cases hrowless hplain key with hsame | ⟨_, row, hcell⟩
    · rw [hsame]
      exact ⟨rfl, rfl⟩
    · rw [hcell]
      exact ⟨rfl, rfl⟩

/-- Below the bound read, every position has delivered what is committed. -/
theorem Consistent.deliveredBelow (h : Consistent o fair d) {next : Nat} :
    d.DeliveredBelow s fair ((PgOutbox.boundRead (d.visibleRows s) (d.positions s)).foldl min next) := by
  intro r hr hcommitted hfair hlt key row hrow
  have hall : ∀ y ∈ PgOutbox.boundRead (d.visibleRows s) (d.positions s),
      (PgOutbox.boundRead (d.visibleRows s) (d.positions s)).foldl min next ≤ y := foldl_min_le.2
  have hmem := h.mem_positions hrow
  by_cases htable : r ∈ d.table
  · have hvisible : r ∈ d.visibleRows s := Database.mem_visibleRows.mpr ⟨htable, Or.inl hcommitted⟩
    refine Snapshot.visible_iff.mpr ⟨?_, fun hin => ?_⟩
    · exact hlt.trans_le (hall _ (List.mem_append_left _ (List.mem_map_of_mem hmem)))
    · refine absurd (hall r.transactionId (List.mem_append_right _ (List.mem_filter.mpr
        ⟨List.mem_flatMap.mpr ⟨_, hmem, hin⟩, List.any_eq_true.mpr
          ⟨r, hvisible, decide_eq_true rfl⟩⟩))) (not_le.mpr hlt)
  · exact (h.recent_of_seenBy hrow).2 r ⟨hr, hcommitted, Or.inl htable⟩ hfair

theorem Database.DeliveredBelow.mono {bound bound' : Nat} (h : d.DeliveredBelow s fair bound)
    (hle : bound' ≤ bound) : d.DeliveredBelow s fair bound' :=
  fun r hr hcommitted hfair hlt => h r hr hcommitted hfair (hlt.trans_le hle)

/-- The table's lock of the ring's step. -/
theorem Consistent.lockTable (h : Consistent o fair d)
    (hfree : ∀ generation < o.ring.generations, d.partitions generation = none)
    (hended : ∀ row ∈ d.table, d.transactions.Ended row.transactionId) :
    Kept o fair s d { d with partitions := fun generation =>
      if generation < o.ring.generations then some s else d.partitions generation } := by
  refine ⟨⟨{ h.rows with partitions := fun _ _ _ r hr _ => Or.inl (hended r hr) },
    fun key => { h.cells key with }, h.intact, h.bounds⟩, ?_⟩
  refine { Guarantee.refl o s d with partitions := fun generation s' hs => ?_ }
  dsimp only
  split
  · rename_i hlt
    rw [hfree generation hlt]
    exact ⟨fun heq => absurd (Option.some.inj heq).symm hs, nofun⟩
  · rfl

/-- Every statement of the bound's transaction, and of the ring's step. -/
theorem Consistent.migrate (h : Consistent o fair d) {p p' : Migrating} (hrowless : d.Rowless s)
    (huncalled : d.Uncalled s)
    (hok : p.Ok o fair d s) (hstep : o.migrate d s p = some (d', p')) :
    Kept o fair s d d' ∧ d'.Rowless s ∧ d'.Uncalled s ∧ p'.Ok o fair d' s := by
  cases p with
  | begun =>
    obtain ⟨key, hkey, heq⟩ := Option.map_eq_some_iff.mp hstep
    cases heq
    obtain ⟨hexclusive, _, _⟩ := AdvisoryLock.lock_eq_some hkey
    exact ⟨h.setKey (AdvisoryLock.lock_keeps hkey)
      (Or.inl ⟨fun _ => Or.inl hexclusive, fun _ => hexclusive⟩), hrowless, huncalled, hok,
      hexclusive⟩
  | held =>
    rw [PgOutbox.migrate] at hstep
    split at hstep
    · cases hstep
      exact ⟨.refl h s, hrowless, huncalled, trivial⟩
    · cases hstep
      refine ⟨.refl h s, hrowless, huncalled, hok.1, hok.2, fun key row hrow => ?_⟩
      by_cases hlock : (d.cells key).lock = some s
      · exact Or.inl hlock
      · have hseen : (d.cells key).seenBy s = some row := by rwa [Cell.seenBy, if_neg hlock]
        refine Or.inr (List.mem_filter.mpr ⟨by_contra fun hkey => ?_, by rw [hseen]; rfl⟩)
        cases hrow.symm.trans ((h.cells key).present hkey).1
  | locking keys =>
    obtain ⟨hplain, hexclusive, hkeys⟩ := hok
    cases keys with
    | nil =>
      cases hstep
      exact ⟨.refl h s, hrowless, huncalled, hplain, hexclusive,
        fun key row hrow => (hkeys key row hrow).resolve_right List.not_mem_nil⟩
    | cons key keys =>
      obtain ⟨⟨d₁, row⟩, hlock, heq⟩ := Option.map_eq_some_iff.mp hstep
      cases heq
      have hplain' := h.lockCell_plain hplain hlock
      have huncalled' := h.lockCell_uncalled huncalled hlock
      obtain ⟨hkept, rfl, _, _⟩ := h.lockCell hlock
      refine ⟨hkept, hrowless, huncalled', hplain', hexclusive, fun key' row' hrow' => ?_⟩
      by_cases hkey : key' = key
      · rw [hkey, setCell_self]
        exact Or.inl rfl
      · rw [setCell_of_ne hkey] at hrow' ⊢
        exact (hkeys key' row' hrow').imp_right fun hmem => (List.mem_cons.mp hmem).resolve_left hkey
  | locked =>
    obtain ⟨hplain, hexclusive, hlocked⟩ := hok
    obtain ⟨d₁, hadvance, heq⟩ := Option.map_eq_some_iff.mp hstep
    cases heq
    obtain ⟨hkept, hplain', hsame⟩ := h.advances hrowless hplain hadvance
    obtain rfl := PgOutbox.advance_eq hadvance
    refine ⟨hkept, hrowless, fun key hlock => (hplain' key hlock).2, hplain', hexclusive,
      fun key row hrow => ?_⟩
    rw [(hsame key).1]
    exact hlocked key row ((hsame key).2 ▸ hrow)
  | advanced =>
    cases hstep
    obtain ⟨_, hexclusive, hlocked⟩ := hok
    exact ⟨.refl h s, hrowless, huncalled, hexclusive, hlocked, d.transactions.latest_lt, foldl_min_le.1,
      h.deliveredBelow⟩
  | read next bound rows =>
    obtain ⟨ids, hids, heq⟩ := Option.map_eq_some_iff.mp hstep
    cases heq
    obtain ⟨hexclusive, hlocked, hle, hbound, hbelow⟩ := hok
    refine ⟨.refl h s, hrowless, huncalled, hexclusive, hlocked, hle, foldl_min_le.1.trans hbound,
      hbelow.mono foldl_min_le.1, fun x hx hrunning hseat => ?_⟩
    obtain ⟨y, hy, hyx⟩ := openHere_le hids (d.transactions.mem_sessionXids hx hrunning hseat)
      (hle.trans (d.transactions.within x hx (not_not.mp hrunning)))
    exact (foldl_min_le.2 y hy).trans hyx
  | sessions next bound rows =>
    obtain ⟨ids, hids, heq⟩ := Option.map_eq_some_iff.mp hstep
    cases heq
    obtain ⟨hexclusive, hlocked, hle, hbound, hbelow, hsessions⟩ := hok
    refine ⟨.refl h s, hrowless, huncalled, hexclusive, hlocked, hbelow.mono foldl_min_le.1,
      foldl_min_le.1.trans (hbound.trans hle), fun x hx hrunning hseat => ?_⟩
    by_cases hprepared : d.transactions.seat x = .prepared
    · obtain ⟨y, hy, hyx⟩ := openHere_le hids
        (d.transactions.mem_preparedXids hx hrunning (Or.inl hprepared))
        (hle.trans (d.transactions.within x hx (not_not.mp hrunning)))
      exact (foldl_min_le.2 y hy).trans hyx
    · refine foldl_min_le.1.trans (hsessions x hx hrunning ?_)
      cases hcase : d.transactions.seat x <;> simp_all
  | bounded bound rows =>
    rw [PgOutbox.migrate] at hstep
    split at hstep
    · cases hstep
      exact ⟨.refl h s, hrowless, huncalled, hok⟩
    · cases hstep
  | counted bound =>
    cases hstep
    obtain ⟨hexclusive, hlocked, hbelow, hrunning⟩ := hok
    refine ⟨.refl h s, hrowless, huncalled, hexclusive, hlocked, hbelow, hrunning, le_max_right _ _,
      fun u hu => ?_⟩
    rw [hu]
    exact le_max_left _ _
  | fixed bound =>
    rw [PgOutbox.migrate] at hstep
    split at hstep
    · cases hstep
      exact ⟨.refl h s, hrowless, huncalled, trivial⟩
    · split at hstep
      · rename_i hguard
        cases hstep
        exact ⟨h.lockTable hguard.1 hguard.2, hrowless, huncalled, hok.1, fun generation hlt => if_pos hlt⟩
      · cases hstep
  | copying bound =>
    cases hstep
    refine ⟨.refl h s, hrowless, huncalled, hok.1, hok.2,
      (List.filter_sublist.trans List.filter_sublist).trans h.rows.table, fun r hr => ?_,
      fun r hr hcommitted hle => ?_⟩
    · exact (Database.mem_visibleRows.mp (List.mem_filter.mp hr).1).1
    · exact List.mem_filter.mpr ⟨Database.mem_visibleRows.mpr ⟨hr, Or.inl hcommitted⟩,
        decide_eq_true hle⟩
  | recorded bound goneBelow intactFrom => cases hstep
  | made => cases hstep
  | copied bound rows => cases hstep

end AsceticDdd.Outbox
