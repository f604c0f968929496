import AsceticDdd.Outbox.Assertions

/-!
# Assertions under the steps of other sessions

Each assertion outlives every step another session takes within its guarantee. What the key, a
partition's lock or a position row's lock protects is stable because the guarantee of a session
that does not hold it leaves it alone.
-/

namespace AsceticDdd.Outbox

open Postgres

variable {o : PgOutbox} {fair : Nat → Prop} {d d' : Database} {i s : Nat}

theorem not_exclusive_of_holds (hs : s ≠ i) (hheld : d.reclamationKey.Holds s) :
    d.reclamationKey.exclusive ≠ some i :=
  fun hi => hs (AdvisoryLock.eq_of_holds hi hheld)

namespace Guarantee

variable (h : Guarantee o i d d') (hs : s ≠ i)

include h hs

theorem locked {key : PositionKey} (hlock : (d'.cells key).lock = some s) :
    (d.cells key).lock = some s ∧ d'.cells key = d.cells key :=
  have hlock := h.locks key s hs hlock
  ⟨hlock, h.cells key s hs hlock⟩

theorem exclusive (hheld : d.Exclusive s) : d'.Exclusive s := (h.key.exclusive s hs).mpr hheld

theorem holds (hheld : d.reclamationKey.Holds s) : d'.reclamationKey.Holds s :=
  (h.key.holds hs).mpr hheld

theorem not_spent (hheld : d.reclamationKey.Holds s) {r : Row} (hr : d'.Spent r) : d.Spent r :=
  (h.spent r hr).resolve_right (not_exclusive_of_holds hs hheld)

theorem quiet (hquiet : d.Quiet s) : d'.Quiet s where
  cells key hlock := hquiet.cells key (h.locks key s hs hlock)
  key hheld := hquiet.key ((h.key.holds hs).mp hheld)
  partitions generation hheld := hquiet.partitions generation ((h.partitions generation s hs).mp hheld)
  own := (h.transactions.own s hs).trans hquiet.own

theorem rowless (hrowless : d.Rowless s) : d'.Rowless s := by
  intro x hx r hr
  rw [h.transactions.own s hs] at hx
  rcases h.of_mem_written hr with hr | ⟨hown, _⟩
  · exact hrowless x hx r hr
  · rintro rfl
    exact hs (d.transactions.own_inj s i _ hx hown)

theorem uncalled (huncalled : d.Uncalled s) : d'.Uncalled s := by
  intro key hlock
  obtain ⟨hlock, hcell⟩ := h.locked hs hlock
  exact hcell ▸ huncalled key hlock

theorem uncalledBut {key : PositionKey} (huncalled : d.UncalledBut s key) : d'.UncalledBut s key := by
  intro key' hne hlock
  obtain ⟨hlock, hcell⟩ := h.locked hs hlock
  exact hcell ▸ huncalled key' hne hlock

theorem acknowledged (hacknowledged : d.Acknowledged s) : d'.Acknowledged s := by
  intro key hlock
  obtain ⟨hlock, hcell⟩ := h.locked hs hlock
  exact hcell ▸ hacknowledged key hlock

theorem plain (hplain : d.Plain s) : d'.Plain s := by
  intro key hlock
  obtain ⟨hlock, hcell⟩ := h.locked hs hlock
  exact hcell ▸ hplain key hlock

theorem anew (hanew : d.Anew s) : d'.Anew s := by
  intro key row hlock hrow
  obtain ⟨hlock, hcell⟩ := h.locked hs hlock
  rw [hcell] at hrow ⊢
  obtain ⟨hepoch, hbegan, hhanding, hheld⟩ := hanew key row hlock hrow
  exact ⟨hepoch, hbegan, hhanding, h.exclusive hs hheld⟩

theorem hasRow {key : PositionKey} {row : PositionRow} (hrow : d.HasRow s key row) :
    d'.HasRow s key row := by
  rw [Database.HasRow, h.cells key s hs hrow.1]
  exact hrow

theorem recent {now : Snapshot} (hheld : d.reclamationKey.Holds s) (hnow : d.Recent s fair now) :
    d'.Recent s fair now :=
  ⟨fun x hx => sees_mono h.transactions hs (hnow.1 x hx),
    fun r hr => hnow.2 r (h.not_spent hs hheld hr)⟩

theorem later : Later d.written (d.Sees s) (d.Live s) d'.written (d'.Sees s) (d'.Live s) :=
  have ⟨_, hwritten, hnew⟩ := h.written
  later_pending d' h.transactions hwritten (fun r hr => (hnew r hr).1) hs

theorem intactAtMost {v : Nat} (hheld : d.Exclusive s) (hv : d.IntactAtMost v) :
    d'.IntactAtMost v := by
  intro u hu
  rcases h.intact with hsame | hi
  · exact hv u (hsame ▸ hu)
  · exact absurd hi (not_exclusive_of_holds hs (Or.inl hheld))

theorem lands {move : Move} (hheld : d.Exclusive s) (hmove : move.Lands d.metaRow.intactFrom) :
    move.Lands d'.metaRow.intactFrom := by
  rcases h.intact with hsame | hi
  · exact hsame ▸ hmove
  · exact absurd hi (not_exclusive_of_holds hs (Or.inl hheld))

/-- A committed row in a partition the session holds was one before the step. -/
theorem of_partition (hd : RowsOk o d) {generation : Nat}
    (hheld : d.partitions generation = some s) (hrowless : d.Rowless s) {r : Row} (hr : r ∈ d'.table)
    (hgen : o.generationOf r = generation) (hcommitted : d'.transactions.Committed r.transactionId) :
    r ∈ d.table ∧ d.transactions.Committed r.transactionId := by
  rcases h.table r hr with hr | ⟨hwritten, hnew⟩
  · refine ⟨hr, ?_⟩
    rcases hd.partitions generation s hheld r hr hgen with hended | hown
    · exact (h.transactions.status _ hended).symm.trans hcommitted
    · exact absurd rfl (hrowless _ hown r (hd.mem_written hr))
  · rcases h.of_mem_written hwritten with hold | ⟨_, _, hpartition⟩
    · exact absurd hold hnew
    · rw [hgen, hheld] at hpartition
      rcases hpartition with hpartition | hpartition
      · cases hpartition
      · exact absurd (Option.some.inj hpartition) hs

theorem newestOf (hd : RowsOk o d) {generation newest : Nat}
    (hheld : d.partitions generation = some s) (hrowless : d.Rowless s)
    (hnewest : d.NewestOf o generation newest) : d'.NewestOf o generation newest := by
  intro r hr hgen hcommitted
  obtain ⟨hr, hcommitted⟩ := h.of_partition hs hd hheld hrowless hr hgen hcommitted
  exact hnewest r hr hgen hcommitted

/-- Under the key held exclusively, positions only move forward. -/
theorem committed_before (hheld : d.Exclusive s) {key : PositionKey} {row' : PositionRow}
    (hrow : (d'.cells key).committed = some row') :
    ∃ row, (d.cells key).committed = some row ∧
      ∀ x, row.delivered.visible x → row'.delivered.visible x := by
  rcases h.created key row' hrow with hsome | hi
  · obtain ⟨row, hbefore⟩ := Option.ne_none_iff_exists'.mp hsome
    obtain ⟨row'', hafter, hgrows⟩ := h.grows key row hbefore
    rw [hrow, Option.some.injEq] at hafter
    subst hafter
    exact ⟨row, hbefore, hgrows.resolve_right (not_exclusive_of_holds hs (Or.inl hheld))⟩
  · exact absurd (AdvisoryLock.eq_of_holds hheld hi).symm hs

theorem passedBy (hd : RowsOk o d) {generation : Nat} (hexclusive : d.Exclusive s)
    (hheld : d.partitions generation = some s) (hrowless : d.Rowless s)
    (hpassed : d.PassedBy o generation) : d'.PassedBy o generation := by
  intro key row' hrow r hr hgen hcommitted
  obtain ⟨hr, hcommitted⟩ := h.of_partition hs hd hheld hrowless hr hgen hcommitted
  obtain ⟨row, hbefore, hgrows⟩ := h.committed_before hs hexclusive hrow
  exact hgrows _ (hpassed key row hbefore r hr hgen hcommitted)

theorem lockedAll (hexclusive : d.Exclusive s) (hlocked : d.LockedAll s) : d'.LockedAll s := by
  intro key row' hrow
  obtain ⟨row, hbefore, _⟩ := h.committed_before hs hexclusive hrow
  have hlock := hlocked key row hbefore
  rw [h.cells key s hs hlock]
  exact hlock

theorem seenBy (hexclusive : d.Exclusive s) (hlocked : d.LockedAll s) {key : PositionKey}
    {row : PositionRow} (hrow : (d'.cells key).seenBy s = some row) :
    (d.cells key).seenBy s = some row := by
  by_cases hlock : (d'.cells key).lock = some s
  · exact (h.locked hs hlock).2 ▸ hrow
  · rw [Cell.seenBy, if_neg hlock] at hrow
    exact absurd (h.lockedAll hs hexclusive hlocked key row hrow) hlock

/-- The bound stays one when no row begins to count below it. -/
theorem deliveredBelow {bound : Nat} (hexclusive : d.Exclusive s) (hlocked : d.LockedAll s)
    (hbelow : d.DeliveredBelow s fair bound)
    (hnew : ∀ r ∈ d.written, fair r.transactionId → ¬d.transactions.Ended r.transactionId →
      d'.transactions.Committed r.transactionId → bound ≤ r.transactionId) :
    d'.DeliveredBelow s fair bound := by
  intro r hr hcommitted hfair hlt key row hrow
  rcases h.of_mem_written hr with hr | ⟨_, hrunning, _⟩
  · by_cases hended : d.transactions.Ended r.transactionId
    · exact hbelow r hr ((h.transactions.status _ hended).symm.trans hcommitted) hfair hlt key row
        (h.seenBy hs hexclusive hlocked hrow)
    · exact absurd (hnew r hr hfair hended hcommitted) (by omega)
  · exact absurd hcommitted.ended hrunning

omit hs in
theorem sessionsFrom {bound : Nat} (hle : bound ≤ d.transactions.next)
    (hsessions : d.SessionsFrom bound) : d'.SessionsFrom bound := by
  intro x _ hrunning hseat
  by_cases hx : x < d.transactions.next
  · exact hsessions x hx (fun hended => hrunning (h.transactions.ended hended))
      (h.transactions.listed x hx hseat)
  · omega

omit hs in
theorem runningFrom {bound : Nat} (hrunning : d.RunningFrom bound) : d'.RunningFrom bound := by
  refine ⟨hrunning.1.trans h.transactions.next, fun x _ hx hseat => ?_⟩
  by_cases hlt : x < d.transactions.next
  · exact hrunning.2 x hlt (fun hended => hx (h.transactions.ended hended))
      fun helsewhere => hseat ((h.transactions.elsewhere x hlt).mpr helsewhere)
  · have := hrunning.1
    omega

end Guarantee

/-- What the others do not do to a process in between its statements. -/
def Process.Uninterrupted (fair : Nat → Prop) (d d' : Database) : Process → Prop
  | .producer _ (.moving _ (.holding _ move read)) =>
    move.Allowed read d.metaRow.intactFrom → move.Allowed read d'.metaRow.intactFrom
  | .migrator (.read _ bound _) | .migrator (.sessions _ bound _) => ∀ r ∈ d.written,
    fair r.transactionId → ¬d.transactions.Ended r.transactionId → d'.transactions.Committed r.transactionId →
      bound ≤ r.transactionId
  | _ => True

section Stable

variable (hd : Consistent o fair d) (h : Guarantee o i d d') (hs : s ≠ i)

include h hs

theorem Ensuring.Ok.stable {e : Ensuring} (hok : e.Ok fair d s) : e.Ok fair d' s := by
  cases e with
  | hold => trivial
  | read => exact h.holds hs hok
  | insert rows =>
    exact ⟨h.holds hs hok.1, fun entry hentry => h.recent hs hok.1 (hok.2 entry hentry)⟩

theorem Moving.Ok.stable {m : Moving} {landings : List Nat} {selection : Selection}
    (hquiet : (Process.producer landings (.moving selection m)).Uninterrupted fair d d')
    (hok : m.Ok fair d s) : m.Ok fair d' s := by
  have hpending : ∀ kept : Bool, (kept = false → ∀ key, (d.cells key).lock = some s →
      (d.cells key).pending = none) → kept = false → ∀ key, (d'.cells key).lock = some s →
      (d'.cells key).pending = none := by
    intro kept hnone hkept key hlock
    obtain ⟨hlock, hcell⟩ := h.locked hs hlock
    exact hcell ▸ hnone hkept key hlock
  cases m with
  | holding kept move read => exact ⟨hpending kept hok.1, hquiet hok.2⟩
  | granted kept move read =>
    refine ⟨hpending kept hok.1, ?_, h.exclusive hs hok.2.2⟩
    rcases h.intact with hsame | hi
    · exact hsame ▸ hok.2.1
    · exact absurd hi (not_exclusive_of_holds hs (Or.inl hok.2.2))
  | ensuring move e =>
    exact ⟨h.exclusive hs hok.1, h.lands hs hok.1 hok.2.1, hok.2.2.stable h hs⟩
  | ensured move => exact ⟨h.exclusive hs hok.1, h.lands hs hok.1 hok.2⟩
  | rows move now slots =>
    exact ⟨h.exclusive hs hok.1, h.lands hs hok.1 hok.2.1, h.recent hs (Or.inl hok.1) hok.2.2⟩

theorem ProducerOk.stable {landings : List Nat} (hok : ProducerOk d s landings)
    (hheld : landings ≠ [] → d.Exclusive s) : ProducerOk d' s landings where
  anew := h.anew hs hok.anew
  uncalled := h.uncalled hs hok.uncalled
  partitions generation hpartition :=
    hok.partitions generation ((h.partitions generation s hs).mp hpartition)
  here x hx := by
    rw [h.transactions.own s hs] at hx
    have hlt := (d.transactions.own_running s x hx).1
    exact fun helsewhere => hok.here x hx ((h.transactions.elsewhere x hlt).mp helsewhere)
  landings xid hxid v hv :=
    h.intactAtMost hs (hheld (List.ne_nil_of_mem hxid)) (hok.landings xid hxid) v hv

omit h hs in
theorem Producing.Ok.held {landings : List Nat} {p : Producing} (hok : p.Ok fair d s landings) :
    landings ≠ [] → d.Exclusive s := by
  cases p with
  | ready => exact hok
  | inserting => exact hok.2
  | preparing => exact fun hne => absurd hok.1 hne
  | moving selection m => exact fun hne => (hok.2 hne).2

theorem Producing.Ok.stable {p : Producing} {landings : List Nat}
    (hquiet : (Process.producer landings p).Uninterrupted fair d d') (hok : p.Ok fair d s landings) :
    p.Ok fair d' s landings := by
  have hheld : landings ≠ [] → d'.Exclusive s := fun hne => h.exclusive hs (hok.held hne)
  cases p with
  | ready => exact hheld
  | inserting => exact ⟨h.drawn _ s hs hok.1, hheld⟩
  | preparing =>
    exact ⟨hok.1, fun key hlock => hok.2.1 key (h.locks key s hs hlock),
      fun hholds => hok.2.2 ((h.key.holds hs).mp hholds)⟩
  | moving selection m =>
    exact ⟨hok.1.stable h hs hquiet, fun hne => ⟨(hok.2 hne).1, hheld hne⟩⟩

theorem Dispatching.Ok.stable {selection : Selection} {limit : Nat} {p : Dispatching}
    (hok : p.Ok o fair d s selection limit) : p.Ok o fair d' s selection limit := by
  cases p with
  | begun => exact h.uncalled hs hok
  | named => exact h.uncalled hs hok
  | looked => exact h.uncalled hs hok
  | contacting e => exact ⟨h.uncalled hs hok.1, hok.2.stable h hs⟩
  | taken slot row => exact ⟨h.uncalled hs hok.1, h.hasRow hs hok.2⟩
  | snapped slot row now =>
    obtain ⟨huncalled, hrow, hepoch, hnow, hgrows⟩ := hok
    refine ⟨h.uncalled hs huncalled, h.hasRow hs hrow, hepoch,
      fun x hx => sees_mono h.transactions hs (hnow x hx), hgrows⟩
  | ready slot row epoch =>
    obtain ⟨huncalled, hrow, hend, hsound⟩ := hok
    refine ⟨h.uncalled hs huncalled, h.hasRow hs hrow, hend, ?_⟩
    rw [h.cells _ s hs hrow.1]
    exact hsound.mono (h.later hs)
  | handing slot row epoch batch rest =>
    obtain ⟨hrow, huncalled, hhanding, hcalling, hsound, hbatch⟩ := hok
    rw [Dispatching.Ok, h.cells _ s hs hrow.1]
    exact ⟨h.hasRow hs hrow, h.uncalledBut hs huncalled, hhanding, hcalling, hsound.mono (h.later hs),
      hbatch.mono (hsound.epoch_sound epoch rfl).seen_visible (h.later hs)⟩
  | done => exact h.acknowledged hs hok
  | refusing => exact h.acknowledged hs hok

include hd

theorem Reclaiming.Ok.stable {p : Reclaiming} (hrowless : d.Rowless s) (hok : p.Ok o d s) :
    p.Ok o d' s := by
  have hpartition : ∀ {generation}, d.partitions generation = some s →
      d'.partitions generation = some s := (h.partitions _ s hs).mpr
  cases p with
  | begun => trivial
  | done => trivial
  | refusing => trivial
  | held => exact h.exclusive hs hok
  | checked => exact h.exclusive hs hok
  | oldest => exact h.exclusive hs hok
  | candidate => exact h.exclusive hs hok
  | past => exact h.exclusive hs hok
  | sessions => exact h.exclusive hs hok
  | closed => exact h.exclusive hs hok
  | passed => exact h.exclusive hs hok
  | locked c => exact ⟨h.exclusive hs hok.1, hpartition hok.2⟩
  | final c =>
    obtain ⟨hexclusive, hheld, hnewest⟩ := hok
    exact ⟨h.exclusive hs hexclusive, hpartition hheld,
      h.newestOf hs hd.rows hheld hrowless hnewest⟩
  | emptied c goneBelow intactFrom =>
    obtain ⟨hexclusive, hheld, hnewest, hpassed, hlt, hintact⟩ := hok
    exact ⟨h.exclusive hs hexclusive, hpartition hheld,
      h.newestOf hs hd.rows hheld hrowless hnewest,
      h.passedBy hs hd.rows hexclusive hheld hrowless hpassed, hlt,
      h.intactAtMost hs hexclusive hintact⟩
  | _ =>
    obtain ⟨hexclusive, hheld, hnewest, hpassed⟩ := hok
    exact ⟨h.exclusive hs hexclusive, hpartition hheld,
      h.newestOf hs hd.rows hheld hrowless hnewest,
      h.passedBy hs hd.rows hexclusive hheld hrowless hpassed⟩

theorem Migrating.Ok.stable {p : Migrating} (hrowless : d.Rowless s)
    (hquiet : (Process.migrator p).Uninterrupted fair d d') (hok : p.Ok o fair d s) : p.Ok o fair d' s := by
  have hpartition : ∀ {generation}, d.partitions generation = some s →
      d'.partitions generation = some s := (h.partitions _ s hs).mpr
  have hhere : ∀ {bound}, d.RunningFrom bound → ∀ r ∈ d.written, fair r.transactionId →
      ¬d.transactions.Ended r.transactionId →
      d'.transactions.Committed r.transactionId → bound ≤ r.transactionId :=
    fun hrunning r hr _ hnot _ => hrunning.2 _ (hd.rows.ids r hr) hnot (hd.rows.here r hr hnot)
  cases p with
  | begun => exact h.plain hs hok
  | held => exact ⟨h.plain hs hok.1, h.exclusive hs hok.2⟩
  | locking keys =>
    obtain ⟨hplain, hexclusive, hkeys⟩ := hok
    refine ⟨h.plain hs hplain, h.exclusive hs hexclusive, fun key row' hrow => ?_⟩
    obtain ⟨row, hbefore, _⟩ := h.committed_before hs hexclusive hrow
    refine (hkeys key row hbefore).imp_left fun hlock => ?_
    rw [h.cells key s hs hlock]
    exact hlock
  | locked => exact ⟨h.plain hs hok.1, h.exclusive hs hok.2.1, h.lockedAll hs hok.2.1 hok.2.2⟩
  | advanced => exact ⟨h.plain hs hok.1, h.exclusive hs hok.2.1, h.lockedAll hs hok.2.1 hok.2.2⟩
  | read next bound rows =>
    obtain ⟨hexclusive, hlocked, hle, hbound, hbelow⟩ := hok
    exact ⟨h.exclusive hs hexclusive, h.lockedAll hs hexclusive hlocked,
      hle.trans h.transactions.next, hbound, h.deliveredBelow hs hexclusive hlocked hbelow hquiet⟩
  | sessions next bound rows =>
    obtain ⟨hexclusive, hlocked, hle, hbound, hbelow, hsessions⟩ := hok
    exact ⟨h.exclusive hs hexclusive, h.lockedAll hs hexclusive hlocked,
      hle.trans h.transactions.next, hbound,
      h.deliveredBelow hs hexclusive hlocked hbelow hquiet,
      h.sessionsFrom (hbound.trans hle) hsessions⟩
  | bounded bound rows =>
    obtain ⟨hexclusive, hlocked, hbelow, hrunning⟩ := hok
    exact ⟨h.exclusive hs hexclusive, h.lockedAll hs hexclusive hlocked,
      h.deliveredBelow hs hexclusive hlocked hbelow (hhere hrunning), h.runningFrom hrunning⟩
  | counted bound =>
    obtain ⟨hexclusive, hlocked, hbelow, hrunning⟩ := hok
    exact ⟨h.exclusive hs hexclusive, h.lockedAll hs hexclusive hlocked,
      h.deliveredBelow hs hexclusive hlocked hbelow (hhere hrunning), h.runningFrom hrunning⟩
  | recorded bound goneBelow intactFrom =>
    obtain ⟨hexclusive, hlocked, hbelow, hrunning, hle, hintact⟩ := hok
    exact ⟨h.exclusive hs hexclusive, h.lockedAll hs hexclusive hlocked,
      h.deliveredBelow hs hexclusive hlocked hbelow (hhere hrunning), h.runningFrom hrunning, hle,
      h.intactAtMost hs hexclusive hintact⟩
  | made => trivial
  | fixed bound => exact ⟨h.bounds _ hok.1, h.quiet hs hok.2⟩
  | copying bound =>
    exact ⟨h.bounds _ hok.1, fun generation hlt => hpartition (hok.2 generation hlt)⟩
  | copied bound rows =>
    obtain ⟨hbound, hheld, hsub, hin, hall⟩ := hok
    have ⟨new, hwritten, _⟩ := h.written
    refine ⟨h.bounds _ hbound, fun generation hlt => hpartition (hheld generation hlt),
      hwritten ▸ hsub.trans (List.sublist_append_left _ _), fun r hr => ?_,
      fun r hr hcommitted hle => ?_⟩
    · refine (h.removed r (hin r hr)).resolve_right fun hi => ?_
      have := hheld (o.generationOf r) Ring.generationOf_lt
      rw [hi] at this
      exact hs (Option.some.inj this).symm
    · obtain ⟨hr, hcommitted⟩ := h.of_partition hs hd.rows
        (hheld (o.generationOf r) Ring.generationOf_lt) hrowless hr rfl hcommitted
      exact hall r hr hcommitted hle

/-- Every assertion outlives the steps of the others. -/
theorem Process.Ok.stable {p : Process} (hquiet : p.Uninterrupted fair d d') (hok : p.Ok o fair d s) :
    p.Ok o fair d' s := by
  cases p with
  | idle => exact h.quiet hs hok
  | elsewhere => exact fun key hlock => hok key (h.locks key s hs hlock)
  | producer landings producing =>
    exact ⟨hok.1.stable h hs hok.2.held, hok.2.stable h hs hquiet⟩
  | dispatcher selection limit dispatching =>
    exact ⟨h.rowless hs hok.1, hok.2.1, hok.2.2.stable h hs⟩
  | reclaimer reclaiming =>
    exact ⟨h.rowless hs hok.1, fun key hlock => hok.2.1 key (h.locks key s hs hlock),
      hok.2.2.stable hd h hs hok.1⟩
  | migrator migrating =>
    exact ⟨h.rowless hs hok.1, h.uncalled hs hok.2.1, hok.2.2.stable hd h hs hok.1 hquiet⟩

end Stable

end AsceticDdd.Outbox
