import AsceticDdd.Outbox.Preservation

/-!
# Drawing a transaction id

A transaction may draw its id between any two of its statements: no row is of it yet, and its
own session sees no more for it.
-/

namespace AsceticDdd.Outbox

open Postgres

variable {o : PgOutbox} {fair : Nat → Prop} {d : Database} {s : Nat} {seat : Seat} {t : Transactions}

theorem committed_of_status (h : t.status = d.transactions.status) {x : Nat} :
    t.Committed x ↔ d.transactions.Committed x := by
  rw [Transactions.Committed, Transactions.Committed, h]

theorem recent_of_assign (ht : d.transactions.assign s seat = some t) {now : Snapshot}
    (h : d.Recent s fair now) : Database.Recent { d with transactions := t } s fair now := by
  obtain ⟨_, hlatest, hstatus, hown, _, _⟩ := Transactions.assign_eq_some ht
  refine ⟨fun x hx => ?_, fun r hr => h.2 r ⟨hr.1, (committed_of_status hstatus).mp hr.2.1, hr.2.2⟩⟩
  have hsees := Database.sees_iff.mp (h.1 x hx)
  rw [hown] at hsees
  exact Database.sees_iff.mpr (Or.inl ((Transactions.assign_advances ht).ended
    (hsees.resolve_right fun hown => nomatch hown.1)))

theorem rowless_of_assign (h : Consistent o fair d) (ht : d.transactions.assign s seat = some t) :
    Database.Rowless { d with transactions := t } s := by
  obtain ⟨_, _, _, _, hown, _⟩ := Transactions.assign_eq_some ht
  intro x hx r hr
  simp only [hown, Function.update_self, Option.some.injEq] at hx
  exact hx ▸ Nat.ne_of_lt (h.rows.ids r hr)

theorem later_of_assign (h : Consistent o fair d) (ht : d.transactions.assign s seat = some t) :
    Later d.written (d.Sees s) (d.Live s) d.written (Database.Sees { d with transactions := t } s)
      (Database.Live { d with transactions := t } s) := by
  obtain ⟨_, _, _, hown, _, _⟩ := Transactions.assign_eq_some ht
  refine later_own { d with transactions := t } (Transactions.assign_advances ht) rfl
    h.rows.ids fun x hx => ?_
  rw [hown] at hx
  cases hx

theorem Ensuring.Ok.assign {e : Ensuring} (ht : d.transactions.assign s seat = some t)
    (hok : e.Ok fair d s) : e.Ok fair { d with transactions := t } s := by
  cases e with
  | hold => trivial
  | read => exact hok
  | insert rows => exact ⟨hok.1, fun entry hentry => recent_of_assign ht (hok.2 entry hentry)⟩

theorem Moving.Ok.assign {m : Moving} (ht : d.transactions.assign s seat = some t)
    (hok : m.Ok fair d s) : m.Ok fair { d with transactions := t } s := by
  cases m with
  | holding kept move read => exact hok
  | granted kept move read => exact hok
  | ensuring move e => exact ⟨hok.1, hok.2.1, hok.2.2.assign ht⟩
  | ensured move => exact hok
  | rows move now slots => exact ⟨hok.1, hok.2.1, recent_of_assign ht hok.2.2⟩

theorem Dispatching.Ok.assign {selection : Selection} {limit : Nat} {p : Dispatching}
    (h : Consistent o fair d) (ht : d.transactions.assign s seat = some t)
    (hok : p.Ok o fair d s selection limit) : p.Ok o fair { d with transactions := t } s selection limit := by
  have hlater := later_of_assign h ht
  cases p with
  | contacting e => exact ⟨hok.1, hok.2.assign ht⟩
  | snapped slot row now =>
    obtain ⟨huncalled, hrow, hepoch, hnow, hgrows⟩ := hok
    exact ⟨huncalled, hrow, hepoch, fun x hx => hlater.seen_sub x (hnow x hx), hgrows⟩
  | ready slot row epoch =>
    obtain ⟨huncalled, hrow, hend, hsound⟩ := hok
    exact ⟨huncalled, hrow, hend, hsound.mono hlater⟩
  | handing slot row epoch batch rest =>
    obtain ⟨hrow, huncalled, hhanding, hcalling, hsound, hbatch⟩ := hok
    exact ⟨hrow, huncalled, hhanding, hcalling, hsound.mono hlater,
      hbatch.mono (hsound.epoch_sound epoch rfl).seen_visible hlater⟩
  | begun again => exact hok
  | named again names => exact hok
  | looked again look => exact hok
  | taken slot row => exact hok
  | done => exact hok
  | refusing => exact hok

theorem newestOf_of_assign (ht : d.transactions.assign s seat = some t) {generation newest : Nat}
    (h : d.NewestOf o generation newest) :
    Database.NewestOf o { d with transactions := t } generation newest :=
  fun r hr hgen hcommitted => h r hr hgen
    ((committed_of_status (Transactions.assign_eq_some ht).2.2.1).mp hcommitted)

theorem passedBy_of_assign (ht : d.transactions.assign s seat = some t) {generation : Nat}
    (h : d.PassedBy o generation) : Database.PassedBy o { d with transactions := t } generation :=
  fun key row hrow r hr hgen hcommitted => h key row hrow r hr hgen
    ((committed_of_status (Transactions.assign_eq_some ht).2.2.1).mp hcommitted)

theorem Reclaiming.Ok.assign {p : Reclaiming} (ht : d.transactions.assign s seat = some t)
    (hok : p.Ok o d s) : p.Ok o { d with transactions := t } s := by
  cases p with
  | final c =>
    obtain ⟨hheld, hpartition, hnewest⟩ := hok
    exact ⟨hheld, hpartition, newestOf_of_assign ht hnewest⟩
  | emptied c goneBelow intactFrom =>
    obtain ⟨hheld, hpartition, hnewest, hpassed, hrest⟩ := hok
    exact ⟨hheld, hpartition, newestOf_of_assign ht hnewest, passedBy_of_assign ht hpassed, hrest⟩
  | begun => trivial
  | done => trivial
  | refusing => trivial
  | held => exact hok
  | checked => exact hok
  | oldest generation oldest => exact hok
  | candidate c => exact hok
  | past c => exact hok
  | sessions c ids => exact hok
  | closed c => exact hok
  | passed c => exact hok
  | locked c => exact hok
  | _ =>
    obtain ⟨hheld, hpartition, hnewest, hpassed⟩ := hok
    exact ⟨hheld, hpartition, newestOf_of_assign ht hnewest, passedBy_of_assign ht hpassed⟩

theorem deliveredBelow_of_assign (ht : d.transactions.assign s seat = some t) {bound : Nat}
    (h : d.DeliveredBelow s fair bound) :
    Database.DeliveredBelow { d with transactions := t } s fair bound :=
  fun r hr hcommitted => h r hr
    ((committed_of_status (Transactions.assign_eq_some ht).2.2.1).mp hcommitted)

theorem Migrating.Ok.assign {p : Migrating}
    (hkept : Kept o fair s d { d with transactions := t }) (ht : d.transactions.assign s seat = some t)
    (hseat : (Process.migrator p).seat = some seat) (hok : p.Ok o fair d s) :
    p.Ok o fair { d with transactions := t } s := by
  have hguarantee := hkept.guarantee
  cases p with
  | begun => exact hok
  | held => exact hok
  | locking keys => exact hok
  | locked => exact hok
  | advanced => exact hok
  | read next bound rows =>
    obtain ⟨hheld, hlocked, hle, hbound, hbelow⟩ := hok
    exact ⟨hheld, hlocked, hle.trans hguarantee.transactions.next, hbound,
      deliveredBelow_of_assign ht hbelow⟩
  | sessions next bound rows =>
    obtain ⟨hheld, hlocked, hle, hbound, hbelow, hsessions⟩ := hok
    exact ⟨hheld, hlocked, hle.trans hguarantee.transactions.next, hbound,
      deliveredBelow_of_assign ht hbelow, hguarantee.sessionsFrom (hbound.trans hle) hsessions⟩
  | bounded bound rows =>
    obtain ⟨hheld, hlocked, hbelow, hrunning⟩ := hok
    exact ⟨hheld, hlocked, deliveredBelow_of_assign ht hbelow, hguarantee.runningFrom hrunning⟩
  | counted bound =>
    obtain ⟨hheld, hlocked, hbelow, hrunning⟩ := hok
    exact ⟨hheld, hlocked, deliveredBelow_of_assign ht hbelow, hguarantee.runningFrom hrunning⟩
  | recorded bound goneBelow intactFrom =>
    obtain ⟨hheld, hlocked, hbelow, hrunning, hrest⟩ := hok
    exact ⟨hheld, hlocked, deliveredBelow_of_assign ht hbelow, hguarantee.runningFrom hrunning, hrest⟩
  | made => trivial
  | fixed bound => cases hseat
  | copying bound => exact hok
  | copied bound rows =>
    obtain ⟨hbound, hpartitions, hsub, hin, hall⟩ := hok
    exact ⟨hbound, hpartitions, hsub, hin, fun r hr hcommitted => hall r hr
      ((committed_of_status (Transactions.assign_eq_some ht).2.2.1).mp hcommitted)⟩

/-- A transaction draws its id at any of its statements. -/
theorem Consistent.assign (h : Consistent o fair d) {p : Process} (hseat : p.seat = some seat)
    (hok : p.Ok o fair d s) (ht : d.transactions.assign s seat = some t) :
    Kept o fair s d { d with transactions := t } ∧ p.Ok o fair { d with transactions := t } s := by
  obtain ⟨_, _, _, hnone, hown, hseats⟩ := Transactions.assign_eq_some ht
  have hkept : Kept o fair s d { d with transactions := t } :=
    h.advance (Transactions.assign_advances ht) (Or.inl fun x hx => by
      rw [hnone] at hx
      cases hx)
  have hrowless := rowless_of_assign h ht
  refine ⟨hkept, ?_⟩
  cases p with
  | idle => cases hseat
  | elsewhere => exact hok
  | producer landings producing =>
    cases hseat
    obtain ⟨hproducer, hok⟩ := hok
    refine ⟨⟨hproducer.anew, hproducer.uncalled, hproducer.partitions, fun x hx => ?_,
      hproducer.landings⟩, ?_⟩
    · simp only [hown, Function.update_self, Option.some.injEq] at hx
      rw [hseats, hx, Function.update_self]
      exact nofun
    · cases producing with
      | moving selection m => exact ⟨hok.1.assign ht, hok.2⟩
      | ready => exact hok
      | inserting => exact hok
      | preparing => exact hok
  | dispatcher selection limit dispatching => exact ⟨hrowless, hok.2.1, hok.2.2.assign h ht⟩
  | reclaimer reclaiming => exact ⟨hrowless, hok.2.1, hok.2.2.assign ht⟩
  | migrator migrating => exact ⟨hrowless, hok.2.1, hok.2.2.assign hkept ht hseat⟩

end AsceticDdd.Outbox
