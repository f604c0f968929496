import AsceticDdd.Outbox.Assign
import AsceticDdd.Outbox.Dispatcher
import AsceticDdd.Outbox.Effect
import AsceticDdd.Outbox.Migrator
import AsceticDdd.Outbox.Mover

/-!
# The invariant holds of every run

Each step keeps the invariant and its own session's assertion, and leaves the others theirs. Two
kinds of steps undo what another session knows, and the runs are those without them: a bound
raised past a move whose call read it and still waits for the key, and a commit of rows below
the bound of the ring's copy while that bound is being read.
-/

namespace AsceticDdd.Outbox

open Postgres Interleaving

variable {o : PgOutbox} {fair : Nat → Prop} {d d' : Database} {s : Nat}

section Own

theorem Consistent.start (h : Consistent o fair d) {a : Act} {p : Process} (hok : d.Quiet s)
    (hstep : PgOutbox.start d a = some (d', p)) : Kept o fair s d d' ∧ p.Ok o fair d' s := by
  have hrowless : d.Rowless s := fun x hx => absurd (hx.symm.trans hok.own) nofun
  have hplain : d.Plain s := fun key hlock => absurd hlock (hok.cells key)
  have huncalled : d.Uncalled s := fun key hlock => absurd hlock (hok.cells key)
  unfold PgOutbox.start at hstep
  split at hstep
  · cases hstep
    refine ⟨.refl h s, ⟨fun key _ hlock => absurd hlock (hok.cells key), huncalled,
      hok.partitions, fun x hx => absurd (hx.symm.trans hok.own) nofun, nofun⟩, fun hne => absurd rfl hne⟩
  · cases hstep
    exact ⟨.refl h s, hok.cells⟩
  · cases hstep
    exact ⟨.refl h s, hrowless, lt_max_of_lt_right Nat.one_pos, huncalled⟩
  · cases hstep
    exact ⟨.refl h s, hrowless, hok.cells, trivial⟩
  · cases hstep
    exact ⟨.refl h s, hrowless, huncalled, hplain⟩
  · obtain ⟨t, ht, heq⟩ := Option.map_eq_some_iff.mp hstep
    cases heq
    refine ⟨h.advance (Transactions.resolve_advances ht) (Or.inr ⟨hok.cells, hok.partitions⟩),
      hok.cells, hok.key, hok.partitions, ?_⟩
    obtain ⟨_, _, _, rfl⟩ := Transactions.resolve_eq_some ht
    change (if d.transactions.own s = some _ then none else d.transactions.own s) = none
    rw [hok.own, if_neg nofun]
  · cases hstep

theorem Consistent.holdsNothing (h : Consistent o fair d) (hnothing : d.holdsNothing s = true) :
    (∀ key, (d.cells key).lock ≠ some s) ∧ ¬d.reclamationKey.Holds s := by
  simp only [Database.holdsNothing, Bool.and_eq_true, decide_eq_true_eq, List.all_eq_true] at hnothing
  obtain ⟨⟨hexclusive, hshared⟩, hcells⟩ := hnothing
  refine ⟨fun key hlock => ?_, fun hholds => hholds.elim hexclusive hshared⟩
  by_cases hkey : key ∈ d.keys
  · exact hcells key hkey hlock
  · cases hlock.symm.trans ((h.cells key).present hkey).2

theorem Consistent.produce (h : Consistent o fair d) {landings : List Nat} {producing : Producing}
    {a : Act} {p : Process} (hproducer : ProducerOk d s landings) (hok : producing.Ok fair d s landings)
    (hstep : o.produce d s landings producing a = some (d', p)) :
    Kept o fair s d d' ∧ p.Ok o fair d' s := by
  unfold PgOutbox.produce at hstep
  split at hstep
  · obtain ⟨⟨d₁, position⟩, hdraw, heq⟩ := Option.map_eq_some_iff.mp hstep
    cases heq
    obtain ⟨hkept, hdrawn⟩ := h.draw hdraw
    obtain ⟨rfl, rfl⟩ := Database.draw_eq hdraw
    exact ⟨hkept, hproducer.of_same hproducer.anew hproducer.uncalled rfl rfl rfl, hdrawn, hok⟩
  · rename_i message createdAt position
    obtain ⟨d₁, hinsert, heq⟩ := Option.map_eq_some_iff.mp hstep
    cases heq
    have hkept := h.insert hok.1 hproducer.anew hproducer.here hinsert
    obtain ⟨transactionId, _, _, rfl⟩ := Database.insert_eq hinsert
    exact ⟨hkept, hproducer.of_same hproducer.anew hproducer.uncalled rfl rfl rfl, hok.2⟩
  · rename_i selection move
    cases hstep
    refine ⟨.refl h s, hproducer, ⟨fun hkept key hlock => ?_, ?_⟩,
      fun hne => ⟨decide_eq_true (hok hne), hok hne⟩⟩
    · cases hpending : (d.cells key).pending with
      | none => rfl
      | some row =>
        exact absurd (hproducer.anew key row hlock hpending).2.2.2 (decide_eq_false_iff_not.mp hkept)
    · cases move with
      | fromId xid =>
        cases hread : d.metaRow.intactFrom with
        | none => exact Or.inr nofun
        | some v =>
          rcases Nat.lt_or_ge xid v with hlt | hle
          · exact Or.inl ⟨v, rfl, hlt⟩
          · exact Or.inr fun u hu => Option.some.inj hu ▸ hle
      | start => rfl
      | now => trivial
  · rename_i selection m
    obtain ⟨d₁, hstop, heq⟩ := Option.map_eq_some_iff.mp hstep
    cases heq
    cases m with
    | granted kept move read =>
      cases hstop
      obtain ⟨hpending, _, hexclusive⟩ := hok.1
      obtain ⟨hkept, hanew⟩ := h.unhold hpending hproducer.anew
      refine ⟨hkept, ?_, fun hne => ?_⟩
      · cases kept <;> exact hproducer.of_same hanew hproducer.uncalled rfl rfl rfl
      · rw [show kept = true from (hok.2 hne).1]
        exact hexclusive
    | _ => cases hstop
  · obtain ⟨⟨d₁, next⟩, hset, heq⟩ := Option.map_eq_some_iff.mp hstep
    cases heq
    exact h.setPosition hproducer hok hset
  · cases hstep
    exact ⟨h.finish, finish_quiet⟩
  · split at hstep
    · rename_i hnothing
      obtain ⟨t, ht, heq⟩ := Option.map_eq_some_iff.mp hstep
      cases heq
      obtain ⟨hfree, hkey⟩ := h.holdsNothing hnothing
      obtain ⟨_, _, _, hown, x, hx, _, hseat⟩ := Transactions.prepare_eq_some ht
      refine ⟨h.advance (Transactions.prepare_advances ht) (Or.inl fun x hx => hown ▸ hx),
        ⟨hproducer.anew, hproducer.uncalled, hproducer.partitions, fun y hy => ?_,
          hproducer.landings⟩,
        by_contra fun hne => hkey (Or.inl (hok hne)), hfree, hkey⟩
      rw [hown, hx, Option.some.injEq] at hy
      rw [hseat, ← hy, Function.update_self]
      exact nofun
    · cases hstep
  · obtain ⟨t, ht, heq⟩ := Option.map_eq_some_iff.mp hstep
    cases heq
    obtain ⟨_, _, _, hown, _⟩ := Transactions.leave_eq_some ht
    obtain ⟨_, hfree, hkey⟩ := hok
    refine ⟨h.advance (Transactions.leave_advances ht) (Or.inr ⟨hfree, hproducer.partitions⟩),
      hfree, hkey, hproducer.partitions, ?_⟩
    rw [hown, Function.update_self]
  · cases hstep

theorem Consistent.commit (h : Consistent o fair d) {p next : Process} (hok : p.Ok o fair d s)
    (hstep : o.commit d s p = some (d', next)) : Kept o fair s d d' ∧ next.Ok o fair d' s := by
  have hquiet : (d.finish s true).Quiet s := finish_quiet
  unfold PgOutbox.commit at hstep
  split at hstep <;> cases hstep
  · exact ⟨h.finish, hquiet⟩
  · exact ⟨h.finish, hquiet⟩
  · exact ⟨h.finish, hquiet⟩
  · exact ⟨h.emptied hok.1 hok.2.1 hok.2.2, { hquiet with }⟩
  · exact ⟨h.finish, hquiet⟩
  · exact ⟨h.recorded hok.1 hok.2.2, fun x hx => absurd (hx.symm.trans hquiet.own) nofun,
      fun key hlock => absurd hlock (hquiet.cells key), List.mem_cons_self, { hquiet with }⟩
  · exact ⟨h.copied hok.1 hok.2.2, { hquiet with }⟩

/-- What a step keeps of the shared state, and leaves its own session knowing. -/
theorem Consistent.step (h : Consistent o fair d) {p next : Process} {a : Act} (hok : p.Ok o fair d s)
    (hstep : Step o s d p a d' next) : Kept o fair s d d' ∧ next.Ok o fair d' s := by
  cases hstep with
  | start hstep => exact h.start hok hstep
  | assign hseat ht => exact h.assign hseat hok ht
  | release => exact ⟨.refl h s, hok.2.2.2⟩
  | rollback => exact ⟨h.finish, finish_quiet⟩
  | produce hstep => exact h.produce hok.1 hok.2 hstep
  | take hstep =>
    obtain ⟨hkept, hrowless, hok'⟩ := h.take hok.1 hok.2.2 hstep
    exact ⟨hkept, hrowless, hok.2.1, hok'⟩
  | dispatch hstep =>
    obtain ⟨hkept, hrowless, hok'⟩ := h.dispatch hok.1 hok.2.1 hok.2.2 hstep
    exact ⟨hkept, hrowless, hok.2.1, hok'⟩
  | stop => exact ⟨.refl h s, hok.1, hok.2.1, trivial⟩
  | pass hstep => exact h.pass hok.1 hok.2.1 hok.2.2 hstep
  | migrate hstep => exact h.migrate hok.1 hok.2.1 hok.2.2 hstep
  | commit hstep => exact h.commit hok hstep

end Own

section Others

variable {w w' : World} {i : Nat} {a : Act}

/-- No step raises the bound past a move whose call read it and waits for the key. -/
def RaisesNone (w : World) (i : Nat) (a : Act) : Prop := a = .commit →
  ∀ v, (w.procs i).raises = some v → ∀ j landings selection kept move read,
    w.procs j = .producer landings (.moving selection (.holding kept move read)) →
      move.Allowed read (some v)

/-- A step that commits transaction `x`. -/
def Commits (w : World) (i : Nat) (a : Act) (x : Nat) : Prop :=
  a = .commit ∧ w.shared.transactions.own i = some x ∨ a = .resolve x true

/-- No step commits a row of a fair transaction below the bound of the ring's copy while the bound
is being read. -/
def CommitsAbove (fair : Nat → Prop) (w : World) (i : Nat) (a : Act) : Prop :=
  ∀ x, fair x → Commits w i a x →
  ∀ j next bound rows, (w.procs j = .migrator (.read next bound rows) ∨
    w.procs j = .migrator (.sessions next bound rows)) →
      ∀ r ∈ w.shared.written, r.transactionId = x → bound ≤ x

/-- The steps of the runs the invariant holds of. -/
def Allows (fair : Nat → Prop) (w : World) (i : Nat) (a : Act) : Prop :=
  RaisesNone w i a ∧ CommitsAbove fair w i a

theorem Effect.uninterrupted (h : Effect o i w.shared (w.procs i) a d') (hok : Allows fair w i a)
    (j : Nat) : (w.procs j).Uninterrupted fair w.shared d' := by
  have habove : ∀ next bound rows, (w.procs j = .migrator (.read next bound rows) ∨
      w.procs j = .migrator (.sessions next bound rows)) → ∀ r ∈ w.shared.written, fair r.transactionId →
      ¬w.shared.transactions.Ended r.transactionId →
      d'.transactions.Committed r.transactionId → bound ≤ r.transactionId := by
    intro next bound rows hj r hr hfair hnot hcommitted
    exact hok.2 _ hfair ((h.committed hcommitted).resolve_left fun hc => hnot hc.ended) j next bound rows hj
      r hr rfl
  unfold Process.Uninterrupted
  split
  · rename_i landings selection kept move read hj
    intro hallowed
    rcases h.intactFrom with hsame | ⟨hact, v, hv, hraised⟩
    · exact hsame ▸ hallowed
    · exact hraised ▸ hok.1 hact v hv j landings selection kept move read hj
  · rename_i next bound rows hj
    exact habove next bound rows (Or.inl hj)
  · rename_i next bound rows hj
    exact habove next bound rows (Or.inr hj)
  · trivial

/-- The invariant, every session's assertion, and what a step guarantees the others. -/
theorem relyGuarantee (o : PgOutbox) (fair : Nat → Prop) : RelyGuarantee o.program (Allows fair)
    (fun _ => True) (Consistent o fair) (fun d s p => p.Ok o fair d s)
    (fun w i d => Guarantee o i w.shared d ∧ ∀ j, (w.procs j).Uninterrupted fair w.shared d) where
  step w i a d p _ hd hown hok hstep := by
    have hcases := PgOutbox.step_cases hstep
    obtain ⟨⟨hconsistent, hguarantee⟩, hown'⟩ := hd.step hown hcases
    exact ⟨hconsistent, hown', hguarantee, hcases.effect.uninterrupted hok⟩
  stable w i j d _ hij hd hguar hown := hown.stable hd hguar.1 (Ne.symm hij) (hguar.2 j)

/-- What holds in every world of a run. -/
structure Invariant (o : PgOutbox) (fair : Nat → Prop) (w : World) : Prop where
  consistent : Consistent o fair w.shared
  ok : ∀ s, (w.procs s).Ok o fair w.shared s

theorem Invariant.run {ok : World → Nat → Act → Prop} (h : Invariant o fair w)
    (hallows : ∀ v i a, ok v i a → Allows fair v i a) (hrun : o.program.Run ok w w') :
    Invariant o fair w' :=
  have ⟨hconsistent, hok⟩ := (relyGuarantee o fair).run (fun _ _ => trivial) h.consistent h.ok
    (hrun.mono hallows)
  ⟨hconsistent, hok⟩

theorem Invariant.act {i : Nat} {a : Act} (h : Invariant o fair w) (hallows : Allows fair w i a)
    (hact : o.program.act w i a = some w') : Invariant o fair w' :=
  h.run (fun _ _ _ => id) ((Program.Run.refl w).step hallows hact)

/-- What each step keeps, given the invariant, a run keeps. -/
theorem Invariant.extend {ok : World → Nat → Act → Prop} {J : World → Prop} (h : Invariant o fair w)
    (hallows : ∀ v i a, ok v i a → Allows fair v i a)
    (hstep : ∀ v i a d p, Invariant o fair v → J v → ok v i a →
      Step o i v.shared (v.procs i) a d p → J ⟨d, Function.update v.procs i p⟩)
    (h0 : J w) (hrun : o.program.Run ok w w') : J w' := by
  refine (hrun.invariant (I := fun v => Invariant o fair v ∧ J v) ?_ ⟨h, h0⟩).2
  rintro v i a v' ⟨hinv, hJ⟩ hok hact
  have hinv' : Invariant o fair v' := hinv.act (hallows v i a hok) hact
  obtain ⟨d, p, hcases, rfl⟩ := (o.program.act_eq_some).mp hact
  exact ⟨hinv', hstep v i a d p hinv hJ hok (PgOutbox.step_cases hcases)⟩

/-- Nothing that had ended begins to count. -/
theorem Invariant.later {ok : World → Nat → Act → Prop} (h : Invariant o fair w)
    (hallows : ∀ v i a, ok v i a → Allows fair v i a) (hrun : o.program.Run ok w w') :
    Later w.shared.written w.shared.transactions.Ended w.shared.transactions.Committed
      w'.shared.written w'.shared.transactions.Ended w'.shared.transactions.Committed := by
  apply h.extend hallows _ (Later.refl _ _ _) hrun
  intro v i a d p hinv hlater hok hstep
  obtain ⟨⟨_, hguarantee⟩, _⟩ := hinv.consistent.step (hinv.ok i) hstep
  obtain ⟨new, hwritten, hnew⟩ := hguarantee.written
  exact hlater.trans (later_committed d hguarantee.transactions hwritten fun r hr => (hnew r hr).1)

end Others

section Start

/-- A position's row before a run: a committed version that sees nothing but what has ended. -/
structure Cell.Rests (d : Database) (c : Cell) : Prop where
  unlocked : c.lock = none ∧ c.pending = none ∧ c.anew = none
  unhanded : c.handed = [] ∧ c.handing = [] ∧ c.calling = []
  began : ∀ row, c.committed = some row → c.began = row.toPosition
  ended : ∀ row, c.committed = some row → ∀ x, row.delivered.visible x → d.transactions.Ended x
  epoch : ∀ row e, c.committed = some row → row.epoch = some e → e.endAt = none ∧
    e.generations = [] ∧ (∀ x, e.snapshot.visible x → d.transactions.Ended x) ∧
    ∀ x, row.delivered.visible x → e.snapshot.visible x
  pair : ∀ row, c.committed = some row → row.PairBelow

/-- A world a run begins in: producers may be in their transactions, with rows of their own, and
nothing else is in progress. -/
structure Resting (w : World) : Prop where
  procs : ∀ s, w.procs s = .idle ∧ w.shared.transactions.own s = none ∨
    w.procs s = .producer [] .ready ∧
      ∀ x, w.shared.transactions.own s = some x → w.shared.transactions.seat x ≠ .elsewhere
  key : ∀ s, ¬w.shared.reclamationKey.Holds s
  partitions : ∀ generation, w.shared.partitions generation = none
  drawn : ∀ position, w.shared.drawn position = none
  written : w.shared.table = w.shared.written
  positions : (w.shared.written.map (·.position)).Nodup
  position_lt : ∀ r ∈ w.shared.written, r.position < w.shared.nextPosition
  ids : ∀ r ∈ w.shared.written, 0 < r.transactionId ∧ r.transactionId < w.shared.transactions.next
  here : ∀ r ∈ w.shared.written, ¬w.shared.transactions.Ended r.transactionId →
    w.shared.transactions.seat r.transactionId ≠ .elsewhere
  cells : ∀ key, (w.shared.cells key).Rests w.shared
  keys : ∀ key, (w.shared.cells key).committed ≠ none → key ∈ w.shared.keys
  calls : w.shared.calls = []
  bounds : w.shared.bounds = []

variable {w w' : World}

theorem Cell.Rests.ok {key : PositionKey} {c : Cell} (h : c.Rests d) (hnone : ∀ r, ¬d.Spent r)
    (hkey : c.committed ≠ none → key ∈ d.keys) : CellOk o fair d key c := by
  obtain ⟨hlock, hpending, hanew⟩ := h.unlocked
  obtain ⟨hhanded, hhanding, hcalling⟩ := h.unhanded
  refine {
    present := fun hout => ⟨by_contra fun hne => hout (hkey hne), hlock⟩
    unlocked := fun _ => ⟨hpending, hcalling⟩
    unwritten := fun _ => ⟨hanew, hhanding⟩
    committed_sound := fun row hrow => ?_
    pending_sound := fun _ _ hs => absurd (hlock.symm.trans hs) nofun
    grown := fun _ hrow => absurd (hpending.symm.trans hrow) nofun
    anew_held := fun _ hs => absurd (hlock.symm.trans hs) nofun
    committed_spares := fun _ _ r hr => absurd hr (hnone r)
    pending_spares := fun _ _ r hr => absurd hr (hnone r)
    committed_pair := h.pair
    pending_pair := fun _ hrow => absurd (hpending.symm.trans hrow) nofun }
  rw [h.began row hrow, hhanded]
  have hseen : ∀ r, row.toPosition.Passed r → d.transactions.Ended r.transactionId := by
    rintro r (hr | ⟨e, he, hr, _⟩)
    · exact h.ended row hrow _ hr
    · exact (h.epoch row e hrow he).2.2.1 _ hr
  refine ⟨h.ended row hrow, fun e he => ?_, hseen, fun _ _ _ _ => id, fun _ _ _ _ _ => Or.inr,
    nofun, .nil⟩
  obtain ⟨hend, hgenerations, hvisible, hgrows⟩ := h.epoch row e hrow he
  refine ⟨hvisible, hgrows, ?_, fun hne => absurd hend hne⟩
  rw [hgenerations]
  exact .nil

theorem Resting.consistent (h : Resting w) : Consistent o fair w.shared := by
  have hnone : ∀ r, ¬w.shared.Spent r := by
    rintro r ⟨hwritten, _, hgone | ⟨bound, hbound, _⟩⟩
    · exact hgone (h.written ▸ hwritten)
    · rw [h.bounds] at hbound
      cases hbound
  refine ⟨?_, fun key => (h.cells key).ok hnone (h.keys key), fun r hr => absurd hr (hnone r),
    fun bound hbound => ?_⟩
  · exact {
      table := h.written ▸ List.Sublist.refl _
      kept := fun r hr _ => h.written ▸ hr
      positions := h.positions
      position_lt := h.position_lt
      drawn_lt := fun p s hp => absurd ((h.drawn p).symm.trans hp) nofun
      drawn_free := fun r _ => h.drawn r.position
      ids := fun r hr => (h.ids r hr).2
      ids_pos := fun r hr => (h.ids r hr).1
      here := h.here
      partitions := fun g s hg => absurd ((h.partitions g).symm.trans hg) nofun }
  · rw [h.bounds] at hbound
    cases hbound

theorem Resting.ok (h : Resting w) (s : Nat) : (w.procs s).Ok o fair w.shared s := by
  have hfree : ∀ key, (w.shared.cells key).lock ≠ some s := fun key hlock =>
    absurd ((h.cells key).unlocked.1.symm.trans hlock) nofun
  have hpartition : ∀ generation, w.shared.partitions generation ≠ some s := fun generation hg =>
    absurd ((h.partitions generation).symm.trans hg) nofun
  rcases h.procs s with ⟨hp, hown⟩ | ⟨hp, hhere⟩ <;> rw [hp]
  · exact ⟨hfree, h.key s, hpartition, hown⟩
  · exact ⟨⟨fun key _ hlock => absurd hlock (hfree key), fun key hlock => absurd hlock (hfree key),
      hpartition, hhere, nofun⟩,
      fun hne => absurd rfl hne⟩

theorem Resting.invariant (h : Resting w) : Invariant o fair w := ⟨h.consistent, h.ok⟩

/-- A new outbox, on a server with no transaction running. -/
def Database.fresh (latest : Nat) (ringMade : Bool) : Database where
  transactions := .settled latest
  nextPosition := 1
  drawn _ := none
  table := []
  written := []
  cells _ := .absent
  keys := []
  metaRow := ⟨none, none, none⟩
  reclamationKey := .free
  partitions _ := none
  ringMade := ringMade
  calls := []
  bounds := []

theorem Resting.fresh {latest : Nat} {ringMade : Bool} :
    Resting ⟨.fresh latest ringMade, fun _ => .idle⟩ where
  procs _ := Or.inl ⟨rfl, rfl⟩
  key _ := AdvisoryLock.not_holds_free
  partitions _ := rfl
  drawn _ := rfl
  written := rfl
  positions := .nil
  position_lt := nofun
  ids := nofun
  here := nofun
  cells _ := ⟨⟨rfl, rfl, rfl⟩, ⟨rfl, rfl, rfl⟩, nofun, nofun, nofun, nofun⟩
  keys _ hne := absurd rfl hne
  calls := rfl
  bounds := rfl

/-- An outbox of one slot, and a world it begins in. -/
def oneSlot : PgOutbox := ⟨1, .new 2 4, 1, 1000, fun _ => 0#32⟩

def beginning : World := ⟨.fresh 5 true, fun _ => .idle⟩

/-- A session writes a row, and has not committed it. -/
def publish : List (Nat × Act) :=
  [(0, .begin), (0, .assign), (0, .publish ⟨"orders/7", [], .null⟩ "now"), (0, .next)]

def published : Row := ⟨⟨"orders/7", [], .null⟩, "now", 1, 6⟩

/-- A group comes in contact, and is handed a row on. -/
def deliver : List (Nat × Act) :=
  (1, .dispatch ⟨"billing", ""⟩ 10) :: List.replicate 2 (1, .next) ++ [(1, .take none)] ++
    List.replicate 6 (1, .next) ++ [(1, .take (some 0))] ++ List.replicate 5 (1, .next) ++ [(1, .commit)]

/-- The world after these steps. -/
def worldAfter (w : World) (acts : List (Nat × Act)) (h : (oneSlot.program.exec w acts).isSome) : World :=
  (oneSlot.program.exec w acts).get h

theorem worldAfter_run {w : World} {acts : List (Nat × Act)} {h : (oneSlot.program.exec w acts).isSome}
    {ok : World → Nat → Act → Prop} (hok : ∀ v, ∀ s ∈ acts, ok v s.1 s.2) :
    oneSlot.program.Run ok w (worldAfter w acts h) :=
  Program.Run.of_exec hok (Option.some_get h).symm

/-- The same, where each step passes a check. -/
def worldIf (check : World → Nat → Act → Bool) (w : World) (acts : List (Nat × Act))
    (h : (oneSlot.program.execIf check w acts).isSome) : World :=
  (oneSlot.program.execIf check w acts).get h

theorem worldIf_run {check : World → Nat → Act → Bool} {w : World} {acts : List (Nat × Act)}
    {h : (oneSlot.program.execIf check w acts).isSome} {ok : World → Nat → Act → Prop}
    (hok : ∀ v, ∀ s ∈ acts, check v s.1 s.2 → ok v s.1 s.2) :
    oneSlot.program.Run ok w (worldIf check w acts h) :=
  Program.Run.of_execIf hok (Option.some_get h).symm

end Start

end AsceticDdd.Outbox
