import AsceticDdd.Inbox.Commit

/-!
# What holds of every reachable state

The tables' invariant and every session's assertion, kept by every step of any session.
-/

namespace AsceticDdd.Inbox

open Database Interleaving

variable {o : PgInbox} {d d' : Database} {s t : Nat} {p q : Process} {identity : CausalDependency}
  {ok : World → Nat → Act → Prop} {w w' : World}

/-- A session's assertion is not undone while another is at work. -/
theorem Ok.works (hok : Ok o d t q) (hworks : Works s d d') (ht : t ≠ s) : Ok o d' t q where
  slot slot h := (hok.slot slot h).imp_left (hworks.slots slot t ht).mpr
  key key h := (hworks.advisory key t ht).mpr (hok.key key h)
  journal := (hworks.journal t ht).trans hok.journal
  head row h := by
    obtain ⟨hlock, hcommitted, hstands, hwrote⟩ := hok.head row h
    rw [hworks.others _ t ht hlock, hworks.committed]
    exact ⟨hlock, hcommitted, hstands, hwrote⟩
  writes identity version hlock hpending := by
    rw [hworks.cell_eq ht hlock] at hpending
    rw [hworks.committed]
    exact hok.writes identity version (hworks.locks _ t ht hlock) hpending
  checked row left h dependency hdependency := by
    rw [hworks.log]
    exact hok.checked row left h dependency hdependency
  covered marked found h identity row hrow hwaits := by
    rw [hworks.committed] at hrow
    refine (hok.covered marked found h identity row hrow hwaits).imp_right fun ⟨hlock, hpending⟩ => ?_
    rw [hworks.others _ t ht hlock]
    exact ⟨hlock, hpending⟩
  unmarked dependency h holder hholder :=
    hok.unmarked dependency h holder (hworks.committed _ ▸ hholder)
  named := hok.named
  sweeps row h := by
    obtain ⟨hlock, hcommitted, hprocessed⟩ := hok.sweeps row h
    rw [hworks.others _ t ht hlock, hworks.committed]
    exact ⟨hlock, hcommitted, hprocessed⟩

theorem finish_cell {commits : Bool} (h : (d.cells identity).lock ≠ some s) :
    (d.finish s commits).cells identity = d.cells identity := by
  simp only [Database.finish, Cell.finish, if_neg h]

theorem finish_locked {commits : Bool} (h : ((d.finish s commits).cells identity).lock = some t) :
    (d.cells identity).lock ≠ some s := by
  intro hlock
  simp only [Database.finish, Cell.finish, if_pos hlock] at h
  cases h

/-- The slot and the lock of a session that has set a row aside. -/
theorem Ok.setsAside (hok : Ok o d s p) {dependency : CausalDependency}
    (h : p.awaits = some dependency) : d.advisory (o.lockKey dependency) = some s ∧
      ∃ slot < o.slots, (d.slots slot).lock = some s := by
  cases p with
  | dispatcher begunAt p =>
    cases p with
    | done slot outcome =>
      cases outcome with
      | setAside row dependency' =>
        cases h
        obtain ⟨hlock, hlt⟩ := hok.slot _ (hok.stands rfl).2.2.2
        exact ⟨hok.key _ rfl, _, hlt, hlock⟩
      | _ => cases h
    | _ => cases h
  | _ => cases h

/-- Nor when another ends, if its commit makes no row wait for what the session has marked, and marks
nothing the session has set a row aside for. -/
theorem Ok.finish {commits : Bool} (hok : Ok o d t q) (ht : t ≠ s)
    (hwaits : ∀ marked found identity row, q.marks = some (marked, found) →
      (d.finish s commits).committed identity = some row → row.waitingFor = some marked →
        d.committed identity = some row)
    (hmarks : ∀ dependency holder, q.awaits = some dependency →
      (d.finish s commits).committed dependency = some holder → holder.processedPosition ≠ none →
        d.committed dependency = some holder) : Ok o (d.finish s commits) t q where
  slot slot h := by
    refine (hok.slot slot h).imp_left fun hlock => ?_
    simp only [Database.finish, SlotRow.finish]
    rwa [if_neg (by rw [hlock, Option.some.injEq]; exact ht)]
  key key h := by
    have hlock := hok.key key h
    simp only [Database.finish]
    rwa [if_neg (by rw [hlock, Option.some.injEq]; exact ht)]
  journal := (Function.update_of_ne ht ..).trans hok.journal
  head row h := by
    obtain ⟨hlock, hcommitted, hstands, hwrote⟩ := hok.head row h
    have hnot : (d.cells row.identity).lock ≠ some s := by rwa [hlock, ne_eq, Option.some.injEq]
    rw [Database.committed, finish_cell hnot]
    exact ⟨hlock, hcommitted, hstands, hwrote⟩
  writes identity version hlock hpending := by
    have hnot := finish_locked hlock
    rw [finish_cell hnot] at hlock hpending
    rw [Database.committed, finish_cell hnot]
    exact hok.writes identity version hlock hpending
  checked row left h dependency hdependency := by
    refine (hok.checked row left h dependency hdependency).imp_right fun hmarked => ?_
    refine hmarked.mono fun e he => ?_
    cases commits with
    | false => exact he
    | true => exact List.mem_append_left _ he
  covered marked found h identity row hrow hwaiting := by
    refine (hok.covered marked found h identity row (hwaits _ _ _ _ h hrow hwaiting)
      hwaiting).imp_right fun hwritten => ?_
    obtain ⟨hlock, hpending⟩ := hwritten
    rw [finish_cell (by rwa [hlock, ne_eq, Option.some.injEq])]
    exact ⟨hlock, hpending⟩
  unmarked dependency h holder hholder := by
    by_contra hprocessed
    exact hprocessed (hok.unmarked dependency h holder (hmarks _ _ h hholder hprocessed))
  named := hok.named
  sweeps row h := by
    obtain ⟨hlock, hcommitted, hprocessed⟩ := hok.sweeps row h
    have hnot : (d.cells row.identity).lock ≠ some s := by rwa [hlock, ne_eq, Option.some.injEq]
    rw [Database.committed, finish_cell hnot]
    exact ⟨hlock, hcommitted, hprocessed⟩

/-- What the locks keep apart, a commit cannot bring together. -/
theorem Ok.finish_true (hd : Consistent o d) (hok : Ok o d t q) (hother : Ok o d s p) (ht : t ≠ s) :
    Ok o (d.finish s true) t q := by
  refine hok.finish ht ?_ ?_
  · intro marked found identity row h hrow hwaits
    rcases finish_cases hrow with ⟨hlock, hpending⟩ | ⟨hrow, _⟩
    · obtain ⟨hawaits, _⟩ := (hother.change hlock hpending).waits (hd.stands identity) hwaits
      obtain ⟨hkey, hslot⟩ := hother.setsAside hawaits
      exact absurd (hok.excludes h hkey hslot) (Ne.symm ht)
    · exact hrow
  · intro dependency holder h hholder hprocessed
    rcases finish_cases hholder with ⟨hlock, hpending⟩ | ⟨hholder, _⟩
    · obtain ⟨⟨found, hmarks⟩, _⟩ := (hother.change hlock hpending).processed (hd.stands dependency)
        (Option.isSome_iff_ne_none.mpr hprocessed)
      rw [(hd.versions _ _ hpending).1] at hmarks
      obtain ⟨hkey, hslot⟩ := hok.setsAside h
      exact absurd (hother.excludes hmarks hkey hslot) ht
    · exact hholder

@[simp] theorem committed_rolledBack : (d.finish s false).committed identity = d.committed identity := by
  rw [committed_finish, if_neg (by simp)]

theorem Ok.finish_false (hok : Ok o d t q) (ht : t ≠ s) : Ok o (d.finish s false) t q := by
  refine hok.finish ht ?_ ?_
  · intro marked found identity row _ hrow _
    rwa [committed_rolledBack] at hrow
  · intro dependency holder _ hholder _
    rwa [committed_rolledBack] at hholder

/-- After its transaction a session holds nothing. -/
theorem Ok.ended {commits : Bool} (hslot : p.slot = none) (hkey : p.key o = none)
    (hjournal : p.journal = []) (hhead : p.head = none) (hleft : p.left = none) (hmarks : p.marks = none)
    (hawaits : p.awaits = none) (hnamed : p.Named o) (hsweeps : p.sweeps = []) :
    Ok o (d.finish s commits) s p := by
  refine .quiet (fun slot h => nomatch hslot.symm.trans h) hkey ?_ hhead ?_ hleft hmarks hawaits hnamed
    hsweeps
  · rw [hjournal]
    exact Function.update_self ..
  · intro identity version hlock
    exact absurd hlock fun hlock => finish_locked hlock (by
      have hnot := finish_locked hlock
      rw [finish_cell hnot] at hlock
      exact hlock)

/-- A session starts at nothing's expense. -/
theorem Ok.start (hok : Ok o d s p) {a : Act} {next : Process}
    (h : (if p = .idle then (o.start d s a).map fun p => (d, p) else none) = some (d', next)) :
    Works s d d' ∧ Ok o d' s next := by
  split at h
  case isFalse => cases h
  case isTrue hidle =>
    subst hidle
    obtain ⟨started, hstarted, h⟩ := Option.map_eq_some_iff.mp h
    cases h
    refine ⟨.refl s d, ?_⟩
    cases a with
    | publish => cases hstarted; exact { hok with }
    | dispatch =>
      simp only [PgInbox.start] at hstarted
      split at hstarted
      · cases hstarted
        exact { hok with
          head := by rintro _ ⟨⟩
          writes := fun identity version hlock hpending =>
            (hok.writes identity version hlock hpending).elim }
      · cases hstarted
        exact { hok with head := by rintro _ ⟨⟩ }
    | resolve => cases hstarted; exact { hok with head := by rintro _ ⟨⟩ }
    | unpark => cases hstarted; exact { hok with }
    | sweep =>
      obtain ⟨window, _, hstarted⟩ := Option.map_eq_some_iff.mp hstarted
      cases hstarted
      exact { hok with }
    | _ => cases hstarted

/-- A step is a transaction at work, the end of one, or time passing. -/
theorem Consistent.step (hd : Consistent o d) (hok : Ok o d s p) {a : Act} {next : Process}
    (h : o.step d s p a = some (d', next)) :
    Consistent o d' ∧ Ok o d' s next ∧
      (Works s d d' ∨ a = .commit ∧ d' = d.finish s true ∧ p.committed d = some next ∨
        a = .crash ∧ d' = d.finish s false ∧ next = .idle) := by
  have hworks : Works s d d' ∧ Ok o d' s next → Consistent o d' ∧ Ok o d' s next ∧
      (Works s d d' ∨ a = .commit ∧ d' = d.finish s true ∧ p.committed d = some next ∨
        a = .crash ∧ d' = d.finish s false ∧ next = .idle) :=
    fun ⟨hworks, hok⟩ => ⟨hd.works hworks, hok, Or.inl hworks⟩
  cases a with
  | tick time =>
    cases h
    exact hworks ⟨.of_cells rfl rfl rfl rfl (fun _ _ => rfl) rfl le_rfl le_rfl, { hok with }⟩
  | crash =>
    cases h
    exact ⟨hd.finish_false, .ended rfl rfl rfl rfl rfl rfl rfl trivial rfl, Or.inr (Or.inr ⟨rfl, rfl, rfl⟩)⟩
  | commit =>
    obtain ⟨next', hnext, h⟩ := Option.map_eq_some_iff.mp h
    cases h
    refine ⟨hd.finish_true hok hnext, ?_, Or.inr (Or.inl ⟨rfl, rfl, hnext⟩)⟩
    unfold Process.committed at hnext
    split at hnext <;> cases hnext <;> exact .ended rfl rfl rfl rfl rfl rfl rfl trivial rfl
  | next =>
    apply hworks
    cases p with
    | idle => cases h
    | publisher p =>
      obtain ⟨r, hr, h⟩ := Option.map_eq_some_iff.mp h
      cases h
      exact hok.publish hr
    | expirer begunAt maxWait found =>
      cases found with
      | nil => cases h
      | cons row found =>
        cases h
        exact hok.expire hd
    | dispatcher begunAt p =>
      obtain ⟨r, hr, h⟩ := Option.map_eq_some_iff.mp h
      cases h
      exact hd.dispatch hok hr
    | resolver identity p =>
      obtain ⟨r, hr, h⟩ := Option.map_eq_some_iff.mp h
      cases h
      exact hok.resolve hd hr
    | unparker identity p =>
      obtain ⟨r, hr, h⟩ := Option.map_eq_some_iff.mp h
      cases h
      exact hok.unpark hd hr
    | sweeper channel window sweptTo p =>
      obtain ⟨r, hr, h⟩ := Option.map_eq_some_iff.mp h
      cases h
      exact hok.forgetBatch hd hr
  | succeed =>
    apply hworks
    cases p with
    | dispatcher begunAt p =>
      obtain ⟨r, hr, h⟩ := Option.map_eq_some_iff.mp h
      cases h
      exact hok.succeed hr
    | _ => cases h
  | fail error permanent =>
    apply hworks
    cases p with
    | dispatcher begunAt p =>
      obtain ⟨r, hr, h⟩ := Option.map_eq_some_iff.mp h
      cases h
      exact ⟨.refl s d, hok.fail hr⟩
    | _ => cases h
  | _ => exact hworks (hok.start h)

/-- A committed version was so before, or is the committing transaction's. -/
theorem Consistent.step_committed (hd : Consistent o d) (hok : Ok o d s p) {a : Act} {next : Process}
    (h : o.step d s p a = some (d', next)) :
    (∀ identity, d'.committed identity = d.committed identity) ∨
    a = .commit ∧ d' = d.finish s true ∧ p.committed d = some next := by
  obtain ⟨_, _, hworks | hcommit | ⟨_, rfl, _⟩⟩ := hd.step hok h
  · exact Or.inl hworks.committed
  · exact Or.inr hcommit
  · exact Or.inl fun _ => committed_rolledBack

theorem Ok.finish_change (hok : Ok o d s p) (identity : CausalDependency) :
    (d.finish s true).committed identity = d.committed identity ∨
      Change p (d.committed identity) ((d.finish s true).committed identity) := by
  rw [committed_finish]
  split
  case isTrue hlock =>
    cases hpending : (d.cells identity).pending with
    | none => exact Or.inl rfl
    | some version => exact Or.inr (hok.change hlock.1 hpending)
  case isFalse => exact Or.inl rfl

theorem Ok.finish_committed (hok : Ok o d s p) {row : Row}
    (h : (d.finish s true).committed identity = some row) :
    d.committed identity = some row ∨ Change p (d.committed identity) (some row) := by
  rw [← h]
  exact (hok.finish_change identity).imp_left Eq.symm

theorem Consistent.step_next (hd : Consistent o d) (hok : Ok o d s p) {a : Act} {next : Process}
    (h : o.step d s p a = some (d', next)) : d.next ≤ d'.next := by
  obtain ⟨_, _, hworks | ⟨_, rfl, _⟩ | ⟨_, rfl, _⟩⟩ := hd.step hok h
  · exact hworks.next
  · exact le_rfl
  · exact le_rfl

/-- The tables' invariant, and every session's assertion. -/
structure Invariant (o : PgInbox) (w : World) : Prop where
  consistent : Consistent o w.shared
  ok : ∀ s, Ok o w.shared s (w.procs s)

theorem Invariant.act {i : Nat} {a : Act} (h : Invariant o w) (hact : o.program.act w i a = some w') :
    Invariant o w' := by
  obtain ⟨d, p, hstep, rfl⟩ := (o.program.act_eq_some).mp hact
  obtain ⟨hd, hok, hcases⟩ := h.consistent.step (h.ok i) hstep
  refine ⟨hd, fun j => ?_⟩
  by_cases hj : j = i
  · subst hj
    simpa using hok
  · simp only [Function.update_of_ne hj]
    rcases hcases with hworks | ⟨_, rfl, _⟩ | ⟨_, rfl, _⟩
    · exact (h.ok j).works hworks hj
    · exact (h.ok j).finish_true h.consistent (h.ok i) hj
    · exact (h.ok j).finish_false hj

theorem Invariant.run (h : Invariant o w) (hrun : o.program.Run ok w w') : Invariant o w' :=
  hrun.invariant (fun _ _ _ _ hinv _ hact => hinv.act hact) h

/-- Empty tables, at some time, and nobody at work. -/
def beginning (now : Nat) : World := ⟨.fresh now, fun _ => .idle⟩

theorem Invariant.beginning (now : Nat) : Invariant o (beginning now) where
  consistent := by
    constructor
    case unlocked => exact fun _ _ => rfl
    case identity => rintro _ _ ⟨⟩
    case known => rintro _ _ ⟨⟩
    case versions => rintro _ _ ⟨⟩
    case stands => rintro _ _ ⟨⟩
    case waits => rintro _ _ _ _ ⟨⟩
    case marked => rintro _ _ ⟨⟩
    case causal =>
      intro before row after h
      cases before <;> cases h
    case once => exact fun _ => le_rfl
  ok s := by
    refine .quiet (by rintro _ ⟨⟩) rfl rfl rfl ?_ rfl rfl rfl trivial rfl
    intro identity version hlock
    cases hlock

section Start

/-- An inbox of one slot, two attempts and a channel swept of what is older than ten. -/
def oneSlot : PgInbox where
  slots := 1
  slots_pos := Nat.one_pos
  partitionKey := InboxMessage.uri
  maxAttempts := 2
  backoff attempts := attempts
  maxWait := some 100
  windows := [("bus://orders", 10)]
  batch := 10
  hashtext _ := 0#32
  identityText _ := ""
  uuid _ := none
  fromStr _ := none

/-- A message of the stream of orders. -/
def order (position : Int) (metadata : Option Postgres.Jsonb) : InboxMessage :=
  ⟨"tenant", "Order", .number "7", position, "bus://orders/7", [], metadata⟩

/-- The metadata of a message that depends on that of a position. -/
def after (position : String) : Option Postgres.Jsonb :=
  some (.object [("causal_dependencies",
    .array [.array [.string "tenant", .string "Order", .number "7", .number position]])])

def publish (s : Nat) (message : InboxMessage) : List (Nat × Act) :=
  [(s, .publish message), (s, .next), (s, .next), (s, .commit)]

/-- A dispatcher looks at the head of the only slot, in so many steps. -/
def look (s steps : Nat) : List (Nat × Act) :=
  (s, .dispatch) :: (s, .commit) :: List.replicate steps (s, .next)

/-- It hands on the head, whose dependencies are so many, and has not committed. -/
def handOn (s dependencies : Nat) : List (Nat × Act) :=
  look s (5 + dependencies) ++ [(s, .succeed), (s, .next), (s, .next)]

variable {o : PgInbox}

/-- The world after these steps. -/
def worldAfter (o : PgInbox) (w : World) (acts : List (Nat × Act)) (h : (o.program.exec w acts).isSome) :
    World :=
  (o.program.exec w acts).get h

theorem worldAfter_run {w : World} {acts : List (Nat × Act)} {h : (o.program.exec w acts).isSome}
    {ok : World → Nat → Act → Prop} (hok : ∀ v, ∀ s ∈ acts, ok v s.1 s.2) :
    o.program.Run ok w (worldAfter o w acts h) :=
  Program.Run.of_exec hok (Option.some_get h).symm

/-- The same, where each step passes a check. -/
def worldIf (o : PgInbox) (check : World → Nat → Act → Bool) (w : World) (acts : List (Nat × Act))
    (h : (o.program.execIf check w acts).isSome) : World :=
  (o.program.execIf check w acts).get h

theorem worldIf_run {check : World → Nat → Act → Bool} {w : World} {acts : List (Nat × Act)}
    {h : (o.program.execIf check w acts).isSome} {ok : World → Nat → Act → Prop}
    (hok : ∀ v, ∀ s ∈ acts, check v s.1 s.2 → ok v s.1 s.2) :
    o.program.Run ok w (worldIf o check w acts h) :=
  Program.Run.of_execIf hok (Option.some_get h).symm

end Start

end AsceticDdd.Inbox
