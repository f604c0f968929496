import AsceticDdd.Inbox.Reachable

/-!
# What a subscriber is handed

Its writes for a message are committed with the message's mark, once, and after the marks of the
messages it depends on. A row set aside is not left behind by the mark it waits for.
-/

namespace AsceticDdd.Inbox

open Database Interleaving

variable {o : PgInbox} {d d' : Database} {s : Nat} {p : Process} {w w' : World}

theorem PgInbox.step_commit {next : Process} (h : o.step d s p .commit = some (d', next)) :
    p.committed d = some next ∧ d' = d.finish s true := by
  obtain ⟨_, hcommits, h⟩ := Option.map_eq_some_iff.mp h
  cases h
  exact ⟨hcommits, rfl⟩

/-- What a step adds to the log. -/
def Process.logs (p : Process) : Act → List Event
  | .commit => p.journal
  | _ => []

theorem Consistent.logs (hd : Consistent o d) (hok : Ok o d s p) {a : Act} {next : Process}
    (h : o.step d s p a = some (d', next)) : d'.log = d.log ++ p.logs a := by
  cases a with
  | commit =>
    obtain ⟨_, rfl⟩ := PgInbox.step_commit h
    simp only [Process.logs, ← hok.journal]
    rfl
  | crash =>
    cases h
    exact (List.append_nil _).symm
  | _ =>
    obtain ⟨_, _, hworks | ⟨ha, _⟩ | ⟨ha, _⟩⟩ := hd.step hok h
    · exact hworks.log.trans (List.append_nil _).symm
    · cases ha
    · cases ha

theorem Ok.effects_iff {next : Process} (hd : Consistent o d) (hok : Ok o d s p)
    (hcommits : p.committed d = some next) {row : Row} :
    .effects row ∈ p.journal ↔ (∃ begunAt q, p = .dispatcher begunAt q) ∧
      d.committed row.identity = some row ∧ row.processedPosition = none ∧
      ∃ row', (d.finish s true).committed row.identity = some row' ∧ row'.processedPosition.isSome := by
  constructor
  · intro hmem
    rcases Process.journal_cases hcommits with hnone | ⟨begunAt, slot, row', position, rfl, heq⟩
    · exact absurd rfl (hnone _ hmem row)
    · have hrow : row = row' := by simpa [heq] using hmem
      subst hrow
      obtain ⟨hlock, hcommitted, hqueued, _⟩ := hok.stands rfl
      obtain ⟨at_, hwrote⟩ := (hok.head row rfl).2.2.2
      refine ⟨⟨begunAt, _, rfl⟩, hcommitted, hqueued.1, row.marked position at_, ?_, rfl⟩
      rw [committed_finish, if_pos ⟨hlock, rfl⟩, hwrote]
      rfl
  · rintro ⟨⟨begunAt, q, rfl⟩, hcommitted, hunprocessed, row', hrow', hprocessed⟩
    rcases finish_cases hrow' with ⟨hlock, hpending⟩ | ⟨hsame, _⟩
    · have hmarked := ((hok.change hlock hpending).processed (hd.stands row.identity) hprocessed).2
      rw [(hd.versions _ _ hpending).1] at hmarked
      obtain ⟨marked, position, hidentity, hmem⟩ := hmarked
      cases q with
      | done slot outcome =>
        cases outcome with
        | processed head position' =>
          obtain ⟨rfl, rfl⟩ : marked = head ∧ position = position' := by
            simpa [Process.journal, Dispatching.journal] using hmem
          obtain ⟨_, hheld, _⟩ := hok.stands rfl
          rw [hidentity, hcommitted, Option.some.injEq] at hheld
          rw [hheld]
          exact List.mem_cons_self
        | _ => simp [Process.journal, Dispatching.journal] at hmem
      | _ => cases hcommits
    · rw [hcommitted, Option.some.injEq] at hsame
      rw [← hsame, hunprocessed] at hprocessed
      cases hprocessed

/-- The subscriber's writes for a message are committed at most once until it is forgotten, and exactly
when its row is marked, by the dispatch whose transaction that is. -/
theorem effects_once {now : Nat} (hrun : o.program.Run (fun _ _ _ => True) (beginning now) w) :
    (∀ identity, effectsSince identity 0 w.shared.log ≤ 1) ∧
    ∀ s a w', o.program.act w s a = some w' → ∃ added, w'.shared.log = w.shared.log ++ added ∧
      ∀ row, .effects row ∈ added ↔ (∃ begunAt p, w.procs s = .dispatcher begunAt p) ∧
        w.shared.committed row.identity = some row ∧ row.processedPosition = none ∧
        ∃ row', w'.shared.committed row.identity = some row' ∧ row'.processedPosition.isSome := by
  have hinvariant := (Invariant.beginning now).run hrun
  have hd := hinvariant.consistent
  refine ⟨fun identity => (hd.once identity).trans ?_, fun s a w' hact => ?_⟩
  · split
    · exact le_rfl
    · exact Nat.zero_le 1
  · obtain ⟨d, next, hstep, rfl⟩ := (o.program.act_eq_some).mp hact
    have hstep : o.step w.shared s (w.procs s) a = some (d, next) := hstep
    have hok := hinvariant.ok s
    refine ⟨_, hd.logs hok hstep, fun row => ?_⟩
    have hquiet : (∀ identity, d.committed identity = w.shared.committed identity) →
        ¬ ((∃ begunAt p, w.procs s = .dispatcher begunAt p) ∧
          w.shared.committed row.identity = some row ∧ row.processedPosition = none ∧
          ∃ row', d.committed row.identity = some row' ∧ row'.processedPosition.isSome) := by
      rintro hsame ⟨_, hcommitted, hunprocessed, row', hrow', hprocessed⟩
      rw [hsame, hcommitted, Option.some.injEq] at hrow'
      rw [← hrow', hunprocessed] at hprocessed
      cases hprocessed
    cases a with
    | commit =>
      obtain ⟨hcommits, rfl⟩ := PgInbox.step_commit hstep
      exact hok.effects_iff hd hcommits
    | crash =>
      cases hstep
      exact iff_of_false List.not_mem_nil (hquiet fun _ => committed_rolledBack)
    | _ =>
      obtain ⟨_, _, hworks | ⟨ha, _⟩ | ⟨ha, _⟩⟩ := hd.step hok hstep
      · exact iff_of_false List.not_mem_nil (hquiet hworks.committed)
      · cases ha
      · cases ha

/-- A message delivered once more. -/
def redeliver : List (Nat × Act) :=
  (0, .publish (order 1 none)) :: List.replicate 3 (0, .next) ++ [(0, .commit)]

/-- A message is delivered again while it is handed on and another dispatcher looks. -/
def handedOn : World := worldAfter oneSlot (beginning 0)
  (publish 0 (order 1 none) ++ look 1 5 ++ redeliver ++ look 2 2 ++
    [(2, .commit), (1, .succeed), (1, .next), (1, .next)])
  (by decide +kernel)

def handedOnce : World := (oneSlot.program.act handedOn 1 .commit).get (by decide +kernel)

/-- And delivered again, and looked for, after that. -/
def deliveredAgain : World :=
  worldAfter oneSlot handedOnce (redeliver ++ look 2 2 ++ [(2, .commit)]) (by decide +kernel)

theorem effects_once_redelivered :
    effectsSince (.on (order 1 none)) 0 deliveredAgain.shared.log ≤ 1 ∧
    ∃ added, handedOnce.shared.log = handedOn.shared.log ++ added ∧
      .effects (.received (order 1 none) 1) ∈ added := by
  have hon : oneSlot.program.Run (fun _ _ _ => True) (beginning 0) handedOn := worldAfter_run fun _ _ _ => trivial
  have hact : oneSlot.program.act handedOn 1 .commit = some handedOnce := (Option.some_get _).symm
  have hagain : oneSlot.program.Run (fun _ _ _ => True) (beginning 0) deliveredAgain :=
    (hon.step trivial hact).trans (worldAfter_run fun _ _ _ => trivial)
  obtain ⟨added, hlog, hadded⟩ := (effects_once hon).2 1 .commit handedOnce hact
  refine ⟨(effects_once hagain).1 _, added, hlog, (hadded _).mpr ⟨⟨_, _, rfl⟩, ?_, rfl, ?_⟩⟩
  · decide +kernel
  · exact ⟨_, (Option.some_get (by decide +kernel)).symm, by decide +kernel⟩

/-- No row waits for a dependency that is marked. -/
theorem no_lost_wake {now : Nat} (hrun : o.program.Run (fun _ _ _ => True) (beginning now) w) :
    ∀ identity row dependency holder, w.shared.committed identity = some row →
      row.waitingFor = some dependency → w.shared.committed dependency = some holder →
        holder.processedPosition = none :=
  ((Invariant.beginning now).run hrun).consistent.waits

/-- A message set aside, and the one it waits for received. -/
def waiting : World := worldAfter oneSlot (beginning 0)
  (publish 0 (order 2 (after "1")) ++ look 1 7 ++ (1, .commit) :: publish 0 (order 1 none))
  (by decide +kernel)

theorem no_lost_wake_waiting : (Row.received (order 1 none) 2).processedPosition = none :=
  no_lost_wake (worldAfter_run fun _ _ _ => trivial : oneSlot.program.Run _ _ waiting)
    (.on (order 2 none)) ((Row.received (order 2 (after "1")) 1).waiting (.on (order 1 none)) 0)
    (.on (order 1 none)) _ (by decide +kernel) rfl (by decide +kernel)

/-- The effects of a message come after the marks of all it depends on, and those are of transactions
committed before. -/
theorem causal_order {now : Nat} (hrun : o.program.Run (fun _ _ _ => True) (beginning now) w) :
    (∀ before row after, w.shared.log = before ++ .effects row :: after →
      ∀ dependency ∈ o.dependencies row.toInboxMessage, Marked before dependency) ∧
    ∀ s a w', o.program.act w s a = some w' → ∃ added, w'.shared.log = w.shared.log ++ added ∧
      ∀ row, .effects row ∈ added → ∀ dependency ∈ o.dependencies row.toInboxMessage,
        Marked w.shared.log dependency := by
  have hinvariant := (Invariant.beginning now).run hrun
  refine ⟨hinvariant.consistent.causal, fun s a w' hact => ?_⟩
  obtain ⟨d, next, hstep, rfl⟩ := (o.program.act_eq_some).mp hact
  have hstep : o.step w.shared s (w.procs s) a = some (d, next) := hstep
  have hok := hinvariant.ok s
  refine ⟨_, hinvariant.consistent.logs hok hstep, fun row hmem dependency hdependency => ?_⟩
  cases a with
  | commit =>
    exact hok.effects (PgInbox.step_commit hstep).1 hmem hdependency
  | _ => cases hmem

/-- A message handed on and committed, and one that depends on it handed on. -/
def followed : World := worldAfter oneSlot (beginning 0)
  (publish 0 (order 1 none) ++ handOn 1 0 ++ (1, .commit) :: publish 0 (order 2 (after "1")) ++ handOn 1 1)
  (by decide +kernel)

theorem causal_order_followed :
    (∀ before row after, followed.shared.log = before ++ .effects row :: after →
      ∀ dependency ∈ oneSlot.dependencies row.toInboxMessage, Marked before dependency) ∧
    ∀ s a w', oneSlot.program.act followed s a = some w' →
      ∃ added, w'.shared.log = followed.shared.log ++ added ∧
        ∀ row, .effects row ∈ added → ∀ dependency ∈ oneSlot.dependencies row.toInboxMessage,
          Marked followed.shared.log dependency :=
  causal_order (worldAfter_run fun _ _ _ => trivial)

end AsceticDdd.Inbox
