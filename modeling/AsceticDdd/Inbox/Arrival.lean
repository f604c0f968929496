import AsceticDdd.Inbox.Numbering

/-!
# The order of arrival within a slot

A row that waits for nothing and is never parked stays in its slot's queue until it is marked. Whoever
reads the queue finds it there before every row that came later, and takes it or none.
-/

namespace AsceticDdd.Inbox

open Database Interleaving

variable {o : PgInbox} {d d' : Database} {s n : Nat} {p next : Process} {w w' : World} {turn : Act}
  {row : Row} {e : Event} {a : Row} {b : InboxMessage} {log : List Event}

/-- A row of message `b` that had not come to its position at `n`. -/
def Row.Later (b : InboxMessage) (n : Nat) (row : Row) : Prop :=
  row.toInboxMessage = b ∧ n ≤ row.receivedPosition

/-- A row of the queue is marked, set aside, or stays there unless it is parked. -/
theorem Change.queued {version : Option Row} (h : Change p (some row) version) (hqueued : row.Queued) :
    (∃ row', version = some row' ∧ row.Version row' ∧ (row'.parkedAt = none → row'.Queued)) ∨
    (∃ e ∈ p.journal, ∃ x, e.number = some (row, x)) ∨
    ∃ dependency, p.head = some row ∧ p.awaits = some dependency := by
  obtain ⟨hprocessed, hparked, hwaits⟩ := hqueued
  cases h with
  | setAside _ dependency at_ _ hhead hawaits => exact Or.inr (Or.inr ⟨dependency, hhead, hawaits⟩)
  | failed => exact Or.inl ⟨_, rfl, ⟨rfl, rfl⟩, fun hparked => ⟨hprocessed, hparked, hwaits⟩⟩
  | marked _ position at_ _ _ hjournal => exact Or.inr (Or.inl ⟨_, hjournal, position, rfl⟩)
  | resolved _ position at_ hparked' => cases hparked ▸ hparked'
  | woken _ marked hwaits' => cases hwaits.symm.trans hwaits'
  | expired _ error at_ hwaits' => cases hwaits ▸ hwaits'
  | unparked _ hparked' => cases hparked ▸ hparked'
  | forgotten _ hprocessed' => cases hprocessed ▸ hprocessed'

namespace Dispatching

/-- A dispatcher that has `a`'s slot and not marked it has `a` still before it, or is on a row that came
no later. -/
structure Behind (o : PgInbox) (a : Row) (b : InboxMessage) (n : Nat) (log : List Event)
    (p : Dispatching) : Prop where
  heading : ∀ slot found, p = .heading slot found → slot = o.slotOf a.toInboxMessage →
    (∃ x, Numbered log a.Version x) ∨ (∀ row ∈ found, row.receivedPosition < n) ∨
      found.Pairwise (fun r r' => r.receivedPosition ≤ r'.receivedPosition) ∧ ∃ row ∈ found, a.Version row
  head : ∀ row, p.head = some row → row.Later b n → ∃ x, Numbered log a.Version x
  number : ∀ e ∈ p.journal, ∀ row y, e.number = some (row, y) → row.Later b n →
    ∃ x, Numbered log a.Version x ∧ x < y

namespace Behind

variable {q q' : Dispatching} {begunAt : Nat}

/-- Nothing is on its way. -/
theorem quiet (hheading : ∀ slot found, q ≠ .heading slot found) (hhead : q.head = none)
    (hjournal : q.journal = []) : q.Behind o a b n log where
  heading slot found h := absurd h (hheading slot found)
  head _ h := nomatch hhead.symm.trans h
  number _ he := nomatch hjournal ▸ he

/-- The head is as before, and nothing is marked. -/
theorem of_head (h : q.Behind o a b n log) (hheading : ∀ slot found, q' ≠ .heading slot found)
    (hhead : q'.head = q.head) (hjournal : ∀ e ∈ q'.journal, e.number.isSome → e ∈ q.journal) :
    q'.Behind o a b n log where
  heading slot found h := absurd h (hheading slot found)
  head row hrow := h.head row (hhead ▸ hrow)
  number e he row y hnumber := h.number e (hjournal e he (Option.isSome_of_eq_some hnumber)) row y hnumber

theorem append (h : q.Behind o a b n log) (journal : List Event) : q.Behind o a b n (log ++ journal) where
  heading slot found hfound hslot := (h.heading slot found hfound hslot).imp_left fun ⟨x, hx⟩ =>
    ⟨x, hx.append journal⟩
  head row hrow hlater := (h.head row hrow hlater).imp fun _ hx => hx.append journal
  number e he row y hnumber hlater := (h.number e he row y hnumber hlater).imp fun _ hx =>
    hx.imp_left fun hx => hx.append journal

end Behind

end Dispatching

/-- Marked, or in the queue. -/
def Stays (a : Row) (d : Database) : Prop := (∃ x, Numbered d.log a.Version x) ∨
  ∃ row, d.committed a.identity = some row ∧ a.Version row ∧ row.Queued

namespace Dispatching.Behind

variable {q q' : Dispatching} {begunAt : Nat}

/-- The queue read under the slot's lock has `a` in it. -/
theorem taken {slot : Nat} (hd : Consistent o d) (hok : Ok o d s (.dispatcher begunAt (.taken slot)))
    (hstays : Stays a d) : (Dispatching.heading slot (o.queue (d.rows s) slot)).Behind o a b n d.log where
  heading slot' found hfound hslot := by
    cases hfound
    refine hstays.imp_right fun ⟨row, hrow, hversion, hqueued⟩ =>
      Or.inr ⟨PgInbox.queue_sorted, row, ?_, hversion⟩
    refine PgInbox.mem_queue.mpr ⟨mem_rows.mpr ⟨a.identity, hd.known _ _ hrow, ?_⟩, ?_, hqueued⟩
    · rw [hok.seen (fun _ _ => id), hrow]
    · rw [hversion.1, hslot]
  head := by rintro _ ⟨⟩
  number := by rintro _ ⟨⟩

/-- A row found is not passed over while it stays in the queue. -/
theorem heading_cons {slot : Nat} {row : Row} {found : List Row} (hd : Consistent o d)
    (hok : Ok o d s (.dispatcher begunAt (.heading slot (row :: found)))) (hstays : Stays a d)
    (h : (Dispatching.heading slot (row :: found)).Behind o a b n d.log) (hlt : a.receivedPosition < n)
    (hslot : o.slotOf a.toInboxMessage = o.slotOf b)
    (hstep : o.dispatch d s begunAt (.heading slot (row :: found)) = some (d', q')) :
    q'.Behind o a b n d.log := by
  obtain ⟨⟨d₁, latest⟩, hclaim, hnext⟩ := Option.map_eq_some_iff.mp hstep
  have hseen : d.seen s row.identity = d.committed row.identity := hok.seen (fun _ _ => id) _
  -- What is skipped is not `a`, or `a` is marked.
  have hskip : (∀ r, slot = o.slotOf a.toInboxMessage → a.Version row → d.committed a.identity = some r →
      a.Version r → ¬r.Queued) → (Dispatching.heading slot found).Behind o a b n d.log := by
    intro hrow
    refine ⟨?_, by rintro _ ⟨⟩, by rintro _ ⟨⟩⟩
    intro slot' found' hfound hslot'
    cases hfound
    rcases h.heading slot (row :: found) rfl hslot' with hmarked | hearlier | ⟨hsorted, r, hmem, hversion⟩
    · exact Or.inl hmarked
    · exact Or.inr (Or.inl fun r hr => hearlier r (List.mem_cons_of_mem _ hr))
    · rcases hstays with hmarked | ⟨r', hr', hversion', hqueued⟩
      · exact Or.inl hmarked
      · rcases List.mem_cons.mp hmem with rfl | hmem
        · exact absurd hqueued (hrow r' hslot' hversion hr' hversion')
        · exact Or.inr (Or.inr ⟨hsorted.of_cons, r, hmem, hversion⟩)
  rcases claim_cases hclaim with ⟨rfl, rfl, hnone⟩ | ⟨latest, rfl, hlatest, hposition, _, rfl⟩
  · cases hnext
    refine hskip fun r _ hversion hr hr' => ?_
    rw [hseen, hversion.identity] at hnone
    exact absurd (hr'.2.trans hversion.2.symm) (hnone r hr)
  · rw [hseen] at hlatest
    simp only at hnext
    split at hnext
    case isFalse hnot =>
      cases hnext
      refine hskip fun r hslot' hversion hr hr' hqueued => hnot ?_
      rw [hversion.identity, hr, Option.some.injEq] at hlatest
      subst hlatest
      exact ⟨by rw [hr'.1, hslot'], hqueued⟩
    case isTrue hqueued =>
      split at hnext
      case isFalse =>
        cases hnext
        exact .quiet (by rintro _ _ ⟨⟩) rfl rfl
      case isTrue =>
        cases hnext
        refine ⟨by rintro _ _ ⟨⟩, ?_, by rintro _ ⟨⟩⟩
        · rintro _ ⟨⟩ ⟨hmessage, hlater⟩
          have hslot' : slot = o.slotOf a.toInboxMessage := by
            rw [← hqueued.1, hmessage, hslot]
          rcases h.heading slot _ rfl hslot' with hmarked | hearlier | ⟨hsorted, r, hmem, hversion⟩
          · exact hmarked
          · have hlt := hearlier row List.mem_cons_self
            omega
          · have hle : row.receivedPosition ≤ r.receivedPosition := by
              rcases List.mem_cons.mp hmem with rfl | hmem
              · exact le_rfl
              · exact List.rel_of_pairwise_cons hsorted hmem
            have hversion := hversion.2
            omega

theorem dispatch (h : q.Behind o a b n d.log) (hd : Consistent o d)
    (hok : Ok o d s (.dispatcher begunAt q)) (hstays : Stays a d) (hlt : a.receivedPosition < n)
    (hslot : o.slotOf a.toInboxMessage = o.slotOf b)
    (hnumbers : ∀ x, Numbered d.log a.Version x → x < d.next)
    (hstep : o.dispatch d s begunAt q = some (d', q')) : q'.Behind o a b n d.log := by
  cases q with
  | begun =>
    cases hstep
    exact .quiet (by rintro _ _ ⟨⟩) rfl rfl
  | taking due =>
    simp only [PgInbox.dispatch] at hstep
    split at hstep <;> cases hstep <;> exact .quiet (by rintro _ _ ⟨⟩) rfl rfl
  | taken slot =>
    cases hstep
    exact taken hd hok hstays
  | heading slot found =>
    cases found with
    | nil =>
      cases hstep
      exact .quiet (by rintro _ _ ⟨⟩) rfl rfl
    | cons row found => exact heading_cons hd hok hstays h hlt hslot hstep
  | checking slot row left =>
    cases left with
    | nil =>
      cases hstep
      exact h.of_head (by rintro _ _ ⟨⟩) rfl (by rintro _ ⟨⟩)
    | cons dependency left =>
      simp only [PgInbox.dispatch] at hstep
      split at hstep <;> cases hstep <;> exact h.of_head (by rintro _ _ ⟨⟩) rfl (by rintro _ ⟨⟩)
  | locking slot row dependency =>
    obtain ⟨_, _, hstep⟩ := Option.map_eq_some_iff.mp hstep
    cases hstep
    exact h.of_head (by rintro _ _ ⟨⟩) rfl (by rintro _ ⟨⟩)
  | locked slot row dependency =>
    simp only [PgInbox.dispatch] at hstep
    split at hstep
    · cases hstep
      exact .quiet (by rintro _ _ ⟨⟩) rfl rfl
    · cases hstep
      exact h.of_head (by rintro _ _ ⟨⟩) rfl (by rintro _ ⟨⟩)
  | identifying slot row =>
    obtain ⟨_, _, hstep⟩ := Option.map_eq_some_iff.mp hstep
    cases hstep
    exact h.of_head (by rintro _ _ ⟨⟩) rfl (fun _ he _ => he)
  | marking slot row =>
    cases hstep
    refine ⟨by rintro _ _ ⟨⟩, h.head, ?_⟩
    intro e he row' y hnumber hlater
    rcases List.mem_pair.mp he with rfl | rfl
    · cases hnumber
    · cases hnumber
      obtain ⟨x, hx⟩ := h.head row rfl hlater
      exact ⟨x, hx, hnumbers x hx⟩
  | waking slot row position at_ statement found =>
    cases found with
    | nil =>
      cases hstep
      exact h.of_head (by rintro _ _ ⟨⟩) rfl (fun _ he _ => he)
    | cons waiter found =>
      obtain ⟨_, _, hstep⟩ := Option.map_eq_some_iff.mp hstep
      cases hstep
      exact h.of_head (by rintro _ _ ⟨⟩) rfl (fun _ he _ => he)
  | failing slot row error permanent =>
    cases hstep
    exact h.of_head (by rintro _ _ ⟨⟩) rfl (by rintro _ ⟨⟩)
  | handling => cases hstep
  | done => cases hstep

end Dispatching.Behind

theorem PgInbox.step_behind (hd : Consistent o d) (hok : Ok o d s p) (hstays : Stays a d)
    (h : p.Dispatches (·.Behind o a b n d.log)) (hlt : a.receivedPosition < n)
    (hslot : o.slotOf a.toInboxMessage = o.slotOf b)
    (hnumbers : ∀ x, Numbered d.log a.Version x → x < d.next)
    (hstep : o.step d s p turn = some (d', next)) : next.Dispatches (·.Behind o a b n d.log) := by
  refine step_dispatches (.quiet (by rintro _ _ ⟨⟩) rfl rfl) (fun _ => id) ?_ ?_ ?_ h hstep
  · rintro begunAt q d' q' rfl h hdispatch
    exact h.dispatch hd hok hstays hlt hslot hnumbers hdispatch
  · intro slot row h
    have hjournal : ∀ e ∈ [Event.effects row], e.number.isSome → e ∈ ([] : List Event) := by
      simp [Event.number]
    exact ⟨h.of_head (by rintro _ _ ⟨⟩) rfl hjournal, h.of_head (by rintro _ _ ⟨⟩) rfl hjournal⟩
  · exact fun slot row error permanent h => h.of_head (by rintro _ _ ⟨⟩) rfl (by rintro _ ⟨⟩)

/-- Neither the row nor a later one of message `b` is parked. -/
def NeverParked (a : Row) (b : InboxMessage) (n : Nat) (w : World) : Prop :=
  ∀ identity row, w.shared.committed identity = some row → a.Version row ∨ row.Later b n →
    row.parkedAt = none

/-- What a run keeps from the state `a` was received in. -/
structure Arrival (o : PgInbox) (a : Row) (b : InboxMessage) (n : Nat) (w : World) : Prop where
  stays : Stays a w.shared
  unparked : NeverParked a b n w
  after : ∀ y, Numbered w.shared.log (Row.Later b n) y → ∃ x, Numbered w.shared.log a.Version x ∧ x < y
  behind : ∀ s, (w.procs s).Dispatches (·.Behind o a b n w.shared.log)

namespace Arrival

variable {i : Nat}

theorem stays_finish (h : Arrival o a b n w) (hnumbering : Numbering o w)
    (hok : Ok o w.shared i (w.procs i))
    (hfree : o.dependencies a.toInboxMessage = [])
    (hparked : NeverParked a b n ⟨w.shared.finish i true, w.procs⟩)
    (hlog : (w.shared.finish i true).log = w.shared.log ++ (w.procs i).journal) :
    Stays a (w.shared.finish i true) := by
  rcases h.stays with ⟨x, hx⟩ | ⟨row, hrow, hversion, hqueued⟩
  · exact Or.inl ⟨x, hlog ▸ hx.append _⟩
  · rcases hok.finish_change a.identity with hsame | hchange
    · exact Or.inr ⟨row, hsame.trans hrow, hversion, hqueued⟩
    · rw [hrow] at hchange
      rcases hchange.queued hqueued with ⟨row', hrow', hversion', hstays⟩ | ⟨e, he, x, hnumber⟩ |
        ⟨dependency, hhead, hawaits⟩
      · have hversion' := hversion.trans hversion'
        exact Or.inr ⟨row', hrow', hversion', hstays (hparked _ _ hrow' (Or.inl hversion'))⟩
      · exact Or.inl ⟨x, hlog ▸ ⟨e, List.mem_append_right _ he, row, hnumber, hversion⟩⟩
      · -- It would wait for a dependency, and has none.
        have hreads := hnumbering.reads i
        cases hp : w.procs i with
        | dispatcher begunAt q =>
          rw [hp] at hhead hawaits hreads
          cases q with
          | done slot outcome =>
            cases outcome with
            | setAside row' dependency' =>
              cases hhead
              have hmem := hreads.looksAt _ _ rfl dependency' List.mem_cons_self
              rw [hversion.1, hfree] at hmem
              cases hmem
            | _ => cases hawaits
          | _ => cases hawaits
        | _ => rw [hp] at hawaits; cases hawaits

theorem after_finish (h : Arrival o a b n w) (hok : Ok o w.shared i (w.procs i)) {y : Nat}
    (hnumbered : Numbered (w.shared.log ++ (w.procs i).journal) (Row.Later b n) y) :
    ∃ x, Numbered (w.shared.log ++ (w.procs i).journal) a.Version x ∧ x < y := by
  have happend : (∃ x, Numbered w.shared.log a.Version x ∧ x < y) →
      ∃ x, Numbered (w.shared.log ++ (w.procs i).journal) a.Version x ∧ x < y :=
    fun ⟨x, hx, hlt⟩ => ⟨x, hx.append _, hlt⟩
  rcases numbered_append.mp hnumbered with hold | ⟨e, he, row, hnumber, hlater⟩
  · exact happend (h.after y hold)
  · apply happend
    have hbehind := h.behind i
    obtain ⟨_, hcommitted, hfound⟩ := hok.number_head he hnumber
    have hstands := (hok.head row (Process.number_head he hnumber)).2.2.1
    rcases Process.journal_number he hnumber with ⟨begunAt, q, hp⟩ | ⟨identity, q, hp⟩
    · rw [hp] at hbehind he
      exact hbehind.number e he row y hnumber hlater
    · rw [hp] at hstands
      have hparked := hstands.1
      rw [h.unparked _ _ hcommitted (Or.inr hlater)] at hparked
      cases hparked

theorem act (h : Arrival o a b n w) (hinvariant : Invariant o w) (hnumbering : Numbering o w)
    (hlt : a.receivedPosition < n) (hfree : o.dependencies a.toInboxMessage = [])
    (hslot : o.slotOf a.toInboxMessage = o.slotOf b) (hact : o.program.act w i turn = some w')
    (hparked : NeverParked a b n w') : Arrival o a b n w' := by
  obtain ⟨d, next, hstep, rfl⟩ := (o.program.act_eq_some).mp hact
  have hstep : o.step w.shared i (w.procs i) turn = some (d, next) := hstep
  have hd := hinvariant.consistent
  have hok := hinvariant.ok i
  have hlog := hd.logs hok hstep
  have hbehind : ∀ s, (Function.update w.procs i next s).Dispatches (·.Behind o a b n d.log) := by
    intro s
    rw [hlog]
    by_cases hs : s = i
    · subst hs
      rw [Function.update_self]
      refine (PgInbox.step_behind hd hok h.stays (h.behind s) hlt hslot ?_ hstep).mono fun _ hq => hq.append _
      rintro x ⟨e, he, row, hnumber, _⟩
      exact hnumbering.logged e he row x hnumber
    · rw [Function.update_of_ne hs]
      exact (h.behind s).mono fun _ hq => hq.append _
  cases turn with
  | commit =>
    obtain ⟨_, rfl⟩ := PgInbox.step_commit hstep
    exact ⟨h.stays_finish hnumbering hok hfree hparked hlog, hparked, hlog ▸ fun y => h.after_finish hok, hbehind⟩
  | _ =>
    have hlog : d.log = w.shared.log := hlog.trans (List.append_nil _)
    refine ⟨?_, hparked, ?_, hbehind⟩
    · rcases hd.step_committed hok hstep with hsame | ⟨hcommit, _⟩
      · simpa only [Stays, hlog, hsame] using h.stays
      · cases hcommit
    · simpa only [hlog] using h.after

theorem start (hinvariant : Invariant o w) (hnumbering : Numbering o w)
    (hreceived : w.shared.committed a.identity = some a) (hqueued : a.Queued) :
    Arrival o a b w.shared.next w := by
  have hearlier : ∀ identity row, w.shared.committed identity = some row →
      ¬row.Later b w.shared.next := fun identity row hrow hlater =>
    absurd (hnumbering.stored identity row hrow) (Nat.not_lt.mpr hlater.2)
  refine ⟨Or.inr ⟨_, hreceived, .refl _, hqueued⟩, ?_, ?_, fun s => ?_⟩
  · rintro identity row hrow (hversion | hlater)
    · have hidentity := hinvariant.consistent.identity _ _ hrow
      rw [hversion.identity] at hidentity
      rw [← hidentity, hreceived, Option.some.injEq] at hrow
      exact hrow ▸ hqueued.2.1
    · exact absurd hlater (hearlier _ _ hrow)
  · rintro y ⟨e, he, row, hnumber, hlater⟩
    have hlt := (hnumbering.used row y ⟨e, he, row, hnumber, .refl row⟩).1
    exact absurd hlt (Nat.not_lt.mpr hlater.2)
  · have hok := hinvariant.ok s
    have hreads := hnumbering.reads s
    cases hp : w.procs s with
    | dispatcher begunAt q =>
      rw [hp] at hok hreads
      refine ⟨fun slot found hfound _ => Or.inr (Or.inl (hreads.found slot found hfound)), ?_, ?_⟩
      · exact fun row hrow hlater => absurd hlater (hearlier _ _ (hok.head row hrow).2.1)
      · exact fun e he row y hnumber hlater => absurd hlater (hearlier _ _ (hok.number_head he hnumber).2.1)
    | _ => trivial

end Arrival

/-- Of two rows of a slot, the second published after the first was received, neither ever parked and the
first free of dependencies: the second is handed on after the first is marked, and they are processed in
the order they arrived. -/
theorem arrival_order {now : Nat} {v : World} {a b : InboxMessage} {position : Nat}
    (hpublished : o.program.Run (fun _ _ _ => True) (beginning now) v)
    (hreceived : v.shared.committed (.on a) = some (.received a position))
    (hfree : o.dependencies a = []) (hslot : o.slotOf a = o.slotOf b)
    (hrun : o.program.Run (fun u i act => ∀ u', o.program.act u i act = some u' →
      NeverParked (.received a position) b v.shared.next u') v w) :
    (∀ s begunAt slot row, w.procs s = .dispatcher begunAt (.handling slot row) →
      row.Later b v.shared.next → ∃ x, Numbered w.shared.log (Row.received a position).Version x) ∧
    (∀ x y, Numbered w.shared.log (Row.received a position).Version x →
      Numbered w.shared.log (Row.Later b v.shared.next) y → x < y) ∧
    ∀ row x, w.shared.committed row.identity = some row → row.processedPosition = some x →
      Numbered w.shared.log row.Version x := by
  obtain ⟨hinvariant, hnumbering⟩ := reached hpublished
  have hlt : position < v.shared.next := hnumbering.stored _ _ hreceived
  have hstart : Arrival o (.received a position) b v.shared.next v :=
    .start hinvariant hnumbering hreceived ⟨rfl, rfl, rfl⟩
  have harrived := hrun.invariant (I := fun u => Invariant o u ∧ Numbering o u ∧
    Arrival o (.received a position) b v.shared.next u) ?_ ⟨hinvariant, hnumbering, hstart⟩
  · obtain ⟨_, hnumbering', harrival⟩ := harrived
    refine ⟨?_, ?_, ?_⟩
    · intro s begunAt slot row hp hlater
      have hbehind := harrival.behind s
      rw [hp] at hbehind
      exact hbehind.head row rfl hlater
    · intro x y hx hy
      obtain ⟨x', hx', hlt⟩ := harrival.after y hy
      exact hnumbering'.once _ _ _ hx hx' ▸ hlt
    · exact fun row x hrow hx => hnumbering'.numbered _ row x hrow hx
  · rintro u i act u' ⟨hinvariant, hnumbering, harrival⟩ hparked hact
    exact ⟨hinvariant.act hact, hnumbering.act hinvariant hact,
      harrival.act hinvariant hnumbering hlt hfree hslot hact (hparked u' hact)⟩

/-- A check that no row is parked by a step. -/
def parksNone (o : PgInbox) (w : World) (i : Nat) (turn : Act) : Bool :=
  (o.program.act w i turn).all fun w' =>
    w'.shared.identities.all fun identity => (w'.shared.committed identity).all (·.parkedAt.isNone)

theorem parksNone_run {v : World} (hinvariant : Invariant o v)
    (hrun : o.program.Run (fun u i turn => parksNone o u i turn) v w) :
    o.program.Run (fun u i turn => ∀ u', o.program.act u i turn = some u' → NeverParked a b n u') v w := by
  refine (hrun.and_invariant (fun _ _ _ _ h _ => h.act) hinvariant).1.mono ?_
  rintro u i turn ⟨hparks, hinvariant⟩ u' hact identity row hrow _
  have hknown := (hinvariant.act hact).consistent.known identity row hrow
  simp only [parksNone, hact, Option.all_some, List.all_eq_true] at hparks
  simpa [hrow] using hparks identity hknown

def arrived : World := worldAfter oneSlot (beginning 0) (publish 0 (order 1 none)) (by decide +kernel)

/-- Another message received after it, and handed on after it. -/
def inTurn : World := worldIf oneSlot (parksNone oneSlot) arrived
  (publish 0 (order 2 none) ++ handOn 1 0 ++ (1, .commit) :: look 2 5) (by decide +kernel)

theorem arrival_order_in_turn :
    (∀ s begunAt slot row, inTurn.procs s = .dispatcher begunAt (.handling slot row) →
      row.Later (order 2 none) 2 → ∃ x, Numbered inTurn.shared.log (Row.received (order 1 none) 1).Version x) ∧
    (∀ x y, Numbered inTurn.shared.log (Row.received (order 1 none) 1).Version x →
      Numbered inTurn.shared.log (Row.Later (order 2 none) 2) y → x < y) ∧
    ∀ row x, inTurn.shared.committed row.identity = some row → row.processedPosition = some x →
      Numbered inTurn.shared.log row.Version x := by
  have harrived : oneSlot.program.Run (fun _ _ _ => True) (beginning 0) arrived :=
    worldAfter_run fun _ _ _ => trivial
  exact arrival_order harrived (by decide +kernel) (by decide +kernel) rfl
    (parksNone_run (reached harrived).1 (worldIf_run fun _ _ _ hcheck => hcheck))

end AsceticDdd.Inbox
