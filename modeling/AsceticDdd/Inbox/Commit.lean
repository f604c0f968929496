import AsceticDdd.Inbox.Operator

/-!
# What a commit changes

The versions a transaction has made are few: a commit stores a row, sets it aside, records an attempt,
marks it, wakes it, parks it, puts it back or forgets it.
-/

namespace AsceticDdd.Inbox

open Database

variable {o : PgInbox} {d d' : Database} {s t : Nat} {p : Process} {identity : CausalDependency}

inductive Change (p : Process) : Option Row → Option Row → Prop
  | stored (message : InboxMessage) (position : Nat) (hdraws : p.draws = some position) :
      Change p none (some (.received message position))
  | setAside (row : Row) (dependency : CausalDependency) (at_ : Nat) (hqueued : row.Queued)
      (hhead : p.head = some row) (hawaits : p.awaits = some dependency) :
      Change p (some row) (some (row.waiting dependency at_))
  | failed (row : Row) (error : String) (next : Nat) (parkedAt : Option Nat) (hqueued : row.Queued)
      (hhead : p.head = some row) : Change p (some row) (some (row.failed error next parkedAt))
  | marked (row : Row) (position at_ : Nat) (hqueued : row.Queued)
      (hmarks : ∃ found, p.marks = some (row.identity, found))
      (hjournal : .marked row position ∈ p.journal) : Change p (some row) (some (row.marked position at_))
  | resolved (row : Row) (position at_ : Nat) (hparked : row.parkedAt.isSome)
      (hmarks : ∃ found, p.marks = some (row.identity, found))
      (hjournal : .resolved row position ∈ p.journal) :
      Change p (some row) (some (row.resolved position at_))
  | woken (row : Row) (marked : CausalDependency) (hwaits : row.waitingFor = some marked)
      (hmarks : ∃ found, p.marks = some (marked, found)) : Change p (some row) (some row.woken)
  | expired (row : Row) (error : String) (at_ : Nat) (hwaits : row.waitingFor.isSome) :
      Change p (some row) (some (row.expired error at_))
  | unparked (row : Row) (hparked : row.parkedAt.isSome) : Change p (some row) (some row.unparked)
  | forgotten (row : Row) (hprocessed : row.processedPosition.isSome)
      (hjournal : .forgotten row ∈ p.journal) : Change p (some row) none

theorem Ok.change (hok : Ok o d s p) {version : Option Row}
    (hlock : (d.cells identity).lock = some s) (hpending : (d.cells identity).pending = some version) :
    Change p (d.committed identity) version := by
  have hwrites := hok.writes identity version hlock hpending
  cases p with
  | idle => exact hwrites.elim
  | publisher p =>
    cases p with
    | done receipt =>
      cases receipt with
      | stored position =>
        obtain ⟨hnone, message, rfl⟩ := hwrites
        rw [hnone]
        exact .stored message position rfl
      | repeated => exact hwrites.elim
    | _ => exact hwrites.elim
  | expirer begunAt maxWait found =>
    obtain ⟨row, error, at_, hrow, hwaits, rfl⟩ := hwrites
    rw [hrow]
    exact .expired row error at_ hwaits
  | dispatcher begunAt p =>
    cases p with
    | waking slot row position at_ statement found =>
      rcases hwrites with ⟨hrow, at_, rfl⟩ | ⟨row, hrow, hwaits, rfl⟩
      · rw [hrow]
        exact .marked row position at_ (hok.stands rfl).2.2.1 ⟨found, rfl⟩ (by simp [Process.journal,
          Dispatching.journal])
      · rw [hrow]
        exact .woken row _ hwaits ⟨found, rfl⟩
    | done slot outcome =>
      cases outcome with
      | nothing => exact hwrites.elim
      | setAside row dependency =>
        obtain ⟨hrow, at_, rfl⟩ := hwrites
        rw [hrow]
        exact .setAside row dependency at_ (hok.stands rfl).2.2.1 rfl rfl
      | processed row position =>
        rcases hwrites with ⟨hrow, at_, rfl⟩ | ⟨row, hrow, hwaits, rfl⟩
        · rw [hrow]
          exact .marked row position at_ (hok.stands rfl).2.2.1 ⟨[], rfl⟩ (by simp [Process.journal,
            Dispatching.journal])
        · rw [hrow]
          exact .woken row _ hwaits ⟨[], rfl⟩
      | failed row attempts parked =>
        obtain ⟨hrow, error, next, parkedAt, rfl⟩ := hwrites
        rw [hrow]
        exact .failed row error next parkedAt (hok.stands rfl).2.2.1 rfl
    | _ => exact hwrites.elim
  | resolver identity' p =>
    cases p with
    | waking row position at_ statement found =>
      have hstands := (hok.head row rfl).2.2.1
      rcases hwrites with ⟨hrow, at_, rfl⟩ | ⟨row, hrow, hwaits, rfl⟩
      · rw [hrow]
        exact .resolved row position at_ hstands.1 ⟨found, hstands.2 ▸ rfl⟩ List.mem_cons_self
      · rw [hrow]
        exact .woken row _ hwaits ⟨found, rfl⟩
    | done resolved =>
      cases resolved with
      | none => exact hwrites.elim
      | some resolved =>
        obtain ⟨row, position⟩ := resolved
        have hstands := (hok.head row rfl).2.2.1
        rcases hwrites with ⟨hrow, at_, rfl⟩ | ⟨row, hrow, hwaits, rfl⟩
        · rw [hrow]
          exact .resolved row position at_ hstands.1 ⟨[], hstands.2 ▸ rfl⟩ List.mem_cons_self
        · rw [hrow]
          exact .woken row _ hwaits ⟨[], rfl⟩
    | _ => exact hwrites.elim
  | unparker identity' p =>
    cases p with
    | done unparked =>
      cases unparked with
      | false => exact hwrites.elim
      | true =>
        obtain ⟨row, hrow, hparked, rfl⟩ := hwrites
        rw [hrow]
        exact .unparked row hparked
    | _ => exact hwrites.elim
  | sweeper channel window sweptTo p =>
    cases p with
    | deleting locked gone =>
      obtain ⟨row, hmem, hrow, rfl⟩ := hwrites
      rw [hrow]
      exact .forgotten row (hok.sweeps row (List.mem_append_right _ hmem)).2.2 (List.mem_map_of_mem hmem)
    | done gone =>
      obtain ⟨row, hmem, hrow, rfl⟩ := hwrites
      rw [hrow]
      exact .forgotten row (hok.sweeps row hmem).2.2 (List.mem_map_of_mem hmem)
    | _ => exact hwrites.elim

/-- A row that waits in a version of a transaction's making was set aside by it, or waited before. -/
theorem Change.waits {before : Option Row} {row : Row} {dependency : CausalDependency}
    (h : Change p before (some row)) (hstands : ∀ r, before = some r → r.Stands)
    (hwaits : row.waitingFor = some dependency) : p.awaits = some dependency ∧ row.processedPosition = none := by
  cases h with
  | stored => cases hwaits
  | setAside before dependency' at_ hqueued hhead hawaits =>
    cases hwaits
    exact ⟨hawaits, hqueued.1⟩
  | failed before error next parkedAt hqueued => exact nomatch hqueued.2.2.symm.trans hwaits
  | marked before position at_ hqueued => exact nomatch hqueued.2.2.symm.trans hwaits
  | resolved before position at_ hparked =>
    exact nomatch ((hstands _ rfl).parked hparked).symm.trans hwaits
  | woken => cases hwaits
  | expired => cases hwaits
  | unparked before hparked => exact nomatch ((hstands _ rfl).parked hparked).symm.trans hwaits

theorem Row.Stands.unprocessed {row : Row} (h : row.Stands)
    (hrow : row.parkedAt.isSome ∨ row.waitingFor.isSome) : row.processedPosition = none := by
  by_contra hprocessed
  obtain ⟨hparked, hwaits⟩ := h.processed (Option.isSome_iff_ne_none.mpr hprocessed)
  rw [hparked, hwaits] at hrow
  rcases hrow with hrow | hrow <;> cases hrow

/-- A row processed in a version of a transaction's making is marked in its journal. -/
theorem Change.processed {before : Option Row} {row : Row} (h : Change p before (some row))
    (hstands : ∀ r, before = some r → r.Stands) (hprocessed : row.processedPosition.isSome) :
    (∃ found, p.marks = some (row.identity, found)) ∧ Marked p.journal row.identity := by
  cases h with
  | stored => cases hprocessed
  | setAside before dependency at_ hqueued => exact nomatch hqueued.1 ▸ hprocessed
  | failed before error next parkedAt hqueued => exact nomatch hqueued.1 ▸ hprocessed
  | marked before position at_ hqueued hmarks hjournal =>
    exact ⟨hmarks, before, position, rfl, Or.inl hjournal⟩
  | resolved before position at_ hparked hmarks hjournal =>
    exact ⟨hmarks, before, position, rfl, Or.inr hjournal⟩
  | woken before marked hwaits =>
    exact nomatch ((hstands _ rfl).unprocessed (Or.inr (Option.isSome_of_eq_some hwaits))) ▸ hprocessed
  | expired before error at_ hwaits =>
    exact nomatch ((hstands _ rfl).unprocessed (Or.inr hwaits)) ▸ hprocessed
  | unparked before hparked =>
    exact nomatch ((hstands _ rfl).unprocessed (Or.inl hparked)) ▸ hprocessed

theorem Change.stands {before : Option Row} {row : Row} (h : Change p before (some row))
    (hstands : ∀ r, before = some r → r.Stands) : row.Stands := by
  cases h with
  | stored => exact ⟨by rintro ⟨⟩, by rintro ⟨⟩, .rfl⟩
  | setAside before dependency at_ hqueued =>
    obtain ⟨hprocessed, hparked, _⟩ := hqueued
    exact ⟨fun h => (nomatch hprocessed ▸ h), fun h => (nomatch hparked ▸ h), (hstands _ rfl).stamped⟩
  | failed before error next parkedAt hqueued =>
    obtain ⟨hprocessed, _, hwaits⟩ := hqueued
    exact ⟨fun h => (nomatch hprocessed ▸ h), fun _ => hwaits, (hstands _ rfl).stamped⟩
  | marked before position at_ hqueued =>
    obtain ⟨_, hparked, hwaits⟩ := hqueued
    exact ⟨fun _ => ⟨hparked, hwaits⟩, fun _ => hwaits, by simp [Row.marked]⟩
  | resolved before position at_ hparked =>
    have hwaits := (hstands _ rfl).parked hparked
    exact ⟨fun _ => ⟨rfl, hwaits⟩, fun _ => hwaits, by simp [Row.resolved]⟩
  | woken before marked hwaits =>
    have hold := hstands _ rfl
    exact ⟨fun h => ⟨(hold.processed h).1, rfl⟩, fun _ => rfl, hold.stamped⟩
  | expired before error at_ hwaits =>
    have hold := hstands _ rfl
    have hprocessed := hold.unprocessed (Or.inr hwaits)
    exact ⟨fun h => (nomatch hprocessed ▸ h), fun _ => rfl, hold.stamped⟩
  | unparked before hparked =>
    have hold := hstands _ rfl
    have hprocessed := hold.unprocessed (Or.inl hparked)
    exact ⟨fun h => (nomatch hprocessed ▸ h), by rintro ⟨⟩, hold.stamped⟩

/-- Only what a sweep has forgotten is not processed any more. -/
theorem Change.forgets {row : Row} {version : Option Row} (h : Change p (some row) version)
    (hstands : row.Stands) (hprocessed : row.processedPosition.isSome) :
    version = none ∧ .forgotten row ∈ p.journal := by
  cases h with
  | setAside _ dependency at_ hqueued => exact nomatch hqueued.1 ▸ hprocessed
  | failed _ error next parkedAt hqueued => exact nomatch hqueued.1 ▸ hprocessed
  | marked _ position at_ hqueued => exact nomatch hqueued.1 ▸ hprocessed
  | resolved _ position at_ hparked =>
    exact nomatch hstands.unprocessed (Or.inl hparked) ▸ hprocessed
  | woken _ marked hwaits =>
    exact nomatch hstands.unprocessed (Or.inr (Option.isSome_of_eq_some hwaits)) ▸ hprocessed
  | expired _ error at_ hwaits => exact nomatch hstands.unprocessed (Or.inr hwaits) ▸ hprocessed
  | unparked _ hparked => exact nomatch hstands.unprocessed (Or.inl hparked) ▸ hprocessed
  | forgotten _ _ hjournal => exact ⟨rfl, hjournal⟩

theorem Process.awaits_marks {dependency : CausalDependency} (h : p.awaits = some dependency) :
    p.marks = none := by
  cases p with
  | dispatcher begunAt p =>
    cases p with
    | done slot outcome => cases outcome <;> first | rfl | cases h
    | _ => cases h
  | _ => cases h

theorem Process.marks_found {next : Process} {marked : CausalDependency} {found : List Row}
    (h : p.committed d = some next) (hmarks : p.marks = some (marked, found)) : found = [] := by
  cases p with
  | dispatcher begunAt p =>
    cases p with
    | done slot outcome => cases outcome <;> cases hmarks; rfl
    | _ => cases h
  | resolver identity p =>
    cases p with
    | done resolved => cases resolved <;> cases hmarks; rfl
    | _ => cases h
  | _ => cases hmarks

/-- The subscriber's writes are those of a transaction that marks the row. -/
theorem Process.journal_cases {next : Process} (h : p.committed d = some next) :
    (∀ e ∈ p.journal, ∀ row, e ≠ .effects row) ∨ ∃ begunAt slot row position,
      p = .dispatcher begunAt (.done slot (.processed row position)) ∧
        p.journal = [.effects row, .marked row position] := by
  cases p with
  | dispatcher begunAt p =>
    cases p with
    | done slot outcome =>
      cases outcome with
      | processed row position => exact Or.inr ⟨begunAt, slot, row, position, rfl, rfl⟩
      | _ => exact Or.inl (by rintro _ ⟨⟩)
    | _ => cases h
  | resolver identity p =>
    cases p with
    | done resolved =>
      left
      cases resolved with
      | none => rintro _ ⟨⟩
      | some resolved =>
        intro e he row heq
        cases (List.mem_singleton.mp he).symm.trans heq
    | _ => cases h
  | sweeper channel window sweptTo p =>
    cases p with
    | done gone =>
      left
      intro e he row heq
      obtain ⟨r, _, rfl⟩ := List.mem_map.mp he
      cases heq
    | _ => cases h
  | _ => exact Or.inl (by rintro _ ⟨⟩)

theorem Database.finish_cases {row : Row} (h : (d.finish s true).committed identity = some row) :
    ((d.cells identity).lock = some s ∧ (d.cells identity).pending = some (some row)) ∨
    (d.committed identity = some row ∧
      ∀ version, (d.cells identity).lock = some s → (d.cells identity).pending ≠ some version) := by
  rw [committed_finish] at h
  split at h
  · rename_i hlock
    cases hpending : (d.cells identity).pending with
    | none =>
      rw [hpending] at h
      exact Or.inr ⟨h, fun version _ => by rintro ⟨⟩⟩
    | some version =>
      rw [hpending] at h
      cases h
      exact Or.inl ⟨hlock.1, rfl⟩
  · rename_i hnot
    exact Or.inr ⟨h, fun version hlock => absurd ⟨hlock, rfl⟩ hnot⟩

theorem Marked.mono {log log' : List Event} (h : Marked log identity) (hsub : ∀ e ∈ log, e ∈ log') :
    Marked log' identity := by
  obtain ⟨row, position, hrow, hmem⟩ := h
  exact ⟨row, position, hrow, hmem.imp (hsub _) (hsub _)⟩

theorem Ok.finish_waits {next : Process} (hd : Consistent o d) (hok : Ok o d s p)
    (hcommits : p.committed d = some next) {row holder : Row} {dependency : CausalDependency}
    (hrow : (d.finish s true).committed identity = some row) (hwaits : row.waitingFor = some dependency)
    (hholder : (d.finish s true).committed dependency = some holder) :
    holder.processedPosition = none := by
  by_contra hprocessed
  have hprocessed : holder.processedPosition.isSome := Option.isSome_iff_ne_none.mpr hprocessed
  have hmarks : (∃ version, (d.cells dependency).lock = some s ∧
      (d.cells dependency).pending = some version) → ∃ found, p.marks = some (dependency, found) := by
    rintro ⟨version, hlock, hpending⟩
    rcases finish_cases hholder with ⟨_, hpending⟩ | ⟨_, hnot⟩
    · have hidentity := (hd.versions _ _ hpending).1
      exact hidentity ▸ ((hok.change hlock hpending).processed (hd.stands dependency) hprocessed).1
    · exact absurd hpending (hnot version hlock)
  rcases finish_cases hrow with ⟨hlock, hpending⟩ | ⟨hrow, hunchanged⟩
  · obtain ⟨hawaits, _⟩ := (hok.change hlock hpending).waits (hd.stands identity) hwaits
    rcases finish_cases hholder with ⟨hlock, hpending⟩ | ⟨hholder, _⟩
    · obtain ⟨found, hfound⟩ := hmarks ⟨_, hlock, hpending⟩
      exact nomatch (Process.awaits_marks hawaits).symm.trans hfound
    · rw [hok.unmarked dependency hawaits holder hholder] at hprocessed
      cases hprocessed
  · rcases finish_cases hholder with ⟨hlock, hpending⟩ | ⟨hholder, _⟩
    · obtain ⟨found, hfound⟩ := hmarks ⟨_, hlock, hpending⟩
      cases Process.marks_found hcommits hfound
      rcases hok.covered _ _ hfound identity row hrow hwaits with hmem | ⟨hlock, hpending⟩
      · cases hmem
      · exact hunchanged _ hlock hpending
    · rw [hd.waits identity row dependency holder hrow hwaits hholder] at hprocessed
      cases hprocessed

/-- A message's effects are committed by who has found its dependencies marked. -/
theorem Ok.effects {next : Process} (hok : Ok o d s p) (hcommits : p.committed d = some next)
    {row : Row} (hmem : .effects row ∈ p.journal) {dependency : CausalDependency}
    (hdependency : dependency ∈ o.dependencies row.toInboxMessage) : Marked d.log dependency := by
  rcases Process.journal_cases hcommits with hnone | ⟨begunAt, slot, row', position, rfl, heq⟩
  · exact absurd rfl (hnone _ hmem row)
  · have hrow : row = row' := by
      rw [heq] at hmem
      simpa using hmem
    cases hrow
    exact (hok.checked row [] rfl dependency hdependency).elim (by rintro ⟨⟩) id

theorem Ok.finish_causal {next : Process} (hd : Consistent o d) (hok : Ok o d s p)
    (hcommits : p.committed d = some next) {before after : List Event} {row : Row}
    (hlog : d.log ++ p.journal = before ++ .effects row :: after) {dependency : CausalDependency}
    (hdependency : dependency ∈ o.dependencies row.toInboxMessage) : Marked before dependency := by
  rcases List.append_eq_append_iff.mp hlog with ⟨rest, hbefore, hjournal⟩ | ⟨rest, hprefix, hjournal⟩
  · have hmem : .effects row ∈ p.journal := by
      rw [hjournal]
      exact List.mem_append_right _ List.mem_cons_self
    refine (hok.effects hcommits hmem hdependency).mono fun e he => ?_
    rw [hbefore]
    exact List.mem_append_left _ he
  · cases rest with
    | nil =>
      have hmem : .effects row ∈ p.journal := by
        rw [← List.nil_append p.journal, ← hjournal]
        exact List.mem_cons_self
      rw [List.append_nil] at hprefix
      exact hprefix ▸ hok.effects hcommits hmem hdependency
    | cons e rest =>
      cases hjournal
      exact hd.causal before row rest hprefix dependency hdependency

/-- A processed row stays so, unless it is forgotten with it. -/
theorem Ok.finish_processed (hd : Consistent o d) (hok : Ok o d s p) {row : Row}
    (hrow : d.committed identity = some row) (hprocessed : row.processedPosition.isSome) :
    (d.finish s true).committed identity = some row ∨ .forgotten row ∈ p.journal := by
  by_cases hchanged : (d.cells identity).lock = some s ∧ (d.cells identity).pending ≠ none
  · obtain ⟨hlock, hpending⟩ := hchanged
    obtain ⟨version, hversion⟩ := Option.ne_none_iff_exists'.mp hpending
    have hchange := hok.change hlock hversion
    rw [hrow] at hchange
    exact Or.inr (hchange.forgets (hd.stands _ _ hrow) hprocessed).2
  · left
    rw [committed_finish]
    split
    case isTrue hlock =>
      rw [not_ne_iff.mp fun hpending => hchanged ⟨hlock.1, hpending⟩]
      exact hrow
    case isFalse => exact hrow

/-- A transaction without effects of an identity adds none, and one that takes the mark away has
forgotten it. -/
theorem Ok.finish_once_none (hd : Consistent o d) (hok : Ok o d s p)
    (hnone : ∀ e ∈ p.journal, e.isEffects identity = false) :
    effectsSince identity 0 (d.log ++ p.journal) ≤
      if ((d.finish s true).committed identity).any (·.processedPosition.isSome) then 1 else 0 := by
  have hle := effectsSince_le hnone (effectsSince identity 0 d.log)
  have hold := hd.once identity
  rw [effectsSince_append]
  by_cases hprocessed : (d.committed identity).any (·.processedPosition.isSome)
  · rw [if_pos hprocessed] at hold
    obtain ⟨row, hrow, hprocessed⟩ := (Option.any_eq_true _ _).mp hprocessed
    rcases hok.finish_processed hd hrow hprocessed with hsame | hforgotten
    · have hafter : ((d.finish s true).committed identity).any (·.processedPosition.isSome) := by
        rw [hsame]
        exact hprocessed
      rw [if_pos hafter]
      omega
    · have hgone := effectsSince_forgotten hnone hforgotten (decide_eq_true (hd.identity _ _ hrow))
      rw [hgone]
      exact Nat.zero_le _
  · rw [if_neg hprocessed] at hold
    omega

/-- Effects of an identity are committed with its mark, and again only after it was forgotten. -/
theorem Ok.finish_once {next : Process} (hd : Consistent o d) (hok : Ok o d s p)
    (hcommits : p.committed d = some next) (identity : CausalDependency) :
    effectsSince identity 0 (d.log ++ p.journal) ≤
      if ((d.finish s true).committed identity).any (·.processedPosition.isSome) then 1 else 0 := by
  rcases Process.journal_cases hcommits with hnot | ⟨begunAt, slot, row, position, rfl, heq⟩
  · apply hok.finish_once_none hd
    intro e he
    cases e with
    | effects row => exact absurd rfl (hnot _ he row)
    | _ => rfl
  · by_cases hidentity : row.identity = identity
    · obtain ⟨hlock, hcommitted, hqueued, _⟩ := hok.stands rfl
      obtain ⟨at_, hwrote⟩ := (hok.head row rfl).2.2.2
      have hbefore : ¬ ((d.committed identity).any (·.processedPosition.isSome)) := by
        rw [← hidentity, hcommitted, Option.any_some, hqueued.1]
        exact Bool.false_ne_true
      have hafter : ((d.finish s true).committed identity).any (·.processedPosition.isSome) := by
        rw [← hidentity, committed_finish, if_pos ⟨hlock, rfl⟩, hwrote]
        rfl
      have hold := hd.once identity
      rw [if_neg hbefore] at hold
      rw [if_pos hafter, effectsSince_append, Nat.le_zero.mp hold, heq]
      simp [effectsSince, Event.isEffects, Event.isForgotten, hidentity]
    · apply hok.finish_once_none hd
      rw [heq]
      simp [Event.isEffects, hidentity]

theorem Consistent.finish_true {next : Process} (hd : Consistent o d) (hok : Ok o d s p)
    (hcommits : p.committed d = some next) : Consistent o (d.finish s true) := by
  have hlog : (d.finish s true).log = d.log ++ p.journal := by
    rw [← hok.journal]
    rfl
  have hmono : ∀ e ∈ d.log, e ∈ (d.finish s true).log := fun e he =>
    hlog ▸ List.mem_append_left _ he
  constructor
  case unlocked =>
    intro identity hlock
    simp only [Database.finish, Cell.finish] at hlock ⊢
    split
    · rfl
    · rename_i hnot
      rw [if_neg hnot] at hlock
      exact hd.unlocked identity hlock
  case identity =>
    intro identity row hrow
    rcases finish_cases hrow with ⟨_, hpending⟩ | ⟨hrow, _⟩
    · exact (hd.versions _ _ hpending).1
    · exact hd.identity _ _ hrow
  case known =>
    intro identity row hrow
    rcases finish_cases hrow with ⟨_, hpending⟩ | ⟨hrow, _⟩
    · exact (hd.versions _ _ hpending).2
    · exact hd.known _ _ hrow
  case versions =>
    intro identity row hpending
    simp only [Database.finish, Cell.finish] at hpending
    split at hpending
    · cases hpending
    · exact hd.versions _ _ hpending
  case stands =>
    intro identity row hrow
    rcases finish_cases hrow with ⟨hlock, hpending⟩ | ⟨hrow, _⟩
    · exact (hok.change hlock hpending).stands (hd.stands identity)
    · exact hd.stands _ _ hrow
  case waits =>
    intro identity row dependency holder hrow hwaits hholder
    exact hok.finish_waits hd hcommits hrow hwaits hholder
  case marked =>
    intro identity row hrow hprocessed
    rcases finish_cases hrow with ⟨hlock, hpending⟩ | ⟨hrow, _⟩
    · have hmarked := ((hok.change hlock hpending).processed (hd.stands identity) hprocessed).2
      rw [(hd.versions _ _ hpending).1] at hmarked
      exact hmarked.mono fun e he => hlog ▸ List.mem_append_right _ he
    · exact (hd.marked _ _ hrow hprocessed).mono hmono
  case causal =>
    intro before row after heq dependency hdependency
    exact hok.finish_causal hd hcommits (hlog ▸ heq) hdependency
  case once =>
    intro identity
    rw [hlog]
    exact hok.finish_once hd hcommits identity

/-- A transaction rolled back leaves the tables as they were committed. -/
theorem Consistent.finish_false (hd : Consistent o d) : Consistent o (d.finish s false) := by
  have hcommitted : ∀ identity, (d.finish s false).committed identity = d.committed identity := by
    intro identity
    rw [committed_finish, if_neg (by simp)]
  constructor
  case unlocked =>
    intro identity hlock
    simp only [Database.finish, Cell.finish] at hlock ⊢
    split
    · rfl
    · rename_i hnot
      rw [if_neg hnot] at hlock
      exact hd.unlocked identity hlock
  case identity => exact fun identity row hrow => hd.identity identity row (hcommitted _ ▸ hrow)
  case known => exact fun identity row hrow => hd.known identity row (hcommitted _ ▸ hrow)
  case versions =>
    intro identity row hpending
    simp only [Database.finish, Cell.finish] at hpending
    split at hpending
    · cases hpending
    · exact hd.versions _ _ hpending
  case stands => exact fun identity row hrow => hd.stands identity row (hcommitted _ ▸ hrow)
  case waits =>
    intro identity row dependency holder hrow hwaits hholder
    rw [hcommitted] at hrow hholder
    exact hd.waits identity row dependency holder hrow hwaits hholder
  case marked => exact fun identity row hrow => hd.marked identity row (hcommitted _ ▸ hrow)
  case causal => exact hd.causal
  case once =>
    intro identity
    rw [hcommitted]
    exact hd.once identity

end AsceticDdd.Inbox
