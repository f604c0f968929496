import AsceticDdd.Inbox.Handling

/-!
# The numbers rows arrive and are processed under

Both are drawn from one sequence, and drawn again by nobody.
-/

namespace AsceticDdd.Inbox

open Database Interleaving

variable {o : PgInbox} {d d' : Database} {s : Nat} {p next : Process} {w w' : World} {a : Act}
  {position : Nat} {row : Row} {e : Event}

/-- The row an event marks, and the order of processing it gives it. -/
def Event.number : Event → Option (Row × Nat)
  | .marked row position | .resolved row position => some (row, position)
  | _ => none

/-- Two versions of one row. -/
def Row.Version (row other : Row) : Prop :=
  other.toInboxMessage = row.toInboxMessage ∧ other.receivedPosition = row.receivedPosition

theorem Row.Version.refl (row : Row) : row.Version row := ⟨rfl, rfl⟩

theorem Row.Version.symm {a b : Row} (h : a.Version b) : b.Version a := ⟨h.1.symm, h.2.symm⟩

theorem Row.Version.trans {a b c : Row} (h : a.Version b) (h' : b.Version c) : a.Version c :=
  ⟨h'.1.trans h.1, h'.2.trans h.2⟩

theorem Row.Version.identity {row other : Row} (h : row.Version other) : other.identity = row.identity :=
  congrArg CausalDependency.on h.1

/-- A row of those `P` describes was given `position` as its order of processing. -/
def Numbered (log : List Event) (P : Row → Prop) (position : Nat) : Prop :=
  ∃ e ∈ log, ∃ row, e.number = some (row, position) ∧ P row

theorem Numbered.mono {log : List Event} {P Q : Row → Prop} (h : Numbered log P position)
    (hPQ : ∀ row, P row → Q row) : Numbered log Q position := by
  obtain ⟨e, he, row, hnumber, hrow⟩ := h
  exact ⟨e, he, row, hnumber, hPQ row hrow⟩

theorem Numbered.append {log : List Event} {P : Row → Prop} (h : Numbered log P position)
    (journal : List Event) : Numbered (log ++ journal) P position := by
  obtain ⟨e, he, hnumber⟩ := h
  exact ⟨e, List.mem_append_left _ he, hnumber⟩

theorem numbered_append {log journal : List Event} {P : Row → Prop} :
    Numbered (log ++ journal) P position ↔ Numbered log P position ∨ Numbered journal P position := by
  simp only [Numbered, List.mem_append, or_and_right, exists_or]

/-- A version of a row stored by a transaction is a version of the one before, under the same number or
one of the transaction's journal; or it is the row's first. -/
theorem Change.version {before : Option Row} (h : Change p before (some row)) :
    (before = none ∧ p.draws = some row.receivedPosition ∧ row.processedPosition = none) ∨
    ∃ old, before = some old ∧ old.Version row ∧
      (row.processedPosition = old.processedPosition ∨
        ∃ position, row.processedPosition = some position ∧ ∃ e ∈ p.journal, e.number = some (old, position)) := by
  cases h with
  | stored message position hdraws => exact Or.inl ⟨rfl, hdraws, rfl⟩
  | marked old position at_ hqueued hmarks hjournal =>
    exact Or.inr ⟨old, rfl, ⟨rfl, rfl⟩, Or.inr ⟨position, rfl, _, hjournal, rfl⟩⟩
  | resolved old position at_ hparked hmarks hjournal =>
    exact Or.inr ⟨old, rfl, ⟨rfl, rfl⟩, Or.inr ⟨position, rfl, _, hjournal, rfl⟩⟩
  | setAside old => exact Or.inr ⟨old, rfl, ⟨rfl, rfl⟩, Or.inl rfl⟩
  | failed old => exact Or.inr ⟨old, rfl, ⟨rfl, rfl⟩, Or.inl rfl⟩
  | woken old => exact Or.inr ⟨old, rfl, ⟨rfl, rfl⟩, Or.inl rfl⟩
  | expired old => exact Or.inr ⟨old, rfl, ⟨rfl, rfl⟩, Or.inl rfl⟩
  | unparked old => exact Or.inr ⟨old, rfl, ⟨rfl, rfl⟩, Or.inl rfl⟩

/-- What a commit or a start leaves has drawn nothing. -/
theorem Process.committed_draws (h : p.committed d = some next) : next.draws = none ∧ next.journal = [] := by
  unfold Process.committed at h
  split at h <;> cases h <;> exact ⟨rfl, rfl⟩

theorem PgInbox.start_draws (h : o.start d s a = some next) : next.draws = none ∧ next.journal = [] := by
  cases a with
  | dispatch =>
    simp only [PgInbox.start] at h
    split at h <;> cases h <;> exact ⟨rfl, rfl⟩
  | sweep =>
    obtain ⟨window, _, h⟩ := Option.map_eq_some_iff.mp h
    cases h
    exact ⟨rfl, rfl⟩
  | publish => cases h; exact ⟨rfl, rfl⟩
  | resolve => cases h; exact ⟨rfl, rfl⟩
  | unpark => cases h; exact ⟨rfl, rfl⟩
  | _ => cases h

theorem PgInbox.publish_draws {q q' : Publishing} (h : o.publish d s q = some (d', q')) :
    (Process.publisher q').draws = none ∨ (Process.publisher q').draws = (Process.publisher q).draws ∨
      (Process.publisher q').draws = some d.next ∧ d'.next = d.next + 1 := by
  cases q with
  | begun message =>
    cases h
    exact Or.inr (Or.inr ⟨rfl, rfl⟩)
  | drawn message position =>
    simp only [PgInbox.publish] at h
    split at h
    · cases h
    · split at h
      · cases h
        exact Or.inl rfl
      · split at h
        · cases h
          exact Or.inl rfl
        · split at h
          · cases h
          · split at h
            · cases h
              exact Or.inl rfl
            · cases h
              exact Or.inr (Or.inl rfl)
  | conflicted message =>
    cases h
    exact Or.inl rfl
  | _ => cases h

/-- The order of arrival a step leaves drawn was drawn before, or is the next. -/
theorem PgInbox.step_draws (h : o.step d s p a = some (d', next)) (hdraws : next.draws = some position) :
    p.draws = some position ∨ position = d.next ∧ d'.next = d.next + 1 := by
  cases step_cases h with
  | tick => exact Or.inl hdraws
  | crash => cases hdraws
  | commit hcommits => cases (Process.committed_draws hcommits).1.symm.trans hdraws
  | start hstart => cases (start_draws hstart).1.symm.trans hdraws
  | succeed => cases hdraws
  | fail => cases hdraws
  | next h =>
    cases p with
    | publisher q =>
      obtain ⟨r, hr, h⟩ := Option.map_eq_some_iff.mp h
      cases h
      rcases publish_draws hr with hnone | hsame | ⟨hnew, hnext⟩
      · cases hnone.symm.trans hdraws
      · exact Or.inl (hsame ▸ hdraws)
      · exact Or.inr ⟨Option.some.inj (hdraws.symm.trans hnew), hnext⟩
    | expirer begunAt maxWait found => cases found <;> cases h; cases hdraws
    | idle => cases h
    | _ => obtain ⟨_, _, h⟩ := Option.map_eq_some_iff.mp h; cases h; cases hdraws

/-- So are the orders of processing a transaction has in its journal. -/
def Renumbers (d d' : Database) (p next : Process) : Prop :=
  ∀ e ∈ next.journal, ∀ row position, e.number = some (row, position) →
    e ∈ p.journal ∨ position = d.next ∧ d'.next = d.next + 1

theorem Renumbers.of_subset (h : ∀ e ∈ next.journal, e.number.isSome → e ∈ p.journal) :
    Renumbers d d' p next :=
  fun e he _ _ hnumber => Or.inl (h e he (Option.isSome_of_eq_some hnumber))

theorem PgInbox.dispatch_numbers {begunAt : Nat} {q q' : Dispatching}
    (h : o.dispatch d s begunAt q = some (d', q')) :
    Renumbers d d' (.dispatcher begunAt q) (.dispatcher begunAt q') := by
  cases q with
  | begun => cases h; rintro _ ⟨⟩
  | taking due =>
    simp only [PgInbox.dispatch] at h
    split at h <;> cases h <;> rintro _ ⟨⟩
  | taken slot => cases h; rintro _ ⟨⟩
  | heading slot found =>
    cases found with
    | nil => cases h; rintro _ ⟨⟩
    | cons row found =>
      obtain ⟨⟨d₁, latest⟩, _, h⟩ := Option.map_eq_some_iff.mp h
      cases latest with
      | none => cases h; rintro _ ⟨⟩
      | some latest =>
        simp only at h
        split at h
        · split at h <;> cases h <;> rintro _ ⟨⟩
        · cases h; rintro _ ⟨⟩
  | checking slot row left =>
    cases left with
    | nil => cases h; rintro _ ⟨⟩
    | cons dependency left =>
      simp only [PgInbox.dispatch] at h
      split at h <;> cases h <;> rintro _ ⟨⟩
  | locking slot row dependency =>
    obtain ⟨_, _, h⟩ := Option.map_eq_some_iff.mp h
    cases h
    rintro _ ⟨⟩
  | locked slot row dependency =>
    simp only [PgInbox.dispatch] at h
    split at h <;> cases h <;> rintro _ ⟨⟩
  | identifying slot row =>
    obtain ⟨_, _, h⟩ := Option.map_eq_some_iff.mp h
    cases h
    exact .of_subset fun _ he _ => he
  | marking slot row =>
    cases h
    intro e he row' position hnumber
    rcases List.mem_pair.mp he with rfl | rfl
    · cases hnumber
    · cases hnumber
      exact Or.inr ⟨rfl, rfl⟩
  | waking slot row position at_ statement found =>
    cases found with
    | nil => cases h; exact .of_subset fun _ he _ => he
    | cons waiter found =>
      obtain ⟨_, _, h⟩ := Option.map_eq_some_iff.mp h
      cases h
      exact .of_subset fun _ he _ => he
  | failing slot row error permanent => cases h; rintro _ ⟨⟩
  | handling => cases h
  | done => cases h

theorem PgInbox.resolve_numbers {identity : CausalDependency} {q q' : Resolving}
    (h : o.resolve d s identity q = some (d', q')) :
    Renumbers d d' (.resolver identity q) (.resolver identity q') := by
  cases q with
  | begun =>
    obtain ⟨_, _, h⟩ := Option.map_eq_some_iff.mp h
    cases h
    rintro _ ⟨⟩
  | locked =>
    simp only [PgInbox.resolve] at h
    split at h
    · split at h <;> cases h <;> rintro _ ⟨⟩
    · cases h; rintro _ ⟨⟩
  | claiming row at_ statement found =>
    obtain ⟨⟨d₁, latest⟩, hclaim, h⟩ := Option.map_eq_some_iff.mp h
    cases latest with
    | none => cases h; rintro _ ⟨⟩
    | some latest =>
      simp only at h
      split at h
      · cases h
        intro e he row' position hnumber
        cases List.mem_singleton.mp he
        cases hnumber
        refine Or.inr ⟨rfl, ?_⟩
        rcases claim_cases hclaim with ⟨_, rfl, _⟩ | ⟨_, _, _, _, _, rfl⟩ <;> rfl
      · cases h; rintro _ ⟨⟩
  | waking row position at_ statement found =>
    cases found with
    | nil => cases h; exact .of_subset fun _ he _ => he
    | cons waiter found =>
      obtain ⟨_, _, h⟩ := Option.map_eq_some_iff.mp h
      cases h
      exact .of_subset fun _ he _ => he
  | done => cases h

/-- Only a mark and a resolve have one. -/
theorem Process.journal_number {row : Row} {position : Nat} (he : e ∈ p.journal)
    (hnumber : e.number = some (row, position)) : (∃ begunAt q, p = .dispatcher begunAt q) ∨
      ∃ identity q, p = .resolver identity q := by
  cases p with
  | dispatcher => exact Or.inl ⟨_, _, rfl⟩
  | resolver => exact Or.inr ⟨_, _, rfl⟩
  | sweeper channel window sweptTo q =>
    cases q with
    | deleting locked gone =>
      obtain ⟨_, _, rfl⟩ := List.mem_map.mp he
      cases hnumber
    | done gone =>
      obtain ⟨_, _, rfl⟩ := List.mem_map.mp he
      cases hnumber
    | _ => cases he
  | _ => cases he

theorem PgInbox.step_numbers (h : o.step d s p a = some (d', next)) : Renumbers d d' p next := by
  intro e he row position hnumber
  cases step_cases h with
  | tick => exact Or.inl he
  | crash => cases he
  | commit hcommits =>
    rw [(Process.committed_draws hcommits).2] at he
    cases he
  | start hstart =>
    rw [(start_draws hstart).2] at he
    cases he
  | succeed => split at he <;> cases List.mem_singleton.mp he <;> cases hnumber
  | fail => cases he
  | next h =>
    cases p with
    | dispatcher =>
      obtain ⟨r, hr, h⟩ := Option.map_eq_some_iff.mp h
      cases h
      exact dispatch_numbers hr e he row position hnumber
    | resolver =>
      obtain ⟨r, hr, h⟩ := Option.map_eq_some_iff.mp h
      cases h
      exact resolve_numbers hr e he row position hnumber
    | expirer begunAt maxWait found => cases found <;> cases h; cases he
    | idle => cases h
    | _ =>
      obtain ⟨_, _, h⟩ := Option.map_eq_some_iff.mp h
      cases h
      rcases Process.journal_number he hnumber with ⟨_, _, h⟩ | ⟨_, _, h⟩ <;> cases h

theorem Process.number_head {x : Nat} (he : e ∈ p.journal) (hnumber : e.number = some (row, x)) :
    p.head = some row := by
  rcases Process.journal_number he hnumber with ⟨begunAt, q, rfl⟩ | ⟨identity, q, rfl⟩
  · cases q with
    | identifying => cases List.mem_singleton.mp he; cases hnumber
    | marking => cases List.mem_singleton.mp he; cases hnumber
    | waking =>
      rcases List.mem_pair.mp he with rfl | rfl <;> cases hnumber
      rfl
    | done slot outcome =>
      cases outcome with
      | processed =>
        rcases List.mem_pair.mp he with rfl | rfl <;> cases hnumber
        rfl
      | _ => cases he
    | _ => cases he
  · cases q with
    | waking => cases List.mem_singleton.mp he; cases hnumber; rfl
    | done resolved =>
      cases resolved with
      | some => cases List.mem_singleton.mp he; cases hnumber; rfl
      | none => cases he
    | _ => cases he

/-- Who gives a row its order of processing holds it, and has found it in the queue or parked. -/
theorem Ok.number_head {x : Nat} (hok : Ok o d s p) (he : e ∈ p.journal)
    (hnumber : e.number = some (row, x)) : (d.cells row.identity).lock = some s ∧
      d.committed row.identity = some row ∧ (row.Queued ∨ row.parkedAt.isSome) := by
  obtain ⟨hlock, hcommitted, hstands, _⟩ := hok.head row (Process.number_head he hnumber)
  refine ⟨hlock, hcommitted, ?_⟩
  rcases Process.journal_number he hnumber with ⟨begunAt, q, rfl⟩ | ⟨identity, q, rfl⟩
  · exact Or.inl hstands.1
  · exact Or.inr hstands.1

theorem Ok.number_finish {x : Nat} (hok : Ok o d s p) (he : e ∈ p.journal)
    (hnumber : e.number = some (row, x)) :
    ∃ row', (d.finish s true).committed row.identity = some row' ∧ row'.processedPosition.isSome := by
  obtain ⟨hlock, _, _, hwrote⟩ := hok.head row (Process.number_head he hnumber)
  rw [committed_finish, if_pos ⟨hlock, rfl⟩]
  rcases Process.journal_number he hnumber with ⟨begunAt, q, rfl⟩ | ⟨identity, q, rfl⟩
  · cases q with
    | waking =>
      obtain ⟨at_, hwrote⟩ := hwrote
      rw [hwrote]
      exact ⟨_, rfl, rfl⟩
    | done slot outcome =>
      cases outcome with
      | processed =>
        obtain ⟨at_, hwrote⟩ := hwrote
        rw [hwrote]
        exact ⟨_, rfl, rfl⟩
      | _ => cases he
    | identifying => cases List.mem_singleton.mp he; cases hnumber
    | marking => cases List.mem_singleton.mp he; cases hnumber
    | _ => cases he
  · cases q with
    | waking =>
      obtain ⟨at_, hwrote⟩ := hwrote
      rw [hwrote]
      exact ⟨_, rfl, rfl⟩
    | done resolved =>
      cases resolved with
      | some =>
        obtain ⟨at_, hwrote⟩ := hwrote
        rw [hwrote]
        exact ⟨_, rfl, rfl⟩
      | none => cases he
    | _ => cases he

theorem Ok.number_unprocessed {x : Nat} (hd : Consistent o d) (hok : Ok o d s p) (he : e ∈ p.journal)
    (hnumber : e.number = some (row, x)) : row.processedPosition = none := by
  obtain ⟨_, hcommitted, hqueued | hparked⟩ := hok.number_head he hnumber
  · exact hqueued.1
  · exact (hd.stands _ _ hcommitted).unprocessed (Or.inl hparked)

/-- A transaction marks one row. -/
theorem Process.number_unique {e e' : Event} {row row' : Row} {x x' : Nat} (he : e ∈ p.journal)
    (hnumber : e.number = some (row, x)) (he' : e' ∈ p.journal) (hnumber' : e'.number = some (row', x')) :
    x = x' := by
  rcases Process.journal_number he hnumber with ⟨begunAt, q, rfl⟩ | ⟨identity, q, rfl⟩
  · cases q with
    | identifying => cases List.mem_singleton.mp he; cases hnumber
    | marking => cases List.mem_singleton.mp he; cases hnumber
    | waking =>
      rcases List.mem_pair.mp he with rfl | rfl <;> cases hnumber
      rcases List.mem_pair.mp he' with rfl | rfl <;> cases hnumber'
      rfl
    | done slot outcome =>
      cases outcome with
      | processed =>
        rcases List.mem_pair.mp he with rfl | rfl <;> cases hnumber
        rcases List.mem_pair.mp he' with rfl | rfl <;> cases hnumber'
        rfl
      | _ => cases he
    | _ => cases he
  · cases q with
    | waking =>
      cases List.mem_singleton.mp he
      cases List.mem_singleton.mp he'
      cases hnumber.symm.trans hnumber'
      rfl
    | done resolved =>
      cases resolved with
      | some =>
        cases List.mem_singleton.mp he
        cases List.mem_singleton.mp he'
        cases hnumber.symm.trans hnumber'
        rfl
      | none => cases he
    | _ => cases he

/-- The head, and the dependencies of it being looked at. -/
def Dispatching.looksAt : Dispatching → Option (Row × List CausalDependency)
  | .checking _ row left => some (row, left)
  | .locking _ row dependency | .locked _ row dependency | .done _ (.setAside row dependency) =>
    some (row, [dependency])
  | _ => none

/-- The rows a dispatcher has found had arrived by `n`, and it looks at the dependencies of its head. -/
structure Dispatching.Reads (o : PgInbox) (n : Nat) (q : Dispatching) : Prop where
  found : ∀ slot found, q = .heading slot found → ∀ row ∈ found, row.receivedPosition < n
  looksAt : ∀ row left, q.looksAt = some (row, left) → ∀ dependency ∈ left,
    dependency ∈ o.dependencies row.toInboxMessage

/-- What is said of a dispatcher, if the session is one. -/
def Process.Dispatches (P : Dispatching → Prop) : Process → Prop
  | .dispatcher _ q => P q
  | _ => True

/-- What holds of a dispatch that begins, and what each of its steps keeps, a session's step keeps. -/
theorem PgInbox.step_dispatches {P Q : Dispatching → Prop} (hbegun : Q .begun)
    (htime : ∀ q, P q → Q q)
    (hdispatch : ∀ begunAt q d' q', p = .dispatcher begunAt q → P q →
      o.dispatch d s begunAt q = some (d', q') → Q q')
    (hsucceed : ∀ slot row, P (.handling slot row) → Q (.identifying slot row) ∧ Q (.marking slot row))
    (hfail : ∀ slot row error permanent, P (.handling slot row) → Q (.failing slot row error permanent))
    (h : p.Dispatches P) (hstep : o.step d s p a = some (d', next)) : next.Dispatches Q := by
  cases step_cases hstep with
  | tick =>
    cases p with
    | dispatcher begunAt q => exact htime q h
    | _ => trivial
  | crash => trivial
  | commit hcommits =>
    unfold Process.committed at hcommits
    split at hcommits <;> cases hcommits <;> first | exact hbegun | trivial
  | succeed =>
    obtain ⟨hidentifying, hmarking⟩ := hsucceed _ _ h
    simp only [Process.Dispatches]
    split
    · exact hidentifying
    · exact hmarking
  | fail error permanent => exact hfail _ _ error permanent h
  | next hnext =>
    cases p with
    | dispatcher begunAt q =>
      obtain ⟨_, hr, hnext⟩ := Option.map_eq_some_iff.mp hnext
      cases hnext
      exact hdispatch begunAt q _ _ rfl h hr
    | expirer begunAt maxWait found => cases found <;> cases hnext; trivial
    | idle => cases hnext
    | _ => obtain ⟨_, _, hnext⟩ := Option.map_eq_some_iff.mp hnext; cases hnext; trivial
  | start hstart =>
    cases a with
    | dispatch =>
      simp only [PgInbox.start] at hstart
      split at hstart <;> cases hstart <;> first | exact hbegun | trivial
    | sweep =>
      obtain ⟨_, _, hstart⟩ := Option.map_eq_some_iff.mp hstart
      cases hstart
      trivial
    | publish => cases hstart; trivial
    | resolve => cases hstart; trivial
    | unpark => cases hstart; trivial
    | _ => cases hstart

namespace Dispatching.Reads

variable {q q' : Dispatching} {begunAt n : Nat}

theorem quiet (hfound : ∀ slot found, q ≠ .heading slot found) (hlooks : q.looksAt = none) :
    q.Reads o n where
  found slot found h := absurd h (hfound slot found)
  looksAt _ _ h := nomatch hlooks.symm.trans h

theorem mono {m : Nat} (h : q.Reads o m) (hle : m ≤ n) : q.Reads o n where
  found slot found hfound row hrow := (h.found slot found hfound row hrow).trans_le hle
  looksAt := h.looksAt

theorem of_looksAt (h : q.Reads o n) (hfound : ∀ slot found, q' ≠ .heading slot found)
    (hlooks : ∀ row left, q'.looksAt = some (row, left) → ∃ left', q.looksAt = some (row, left') ∧
      ∀ dependency ∈ left, dependency ∈ left') : q'.Reads o n where
  found slot found h := absurd h (hfound slot found)
  looksAt row left hleft dependency hdependency := by
    obtain ⟨left', hleft', hsub⟩ := hlooks row left hleft
    exact h.looksAt row left' hleft' dependency (hsub dependency hdependency)

theorem dispatch (hstored : ∀ identity row, d.committed identity = some row → row.receivedPosition < d.next)
    (hok : Ok o d s (.dispatcher begunAt q)) (h : q.Reads o d.next)
    (hstep : o.dispatch d s begunAt q = some (d', q')) : q'.Reads o d.next := by
  cases q with
  | begun => cases hstep; exact .quiet (by rintro _ _ ⟨⟩) rfl
  | taking due =>
    simp only [PgInbox.dispatch] at hstep
    split at hstep <;> cases hstep <;> exact .quiet (by rintro _ _ ⟨⟩) rfl
  | taken slot =>
    cases hstep
    refine ⟨?_, by rintro _ _ ⟨⟩⟩
    rintro _ _ ⟨⟩ row hrow
    obtain ⟨identity, _, hseen⟩ := mem_rows.mp (PgInbox.mem_queue.mp hrow).1
    rw [hok.seen (fun _ _ => id)] at hseen
    exact hstored identity row hseen
  | heading slot found =>
    cases found with
    | nil => cases hstep; exact .quiet (by rintro _ _ ⟨⟩) rfl
    | cons row found =>
      have hrest : (Dispatching.heading slot found).Reads o d.next := by
        refine ⟨?_, by rintro _ _ ⟨⟩⟩
        rintro _ _ ⟨⟩ row' hrow
        exact h.found slot _ rfl row' (List.mem_cons_of_mem _ hrow)
      obtain ⟨⟨d₁, latest⟩, _, hnext⟩ := Option.map_eq_some_iff.mp hstep
      cases latest with
      | none => cases hnext; exact hrest
      | some latest =>
        simp only at hnext
        split at hnext
        · split at hnext
          · cases hnext
            refine ⟨by rintro _ _ ⟨⟩, ?_⟩
            rintro _ _ ⟨⟩ dependency hdependency
            exact hdependency
          · cases hnext
            exact .quiet (by rintro _ _ ⟨⟩) rfl
        · cases hnext
          exact hrest
  | checking slot row left =>
    cases left with
    | nil => cases hstep; exact .quiet (by rintro _ _ ⟨⟩) rfl
    | cons dependency left =>
      simp only [PgInbox.dispatch] at hstep
      split at hstep
      · cases hstep
        refine h.of_looksAt (by rintro _ _ ⟨⟩) ?_
        rintro _ _ ⟨⟩
        exact ⟨_, rfl, fun _ => List.mem_cons_of_mem _⟩
      · cases hstep
        refine h.of_looksAt (by rintro _ _ ⟨⟩) ?_
        rintro _ _ ⟨⟩
        exact ⟨_, rfl, by simp⟩
  | locking slot row dependency =>
    obtain ⟨_, _, hstep⟩ := Option.map_eq_some_iff.mp hstep
    cases hstep
    exact h.of_looksAt (by rintro _ _ ⟨⟩) fun _ left hleft => ⟨left, hleft, fun _ => id⟩
  | locked slot row dependency =>
    simp only [PgInbox.dispatch] at hstep
    split at hstep
    · cases hstep
      exact .quiet (by rintro _ _ ⟨⟩) rfl
    · cases hstep
      exact h.of_looksAt (by rintro _ _ ⟨⟩) fun _ left hleft => ⟨left, hleft, fun _ => id⟩
  | identifying slot row =>
    obtain ⟨_, _, hstep⟩ := Option.map_eq_some_iff.mp hstep
    cases hstep
    exact .quiet (by rintro _ _ ⟨⟩) rfl
  | marking slot row => cases hstep; exact .quiet (by rintro _ _ ⟨⟩) rfl
  | waking slot row position at_ statement found =>
    cases found with
    | nil => cases hstep; exact .quiet (by rintro _ _ ⟨⟩) rfl
    | cons waiter found =>
      obtain ⟨_, _, hstep⟩ := Option.map_eq_some_iff.mp hstep
      cases hstep
      exact .quiet (by rintro _ _ ⟨⟩) rfl
  | failing slot row error permanent => cases hstep; exact .quiet (by rintro _ _ ⟨⟩) rfl
  | handling => cases hstep
  | done => cases hstep

end Dispatching.Reads

theorem Process.Dispatches.mono {P Q : Dispatching → Prop} (h : p.Dispatches P) (hPQ : ∀ q, P q → Q q) :
    p.Dispatches Q := by
  cases p with
  | dispatcher begunAt q => exact hPQ q h
  | _ => trivial

theorem PgInbox.step_reads
    (hstored : ∀ identity row, d.committed identity = some row → row.receivedPosition < d.next)
    (hok : Ok o d s p) (h : p.Dispatches (·.Reads o d.next)) (hstep : o.step d s p a = some (d', next)) :
    next.Dispatches (·.Reads o d.next) := by
  refine step_dispatches (.quiet (by rintro _ _ ⟨⟩) rfl) (fun _ => id) ?_ ?_ ?_ h hstep
  · rintro begunAt q d' q' rfl h hdispatch
    exact h.dispatch hstored hok hdispatch
  · exact fun _ _ _ => ⟨.quiet (by rintro _ _ ⟨⟩) rfl, .quiet (by rintro _ _ ⟨⟩) rfl⟩
  · exact fun _ _ _ _ _ => .quiet (by rintro _ _ ⟨⟩) rfl

/-- What is drawn is new, and the order a row was processed in is in the log, once. -/
structure Numbering (o : PgInbox) (w : World) : Prop where
  drawn : ∀ s position, (w.procs s).draws = some position → position < w.shared.next ∧
    ∀ identity row, w.shared.committed identity = some row → row.receivedPosition ≠ position
  distinct : ∀ s t position, (w.procs s).draws = some position → (w.procs t).draws = some position → s = t
  stored : ∀ identity row, w.shared.committed identity = some row → row.receivedPosition < w.shared.next
  logged : ∀ e ∈ w.shared.log, ∀ row position, e.number = some (row, position) → position < w.shared.next
  recorded : ∀ s, ∀ e ∈ (w.procs s).journal, ∀ row position, e.number = some (row, position) →
    position < w.shared.next
  numbered : ∀ identity row position, w.shared.committed identity = some row →
    row.processedPosition = some position → Numbered w.shared.log row.Version position
  used : ∀ (row : Row) position, Numbered w.shared.log row.Version position →
    row.receivedPosition < w.shared.next ∧ ∀ s, (w.procs s).draws ≠ some row.receivedPosition
  settled : ∀ (row : Row) position, Numbered w.shared.log row.Version position →
    w.shared.committed row.identity = some row → row.processedPosition.isSome
  reads : ∀ s, (w.procs s).Dispatches (·.Reads o w.shared.next)
  once : ∀ (row : Row) x y, Numbered w.shared.log row.Version x → Numbered w.shared.log row.Version y → x = y

theorem Invariant.next_le {i : Nat} (hinvariant : Invariant o w)
    (hstep : o.step w.shared i (w.procs i) a = some (d, next)) : w.shared.next ≤ d.next :=
  hinvariant.consistent.step_next (hinvariant.ok i) hstep

theorem Invariant.log_eq {i : Nat} (hinvariant : Invariant o w)
    (hstep : o.step w.shared i (w.procs i) a = some (d, next)) : d.log = w.shared.log ++ (w.procs i).logs a :=
  hinvariant.consistent.logs (hinvariant.ok i) hstep

namespace Numbering

theorem stored_finish {i : Nat} (hok : Ok o w.shared i (w.procs i))
    {identity : CausalDependency} (hrow : (w.shared.finish i true).committed identity = some row) :
    (w.procs i).draws = some row.receivedPosition ∨ ∃ identity old,
      w.shared.committed identity = some old ∧ old.Version row := by
  rcases hok.finish_committed hrow with hsame | hchange
  · exact Or.inr ⟨identity, row, hsame, .refl row⟩
  · rcases hchange.version with ⟨_, hdraws, _⟩ | ⟨old, hold, hversion, _⟩
    · exact Or.inl hdraws
    · exact Or.inr ⟨identity, old, hold, hversion⟩

section Step

variable {i : Nat} (h : Numbering o w) (hinvariant : Invariant o w)
  (hstep : o.step w.shared i (w.procs i) a = some (d, next))

include h hinvariant hstep

theorem step_drawn : ∀ s position, (Function.update w.procs i next s).draws = some position →
    position < d.next ∧ ∀ identity row, d.committed identity = some row → row.receivedPosition ≠ position := by
  have hd := hinvariant.consistent
  have hok := hinvariant.ok i
  have hle := hinvariant.next_le hstep
  intro t position hdraws
  by_cases ht : t = i
  · subst ht
    simp only [Function.update_self] at hdraws
    rcases hd.step_committed hok hstep with hsame | ⟨_, _, hcommits⟩
    · rcases PgInbox.step_draws hstep hdraws with hdrawn | ⟨rfl, hnext⟩
      · obtain ⟨hlt, hnot⟩ := h.drawn t position hdrawn
        exact ⟨hlt.trans_le hle, fun identity row hrow => hnot identity row (hsame identity ▸ hrow)⟩
      · refine ⟨hnext ▸ Nat.lt_succ_self _, fun identity row hrow => ?_⟩
        exact (h.stored identity row (hsame identity ▸ hrow)).ne
    · cases (Process.committed_draws hcommits).1.symm.trans hdraws
  · simp only [Function.update_of_ne ht] at hdraws
    obtain ⟨hlt, hnot⟩ := h.drawn t position hdraws
    refine ⟨hlt.trans_le hle, fun identity row hrow => ?_⟩
    rcases hd.step_committed hok hstep with hsame | ⟨_, rfl, _⟩
    · exact hnot identity row (hsame identity ▸ hrow)
    · rcases stored_finish hok hrow with hdrawn | ⟨identity, old, hold, hversion⟩
      · rintro rfl
        exact ht (h.distinct t i _ hdraws hdrawn)
      · exact hversion.2 ▸ hnot identity old hold

omit hinvariant in
theorem step_distinct : ∀ s t position, (Function.update w.procs i next s).draws = some position →
    (Function.update w.procs i next t).draws = some position → s = t := by
  have hown : ∀ t position, next.draws = some position → (w.procs t).draws = some position → t = i := by
    intro t position hnext hdraws
    rcases PgInbox.step_draws hstep hnext with hdrawn | ⟨rfl, _⟩
    · exact h.distinct t i _ hdraws hdrawn
    · exact absurd (h.drawn t _ hdraws).1 (lt_irrefl _)
  intro t u position ht hu
  by_cases hti : t = i
  · by_cases hui : u = i
    · rw [hti, hui]
    · subst hti
      simp only [Function.update_self, Function.update_of_ne hui] at ht hu
      exact (hown u position ht hu).symm
  · by_cases hui : u = i
    · subst hui
      simp only [Function.update_self, Function.update_of_ne hti] at ht hu
      exact hown t position hu ht
    · simp only [Function.update_of_ne hti, Function.update_of_ne hui] at ht hu
      exact h.distinct t u position ht hu

theorem step_stored : ∀ identity row, d.committed identity = some row → row.receivedPosition < d.next := by
  have hd := hinvariant.consistent
  have hok := hinvariant.ok i
  have hle := hinvariant.next_le hstep
  intro identity row hrow
  rcases hd.step_committed hok hstep with hsame | ⟨_, rfl, _⟩
  · exact (h.stored identity row (hsame identity ▸ hrow)).trans_le hle
  · rcases stored_finish hok hrow with hdrawn | ⟨identity, old, hold, hversion⟩
    · exact (h.drawn i _ hdrawn).1
    · exact hversion.2 ▸ h.stored identity old hold

theorem step_logged : ∀ e ∈ d.log, ∀ row position, e.number = some (row, position) → position < d.next := by
  have hle := hinvariant.next_le hstep
  have hlog := hinvariant.log_eq hstep
  intro e he row position hnumber
  simp only [hlog] at he
  rcases List.mem_append.mp he with he | he
  · exact (h.logged e he row position hnumber).trans_le hle
  · cases a with
    | commit => exact (h.recorded i e he row position hnumber).trans_le hle
    | _ => cases he

theorem step_recorded : ∀ s, ∀ e ∈ (Function.update w.procs i next s).journal, ∀ row position,
    e.number = some (row, position) → position < d.next := by
  have hle := hinvariant.next_le hstep
  intro t e he row position hnumber
  by_cases ht : t = i
  · subst ht
    simp only [Function.update_self] at he
    rcases PgInbox.step_numbers hstep e he row position hnumber with he | ⟨rfl, hnext⟩
    · exact (h.recorded t e he row position hnumber).trans_le hle
    · simp only [hnext, Nat.lt_succ_self]
  · simp only [Function.update_of_ne ht] at he
    exact (h.recorded t e he row position hnumber).trans_le hle

theorem step_numbered : ∀ identity row position, d.committed identity = some row →
    row.processedPosition = some position → Numbered d.log row.Version position := by
  have hd := hinvariant.consistent
  have hok := hinvariant.ok i
  have hlog := hinvariant.log_eq hstep
  intro identity row position hrow hprocessed
  simp only [hlog]
  rcases hd.step_committed hok hstep with hsame | ⟨rfl, rfl, _⟩
  · exact (h.numbered identity row position (hsame identity ▸ hrow) hprocessed).append _
  · rcases hok.finish_committed hrow with hrow | hchange
    · exact (h.numbered identity row position hrow hprocessed).append _
    · rcases hchange.version with ⟨_, _, hnone⟩ | ⟨old, hold, hversion, hnumbered⟩
      · cases hnone.symm.trans hprocessed
      · rcases hnumbered with hsame | ⟨position', hposition, e, he, hnumber⟩
        · have hnumbered := h.numbered identity old position hold (hsame ▸ hprocessed)
          exact (hnumbered.mono fun _ hrow => hversion.symm.trans hrow).append _
        · cases hposition.symm.trans hprocessed
          exact ⟨e, List.mem_append_right _ he, old, hnumber, hversion.symm⟩

theorem step_used : ∀ (row : Row) position, Numbered d.log row.Version position →
    row.receivedPosition < d.next ∧ ∀ s, (Function.update w.procs i next s).draws ≠ some row.receivedPosition := by
  have hok := hinvariant.ok i
  have hle := hinvariant.next_le hstep
  have hlog := hinvariant.log_eq hstep
  intro row position hnumbered
  simp only [hlog] at hnumbered
  rcases numbered_append.mp hnumbered with hnumbered | ⟨e, he, old, hnumber, hversion⟩
  · obtain ⟨hlt, hnot⟩ := h.used row position hnumbered
    refine ⟨hlt.trans_le hle, fun t hdraws => ?_⟩
    by_cases ht : t = i
    · subst ht
      simp only [Function.update_self] at hdraws
      rcases PgInbox.step_draws hstep hdraws with hdrawn | ⟨hdrawn, _⟩
      · exact hnot t hdrawn
      · exact hlt.ne hdrawn
    · simp only [Function.update_of_ne ht] at hdraws
      exact hnot t hdraws
  · cases a with
    | commit =>
      obtain ⟨hcommits, _⟩ := PgInbox.step_commit hstep
      obtain ⟨_, hold, _⟩ := hok.number_head he hnumber
      refine ⟨hversion.2 ▸ (h.stored _ _ hold).trans_le hle, fun t hdraws => ?_⟩
      by_cases ht : t = i
      · subst ht
        simp only [Function.update_self] at hdraws
        cases (Process.committed_draws hcommits).1.symm.trans hdraws
      · simp only [Function.update_of_ne ht] at hdraws
        exact (h.drawn t _ hdraws).2 _ _ hold hversion.2
    | _ => cases he

theorem step_settled : ∀ (row : Row) position, Numbered d.log row.Version position →
    d.committed row.identity = some row → row.processedPosition.isSome := by
  have hd := hinvariant.consistent
  have hok := hinvariant.ok i
  have hlog := hinvariant.log_eq hstep
  intro row position hnumbered hrow
  simp only [hlog] at hnumbered
  rcases numbered_append.mp hnumbered with hnumbered | ⟨e, he, old, hnumber, hversion⟩
  · rcases hd.step_committed hok hstep with hsame | ⟨_, rfl, _⟩
    · exact h.settled row position hnumbered (hsame row.identity ▸ hrow)
    · rcases hok.finish_committed hrow with hrow | hchange
      · exact h.settled row position hnumbered hrow
      · rcases hchange.version with ⟨_, hdraws, _⟩ | ⟨old, hold, hversion, _⟩
        · exact absurd hdraws ((h.used row position hnumbered).2 i)
        · have hprocessed := h.settled old position (hnumbered.mono fun _ hr => hversion.trans hr)
            (hversion.identity ▸ hold)
          rw [hold] at hchange
          cases (hchange.forgets (hd.stands _ _ hold) hprocessed).1
  · cases a with
    | commit =>
      obtain ⟨_, rfl⟩ := PgInbox.step_commit hstep
      obtain ⟨row', hrow', hprocessed⟩ := hok.number_finish he hnumber
      rw [hversion.identity] at hrow'
      cases hrow.symm.trans hrow'
      exact hprocessed
    | _ => cases he

theorem step_reads : ∀ s, (Function.update w.procs i next s).Dispatches (·.Reads o d.next) := by
  have hok := hinvariant.ok i
  have hle := hinvariant.next_le hstep
  intro t
  by_cases ht : t = i
  · subst ht
    simp only [Function.update_self]
    exact (PgInbox.step_reads h.stored hok (h.reads t) hstep).mono fun _ hq => hq.mono hle
  · simp only [Function.update_of_ne ht]
    exact (h.reads t).mono fun _ hq => hq.mono hle

theorem step_once : ∀ (row : Row) x y, Numbered d.log row.Version x → Numbered d.log row.Version y → x = y := by
  have hd := hinvariant.consistent
  have hok := hinvariant.ok i
  have hlog := hinvariant.log_eq hstep
  have hnever : ∀ (row : Row) x y, Numbered w.shared.log row.Version x →
      ¬Numbered ((w.procs i).logs a) row.Version y := by
    rintro row x y hnumbered ⟨e, he, old, hnumber, hversion⟩
    cases a with
    | commit =>
      obtain ⟨_, hold, _⟩ := hok.number_head he hnumber
      have hprocessed := h.settled old x (hnumbered.mono fun _ hr => hversion.symm.trans hr) hold
      rw [hok.number_unprocessed hd he hnumber] at hprocessed
      cases hprocessed
    | _ => cases he
  intro row x y hx hy
  simp only [hlog] at hx hy
  rcases numbered_append.mp hx with hx | hx
  · rcases numbered_append.mp hy with hy | hy
    · exact h.once row x y hx hy
    · exact absurd hy (hnever row x y hx)
  · rcases numbered_append.mp hy with hy | hy
    · exact absurd hx (hnever row y x hy)
    · obtain ⟨e, he, _, hnumber, _⟩ := hx
      obtain ⟨e', he', _, hnumber', _⟩ := hy
      cases a with
      | commit => exact Process.number_unique he hnumber he' hnumber'
      | _ => cases he

end Step

theorem act {i : Nat} (h : Numbering o w) (hinvariant : Invariant o w)
    (hact : o.program.act w i a = some w') : Numbering o w' := by
  obtain ⟨d, next, hstep, rfl⟩ := (o.program.act_eq_some).mp hact
  exact {
    drawn := h.step_drawn hinvariant hstep
    distinct := h.step_distinct hstep
    stored := h.step_stored hinvariant hstep
    logged := h.step_logged hinvariant hstep
    recorded := h.step_recorded hinvariant hstep
    numbered := h.step_numbered hinvariant hstep
    used := h.step_used hinvariant hstep
    settled := h.step_settled hinvariant hstep
    reads := h.step_reads hinvariant hstep
    once := h.step_once hinvariant hstep }

theorem beginning (now : Nat) : Numbering o (beginning now) where
  drawn := by rintro _ _ ⟨⟩
  distinct := by rintro _ _ _ ⟨⟩
  stored := by rintro _ _ ⟨⟩
  logged := by rintro _ ⟨⟩
  recorded := by rintro _ _ ⟨⟩
  numbered := by rintro _ _ _ ⟨⟩
  used := by rintro _ _ ⟨_, ⟨⟩, _⟩
  settled := by rintro _ _ ⟨_, ⟨⟩, _⟩
  reads _ := trivial
  once := by rintro _ _ _ ⟨_, ⟨⟩, _⟩

end Numbering

/-- A reachable state of the tables, with the numbers drawn in it. -/
theorem reached {now : Nat} {ok : World → Nat → Act → Prop}
    (hrun : o.program.Run ok (beginning now) w) : Invariant o w ∧ Numbering o w := by
  refine hrun.invariant (I := fun v => Invariant o v ∧ Numbering o v) ?_ ⟨.beginning now, .beginning now⟩
  rintro v i a v' ⟨hinvariant, hnumbering⟩ _ hact
  exact ⟨hinvariant.act hact, hnumbering.act hinvariant hact⟩

end AsceticDdd.Inbox
