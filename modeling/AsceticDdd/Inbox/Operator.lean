import AsceticDdd.Inbox.Dispatcher

/-!
# Publishers, operators and sweeps at work

Each step of theirs keeps their assertion and leaves the others theirs.
-/

namespace AsceticDdd.Inbox

open Database

variable {o : PgInbox} {d d' : Database} {s : Nat}

theorem Ok.publish {p p' : Publishing} (hok : Ok o d s (.publisher p))
    (h : o.publish d s p = some (d', p')) : Works s d d' ∧ Ok o d' s (.publisher p') := by
  cases p with
  | begun message =>
    cases h
    exact ⟨.of_cells rfl rfl rfl rfl (fun _ _ => rfl) rfl (Nat.le_succ _) le_rfl, { hok with }⟩
  | drawn message position =>
    simp only [PgInbox.publish] at h
    split at h
    · cases h
    rename_i hchanging
    split at h
    · cases h
      exact ⟨.refl s d, { hok with }⟩
    rename_i hcommitted
    split at h
    · cases h
      exact ⟨.refl s d, { hok with }⟩
    split at h
    · cases h
    split at h
    · cases h
      exact ⟨.refl s d, { hok with }⟩
    cases h
    have hnone : d.committed (Row.received message position).identity = none :=
      Option.not_isSome_iff_eq_none.mp hcommitted
    have hfree : (d.cells (.on message)).lock = none ∨ (d.cells (.on message)).lock = some s := by
      rw [changing, Cell.changing] at hchanging
      cases hlock : (d.cells (.on message)).lock with
      | none => exact Or.inl rfl
      | some t =>
        have hisNone : (d.cells (.on message)).committed.isNone := Option.isNone_iff_eq_none.mpr hnone
        simp only [hlock, Option.any_some, hisNone, Bool.or_true, Bool.and_true,
          decide_eq_true_eq, not_not] at hchanging
        exact Or.inr (congrArg some hchanging)
    have hworks : Works s d (d.insert s (.received message position)) := .insert hfree hnone
    refine ⟨hworks, .quiet (by rintro _ ⟨⟩) rfl hok.journal rfl ?_ rfl rfl rfl trivial rfl⟩
    intro identity version hlock hpending
    rw [hworks.committed]
    by_cases heq : identity = (Row.received message position).identity
    · rw [heq, insert_self] at hpending
      cases hpending
      exact ⟨heq ▸ hnone, message, rfl⟩
    · rw [insert_of_ne heq] at hlock hpending
      exact (hok.writes identity version hlock hpending).elim
  | conflicted message =>
    cases h
    exact ⟨.refl s d, { hok with }⟩
  | refused => cases h
  | done receipt => cases h

/-- A row that still waits, in the version a session has locked, is as it was committed. -/
theorem Ok.expire {begunAt maxWait : Nat} {row : Row} {found : List Row} (hd : Consistent o d)
    (hok : Ok o d s (.expirer begunAt maxWait (row :: found))) :
    Works s d (o.expire d s begunAt maxWait row) ∧
      Ok o (o.expire d s begunAt maxWait row) s (.expirer begunAt maxWait found) := by
  obtain ⟨d₁, latest, heq, hclaim⟩ := claimUnlocked_cases d s row
  rw [PgInbox.expire, heq]
  rcases hclaim with ⟨rfl, rfl⟩ | hclaim
  · exact ⟨.refl s d₁, { hok with }⟩
  have hworks : Works s d d₁ := .claim hclaim
  have hclaimed : Ok o d₁ s (.expirer begunAt maxWait found) := by
    refine .quiet (by rintro _ ⟨⟩) rfl ?_ rfl ?_ rfl rfl rfl trivial rfl
    · rw [claim_journal hclaim]
      exact hok.journal
    · intro identity version hlock hpending
      rw [hworks.committed]
      obtain ⟨hlock, hpending⟩ := hd.claim_writes hclaim hlock hpending
      exact hok.writes identity version hlock hpending
  cases latest with
  | none => exact ⟨hworks, hclaimed⟩
  | some latest =>
    dsimp only
    split
    · rename_i dependency hwaits
      split
      · rcases claim_cases hclaim with ⟨hnone, _, _⟩ | ⟨_, hlatest, hseen, _, _, rfl⟩
        · cases hnone
        cases hlatest
        have hcommitted : d.committed row.identity = some latest := by
          rw [← hseen, seen_of_unchanged]
          intro hlock
          cases hpending : (d.cells row.identity).pending with
          | none => rfl
          | some version =>
            obtain ⟨_, _, _, _, _, rfl⟩ := hok.writes _ version hlock hpending
            cases (seen_of_pending hlock hpending).symm.trans hseen
            cases hwaits
        have hlock : ((d.setCell row.identity
            { d.cells row.identity with lock := some s }).cells row.identity).lock = some s := by
          rw [setCell_self]
        refine ⟨hworks.trans (.write _ hlock (hd.version hcommitted rfl rfl)),
          .quiet (by rintro _ ⟨⟩) rfl hclaimed.journal rfl ?_ rfl rfl rfl trivial rfl⟩
        refine hclaimed.write row rfl (fun _ _ => id) ⟨latest, _, _, ?_, ?_, rfl⟩
        · exact (hworks.committed _).trans hcommitted
        · rw [hwaits]
          rfl
      · exact ⟨hworks, hclaimed⟩
    · exact ⟨hworks, hclaimed⟩

/-- What a session that has made no version yet locks, it reads as it was committed. -/
theorem Ok.claimed {p : Process} {row latest : Row} (hok : Ok o d s p)
    (hp : ∀ before version, ¬p.Writes before version)
    (h : d.claim s row = some (d', some latest)) :
    d.committed row.identity = some latest ∧ (d'.cells row.identity).lock = some s := by
  rcases claim_cases h with ⟨hnone, _, _⟩ | ⟨_, hlatest, hseen, _, _, rfl⟩
  · cases hnone
  · cases hlatest
    rw [setCell_self]
    exact ⟨(hok.seen hp _).symm.trans hseen, rfl⟩

/-- A session that has made no version and holds no row of its own, after it has tried to lock one. -/
theorem Ok.claim {p q : Process} {row : Row} {latest : Option Row} (hd : Consistent o d)
    (hok : Ok o d s p) (hp : ∀ before version, ¬p.Writes before version)
    (h : d.claim s row = some (d', latest)) (hslot : q.slot = none) (hkey : q.key o = none)
    (hjournal : q.journal = p.journal) (hhead : q.head = none) (hleft : q.left = none)
    (hmarks : q.marks = none) (hawaits : q.awaits = none) (hnamed : q.Named o) (hsweeps : q.sweeps = []) :
    Ok o d' s q := by
  refine .quiet (fun slot h => nomatch hslot.symm.trans h) hkey ?_ hhead ?_ hleft hmarks hawaits hnamed
    hsweeps
  · rw [claim_journal h, hok.journal, hjournal]
  · intro identity version hlock hpending
    obtain ⟨hlock, hpending⟩ := hd.claim_writes h hlock hpending
    exact (hp _ _ (hok.writes identity version hlock hpending)).elim

theorem Ok.unpark {identity : CausalDependency} {p p' : Unparking} (hd : Consistent o d)
    (hok : Ok o d s (.unparker identity p)) (h : Inbox.unpark d s identity p = some (d', p')) :
    Works s d d' ∧ Ok o d' s (.unparker identity p') := by
  cases p with
  | begun =>
    simp only [Inbox.unpark] at h
    split at h
    · rename_i row hseen
      split at h
      · cases h
        refine ⟨.refl s d, { hok with named := ?_ }⟩
        rw [hok.seen fun _ _ => id] at hseen
        exact hd.identity _ _ hseen
      · cases h
        exact ⟨.refl s d, { hok with }⟩
    · cases h
      exact ⟨.refl s d, { hok with }⟩
  | claiming row =>
    obtain ⟨⟨d₁, latest⟩, hclaim, h⟩ := Option.map_eq_some_iff.mp h
    have hclaimed : Ok o d₁ s (.unparker identity (.done false)) :=
      hok.claim hd (fun _ _ => id) hclaim rfl rfl rfl rfl rfl rfl rfl trivial rfl
    cases latest with
    | none =>
      cases h
      exact ⟨.claim hclaim, hclaimed⟩
    | some latest =>
      have hnamed : row.identity = identity := hok.named
      obtain ⟨hcommitted, hlock⟩ := hok.claimed (fun _ _ => id) hclaim
      dsimp only at h
      split at h
      · rename_i hparked
        cases h
        rw [← hnamed]
        have hworks := (Works.claim hclaim).trans (.write (some latest.unparked) hlock
          ((hd.works (.claim hclaim)).version (((Works.claim hclaim).committed _).trans hcommitted)
            rfl rfl))
        refine ⟨hworks, .quiet (by rintro _ ⟨⟩) rfl hclaimed.journal rfl ?_ rfl rfl rfl trivial rfl⟩
        refine hclaimed.write row rfl (fun _ _ => False.elim) ⟨latest, ?_, hparked, rfl⟩
        exact ((Works.claim hclaim).committed _).trans hcommitted
      · cases h
        exact ⟨.claim hclaim, hclaimed⟩
  | done unparked => cases h

theorem Ok.claimResolved {identity : CausalDependency} {row : Row} {at_ statement : Nat}
    {found : List Row} {p' : Resolving} (hd : Consistent o d)
    (hok : Ok o d s (.resolver identity (.claiming row at_ statement found)))
    (h : o.resolve d s identity (.claiming row at_ statement found) = some (d', p')) :
    Works s d d' ∧ Ok o d' s (.resolver identity p') := by
  obtain ⟨⟨d₁, latest⟩, hclaim, h⟩ := Option.map_eq_some_iff.mp h
  have hworks : Works s d d₁ := .claim hclaim
  have hd₁ := hd.works hworks
  have hclaimed : Ok o d₁ s (.resolver identity (.done none)) :=
    hok.claim hd (fun _ _ => id) hclaim rfl rfl rfl rfl rfl rfl rfl trivial rfl
  cases latest with
  | none =>
    cases h
    exact ⟨hworks, hclaimed⟩
  | some latest =>
    have hnamed : row.identity = identity := hok.named
    obtain ⟨hcommitted, hlock⟩ := hok.claimed (fun _ _ => id) hclaim
    have hidentity : latest.identity = identity := (hd.identity _ _ hcommitted).trans hnamed
    rw [hnamed, ← hidentity] at hcommitted hlock
    dsimp only at h
    split at h
    · rename_i hparked
      cases h
      have hdrawn : Works s d₁ { d₁ with next := d₁.next + 1 } :=
        .of_cells rfl rfl rfl rfl (fun _ _ => rfl) rfl (Nat.le_succ _) le_rfl
      have hlocked : (d₁.cells identity).lock = some s := hidentity ▸ hlock
      have hversion : ∀ r, some (latest.resolved d.next at_) = some r →
          r.identity = latest.identity ∧ latest.identity ∈ d₁.identities :=
        hd₁.version ((hworks.committed _).trans hcommitted) rfl rfl
      have hmade := (hdrawn.trans (.write (some (latest.resolved d.next at_)) hlocked
        (hidentity ▸ hversion))).trans (.record (.resolved latest d.next))
      have hall := hworks.trans hmade
      refine ⟨hall, ?_⟩
      constructor
      case slot => rintro _ ⟨⟩
      case key =>
        rintro _ ⟨⟩
        exact hall.key _ (hok.key _ rfl)
      case journal =>
        refine (Function.update_self ..).trans ?_
        exact congrArg (· ++ [Event.resolved latest d.next]) hclaimed.journal
      case head =>
        rintro _ ⟨⟩
        refine ⟨hmade.kept _ hlock, (hall.committed _).trans hcommitted, ⟨hparked, hidentity⟩, at_, ?_⟩
        rw [hidentity]
        exact congrArg Cell.pending (setCell_self ..)
      case writes =>
        refine hclaimed.write latest (by rw [hidentity]; rfl) (fun _ _ => False.elim)
          (Or.inl ⟨?_, at_, rfl⟩)
        exact (hworks.committed _).trans hcommitted
      case checked => rintro _ _ ⟨⟩
      case covered =>
        rintro _ _ ⟨⟩ other r hr hwaits
        rw [hall.committed] at hr
        rcases hok.covered _ _ rfl other r hr hwaits with hmem | ⟨hlock, hpending⟩
        · exact Or.inl hmem
        · exact (hok.writes _ _ hlock hpending).elim
      case unmarked => rintro _ ⟨⟩
      case named => trivial
      case sweeps => rintro _ ⟨⟩
    · cases h
      exact ⟨hworks, hclaimed⟩

theorem Ok.wakeResolved {identity : CausalDependency} {row : Row} {position at_ statement : Nat}
    {found : List Row} {p' : Resolving} (hd : Consistent o d)
    (hok : Ok o d s (.resolver identity (.waking row position at_ statement found)))
    (h : o.resolve d s identity (.waking row position at_ statement found) = some (d', p')) :
    Works s d d' ∧ Ok o d' s (.resolver identity p') := by
  obtain ⟨hlock, hcommitted, ⟨hparked, _⟩, _⟩ := hok.head row rfl
  have hnot : row.waitingFor = none := (hd.stands _ _ hcommitted).parked hparked
  cases found with
  | nil =>
    cases h
    exact ⟨.refl s d, { hok with }⟩
  | cons waiter found =>
    obtain ⟨d₁, hwake, h⟩ := Option.map_eq_some_iff.mp h
    cases h
    have hwoke : Woke s identity waiter d d' := by
      refine hd.woke hwake fun other version hlock hpending => ?_
      rcases hok.writes other version hlock hpending with ⟨hown, _, rfl⟩ | hwakes
      · refine ⟨?_, fun r hr hwaits => ?_⟩
        · rintro _ ⟨⟩ hwaits
          exact nomatch hnot.symm.trans hwaits
        · cases hown.symm.trans hr
          exact nomatch hnot.symm.trans hwaits
      · exact hwakes.made
    refine ⟨hwoke.works, hok.woke hd hwoke rfl rfl rfl rfl rfl rfl (fun _ => id) (fun _ => id) ?_ ?_ rfl
      rfl trivial rfl⟩
    · rintro _ ⟨⟩ hnone
      obtain ⟨at_, hwrote⟩ := (hok.head row rfl).2.2.2
      exact nomatch hnone.symm.trans hwrote
    · intro before version h
      exact h.elim id Or.inr

theorem Ok.resolve {identity : CausalDependency} {p p' : Resolving} (hd : Consistent o d)
    (hok : Ok o d s (.resolver identity p)) (h : o.resolve d s identity p = some (d', p')) :
    Works s d d' ∧ Ok o d' s (.resolver identity p') := by
  cases p with
  | begun =>
    obtain ⟨d₁, hlock, h⟩ := Option.map_eq_some_iff.mp h
    cases h
    obtain ⟨_, rfl⟩ := lockIdentity_eq_some hlock
    refine ⟨.lockIdentity hlock, { hok with key := ?_ }⟩
    rintro _ ⟨⟩
    exact Function.update_self ..
  | locked =>
    have hseen := hok.seen fun _ _ => id
    have hnone : Ok o d s (.resolver identity (.done none)) :=
      { hok with key := by rintro _ ⟨⟩ }
    simp only [PgInbox.resolve] at h
    split at h
    · rename_i row hrow
      split at h
      · cases h
        refine ⟨.of_cells rfl rfl rfl rfl (fun _ _ => rfl) rfl le_rfl (Nat.le_succ _),
          { hok with covered := ?_, named := ?_ }⟩
        · rintro _ _ ⟨⟩ other r hr hwaits
          exact Or.inl (hd.found hseen hr hwaits)
        · rw [hseen] at hrow
          exact hd.identity _ _ hrow
      · cases h
        exact ⟨.refl s d, hnone⟩
    · cases h
      exact ⟨.refl s d, hnone⟩
  | claiming row at_ statement found => exact hok.claimResolved hd h
  | waking row position at_ statement found => exact hok.wakeResolved hd h
  | done resolved => cases h

section Sweep

variable {channel : String} {window at_ : Nat} {sweptTo : Option Nat}

theorem Ok.locked {found locked : List Row}
    (hok : Ok o d s (.sweeper channel window sweptTo (.locking at_ found locked))) :
    Ok o d s (.sweeper channel window sweptTo (.deleting locked [])) := by
  refine { hok with writes := ?_, sweeps := ?_ }
  · intro identity version hlock hpending
    exact (hok.writes identity version hlock hpending).elim
  · intro r hr
    exact hok.sweeps r ((List.mem_append.mp hr).elim id (by rintro ⟨⟩))

theorem Ok.lockForgettable {row : Row} {found locked : List Row} {p' : Sweeping} (hd : Consistent o d)
    (hok : Ok o d s (.sweeper channel window sweptTo (.locking at_ (row :: found) locked)))
    (h : o.forgetBatch d s channel window sweptTo (.locking at_ (row :: found) locked) = some (d', p')) :
    Works s d d' ∧ Ok o d' s (.sweeper channel window sweptTo p') := by
  simp only [PgInbox.forgetBatch] at h
  split at h
  · obtain ⟨d₁, latest, heq, hclaim⟩ := claimUnlocked_cases d s row
    rw [heq] at h
    rcases hclaim with ⟨rfl, rfl⟩ | hclaim
    · cases h
      exact ⟨.refl s d₁, { hok with }⟩
    have hworks : Works s d d₁ := .claim hclaim
    have hclaimed : ∀ locked', (∀ r ∈ locked', r ∈ locked ∨ (d₁.cells r.identity).lock = some s ∧
        d₁.committed r.identity = some r ∧ r.processedPosition.isSome) →
        Ok o d₁ s (.sweeper channel window sweptTo (.locking at_ found locked')) := by
      intro locked' hlocked
      have hquiet : Ok o d₁ s (.sweeper channel window sweptTo (.locking at_ found [])) :=
        hok.claim hd (fun _ _ => id) hclaim rfl rfl rfl rfl rfl rfl rfl trivial rfl
      refine { hquiet with sweeps := fun r hr => ?_ }
      rcases hlocked r hr with hr | hr
      · obtain ⟨hlock, hcommitted, hprocessed⟩ := hok.sweeps r hr
        exact ⟨hworks.kept _ hlock, (hworks.committed _).trans hcommitted, hprocessed⟩
      · exact hr
    cases latest with
    | none =>
      cases h
      exact ⟨hworks, hclaimed locked fun r => Or.inl⟩
    | some latest =>
      obtain ⟨hcommitted, hlock⟩ := hok.claimed (fun _ _ => id) hclaim
      have hidentity := hd.identity _ _ hcommitted
      dsimp only at h
      split at h
      · rename_i hforgettable
        cases h
        refine ⟨hworks, hclaimed _ fun r hr => ?_⟩
        rcases List.mem_append.mp hr with hr | hr
        · exact Or.inl hr
        · cases List.mem_singleton.mp hr
          rw [hidentity]
          refine Or.inr ⟨hlock, (hworks.committed _).trans hcommitted, ?_⟩
          rw [forgettable, Bool.and_eq_true] at hforgettable
          exact hforgettable.2
      · cases h
        exact ⟨hworks, hclaimed locked fun r => Or.inl⟩
  · cases h
    exact ⟨.refl s d, hok.locked⟩

theorem Ok.delete {row : Row} {locked gone : List Row} {p' : Sweeping}
    (hok : Ok o d s (.sweeper channel window sweptTo (.deleting (row :: locked) gone)))
    (h : o.forgetBatch d s channel window sweptTo (.deleting (row :: locked) gone) = some (d', p')) :
    Works s d d' ∧ Ok o d' s (.sweeper channel window sweptTo p') := by
  cases h
  obtain ⟨hlock, hcommitted, hprocessed⟩ := hok.sweeps row List.mem_cons_self
  have hworks := (Works.write none hlock (by rintro _ ⟨⟩)).trans (.record (.forgotten row))
  refine ⟨hworks, ?_⟩
  constructor
  case slot => rintro _ ⟨⟩
  case key => rintro _ ⟨⟩
  case journal =>
    have hjournal : (d.write row.identity none).journal s = gone.map .forgotten := hok.journal
    refine (Function.update_self ..).trans ?_
    rw [hjournal, Process.journal, List.map_append]
    rfl
  case head => rintro _ ⟨⟩
  case writes =>
    refine hok.write row rfl ?_ ⟨row, List.mem_append_right _ List.mem_cons_self, hcommitted, rfl⟩
    rintro before version ⟨r, hr, hbefore, hversion⟩
    exact ⟨r, List.mem_append_left _ hr, hbefore, hversion⟩
  case checked => rintro _ _ ⟨⟩
  case covered => rintro _ _ ⟨⟩
  case unmarked => rintro _ ⟨⟩
  case named => trivial
  case sweeps =>
    intro r hr
    have hmem : r ∈ (row :: locked) ++ gone := by
      simp only [Process.sweeps, List.mem_append, List.mem_cons] at hr ⊢
      tauto
    obtain ⟨hlock, hcommitted, hprocessed⟩ := hok.sweeps r hmem
    exact ⟨hworks.kept _ hlock, (hworks.committed _).trans hcommitted, hprocessed⟩

theorem Ok.forgetBatch {p p' : Sweeping} (hd : Consistent o d)
    (hok : Ok o d s (.sweeper channel window sweptTo p))
    (h : o.forgetBatch d s channel window sweptTo p = some (d', p')) :
    Works s d d' ∧ Ok o d' s (.sweeper channel window sweptTo p') := by
  cases p with
  | begun =>
    simp only [PgInbox.forgetBatch] at h
    split at h
    · cases h
      exact ⟨.of_cells rfl rfl rfl rfl (fun _ _ => rfl) rfl le_rfl le_rfl, { hok with }⟩
    · cases h
      refine ⟨.refl s d, { hok with writes := ?_ }⟩
      intro identity version hlock hpending
      exact (hok.writes identity version hlock hpending).elim
  | held =>
    cases h
    exact ⟨.refl s d, { hok with }⟩
  | locking at_ found locked =>
    cases found with
    | nil =>
      cases h
      exact ⟨.refl s d, hok.locked⟩
    | cons row found => exact hok.lockForgettable hd h
  | deleting locked gone =>
    cases locked with
    | nil =>
      cases h
      exact ⟨.refl s d, { hok with }⟩
    | cons row locked => exact hok.delete h
  | done gone => cases h

end Sweep

end AsceticDdd.Inbox
