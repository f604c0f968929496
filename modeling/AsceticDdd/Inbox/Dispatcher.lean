import AsceticDdd.Inbox.Waking

/-!
# A dispatcher at work

Each step of a dispatch transaction keeps its assertion and leaves the others theirs.
-/

namespace AsceticDdd.Inbox

open Database

variable {o : PgInbox} {d d' : Database} {s begunAt : Nat} {p p' : Dispatching}

theorem Ok.stands {row : Row} (h : Ok o d s (.dispatcher begunAt p)) (hhead : p.head = some row) :
    (d.cells row.identity).lock = some s ∧ d.committed row.identity = some row ∧ row.Queued ∧
      p.slot = some (o.slotOf row.toInboxMessage) :=
  have ⟨hlock, hcommitted, ⟨hqueued, hslot⟩, _⟩ := h.head row hhead
  ⟨hlock, hcommitted, hqueued, hslot⟩

/-- What is written to the head leaves the rest as it was. -/
theorem Ok.write {q q' : Process} (hok : Ok o d s q) (row : Row) {version : Option Row}
    (hcells : d'.cells = (d.write row.identity version).cells)
    (hothers : ∀ before version, q.Writes before version → q'.Writes before version)
    (hown : q'.Writes (d.committed row.identity) version) (identity : CausalDependency)
    (version' : Option Row) (hlock : (d'.cells identity).lock = some s)
    (hpending : (d'.cells identity).pending = some version') :
    q'.Writes (d'.committed identity) version' := by
  rw [Database.committed, hcells]
  rw [hcells] at hlock hpending
  by_cases heq : identity = row.identity
  · subst heq
    rw [Database.write, setCell_self] at hpending ⊢
    cases hpending
    exact hown
  · rw [Database.write, setCell_of_ne heq] at hlock hpending ⊢
    exact hothers _ _ (hok.writes identity version' hlock hpending)

theorem Consistent.heading (hd : Consistent o d) {slot : Nat} {row : Row} {found : List Row}
    (hok : Ok o d s (.dispatcher begunAt (.heading slot (row :: found))))
    (h : o.dispatch d s begunAt (.heading slot (row :: found)) = some (d', p')) :
    Works s d d' ∧ Ok o d' s (.dispatcher begunAt p') := by
  obtain ⟨⟨d₁, latest⟩, hclaim, h⟩ := Option.map_eq_some_iff.mp h
  have hworks : Works s d d₁ := .claim hclaim
  have hslot : (d₁.slots slot).lock = some s ∧ slot < o.slots :=
    (hok.slot slot rfl).imp_left (hworks.slot slot)
  have hjournal : d₁.journal s = [] := by rw [claim_journal hclaim, hok.journal]; rfl
  have hwrites : ∀ identity version, (d₁.cells identity).lock = some s →
      (d₁.cells identity).pending = some version → False := by
    intro identity version hlock hpending
    obtain ⟨hlock, hpending⟩ := hd.claim_writes hclaim hlock hpending
    exact hok.writes identity version hlock hpending
  have hquiet : ∀ q : Dispatching, q.slot = some slot → q.key o = none → q.journal = [] →
      q.head = none → q.left = none → q.marks = none → q.awaits = none →
      Process.Named o (.dispatcher begunAt q) → Ok o d₁ s (.dispatcher begunAt q) := by
    intro q hq hkey hq' hhead hleft hmarks hawaits hnamed
    refine .quiet (fun slot' h => ?_) hkey (hjournal.trans hq'.symm) hhead
      (fun _ _ hlock hpending => (hwrites _ _ hlock hpending).elim) hleft hmarks hawaits hnamed rfl
    cases hq.symm.trans h
    exact hslot
  cases latest with
  | none =>
    cases h
    exact ⟨hworks, hquiet _ rfl rfl rfl rfl rfl rfl rfl trivial⟩
  | some latest =>
    simp only at h
    split at h
    · rename_i hqueued
      split at h
      · cases h
        refine ⟨hworks, ?_⟩
        rcases claim_cases hclaim with ⟨hnone, _, _⟩ | ⟨_, heq, hseen, _, hfree, rfl⟩
        · cases hnone
        cases heq
        have hcommitted : d.committed row.identity = some latest := by
          rw [← hok.seen (fun _ _ => id)]
          exact hseen
        have hidentity : latest.identity = row.identity := hd.identity _ _ hcommitted
        constructor
        case slot =>
          rintro _ ⟨⟩
          exact hslot
        case key => rintro _ ⟨⟩
        case journal => exact hjournal
        case head =>
          rintro _ ⟨⟩
          rw [hidentity]
          refine ⟨by rw [setCell_self], ?_, ⟨hqueued.2, congrArg some hqueued.1.symm⟩, trivial⟩
          exact (hworks.committed row.identity).trans hcommitted
        case writes => exact fun identity version hlock hpending => hwrites identity version hlock hpending
        case checked =>
          rintro _ _ ⟨⟩ dependency hdependency
          exact Or.inl hdependency
        case covered => rintro _ _ ⟨⟩
        case unmarked => rintro _ ⟨⟩
        case named => trivial
        case sweeps => rintro _ ⟨⟩
      · cases h
        exact ⟨hworks, hquiet _ rfl rfl rfl rfl rfl rfl rfl trivial⟩
    · cases h
      exact ⟨hworks, hquiet _ rfl rfl rfl rfl rfl rfl rfl trivial⟩

/-- A dependency found processed has been marked, and one found unprocessed is not. -/
theorem Consistent.isProcessed (hd : Consistent o d) {dependency : CausalDependency}
    (hseen : d.seen s dependency = d.committed dependency) :
    (d.isProcessed s dependency = true → Marked d.log dependency) ∧
      (d.isProcessed s dependency = false → ∀ holder, d.committed dependency = some holder →
        holder.processedPosition = none) := by
  rw [Database.isProcessed, hseen]
  constructor
  · intro h
    obtain ⟨holder, hholder, hprocessed⟩ := (Option.any_eq_true _ _).mp h
    exact hd.marked dependency holder hholder hprocessed
  · intro h holder hholder
    rw [hholder, Option.any_some] at h
    simpa using h

theorem Consistent.checking (hd : Consistent o d) {slot : Nat} {row : Row}
    {left : List CausalDependency} (hok : Ok o d s (.dispatcher begunAt (.checking slot row left)))
    (h : o.dispatch d s begunAt (.checking slot row left) = some (d', p')) :
    Works s d d' ∧ Ok o d' s (.dispatcher begunAt p') := by
  cases left with
  | nil =>
    cases h
    exact ⟨.refl s d, { hok with }⟩
  | cons dependency left =>
    have hmarked := (hd.isProcessed (hok.seen (fun _ _ => id) dependency)).1
    simp only [PgInbox.dispatch] at h
    split at h
    · rename_i hprocessed
      cases h
      refine ⟨.refl s d, { hok with checked := ?_ }⟩
      rintro _ _ ⟨⟩ other hother
      rcases hok.checked row _ rfl other hother with hother | hother
      · rcases List.mem_cons.mp hother with rfl | hother
        · exact Or.inr (hmarked hprocessed)
        · exact Or.inl hother
      · exact Or.inr hother
    · cases h
      exact ⟨.refl s d, { hok with checked := by rintro _ _ ⟨⟩ }⟩

theorem Ok.locking {slot : Nat} {row : Row}
    {dependency : CausalDependency} (hok : Ok o d s (.dispatcher begunAt (.locking slot row dependency)))
    (h : o.dispatch d s begunAt (.locking slot row dependency) = some (d', p')) :
    Works s d d' ∧ Ok o d' s (.dispatcher begunAt p') := by
  obtain ⟨d₁, hlock, h⟩ := Option.map_eq_some_iff.mp h
  cases h
  obtain ⟨_, rfl⟩ := lockIdentity_eq_some hlock
  refine ⟨.lockIdentity hlock, { hok with key := ?_ }⟩
  rintro _ ⟨⟩
  exact Function.update_self ..

theorem Consistent.locked (hd : Consistent o d) {slot : Nat} {row : Row}
    {dependency : CausalDependency} (hok : Ok o d s (.dispatcher begunAt (.locked slot row dependency)))
    (h : o.dispatch d s begunAt (.locked slot row dependency) = some (d', p')) :
    Works s d d' ∧ Ok o d' s (.dispatcher begunAt p') := by
  have hunmarked := (hd.isProcessed (hok.seen (fun _ _ => id) dependency)).2
  obtain ⟨hlock, hcommitted, hqueued, hslot⟩ := hok.stands rfl
  simp only [PgInbox.dispatch] at h
  split at h
  · cases h
    exact ⟨.refl s d, .quiet hok.slot rfl hok.journal rfl hok.writes rfl rfl rfl trivial rfl⟩
  · rename_i hprocessed
    cases h
    have hworks : Works s d (d.write row.identity (some (row.waiting dependency begunAt))) :=
      .write _ hlock (hd.version hcommitted rfl rfl)
    refine ⟨hworks, ?_⟩
    constructor
    case slot => exact hok.slot
    case key => exact hok.key
    case journal => exact hok.journal
    case head =>
      rintro _ ⟨⟩
      refine ⟨hworks.kept _ hlock, (hworks.committed _).trans hcommitted, ⟨hqueued, hslot⟩, begunAt, ?_⟩
      rw [write, setCell_self]
    case writes =>
      exact hok.write row rfl (fun _ _ => False.elim) ⟨hcommitted, begunAt, rfl⟩
    case checked => rintro _ _ ⟨⟩
    case covered => rintro _ _ ⟨⟩
    case unmarked =>
      rintro _ ⟨⟩ holder hholder
      exact hunmarked (Bool.eq_false_iff.mpr hprocessed) holder ((hworks.committed _).symm.trans hholder)
    case named => trivial
    case sweeps => rintro _ ⟨⟩

theorem Ok.identifying {slot : Nat} {row : Row}
    (hok : Ok o d s (.dispatcher begunAt (.identifying slot row)))
    (h : o.dispatch d s begunAt (.identifying slot row) = some (d', p')) :
    Works s d d' ∧ Ok o d' s (.dispatcher begunAt p') := by
  obtain ⟨d₁, hlock, h⟩ := Option.map_eq_some_iff.mp h
  cases h
  obtain ⟨_, rfl⟩ := lockIdentity_eq_some hlock
  refine ⟨.lockIdentity hlock, { hok with key := ?_ }⟩
  intro key hkey
  rw [Process.key, Dispatching.key] at hkey
  split at hkey
  · cases hkey
    exact Function.update_self ..
  · cases hkey

/-- A snapshot shows every committed row that waits. -/
theorem Consistent.found (hd : Consistent o d) (hseen : ∀ identity, d.seen s identity = d.committed identity)
    {marked identity : CausalDependency} {row : Row} (hrow : d.committed identity = some row)
    (hwaits : row.waitingFor = some marked) : row ∈ waiters (d.rows s) marked :=
  mem_waiters.mpr ⟨mem_rows.mpr ⟨identity, hd.known _ _ hrow, (hseen identity).trans hrow⟩, hwaits⟩

theorem Consistent.marking (hd : Consistent o d) {slot : Nat} {row : Row}
    (hok : Ok o d s (.dispatcher begunAt (.marking slot row)))
    (h : o.dispatch d s begunAt (.marking slot row) = some (d', p')) :
    Works s d d' ∧ Ok o d' s (.dispatcher begunAt p') := by
  obtain ⟨hlock, hcommitted, hqueued, hslot⟩ := hok.stands rfl
  cases h
  have hdrawn : Works s d { d with next := d.next + 1, statements := d.statements + 1 } :=
    .of_cells rfl rfl rfl rfl (fun _ _ => rfl) rfl (Nat.le_succ _) (Nat.le_succ _)
  have hworks := (hdrawn.trans (.write (some (row.marked d.next d.now)) hlock
    (hd.version hcommitted rfl rfl))).trans (.record (.marked row d.next))
  refine ⟨hworks, ?_⟩
  constructor
  case slot => exact hok.slot
  case key => exact hok.key
  case journal =>
    refine (Function.update_self ..).trans ?_
    exact congrArg (· ++ [Event.marked row d.next]) hok.journal
  case head =>
    rintro _ ⟨⟩
    refine ⟨hworks.kept _ hlock, (hworks.committed _).trans hcommitted, ⟨hqueued, hslot⟩, d.now, ?_⟩
    exact congrArg Cell.pending (setCell_self ..)
  case writes =>
    exact hok.write row rfl (fun _ _ => False.elim) (Or.inl ⟨hcommitted, d.now, rfl⟩)
  case checked =>
    rintro _ _ ⟨⟩
    exact hok.checked row [] rfl
  case covered =>
    rintro _ _ ⟨⟩ identity waiter hwaiter hwaits
    exact Or.inl (hd.found (hok.seen fun _ _ => id) ((hworks.committed _).symm.trans hwaiter) hwaits)
  case unmarked => rintro _ ⟨⟩
  case named => trivial
  case sweeps => rintro _ ⟨⟩

theorem Consistent.failing (hd : Consistent o d) {slot : Nat} {row : Row} {error : String}
    {permanent : Bool} (hok : Ok o d s (.dispatcher begunAt (.failing slot row error permanent)))
    (h : o.dispatch d s begunAt (.failing slot row error permanent) = some (d', p')) :
    Works s d d' ∧ Ok o d' s (.dispatcher begunAt p') := by
  obtain ⟨hlock, hcommitted, hqueued, hslot⟩ := hok.stands rfl
  cases h
  have hworks : Works s d (d.write row.identity (some (row.failed error
      (begunAt + o.backoff (row.attempts + 1))
      (if o.parks permanent (row.attempts + 1) then some begunAt else none)))) :=
    .write _ hlock (hd.version hcommitted rfl rfl)
  refine ⟨hworks, ?_⟩
  constructor
  case slot => exact hok.slot
  case key => rintro _ ⟨⟩
  case journal => exact hok.journal
  case head =>
    rintro _ ⟨⟩
    exact ⟨hworks.kept _ hlock, (hworks.committed _).trans hcommitted, ⟨hqueued, hslot⟩, trivial⟩
  case writes =>
    exact hok.write row rfl (fun _ _ => False.elim) ⟨hcommitted, _, _, _, rfl⟩
  case checked => exact hok.checked
  case covered => rintro _ _ ⟨⟩
  case unmarked => rintro _ ⟨⟩
  case named => trivial
  case sweeps => rintro _ ⟨⟩

theorem Consistent.waking (hd : Consistent o d) {slot position at_ statement : Nat} {row : Row}
    {found : List Row}
    (hok : Ok o d s (.dispatcher begunAt (.waking slot row position at_ statement found)))
    (h : o.dispatch d s begunAt (.waking slot row position at_ statement found) = some (d', p')) :
    Works s d d' ∧ Ok o d' s (.dispatcher begunAt p') := by
  obtain ⟨hlock, hcommitted, hqueued, hslot⟩ := hok.stands rfl
  cases found with
  | nil =>
    cases h
    exact ⟨.refl s d, { hok with }⟩
  | cons waiter found =>
    obtain ⟨d₁, hwake, h⟩ := Option.map_eq_some_iff.mp h
    cases h
    have hwoke : Woke s row.identity waiter d d' := by
      refine hd.woke hwake fun other version hlock hpending => ?_
      rcases hok.writes other version hlock hpending with ⟨hown, _, rfl⟩ | hwakes
      · refine ⟨?_, fun r hr hwaits => ?_⟩
        · rintro _ ⟨⟩ hwaits
          exact nomatch hqueued.2.2.symm.trans hwaits
        · cases hown.symm.trans hr
          exact nomatch hqueued.2.2.symm.trans hwaits
      · exact hwakes.made
    refine ⟨hwoke.works, hok.woke hd hwoke rfl rfl rfl rfl rfl rfl (fun _ => id) (fun _ => id) ?_ ?_ rfl
      rfl trivial rfl⟩
    · rintro _ ⟨⟩ hnone
      obtain ⟨at_, hwrote⟩ := (hok.head row rfl).2.2.2
      exact nomatch hnone.symm.trans hwrote
    · intro before version h
      exact h.elim id Or.inr

/-- Each step of a dispatch transaction keeps its assertion. -/
theorem Consistent.dispatch (hd : Consistent o d) (hok : Ok o d s (.dispatcher begunAt p))
    (h : o.dispatch d s begunAt p = some (d', p')) :
    Works s d d' ∧ Ok o d' s (.dispatcher begunAt p') := by
  cases p with
  | begun =>
    cases h
    exact ⟨.refl s d, { hok with named := fun _ => PgInbox.lt_of_mem_dueSlots }⟩
  | taking due =>
    simp only [PgInbox.dispatch] at h
    split at h
    · rename_i slot hslot
      cases h
      have hlock : (d.slots slot).lock = none := by simpa using List.find?_some hslot
      refine ⟨.takeSlot hlock, { hok with slot := ?_, head := by rintro _ ⟨⟩, named := trivial }⟩
      rintro _ ⟨⟩
      refine ⟨?_, hok.named slot (List.mem_of_find?_eq_some hslot)⟩
      simp [takeSlot]
    · cases h
      exact ⟨.refl s d, { hok with named := trivial }⟩
  | taken slot =>
    cases h
    exact ⟨.refl s d, { hok with }⟩
  | heading slot found =>
    cases found with
    | nil =>
      cases h
      exact ⟨.refl s d, { hok with }⟩
    | cons row found => exact hd.heading hok h
  | checking => exact hd.checking hok h
  | locking => exact hok.locking h
  | locked => exact hd.locked hok h
  | handling => cases h
  | identifying => exact hok.identifying h
  | marking => exact hd.marking hok h
  | waking => exact hd.waking hok h
  | failing => exact hd.failing hok h
  | done => cases h

theorem Ok.succeed (hok : Ok o d s (.dispatcher begunAt p)) (h : o.succeed d s p = some (d', p')) :
    Works s d d' ∧ Ok o d' s (.dispatcher begunAt p') := by
  cases p with
  | handling slot row =>
    cases h
    refine ⟨.record _, ?_⟩
    have hjournal : (d.record s (.effects row)).journal s = [.effects row] := by
      refine (Function.update_self ..).trans ?_
      rw [hok.journal]
      rfl
    split
    · exact { hok with journal := hjournal }
    · rename_i hslots
      refine { hok with journal := hjournal, key := fun key hkey => ?_ }
      rw [Process.key, Dispatching.key, if_neg hslots] at hkey
      cases hkey
  | _ => cases h

theorem Ok.fail {error : String} {permanent : Bool} (hok : Ok o d s (.dispatcher begunAt p))
    (h : p.fail error permanent = some p') : Ok o d s (.dispatcher begunAt p') := by
  cases p with
  | handling slot row =>
    cases h
    exact { hok with }
  | _ => cases h

end AsceticDdd.Inbox
