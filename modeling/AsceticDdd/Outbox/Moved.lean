import AsceticDdd.Outbox.Reachable

/-!
# One call of `set_position`

From the grant of the reclamation's key to its return: the positions it creates, the snapshot its
update takes, and each row it moves. What the session holds meanwhile no other writes.
-/

namespace AsceticDdd.Outbox

open Postgres Interleaving

variable {o : PgOutbox} {d d' : Database} {s i : Nat} {w w' : World} {p next : Process} {a : Act}

section Locks

variable {key : PositionKey} {row : PositionRow}

theorem lockCell_free (h : d.lockCell s key = some (d', row)) :
    (d.cells key).lock = none ∨ (d.cells key).lock = some s := by
  rw [Database.lockCell] at h
  split at h
  · assumption
  · cases h

theorem ne_of_free {c : Cell} (hs : s ≠ i) (hlock : c.lock = some s) : ¬(c.lock = none ∨ c.lock = some i) := by
  rintro (hfree | hmine)
  · cases hlock.symm.trans hfree
  · exact hs (Option.some.inj (hlock.symm.trans hmine))

/-- A position another session holds is not the one it writes. -/
theorem setCell_others {key' : PositionKey} {c : Cell} (hs : s ≠ i) (hlock : (d.cells key).lock = some s)
    (hfree : (d.cells key').lock = none ∨ (d.cells key').lock = some i) :
    (d.setCell key' c).cells key = d.cells key := by
  refine setCell_of_ne ?_
  rintro rfl
  exact ne_of_free hs hlock hfree

/-- The row a dispatch has taken is locked by it. -/
def Process.Held (p : Process) (d : Database) (s : Nat) : Prop :=
  ∀ key, p.taken = some key → (d.cells key).lock = some s

/-- No session writes a position another one holds. -/
theorem Effect.others (h : Effect o i d p a d') (hheld : p.Held d i) (hs : s ≠ i)
    (hlock : (d.cells key).lock = some s) : d'.cells key = d.cells key := by
  have hfinish : ∀ commits, (d.cells key).finish i commits = d.cells key := fun commits =>
    Cell.finish_of_ne fun hmine => ne_of_free hs hlock (Or.inr hmine)
  cases h with
  | draw hdraw =>
    obtain ⟨_, rfl⟩ := Database.draw_eq hdraw
    rfl
  | insert hinsert =>
    obtain ⟨_, _, _, rfl⟩ := Database.insert_eq hinsert
    rfl
  | lock hrow =>
    rw [Database.lockCell_eq hrow]
    exact setCell_others hs hlock (lockCell_free hrow)
  | lockRefuse hrow =>
    rw [Database.lockCell_eq hrow]
    exact setCell_others hs hlock (lockCell_free hrow)
  | create _ hcreate =>
    rcases Database.createCell_eq hcreate with rfl | ⟨_, hfree, rfl⟩
    · rfl
    · exact setCell_others hs hlock (Or.inl hfree)
  | advance hadvance =>
    rw [PgOutbox.advance_eq hadvance]
    dsimp only
    rw [PgOutbox.advanced]
    split
    · rfl
    · exact if_neg fun hmine => ne_of_free hs hlock (Or.inr hmine.1)
  | move hrow => exact setCell_others hs hlock (lockCell_free hrow)
  | call => exact setCell_others hs hlock (Or.inr (hheld _ rfl))
  | acknowledge row htaken => exact setCell_others hs hlock (Or.inr (hheld _ htaken))
  | finish commits => exact hfinish commits
  | emptied => exact hfinish true
  | recorded => exact hfinish true
  | copied => exact hfinish true
  | _ => rfl

/-- A row the session is writing stays so until its transaction ends. -/
theorem Effect.writing (h : Effect o s d p a d') (hcommit : a ≠ .commit) (hrollback : a ≠ .rollback)
    (hlock : (d.cells key).lock = some s) (hpending : (d.cells key).pending.isSome) :
    (d'.cells key).lock = some s ∧ (d'.cells key).pending.isSome := by
  have hset : ∀ {key' : PositionKey} {c : Cell}, ((d.cells key').lock = some s →
      (d.cells key').pending.isSome → c.lock = some s ∧ c.pending.isSome) →
      ((d.setCell key' c).cells key).lock = some s ∧ ((d.setCell key' c).cells key).pending.isSome := by
    intro key' c hc
    by_cases hkey : key = key'
    · subst hkey
      rw [setCell_self]
      exact hc hlock hpending
    · rw [setCell_of_ne hkey]
      exact ⟨hlock, hpending⟩
  cases h with
  | draw hdraw =>
    obtain ⟨_, rfl⟩ := Database.draw_eq hdraw
    exact ⟨hlock, hpending⟩
  | insert hinsert =>
    obtain ⟨_, _, _, rfl⟩ := Database.insert_eq hinsert
    exact ⟨hlock, hpending⟩
  | lock hrow =>
    rw [Database.lockCell_eq hrow]
    exact hset fun _ hpending => ⟨rfl, hpending⟩
  | lockRefuse hrow =>
    rw [Database.lockCell_eq hrow]
    exact hset fun _ hpending => ⟨rfl, hpending⟩
  | create _ hcreate =>
    rcases Database.createCell_eq hcreate with rfl | ⟨_, _, rfl⟩
    · exact ⟨hlock, hpending⟩
    · exact hset fun _ _ => ⟨rfl, rfl⟩
  | advance hadvance =>
    rw [PgOutbox.advance_eq hadvance]
    dsimp only
    rw [PgOutbox.advanced]
    split
    · exact ⟨hlock, hpending⟩
    · split
      · exact ⟨hlock, rfl⟩
      · exact ⟨hlock, hpending⟩
  | move hrow => exact hset fun _ _ => ⟨rfl, rfl⟩
  | call => exact hset fun hlock hpending => ⟨hlock, hpending⟩
  | acknowledge row htaken => exact hset fun hlock _ => ⟨hlock, rfl⟩
  | finish commits hact =>
    cases commits with
    | true => exact absurd hact hcommit
    | false => exact absurd hact hrollback
  | emptied => exact absurd rfl hcommit
  | recorded => exact absurd rfl hcommit
  | copied => exact absurd rfl hcommit
  | _ => exact ⟨hlock, hpending⟩

theorem lockCell_self (h : d.lockCell s key = some (d', row)) : (d'.cells key).lock = some s := by
  rw [Database.lockCell_eq h, setCell_self]

theorem held_of_none (h : p.taken = none) : p.Held d s := by
  intro key htaken
  cases h.symm.trans htaken

theorem take_held {selection : Selection} {limit : Nat} {again : Bool} {look : Look} {slot : Option Nat}
    {next : Dispatching} (h : o.take d s selection again look slot = some (d', next)) :
    (Process.dispatcher selection limit next).Held d' s := by
  have hafter : ∀ {d₁ : Database} {taken : Option (Nat × PositionRow)},
      (∀ slot row, taken = some (slot, row) → (d₁.cells (.of selection slot)).lock = some s) →
      PgOutbox.afterTake d₁ again look taken = (d', next) →
      (Process.dispatcher selection limit next).Held d' s := by
    intro d₁ taken hlocked h
    unfold PgOutbox.afterTake at h
    split at h
    · cases h
      exact held_of_none rfl
    · split at h
      · cases h
        exact held_of_none rfl
      · split at h
        · cases h
          exact held_of_none rfl
        · cases taken with
          | none =>
            cases h
            exact held_of_none rfl
          | some taken =>
            cases h
            rintro key ⟨⟩
            exact hlocked _ _ rfl
  cases slot with
  | none => exact hafter (by rintro _ _ ⟨⟩) (Option.some.inj h)
  | some slot =>
    obtain ⟨⟨d₁, row⟩, htake, heq⟩ := Option.map_eq_some_iff.mp h
    refine hafter ?_ heq
    rintro _ _ ⟨⟩
    rw [PgOutbox.takeSlot] at htake
    split at htake
    · exact lockCell_self (Option.filter_eq_some_iff.mp htake).1
    · cases htake

theorem dispatch_held {selection : Selection} {limit : Nat} {p next : Dispatching}
    (h : o.dispatch d s selection limit p = some (d', next))
    (hheld : (Process.dispatcher selection limit p).Held d s) :
    (Process.dispatcher selection limit next).Held d' s := by
  cases p with
  | begun again =>
    cases h
    exact held_of_none rfl
  | named again names =>
    cases h
    exact held_of_none rfl
  | contacting e =>
    obtain ⟨⟨d₁, next⟩, _, heq⟩ := Option.map_eq_some_iff.mp h
    cases next <;> cases heq <;> exact held_of_none rfl
  | taken slot row =>
    rw [PgOutbox.dispatch] at h
    split at h
    · cases h
      exact hheld
    · split at h
      · cases h
        exact hheld
      · obtain ⟨epoch, _, heq⟩ := Option.map_eq_some_iff.mp h
        cases heq
        exact hheld
  | snapped slot row now =>
    rw [PgOutbox.dispatch] at h
    split at h
    · cases h
      exact hheld
    · cases h
      exact held_of_none rfl
  | ready slot row epoch =>
    cases h
    exact hheld
  | handing slot row epoch batch rest =>
    cases rest with
    | nil =>
      cases h
      exact held_of_none rfl
    | cons message rest =>
      cases h
      rintro key ⟨⟩
      change ((d.setCell _ _).cells _).lock = some s
      rw [setCell_self]
      exact hheld _ rfl
  | looked again look => cases h
  | done => cases h
  | refusing => cases h

theorem Step.held (h : Step o s d p a d' next) (hheld : p.Held d s) : next.Held d' s := by
  cases h with
  | start h =>
    unfold PgOutbox.start at h
    split at h
    case h_6 =>
      obtain ⟨_, _, heq⟩ := Option.map_eq_some_iff.mp h
      cases heq
      exact held_of_none rfl
    all_goals cases h <;> exact held_of_none rfl
  | assign => exact hheld
  | produce h => rcases produce_next h with rfl | ⟨_, _, rfl⟩ <;> exact held_of_none rfl
  | take h => exact take_held h
  | dispatch h => exact dispatch_held h hheld
  | commit h =>
    unfold PgOutbox.commit at h
    split at h <;> cases h <;> exact held_of_none rfl
  | _ => exact held_of_none rfl

/-- Every dispatch of the world has the row it took. -/
def AllHeld (w : World) : Prop := ∀ s, (w.procs s).Held w.shared s

theorem AllHeld.act (h : AllHeld w) (hact : o.program.act w i a = some w') : AllHeld w' := by
  obtain ⟨d, p, hstep, rfl⟩ := (o.program.act_eq_some).mp hact
  have hcases := PgOutbox.step_cases hstep
  intro s
  by_cases hs : s = i
  · subst hs
    simpa using hcases.held (h s)
  · simp only [Function.update_of_ne hs]
    intro key htaken
    have hlock := h s key htaken
    rwa [hcases.effect.others (h i) hs hlock]

theorem Resting.allHeld (h : Resting w) : AllHeld w := by
  intro s
  rcases h.procs s with ⟨hp, _⟩ | ⟨hp, _⟩ <;> rw [hp] <;> exact held_of_none rfl

theorem AllHeld.run {ok : World → Nat → Act → Prop} (h : AllHeld w) (hrun : o.program.Run ok w w') : AllHeld w' :=
  hrun.invariant (fun _ _ _ _ hv _ hact => hv.act hact) h

end Locks

section Own

variable {selection : Selection} {landings landings' : List Nat} {producing : Producing} {slot : Nat}

theorem setPosition_cells {m : Moving} {next : Option Moving}
    (h : o.setPosition d s selection m = some (d', next)) {key : PositionKey}
    (hkey : ∀ slot, key ≠ .of selection slot) : d'.cells key = d.cells key := by
  cases m with
  | holding kept move read =>
    obtain ⟨_, _, heq⟩ := Option.map_eq_some_iff.mp h
    cases heq
    rfl
  | granted kept move read =>
    simp only [PgOutbox.setPosition] at h
    split at h
    · cases h
      cases kept <;> rfl
    · cases h
      rfl
  | ensuring move e =>
    obtain ⟨⟨d₁, next⟩, hensure, heq⟩ := Option.map_eq_some_iff.mp h
    cases heq
    cases e with
    | hold =>
      obtain ⟨_, _, heq⟩ := Option.map_eq_some_iff.mp hensure
      cases heq
      rfl
    | read =>
      obtain ⟨_, _, heq⟩ := Option.map_eq_some_iff.mp hensure
      cases heq
      rfl
    | insert rows =>
      cases rows with
      | nil =>
        cases hensure
        rfl
      | cons entry rest =>
        obtain ⟨_, hcreate, heq⟩ := Option.map_eq_some_iff.mp hensure
        cases heq
        rcases Database.createCell_eq hcreate with rfl | ⟨_, _, rfl⟩
        · rfl
        · exact setCell_of_ne (hkey _)
  | ensured move =>
    cases h
    rfl
  | rows move now slots =>
    cases slots with
    | nil =>
      cases h
      rfl
    | cons slot slots =>
      obtain ⟨⟨d₁, row⟩, hlock, h⟩ := Option.bind_eq_some_iff.mp h
      obtain ⟨row', _, h⟩ := Option.bind_eq_some_iff.mp h
      cases h
      rw [Database.lockCell_move (Database.lockCell_eq hlock)]
      exact setCell_of_ne (hkey _)

/-- What a step of a session at its statements is. -/
theorem Step.producer_cases (h : Step o s d (.producer landings producing) a d' next) :
    next = .producer landings producing ∧ d'.cells = d.cells ∨ a = .rollback ∨
      o.produce d s landings producing a = some (d', next) := by
  cases h with
  | assign => exact Or.inl ⟨rfl, rfl⟩
  | rollback => exact Or.inr (Or.inl rfl)
  | produce h => exact Or.inr (Or.inr h)
  | commit h => cases h

/-- The session's transaction goes on, and lands where it has. -/
theorem produce_within (h : o.produce d s landings producing a = some (d', next)) (hproducing : producing ≠ .preparing)
    (hcommit : a ≠ .commit) (hprepare : a ≠ .prepare) : ∃ landings' producing',
      next = .producer landings' producing' ∧ producing' ≠ .preparing ∧ landings ⊆ landings' := by
  unfold PgOutbox.produce at h
  split at h
  case h_3 =>
    cases h
    exact ⟨_, _, rfl, nofun, fun _ => id⟩
  case h_5 =>
    rename_i selection m
    obtain ⟨⟨d₁, next⟩, _, heq⟩ := Option.map_eq_some_iff.mp h
    cases heq
    refine ⟨_, _, rfl, ?_, fun xid hxid => ?_⟩
    · cases next <;> exact nofun
    · unfold Moving.landings
      split
      · exact List.mem_append_right _ hxid
      · exact hxid
  case h_6 => exact absurd rfl hcommit
  case h_7 => exact absurd rfl hprepare
  case h_8 => exact absurd rfl hproducing
  case h_9 => cases h
  all_goals
    obtain ⟨_, _, heq⟩ := Option.map_eq_some_iff.mp h
    cases heq
    exact ⟨_, _, rfl, nofun, fun _ => id⟩

/-- A session is in a call on the selection once it begins it, or by the call's last statement. -/
theorem produce_moving {m' : Moving} (h : o.produce d s landings producing a = some (d', next))
    (hnext : next = .producer landings' (.moving selection m')) :
    (∃ move, a = .setPosition selection move) ∨ ∃ m, producing = .moving selection m ∧
      o.setPosition d s selection m = some (d', some m') ∧ landings' = m.landings (some m') landings := by
  subst hnext
  unfold PgOutbox.produce at h
  split at h
  case h_3 =>
    cases h
    exact Or.inl ⟨_, rfl⟩
  case h_5 =>
    rename_i selection m
    obtain ⟨⟨d₁, next⟩, hset, heq⟩ := Option.map_eq_some_iff.mp h
    cases next with
    | none => cases heq
    | some m' =>
      cases heq
      exact Or.inr ⟨m, rfl, hset, rfl⟩
  case h_6 => cases h
  case h_7 =>
    split at h
    · obtain ⟨_, _, heq⟩ := Option.map_eq_some_iff.mp h
      cases heq
    · cases h
  case h_9 => cases h
  all_goals
    obtain ⟨_, _, heq⟩ := Option.map_eq_some_iff.mp h
    cases heq

theorem Step.moving {m' : Moving} (h : Step o s d p a d' next)
    (hnext : next = .producer landings' (.moving selection m')) (hset : ∀ move, a ≠ .setPosition selection move) :
    p = next ∧ d'.cells = d.cells ∨ ∃ landings m, p = .producer landings (.moving selection m) ∧
      o.setPosition d s selection m = some (d', some m') ∧ landings' = m.landings (some m') landings := by
  cases h with
  | start h =>
    subst hnext
    unfold PgOutbox.start at h
    split at h
    case h_6 =>
      obtain ⟨_, _, heq⟩ := Option.map_eq_some_iff.mp h
      cases heq
    all_goals cases h
  | assign => exact Or.inl ⟨rfl, rfl⟩
  | produce h =>
    rcases produce_moving h hnext with ⟨move, hmove⟩ | ⟨m, rfl, hstep, hlandings⟩
    · exact absurd hmove (hset move)
    · exact Or.inr ⟨_, m, rfl, hstep, hlandings⟩
  | commit h =>
    subst hnext
    unfold PgOutbox.commit at h
    split at h <;> cases h
  | _ => cases hnext

/-- A session writes a selection's positions in its calls on it alone. -/
theorem produce_cells (h : o.produce d s landings producing a = some (d', next)) (hcommit : a ≠ .commit)
    (hother : ∀ m, producing ≠ .moving selection m) : d'.cells (.of selection slot) = d.cells (.of selection slot) := by
  unfold PgOutbox.produce at h
  split at h
  case h_1 =>
    obtain ⟨⟨d₁, position⟩, hdraw, heq⟩ := Option.map_eq_some_iff.mp h
    cases heq
    obtain ⟨_, rfl⟩ := Database.draw_eq hdraw
    rfl
  case h_2 =>
    obtain ⟨d₁, hinsert, heq⟩ := Option.map_eq_some_iff.mp h
    cases heq
    obtain ⟨_, _, _, rfl⟩ := Database.insert_eq hinsert
    rfl
  case h_3 =>
    cases h
    rfl
  case h_4 =>
    rename_i m
    obtain ⟨d₁, hstop, heq⟩ := Option.map_eq_some_iff.mp h
    cases heq
    cases m with
    | granted kept move read =>
      cases hstop
      cases kept <;> rfl
    | _ => cases hstop
  case h_5 =>
    rename_i selection' m
    obtain ⟨⟨d₁, next⟩, hset, heq⟩ := Option.map_eq_some_iff.mp h
    cases heq
    refine setPosition_cells hset fun slot' hkey => hother m ?_
    obtain ⟨hgroup, huri, _⟩ := PositionKey.mk.inj hkey
    obtain ⟨group, uri⟩ := selection
    obtain ⟨group', uri'⟩ := selection'
    cases hgroup
    cases huri
    rfl
  case h_6 => exact absurd rfl hcommit
  case h_7 =>
    split at h
    · obtain ⟨_, _, heq⟩ := Option.map_eq_some_iff.mp h
      cases heq
      rfl
    · cases h
  case h_8 =>
    obtain ⟨_, _, heq⟩ := Option.map_eq_some_iff.mp h
    cases heq
    rfl
  case h_9 => cases h

/-- What the update of one row does. -/
theorem rows_eq {move : Move} {now : Snapshot} {slots : List Nat} {m : Option Moving}
    (h : o.setPosition d s selection (.rows move now (slot :: slots)) = some (d', m)) : m = some (.rows move now slots) ∧
      ∃ before row, (d.cells (.of selection slot)).pending.or (d.cells (.of selection slot)).committed = some before ∧
        before.moved move now = some row ∧ (d'.cells (.of selection slot)).lock = some s ∧
        (d'.cells (.of selection slot)).pending = some row ∧
        ∀ slot', slot' ≠ slot → d'.cells (.of selection slot') = d.cells (.of selection slot') := by
  obtain ⟨⟨d₁, before⟩, hlock, h⟩ := Option.bind_eq_some_iff.mp h
  obtain ⟨row, hmoved, h⟩ := Option.bind_eq_some_iff.mp h
  cases h
  refine ⟨rfl, before, row, ?_, hmoved, ?_⟩
  · rw [Database.lockCell] at hlock
    split at hlock
    · obtain ⟨_, hrow, heq⟩ := Option.map_eq_some_iff.mp hlock
      cases heq
      exact hrow
    · cases hlock
  · rw [Database.lockCell_move (Database.lockCell_eq hlock), Database.move, setCell_self]
    exact ⟨rfl, rfl, fun slot' hne => setCell_of_ne fun hkey => hne (PositionKey.mk.inj hkey).2.2⟩

end Own

section Call

variable {ok : World → Nat → Act → Prop} {selection : Selection} {requested move : Move} {read : Option Nat}
variable {now : Snapshot} {slot : Nat} {v : World}

/-- A step that neither ends the session's transaction nor moves the selection in it. -/
def Stays (s : Nat) (selection : Selection) (i : Nat) (a : Act) : Prop :=
  i = s → a ≠ .commit ∧ a ≠ .rollback ∧ a ≠ .prepare ∧ ∀ move, a ≠ .setPosition selection move

/-- The steps of the runs of `ok` in which the session stays so. -/
def Keeps (ok : World → Nat → Act → Prop) (s : Nat) (selection : Selection) (w : World) (i : Nat) (a : Act) : Prop :=
  ok w i a ∧ Stays s selection i a

/-- A call of `set_position` that asked for `requested` and returned, in a transaction that moves the selection no
more: the world in which it was granted the key, `read` being the ring's bound it had read, and the one in
which its update took its snapshot, to make `move`. -/
structure SetsPosition (o : PgOutbox) (ok : World → Nat → Act → Prop) (s : Nat) (selection : Selection)
    (requested : Move) (read : Option Nat) (move : Move) (granted snapped returned : World) : Prop where
  asked : ∃ landings kept, granted.procs s = .producer landings (.moving selection (.granted kept requested read))
  ensured : ∃ landings, snapped.procs s = .producer landings (.moving selection (.ensured move))
  update : ∃ updating, o.program.Takes (Keeps ok s selection) granted returned
    snapped updating s .next
  ready : ∃ landings, returned.procs s = .producer landings .ready

/-- In the world `v` of the run, the update takes the slot's row to move it, and finds it as `before`. -/
structure TakesRow (o : PgOutbox) (ok : World → Nat → Act → Prop) (s : Nat) (selection : Selection) (move : Move)
    (now : Snapshot) (slot : Nat) (w w' v : World) (before : PositionRow) : Prop where
  row : ∃ landings slots, v.procs s = .producer landings (.moving selection (.rows move now (slot :: slots)))
  takes : ∃ v', o.program.Takes ok w w' v v' s .next
  read : (v.shared.cells (.of selection slot)).pending.or (v.shared.cells (.of selection slot)).committed = some before

theorem TakesRow.step {w'' : World} {before : PositionRow} (h : TakesRow o ok s selection move now slot w w' v before)
    (hok : ok w' i a) (hact : o.program.act w' i a = some w'') :
    TakesRow o ok s selection move now slot w w'' v before := by
  obtain ⟨v', htakes⟩ := h.takes
  exact { h with takes := ⟨v', htakes.step hok hact⟩ }

/-- The session has the slot's position before it. -/
def Database.Has (d : Database) (s : Nat) (selection : Selection) (slot : Nat) : Prop :=
  ((d.cells (.of selection slot)).seenBy s).isSome

theorem Database.has_of_committed (h : (d.cells (.of selection slot)).committed.isSome) :
    d.Has s selection slot := by
  rw [Database.Has, Cell.seenBy]
  split
  · simp [Option.isSome_or, h]
  · exact h

theorem Database.has_of_pending (hlock : (d.cells (.of selection slot)).lock = some s)
    (hpending : (d.cells (.of selection slot)).pending.isSome) : d.Has s selection slot := by
  rw [Database.Has, Cell.seenBy, if_pos hlock]
  simp [Option.isSome_or, hpending]

theorem Database.Has.cases (h : d.Has s selection slot) : (d.cells (.of selection slot)).committed.isSome ∨
    (d.cells (.of selection slot)).lock = some s ∧ (d.cells (.of selection slot)).pending.isSome := by
  rw [Database.Has, Cell.seenBy] at h
  split at h
  · rename_i hlock
    rw [Option.isSome_or, Bool.or_eq_true] at h
    exact h.symm.imp_right fun hpending => ⟨hlock, hpending⟩
  · exact Or.inl h

theorem Database.Has.step (h : d.Has s selection slot) (heffect : Effect o i d p a d') (hheld : p.Held d i)
    (hends : i = s → a ≠ .commit ∧ a ≠ .rollback) : d'.Has s selection slot := by
  rcases h.cases with hcommitted | ⟨hlock, hpending⟩
  · apply Database.has_of_committed
    rcases heffect.delivers (.of selection slot) with hsame | ⟨row, _, _, hrow⟩
    · rwa [hsame]
    · rw [hrow]
      rfl
  · by_cases hs : s = i
    · subst hs
      obtain ⟨hlock, hpending⟩ := heffect.writing (hends rfl).1 (hends rfl).2 hlock hpending
      exact Database.has_of_pending hlock hpending
    · have hsame := heffect.others hheld hs hlock
      apply Database.has_of_pending <;> rwa [hsame]

theorem createCell_has {start : Snapshot} (h : d.createCell s (.of selection slot) start = some d') :
    d'.Has s selection slot := by
  rw [Database.createCell] at h
  split at h
  · rename_i hthere
    cases h
    exact hthere.elim Database.has_of_committed fun hmine => Database.has_of_pending hmine.1 hmine.2
  · split at h
    · cases h
      apply Database.has_of_pending
      · exact congrArg Cell.lock setCell_self
      · exact congrArg (fun c => c.pending.isSome) setCell_self
    · cases h

/-- Where a granted call is before its update: the move it was allowed, and the positions it has or creates. -/
def Moving.Underway (o : PgOutbox) (requested : Move) (read : Option Nat) (s : Nat) (selection : Selection)
    (d : Database) (landings : List Nat) : Moving → Prop
  | .holding _ _ _ => False
  | .granted _ requested' read' => requested' = requested ∧ read' = read
  | .ensuring move e => requested.onRing read = some move ∧ move.landing.toList ⊆ landings ∧
      ∀ rows, e = .insert rows → ∀ slot < o.slots, (∃ start, (slot, start) ∈ rows) ∨ d.Has s selection slot
  | .ensured move => requested.onRing read = some move ∧ move.landing.toList ⊆ landings ∧
      ∀ slot < o.slots, d.Has s selection slot
  | .rows _ _ _ => True

theorem Moving.Underway.step {m m' : Moving} {landings : List Nat}
    (h : m.Underway o requested read s selection d landings) (hends : a ≠ .commit ∧ a ≠ .rollback)
    (heffect : Effect o s d p a d') (hheld : p.Held d s)
    (hset : o.setPosition d s selection m = some (d', some m')) :
    m'.Underway o requested read s selection d' (m.landings (some m') landings) := by
  have hhas : ∀ slot, d.Has s selection slot → d'.Has s selection slot := fun slot hslot =>
    hslot.step heffect hheld fun _ => hends
  cases m with
  | holding kept move read => exact h.elim
  | granted kept move read =>
    obtain ⟨rfl, rfl⟩ := h
    simp only [PgOutbox.setPosition] at hset
    split at hset
    · cases hset
    · rename_i move' hallowed
      cases hset
      exact ⟨hallowed, List.subset_append_left _ _, by rintro _ ⟨⟩⟩
  | ensuring move e =>
    obtain ⟨hallowed, hlanding, hcovers⟩ := h
    obtain ⟨⟨d₁, next⟩, hensure, heq⟩ := Option.map_eq_some_iff.mp hset
    cases e with
    | hold =>
      obtain ⟨_, _, hnext⟩ := Option.map_eq_some_iff.mp hensure
      cases hnext
      cases heq
      exact ⟨hallowed, hlanding, by rintro _ ⟨⟩⟩
    | read =>
      obtain ⟨rows, hrows, hnext⟩ := Option.map_eq_some_iff.mp hensure
      cases hnext
      cases heq
      refine ⟨hallowed, hlanding, ?_⟩
      rintro _ ⟨⟩ slot hslot
      obtain ⟨entry, hentry, hstart⟩ := (mapM_spec hrows).2 slot (List.mem_range.mpr hslot)
      obtain ⟨start, _, rfl⟩ := Option.map_eq_some_iff.mp hstart
      exact Or.inl ⟨start, hentry⟩
    | insert rows =>
      cases rows with
      | nil =>
        cases hensure
        cases heq
        exact ⟨hallowed, hlanding, fun slot hslot => (hcovers [] rfl slot hslot).resolve_left (by simp)⟩
      | cons entry rest =>
        obtain ⟨d₁, hcreate, hnext⟩ := Option.map_eq_some_iff.mp hensure
        cases hnext
        cases heq
        refine ⟨hallowed, hlanding, ?_⟩
        rintro _ ⟨⟩ slot hslot
        rcases hcovers _ rfl slot hslot with ⟨start, hstart⟩ | hslot
        · rcases List.mem_cons.mp hstart with heq | hrest
          · subst heq
            exact Or.inr (createCell_has hcreate)
          · exact Or.inl ⟨start, hrest⟩
        · exact Or.inr (hhas slot hslot)
  | ensured move =>
    cases hset
    trivial
  | rows move now slots =>
    cases slots with
    | nil => cases hset
    | cons slot slots =>
      obtain ⟨heq, _⟩ := rows_eq hset
      cases heq
      trivial

theorem Moving.Underway.stable {m : Moving} {landings : List Nat}
    (h : m.Underway o requested read s selection d landings)
    (hhas : ∀ slot, d.Has s selection slot → d'.Has s selection slot) :
    m.Underway o requested read s selection d' landings := by
  cases m with
  | holding kept move read => exact h
  | granted kept move read => exact h
  | ensuring move e =>
    obtain ⟨hallowed, hlanding, hcovers⟩ := h
    exact ⟨hallowed, hlanding, fun rows he slot hslot => (hcovers rows he slot hslot).imp_right (hhas slot)⟩
  | ensured move =>
    obtain ⟨hallowed, hlanding, hall⟩ := h
    exact ⟨hallowed, hlanding, fun slot hslot => hhas slot (hall slot hslot)⟩
  | rows move now slots => trivial

/-- Every call on the selection the session is in is the one granted. -/
def Underway (o : PgOutbox) (requested : Move) (read : Option Nat) (s : Nat) (selection : Selection) (w : World) : Prop :=
  ∀ landings m, w.procs s = .producer landings (.moving selection m) →
    m.Underway o requested read s selection w.shared landings

theorem Underway.act (h : Underway o requested read s selection w) (hheld : AllHeld w) (hkeeps : Stays s selection i a)
    (hact : o.program.act w i a = some w') : Underway o requested read s selection w' := by
  obtain ⟨d, p, hstep, rfl⟩ := (o.program.act_eq_some).mp hact
  have hcases := PgOutbox.step_cases hstep
  have hhas : ∀ slot, w.shared.Has s selection slot → d.Has s selection slot := fun slot hslot =>
    hslot.step hcases.effect (hheld i) fun hi => ⟨(hkeeps hi).1, (hkeeps hi).2.1⟩
  intro landings m hp
  by_cases hi : s = i
  · subst hi
    obtain ⟨hcommit, hrollback, _, hset⟩ := hkeeps rfl
    simp only [Function.update_self] at hp
    rcases hcases.moving hp hset with ⟨hsame, _⟩ | ⟨landings₀, m₀, hbefore, hstep, rfl⟩
    · exact (h landings m (hsame.trans hp)).stable hhas
    · exact (h landings₀ m₀ hbefore).step ⟨hcommit, hrollback⟩ hcases.effect (hheld s) hstep
  · simp only [Function.update_of_ne hi] at hp
    exact (h landings m hp).stable hhas

/-- The update took the slot's position in the run, and its new row waits for the commit. -/
def IsMoved (o : PgOutbox) (ok : World → Nat → Act → Prop) (s : Nat) (selection : Selection) (move : Move)
    (now : Snapshot) (w w' : World) (slot : Nat) : Prop :=
  ∃ v before row, TakesRow o ok s selection move now slot w w' v before ∧ before.moved move now = some row ∧
    (w'.shared.cells (.of selection slot)).lock = some s ∧ (w'.shared.cells (.of selection slot)).pending = some row

theorem IsMoved.step {w'' : World} (h : IsMoved o ok s selection move now w w' slot) (hok : ok w' i a)
    (hact : o.program.act w' i a = some w'')
    (hsame : w''.shared.cells (.of selection slot) = w'.shared.cells (.of selection slot)) :
    IsMoved o ok s selection move now w w'' slot := by
  obtain ⟨v, before, row, htakes, hmoved, hlock, hpending⟩ := h
  exact ⟨v, before, row, htakes.step hok hact, hmoved, hsame ▸ hlock, hsame ▸ hpending⟩

/-- A call from its update on: each position is moved, or still to be. -/
structure Updates (o : PgOutbox) (ok : World → Nat → Act → Prop) (s : Nat) (selection : Selection) (move : Move)
    (now : Snapshot) (w w' : World) : Prop where
  within : ∃ landings producing, w'.procs s = .producer landings producing ∧ producing ≠ .preparing ∧
    move.landing.toList ⊆ landings
  rows : ∀ landings m, w'.procs s = .producer landings (.moving selection m) → ∃ slots, m = .rows move now slots
  moved : ∀ slot < o.slots, (∃ landings slots, w'.procs s =
    .producer landings (.moving selection (.rows move now slots)) ∧ slot ∈ slots) ∨
      IsMoved o ok s selection move now w w' slot

/-- The statement that updates a row moves its position, and no other. -/
theorem Updates.row {landings landings' : List Nat} {slots : List Nat} {producing : Producing}
    (h : Updates o ok s selection move now w w') (hrun : o.program.Run ok w w') (hok : ok w' s a)
    (hact : o.program.act w' s a = some ⟨d, Function.update w'.procs s (.producer landings' producing)⟩)
    (hp : w'.procs s = .producer landings (.moving selection (.rows move now slots)))
    (hproduce : o.produce w'.shared s landings (.moving selection (.rows move now slots)) a =
      some (d, .producer landings' producing))
    (hwithin : producing ≠ .preparing ∧ move.landing.toList ⊆ landings') :
    Updates o ok s selection move now w ⟨d, Function.update w'.procs s (.producer landings' producing)⟩ := by
  have hnow : (⟨d, Function.update w'.procs s (.producer landings' producing)⟩ : World).procs s =
      .producer landings' producing := Function.update_self ..
  have hnext : a = .next := by
    cases a with
    | next => rfl
    | _ => cases hproduce
  subst hnext
  obtain ⟨⟨d₁, m⟩, hset, heq⟩ := Option.map_eq_some_iff.mp hproduce
  cases slots with
  | nil =>
    cases hset
    cases heq
    refine ⟨⟨_, _, hnow, hwithin⟩, fun _ _ hm => ?_, fun slot hslot => ?_⟩
    · cases hnow.symm.trans hm
    · rcases h.moved slot hslot with ⟨_, slots, hrows, hin⟩ | hmoved
      · cases hp.symm.trans hrows
        cases hin
      · exact Or.inr (hmoved.step hok hact rfl)
  | cons slot₀ rest =>
    obtain ⟨rfl, before, row, hread, hmoved, hlock, hpending, hothers⟩ := rows_eq hset
    cases heq
    refine ⟨⟨_, _, hnow, hwithin⟩, fun _ _ hm => ?_, fun slot hslot => ?_⟩
    · cases hnow.symm.trans hm
      exact ⟨rest, rfl⟩
    · by_cases hsame : slot = slot₀
      · subst hsame
        exact Or.inr ⟨w', before, row, ⟨⟨landings, rest, hp⟩, ⟨_, hrun, hok, hact, .refl _⟩, hread⟩, hmoved,
          hlock, hpending⟩
      · rcases h.moved slot hslot with ⟨_, slots, hrows, hin⟩ | hmoved
        · cases hp.symm.trans hrows
          exact Or.inl ⟨_, rest, hnow, (List.mem_cons.mp hin).resolve_left hsame⟩
        · exact Or.inr (hmoved.step hok hact (hothers slot hsame))

theorem Updates.own {w'' : World} (h : Updates o ok s selection move now w w') (hrun : o.program.Run ok w w')
    (hok : ok w' s a) (hkeeps : Stays s selection s a) (hact : o.program.act w' s a = some w'') :
    Updates o ok s selection move now w w'' := by
  obtain ⟨hcommit, hrollback, hprepare, hset⟩ := hkeeps rfl
  obtain ⟨landings, producing, hp, hproducing, hlanding⟩ := h.within
  obtain ⟨d, p, hstep, rfl⟩ := (o.program.act_eq_some).mp hact
  have hcases := PgOutbox.step_cases hstep
  rw [hp] at hcases
  rcases hcases.producer_cases with ⟨rfl, hcells⟩ | hends | hproduce
  · have hsame : Function.update w'.procs s (.producer landings producing) = w'.procs := by
      rw [← hp, Function.update_eq_self]
    rw [hsame] at hact ⊢
    exact ⟨⟨landings, producing, hp, hproducing, hlanding⟩, h.rows, fun slot hslot =>
      (h.moved slot hslot).imp_right fun hmoved => hmoved.step hok hact (congrFun hcells _)⟩
  · exact absurd hends hrollback
  · obtain ⟨landings', producing', rfl, hproducing', hsub⟩ := produce_within hproduce hproducing hcommit hprepare
    have hwithin := List.Subset.trans hlanding hsub
    by_cases hmoving : ∃ m, producing = .moving selection m
    · obtain ⟨m, rfl⟩ := hmoving
      obtain ⟨slots, rfl⟩ := h.rows _ _ hp
      exact h.row hrun hok hact hp hproduce ⟨hproducing', hwithin⟩
    · have hother : ∀ m, producing ≠ .moving selection m := fun m hm => hmoving ⟨m, hm⟩
      refine ⟨⟨landings', producing', Function.update_self .., hproducing', hwithin⟩, ?_, ?_⟩
      · intro landings'' m hm
        replace hm := (Function.update_self ..).symm.trans hm
        rcases produce_moving hproduce hm with ⟨move, hmove⟩ | ⟨m, hm, _⟩
        · exact absurd hmove (hset move)
        · exact absurd hm (hother m)
      · intro slot hslot
        rcases h.moved slot hslot with ⟨landings'', slots, hrows, _⟩ | hmoved
        · rw [hp] at hrows
          cases hrows
          exact absurd rfl (hother _)
        · exact Or.inr (hmoved.step hok hact (produce_cells hproduce hcommit hother))

theorem Updates.act {w'' : World} (h : Updates o ok s selection move now w w') (hrun : o.program.Run ok w w')
    (hok : ok w' i a) (hkeeps : Stays s selection i a) (hheld : AllHeld w')
    (hact : o.program.act w' i a = some w'') : Updates o ok s selection move now w w'' := by
  by_cases hi : s = i
  · subst hi
    exact h.own hrun hok hkeeps hact
  · obtain ⟨d, p, hstep, rfl⟩ := (o.program.act_eq_some).mp hact
    have hcases := PgOutbox.step_cases hstep
    have hsame : (⟨d, Function.update w'.procs i p⟩ : World).procs s = w'.procs s := Function.update_of_ne hi ..
    refine ⟨hsame ▸ h.within, hsame ▸ h.rows, fun slot hslot => ?_⟩
    rw [hsame]
    refine (h.moved slot hslot).imp_right fun hmoved => hmoved.step hok hact ?_
    obtain ⟨_, _, _, _, _, hlock, _⟩ := hmoved
    exact hcases.effect.others (hheld i) hi hlock

/-- A call that returned made the move its bound allowed, of every slot's position. -/
theorem SetsPosition.moved {granted snapped returned : World} (hheld : AllHeld granted)
    (h : SetsPosition o ok s selection requested read move granted snapped returned) :
    requested.onRing read = some move ∧
      (∃ landings, returned.procs s = .producer landings .ready ∧ move.landing.toList ⊆ landings) ∧
      ∀ slot < o.slots, IsMoved o (Keeps ok s selection) s selection move
        (snapped.shared.snapshot s) snapped returned slot := by
  obtain ⟨⟨landings₀, kept, hgranted⟩, ⟨landings, hsnapped⟩, ⟨updating, hupdate⟩, ⟨landings', hready⟩⟩ := h
  have hunderway : Underway o requested read s selection snapped := by
    refine (hupdate.before.invariant (I := fun v => AllHeld v ∧ Underway o requested read s selection v) ?_ ?_).2
    · rintro v i a v' ⟨hheld, hunderway⟩ ⟨_, hkeeps⟩ hact
      exact ⟨hheld.act hact, hunderway.act hheld hkeeps hact⟩
    · refine ⟨hheld, fun _ _ hp => ?_⟩
      cases hgranted.symm.trans hp
      exact ⟨rfl, rfl⟩
  obtain ⟨hallowed, hlanding, hhas⟩ := hunderway _ _ hsnapped
  obtain ⟨d, p, hstep, heq⟩ := (o.program.act_eq_some).mp hupdate.act
  have hbegins : Updates o (Keeps ok s selection) s selection move
      (snapped.shared.snapshot s) snapped updating := by
    rw [hsnapped] at hstep
    cases hstep
    have hnow : updating.procs s = .producer landings (.moving selection (.rows move (snapped.shared.snapshot s)
        ((List.range o.slots).filter fun slot => ((snapped.shared.cells (.of selection slot)).seenBy s).isSome))) := by
      rw [heq]
      exact Function.update_self ..
    refine ⟨⟨_, _, hnow, nofun, hlanding⟩, fun _ _ hm => ?_, fun slot hslot => ?_⟩
    · cases hnow.symm.trans hm
      exact ⟨_, rfl⟩
    · exact Or.inl ⟨_, _, hnow, List.mem_filter.mpr ⟨List.mem_range.mpr hslot, hhas slot hslot⟩⟩
  have hheld' : AllHeld updating := ((hheld.run hupdate.before).act hupdate.act)
  have hends : o.program.Run (Keeps ok s selection) snapped returned ∧ AllHeld returned ∧
      Updates o (Keeps ok s selection) s selection move (snapped.shared.snapshot s)
        snapped returned := by
    refine hupdate.after.invariant (I := fun v => o.program.Run (Keeps ok s selection)
      snapped v ∧ AllHeld v ∧ Updates o (Keeps ok s selection) s selection move
        (snapped.shared.snapshot s) snapped v) ?_ ⟨(Program.Run.refl _).step hupdate.allowed hupdate.act, hheld', hbegins⟩
    rintro v i a v' ⟨hrun, hheld, hupdates⟩ hok hact
    exact ⟨hrun.step hok hact, hheld.act hact, hupdates.act hrun hok hok.2 hheld hact⟩
  obtain ⟨_, _, hdone⟩ := hends
  refine ⟨hallowed, ⟨landings', hready, ?_⟩, fun slot hslot => ?_⟩
  · obtain ⟨_, _, hp, _, hlanding⟩ := hdone.within
    cases hready.symm.trans hp
    exact hlanding
  · refine (hdone.moved slot hslot).resolve_left ?_
    rintro ⟨_, _, hrows, _⟩
    cases hready.symm.trans hrows

theorem commit_eq {landings : List Nat} (hready : w.procs s = .producer landings .ready)
    (hact : o.program.act w s .commit = some w') : w'.shared = w.shared.finish s true := by
  obtain ⟨d, p, hstep, rfl⟩ := (o.program.act_eq_some).mp hact
  rw [hready] at hstep
  cases hstep
  rfl

theorem finish_pending {key : PositionKey} {row : PositionRow} (hlock : (d.cells key).lock = some s)
    (hpending : (d.cells key).pending = some row) : (d.finish s true).cells key =
      ⟨some row, none, none, (d.cells key).beganNext, (d.cells key).handedNext, none, [], []⟩ := by
  change (d.cells key).finish s true = _
  unfold Cell.finish
  rw [if_pos hlock, hpending]

end Call

end AsceticDdd.Outbox
