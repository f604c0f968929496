import AsceticDdd.Outbox.Commit

/-!
# What a step can do

Every step of a session, whatever it is at, makes one of these writes of the shared state.
-/

namespace AsceticDdd.Outbox

open Postgres

/-- The creation of a selection's position rows a process is at. -/
def Process.ensuring : Process → Option (Selection × Ensuring)
  | .dispatcher selection _ (.contacting e) => some (selection, e)
  | .producer _ (.moving selection (.ensuring _ e)) => some (selection, e)
  | _ => none

/-- The position whose row a dispatch has taken. -/
def Process.taken : Process → Option PositionKey
  | .dispatcher selection _ (.taken slot _) | .dispatcher selection _ (.snapped slot _ _)
  | .dispatcher selection _ (.ready slot _ _) | .dispatcher selection _ (.handing slot _ _ _ _) =>
    some (.of selection slot)
  | _ => none

inductive Effect (o : PgOutbox) (s : Nat) (d : Database) : Process → Act → Database → Prop
  | same {p : Process} {a : Act} : Effect o s d p a d
  | transactions {p : Process} {a : Act} {t : Transactions} (advances : d.transactions.Advances s t)
      (status : t.status = d.transactions.status) : Effect o s d p a { d with transactions := t }
  | key {p : Process} {a : Act} (key : AdvisoryLock) : Effect o s d p a { d with reclamationKey := key }
  | partitions {p : Process} {a : Act} (partitions : Nat → Option Nat) : Effect o s d p a { d with partitions }
  | refuse {p : Process} {a : Act} (reason : String) : Effect o s d p a (d.refuse reason)
  | draw {p : Process} {a : Act} {d' : Database} {position : Int} (draw : d.draw s = some (d', position)) :
      Effect o s d p a d'
  | insert {a : Act} {landings : List Nat} {message : Message} {createdAt : String} {position : Int}
      {d' : Database} (insert : d.insert o s message createdAt position = some d') :
      Effect o s d (.producer landings (.inserting message createdAt position)) a d'
  | lock {p : Process} {a : Act} {key : PositionKey} {d' : Database} {row : PositionRow}
      (lock : d.lockCell s key = some (d', row)) : Effect o s d p a d'
  | lockRefuse {p : Process} {a : Act} {key : PositionKey} {d' : Database} {row : PositionRow}
      (lock : d.lockCell s key = some (d', row)) (reason : String) : Effect o s d p a (d'.refuse reason)
  | create {p : Process} {a : Act} {selection : Selection} {slot : Nat} {start : Snapshot}
      {rest : List (Nat × Snapshot)} {d' : Database}
      (ensuring : p.ensuring = some (selection, .insert ((slot, start) :: rest)))
      (create : d.createCell s (.of selection slot) start = some d') : Effect o s d p a d'
  | advance {p : Process} {a : Act} {d' : Database} (advance : o.advance d s = some d') : Effect o s d p a d'
  | move {a : Act} {landings : List Nat} {selection : Selection} {moving : Moving}
      {key : PositionKey} {row row' : PositionRow} {d' : Database}
      (lock : d.lockCell s key = some (d', row)) :
      Effect o s d (.producer landings (.moving selection moving)) a (d.move s key row')
  | call {a : Act} {selection : Selection} {limit slot : Nat} {row : PositionRow} {epoch : Epoch}
      {batch rest : List Row} {message : Row} :
      Effect o s d (.dispatcher selection limit (.handing slot row epoch batch (message :: rest)))
        a (d.call (.of selection slot) message)
  | acknowledge {a : Act} {selection : Selection} {limit : Nat} {p : Dispatching}
      {key : PositionKey} (row : PositionRow) (taken : Process.taken (.dispatcher selection limit p) = some key) :
      Effect o s d (.dispatcher selection limit p) a (d.acknowledge key row)
  | finish {p : Process} {a : Act} (commits : Bool)
      (act : a = bif commits then .commit else .rollback) : Effect o s d p a (d.finish s commits)
  | emptied {c : Candidate} {goneBelow intactFrom : Nat} :
      Effect o s d (.reclaimer (.emptied c goneBelow intactFrom)) .commit
        (o.emptied (d.finish s true) c goneBelow intactFrom)
  | recorded {bound goneBelow intactFrom : Nat} :
      Effect o s d (.migrator (.recorded bound goneBelow intactFrom)) .commit
        { d.finish s true with
          metaRow := { d.metaRow with goneBelow := some goneBelow, intactFrom := some intactFrom }
          bounds := bound :: d.bounds }
  | copied {bound : Nat} {rows : List Row} : Effect o s d (.migrator (.copied bound rows)) .commit
      { d.finish s true with table := rows, ringMade := true }
  | resolve {xid : Nat} {commits : Bool} {t : Transactions}
      (resolve : d.transactions.resolve xid commits = some t) :
      Effect o s d .idle (.resolve xid commits) { d with transactions := t }

variable {o : PgOutbox} {d d' : Database} {s : Nat}

theorem ensurePositions_effect {p : Process} {a : Act} {selection : Selection} {e : Ensuring}
    {next : Option Ensuring} (hp : p.ensuring = some (selection, e))
    (h : o.ensurePositions d s selection e = some (d', next)) : Effect o s d p a d' := by
  cases e with
  | hold =>
    obtain ⟨key, _, heq⟩ := Option.map_eq_some_iff.mp h
    cases heq
    exact .key key
  | read =>
    obtain ⟨rows, _, heq⟩ := Option.map_eq_some_iff.mp h
    cases heq
    exact .same
  | insert rows =>
    cases rows with
    | nil =>
      cases h
      exact .same
    | cons entry rest =>
      obtain ⟨d₁, hcreate, heq⟩ := Option.map_eq_some_iff.mp h
      cases heq
      exact .create hp hcreate

theorem setPosition_effect {a : Act} {landings : List Nat} {selection : Selection} {m : Moving}
    {next : Option Moving} (h : o.setPosition d s selection m = some (d', next)) :
    Effect o s d (.producer landings (.moving selection m)) a d' := by
  cases m with
  | holding kept move read =>
    obtain ⟨key, _, heq⟩ := Option.map_eq_some_iff.mp h
    cases heq
    exact .key key
  | granted kept move read =>
    simp only [PgOutbox.setPosition] at h
    split at h
    · cases h
      cases kept with
      | true => exact .same
      | false => exact .key _
    · cases h
      exact .same
  | ensuring move e =>
    obtain ⟨⟨d₁, next⟩, hensure, heq⟩ := Option.map_eq_some_iff.mp h
    cases heq
    exact ensurePositions_effect rfl hensure
  | ensured move =>
    cases h
    exact .same
  | rows move now slots =>
    cases slots with
    | nil =>
      cases h
      exact .same
    | cons slot slots =>
      obtain ⟨⟨d₁, row⟩, hlock, h⟩ := Option.bind_eq_some_iff.mp h
      obtain ⟨row', _, h⟩ := Option.bind_eq_some_iff.mp h
      cases h
      rw [Database.lockCell_move (Database.lockCell_eq hlock)]
      exact .move hlock

theorem produce_effect {landings : List Nat} {producing : Producing} {a : Act} {p : Process}
    (h : o.produce d s landings producing a = some (d', p)) :
    Effect o s d (.producer landings producing) a d' := by
  cases producing with
  | ready =>
    cases a with
    | publish message createdAt =>
      obtain ⟨⟨d₁, position⟩, hdraw, heq⟩ := Option.map_eq_some_iff.mp h
      cases heq
      exact .draw hdraw
    | setPosition selection move =>
      cases h
      exact .same
    | commit =>
      cases h
      exact .finish true rfl
    | prepare =>
      simp only [PgOutbox.produce] at h
      split at h
      · obtain ⟨t, ht, heq⟩ := Option.map_eq_some_iff.mp h
        cases heq
        exact .transactions (Transactions.prepare_advances ht) (Transactions.prepare_eq_some ht).2.2.1
      · cases h
    | _ => cases h
  | inserting message createdAt position =>
    cases a with
    | next =>
      obtain ⟨d₁, hinsert, heq⟩ := Option.map_eq_some_iff.mp h
      cases heq
      exact .insert hinsert
    | _ => cases h
  | preparing =>
    cases a with
    | leave =>
      obtain ⟨t, ht, heq⟩ := Option.map_eq_some_iff.mp h
      cases heq
      exact .transactions (Transactions.leave_advances ht) (Transactions.leave_eq_some ht).2.2.1
    | _ => cases h
  | moving selection m =>
    cases a with
    | next =>
      obtain ⟨⟨d₁, next⟩, hset, heq⟩ := Option.map_eq_some_iff.mp h
      cases heq
      exact setPosition_effect hset
    | stop =>
      obtain ⟨d₁, hstop, heq⟩ := Option.map_eq_some_iff.mp h
      cases heq
      cases m with
      | granted kept move read =>
        cases hstop
        cases kept with
        | true => exact .same
        | false => exact .key _
      | _ => cases hstop
    | _ => cases h

theorem produce_next {landings : List Nat} {producing : Producing} {a : Act} {p : Process}
    (h : o.produce d s landings producing a = some (d', p)) :
    p = .idle ∨ ∃ landings producing, p = .producer landings producing := by
  unfold PgOutbox.produce at h
  split at h
  case h_3 =>
    cases h
    exact Or.inr ⟨_, _, rfl⟩
  case h_6 =>
    cases h
    exact Or.inl rfl
  case h_7 =>
    split at h
    · obtain ⟨_, _, heq⟩ := Option.map_eq_some_iff.mp h
      cases heq
      exact Or.inr ⟨_, _, rfl⟩
    · cases h
  case h_8 =>
    obtain ⟨_, _, heq⟩ := Option.map_eq_some_iff.mp h
    cases heq
    exact Or.inl rfl
  case h_9 => cases h
  all_goals
    obtain ⟨_, _, heq⟩ := Option.map_eq_some_iff.mp h
    cases heq
    exact Or.inr ⟨_, _, rfl⟩

theorem take_effect {p : Process} {a : Act} {selection : Selection} {again : Bool} {look : Look}
    {slot : Option Nat} {next : Dispatching}
    (h : o.take d s selection again look slot = some (d', next)) : Effect o s d p a d' := by
  have hafter : ∀ {d₁ : Database} {taken : Option (Nat × PositionRow)},
      PgOutbox.afterTake d₁ again look taken = (d', next) → d' = d₁ ∨ d' = d₁.refuse counterReset := by
    intro d₁ taken h
    unfold PgOutbox.afterTake at h
    split at h
    · cases h
      exact Or.inl rfl
    · split at h
      · cases h
        exact Or.inl rfl
      · split at h
        · cases h
          exact Or.inr rfl
        · cases taken <;> cases h <;> exact Or.inl rfl
  cases slot with
  | none =>
    rcases hafter (Option.some.inj h) with rfl | rfl
    · exact .same
    · exact .refuse _
  | some slot =>
    obtain ⟨⟨d₁, row⟩, htake, heq⟩ := Option.map_eq_some_iff.mp h
    rw [PgOutbox.takeSlot] at htake
    split at htake
    · have hlock := (Option.filter_eq_some_iff.mp htake).1
      rcases hafter heq with rfl | rfl
      · exact .lock hlock
      · exact .lockRefuse hlock _
    · cases htake

theorem dispatch_effect {a : Act} {selection : Selection} {limit : Nat} {p next : Dispatching}
    (h : o.dispatch d s selection limit p = some (d', next)) :
    Effect o s d (.dispatcher selection limit p) a d' := by
  cases p with
  | begun again =>
    cases h
    exact .same
  | named again names =>
    cases h
    exact .same
  | contacting e =>
    obtain ⟨⟨d₁, next⟩, hensure, heq⟩ := Option.map_eq_some_iff.mp h
    cases heq
    exact ensurePositions_effect rfl hensure
  | taken slot row =>
    rw [PgOutbox.dispatch] at h
    split at h
    · cases h
      exact .same
    · split at h
      · cases h
        exact .same
      · obtain ⟨epoch, _, heq⟩ := Option.map_eq_some_iff.mp h
        cases heq
        exact .same
  | snapped slot row now =>
    rw [PgOutbox.dispatch] at h
    split at h
    · cases h
      exact .same
    · cases h
      exact .acknowledge _ rfl
  | ready slot row epoch =>
    cases h
    exact .same
  | handing slot row epoch batch rest =>
    cases rest with
    | nil =>
      cases h
      exact .acknowledge _ rfl
    | cons message rest =>
      cases h
      exact .call
  | looked again look => cases h
  | done => cases h
  | refusing => cases h

theorem pass_effect {a : Act} {p next : Reclaiming} (h : o.pass d s p = some (d', next)) :
    Effect o s d (.reclaimer p) a d' := by
  cases p with
  | begun =>
    rw [PgOutbox.pass] at h
    split at h
    · cases h
      exact .key _
    · cases h
      exact .same
  | held =>
    rw [PgOutbox.pass] at h
    split at h
    · cases h
      exact .same
    · split at h
      · cases h
        exact .refuse _
      · cases h
        exact .same
  | passed c =>
    obtain ⟨d₁, hlock, heq⟩ := Option.map_eq_some_iff.mp h
    cases heq
    rw [Database.lockPartition] at hlock
    split at hlock
    · cases hlock
      exact .partitions _
    · cases hlock
  | past c =>
    obtain ⟨ids, _, heq⟩ := Option.map_eq_some_iff.mp h
    cases heq
    exact .same
  | sessions c ids =>
    obtain ⟨prepared, _, heq⟩ := Option.map_eq_some_iff.mp h
    split at heq <;> cases heq <;> exact .same
  | left c goneBelow =>
    obtain ⟨ids, _, heq⟩ := Option.map_eq_some_iff.mp h
    cases heq
    exact .same
  | leftSessions c goneBelow ids =>
    obtain ⟨prepared, _, heq⟩ := Option.map_eq_some_iff.mp h
    cases heq
    exact .same
  | checked =>
    rw [PgOutbox.pass] at h
    split at h <;> cases h <;> exact .same
  | candidate c =>
    rw [PgOutbox.pass] at h
    split at h <;> cases h <;> exact .same
  | closed c =>
    rw [PgOutbox.pass] at h
    split at h <;> cases h <;> exact .same
  | final c =>
    rw [PgOutbox.pass] at h
    split at h <;> cases h <;> exact .same
  | oldest generation oldest =>
    cases h
    exact .same
  | locked c =>
    cases h
    exact .same
  | rechecked c =>
    cases h
    exact .same
  | truncated c =>
    cases h
    exact .same
  | bounded c goneBelow =>
    cases h
    exact .same
  | opened c goneBelow =>
    cases h
    exact .same
  | emptied c goneBelow intactFrom => cases h
  | done => cases h
  | refusing => cases h

theorem migrate_effect {a : Act} {p next : Migrating} (h : o.migrate d s p = some (d', next)) :
    Effect o s d (.migrator p) a d' := by
  cases p with
  | begun =>
    obtain ⟨key, _, heq⟩ := Option.map_eq_some_iff.mp h
    cases heq
    exact .key key
  | held =>
    rw [PgOutbox.migrate] at h
    split at h <;> cases h <;> exact .same
  | locking keys =>
    cases keys with
    | nil =>
      cases h
      exact .same
    | cons key keys =>
      obtain ⟨⟨d₁, row⟩, hlock, heq⟩ := Option.map_eq_some_iff.mp h
      cases heq
      exact .lock hlock
  | locked =>
    obtain ⟨d₁, hadvance, heq⟩ := Option.map_eq_some_iff.mp h
    cases heq
    exact .advance hadvance
  | advanced =>
    cases h
    exact .same
  | read next bound rows =>
    obtain ⟨ids, _, heq⟩ := Option.map_eq_some_iff.mp h
    cases heq
    exact .same
  | sessions next bound rows =>
    obtain ⟨ids, _, heq⟩ := Option.map_eq_some_iff.mp h
    cases heq
    exact .same
  | bounded bound rows =>
    rw [PgOutbox.migrate] at h
    split at h
    · cases h
      exact .same
    · cases h
  | counted bound =>
    cases h
    exact .same
  | fixed bound =>
    rw [PgOutbox.migrate] at h
    split at h
    · cases h
      exact .same
    · split at h
      · cases h
        exact .partitions _
      · cases h
  | copying bound =>
    cases h
    exact .same
  | recorded bound goneBelow intactFrom => cases h
  | made => cases h
  | copied bound rows => cases h

theorem commit_effect {p next : Process} (h : o.commit d s p = some (d', next)) :
    Effect o s d p .commit d' := by
  unfold PgOutbox.commit at h
  split at h <;> cases h
  · exact .finish true rfl
  · exact .finish true rfl
  · exact .finish true rfl
  · exact .emptied
  · exact .finish true rfl
  · exact .recorded
  · exact .copied

theorem start_effect {a : Act} {next : Process} (h : PgOutbox.start d a = some (d', next)) :
    Effect o s d .idle a d' := by
  unfold PgOutbox.start at h
  split at h
  · cases h
    exact .same
  · cases h
    exact .same
  · cases h
    exact .same
  · cases h
    exact .same
  · cases h
    exact .same
  · obtain ⟨t, ht, heq⟩ := Option.map_eq_some_iff.mp h
    cases heq
    exact .resolve ht
  · cases h

/-- What any step writes. -/
theorem Step.effect {p next : Process} {a : Act} (h : Step o s d p a d' next) :
    Effect o s d p a d' := by
  cases h with
  | start h => exact start_effect h
  | assign _ ht =>
    exact .transactions (Transactions.assign_advances ht) (Transactions.assign_eq_some ht).2.2.1
  | release => exact .same
  | rollback => exact .finish false rfl
  | produce h => exact produce_effect h
  | take h => exact take_effect h
  | dispatch h => exact dispatch_effect h
  | stop => exact .same
  | pass h => exact pass_effect h
  | migrate h => exact migrate_effect h
  | commit h => exact commit_effect h

/-- The value a commit raises `intact_from` to. -/
def Process.raises : Process → Option Nat
  | .reclaimer (.emptied _ _ intactFrom) | .migrator (.recorded _ _ intactFrom) => some intactFrom
  | _ => none

section

variable {p : Process} {a : Act}

/-- Nothing is committed but at a commit. -/
theorem Effect.committed (h : Effect o s d p a d') {x : Nat} (hx : d'.transactions.Committed x) :
    d.transactions.Committed x ∨ a = .commit ∧ d.transactions.own s = some x ∨
      a = .resolve x true := by
  have hfinish : (d.transactions.finish s true).Committed x →
      d.transactions.Committed x ∨ d.transactions.own s = some x := fun hx =>
    (Transactions.finish_committed.mp hx).symm.imp_right And.right
  cases h with
  | transactions _ hstatus => exact Or.inl (by rwa [Transactions.Committed, hstatus] at hx)
  | draw hdraw =>
    obtain ⟨_, rfl⟩ := Database.draw_eq hdraw
    exact Or.inl hx
  | insert hinsert =>
    obtain ⟨_, _, _, rfl⟩ := Database.insert_eq hinsert
    exact Or.inl hx
  | lock hlock =>
    rw [Database.lockCell_eq hlock] at hx
    exact Or.inl hx
  | lockRefuse hlock =>
    rw [Database.lockCell_eq hlock] at hx
    exact Or.inl hx
  | create _ hcreate =>
    rcases Database.createCell_eq hcreate with rfl | ⟨_, _, rfl⟩ <;> exact Or.inl hx
  | advance hadvance =>
    rw [PgOutbox.advance_eq hadvance] at hx
    exact Or.inl hx
  | finish commits hact =>
    rcases Transactions.finish_committed.mp hx with ⟨hcommits, hown⟩ | hx
    · exact Or.inr (Or.inl ⟨by rw [hact, hcommits]; rfl, hown⟩)
    · exact Or.inl hx
  | emptied => exact (hfinish hx).imp_right fun hown => Or.inl ⟨rfl, hown⟩
  | recorded => exact (hfinish hx).imp_right fun hown => Or.inl ⟨rfl, hown⟩
  | copied => exact (hfinish hx).imp_right fun hown => Or.inl ⟨rfl, hown⟩
  | resolve hresolve =>
    rcases (Transactions.resolve_committed hresolve).mp hx with ⟨rfl, rfl⟩ | hx
    · exact Or.inr (Or.inr rfl)
    · exact Or.inl hx
  | _ => exact Or.inl hx

/-- The bound is raised by its commit alone. -/
theorem Effect.intactFrom (h : Effect o s d p a d') :
    d'.metaRow.intactFrom = d.metaRow.intactFrom ∨
      a = .commit ∧ ∃ v, p.raises = some v ∧ d'.metaRow.intactFrom = some v := by
  cases h with
  | draw hdraw =>
    obtain ⟨_, rfl⟩ := Database.draw_eq hdraw
    exact Or.inl rfl
  | insert hinsert =>
    obtain ⟨_, _, _, rfl⟩ := Database.insert_eq hinsert
    exact Or.inl rfl
  | lock hlock =>
    rw [Database.lockCell_eq hlock]
    exact Or.inl rfl
  | lockRefuse hlock =>
    rw [Database.lockCell_eq hlock]
    exact Or.inl rfl
  | create _ hcreate =>
    rcases Database.createCell_eq hcreate with rfl | ⟨_, _, rfl⟩ <;> exact Or.inl rfl
  | advance hadvance =>
    rw [PgOutbox.advance_eq hadvance]
    exact Or.inl rfl
  | emptied => exact Or.inr ⟨rfl, _, rfl, rfl⟩
  | recorded => exact Or.inr ⟨rfl, _, rfl, rfl⟩
  | _ => exact Or.inl rfl

end

theorem setCell_committed {key' : PositionKey} {c : Cell}
    (h : c.committed = (d.cells key').committed) :
    ((d.setCell key' c).cells key).committed = (d.cells key).committed := by
  by_cases hkey : key = key'
  · rw [hkey, setCell_self, h]
  · rw [setCell_of_ne hkey]

theorem finish_delivers {c : Cell} {commits : Bool} : (c.finish s commits).committed = c.committed ∨
    ∃ row, c.lock = some s ∧ c.pending = some row ∧ (c.finish s commits).committed = some row := by
  rcases Cell.finish_cases c s commits with ⟨_, heq⟩ | ⟨_, _, heq⟩ | ⟨row, hlock, _, hrow, heq⟩ <;>
    rw [heq]
  · exact Or.inl rfl
  · exact Or.inl rfl
  · exact Or.inr ⟨row, hlock, hrow, rfl⟩

/-- A position's row is what it was, or what its locker's transaction committed. -/
theorem Effect.delivers {p : Process} {a : Act} (h : Effect o s d p a d') (key : PositionKey) :
    (d'.cells key).committed = (d.cells key).committed ∨ ∃ row, (d.cells key).lock = some s ∧
      (d.cells key).pending = some row ∧ (d'.cells key).committed = some row := by
  cases h with
  | draw hdraw =>
    obtain ⟨_, rfl⟩ := Database.draw_eq hdraw
    exact Or.inl rfl
  | insert hinsert =>
    obtain ⟨_, _, _, rfl⟩ := Database.insert_eq hinsert
    exact Or.inl rfl
  | lock hlock =>
    rw [Database.lockCell_eq hlock]
    exact Or.inl (setCell_committed rfl)
  | lockRefuse hlock =>
    rw [Database.lockCell_eq hlock]
    exact Or.inl (setCell_committed rfl)
  | create _ hcreate =>
    rcases Database.createCell_eq hcreate with rfl | ⟨_, _, rfl⟩
    · exact Or.inl rfl
    · exact Or.inl (setCell_committed rfl)
  | advance hadvance =>
    rw [PgOutbox.advance_eq hadvance]
    dsimp only
    rw [PgOutbox.advanced]
    split
    · exact Or.inl rfl
    · split <;> exact Or.inl rfl
  | move => exact Or.inl (setCell_committed rfl)
  | call => exact Or.inl (setCell_committed rfl)
  | acknowledge => exact Or.inl (setCell_committed rfl)
  | finish commits => exact finish_delivers
  | emptied => exact finish_delivers
  | recorded => exact finish_delivers
  | copied => exact finish_delivers
  | _ => exact Or.inl rfl

end AsceticDdd.Outbox
