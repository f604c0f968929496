import AsceticDdd.Migrations.Runner
import Mathlib.Data.List.Infix
import Mathlib.Data.List.Nodup

/-!
# The ledger is what ran

A row is committed with its migration's SQL, by the runner that holds the component's lock; and it has
checked, under the lock, that the migration has no row. What comes before a pending migration in the
runner's list is in the ledger.
-/

namespace AsceticDdd.Migrations

open Interleaving

/-- Two prefixes of a list of ids: one has the other's ids, but not the next. -/
theorem prefix_eq {α : Type} {ids before after own : List α} {next : α} (hids : ids.Nodup)
    (hlist : before ++ next :: after <+: ids) (hsome : own <+: ids) (hbefore : ∀ id ∈ before, id ∈ own)
    (hnext : next ∉ own) : own = before := by
  have hbound : before ++ [next] <+: ids :=
    (List.prefix_append_right_inj _ |>.mpr (by simp)).trans hlist
  obtain hle | hle := List.prefix_or_prefix_of_prefix hsome hbound
  · obtain heq | hle := List.prefix_concat_iff.mp hle
    · exact absurd (heq ▸ List.mem_append_right _ List.mem_cons_self) hnext
    · refine hle.eq_of_length_le ?_
      have hnodup : before.Nodup := (hids.sublist hlist.sublist).of_append_left
      exact List.Nodup.length_le_of_subset hnodup hbefore
  · exact absurd (hle.subset (List.mem_append_right _ List.mem_cons_self)) hnext

def Migration.row (name : String) (migration : Migration) : LedgerRow := ⟨name, migration.id, migration.checksum⟩

def Component.ids (component : Component) : List String := component.migrations.map (·.id)

/-- The lock is held from its statement on. -/
def Stage.Locked : Stage → Prop
  | begin | timeout | lock => False
  | _ => True

/-- The step runs: the migration had no row. -/
def Stage.Runs : Stage → Prop
  | tables | target | sql | others | insert | commit true => True
  | _ => False

/-- What the step's transaction has written by the statement it sends next. -/
def Stage.wrote (name : String) (migration : Migration) : Stage → Writes
  | others | insert => ⟨false, [(name, migration)], []⟩
  | commit true => ⟨false, [(name, migration)], [migration.row name]⟩
  | _ => .empty

/-- The transaction that creates the ledger has written no more, and there is one once it is committed. -/
structure Stage.Creates (db : Database) (i : Nat) (stage : Stage) : Prop where
  ran : (db.writes i).ran = []
  rows : (db.writes i).rows = []
  created : (db.writes i).created → ∃ held, stage = .commit held
  there : ∀ held, stage = .commit held → db.ledger.isSome ∨ (db.writes i).created

/-- What a runner knows of the ledger, and of what its transaction has written. -/
structure Runner.Knows (db : Database) (i : Nat) (r : Runner) : Prop where
  recorded : ∀ row ∈ r.recorded.getD [], ⟨r.component.name, row.1, row.2⟩ ∈ db.rows
  reviewed : ∀ work stage, r.phase = .trying work stage → ∀ migration ∈ r.component.migrations,
    r.applied migration.id → migration.row r.component.name ∈ db.rows
  splits : ∀ before migration after stage, r.phase = .trying (.step before migration after) stage →
    db.ledger.isSome ∧ r.component.migrations = before ++ migration :: after ∧
    ∀ earlier ∈ before, earlier.row r.component.name ∈ db.rows
  locked : ∀ before migration after stage, r.phase = .trying (.step before migration after) stage →
    stage.Locked → db.locks (Work.key r.component.name (.step before migration after)) = some i
  runs : ∀ before migration after stage, r.phase = .trying (.step before migration after) stage →
    stage.Runs → ∀ row ∈ db.rows, row.component = r.component.name → row.migration ≠ migration.id
  found : ∀ before migration after, r.phase = .trying (.step before migration after) (.commit false) →
    migration.row r.component.name ∈ db.rows
  ended : ∀ done, r.phase = .ended (.ok done) →
    ∀ migration ∈ r.component.migrations, migration.row r.component.name ∈ db.rows
  wrote : ∀ before migration after stage, r.phase = .trying (.step before migration after) stage →
    db.writes i = stage.wrote r.component.name migration
  creates : ∀ stage, r.phase = .trying .ledger stage → stage.Creates db i
  idle : (∀ work stage, r.phase ≠ .trying work stage) → db.writes i = .empty

/-- What one runner's step may change of the database. -/
structure Grows (db : Database) (i : Nat) (db' : Database) : Prop where
  rows : ∀ row ∈ db.rows, row ∈ db'.rows
  ledger : db.ledger.isSome → db'.ledger.isSome
  locks : ∀ key j, j ≠ i → db.locks key = some j → db'.locks key = some j
  own : ∀ row ∈ db'.rows, row ∉ db.rows → db.locks (LEDGER ++ ":" ++ row.component) = some i
  writes : ∀ j, j ≠ i → db'.writes j = db.writes j

/-- The rows are of the migrations that ran, and a component's are a prefix of its ids. -/
structure Database.Ordered (name : String) (ids : List String) (db : Database) : Prop where
  rows_eq : db.rows = db.ran.map fun run => run.2.row run.1
  prefix_ids : (db.rows.filter (·.component = name)).map (·.migration) <+: ids

variable {db db' : Database} {i : Nat} {r r' : Runner} {name : String} {ids : List String}

namespace Database

theorem seenBy_eq (h : db.ledger.isSome ∨ (db.writes i).created) :
    db.seenBy i = some (db.rows ++ (db.writes i).rows) := by
  rw [seenBy, if_pos]
  rwa [Bool.or_eq_true]

theorem commit_rows (h : db.ledger.isSome ∨ (db.writes i).created) :
    (db.commit i).rows = db.rows ++ (db.writes i).rows := by
  change (db.seenBy i).getD [] = _
  rw [seenBy_eq h, Option.getD_some]

theorem commit_ledger (h : db.ledger.isSome ∨ (db.writes i).created) : (db.commit i).ledger.isSome := by
  change (db.seenBy i).isSome
  rw [seenBy_eq h, Option.isSome_some]

theorem rollback_writes : (db.rollback i).writes i = .empty := Function.update_self ..

theorem commit_writes : (db.commit i).writes i = .empty := Function.update_self ..

theorem write_writes {writes : Writes} : (db.write i writes).writes i = writes := Function.update_self ..

end Database

namespace Grows

theorem refl : Grows db i db :=
  ⟨fun _ h => h, fun h => h, fun _ _ _ h => h, fun _ h hnot => absurd h hnot, fun _ _ => rfl⟩

theorem write {writes : Writes} : Grows db i (db.write i writes) :=
  ⟨fun _ h => h, fun h => h, fun _ _ _ h => h, fun _ h hnot => absurd h hnot,
    fun _ hj => Function.update_of_ne hj ..⟩

theorem rollback : Grows db i (db.rollback i) where
  rows _ h := h
  ledger h := h
  locks key j hj hheld := by
    change (if db.locks key = some i then none else db.locks key) = some j
    rw [hheld, if_neg fun hi => hj (Option.some.inj hi)]
  own _ h hnot := absurd h hnot
  writes _ hj := Function.update_of_ne hj ..

/-- A commit adds its transaction's rows, under the lock of their component. -/
theorem commit (h : db.ledger.isSome ∨ (db.writes i).created)
    (hlocked : ∀ row ∈ (db.writes i).rows, db.locks (LEDGER ++ ":" ++ row.component) = some i) :
    Grows db i (db.commit i) where
  rows row hrow := by
    rw [Database.commit_rows h]
    exact List.mem_append_left _ hrow
  ledger _ := Database.commit_ledger h
  locks := Grows.rollback.locks
  own row hrow hnew := by
    rw [Database.commit_rows h] at hrow
    exact hlocked row ((List.mem_append.mp hrow).resolve_left hnew)
  writes := Grows.rollback.writes

end Grows

theorem Stage.Creates.of_empty {stage : Stage} (h : db.writes i = .empty) (hstage : ∀ held, stage ≠ .commit held) :
    stage.Creates db i := by
  refine ⟨?_, ?_, fun hcreated => ?_, fun held hheld => absurd hheld (hstage held)⟩ <;> rw [h] at *
  · rfl
  · rfl
  · cases hcreated

namespace Runner.Knows

/-- What others do to the database takes nothing back. -/
theorem stable {j : Nat} (h : Knows db j r) (hgrows : Grows db i db') (hne : i ≠ j) : Knows db' j r where
  recorded row hrow := hgrows.rows _ (h.recorded row hrow)
  reviewed work stage hphase migration hmem happlied :=
    hgrows.rows _ (h.reviewed work stage hphase migration hmem happlied)
  splits before migration after stage hphase :=
    have ⟨hledger, hsplit, hbefore⟩ := h.splits before migration after stage hphase
    ⟨hgrows.ledger hledger, hsplit, fun earlier hmem => hgrows.rows _ (hbefore earlier hmem)⟩
  locked before migration after stage hphase hlocked :=
    hgrows.locks _ j (Ne.symm hne) (h.locked before migration after stage hphase hlocked)
  runs before migration after stage hphase hruns row hrow hname := by
    by_cases hold : row ∈ db.rows
    · exact h.runs before migration after stage hphase hruns row hold hname
    · -- a new row of the component would be its lock's holder's
      have hheld := h.locked before migration after stage hphase (by cases stage <;> trivial)
      rw [Work.key, ← hname, hgrows.own row hrow hold] at hheld
      exact absurd (Option.some.inj hheld) hne
  found before migration after hphase := hgrows.rows _ (h.found before migration after hphase)
  ended done hphase migration hmem := hgrows.rows _ (h.ended done hphase migration hmem)
  wrote before migration after stage hphase :=
    (hgrows.writes j (Ne.symm hne)).trans (h.wrote before migration after stage hphase)
  creates stage hphase := by
    obtain ⟨hran, hrows, hcreated, hthere⟩ := h.creates stage hphase
    rw [← hgrows.writes j (Ne.symm hne)] at hran hrows hcreated hthere
    exact ⟨hran, hrows, hcreated, fun held hheld => (hthere held hheld).imp_left hgrows.ledger⟩
  idle hphase := (hgrows.writes j (Ne.symm hne)).trans (h.idle hphase)

theorem crashed (hrecorded : ∀ row ∈ r.recorded.getD [], ⟨r.component.name, row.1, row.2⟩ ∈ db.rows)
    (hwrites : db.writes i = .empty)
    (hphase : r.phase = .crashed ∨ r.phase = .listing ∨ ∃ error, r.phase = .ended (.error error)) :
    Knows db i r := by
  have hnot : ∀ work stage, r.phase ≠ .trying work stage := by
    intro work stage heq
    rw [heq] at hphase
    obtain hphase | hphase | ⟨_, hphase⟩ := hphase <;> cases hphase
  refine ⟨hrecorded, fun work stage h => absurd h (hnot _ _), fun _ _ _ _ h => absurd h (hnot _ _),
    fun _ _ _ _ h => absurd h (hnot _ _), fun _ _ _ _ h => absurd h (hnot _ _), fun _ _ _ h => absurd h (hnot _ _),
    fun done h => ?_, fun _ _ _ _ h => absurd h (hnot _ _), fun _ h => absurd h (hnot _ _), fun _ => hwrites⟩
  rw [h] at hphase
  obtain hphase | hphase | ⟨_, hphase⟩ := hphase <;> cases hphase

/-- A try of a step, at a stage. -/
theorem trying {before after : List Migration} {migration : Migration} {stage : Stage}
    (hrecorded : ∀ row ∈ r.recorded.getD [], ⟨r.component.name, row.1, row.2⟩ ∈ db.rows)
    (hreviewed : ∀ m ∈ r.component.migrations, r.applied m.id → m.row r.component.name ∈ db.rows)
    (hledger : db.ledger.isSome) (hsplit : r.component.migrations = before ++ migration :: after)
    (hbefore : ∀ earlier ∈ before, earlier.row r.component.name ∈ db.rows)
    (hlocked : stage.Locked →
      db.locks (Work.key r.component.name (.step before migration after)) = some i)
    (hruns : stage.Runs → ∀ row ∈ db.rows, row.component = r.component.name → row.migration ≠ migration.id)
    (hfound : stage = .commit false → migration.row r.component.name ∈ db.rows)
    (hwrote : db.writes i = stage.wrote r.component.name migration) :
    Knows db i (r.sends (.step before migration after) stage) where
  recorded := hrecorded
  reviewed work stage hphase := hreviewed
  splits before' migration' after' stage' hphase := by
    cases hphase
    exact ⟨hledger, hsplit, hbefore⟩
  locked before' migration' after' stage' hphase hlocked' := by
    cases hphase
    exact hlocked hlocked'
  runs before' migration' after' stage' hphase hruns' := by
    cases hphase
    exact hruns hruns'
  found before' migration' after' hphase := by
    cases hphase
    exact hfound rfl
  ended done hphase := by cases hphase
  wrote before' migration' after' stage' hphase := by
    cases hphase
    exact hwrote
  creates stage' hphase := by cases hphase
  idle hphase := absurd rfl (hphase _ _)

theorem ledger {stage : Stage}
    (hrecorded : ∀ row ∈ r.recorded.getD [], ⟨r.component.name, row.1, row.2⟩ ∈ db.rows)
    (hreviewed : ∀ m ∈ r.component.migrations, r.applied m.id → m.row r.component.name ∈ db.rows)
    (hcreates : stage.Creates db i) : Knows db i (r.sends .ledger stage) where
  recorded := hrecorded
  reviewed work stage hphase := hreviewed
  splits before migration after stage hphase := by cases hphase
  locked before migration after stage hphase := by cases hphase
  runs before migration after stage hphase := by cases hphase
  found before migration after hphase := by cases hphase
  ended done hphase := by cases hphase
  wrote before migration after stage hphase := by cases hphase
  creates stage hphase := by
    cases hphase
    exact hcreates
  idle hphase := absurd rfl (hphase _ _)

/-- The run goes on after what the ledger has. -/
theorem proceed {before after : List Migration}
    (hrecorded : ∀ row ∈ r.recorded.getD [], ⟨r.component.name, row.1, row.2⟩ ∈ db.rows)
    (hreviewed : ∀ m ∈ r.component.migrations, r.applied m.id → m.row r.component.name ∈ db.rows)
    (hledger : db.ledger.isSome) (hsplit : r.component.migrations = before ++ after)
    (hbefore : ∀ earlier ∈ before, earlier.row r.component.name ∈ db.rows) (hwrites : db.writes i = .empty) :
    Knows db i (r.proceed before after) := by
  induction after generalizing before with
  | nil =>
    rw [List.append_nil] at hsplit
    refine ⟨hrecorded, ?_, ?_, ?_, ?_, ?_, fun done _ migration hmem => hbefore migration (hsplit ▸ hmem), ?_, ?_,
      fun _ => hwrites⟩
    · rintro _ _ ⟨⟩
    · rintro _ _ _ _ ⟨⟩
    · rintro _ _ _ _ ⟨⟩
    · rintro _ _ _ _ ⟨⟩
    · rintro _ _ _ ⟨⟩
    · rintro _ _ _ _ ⟨⟩
    · rintro _ ⟨⟩
  | cons migration after ih =>
    rw [Runner.proceed]
    split
    · rename_i happlied
      refine ih (by rw [hsplit, List.append_assoc]; rfl) fun earlier hmem => ?_
      obtain hmem | hmem := List.mem_append.mp hmem
      · exact hbefore earlier hmem
      · rw [List.mem_singleton.mp hmem]
        exact hreviewed migration (hsplit ▸ List.mem_append_right _ List.mem_cons_self) happlied
    · exact trying hrecorded hreviewed hledger hsplit hbefore (fun h => h.elim) (fun h => h.elim)
        (by rintro ⟨⟩) hwrites

end Runner.Knows

/-- A review finds the component's migrations under its own checksums. -/
theorem review_eq_ok {component : Component} {rows : List (String × String)} {unknown : List String}
    (h : Runner.review component rows = .ok unknown) {migration : Migration} (hmem : migration ∈ component.migrations)
    (hrow : ∃ row ∈ rows, row.1 = migration.id) : (migration.id, migration.checksum) ∈ rows := by
  induction rows generalizing unknown with
  | nil =>
    obtain ⟨_, ⟨⟩, _⟩ := hrow
  | cons row rest ih =>
    obtain ⟨id, checksum⟩ := row
    rw [Runner.review] at h
    have hlater : ∀ unknown', Runner.review component rest = .ok unknown' →
        (∃ row ∈ rest, row.1 = migration.id) → (migration.id, migration.checksum) ∈ (id, checksum) :: rest :=
      fun _ hrest hin => List.mem_cons_of_mem _ (ih hrest hin)
    obtain ⟨found, hfound, hid⟩ := hrow
    obtain rfl | hfound := List.mem_cons.mp hfound
    · cases hknown : component.migrations.find? (·.id = id) with
      | none =>
        have hnot := List.find?_eq_none.mp hknown migration hmem
        exact absurd (decide_eq_true hid.symm) hnot
      | some known =>
        have hknownId : known.id = id := by simpa using List.find?_some hknown
        have hsame : known = migration := List.inj_on_of_nodup_map component.ids_nodup
          (List.mem_of_find?_eq_some hknown) hmem (hknownId.trans hid)
        rw [hknown] at h
        subst hsame
        by_cases hchecksum : known.checksum = checksum
        · rw [hchecksum, hknownId]
          exact List.mem_cons_self
        · simp [hchecksum] at h
    · split at h
      · split at h
        · cases h
        · exact hlater _ h ⟨found, hfound, hid⟩
      · cases hrest : Runner.review component rest with
        | error error =>
          rw [hrest] at h
          cases h
        | ok unknown' => exact hlater _ hrest ⟨found, hfound, hid⟩

theorem Runner.pending_knows {recorded : Option (List (String × String))}
    (hrecorded : ∀ row ∈ recorded.getD [], ⟨r.component.name, row.1, row.2⟩ ∈ db.rows)
    (hwrites : db.writes i = .empty) : Knows db i (r.pending recorded) := by
  rw [Runner.pending]
  dsimp only
  split
  · exact .crashed hrecorded hwrites (.inr (.inr ⟨_, rfl⟩))
  · rename_i unknown hreview
    have hreviewed : ∀ m ∈ r.component.migrations,
        ((recorded.getD []).any fun row => row.1 = m.id) = true → m.row r.component.name ∈ db.rows := by
      intro m hmem happlied
      rw [List.any_eq_true] at happlied
      obtain ⟨row, hrow, hid⟩ := happlied
      exact hrecorded _ (review_eq_ok hreview hmem ⟨row, hrow, by simpa using hid⟩)
    split
    · rename_i hall
      refine ⟨hrecorded, ?_, ?_, ?_, ?_, ?_,
        fun done _ m hmem => hreviewed m hmem (List.all_eq_true.mp hall m hmem), ?_, ?_, fun _ => hwrites⟩
      · rintro _ _ ⟨⟩
      · rintro _ _ _ _ ⟨⟩
      · rintro _ _ _ _ ⟨⟩
      · rintro _ _ _ _ ⟨⟩
      · rintro _ _ _ ⟨⟩
      · rintro _ _ _ _ ⟨⟩
      · rintro _ ⟨⟩
    · exact Knows.ledger (r := { r with recorded := recorded, done := { r.done with unknown := unknown } })
        hrecorded hreviewed (.of_empty hwrites nofun)

namespace Runner

/-- What a step of a runner keeps and may change, but for the commit of a step that ran. -/
structure Steps (db : Database) (i : Nat) (r : Runner) (db' : Database) (r' : Runner) : Prop where
  knows : r'.Knows db' i
  grows : Grows db i db'
  component : r'.component = r.component

variable {before after : List Migration} {migration : Migration} {stage : Stage} {work : Work}

theorem proceed_component (r : Runner) (before after : List Migration) :
    (r.proceed before after).component = r.component := by
  induction after generalizing before with
  | nil => rfl
  | cons migration after ih =>
    rw [Runner.proceed]
    split
    · exact ih _
    · rfl

theorem pending_component (r : Runner) (recorded : Option (List (String × String))) :
    (r.pending recorded).component = r.component := by
  rw [Runner.pending]
  dsimp only
  split
  · rfl
  · split
    · rfl
    · rfl

/-- A transaction that fails leaves nothing. -/
theorem fail_steps (h : r.Knows db i) (error : MigrationError) : r.Steps db i (db.rollback i) (r.fail error) :=
  ⟨.crashed h.recorded Database.rollback_writes (.inr (.inr ⟨error, rfl⟩)), .rollback, rfl⟩

/-- The statements of a step but its last. -/
theorem run_steps (h : r.Knows db i) (hphase : r.phase = .trying (.step before migration after) stage)
    (others : List String) (hruns : stage.Runs) (hnot : ∀ held, stage ≠ .commit held)
    (hrun : r.run db i (.step before migration after) before migration others stage = some (db', r')) :
    r.Steps db i db' r' ∧ db'.ledger = db.ledger ∧ db'.ran = db.ran := by
  obtain ⟨hledger, hsplit, hbefore⟩ := h.splits _ _ _ _ hphase
  have hheld := h.locked _ _ _ _ hphase (by cases stage <;> trivial)
  have hnone := h.runs _ _ _ _ hphase hruns
  have hwrote := h.wrote _ _ _ _ hphase
  have hsends : ∀ next : Stage, next.Runs → db.writes i = next.wrote r.component.name migration →
      r.Steps db i db (r.sends (.step before migration after) next) := fun next hnext hwrote =>
    ⟨.trying h.recorded (h.reviewed _ _ hphase) hledger hsplit hbefore (fun _ => hheld) (fun _ => hnone)
      (by rintro rfl; exact hnext.elim) hwrote, .refl, rfl⟩
  have hwrites : ∀ (writes : Writes) (next : Stage), next.Runs → writes = next.wrote r.component.name migration →
      r.Steps db i (db.write i writes) (r.sends (.step before migration after) next) := fun writes next hnext hwrote =>
    ⟨.trying h.recorded (h.reviewed _ _ hphase) hledger hsplit hbefore (fun _ => hheld) (fun _ => hnone)
      (by rintro rfl; exact hnext.elim) (Database.write_writes.trans hwrote), .write, rfl⟩
  cases stage with
  | tables =>
    cases hrun
    refine ⟨?_, rfl, rfl⟩
    split
    · exact hsends .target trivial hwrote
    · exact hsends .sql trivial hwrote
  | target =>
    cases hrun
    exact ⟨hsends .sql trivial hwrote, rfl, rfl⟩
  | sql =>
    cases hrun
    rw [hwrote]
    refine ⟨?_, rfl, rfl⟩
    split
    · exact hwrites _ .insert trivial rfl
    · exact hwrites _ .others trivial rfl
  | others =>
    rw [Runner.run] at hrun
    split at hrun
    · cases hrun
      exact ⟨hsends .insert trivial hwrote, rfl, rfl⟩
    · cases hrun
      exact ⟨fail_steps h _, rfl, rfl⟩
  | insert =>
    obtain ⟨rows, _, hrun⟩ := Option.bind_eq_some_iff.mp hrun
    split at hrun
    · cases hrun
    · cases hrun
      rw [hwrote]
      exact ⟨hwrites _ (.commit true) trivial rfl, rfl, rfl⟩
  | commit held => exact absurd rfl (hnot held)
  | begin | timeout | lock | create | check => exact hruns.elim

theorem check_steps (h : r.Knows db i) (hphase : r.phase = .trying (.step before migration after) .check)
    (hcheck : r.check db i (.step before migration after) migration = some (db', r')) :
    r.Steps db i db' r' ∧ db'.ledger = db.ledger ∧ db'.ran = db.ran := by
  obtain ⟨hledger, hsplit, hbefore⟩ := h.splits _ _ _ _ hphase
  have hheld := h.locked _ _ _ _ hphase trivial
  have hwrote : db.writes i = .empty := h.wrote _ _ _ _ hphase
  obtain ⟨rows, hrows, hcheck⟩ := Option.map_eq_some_iff.mp hcheck
  have hdb : db.rows = rows := by
    rw [Database.seenBy_eq (.inl hledger), hwrote] at hrows
    exact (List.append_nil _).symm.trans (Option.some.inj hrows)
  split at hcheck
  · rename_i hfind
    cases hcheck
    refine ⟨⟨.trying h.recorded (h.reviewed _ _ hphase) hledger hsplit hbefore (fun _ => hheld)
      (fun _ row hrow hname hid => ?_) (by rintro ⟨⟩) hwrote, .refl, rfl⟩, rfl, rfl⟩
    exact List.find?_eq_none.mp hfind row (hdb ▸ hrow) (decide_eq_true ⟨hname, hid⟩)
  · rename_i row hfind
    have hmatches := List.find?_some hfind
    obtain ⟨hname, hid⟩ := of_decide_eq_true hmatches
    split at hcheck
    · rename_i hchecksum
      cases hcheck
      refine ⟨⟨.trying h.recorded (h.reviewed _ _ hphase) hledger hsplit hbefore (fun _ => hheld)
        (fun hruns => hruns.elim) (fun _ => ?_) hwrote, .refl, rfl⟩, rfl, rfl⟩
      have hrow : migration.row r.component.name = row := by
        rw [Migration.row, ← hname, ← hid, ← hchecksum]
      rw [hrow, hdb]
      exact List.mem_of_find?_eq_some hfind
    · cases hcheck
      exact ⟨fail_steps h _, rfl, rfl⟩

/-- A step commits its migration, or the rows and what ran are as they were. -/
def Keeps (db : Database) (i : Nat) (r : Runner) (db' : Database) : Prop :=
  db'.rows = db.rows ∧ db'.ran = db.ran ∨
    ∃ before migration after, r.phase = .trying (.step before migration after) (.commit true) ∧ db' = db.commit i

theorem keeps_of_ledger (h : db'.ledger = db.ledger ∧ db'.ran = db.ran) : Keeps db i r db' :=
  .inl ⟨by rw [Database.rows, Database.rows, h.1], h.2⟩

/-- What a commit leaves, and that a run which goes on after it, or does not hear of it, knows of it. -/
structure Commits (db : Database) (i : Nat) (r : Runner) : Prop where
  there : (db.commit i).ledger.isSome
  rows : ∀ row ∈ db.rows, row ∈ (db.commit i).rows
  grows : Grows db i (db.commit i)
  keeps : Keeps db i r (db.commit i)

theorem commits (h : r.Knows db i) {held : Bool} (hphase : r.phase = .trying work (.commit held)) :
    Commits db i r := by
  cases work with
  | ledger =>
    obtain ⟨hran, hrows, _, hthere⟩ := h.creates _ hphase
    have hthere := hthere held rfl
    have hgrows : Grows db i (db.commit i) := by
      refine .commit hthere fun row hrow => ?_
      rw [hrows] at hrow
      cases hrow
    refine ⟨Database.commit_ledger hthere, hgrows.rows, hgrows, .inl ⟨?_, ?_⟩⟩
    · rw [Database.commit_rows hthere, hrows, List.append_nil]
    · exact (congrArg (db.ran ++ ·) hran).trans (List.append_nil _)
  | step before migration after =>
    obtain ⟨hledger, _, _⟩ := h.splits _ _ _ _ hphase
    have hwrote := h.wrote _ _ _ _ hphase
    have hheld := h.locked _ _ _ _ hphase trivial
    have hgrows : Grows db i (db.commit i) := by
      refine .commit (.inl hledger) fun row hrow => ?_
      rw [hwrote] at hrow
      cases held with
      | false => cases hrow
      | true =>
        rw [List.mem_singleton.mp hrow]
        exact hheld
    refine ⟨Database.commit_ledger (.inl hledger), hgrows.rows, hgrows, ?_⟩
    cases held with
    | false =>
      refine .inl ⟨?_, ?_⟩
      · rw [Database.commit_rows (.inl hledger), hwrote]
        exact List.append_nil _
      · exact (congrArg (fun writes : Writes => db.ran ++ writes.ran) hwrote).trans (List.append_nil _)
    | true => exact .inr ⟨before, migration, after, hphase, rfl⟩

/-- The row and the SQL of a step are committed at once, under the component's lock. -/
theorem committed_knows (h : r.Knows db i) {held : Bool}
    (hphase : r.phase = .trying (.step before migration after) (.commit held)) :
    (r.committed before migration after held).Knows (db.commit i) i := by
  obtain ⟨hledger, hsplit, hbefore⟩ := h.splits _ _ _ _ hphase
  obtain ⟨hthere, hmore, _, _⟩ := commits h hphase
  have hreviewed := h.reviewed _ _ hphase
  have hsplit' : r.component.migrations = (before ++ [migration]) ++ after := by
    rw [hsplit, List.append_assoc]
    rfl
  have hown : migration.row r.component.name ∈ (db.commit i).rows := by
    cases held with
    | false => exact hmore _ (h.found _ _ _ hphase)
    | true =>
      rw [Database.commit_rows (.inl hledger), h.wrote _ _ _ _ hphase]
      exact List.mem_append_right _ List.mem_cons_self
  have hbefore' : ∀ earlier ∈ before ++ [migration], earlier.row r.component.name ∈ (db.commit i).rows := by
    intro earlier hmem
    obtain hmem | hmem := List.mem_append.mp hmem
    · exact hmore _ (hbefore earlier hmem)
    · rw [List.mem_singleton.mp hmem]
      exact hown
  cases held with
  | false =>
    exact .proceed (fun row hrow => hmore _ (h.recorded row hrow))
      (fun m hmem happlied => hmore _ (hreviewed m hmem happlied)) hthere hsplit' hbefore' Database.commit_writes
  | true =>
    exact .proceed (r := { r with done := { r.done with applied := r.done.applied ++ [migration.id] } })
      (fun row hrow => hmore _ (h.recorded row hrow))
      (fun m hmem happlied => hmore _ (hreviewed m hmem happlied)) hthere hsplit' hbefore' Database.commit_writes

theorem committed_component {held : Bool} :
    (r.committed before migration after held).component = r.component := by
  cases held <;> exact proceed_component ..

theorem unlocked_wrote {name : String} (h : ¬ stage.Locked) : stage.wrote name migration = .empty := by
  cases stage <;> first | rfl | exact absurd trivial h

theorem sends_steps (h : r.Knows db i) (hphase : r.phase = .trying work stage) (hstage : ¬ stage.Locked)
    {next : Stage} (hnext : ¬ next.Locked) : r.Steps db i db (r.sends work next) := by
  cases work with
  | ledger =>
    obtain ⟨hran, hrows, hcreated, _⟩ := h.creates _ hphase
    refine ⟨.ledger h.recorded (h.reviewed _ _ hphase) ⟨hran, hrows, fun hmade => ?_, ?_⟩, .refl, rfl⟩
    · obtain ⟨held, rfl⟩ := hcreated hmade
      exact absurd trivial hstage
    · rintro held rfl
      exact absurd trivial hnext
  | step before migration after =>
    obtain ⟨hledger, hsplit, hbefore⟩ := h.splits _ _ _ _ hphase
    refine ⟨.trying h.recorded (h.reviewed _ _ hphase) hledger hsplit hbefore (fun hlocked => absurd hlocked hnext)
      (fun hruns => ?_) ?_ ?_, .refl, rfl⟩
    · exact absurd (by cases next <;> trivial) hnext
    · rintro rfl
      exact absurd trivial hnext
    · rw [h.wrote _ _ _ _ hphase, unlocked_wrote hstage, unlocked_wrote hnext]

/-- The lock is free, or the runner's own. -/
theorem lock_steps (h : r.Knows db i) (hphase : r.phase = .trying work .lock)
    (hfree : db.locks (work.key r.component.name) = none ∨ db.locks (work.key r.component.name) = some i)
    {next : Stage} (hruns : ¬ next.Runs) (hcommit : ∀ held, next ≠ .commit held) :
    r.Steps db i { db with locks := Function.update db.locks (work.key r.component.name) (some i) }
      (r.sends work next) := by
  have hgrows : Grows db i { db with locks := Function.update db.locks (work.key r.component.name) (some i) } := by
    refine ⟨fun _ hrow => hrow, fun hledger => hledger, fun key j hj hheld => ?_, fun _ hrow hnew => absurd hrow hnew,
      fun _ _ => rfl⟩
    by_cases hkey : key = work.key r.component.name
    · subst hkey
      rw [hheld] at hfree
      obtain hfree | hfree := hfree
      · cases hfree
      · exact absurd (Option.some.inj hfree) hj
    · exact (Function.update_of_ne hkey _ _).trans hheld
  cases work with
  | ledger =>
    obtain ⟨hran, hrows, hcreated, _⟩ := h.creates _ hphase
    refine ⟨.ledger h.recorded (h.reviewed _ _ hphase) ⟨hran, hrows, fun hmade => ?_, fun held hheld =>
      absurd hheld (hcommit held)⟩, hgrows, rfl⟩
    obtain ⟨_, hmade⟩ := hcreated hmade
    cases hmade
  | step before migration after =>
    obtain ⟨hledger, hsplit, hbefore⟩ := h.splits _ _ _ _ hphase
    have hnext : next.wrote r.component.name migration = .empty := by
      cases next with
      | commit held => exact absurd rfl (hcommit held)
      | others | insert => exact absurd trivial hruns
      | _ => rfl
    exact ⟨.trying h.recorded (h.reviewed _ _ hphase) hledger hsplit hbefore
      (fun _ => Function.update_self _ _ _) (fun h => absurd h hruns) (fun h => absurd h (hcommit false))
      ((h.wrote _ _ _ _ hphase).trans hnext.symm), hgrows, rfl⟩

/-- The ledger is there, or it is created. -/
theorem create_steps (h : r.Knows db i) (hphase : r.phase = .trying .ledger .create) :
    r.Steps db i (if db.ledger.isSome then db else db.write i { db.writes i with created := true })
      (r.sends .ledger (.commit false)) := by
  obtain ⟨hran, hrows, _, _⟩ := h.creates _ hphase
  split
  · rename_i hledger
    exact ⟨.ledger h.recorded (h.reviewed _ _ hphase) ⟨hran, hrows, fun _ => ⟨false, rfl⟩, fun _ _ => .inl hledger⟩,
      .refl, rfl⟩
  · refine ⟨.ledger h.recorded (h.reviewed _ _ hphase) ?_, .write, rfl⟩
    refine ⟨?_, ?_, fun _ => ⟨false, rfl⟩, fun _ _ => .inr ?_⟩ <;> rw [Database.write_writes]
    · exact hran
    · exact hrows

theorem attempt_steps (h : r.Knows db i) (hphase : r.phase = .trying work stage) {others : List String}
    (hattempt : r.attempt db i work others stage = some (db', r')) :
    r.Steps db i db' r' ∧ Keeps db i r db' := by
  cases stage with
  | begin =>
    cases hattempt
    exact ⟨sends_steps h hphase id id, keeps_of_ledger ⟨rfl, rfl⟩⟩
  | timeout =>
    cases hattempt
    exact ⟨sends_steps h hphase id id, keeps_of_ledger ⟨rfl, rfl⟩⟩
  | lock =>
    dsimp only [attempt] at hattempt
    split at hattempt
    · rename_i hfree
      cases hattempt
      refine ⟨lock_steps h hphase hfree ?_ ?_, keeps_of_ledger ⟨rfl, rfl⟩⟩
      · cases work <;> exact id
      · cases work <;> rintro _ ⟨⟩
    · cases hattempt
  | create =>
    cases work with
    | ledger =>
      cases hattempt
      exact ⟨create_steps h hphase, keeps_of_ledger (by split <;> exact ⟨rfl, rfl⟩)⟩
    | step before migration after => cases hattempt
  | check =>
    cases work with
    | ledger => cases hattempt
    | step before migration after =>
      obtain ⟨hsteps, hsame⟩ := check_steps h hphase hattempt
      exact ⟨hsteps, keeps_of_ledger hsame⟩
  | commit held =>
    obtain ⟨hthere, hmore, hgrows, hkeeps⟩ := commits h hphase
    cases work with
    | ledger =>
      cases hattempt
      exact ⟨⟨.proceed (fun row hrow => hmore _ (h.recorded row hrow))
        (fun m hmem happlied => hmore _ (h.reviewed _ _ hphase m hmem happlied)) hthere rfl (by rintro _ ⟨⟩)
        Database.commit_writes, hgrows, proceed_component ..⟩, hkeeps⟩
    | step before migration after =>
      cases hattempt
      exact ⟨⟨committed_knows h hphase, hgrows, committed_component⟩, hkeeps⟩
  | tables | target | sql | others | insert =>
    cases work with
    | ledger => cases hattempt
    | step before migration after =>
      obtain ⟨hsteps, hsame⟩ := run_steps h hphase others trivial (by rintro _ ⟨⟩) hattempt
      exact ⟨hsteps, keeps_of_ledger hsame⟩

theorem refuse_steps (h : r.Knows db i) {moment spent : Bool} (hrefuse : r.refuse db i moment spent = some (db', r')) :
    r.Steps db i db' r' ∧ db'.ledger = db.ledger ∧ db'.ran = db.ran := by
  have hreads : ∀ error, (∀ work stage, r.phase ≠ .trying work stage) → r.Steps db i db (r.fail error) :=
    fun error hidle => ⟨.crashed h.recorded (h.idle hidle) (.inr (.inr ⟨error, rfl⟩)), .refl, rfl⟩
  unfold refuse at hrefuse
  split at hrefuse
  · rename_i hphase
    cases hrefuse
    exact ⟨hreads _ (by rw [hphase]; rintro _ _ ⟨⟩), rfl, rfl⟩
  · rename_i hphase
    cases hrefuse
    exact ⟨hreads _ (by rw [hphase]; rintro _ _ ⟨⟩), rfl, rfl⟩
  · cases hrefuse
    exact ⟨fail_steps h _, rfl, rfl⟩
  · cases hrefuse
    exact ⟨fail_steps h _, rfl, rfl⟩
  · rename_i work stage _ _ hphase
    split at hrefuse
    · split at hrefuse
      · cases hrefuse
        exact ⟨fail_steps h _, rfl, rfl⟩
      · cases hrefuse
        refine ⟨?_, rfl, rfl⟩
        cases work with
        | ledger =>
          exact ⟨.ledger h.recorded (h.reviewed _ _ hphase) (.of_empty Database.rollback_writes nofun), .rollback, rfl⟩
        | step before migration after =>
          obtain ⟨hledger, hsplit, hbefore⟩ := h.splits _ _ _ _ hphase
          exact ⟨.trying h.recorded (h.reviewed _ _ hphase) hledger hsplit hbefore (fun hlocked => hlocked.elim)
            (fun hruns => hruns.elim) (by rintro ⟨⟩) Database.rollback_writes, .rollback, rfl⟩
    · cases hrefuse
      exact ⟨fail_steps h _, rfl, rfl⟩
  · cases hrefuse

theorem step_steps (h : r.Knows db i) {action : Action} (hstep : r.step db i action = some (db', r')) :
    r.Steps db i db' r' ∧ Keeps db i r db' := by
  cases action with
  | next others =>
    simp only [step, next] at hstep
    split at hstep
    · rename_i hphase
      have hidle := h.idle (by rw [hphase]; rintro _ _ ⟨⟩)
      split at hstep
      · cases hstep
        exact ⟨⟨pending_knows (by rintro _ ⟨⟩) hidle, .refl, pending_component ..⟩, keeps_of_ledger ⟨rfl, rfl⟩⟩
      · cases hstep
        exact ⟨⟨.crashed h.recorded hidle (.inr (.inl rfl)), .refl, rfl⟩, keeps_of_ledger ⟨rfl, rfl⟩⟩
    · rename_i hphase
      have hidle := h.idle (by rw [hphase]; rintro _ _ ⟨⟩)
      cases hstep
      refine ⟨⟨pending_knows (fun row hrow => ?_) hidle, .refl, pending_component ..⟩, keeps_of_ledger ⟨rfl, rfl⟩⟩
      obtain ⟨found, hfound, rfl⟩ := List.mem_map.mp hrow
      obtain ⟨hmem, hname⟩ := List.mem_filter.mp hfound
      rw [← of_decide_eq_true hname]
      exact hmem
    · rename_i work stage hphase
      exact attempt_steps h hphase hstep
    · cases hstep
  | refuse moment spent =>
    obtain ⟨hsteps, hsame⟩ := refuse_steps h hstep
    exact ⟨hsteps, keeps_of_ledger hsame⟩
  | lose =>
    simp only [step] at hstep
    split at hstep
    · rename_i hphase
      cases hstep
      obtain ⟨_, hmore, hgrows, hkeeps⟩ := commits h hphase
      exact ⟨⟨.crashed (fun row hrow => hmore _ (h.recorded row hrow)) Database.commit_writes (.inr (.inr ⟨_, rfl⟩)),
        hgrows, rfl⟩, hkeeps⟩
    · cases hstep
  | crash =>
    simp only [step] at hstep
    split at hstep
    · cases hstep
    · cases hstep
      exact ⟨⟨.crashed h.recorded Database.rollback_writes (.inl rfl), .rollback, rfl⟩, keeps_of_ledger ⟨rfl, rfl⟩⟩

end Runner

end AsceticDdd.Migrations
