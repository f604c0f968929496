import AsceticDdd.Concurrency.Interleaving

/-!
# Migrations and their runners

A runner reads the ledger outside any transaction, then tries what is pending one migration at a
time, each try a transaction of its own under the component's advisory lock. Its statements write what
its `COMMIT` makes the others' to see, whether the `COMMIT` is answered or not.
-/

namespace AsceticDdd.Migrations

open Interleaving

/-- The table of the database's applied migrations. -/
def LEDGER : String := "ascetic_ddd_migrations"

structure Migration where
  id : String
  target : Option String
  sql : String
  checksum : String
deriving DecidableEq

/-- A named, ordered set of migrations, as `Component::new` admits it. -/
structure Component where
  name : String
  migrations : List Migration
  name_ne : name ≠ ""
  migrations_ne : migrations ≠ []
  id_ne : ∀ migration ∈ migrations, migration.id ≠ ""
  ids_nodup : (migrations.map (·.id)).Nodup

/-- What a run did. -/
structure Applied where
  applied : List String
  unknown : List String
deriving DecidableEq

/-- Why a run stopped. -/
inductive MigrationError
  | changed (component migration : String)
  | twoTables (component migration : String) (tables : List String)
  | blocked (component migration : String)
  | failed (component : String) (migration : Option String)
  | session
deriving DecidableEq

structure LedgerRow where
  component : String
  migration : String
  checksum : String
deriving DecidableEq

/-- What an open transaction has written: whether it created the ledger, the migrations whose SQL it ran,
and its rows. -/
structure Writes where
  created : Bool
  ran : List (String × Migration)
  rows : List LedgerRow

def Writes.empty : Writes := ⟨false, [], []⟩

/-- What is committed, the ledger in the order of its rows and the migrations whose SQL has run; what the
open transactions have written; and who holds each advisory lock. -/
structure Database where
  ledger : Option (List LedgerRow)
  ran : List (String × Migration)
  writes : Nat → Writes
  locks : String → Option Nat

namespace Database

variable (db : Database) (runner : Nat)

def rows : List LedgerRow := db.ledger.getD []

/-- The ledger as a statement of the runner's transaction reads it, and its `COMMIT` leaves it. -/
def seenBy : Option (List LedgerRow) :=
  if db.ledger.isSome || (db.writes runner).created then some (db.rows ++ (db.writes runner).rows) else none

def write (writes : Writes) : Database := { db with writes := Function.update db.writes runner writes }

/-- A transaction that is rolled back leaves nothing, and its locks go with it. -/
def rollback : Database :=
  { db.write runner .empty with locks := fun key => if db.locks key = some runner then none else db.locks key }

def commit : Database :=
  { db.rollback runner with ledger := db.seenBy runner, ran := db.ran ++ (db.writes runner).ran }

end Database

/-- The statement that a try sends next; `commit` knows whether the step ran. -/
inductive Stage
  | begin | timeout | lock | create | check | tables | target | sql | others | insert
  | commit (held : Bool)
deriving DecidableEq

/-- What one transaction of a run does: create the ledger, or try a step, `before` it and `after` it
being the component's other migrations. -/
inductive Work
  | ledger
  | step (before : List Migration) (migration : Migration) (after : List Migration)
deriving DecidableEq

inductive Phase
  | reading
  | listing
  | trying (work : Work) (stage : Stage)
  | ended (result : Except MigrationError Applied)
  | crashed

structure Runner where
  component : Component
  recorded : Option (List (String × String))
  done : Applied
  phase : Phase

inductive Action
  /-- The statement is answered, the one about locks with the other tables locked. -/
  | next (others : List String)
  /-- The statement fails, for a reason of the moment or not; the budget is spent or not. -/
  | refuse (moment spent : Bool)
  /-- The `COMMIT` is done, and its answer is lost. -/
  | lose
  | crash

/-- The text whose hash is the advisory key. -/
def Work.key (name : String) : Work → String
  | ledger => LEDGER
  | step _ _ _ => LEDGER ++ ":" ++ name

def Work.migration : Work → Option String
  | ledger => none
  | step _ migration _ => some migration.id

namespace Runner

def start (component : Component) : Runner := ⟨component, none, ⟨[], []⟩, .reading⟩

def applied (r : Runner) (id : String) : Bool :=
  (r.recorded.getD []).any fun row => row.1 = id

/-- The ledger's rows against the component's migrations: those it does not know, or the one that was
applied under another text. -/
def review (component : Component) : List (String × String) → Except MigrationError (List String)
  | [] => .ok []
  | (id, checksum) :: rest =>
    match component.migrations.find? (·.id = id) with
    | some known =>
      if known.checksum ≠ checksum then .error (.changed component.name id) else review component rest
    | none => (review component rest).map (id :: ·)

/-- The next migration that is not applied, or the end of the run. -/
def proceed (r : Runner) (before : List Migration) : List Migration → Runner
  | [] => { r with phase := .ended (.ok r.done) }
  | migration :: after =>
    if r.applied migration.id then proceed r (before ++ [migration]) after
    else { r with phase := .trying (.step before migration after) .begin }

/-- What the ledger says is pending. -/
def pending (r : Runner) (recorded : Option (List (String × String))) : Runner :=
  let r := { r with recorded := recorded }
  match review r.component (recorded.getD []) with
  | .error error => { r with phase := .ended (.error error) }
  | .ok unknown =>
    let r := { r with done := { r.done with unknown := unknown } }
    if r.component.migrations.all fun migration => r.applied migration.id then
      { r with phase := .ended (.ok r.done) }
    else { r with phase := .trying .ledger .begin }

def fail (r : Runner) (error : MigrationError) : Runner := { r with phase := .ended (.error error) }

def sends (r : Runner) (work : Work) (stage : Stage) : Runner := { r with phase := .trying work stage }

variable (db : Database) (i : Nat) (r : Runner)

/-- Another runner may have applied the migration while this one waited. -/
def check (work : Work) (migration : Migration) : Option (Database × Runner) :=
  (db.seenBy i).map fun rows =>
    match rows.find? fun row => row.component = r.component.name ∧ row.migration = migration.id with
    | none => (db, r.sends work .tables)
    | some row =>
      if row.checksum = migration.checksum then (db, r.sends work (.commit false))
      else (db.rollback i, r.fail (.changed r.component.name migration.id))

/-- The step, from its target's lock to its row in the ledger. -/
def run (work : Work) (before : List Migration) (migration : Migration) (others : List String) :
    Stage → Option (Database × Runner)
  | .tables => some (db, r.sends work (if migration.target.isSome then .target else .sql))
  | .target => some (db, r.sends work .sql)
  | .sql =>
    let writes := db.writes i
    some (db.write i { writes with ran := writes.ran ++ [(r.component.name, migration)] },
      r.sends work (if before = [] then .insert else .others))
  | .others =>
    if others = [] then some (db, r.sends work .insert)
    else some (db.rollback i, r.fail (.twoTables r.component.name migration.id others))
  | .insert => do
    let rows ← db.seenBy i
    if rows.any fun row => row.component = r.component.name ∧ row.migration = migration.id then none
    else
      let writes := db.writes i
      return (db.write i { writes with
        rows := writes.rows ++ [⟨r.component.name, migration.id, migration.checksum⟩] }, r.sends work (.commit true))
  | _ => none

/-- The run goes on after a step committed; `held` says whether it is this run that applied it. -/
def committed (before : List Migration) (migration : Migration) (after : List Migration) (held : Bool) : Runner :=
  if held then
    proceed { r with done := { r.done with applied := r.done.applied ++ [migration.id] } }
      (before ++ [migration]) after
  else r.proceed (before ++ [migration]) after

/-- A statement of a try is answered; a lock that another holds is waited for. -/
def attempt (work : Work) (others : List String) (stage : Stage) : Option (Database × Runner) :=
  match stage, work with
  | .begin, _ => some (db, r.sends work .timeout)
  | .timeout, _ => some (db, r.sends work .lock)
  | .lock, _ =>
    let key := work.key r.component.name
    if db.locks key = none ∨ db.locks key = some i then
      some ({ db with locks := Function.update db.locks key (some i) },
        r.sends work (match work with | .ledger => .create | .step _ _ _ => .check))
    else none
  | .create, .ledger =>
    some (if db.ledger.isSome then db else db.write i { db.writes i with created := true },
      r.sends work (.commit false))
  | .commit _, .ledger => some (db.commit i, r.proceed [] r.component.migrations)
  | .check, .step _ migration _ => r.check db i work migration
  | .commit held, .step before migration after => some (db.commit i, r.committed before migration after held)
  | stage, .step before migration _ => r.run db i work before migration others stage
  | _, _ => none

def next (others : List String) : Option (Database × Runner) :=
  match r.phase with
  | .reading =>
    match db.ledger with
    | none => some (db, r.pending none)
    | some _ => some (db, { r with phase := .listing })
  | .listing =>
    let rows := db.rows.filter (·.component = r.component.name)
    some (db, r.pending (some (rows.map fun row => (row.migration, row.checksum))))
  | .trying work stage => r.attempt db i work others stage
  | _ => none

/-- A try that is blocked is rolled back and tried again, until the budget is spent; a session that
cannot begin or commit is not blocked. -/
def refuse (moment spent : Bool) : Option (Database × Runner) :=
  match r.phase with
  | .reading => some (db, r.fail (.failed r.component.name none))
  | .listing => some (db, r.fail (.failed r.component.name none))
  | .trying _ .begin => some (db.rollback i, r.fail .session)
  | .trying _ (.commit _) => some (db.rollback i, r.fail .session)
  | .trying work _ =>
    if moment then
      if spent then some (db.rollback i, r.fail (.blocked r.component.name (work.migration.getD LEDGER)))
      else some (db.rollback i, r.sends work .begin)
    else some (db.rollback i, r.fail (.failed r.component.name work.migration))
  | _ => none

def step (db : Database) (i : Nat) (r : Runner) : Action → Option (Database × Runner)
  | .next others => r.next db i others
  | .refuse moment spent => r.refuse db i moment spent
  | .lose =>
    match r.phase with
    | .trying _ (.commit _) => some (db.commit i, r.fail .session)
    | _ => none
  | .crash =>
    match r.phase with
    | .ended _ => none
    | _ => some (db.rollback i, { r with phase := .crashed })

end Runner

/-- Any number of runners, each of a component. -/
def runners : Program Database Nat Runner Action := ⟨Runner.step⟩

def start (components : Nat → Component) : World Database Nat Runner :=
  ⟨⟨none, [], fun _ => .empty, fun _ => none⟩, fun i => .start (components i)⟩

end AsceticDdd.Migrations
