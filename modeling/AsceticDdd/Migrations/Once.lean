import AsceticDdd.Migrations.Ledger

/-!
# Migrations run once, in order, whole

Any number of runners of a component, or of an older prefix of it, among runners of other components.
-/

namespace AsceticDdd.Migrations

open Interleaving Runner

variable {db db' : Database} {i : Nat} {r r' : Runner} {name : String} {ids : List String}

theorem Database.Ordered.ids_filter (h : db.Ordered name ids) :
    (db.rows.filter (·.component = name)).map (·.migration) =
      (db.ran.filter (·.1 = name)).map fun run => run.2.id := by
  rw [h.rows_eq, List.filter_map, List.map_map]
  rfl

/-- The migration committed is the next one of the list. -/
theorem Database.Ordered.commit (h : db.Ordered name ids) (hids : ids.Nodup) (hknows : r.Knows db i)
    (hinitial : r.component.name = name → r.component.ids <+: ids)
    {before after : List Migration} {migration : Migration}
    (hphase : r.phase = .trying (.step before migration after) (.commit true)) : (db.commit i).Ordered name ids := by
  obtain ⟨hledger, hsplit, hbefore⟩ := hknows.splits _ _ _ _ hphase
  have hwrote := hknows.wrote _ _ _ _ hphase
  have hrows : (db.commit i).rows = db.rows ++ [migration.row r.component.name] := by
    rw [Database.commit_rows (.inl hledger), hwrote]
    rfl
  have hran : (db.commit i).ran = db.ran ++ [(r.component.name, migration)] :=
    congrArg (fun writes : Writes => db.ran ++ writes.ran) hwrote
  refine ⟨?_, ?_⟩
  · rw [hrows, hran, h.rows_eq, List.map_append]
    rfl
  rw [hrows, List.filter_append, List.map_append]
  by_cases hname : r.component.name = name
  · have hown : ((db.rows.filter (·.component = name)).map (·.migration)) = before.map (·.id) := by
      refine @prefix_eq _ _ _ (after.map (·.id)) _ migration.id hids ?_ h.prefix_ids ?_ ?_
      · have hlist := hinitial hname
        rwa [Component.ids, hsplit, List.map_append, List.map_cons] at hlist
      · intro id hid
        obtain ⟨earlier, hmem, rfl⟩ := List.mem_map.mp hid
        exact List.mem_map.mpr ⟨_, List.mem_filter.mpr ⟨hbefore earlier hmem, decide_eq_true hname⟩, rfl⟩
      · intro hin
        obtain ⟨row, hrow, hid⟩ := List.mem_map.mp hin
        obtain ⟨hrow, hrowName⟩ := List.mem_filter.mp hrow
        exact hknows.runs _ _ _ _ hphase trivial row hrow ((of_decide_eq_true hrowName).trans hname.symm) hid
    have hlist := hinitial hname
    rw [Component.ids, hsplit, List.map_append, List.map_cons] at hlist
    have hlast : ([migration.row r.component.name].filter (·.component = name)).map (·.migration) = [migration.id] := by
      simp [Migration.row, hname]
    rw [hown, hlast]
    exact ((List.prefix_append_right_inj _).mpr (by simp)).trans hlist
  · have hnone : [migration.row r.component.name].filter (·.component = name) = [] := by
      simp [Migration.row, hname]
    rw [hnone, List.map_nil, List.append_nil]
    exact h.prefix_ids

theorem Database.Ordered.keeps (h : db.Ordered name ids) (hids : ids.Nodup) (hknows : r.Knows db i)
    (hinitial : r.component.name = name → r.component.ids <+: ids) (hkeeps : Keeps db i r db') :
    db'.Ordered name ids := by
  obtain ⟨hrows, hran⟩ | ⟨before, migration, after, hphase, rfl⟩ := hkeeps
  · refine ⟨?_, ?_⟩
    · rw [hrows, hran]
      exact h.rows_eq
    · rw [hrows]
      exact h.prefix_ids
  · exact h.commit hids hknows hinitial hphase

/-- Whether the statement that the runner sent is done, answered or not. -/
def Action.Does : Action → Prop
  | .next _ | .lose => True
  | .refuse _ _ | .crash => False

/-- Only a `COMMIT` that is done changes what is committed. -/
theorem step_frame (h : r.Knows db i) {action : Action} (hstep : r.step db i action = some (db', r'))
    (hnot : action.Does → ∀ work held, r.phase ≠ .trying work (.commit held)) :
    db'.ledger = db.ledger ∧ db'.ran = db.ran := by
  cases action with
  | next others =>
    simp only [step, next] at hstep
    split at hstep
    · split at hstep
      · cases hstep
        exact ⟨rfl, rfl⟩
      · cases hstep
        exact ⟨rfl, rfl⟩
    · cases hstep
      exact ⟨rfl, rfl⟩
    · rename_i work stage hphase
      cases stage with
      | commit held => exact absurd hphase (hnot trivial work held)
      | begin | timeout =>
        cases hstep
        exact ⟨rfl, rfl⟩
      | lock =>
        dsimp only [attempt] at hstep
        split at hstep
        · cases hstep
          exact ⟨rfl, rfl⟩
        · cases hstep
      | create =>
        cases work with
        | ledger =>
          cases hstep
          split <;> exact ⟨rfl, rfl⟩
        | step before migration after => cases hstep
      | check =>
        cases work with
        | ledger => cases hstep
        | step before migration after => exact (check_steps h hphase hstep).2
      | tables | target | sql | others | insert =>
        cases work with
        | ledger => cases hstep
        | step before migration after => exact (run_steps h hphase others trivial (by rintro _ ⟨⟩) hstep).2
    · cases hstep
  | refuse moment spent => exact (refuse_steps h hstep).2
  | lose =>
    simp only [step] at hstep
    split at hstep
    · rename_i work held hphase
      exact absurd hphase (hnot trivial work held)
    · cases hstep
  | crash =>
    simp only [step] at hstep
    split at hstep
    · cases hstep
    · cases hstep
      exact ⟨rfl, rfl⟩

/-- Outside its tries, and before each, a runner has written nothing that is not committed. -/
theorem Runner.Knows.writes_empty (h : r.Knows db i)
    (hphase : (∀ work stage, r.phase ≠ .trying work stage) ∨ ∃ work, r.phase = .trying work .begin) :
    db.writes i = .empty := by
  obtain hidle | ⟨work, hbegin⟩ := hphase
  · exact h.idle hidle
  · cases work with
    | ledger =>
      obtain ⟨hran, hrows, hcreated, _⟩ := h.creates _ hbegin
      cases hwrites : db.writes i with
      | mk created ran rows =>
        rw [hwrites] at hran hrows hcreated
        obtain rfl : ran = [] := hran
        obtain rfl : rows = [] := hrows
        cases created with
        | false => rfl
        | true =>
          obtain ⟨_, hcommit⟩ := hcreated rfl
          cases hcommit
    | step before migration after => exact h.wrote _ _ _ _ hbegin

/-- What holds of every world reached. -/
structure Reached (components : Nat → Component) (name : String) (ids : List String)
    (w : World Database Nat Runner) : Prop where
  component : ∀ i, (w.procs i).component = components i
  knows : ∀ i, (w.procs i).Knows w.shared i
  ordered : w.shared.Ordered name ids

section

variable {components : Nat → Component} {w w' : World Database Nat Runner} {action : Action}

theorem Reached.act (h : Reached components name ids w) (hids : ids.Nodup)
    (hinitial : ∀ i, (components i).name = name → (components i).ids <+: ids)
    (hact : runners.act w i action = some w') : Reached components name ids w' := by
  obtain ⟨db', r', hstep, rfl⟩ := (Program.act_eq_some _).mp hact
  obtain ⟨hsteps, hkeeps⟩ := step_steps (h.knows i) hstep
  refine ⟨fun j => ?_, fun j => ?_, ?_⟩
  · by_cases hj : j = i
    · subst hj
      simpa using hsteps.component.trans (h.component j)
    · simpa [hj] using h.component j
  · by_cases hj : j = i
    · subst hj
      simpa using hsteps.knows
    · simpa [hj] using (h.knows j).stable hsteps.grows (Ne.symm hj)
  · refine h.ordered.keeps hids (h.knows i) (fun hname => ?_) hkeeps
    rw [h.component i] at hname ⊢
    exact hinitial i hname

theorem Reached.start : Reached components name ids (Migrations.start components) where
  component _ := rfl
  knows _ :=
    { recorded := by rintro _ ⟨⟩
      reviewed := by rintro _ _ ⟨⟩
      splits := by rintro _ _ _ _ ⟨⟩
      locked := by rintro _ _ _ _ ⟨⟩
      runs := by rintro _ _ _ _ ⟨⟩
      found := by rintro _ _ _ ⟨⟩
      ended := by rintro _ ⟨⟩
      wrote := by rintro _ _ _ _ ⟨⟩
      creates := by rintro _ ⟨⟩
      idle := fun _ => rfl }
  ordered := ⟨rfl, List.nil_prefix⟩

theorem Reached.run (hids : ids.Nodup)
    (hinitial : ∀ i, (components i).name = name → (components i).ids <+: ids)
    (hrun : runners.Run (fun _ _ _ => True) (Migrations.start components) w) :
    Reached components name ids w :=
  hrun.invariant (fun _ _ _ _ h _ hact => h.act hids hinitial hact) .start

/-- A component's rows differ in their ids. -/
theorem Reached.row_eq (h : Reached components name ids w) (hids : ids.Nodup) {row row' : LedgerRow}
    (hrow : row ∈ w.shared.rows) (hrow' : row' ∈ w.shared.rows) (hname : row.component = name)
    (hname' : row'.component = name) (hid : row.migration = row'.migration) : row = row' := by
  have hnodup := hids.sublist h.ordered.prefix_ids.sublist
  exact List.inj_on_of_nodup_map hnodup (List.mem_filter.mpr ⟨hrow, decide_eq_true hname⟩)
    (List.mem_filter.mpr ⟨hrow', decide_eq_true hname'⟩) hid

/-- A check of a migration that is recorded under another text refuses it. -/
theorem Reached.check_refuses (h : Reached components name ids w) (hids : ids.Nodup)
    {before after : List Migration} {migration : Migration}
    (hphase : (w.procs i).phase = .trying (.step before migration after) .check)
    (hname : (components i).name = name) {row : LedgerRow} (hrow : row ∈ w.shared.rows)
    (hrowName : row.component = name) (hid : row.migration = migration.id)
    (hchecksum : row.checksum ≠ migration.checksum) {others : List String}
    (hstep : (w.procs i).step w.shared i (.next others) = some (db', r')) :
    r'.phase = .ended (.error (.changed name migration.id)) := by
  have hown : (w.procs i).component.name = name := by rw [h.component i, hname]
  simp only [step, next, hphase, attempt, check] at hstep
  obtain ⟨rows, hrows, hstep⟩ := Option.map_eq_some_iff.mp hstep
  have hdb : w.shared.rows = rows := by
    obtain ⟨hledger, _⟩ := (h.knows i).splits _ _ _ _ hphase
    rw [Database.seenBy_eq (.inl hledger), (h.knows i).wrote _ _ _ _ hphase] at hrows
    exact (List.append_nil _).symm.trans (Option.some.inj hrows)
  split at hstep
  · rename_i hfind
    exact absurd (decide_eq_true ⟨hrowName.trans hown.symm, hid⟩) (List.find?_eq_none.mp hfind row (hdb ▸ hrow))
  · rename_i found hfind
    have hmatches := List.find?_some hfind
    obtain ⟨hfoundName, hfoundId⟩ := of_decide_eq_true hmatches
    have hsame : found = row := h.row_eq hids (hdb ▸ List.mem_of_find?_eq_some hfind) hrow
      (hfoundName.trans hown) hrowName (hfoundId.trans hid.symm)
    rw [hsame, if_neg hchecksum] at hstep
    cases hstep
    rw [← hown]
    rfl

/-- A migration recorded under another text does not run, and no run of its component succeeds. -/
theorem Reached.refused (h : Reached components name ids w) (hids : ids.Nodup)
    (hname : (components i).name = name) {migration : Migration} (hmem : migration ∈ (components i).migrations)
    {row : LedgerRow} (hrow : row ∈ w.shared.rows) (hrowName : row.component = name)
    (hid : row.migration = migration.id) (hchecksum : row.checksum ≠ migration.checksum) :
    (∀ before after stage, (w.procs i).phase = .trying (.step before migration after) stage → ¬ stage.Runs) ∧
      ∀ done, (w.procs i).phase ≠ .ended (.ok done) := by
  have hown : (w.procs i).component.name = name := by rw [h.component i, hname]
  refine ⟨fun before after stage hphase hruns => ?_, fun done hphase => ?_⟩
  · exact (h.knows i).runs _ _ _ _ hphase hruns row hrow (hrowName.trans hown.symm) hid
  · have hin := (h.knows i).ended done hphase migration (by rwa [h.component i])
    have hsame := h.row_eq hids hin hrow hown hrowName hid.symm
    exact hchecksum (by rw [← hsame]; rfl)

/-- Nor does any transaction run its SQL. -/
theorem Reached.unwritten (h : Reached components name ids w) (hids : ids.Nodup) {migration : Migration}
    {row : LedgerRow} (hrow : row ∈ w.shared.rows) (hrowName : row.component = name)
    (hid : row.migration = migration.id) (hchecksum : row.checksum ≠ migration.checksum) :
    (name, migration) ∉ w.shared.ran ∧ ∀ j, (name, migration) ∉ (w.shared.writes j).ran := by
  refine ⟨fun hran => ?_, fun j hran => ?_⟩
  · have hin : migration.row name ∈ w.shared.rows := by
      rw [h.ordered.rows_eq]
      exact List.mem_map_of_mem hran
    have hsame := h.row_eq hids hin hrow rfl hrowName hid.symm
    exact hchecksum (by rw [← hsame]; rfl)
  · by_cases hidle : ∀ work stage, (w.procs j).phase ≠ .trying work stage
    · rw [(h.knows j).idle hidle] at hran
      cases hran
    · push Not at hidle
      obtain ⟨work, stage, hphase⟩ := hidle
      cases work with
      | ledger =>
        rw [((h.knows j).creates _ hphase).ran] at hran
        cases hran
      | step before tried after =>
        rw [(h.knows j).wrote _ _ _ _ hphase] at hran
        have hruns : stage.Runs ∧ (name, migration) = ((w.procs j).component.name, tried) := by
          cases stage with
          | others | insert => exact ⟨trivial, List.mem_singleton.mp hran⟩
          | commit held =>
            cases held with
            | false => cases hran
            | true => exact ⟨trivial, List.mem_singleton.mp hran⟩
          | _ => cases hran
        obtain ⟨hruns, heq⟩ := hruns
        obtain ⟨hname, rfl⟩ := Prod.mk.inj heq
        exact (h.knows j).runs _ _ _ _ hphase hruns row hrow (hrowName.trans hname) hid

/-- Each migration's SQL is committed once, with its row, in the order of the list; what is recorded
under another checksum is refused, and no transaction runs it; only a `COMMIT` that is done, answered or not,
changes the schema and the ledger; and a try that ends otherwise leaves nothing it wrote. -/
theorem run_ledger (hids : ids.Nodup)
    (hinitial : ∀ i, (components i).name = name → (components i).ids <+: ids)
    (hrun : runners.Run (fun _ _ _ => True) (Migrations.start components) w) :
    (w.shared.rows = w.shared.ran.map fun run => run.2.row run.1) ∧
      ((w.shared.ran.filter (·.1 = name)).map fun run => run.2.id) <+: ids ∧
      ((w.shared.ran.filter (·.1 = name)).map fun run => run.2.id).Nodup ∧
      (∀ i, (components i).name = name → ∀ migration ∈ (components i).migrations,
        ∀ row ∈ w.shared.rows, row.component = name → row.migration = migration.id →
        row.checksum ≠ migration.checksum →
        ((name, migration) ∉ w.shared.ran ∧ ∀ j, (name, migration) ∉ (w.shared.writes j).ran) ∧
        (∀ before after stage, (w.procs i).phase = .trying (.step before migration after) stage → ¬ stage.Runs) ∧
        (∀ before after others db' r', (w.procs i).phase = .trying (.step before migration after) .check →
          (w.procs i).step w.shared i (.next others) = some (db', r') →
          r'.phase = .ended (.error (.changed name migration.id))) ∧
        ∀ done, (w.procs i).phase ≠ .ended (.ok done)) ∧
      (∀ i action w', runners.act w i action = some w' →
        (action.Does → ∀ work held, (w.procs i).phase ≠ .trying work (.commit held)) →
        w'.shared.ledger = w.shared.ledger ∧ w'.shared.ran = w.shared.ran) ∧
      ∀ i, ((∀ work stage, (w.procs i).phase ≠ .trying work stage) ∨ ∃ work, (w.procs i).phase = .trying work .begin) →
        w.shared.writes i = .empty := by
  have h := Reached.run hids hinitial hrun
  have hordered := h.ordered.prefix_ids
  rw [h.ordered.ids_filter] at hordered
  refine ⟨h.ordered.rows_eq, hordered, hids.sublist hordered.sublist, ?_, ?_, fun i => (h.knows i).writes_empty⟩
  · intro i hname migration hmem row hrow hrowName hid hchecksum
    obtain ⟨hruns, hends⟩ := h.refused hids hname hmem hrow hrowName hid hchecksum
    exact ⟨h.unwritten hids hrow hrowName hid hchecksum, hruns, fun before after others db' r' hphase hstep =>
      h.check_refuses hids hphase hname hrow hrowName hid hchecksum hstep, hends⟩
  · intro i action w' hact hnot
    obtain ⟨db', r', hstep, rfl⟩ := (Program.act_eq_some _).mp hact
    exact step_frame (h.knows i) hstep hnot

end

/-- Two migrations of a component. -/
def accounts : Component where
  name := "accounts"
  migrations := [⟨"1", none, "CREATE TABLE accounts (id BIGINT)", "a"⟩,
    ⟨"2", some "accounts", "ALTER TABLE accounts ADD name TEXT", "b"⟩]
  name_ne := by decide
  migrations_ne := by decide
  id_ne := by decide
  ids_nodup := by decide

/-- The first of them under another text. -/
def altered : Component where
  name := "accounts"
  migrations := [⟨"1", none, "CREATE TABLE accounts (id INT)", "c"⟩]
  name_ne := by decide
  migrations_ne := by decide
  id_ne := by decide
  ids_nodup := by decide

def components (i : Nat) : Component := if i = 2 then altered else accounts

/-- Three runners find no ledger. The second is blocked while the first applies a migration, and the answer to
the first's last `COMMIT` is lost; the second then finds all applied, and the third is refused. -/
def applying : List (Nat × Action) :=
  List.flatten [[(1, .next []), (2, .next [])], List.replicate 11 (0, .next []), List.replicate 7 (1, .next []),
    (1, .refuse true false) :: List.replicate 12 (0, .next []), (0, .lose) :: List.replicate 10 (1, .next []),
    List.replicate 9 (2, .next [])]

def appliedWorld : World Database Nat Runner :=
  runners.after (Migrations.start components) applying rfl

theorem applied_run : runners.Run (fun _ _ _ => True) (Migrations.start components) appliedWorld :=
  .after fun _ _ _ => trivial

theorem run_ledger_applied : appliedWorld.shared.ran.map (·.2.id) = ["1", "2"] ∧
    (appliedWorld.shared.rows = appliedWorld.shared.ran.map fun run => run.2.row run.1) ∧
    (∀ migration ∈ altered.migrations, ("accounts", migration) ∉ appliedWorld.shared.ran ∧
      ∀ done, (appliedWorld.procs 2).phase ≠ .ended (.ok done)) ∧
    appliedWorld.shared.writes 0 = .empty := by
  have hids : ["1", "2"].Nodup := by decide
  have hinitial : ∀ i, (components i).name = "accounts" → (components i).ids <+: ["1", "2"] := by
    intro i _
    rw [components]
    split
    · exact ⟨["2"], rfl⟩
    · exact List.prefix_rfl
  obtain ⟨hrows, _, _, hrefuses, _, hempty⟩ := run_ledger hids hinitial applied_run
  have hended : (appliedWorld.procs 0).phase = .ended (.error .session) := rfl
  refine ⟨rfl, hrows, fun migration hmem => ?_, hempty 0 (.inl ?_)⟩
  · have hid : migration.id = "1" := by rw [List.mem_singleton.mp hmem]
    have hchecksum : migration.checksum = "c" := by rw [List.mem_singleton.mp hmem]
    have hrow : (⟨"accounts", "1", "a"⟩ : LedgerRow) ∈ appliedWorld.shared.rows := List.mem_cons_self
    obtain ⟨⟨hran, _⟩, _, _, hends⟩ := hrefuses 2 rfl migration hmem _ hrow rfl hid.symm
      (by rw [hchecksum]; decide)
    exact ⟨hran, hends⟩
  · rw [hended]
    rintro _ _ ⟨⟩

end AsceticDdd.Migrations
