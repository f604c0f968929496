import Mathlib.Data.List.MinMax
import Mathlib.Data.List.Nodup

/-!
# Tables of versions

A row is a version of a key with its content, and a version of a key has one row. A write adds the next version, takes
the versions below a bound, or takes them all.
-/

namespace AsceticDdd.Versions

structure Row (κ ρ : Type) where
  key : κ
  version : Nat
  content : ρ

abbrev Table (κ ρ : Type) := List (Row κ ρ)

inductive Write (κ ρ : Type)
  | nothing
  | insert (row : Row κ ρ)
  | deleteBelow (key : κ) (bound : Nat)
  | deleteAll (key : κ)

variable {κ ρ σ : Type}

/-- The primary key. -/
def Row.id (row : Row κ ρ) : κ × Nat := (row.key, row.version)

/-- What a write takes. -/
def Write.Takes : Write κ ρ → Row κ ρ → Prop
  | .nothing, _ | .insert _, _ => False
  | .deleteBelow key bound, row => row.key = key ∧ row.version < bound
  | .deleteAll key, row => row.key = key

def Distinct (table : Table κ ρ) : Prop := (table.map Row.id).Nodup

variable [DecidableEq κ]

namespace Table

variable (table : Table κ ρ) (key : κ)

def ofKey : Table κ ρ := List.filter (fun row => row.key = key) table

/-- `max(key_version)` -/
def latest : Option Nat := ((ofKey table key).map (·.version)).max?

/-- `ORDER BY key_version DESC LIMIT 1` -/
def current : Option (Row κ ρ) := (ofKey table key).argmax (·.version)

def find (version : Nat) : Option (Row κ ρ) := List.find? (fun row => row.key = key ∧ row.version = version) table

end Table

instance (row : Row κ ρ) (write : Write κ ρ) : Decidable (write.Takes row) := by
  unfold Write.Takes
  split <;> infer_instance

/-- The rows a write leaves, and the one it adds. -/
def Write.apply (write : Write κ ρ) (table : Table κ ρ) : Table κ ρ :=
  let left := table.filter fun row => ¬write.Takes row
  match write with
  | .insert row => left ++ [row]
  | _ => left

/-- A write of a table adds to a key its next version. -/
def Legal (table : Table κ ρ) (write : Write κ ρ) : Prop :=
  ∀ row, write = .insert row → row.version = ((table.latest row.key).getD 0) + 1

/-- Calls one after another, each writing what the table it finds makes it write. -/
def run (writes : Table κ ρ → σ → Write κ ρ) (table : Table κ ρ) (calls : List σ) : Table κ ρ :=
  calls.foldl (fun table call => (writes table call).apply table) table

variable {table : Table κ ρ} {write : Write κ ρ} {row row' : Row κ ρ} {key : κ} {version : Nat}

theorem apply_nothing : (Write.nothing : Write κ ρ).apply table = table :=
  List.filter_eq_self.mpr fun _ _ => decide_eq_true id

theorem mem_apply : row ∈ write.apply table ↔ row ∈ table ∧ ¬write.Takes row ∨ write = .insert row := by
  have left : row ∈ table.filter (fun row => ¬write.Takes row) ↔ row ∈ table ∧ ¬write.Takes row := by
    rw [List.mem_filter, decide_eq_true_eq]
  cases write with
  | insert other =>
    simp only [Write.apply, List.mem_append, left, List.mem_singleton, Write.insert.injEq]
    rw [eq_comm (a := other)]
  | nothing | deleteBelow | deleteAll => simp only [Write.apply, left, reduceCtorEq, or_false]

namespace Table

theorem mem_ofKey : row ∈ table.ofKey key ↔ row ∈ table ∧ row.key = key := by
  simp only [ofKey, List.mem_filter, decide_eq_true_eq]

theorem latest_eq_some : table.latest key = some version ↔
    (∃ row ∈ table, row.key = key ∧ row.version = version) ∧ ∀ row ∈ table, row.key = key → row.version ≤ version := by
  rw [latest, List.max?_eq_some_iff]
  simp only [List.mem_map, mem_ofKey, and_assoc]
  refine and_congr_right fun _ => ⟨?_, ?_⟩
  · exact fun most row mem same => most row.version ⟨row, mem, same, rfl⟩
  · rintro most _ ⟨row, mem, same, rfl⟩
    exact most row mem same

theorem latest_eq_none : table.latest key = none ↔ ∀ row ∈ table, row.key ≠ key := by
  rw [latest, List.max?_eq_none_iff, List.map_eq_nil_iff]
  simp only [List.eq_nil_iff_forall_not_mem, mem_ofKey, not_and, ne_eq]

theorem current_eq_none : table.current key = none ↔ ∀ row ∈ table, row.key ≠ key := by
  simp only [current, List.argmax_eq_none, List.eq_nil_iff_forall_not_mem, mem_ofKey, not_and, ne_eq]

/-- The current row is of the latest version. -/
theorem current_spec (h : table.current key = some row) :
    row ∈ table ∧ row.key = key ∧ table.latest key = some row.version := by
  obtain ⟨mem, same⟩ := mem_ofKey.mp (List.argmax_mem h)
  refine ⟨mem, same, latest_eq_some.mpr ⟨⟨row, mem, same, rfl⟩, ?_⟩⟩
  intro other hother hkey
  exact List.le_of_mem_argmax (mem_ofKey.mpr ⟨hother, hkey⟩) h

theorem latest_eq_map : table.latest key = (table.current key).map (·.version) := by
  cases h : table.current key with
  | none => exact latest_eq_none.mpr (current_eq_none.mp h)
  | some row => exact (current_spec h).2.2

theorem find_spec (h : table.find key version = some row) : row ∈ table ∧ row.key = key ∧ row.version = version :=
  ⟨List.mem_of_find?_eq_some h, of_decide_eq_true (List.find?_some (p := fun row : Row κ ρ =>
    decide (row.key = key ∧ row.version = version)) h)⟩

theorem find_eq_none : table.find key version = none ↔ ∀ row ∈ table, ¬(row.key = key ∧ row.version = version) := by
  simp only [find, List.find?_eq_none, decide_eq_true_eq]

end Table

omit [DecidableEq κ] in
theorem Distinct.eq (distinct : Distinct table) (hrow : row ∈ table) (hrow' : row' ∈ table)
    (sameKey : row.key = row'.key) (sameVersion : row.version = row'.version) : row = row' :=
  List.inj_on_of_nodup_map distinct hrow hrow' (Prod.ext sameKey sameVersion)

theorem Distinct.find_eq_some (distinct : Distinct table) :
    table.find key version = some row ↔ row ∈ table ∧ row.key = key ∧ row.version = version := by
  refine ⟨Table.find_spec, ?_⟩
  rintro ⟨mem, rfl, rfl⟩
  cases found : table.find row.key row.version with
  | none => exact absurd ⟨rfl, rfl⟩ (Table.find_eq_none.mp found row mem)
  | some other =>
    obtain ⟨hother, sameKey, sameVersion⟩ := Table.find_spec found
    rw [distinct.eq hother mem sameKey sameVersion]

/-- No version of the key is as high as the next. -/
theorem lt_next (mem : row ∈ table) : row.version < ((table.latest row.key).getD 0) + 1 := by
  cases h : table.latest row.key with
  | none => exact absurd rfl (Table.latest_eq_none.mp h row mem)
  | some version => exact Nat.lt_succ_of_le ((Table.latest_eq_some.mp h).2 row mem rfl)

theorem Distinct.apply (distinct : Distinct table) (legal : Legal table write) : Distinct (write.apply table) := by
  have left : Distinct (table.filter fun row => ¬write.Takes row) := distinct.sublist (List.filter_sublist.map _)
  cases write with
  | insert row =>
    unfold Distinct Write.apply
    rw [List.map_append, List.map_singleton]
    refine left.append (List.nodup_singleton _) ?_
    rw [List.disjoint_singleton]
    intro taken
    obtain ⟨other, hother, same⟩ := List.mem_map.mp taken
    have mem : other ∈ table := List.mem_of_mem_filter hother
    obtain ⟨sameKey, sameVersion⟩ := Prod.mk.inj same
    have lower := lt_next mem
    rw [sameKey, ← legal row rfl, sameVersion] at lower
    exact absurd lower (Nat.lt_irrefl _)
  | nothing | deleteBelow | deleteAll => exact left

section Runs

variable {writes : Table κ ρ → σ → Write κ ρ} {calls before after : List σ} {call : σ}

theorem run_append : run writes table (before ++ after) = run writes (run writes table before) after :=
  List.foldl_append

/-- What the writes of a run's calls keep, the run keeps. -/
theorem run_invariant {P : Table κ ρ → Prop}
    (kept : ∀ table, ∀ call ∈ calls, P table → P ((writes table call).apply table)) (h : P table) :
    P (run writes table calls) := by
  induction calls generalizing table with
  | nil => exact h
  | cons call calls ih =>
    exact ih (fun table other mem => kept table other (List.mem_cons_of_mem _ mem))
      (kept table call List.mem_cons_self h)

/-- A row that no call adds is there at the end if it was at the beginning and no call took it. -/
theorem mem_run (never : ∀ before call after, calls = before ++ call :: after →
      writes (run writes table before) call ≠ .insert row) :
    row ∈ run writes table calls ↔ row ∈ table ∧ ∀ before call after, calls = before ++ call :: after →
      ¬(writes (run writes table before) call).Takes row := by
  induction calls generalizing table with
  | nil =>
    refine ⟨fun mem => ⟨mem, ?_⟩, And.left⟩
    intro before call after split
    exact absurd split.symm (List.append_ne_nil_of_right_ne_nil _ (List.cons_ne_nil _ _))
  | cons call calls ih =>
    have first : row ∈ (writes table call).apply table ↔ row ∈ table ∧ ¬(writes table call).Takes row :=
      mem_apply.trans (or_iff_left (never [] call calls rfl))
    have rest := @ih ((writes table call).apply table) fun before other after split =>
      never (call :: before) other after (congrArg (call :: ·) split)
    refine rest.trans ?_
    rw [first, and_assoc]
    refine and_congr_right fun _ => ⟨?_, ?_⟩
    · rintro ⟨kept, later⟩ before other after split
      cases before with
      | nil =>
        cases split
        exact kept
      | cons head before =>
        cases split
        exact later before other after rfl
    · intro all
      exact ⟨all [] call calls rfl, fun before other after split =>
        all (call :: before) other after (congrArg (call :: ·) split)⟩

/-- A row that no call takes stays. -/
theorem mem_run_of_kept (mem : row ∈ table) (kept : ∀ before call after, calls = before ++ call :: after →
    ¬(writes (run writes table before) call).Takes row) : row ∈ run writes table calls := by
  induction calls generalizing table with
  | nil => exact mem
  | cons call calls ih =>
    refine ih (mem_apply.mpr (Or.inl ⟨mem, kept [] call calls rfl⟩)) ?_
    intro before other after split
    exact kept (call :: before) other after (congrArg (call :: ·) split)

/-- A row at the end was there at the beginning, or some call added it. -/
theorem mem_of_mem_run (mem : row ∈ run writes table calls) : row ∈ table ∨ ∃ before call after,
    calls = before ++ call :: after ∧ writes (run writes table before) call = .insert row := by
  by_cases added : ∃ before call after, calls = before ++ call :: after ∧
      writes (run writes table before) call = .insert row
  · exact Or.inr added
  · refine Or.inl ((mem_run ?_).mp mem).1
    intro before call after split insert
    exact added ⟨before, call, after, split, insert⟩

end Runs

end AsceticDdd.Versions
