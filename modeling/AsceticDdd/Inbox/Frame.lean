import AsceticDdd.Inbox.System

/-!
# What a transaction at work leaves alone

Until it ends, a transaction changes no committed version, nothing another one holds, and gives up
nothing it holds itself.
-/

namespace AsceticDdd.Inbox

variable {d d' d'' : Database} {s t : Nat} {identity other : CausalDependency} {row latest : Row}

namespace Database

@[simp] theorem setCell_self (c : Cell) : (d.setCell identity c).cells identity = c :=
  Function.update_self ..

theorem setCell_of_ne {c : Cell} (h : other ≠ identity) :
    (d.setCell identity c).cells other = d.cells other :=
  Function.update_of_ne h ..

@[simp] theorem insert_self :
    (d.insert s row).cells row.identity = ⟨none, some s, some (some row)⟩ := Function.update_self ..

theorem insert_of_ne (h : other ≠ row.identity) : (d.insert s row).cells other = d.cells other :=
  Function.update_of_ne h ..

theorem committed_finish (commits : Bool) : (d.finish s commits).committed identity =
    if (d.cells identity).lock = some s ∧ commits = true then
      (d.cells identity).pending.getD (d.committed identity)
    else d.committed identity := by
  simp only [committed, finish, Cell.finish]
  by_cases hlock : (d.cells identity).lock = some s
  · cases commits <;> simp [hlock]
  · simp [hlock]

theorem seen_of_unchanged
    (h : (d.cells identity).lock = some s → (d.cells identity).pending = none) :
    d.seen s identity = d.committed identity := by
  simp only [seen, Cell.seen, committed]
  split
  · rw [h ‹_›]
    rfl
  · rfl

theorem seen_of_pending {version : Option Row} (hlock : (d.cells identity).lock = some s)
    (hpending : (d.cells identity).pending = some version) : d.seen s identity = version := by
  simp only [seen, Cell.seen, if_pos hlock, hpending, Option.getD_some]

theorem mem_rows : row ∈ d.rows s ↔ ∃ identity ∈ d.identities, d.seen s identity = some row := by
  simp [rows]

/-- A row locked is read in its latest version; one not there is gone, and nothing is locked. -/
theorem claim_cases {found : Option Row} (h : d.claim s row = some (d', found)) :
    (found = none ∧ d' = d ∧ ∀ latest, d.seen s row.identity = some latest →
      latest.receivedPosition ≠ row.receivedPosition) ∨
    ∃ latest, found = some latest ∧ d.seen s row.identity = some latest ∧
      latest.receivedPosition = row.receivedPosition ∧
      ((d.cells row.identity).lock = none ∨ (d.cells row.identity).lock = some s) ∧
      d' = d.setCell row.identity { d.cells row.identity with lock := some s } := by
  simp only [claim] at h
  split at h
  · rename_i latest hseen
    split at h
    · rename_i hposition
      cases h
      refine Or.inl ⟨rfl, rfl, fun latest' hlatest => ?_⟩
      cases hseen.symm.trans hlatest
      exact hposition
    · rename_i hposition
      split at h
      · rename_i hlock
        cases h
        exact Or.inr ⟨latest, rfl, hseen, not_ne_iff.mp hposition, hlock, rfl⟩
      · cases h
  · rename_i hseen
    cases h
    refine Or.inl ⟨rfl, rfl, fun latest hlatest => ?_⟩
    cases hseen.symm.trans hlatest

theorem claimUnlocked_cases (d : Database) (s : Nat) (row : Row) : ∃ d' found, d.claimUnlocked s row = (d', found) ∧
    (found = none ∧ d' = d ∨ d.claim s row = some (d', found)) := by
  rw [claimUnlocked]
  cases d.claim s row with
  | none => exact ⟨d, none, rfl, Or.inl ⟨rfl, rfl⟩⟩
  | some r => exact ⟨r.1, r.2, rfl, Or.inr rfl⟩

theorem lockIdentity_eq_some {key : BitVec 32} (h : d.lockIdentity s key = some d') :
    (d.advisory key = none ∨ d.advisory key = some s) ∧
      d' = { d with advisory := Function.update d.advisory key (some s) } := by
  simp only [lockIdentity] at h
  split at h
  · cases h
    exact ⟨‹_›, rfl⟩
  · cases h

end Database

open Database

structure Works (s : Nat) (d d' : Database) : Prop where
  committed : ∀ identity, d'.committed identity = d.committed identity
  others : ∀ identity t, t ≠ s → (d.cells identity).lock = some t → d'.cells identity = d.cells identity
  locks : ∀ identity t, t ≠ s → (d'.cells identity).lock = some t → (d.cells identity).lock = some t
  free : ∀ identity, (d'.cells identity).lock = none → d'.cells identity = d.cells identity
  kept : ∀ identity, (d.cells identity).lock = some s → (d'.cells identity).lock = some s
  slots : ∀ slot t, t ≠ s → ((d'.slots slot).lock = some t ↔ (d.slots slot).lock = some t)
  slot : ∀ slot, (d.slots slot).lock = some s → (d'.slots slot).lock = some s
  advisory : ∀ key t, t ≠ s → (d'.advisory key = some t ↔ d.advisory key = some t)
  key : ∀ key, d.advisory key = some s → d'.advisory key = some s
  journal : ∀ t, t ≠ s → d'.journal t = d.journal t
  identities : ∀ identity ∈ d.identities, identity ∈ d'.identities
  versions : ∀ identity row, (d'.cells identity).pending = some (some row) →
    (d.cells identity).pending = some (some row) ∨ row.identity = identity ∧ identity ∈ d'.identities
  log : d'.log = d.log
  next : d.next ≤ d'.next
  statements : d.statements ≤ d'.statements

namespace Works

/-- Nothing but the transaction's own journal and the counters changes. -/
theorem of_cells (hcells : d'.cells = d.cells) (hslots : d'.slots = d.slots)
    (hadvisory : d'.advisory = d.advisory) (hidentities : d'.identities = d.identities)
    (hjournal : ∀ t, t ≠ s → d'.journal t = d.journal t) (hlog : d'.log = d.log)
    (hnext : d.next ≤ d'.next) (hstatements : d.statements ≤ d'.statements) : Works s d d' where
  committed identity := by rw [Database.committed, hcells, Database.committed]
  others identity _ _ _ := by rw [hcells]
  locks identity _ _ h := hcells ▸ h
  free identity _ := by rw [hcells]
  kept identity h := hcells ▸ h
  slots slot _ _ := by rw [hslots]
  slot slot h := hslots ▸ h
  advisory key _ _ := by rw [hadvisory]
  key key h := hadvisory ▸ h
  journal := hjournal
  identities identity h := hidentities ▸ h
  versions identity row h := Or.inl (hcells ▸ h)
  log := hlog
  next := hnext
  statements := hstatements

theorem refl (s : Nat) (d : Database) : Works s d d :=
  of_cells rfl rfl rfl rfl (fun _ _ => rfl) rfl le_rfl le_rfl

theorem trans (h : Works s d d') (h' : Works s d' d'') : Works s d d'' where
  committed identity := (h'.committed identity).trans (h.committed identity)
  others identity t ht hlock := by
    have heq := h.others identity t ht hlock
    exact (h'.others identity t ht (heq ▸ hlock)).trans heq
  locks identity t ht hlock := h.locks identity t ht (h'.locks identity t ht hlock)
  free identity hlock := by
    have heq := h'.free identity hlock
    exact heq.trans (h.free identity (heq ▸ hlock))
  kept identity hlock := h'.kept identity (h.kept identity hlock)
  slots slot t ht := (h'.slots slot t ht).trans (h.slots slot t ht)
  slot slot hlock := h'.slot slot (h.slot slot hlock)
  advisory key t ht := (h'.advisory key t ht).trans (h.advisory key t ht)
  key key hlock := h'.key key (h.key key hlock)
  journal t ht := (h'.journal t ht).trans (h.journal t ht)
  identities identity hmem := h'.identities identity (h.identities identity hmem)
  versions identity row hpending := by
    rcases h'.versions identity row hpending with hpending | hnew
    · exact (h.versions identity row hpending).imp_right fun hnew => ⟨hnew.1, h'.identities _ hnew.2⟩
    · exact Or.inr hnew
  log := h'.log.trans h.log
  next := h.next.trans h'.next
  statements := h.statements.trans h'.statements

/-- A cell nobody else holds, held now, its committed version as it was. -/
theorem update {c : Cell}
    (hcells : d'.cells = Function.update d.cells identity c) (hslots : d'.slots = d.slots)
    (hadvisory : d'.advisory = d.advisory) (hidentities : ∀ other ∈ d.identities, other ∈ d'.identities)
    (hjournal : d'.journal = d.journal) (hlog : d'.log = d.log)
    (hnext : d'.next = d.next) (hstatements : d'.statements = d.statements)
    (hfree : (d.cells identity).lock = none ∨ (d.cells identity).lock = some s)
    (hlock : c.lock = some s) (hcommitted : c.committed = d.committed identity)
    (hpending : ∀ row, c.pending = some (some row) → (d.cells identity).pending = some (some row) ∨
      row.identity = identity ∧ identity ∈ d'.identities) : Works s d d' := by
  have hself : d'.cells identity = c := by rw [hcells, Function.update_self]
  have hother : ∀ other, other ≠ identity → d'.cells other = d.cells other := fun other h => by
    rw [hcells, Function.update_of_ne h]
  have hnot : ∀ t, t ≠ s → (d.cells identity).lock ≠ some t := by
    intro t ht h
    rcases hfree with hfree | hfree <;> rw [hfree] at h <;> cases h
    exact ht rfl
  constructor
  case committed =>
    intro other
    by_cases h : other = identity
    · rw [h, Database.committed, hself, hcommitted]
    · rw [Database.committed, hother other h, Database.committed]
  case others =>
    intro other t ht h
    exact hother other fun heq => hnot t ht (heq ▸ h)
  case locks =>
    intro other t ht h
    by_cases heq : other = identity
    · rw [heq, hself, hlock] at h
      exact absurd (Option.some.inj h).symm ht
    · rwa [hother other heq] at h
  case free =>
    intro other h
    refine hother other fun heq => ?_
    rw [heq, hself, hlock] at h
    cases h
  case kept =>
    intro other h
    by_cases heq : other = identity
    · rw [heq, hself, hlock]
    · rwa [hother other heq]
  case slots =>
    intro slot t ht
    rw [hslots]
  case slot =>
    intro slot h
    rwa [hslots]
  case advisory =>
    intro key t ht
    rw [hadvisory]
  case key =>
    intro key h
    rwa [hadvisory]
  case journal =>
    intro t ht
    rw [hjournal]
  case identities => exact hidentities
  case versions =>
    intro other row h
    by_cases heq : other = identity
    · rw [heq, hself] at h
      rw [heq]
      exact hpending row h
    · rw [hother other heq] at h
      exact Or.inl h
  case log => exact hlog
  case next => exact hnext.ge
  case statements => exact hstatements.ge

theorem write (version : Option Row) (h : (d.cells identity).lock = some s)
    (hversion : ∀ row, version = some row → row.identity = identity ∧ identity ∈ d.identities) :
    Works s d (d.write identity version) :=
  update rfl rfl rfl (fun _ => id) rfl rfl rfl rfl (Or.inr h) h rfl fun row hrow =>
    Or.inr (hversion row (Option.some.inj hrow))

theorem claim {found : Option Row} (h : d.claim s row = some (d', found)) : Works s d d' := by
  rcases claim_cases h with ⟨_, rfl, _⟩ | ⟨_, _, _, _, hfree, rfl⟩
  · exact refl s d'
  · exact update rfl rfl rfl (fun _ => id) rfl rfl rfl rfl hfree rfl rfl fun _ => Or.inl

theorem record (event : Event) : Works s d (d.record s event) :=
  of_cells rfl rfl rfl rfl (fun _ ht => Function.update_of_ne ht ..) rfl le_rfl le_rfl

theorem insert (hfree : (d.cells row.identity).lock = none ∨ (d.cells row.identity).lock = some s)
    (hcommitted : d.committed row.identity = none) : Works s d (d.insert s row) := by
  have hmem : ∀ other, other ∈ d.identities ∨ other = row.identity →
      other ∈ (d.insert s row).identities := by
    intro other h
    simp only [Database.insert]
    split
    · rename_i hrow
      exact h.elim id fun heq => heq ▸ hrow
    · rw [List.mem_append, List.mem_singleton]
      exact h
  refine update rfl rfl rfl (fun other h => hmem other (Or.inl h)) rfl rfl rfl rfl hfree rfl
    hcommitted.symm fun row' hrow => ?_
  cases hrow
  exact Or.inr ⟨rfl, hmem _ (Or.inr rfl)⟩

theorem lockIdentity {key : BitVec 32} (h : d.lockIdentity s key = some d') : Works s d d' := by
  obtain ⟨hfree, rfl⟩ := lockIdentity_eq_some h
  refine { refl s d with advisory := fun key' t ht => ?_, key := fun key' h => ?_ }
  · by_cases heq : key' = key
    · subst heq
      rcases hfree with hfree | hfree <;> simp [hfree, Ne.symm ht]
    · simp [Function.update_of_ne heq]
  · by_cases heq : key' = key
    · subst heq
      exact Function.update_self ..
    · exact (Function.update_of_ne heq ..).trans h

theorem takeSlot {slot now : Nat} (h : (d.slots slot).lock = none) :
    Works s d (d.takeSlot s slot now) := by
  refine { refl s d with slots := fun slot' t ht => ?_, slot := fun slot' h => ?_ }
  · by_cases heq : slot' = slot
    · subst heq
      simp [Database.takeSlot, h, Ne.symm ht]
    · simp [Database.takeSlot, Function.update_of_ne heq]
  · by_cases heq : slot' = slot
    · subst heq
      simp [Database.takeSlot]
    · rw [Database.takeSlot]
      exact (congrArg SlotRow.lock (Function.update_of_ne heq ..)).trans h

/-- What another session sees locked by it is its own as before. -/
theorem cell_eq (h : Works s d d') (ht : t ≠ s) (hlock : (d'.cells identity).lock = some t) :
    d'.cells identity = d.cells identity :=
  h.others identity t ht (h.locks identity t ht hlock)

end Works

end AsceticDdd.Inbox
