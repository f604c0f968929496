import AsceticDdd.Inbox.Invariant

/-!
# Waking what waits

A mark, by a dispatch or by hand, goes through the rows its snapshot found waiting for the identity. A
row is put back into the queue in its latest version, if that one still waits.
-/

namespace AsceticDdd.Inbox

open Database

variable {o : PgInbox} {d d' : Database} {s : Nat} {p : Process} {identity : CausalDependency}
  {row : Row}

theorem claim_pending {found : Option Row} (h : d.claim s row = some (d', found)) :
    (d'.cells identity).pending = (d.cells identity).pending := by
  rcases claim_cases h with ⟨_, rfl, _⟩ | ⟨_, _, _, _, _, rfl⟩
  · rfl
  · by_cases heq : identity = row.identity
    · rw [heq, setCell_self]
    · rw [setCell_of_ne heq]

theorem claim_journal {found : Option Row} (h : d.claim s row = some (d', found)) :
    d'.journal = d.journal := by
  rcases claim_cases h with ⟨_, rfl, _⟩ | ⟨_, _, _, _, _, rfl⟩ <;> rfl

/-- The versions a session has made are of the rows it held before. -/
theorem Consistent.claim_writes (hd : Consistent o d) {found : Option Row}
    (h : d.claim s row = some (d', found)) {version : Option Row}
    (hlock : (d'.cells identity).lock = some s) (hpending : (d'.cells identity).pending = some version) :
    (d.cells identity).lock = some s ∧ (d.cells identity).pending = some version := by
  rw [claim_pending h] at hpending
  refine ⟨?_, hpending⟩
  rcases claim_cases h with ⟨_, rfl, _⟩ | ⟨_, _, _, _, hfree, rfl⟩
  · exact hlock
  · by_cases heq : identity = row.identity
    · rcases hfree with hfree | hfree
      · rw [heq, hd.unlocked _ hfree] at hpending
        cases hpending
      · rwa [heq]
    · rwa [setCell_of_ne heq] at hlock

theorem wake_cases (h : d.wake s identity row = some d') :
    ∃ d₁ found, d.claim s row = some (d₁, found) ∧
      (d' = d₁ ∧ (∀ latest, found = some latest → latest.waitingFor ≠ some identity) ∨
        ∃ latest, found = some latest ∧ latest.waitingFor = some identity ∧
          d' = d₁.write row.identity (some latest.woken)) := by
  obtain ⟨⟨d₁, found⟩, hclaim, h⟩ := Option.map_eq_some_iff.mp h
  refine ⟨d₁, found, hclaim, ?_⟩
  cases found with
  | none =>
    cases h
    exact Or.inl ⟨rfl, by rintro _ ⟨⟩⟩
  | some latest =>
    simp only at h
    split at h
    · cases h
      exact Or.inr ⟨latest, rfl, ‹_›, rfl⟩
    · cases h
      refine Or.inl ⟨rfl, ?_⟩
      rintro _ ⟨⟩
      assumption

/-- The rows found are woken one by one, and what was made before stays. -/
structure Woke (s : Nat) (identity : CausalDependency) (row : Row) (d d' : Database) : Prop where
  works : Works s d d'
  journal : d'.journal = d.journal
  kept : ∀ other version, (d.cells other).pending = some version →
    (d.cells other).lock = some s → (d'.cells other).pending = some version
  writes : ∀ other version, (d'.cells other).lock = some s → (d'.cells other).pending = some version →
    (d.cells other).lock = some s ∧ (d.cells other).pending = some version ∨
      Wakes identity (d.committed other) version
  woken : d.committed row.identity = some row → row.waitingFor = some identity →
    (d'.cells row.identity).lock = some s ∧ (d'.cells row.identity).pending = some (some row.woken)

theorem Consistent.woke (hd : Consistent o d) (h : d.wake s identity row = some d')
    (hmade : ∀ other version, (d.cells other).lock = some s →
      (d.cells other).pending = some version →
        (∀ r, version = some r → r.waitingFor ≠ some identity) ∧
        ∀ r, d.committed other = some r → r.waitingFor = some identity → version = some r.woken) :
    Woke s identity row d d' := by
  obtain ⟨d₁, found, hclaim, hcases⟩ := wake_cases h
  -- a row the session has woken before is found woken
  have hagain : ∀ version, (d.cells row.identity).lock = some s →
      (d.cells row.identity).pending = some version → d.committed row.identity = some row →
      row.waitingFor = some identity → version = some row.woken :=
    fun version hlock hpending hcommitted hwaits =>
      (hmade _ version hlock hpending).2 row hcommitted hwaits
  rcases hcases with ⟨rfl, hnot⟩ | ⟨latest, rfl, hwaits, rfl⟩
  · refine ⟨.claim hclaim, claim_journal hclaim, fun other version hpending _ => ?_,
      fun other version hlock hpending => Or.inl (hd.claim_writes hclaim hlock hpending), ?_⟩
    · rw [claim_pending hclaim, hpending]
    · intro hcommitted hwaits
      have hpending : (d.cells row.identity).lock = some s ∧
          (d.cells row.identity).pending ≠ none := by
        by_contra hnone
        have hseen : d.seen s row.identity = some row := by
          rw [seen_of_unchanged, hcommitted]
          intro hlock
          by_contra hpending
          exact hnone ⟨hlock, hpending⟩
        rcases claim_cases hclaim with ⟨_, _, hgone⟩ | ⟨latest, hfound, hlatest, _, _, _⟩
        · exact hgone row hseen rfl
        · cases hseen.symm.trans hlatest
          exact hnot row hfound hwaits
      obtain ⟨hlock, hpending⟩ := hpending
      obtain ⟨version, hversion⟩ := Option.ne_none_iff_exists'.mp hpending
      cases hagain version hlock hversion hcommitted hwaits
      exact ⟨(Works.claim hclaim).kept _ hlock, (claim_pending hclaim).trans hversion⟩
  · rcases claim_cases hclaim with ⟨heq, _, _⟩ | ⟨_, heq, hseen, _, hfree, rfl⟩
    · cases heq
    cases heq
    -- what still waits is the committed version
    have hnone : (d.cells row.identity).lock = some s → (d.cells row.identity).pending = none := by
      intro hlock
      cases hpending : (d.cells row.identity).pending with
      | none => rfl
      | some version =>
        rw [seen_of_pending hlock hpending] at hseen
        exact absurd hwaits ((hmade _ version hlock hpending).1 latest hseen)
    have hcommitted : d.committed row.identity = some latest := by
      rwa [seen_of_unchanged hnone] at hseen
    refine ⟨(Works.claim hclaim).trans (.write _ (by rw [setCell_self]) ?_), rfl, ?_, ?_, ?_⟩
    · exact hd.version hcommitted rfl rfl
    · intro other version hpending hlock
      by_cases heq : other = row.identity
      · rw [heq] at hlock hpending
        rw [hnone hlock] at hpending
        cases hpending
      · rw [write, setCell_of_ne heq, setCell_of_ne heq, hpending]
    · intro other version hlock hpending
      by_cases heq : other = row.identity
      · rw [heq, write, setCell_self] at hpending
        cases hpending
        exact Or.inr ⟨latest, heq ▸ hcommitted, hwaits, rfl⟩
      · rw [write, setCell_of_ne heq, setCell_of_ne heq] at hlock hpending
        exact Or.inl ⟨hlock, hpending⟩
    · intro hcommitted' _
      cases hcommitted.symm.trans hcommitted'
      rw [write, setCell_self, setCell_self]
      exact ⟨rfl, rfl⟩

/-- Where only the rows left to wake differ, the assertion of the marker stays. -/
theorem Ok.woke {q : Process} {marked : CausalDependency} {found : List Row} (hd : Consistent o d)
    (hok : Ok o d s p) (hwoke : Woke s marked row d d') (hmarks : p.marks = some (marked, row :: found))
    (hmarks' : q.marks = some (marked, found)) (hslot : q.slot = p.slot) (hkey : q.key o = p.key o)
    (hjournal : q.journal = p.journal) (hhead : q.head = p.head)
    (hstands : ∀ head, p.Stands o head → q.Stands o head)
    (hwrote : ∀ version, p.Wrote version → q.Wrote version)
    (hmade : ∀ head, p.head = some head → (d.cells head.identity).pending ≠ none)
    (hwrites : ∀ before version, p.Writes before version ∨ Wakes marked before version →
      q.Writes before version)
    (hleft : q.left = p.left) (hawaits : q.awaits = none) (hnamed : q.Named o) (hsweeps : q.sweeps = []) :
    Ok o d' s q := by
  have hworks := hwoke.works
  constructor
  case slot =>
    intro slot h
    exact (hok.slot slot (hslot ▸ h)).imp_left (hworks.slot slot)
  case key =>
    intro key h
    exact hworks.key key (hok.key key (hkey ▸ h))
  case journal => rw [hwoke.journal, hok.journal, hjournal]
  case head =>
    intro head h
    rw [hhead] at h
    obtain ⟨hlock, hcommitted, hstands', hwrote'⟩ := hok.head head h
    obtain ⟨version, hversion⟩ := Option.ne_none_iff_exists'.mp (hmade head h)
    refine ⟨hworks.kept _ hlock, (hworks.committed _).trans hcommitted, hstands _ hstands', ?_⟩
    rw [hwoke.kept _ _ hversion hlock, ← hversion]
    exact hwrote _ hwrote'
  case writes =>
    intro identity version hlock hpending
    rw [hworks.committed]
    apply hwrites
    rcases hwoke.writes identity version hlock hpending with ⟨hlock, hpending⟩ | hwakes
    · exact Or.inl (hok.writes identity version hlock hpending)
    · exact Or.inr hwakes
  case checked =>
    rw [hworks.log, hleft]
    exact hok.checked
  case covered =>
    intro marked' found' h identity r hr hwaits
    cases hmarks'.symm.trans h
    rw [hworks.committed] at hr
    rcases hok.covered _ _ hmarks identity r hr hwaits with hmem | ⟨hlock, hpending⟩
    · rcases List.mem_cons.mp hmem with rfl | hmem
      · cases hd.identity _ _ hr
        exact Or.inr (hwoke.woken hr hwaits)
      · exact Or.inl hmem
    · exact Or.inr ⟨hworks.kept _ hlock, hwoke.kept _ _ hpending hlock⟩
  case unmarked =>
    intro dependency h
    exact nomatch hawaits.symm.trans h
  case named => exact hnamed
  case sweeps =>
    intro r h
    rw [hsweeps] at h
    cases h

/-- What a marker has made of a row that waited is the row woken, and what it has made waits no more. -/
theorem Wakes.made {other : CausalDependency} {version : Option Row} {before : Option Row}
    (h : Wakes identity before version) :
    (∀ r, version = some r → r.waitingFor ≠ some other) ∧
      ∀ r, before = some r → r.waitingFor = some other → version = some r.woken := by
  obtain ⟨r, rfl, _, rfl⟩ := h
  constructor
  · rintro _ ⟨⟩ hwaits
    cases hwaits
  · rintro _ ⟨⟩ _
    rfl

end AsceticDdd.Inbox
