import AsceticDdd.Inbox.Turns

/-!
# Locks without a cycle

As long as no dispatcher takes for its head a row that a mark or a resolve has found and not locked yet,
the marks and resolves that wait for each other are in the order of their snapshots.
-/

namespace AsceticDdd.Inbox

open Database Interleaving Relation

variable {o : PgInbox} {d d' : Database} {s : Nat} {p next : Process} {w w' : World} {a : Act}

/-- A row set aside was in the queue, and held. -/
theorem Change.waitingFor {row row' : Row} (h : Change p (some row) (some row')) :
    row'.waitingFor = row.waitingFor ∨ row'.waitingFor = none ∨ p.head = some row ∧ row.Queued := by
  cases h with
  | setAside _ dependency at_ hqueued hhead => exact Or.inr (Or.inr ⟨hhead, hqueued⟩)
  | failed => exact Or.inl rfl
  | marked => exact Or.inl rfl
  | resolved => exact Or.inl rfl
  | unparked => exact Or.inl rfl
  | woken => exact Or.inr (Or.inl rfl)
  | expired => exact Or.inr (Or.inl rfl)

/-- A row that neither waits nor is processed is changed by who holds it, or put back into the queue. -/
theorem Change.unwaiting {row : Row} {version : Option Row} (h : Change p (some row) version)
    (hwaits : row.waitingFor = none) (hprocessed : row.processedPosition = none) : p.head = some row ∨
      ∃ row', version = some row' ∧ row.Version row' ∧ row'.waitingFor = none ∧
        row'.processedPosition = none := by
  cases h with
  | setAside _ dependency at_ _ hhead => exact Or.inl hhead
  | failed _ error next parkedAt _ hhead => exact Or.inl hhead
  | marked _ position at_ _ _ hjournal => exact Or.inl (Process.number_head hjournal rfl)
  | resolved _ position at_ _ _ hjournal => exact Or.inl (Process.number_head hjournal rfl)
  | unparked => exact Or.inr ⟨_, rfl, ⟨rfl, rfl⟩, hwaits, hprocessed⟩
  | woken _ marked hwaits' => cases hwaits.symm.trans hwaits'
  | expired _ error at_ hwaits' => cases hwaits ▸ hwaits'
  | forgotten _ hprocessed' => cases hprocessed ▸ hprocessed'

/-- Waiting for `marked`, or for nothing. -/
def Row.WaitsOnlyFor (row : Row) (marked : CausalDependency) : Prop :=
  row.waitingFor = some marked ∨ row.waitingFor = none

/-- What holds of the marks and resolves at work, while no dispatcher takes what they have found. -/
structure Unhindered (w : World) : Prop where
  known : ∀ s row, (w.procs s).Finds row → row.receivedPosition < w.shared.next ∧
    ∀ t, (w.procs t).draws ≠ some row.receivedPosition
  counted : ∀ s marked n found, (w.procs s).wakes = some (marked, n, found) → n < w.shared.statements
  waits : ∀ s marked n found, (w.procs s).wakes = some (marked, n, found) → ∀ row ∈ found,
    ∀ latest, w.shared.committed row.identity = some latest →
      latest.receivedPosition = row.receivedPosition → latest.WaitsOnlyFor marked
  claims : ∀ s row, (w.procs s).claims = some row → ∃ latest, w.shared.committed row.identity = some latest ∧
    latest.receivedPosition = row.receivedPosition ∧ latest.waitingFor = none ∧
      latest.processedPosition = none
  heads : ∀ s t row head, (w.procs s).Finds row → (w.procs t).takes = some head →
    head.identity = row.identity → head.receivedPosition ≠ row.receivedPosition
  woken : ∀ s marked n found, (w.procs s).wakes = some (marked, n, found) → ∀ identity,
    (w.shared.cells identity).lock = some s →
      (∀ head, (w.procs s).head = some head → head.identity ≠ identity) →
        ∀ latest, w.shared.committed identity = some latest → latest.WaitsOnlyFor marked
  apart : ∀ s t, s ≠ t → ∀ marked n found marked' n' found',
    (w.procs s).wakes = some (marked, n, found) → (w.procs t).wakes = some (marked', n', found') →
      ∀ row ∈ found, ∀ row' ∈ found', row'.identity = row.identity →
        row'.receivedPosition ≠ row.receivedPosition
  held : ∀ s t, s ≠ t → ∀ marked n found marked' n' found',
    (w.procs s).wakes = some (marked, n, found) → (w.procs t).wakes = some (marked', n', found') →
      ∀ row ∈ found, (w.shared.cells row.identity).lock = some t → ∀ latest,
        w.shared.committed row.identity = some latest → latest.receivedPosition = row.receivedPosition →
          ∃ head, (w.procs t).head = some head ∧ head.identity = row.identity
  later : ∀ s t marked n found row resolved n', (w.procs s).wakes = some (marked, n, found) → row ∈ found →
    (w.procs t).resolves = some (resolved, n') → resolved.identity = row.identity →
      resolved.receivedPosition = row.receivedPosition → n < n'

/-- A dispatcher does not go for a row that a mark or a resolve has found and not locked yet. -/
def LeavesFound (w : World) (i : Nat) (a : Act) : Prop :=
  a = .next → ∀ begunAt slot row found, w.procs i = .dispatcher begunAt (.heading slot (row :: found)) →
    ∀ t r, (w.procs t).Finds r → row.identity = r.identity → row.receivedPosition ≠ r.receivedPosition

namespace Unhindered

variable {i : Nat}

theorem finds_of_wakes {marked : CausalDependency} {n : Nat} {found : List Row} {row : Row}
    (h : p.wakes = some (marked, n, found)) (hrow : row ∈ found) : p.Finds row :=
  Or.inl ⟨marked, n, found, h, hrow⟩

/-- A session other than a dispatcher that holds a row of its own marks it by hand. -/
theorem takes_or_resolves (hok : Ok o d s p) {head : Row} (hhead : p.head = some head) :
    p.takes = some head ∨ p.key o = some (o.lockKey head.identity) ∧ head.parkedAt.isSome := by
  have hstands := (hok.head head hhead).2.2.1
  cases p with
  | dispatcher => exact Or.inl hhead
  | resolver identity q =>
    obtain ⟨hparked, hidentity⟩ := hstands
    rw [hidentity]
    right
    cases q with
    | waking => exact ⟨rfl, hparked⟩
    | done resolved =>
      cases resolved with
      | none => cases hhead
      | some => exact ⟨rfl, hparked⟩
    | _ => cases hhead
  | _ => cases hhead

/-- What another's commit makes of a row found was a version of it. -/
theorem finish_found (h : Unhindered w) (hok : Ok o w.shared i (w.procs i)) {t : Nat} {row latest : Row}
    (hfinds : (w.procs t).Finds row) (hlatest : (w.shared.finish i true).committed row.identity = some latest)
    (hposition : latest.receivedPosition = row.receivedPosition) :
    w.shared.committed row.identity = some latest ∨ ∃ old, w.shared.committed row.identity = some old ∧
      old.receivedPosition = row.receivedPosition ∧ Change (w.procs i) (some old) (some latest) := by
  rcases hok.finish_committed hlatest with hsame | hchange
  · exact Or.inl hsame
  · rcases hchange.version with ⟨_, hdraws, _⟩ | ⟨old, hold, hversion, _⟩
    · exact absurd (hposition ▸ hdraws) ((h.known t row hfinds).2 i)
    · exact Or.inr ⟨old, hold, hversion.2.symm.trans hposition, hold ▸ hchange⟩

/-- Another's commit makes no row found wait for something else. -/
theorem finish_waits (h : Unhindered w) (hinvariant : Invariant o w) {t : Nat} {marked : CausalDependency}
    {n : Nat} {found : List Row} (hwakes : (w.procs t).wakes = some (marked, n, found)) {row latest : Row}
    (hrow : row ∈ found) (hlatest : (w.shared.finish i true).committed row.identity = some latest)
    (hposition : latest.receivedPosition = row.receivedPosition) : latest.WaitsOnlyFor marked := by
  have hfinds := finds_of_wakes hwakes hrow
  rcases h.finish_found (hinvariant.ok i) hfinds hlatest hposition with hsame | ⟨old, hold, hposition', hchange⟩
  · exact h.waits t marked n found hwakes row hrow latest hsame hposition
  · rcases hchange.waitingFor with hsame | hnone | ⟨hhead, hqueued⟩
    · rw [Row.WaitsOnlyFor, hsame]
      exact h.waits t marked n found hwakes row hrow old hold hposition'
    · exact Or.inr hnone
    · rcases takes_or_resolves (hinvariant.ok i) hhead with htakes | ⟨_, hparked⟩
      · exact absurd hposition' (h.heads t i row old hfinds htakes (hinvariant.consistent.identity _ _ hold))
      · cases hqueued.2.1 ▸ hparked

/-- Nor does it take a row found to be resolved away. -/
theorem finish_claims (h : Unhindered w) (hinvariant : Invariant o w) {t : Nat} (ht : t ≠ i) {row : Row}
    (hclaims : (w.procs t).claims = some row) :
    ∃ latest, (w.shared.finish i true).committed row.identity = some latest ∧
      latest.receivedPosition = row.receivedPosition ∧ latest.waitingFor = none ∧
        latest.processedPosition = none := by
  obtain ⟨latest, hlatest, hposition, hwaits, hprocessed⟩ := h.claims t row hclaims
  rcases (hinvariant.ok i).finish_change row.identity with hsame | hchange
  · exact ⟨latest, hsame.trans hlatest, hposition, hwaits, hprocessed⟩
  · rw [hlatest] at hchange
    have hidentity := hinvariant.consistent.identity _ _ hlatest
    rcases hchange.unwaiting hwaits hprocessed with hhead | ⟨latest', hlatest', hversion, hwaits', hprocessed'⟩
    · exfalso
      rcases takes_or_resolves (hinvariant.ok i) hhead with htakes | ⟨hkey, _⟩
      · exact h.heads t i row latest (Or.inr hclaims) htakes hidentity hposition
      · have hown := (hinvariant.ok i).key _ hkey
        have hok := hinvariant.ok t
        cases hp : w.procs t with
        | resolver identity q =>
          rw [hp] at hclaims hok
          cases q with
          | claiming =>
            cases hclaims
            have hnamed : row.identity = identity := hok.named
            have hother := hok.key _ rfl
            rw [hidentity, hnamed, hother, Option.some.injEq] at hown
            exact ht hown
          | _ => cases hclaims
        | _ => rw [hp] at hclaims; cases hclaims
    · exact ⟨latest', hlatest', hversion.2.trans hposition, hwaits', hprocessed'⟩

theorem finds_iff {t : Nat} {row : Row} {procs : Nat → Process}
    (hwakes : ∀ x, (procs t).wakes = some x → (w.procs t).wakes = some x)
    (hclaims : ∀ x, (procs t).claims = some x → (w.procs t).claims = some x)
    (h : (procs t).Finds row) : (w.procs t).Finds row :=
  h.imp (fun ⟨marked, n, found, hw, hrow⟩ => ⟨marked, n, found, hwakes _ hw, hrow⟩) (hclaims row)

/-- A transaction's end takes nothing that another has found. -/
theorem ends (h : Unhindered w) (hinvariant : Invariant o w) (commits : Bool) (hwakes : next.wakes = none)
    (hclaims : next.claims = none) (hresolves : next.resolves = none) (htakes : next.takes = none)
    (hdraws : next.draws = none) :
    Unhindered ⟨w.shared.finish i commits, Function.update w.procs i next⟩ := by
  have hself : Function.update w.procs i next i = next := Function.update_self ..
  have hother : ∀ t, t ≠ i → Function.update w.procs i next t = w.procs t := fun t ht =>
    Function.update_of_ne ht ..
  have hwakes : ∀ t x, (Function.update w.procs i next t).wakes = some x →
      t ≠ i ∧ (w.procs t).wakes = some x := by
    intro t x hx
    by_cases ht : t = i
    · rw [ht, hself, hwakes] at hx
      cases hx
    · exact ⟨ht, hother t ht ▸ hx⟩
  have hclaims : ∀ t x, (Function.update w.procs i next t).claims = some x →
      t ≠ i ∧ (w.procs t).claims = some x := by
    intro t x hx
    by_cases ht : t = i
    · rw [ht, hself, hclaims] at hx
      cases hx
    · exact ⟨ht, hother t ht ▸ hx⟩
  have hfinds : ∀ t row, (Function.update w.procs i next t).Finds row → (w.procs t).Finds row := fun t row hf =>
    finds_iff (fun x hx => (hwakes t x hx).2) (fun x hx => (hclaims t x hx).2) hf
  have hcell : ∀ t identity, t ≠ i → (w.shared.cells identity).lock = some t →
      (w.shared.finish i commits).committed identity = w.shared.committed identity := by
    intro t identity ht hlock
    rw [Database.committed, finish_cell (by rwa [hlock, ne_eq, Option.some.injEq])]
    rfl
  have hlock : ∀ t identity, ((w.shared.finish i commits).cells identity).lock = some t →
      (w.shared.cells identity).lock = some t := by
    intro t identity hlock
    rwa [finish_cell (finish_locked hlock)] at hlock
  constructor
  case known =>
    intro t row hf
    obtain ⟨hlt, hnot⟩ := h.known t row (hfinds t row hf)
    refine ⟨hlt, fun u hu => ?_⟩
    by_cases hui : u = i
    · simp only [hui, hself, hdraws] at hu
      cases hu
    · simp only [hother u hui] at hu
      exact hnot u hu
  case counted => exact fun t marked n found hw => h.counted t marked n found (hwakes t _ hw).2
  case waits =>
    intro t marked n found hw row hrow latest hlatest hposition
    have hold := (hwakes t _ hw).2
    cases commits with
    | false => exact h.waits t marked n found hold row hrow latest (committed_rolledBack ▸ hlatest) hposition
    | true => exact h.finish_waits hinvariant hold hrow hlatest hposition
  case claims =>
    intro t row hc
    obtain ⟨ht, hold⟩ := hclaims t row hc
    cases commits with
    | false =>
      simp only [committed_rolledBack]
      exact h.claims t row hold
    | true => exact h.finish_claims hinvariant ht hold
  case heads =>
    intro t u row head hf htaken
    by_cases hui : u = i
    · simp only [hui, hself, htakes] at htaken
      cases htaken
    · simp only [hother u hui] at htaken
      exact h.heads t u row head (hfinds t row hf) htaken
  case woken =>
    intro t marked n found hw identity hheld hhead latest hlatest
    obtain ⟨ht, hw⟩ := hwakes t _ hw
    simp only [hother t ht] at hhead
    have hheld := hlock t identity hheld
    exact h.woken t marked n found hw identity hheld hhead latest (hcell t identity ht hheld ▸ hlatest)
  case apart =>
    intro t u htu marked n found marked' n' found' hw hw'
    exact h.apart t u htu marked n found marked' n' found' (hwakes t _ hw).2 (hwakes u _ hw').2
  case held =>
    intro t u htu marked n found marked' n' found' hw hw' row hrow hheld latest hlatest hposition
    obtain ⟨hu, hw'⟩ := hwakes u _ hw'
    have hheld := hlock u row.identity hheld
    simp only [hother u hu]
    exact h.held t u htu marked n found marked' n' found' (hwakes t _ hw).2 hw' row hrow hheld latest
      (hcell u row.identity hu hheld ▸ hlatest) hposition
  case later =>
    intro t u marked n found row resolved n' hw hrow hr
    by_cases hui : u = i
    · simp only [hui, hself, hresolves] at hr
      cases hr
    · simp only [hother u hui] at hr
      exact h.later t u marked n found row resolved n' (hwakes t _ hw).2 hrow hr

/-- What a step within a transaction leaves of the others. -/
structure Beside (w : World) (i : Nat) (d : Database) (next : Process) : Prop where
  same : ∀ identity, d.committed identity = w.shared.committed identity
  locks : ∀ t identity, t ≠ i → (d.cells identity).lock = some t → (w.shared.cells identity).lock = some t
  numbers : w.shared.next ≤ d.next
  statements : w.shared.statements ≤ d.statements
  draws : ∀ position, next.draws = some position →
    (w.procs i).draws = some position ∨ position = w.shared.next

theorem Beside.known (hb : Beside w i d next) {row : Row} (hlt : row.receivedPosition < w.shared.next)
    (hnot : ∀ t, (w.procs t).draws ≠ some row.receivedPosition) : row.receivedPosition < d.next ∧
      ∀ t, (Function.update w.procs i next t).draws ≠ some row.receivedPosition := by
  refine ⟨hlt.trans_le hb.numbers, fun t hdraws => ?_⟩
  by_cases ht : t = i
  · subst ht
    rw [Function.update_self] at hdraws
    rcases hb.draws _ hdraws with hold | hnew
    · exact hnot t hold
    · exact hlt.ne hnew
  · rw [Function.update_of_ne ht] at hdraws
    exact hnot t hdraws

/-- Which rows a waking session may hold after the step: its own, those held before, and one of those
found. -/
def Gained (w : World) (d : Database) (t : Nat) (before after : Process) (found : List Row)
    (identity : CausalDependency) : Prop :=
  (∃ head, after.head = some head ∧ head.identity = identity) ∨
  ((w.shared.cells identity).lock = some t ∧ after.head = before.head) ∨
  ∃ row ∈ found, row.identity = identity ∧
    ∃ latest, d.committed identity = some latest ∧ latest.receivedPosition = row.receivedPosition

/-- A step after which nothing new is found. -/
theorem fades (h : Unhindered w) (hb : Beside w i d next)
    (hwakes : ∀ t marked n found', (Function.update w.procs i next t).wakes = some (marked, n, found') →
      ∃ found, (w.procs t).wakes = some (marked, n, found) ∧ (∀ row ∈ found', row ∈ found) ∧
        ∀ identity, (d.cells identity).lock = some t →
          Gained w d t (w.procs t) (Function.update w.procs i next t) found identity)
    (hclaims : ∀ t row, (Function.update w.procs i next t).claims = some row → (w.procs t).claims = some row)
    (hresolves : ∀ t row n, (Function.update w.procs i next t).resolves = some (row, n) →
      ∃ old, (w.procs t).resolves = some (old, n) ∧ row.identity = old.identity ∧
        row.receivedPosition = old.receivedPosition)
    (hheads : ∀ t u row head, (w.procs t).Finds row → (Function.update w.procs i next u).takes = some head →
      head.identity = row.identity → head.receivedPosition ≠ row.receivedPosition) :
    Unhindered ⟨d, Function.update w.procs i next⟩ := by
  have hfinds : ∀ t row, (Function.update w.procs i next t).Finds row → (w.procs t).Finds row := by
    rintro t row (⟨marked, n, found', hw, hrow⟩ | hc)
    · obtain ⟨found, hw, hsub, _⟩ := hwakes t marked n found' hw
      exact finds_of_wakes hw (hsub row hrow)
    · exact Or.inr (hclaims t row hc)
  constructor
  case known =>
    intro t row hf
    obtain ⟨hlt, hnot⟩ := h.known t row (hfinds t row hf)
    exact hb.known hlt hnot
  case counted =>
    intro t marked n found' hw
    obtain ⟨found, hw, _⟩ := hwakes t marked n found' hw
    exact (h.counted t marked n found hw).trans_le hb.statements
  case waits =>
    intro t marked n found' hw row hrow latest hlatest
    obtain ⟨found, hw, hsub, _⟩ := hwakes t marked n found' hw
    exact h.waits t marked n found hw row (hsub row hrow) latest (hb.same _ ▸ hlatest)
  case claims =>
    intro t row hc
    simp only [hb.same]
    exact h.claims t row (hclaims t row hc)
  case heads => exact fun t u row head hf => hheads t u row head (hfinds t row hf)
  case woken =>
    intro t marked n found' hw identity hlock hhead latest hlatest
    obtain ⟨found, hw, hsub, hgained⟩ := hwakes t marked n found' hw
    have hlatest' := hb.same _ ▸ hlatest
    rcases hgained identity hlock with ⟨head, hown, hidentity⟩ | ⟨hlock, hsame⟩ |
      ⟨row, hrow, rfl, latest', hlatest'', hposition⟩
    · exact absurd hidentity (hhead head hown)
    · exact h.woken t marked n found hw identity hlock (fun head hown => hhead head (hsame ▸ hown)) latest hlatest'
    · cases hlatest.symm.trans hlatest''
      exact h.waits t marked n found hw row hrow latest hlatest' hposition
  case apart =>
    intro t u htu marked n found marked' n' found' hw hw' row hrow row' hrow'
    obtain ⟨_, hw, hsub, _⟩ := hwakes t marked n found hw
    obtain ⟨_, hw', hsub', _⟩ := hwakes u marked' n' found' hw'
    exact h.apart t u htu _ _ _ _ _ _ hw hw' row (hsub row hrow) row' (hsub' row' hrow')
  case held =>
    intro t u htu marked n found marked' n' found' hw hw' row hrow hlock latest hlatest hposition
    obtain ⟨_, hw, hsub, _⟩ := hwakes t marked n found hw
    obtain ⟨_, hw', hsub', hgained⟩ := hwakes u marked' n' found' hw'
    rcases hgained row.identity hlock with hown | ⟨hlock, hsame⟩ |
      ⟨row', hrow', hidentity, latest', hlatest', hposition'⟩
    · exact hown
    · obtain ⟨head, hhead, hidentity⟩ := h.held t u htu _ _ _ _ _ _ hw hw' row (hsub row hrow) hlock latest
        (hb.same _ ▸ hlatest) hposition
      exact ⟨head, hsame.trans hhead, hidentity⟩
    · cases hlatest.symm.trans hlatest'
      exact absurd (hposition'.symm.trans hposition)
        (h.apart t u htu _ _ _ _ _ _ hw hw' row (hsub row hrow) row' hrow' hidentity)
  case later =>
    intro t u marked n found row resolved n' hw hrow hr hidentity hposition
    obtain ⟨_, hw, hsub, _⟩ := hwakes t marked n found hw
    obtain ⟨old, hr, hidentity', hposition'⟩ := hresolves u resolved n' hr
    exact h.later t u _ _ _ row old n' hw (hsub row hrow) hr (hidentity'.symm.trans hidentity)
      (hposition'.symm.trans hposition)

/-- Nobody else is at the mark of an identity when its snapshot is taken. -/
theorem excludes (h : Unhindered w) (hinvariant : Invariant o w) {marked : CausalDependency}
    (hmarker : (∃ begunAt slot row, w.procs i = .dispatcher begunAt (.marking slot row) ∧
        row.identity = marked) ∨
      w.procs i = .resolver marked .locked ∧
        ∃ row, w.shared.committed marked = some row ∧ row.parkedAt.isSome) {t : Nat} (ht : t ≠ i)
    (n : Nat) (found : List Row) : (w.procs t).wakes ≠ some (marked, n, found) := by
  intro hwakes
  have hoki := hinvariant.ok i
  have hokt := hinvariant.ok t
  rcases hmarker with ⟨begunAt, slot, row, hp, rfl⟩ | ⟨hp, row, hrow, hparked⟩
  · rw [hp] at hoki
    obtain ⟨hlock, hcommitted, hqueued, _⟩ := hoki.stands rfl
    have hnot : ∀ other, other.identity = row.identity → (w.procs t).head = some other → False := by
      intro other hidentity hhead
      have hother := (hokt.head other hhead).1
      rw [hidentity, hlock, Option.some.injEq] at hother
      exact ht hother.symm
    cases hq : w.procs t with
    | dispatcher begunAt' q =>
      cases q with
      | waking slot' row' =>
        rw [hq] at hwakes
        exact hnot row' (Prod.ext_iff.mp (Option.some.inj hwakes)).1 (by rw [hq]; rfl)
      | _ => rw [hq] at hwakes; cases hwakes
    | resolver identity q =>
      cases q with
      | claiming row' =>
        have hclaims : (w.procs t).claims = some row' := by rw [hq]; rfl
        obtain ⟨latest, hlatest, hposition, _⟩ := h.claims t row' hclaims
        rw [hq] at hwakes hokt
        cases hwakes
        have hnamed : row'.identity = row.identity := hokt.named
        rw [hnamed, hcommitted] at hlatest
        cases hlatest
        exact h.heads t i row' row (Or.inr hclaims) (by rw [hp]; rfl) hnamed.symm hposition
      | waking row' =>
        have hstands : (w.procs t).Stands o row' := (hokt.head row' (by rw [hq]; rfl)).2.2.1
        rw [hq] at hwakes hstands
        cases hwakes
        exact hnot row' hstands.2 (by rw [hq]; rfl)
      | _ => rw [hq] at hwakes; cases hwakes
    | _ => rw [hq] at hwakes; cases hwakes
  · rw [hp] at hoki
    have hkey := hoki.key _ rfl
    have hnot : (w.procs t).key o = some (o.lockKey marked) → False := by
      intro hother
      have hother := hokt.key _ hother
      rw [hkey, Option.some.injEq] at hother
      exact ht hother.symm
    cases hq : w.procs t with
    | dispatcher begunAt' q =>
      cases q with
      | waking slot' row' =>
        rw [hq] at hwakes hokt
        cases hwakes
        obtain ⟨_, hcommitted, hqueued, _⟩ := hokt.stands rfl
        cases hrow.symm.trans hcommitted
        cases hqueued.2.1 ▸ hparked
      | _ => rw [hq] at hwakes; cases hwakes
    | resolver identity q =>
      cases q with
      | claiming => rw [hq] at hwakes hnot; cases hwakes; exact hnot rfl
      | waking => rw [hq] at hwakes hnot; cases hwakes; exact hnot rfl
      | _ => rw [hq] at hwakes; cases hwakes
    | _ => rw [hq] at hwakes; cases hwakes

/-- A row being resolved does not wait. -/
theorem resolves_waits (h : Unhindered w) (hinvariant : Invariant o w) {t n : Nat} {row latest : Row}
    (hresolves : (w.procs t).resolves = some (row, n)) (hlatest : w.shared.committed row.identity = some latest)
    (hposition : latest.receivedPosition = row.receivedPosition) : latest.waitingFor = none := by
  have hok := hinvariant.ok t
  cases hq : w.procs t with
  | resolver identity q =>
    cases q with
    | claiming row' =>
      have hclaims : (w.procs t).claims = some row' := by rw [hq]; rfl
      rw [hq] at hresolves
      cases hresolves
      obtain ⟨latest', hlatest', _, hwaits, _⟩ := h.claims t row hclaims
      cases hlatest.symm.trans hlatest'
      exact hwaits
    | waking row' =>
      rw [hq] at hresolves hok
      cases hresolves
      obtain ⟨_, hcommitted, hstands, _⟩ := hok.head row rfl
      cases hlatest.symm.trans hcommitted
      exact (hinvariant.consistent.stands _ _ hcommitted).parked hstands.1
    | _ => rw [hq] at hresolves; cases hresolves
  | _ => rw [hq] at hresolves; cases hresolves

/-- A step that takes the snapshot of what waits for `marked`. -/
structure Finding (w : World) (i : Nat) (d : Database) (next : Process) (marked : CausalDependency)
    (rows : List Row) : Prop where
  wakes : next.wakes = some (marked, w.shared.statements, rows)
  statements : w.shared.statements < d.statements
  found : ∀ row ∈ rows, w.shared.committed row.identity = some row ∧ row.waitingFor = some marked
  claims : ∀ row, next.claims = some row → w.shared.committed row.identity = some row ∧ row.parkedAt.isSome
  resolves : ∀ row n, next.resolves = some (row, n) →
    w.shared.committed row.identity = some row ∧ row.parkedAt.isSome ∧ n = w.shared.statements
  takes : next.takes = (w.procs i).takes
  locks : ∀ identity, (d.cells identity).lock = some i → ∃ head, next.head = some head ∧ head.identity = identity
  excludes : ∀ t, t ≠ i → ∀ n found, (w.procs t).wakes ≠ some (marked, n, found)

namespace Finding

variable {marked : CausalDependency} {rows : List Row}

/-- What is found waits for the mark, or is the parked row resolved. -/
theorem finds (f : Finding w i d next marked rows) {row : Row} (h : next.Finds row) :
    w.shared.committed row.identity = some row ∧ (row.waitingFor = some marked ∨ row.parkedAt.isSome) := by
  rcases h with ⟨_, _, found, hwakes, hrow⟩ | hclaims
  · cases f.wakes.symm.trans hwakes
    exact (f.found row hrow).imp_right Or.inl
  · exact (f.claims row hclaims).imp_right Or.inr

theorem takes_eq (f : Finding w i d next marked rows) (t : Nat) :
    (Function.update w.procs i next t).takes = (w.procs t).takes := by
  by_cases ht : t = i
  · rw [ht, Function.update_self, f.takes]
  · rw [Function.update_of_ne ht]

/-- What is woken after the step is what was just found, or another's as before. -/
theorem wakes_cases (f : Finding w i d next marked rows) {t n : Nat} {marked' : CausalDependency}
    {found : List Row} (hwakes : (Function.update w.procs i next t).wakes = some (marked', n, found)) :
    t = i ∧ marked' = marked ∧ n = w.shared.statements ∧ found = rows ∨
      t ≠ i ∧ (w.procs t).wakes = some (marked', n, found) := by
  by_cases ht : t = i
  · rw [ht, Function.update_self] at hwakes
    cases f.wakes.symm.trans hwakes
    exact Or.inl ⟨ht, rfl, rfl, rfl⟩
  · rw [Function.update_of_ne ht] at hwakes
    exact Or.inr ⟨ht, hwakes⟩

theorem known (f : Finding w i d next marked rows) (h : Unhindered w) (hb : Beside w i d next)
    (hnumbering : Numbering o w) {t : Nat} {row : Row} (hfinds : (Function.update w.procs i next t).Finds row) :
    row.receivedPosition < d.next ∧
      ∀ u, (Function.update w.procs i next u).draws ≠ some row.receivedPosition := by
  by_cases ht : t = i
  · rw [ht, Function.update_self] at hfinds
    obtain ⟨hrow, _⟩ := f.finds hfinds
    exact hb.known (hnumbering.stored _ _ hrow) fun u hu => (hnumbering.drawn u _ hu).2 _ _ hrow rfl
  · rw [Function.update_of_ne ht] at hfinds
    obtain ⟨hlt, hnot⟩ := h.known t row hfinds
    exact hb.known hlt hnot

theorem counted (f : Finding w i d next marked rows) (h : Unhindered w) {t n : Nat}
    {marked' : CausalDependency} {found : List Row}
    (hwakes : (Function.update w.procs i next t).wakes = some (marked', n, found)) : n < d.statements := by
  rcases f.wakes_cases hwakes with ⟨_, _, rfl, _⟩ | ⟨_, hwakes⟩
  · exact f.statements
  · exact (h.counted t marked' n found hwakes).trans f.statements

theorem waits (f : Finding w i d next marked rows) (h : Unhindered w) {t n : Nat}
    {marked' : CausalDependency} {found : List Row}
    (hwakes : (Function.update w.procs i next t).wakes = some (marked', n, found)) {row latest : Row}
    (hrow : row ∈ found) (hlatest : w.shared.committed row.identity = some latest)
    (hposition : latest.receivedPosition = row.receivedPosition) : latest.WaitsOnlyFor marked' := by
  rcases f.wakes_cases hwakes with ⟨_, rfl, _, rfl⟩ | ⟨_, hwakes⟩
  · obtain ⟨hcommitted, hwaits⟩ := f.found row hrow
    cases hlatest.symm.trans hcommitted
    exact Or.inl hwaits
  · exact h.waits t marked' n found hwakes row hrow latest hlatest hposition

theorem claimed (f : Finding w i d next marked rows) (h : Unhindered w) (hd : Consistent o w.shared)
    {t : Nat} {row : Row} (hclaims : (Function.update w.procs i next t).claims = some row) :
    ∃ latest, w.shared.committed row.identity = some latest ∧
      latest.receivedPosition = row.receivedPosition ∧ latest.waitingFor = none ∧
        latest.processedPosition = none := by
  by_cases ht : t = i
  · rw [ht, Function.update_self] at hclaims
    obtain ⟨hrow, hparked⟩ := f.claims row hclaims
    have hstands := hd.stands _ _ hrow
    exact ⟨row, hrow, rfl, hstands.parked hparked, hstands.unprocessed (Or.inl hparked)⟩
  · rw [Function.update_of_ne ht] at hclaims
    exact h.claims t row hclaims

theorem heads (f : Finding w i d next marked rows) (h : Unhindered w) (hinvariant : Invariant o w)
    {t u : Nat} {row head : Row} (hfinds : (Function.update w.procs i next t).Finds row)
    (htakes : (Function.update w.procs i next u).takes = some head) (hidentity : head.identity = row.identity) :
    head.receivedPosition ≠ row.receivedPosition := by
  rw [f.takes_eq] at htakes
  by_cases ht : t = i
  · rw [ht, Function.update_self] at hfinds
    obtain ⟨hrow, hwaits⟩ := f.finds hfinds
    exfalso
    -- A head is in the queue: it neither waits nor is parked.
    have hok := hinvariant.ok u
    cases hq : w.procs u with
    | dispatcher =>
      rw [hq] at htakes hok
      obtain ⟨_, hcommitted, hqueued, _⟩ := hok.stands htakes
      rw [hidentity, hrow, Option.some.injEq] at hcommitted
      subst hcommitted
      rcases hwaits with hwaits | hparked
      · cases hqueued.2.2.symm.trans hwaits
      · cases hqueued.2.1 ▸ hparked
    | _ => rw [hq] at htakes; cases htakes
  · rw [Function.update_of_ne ht] at hfinds
    exact h.heads t u row head hfinds htakes hidentity

theorem woken (f : Finding w i d next marked rows) (h : Unhindered w) (hb : Beside w i d next) {t n : Nat}
    {marked' : CausalDependency} {found : List Row}
    (hwakes : (Function.update w.procs i next t).wakes = some (marked', n, found)) {identity : CausalDependency}
    (hlock : (d.cells identity).lock = some t)
    (hhead : ∀ head, (Function.update w.procs i next t).head = some head → head.identity ≠ identity)
    {latest : Row} (hlatest : w.shared.committed identity = some latest) : latest.WaitsOnlyFor marked' := by
  rcases f.wakes_cases hwakes with ⟨rfl, _⟩ | ⟨ht, hwakes⟩
  · rw [Function.update_self] at hhead
    obtain ⟨head, hown, hidentity⟩ := f.locks identity hlock
    exact absurd hidentity (hhead head hown)
  · rw [Function.update_of_ne ht] at hhead
    exact h.woken t marked' n found hwakes identity (hb.locks t identity ht hlock) hhead latest hlatest

/-- What another has found or woken does not wait for what is marked here. -/
theorem unfound (f : Finding w i d next marked rows) {t n : Nat} (ht : t ≠ i) {marked' : CausalDependency}
    {found : List Row} (hwakes : (w.procs t).wakes = some (marked', n, found)) {row : Row} (hrow : row ∈ rows) :
    ¬row.WaitsOnlyFor marked' := by
  obtain ⟨_, hwaits⟩ := f.found row hrow
  rintro (hwaits' | hnone)
  · cases hwaits.symm.trans hwaits'
    exact f.excludes t ht n found hwakes
  · cases hwaits.symm.trans hnone

theorem beside (f : Finding w i d next marked rows) (h : Unhindered w) {t n : Nat} (ht : t ≠ i)
    {marked' : CausalDependency} {found : List Row} (hwakes : (w.procs t).wakes = some (marked', n, found))
    {row row' : Row} (hrow : row ∈ rows) (hrow' : row' ∈ found) (hidentity : row'.identity = row.identity) :
    row'.receivedPosition ≠ row.receivedPosition := by
  intro hposition
  obtain ⟨hcommitted, _⟩ := f.found row hrow
  exact f.unfound ht hwakes hrow
    (h.waits t marked' n found hwakes row' hrow' row (hidentity ▸ hcommitted) hposition.symm)

theorem apart (f : Finding w i d next marked rows) (h : Unhindered w) {t u n n' : Nat} (htu : t ≠ u)
    {marked₁ marked₂ : CausalDependency} {found found' : List Row}
    (hwakes : (Function.update w.procs i next t).wakes = some (marked₁, n, found))
    (hwakes' : (Function.update w.procs i next u).wakes = some (marked₂, n', found'))
    {row row' : Row} (hrow : row ∈ found) (hrow' : row' ∈ found') (hidentity : row'.identity = row.identity) :
    row'.receivedPosition ≠ row.receivedPosition := by
  rcases f.wakes_cases hwakes with ⟨hself, _, _, rfl⟩ | ⟨ht, hold⟩ <;>
    rcases f.wakes_cases hwakes' with ⟨hself', _, _, rfl⟩ | ⟨hu, hold'⟩
  · exact absurd (hself.trans hself'.symm) htu
  · exact f.beside h hu hold' hrow hrow' hidentity
  · exact Ne.symm (f.beside h ht hold hrow' hrow hidentity.symm)
  · exact h.apart t u htu _ _ _ _ _ _ hold hold' row hrow row' hrow' hidentity

theorem held (f : Finding w i d next marked rows) (h : Unhindered w) (hb : Beside w i d next)
    {t u n n' : Nat} (htu : t ≠ u) {marked₁ marked₂ : CausalDependency} {found found' : List Row}
    (hwakes : (Function.update w.procs i next t).wakes = some (marked₁, n, found))
    (hwakes' : (Function.update w.procs i next u).wakes = some (marked₂, n', found'))
    {row latest : Row} (hrow : row ∈ found) (hlock : (d.cells row.identity).lock = some u)
    (hlatest : w.shared.committed row.identity = some latest)
    (hposition : latest.receivedPosition = row.receivedPosition) :
    ∃ head, (Function.update w.procs i next u).head = some head ∧ head.identity = row.identity := by
  rcases f.wakes_cases hwakes' with ⟨rfl, _⟩ | ⟨hu, hwakes'⟩
  · rw [Function.update_self]
    exact f.locks row.identity hlock
  · rw [Function.update_of_ne hu]
    have hlock := hb.locks u row.identity hu hlock
    rcases f.wakes_cases hwakes with ⟨_, _, _, rfl⟩ | ⟨_, hwakes⟩
    · -- It is not one that the other has woken, so it is the head it has.
      by_contra hnone
      obtain ⟨hcommitted, _⟩ := f.found row hrow
      exact f.unfound hu hwakes' hrow (h.woken u _ _ _ hwakes' row.identity hlock
        (fun head hhead hidentity => hnone ⟨head, hhead, hidentity⟩) row hcommitted)
    · exact h.held t u htu _ _ _ _ _ _ hwakes hwakes' row hrow hlock latest hlatest hposition

theorem later (f : Finding w i d next marked rows) (h : Unhindered w) (hinvariant : Invariant o w)
    {t u n n' : Nat} {marked' : CausalDependency} {found : List Row} {row resolved : Row}
    (hwakes : (Function.update w.procs i next t).wakes = some (marked', n, found)) (hrow : row ∈ found)
    (hresolves : (Function.update w.procs i next u).resolves = some (resolved, n'))
    (hidentity : resolved.identity = row.identity)
    (hposition : resolved.receivedPosition = row.receivedPosition) : n < n' := by
  rcases f.wakes_cases hwakes with ⟨_, _, _, rfl⟩ | ⟨_, hwakes⟩
  · -- A row being resolved does not wait.
    obtain ⟨hcommitted, hwaits⟩ := f.found row hrow
    exfalso
    by_cases hu : u = i
    · rw [hu, Function.update_self] at hresolves
      obtain ⟨hcommitted', hparked, _⟩ := f.resolves resolved n' hresolves
      rw [hidentity, hcommitted, Option.some.injEq] at hcommitted'
      subst hcommitted'
      cases hwaits.symm.trans ((hinvariant.consistent.stands _ _ hcommitted).parked hparked)
    · rw [Function.update_of_ne hu] at hresolves
      cases hwaits.symm.trans (h.resolves_waits hinvariant hresolves (hidentity ▸ hcommitted) hposition.symm)
  · by_cases hu : u = i
    · rw [hu, Function.update_self] at hresolves
      obtain ⟨_, _, rfl⟩ := f.resolves resolved n' hresolves
      exact h.counted t marked' n found hwakes
    · rw [Function.update_of_ne hu] at hresolves
      exact h.later t u marked' n found row resolved n' hwakes hrow hresolves hidentity hposition

/-- A snapshot of what waits. -/
theorem unhindered (f : Finding w i d next marked rows) (h : Unhindered w) (hb : Beside w i d next)
    (hinvariant : Invariant o w) (hnumbering : Numbering o w) :
    Unhindered ⟨d, Function.update w.procs i next⟩ where
  known _ _ hfinds := f.known h hb hnumbering hfinds
  counted _ _ _ _ hwakes := f.counted h hwakes
  waits _ _ _ _ hwakes _ hrow _ hlatest hposition := f.waits h hwakes hrow (hb.same _ ▸ hlatest) hposition
  claims t row hclaims := by
    simp only [hb.same]
    exact f.claimed h hinvariant.consistent hclaims
  heads _ _ _ _ hfinds htakes hidentity := f.heads h hinvariant hfinds htakes hidentity
  woken _ _ _ _ hwakes _ hlock hhead _ hlatest := f.woken h hb hwakes hlock hhead (hb.same _ ▸ hlatest)
  apart _ _ htu _ _ _ _ _ _ hwakes hwakes' _ hrow _ hrow' hidentity :=
    f.apart h htu hwakes hwakes' hrow hrow' hidentity
  held _ _ htu _ _ _ _ _ _ hwakes hwakes' _ hrow hlock _ hlatest hposition :=
    f.held h hb htu hwakes hwakes' hrow hlock (hb.same _ ▸ hlatest) hposition
  later _ _ _ _ _ _ _ _ hwakes hrow hresolves hidentity hposition :=
    f.later h hinvariant hwakes hrow hresolves hidentity hposition

end Finding

/-- A step after which the session at work has found nothing new. -/
theorem fades_own (h : Unhindered w) (hb : Beside w i d next)
    (hwakes : ∀ marked n found', next.wakes = some (marked, n, found') →
      ∃ found, (w.procs i).wakes = some (marked, n, found) ∧ (∀ row ∈ found', row ∈ found) ∧
        ∀ identity, (d.cells identity).lock = some i → Gained w d i (w.procs i) next found identity)
    (hclaims : ∀ row, next.claims = some row → (w.procs i).claims = some row)
    (hresolves : ∀ row n, next.resolves = some (row, n) → ∃ old, (w.procs i).resolves = some (old, n) ∧
      row.identity = old.identity ∧ row.receivedPosition = old.receivedPosition)
    (hheads : ∀ head, next.takes = some head → ∀ t row, (w.procs t).Finds row →
      head.identity = row.identity → head.receivedPosition ≠ row.receivedPosition) :
    Unhindered ⟨d, Function.update w.procs i next⟩ := by
  refine h.fades hb (fun t marked n found' hw => ?_) (fun t row hc => ?_) (fun t row n hr => ?_)
    fun t u row head hf htakes => ?_
  · by_cases ht : t = i
    · subst ht
      rw [Function.update_self] at hw ⊢
      exact hwakes marked n found' hw
    · rw [Function.update_of_ne ht] at hw ⊢
      exact ⟨found', hw, fun _ => id, fun identity hlock => Or.inr (Or.inl ⟨hb.locks t identity ht hlock, rfl⟩)⟩
  · by_cases ht : t = i
    · rw [ht, Function.update_self] at hc
      exact ht ▸ hclaims row hc
    · exact Function.update_of_ne ht next w.procs ▸ hc
  · by_cases ht : t = i
    · rw [ht, Function.update_self] at hr
      exact ht ▸ hresolves row n hr
    · rw [Function.update_of_ne ht] at hr
      exact ⟨row, hr, rfl, rfl⟩
  · by_cases hu : u = i
    · rw [hu, Function.update_self] at htakes
      exact hheads head htakes t row hf
    · rw [Function.update_of_ne hu] at htakes
      exact h.heads t u row head hf htakes

/-- A step after which the session at work has found nothing. -/
theorem fades_none (h : Unhindered w) (hb : Beside w i d next) (hwakes : next.wakes = none)
    (hclaims : next.claims = none) (hresolves : next.resolves = none)
    (hheads : ∀ head, next.takes = some head → ∀ t row, (w.procs t).Finds row →
      head.identity = row.identity → head.receivedPosition ≠ row.receivedPosition) :
    Unhindered ⟨d, Function.update w.procs i next⟩ := by
  refine h.fades_own hb (fun marked n found' hw => ?_) (fun row hc => ?_) (fun row n hr => ?_) hheads
  · cases hwakes.symm.trans hw
  · cases hclaims.symm.trans hc
  · cases hresolves.symm.trans hr

theorem turn (h : Unhindered w) (hb : Beside w i d next) (hinvariant : Invariant o w)
    (hnumbering : Numbering o w) (hturn : Turn w.shared i (w.procs i) d next)
    (hleaves : ∀ begunAt slot row found left head,
      w.procs i = .dispatcher begunAt (.heading slot (row :: found)) →
        next = .dispatcher begunAt (.checking slot head left) →
          ∀ t r, (w.procs t).Finds r → row.identity = r.identity →
            row.receivedPosition ≠ r.receivedPosition) :
    Unhindered ⟨d, Function.update w.procs i next⟩ := by
  -- A head is as before, if it is so for the one at work.
  have hheads : (∀ head, next.takes = some head → (w.procs i).takes = some head) →
      ∀ head, next.takes = some head → ∀ t row, (w.procs t).Finds row →
        head.identity = row.identity → head.receivedPosition ≠ row.receivedPosition :=
    fun hsame head htakes t row hfinds => h.heads t i row head hfinds (hsame head htakes)
  cases hturn with
  | quiet hwakes hclaims hresolves htakes =>
    exact h.fades_none hb hwakes hclaims hresolves (hheads htakes)
  | time hp hcells =>
    subst hp
    refine h.fades_own hb (fun marked n found hw => ?_) (fun _ => id) (fun row n hr => ⟨row, hr, rfl, rfl⟩)
      (hheads fun _ => id)
    exact ⟨found, hw, fun _ => id, fun identity hlock => Or.inr (Or.inl ⟨hcells ▸ hlock, rfl⟩)⟩
  | takes begunAt slot row head found left hp hp' hidentity hposition =>
    subst hp'
    refine h.fades_none hb rfl rfl rfl fun head' htakes t row' hfinds hidentity' => ?_
    cases htakes
    rw [hposition]
    exact hleaves begunAt slot row found left head hp rfl t row' hfinds (hidentity ▸ hidentity')
  | finds marked found hwakes hstatements hfound hclaims hresolves htakes hlocks hmarker =>
    have hfinding : Finding w i d next marked found :=
      ⟨hwakes, hstatements, hfound, hclaims, hresolves, htakes, hlocks, fun t ht => h.excludes hinvariant hmarker ht⟩
    exact hfinding.unhindered h hb hinvariant hnumbering
  | wakes marked n row found hwakes hwakes' hclaims hresolves htakes hhead hlocks =>
    refine h.fades_own hb (fun marked' n' found' hw => ?_) (fun row' hc => ?_)
      (fun row n hr => ⟨row, hresolves ▸ hr, rfl, rfl⟩) (hheads fun _ hh => htakes ▸ hh)
    · cases hwakes'.symm.trans hw
      refine ⟨_, hwakes, fun _ => List.mem_cons_of_mem _, fun identity hlock => ?_⟩
      rcases hlocks identity hlock with hold | ⟨hidentity, latest, hlatest, hposition⟩
      · exact Or.inr (Or.inl ⟨hold, hhead⟩)
      · exact Or.inr (Or.inr ⟨row, List.mem_cons_self, hidentity, latest, hb.same _ ▸ hlatest, hposition⟩)
    · cases hclaims.symm.trans hc
  | resolves row latest n hclaims hclaims' hwakes hresolves hresolves' htakes hidentity hposition hhead hlocks =>
    refine h.fades_own hb (fun marked' n' found' hw => ?_) (fun row' hc => ?_) (fun row' n' hr => ?_)
      fun head hh => ?_
    · refine ⟨found', hwakes ▸ hw, fun _ => id, fun identity hlock => ?_⟩
      exact Or.inl ⟨latest, hhead, hidentity.trans (hlocks identity hlock).symm⟩
    · cases hclaims'.symm.trans hc
    · cases hresolves'.symm.trans hr
      exact ⟨row, hresolves, hidentity, hposition⟩
    · cases htakes.symm.trans hh

theorem act (h : Unhindered w) (hinvariant : Invariant o w) (hnumbering : Numbering o w)
    (hholding : Holding o w) (hleaves : LeavesFound w i a) (hact : o.program.act w i a = some w') :
    Unhindered w' := by
  obtain ⟨d, next, hstep, rfl⟩ := (o.program.act_eq_some).mp hact
  have hstep : o.step w.shared i (w.procs i) a = some (d, next) := hstep
  have hd := hinvariant.consistent
  have hok := hinvariant.ok i
  obtain ⟨_, _, hworks | ⟨_, rfl, hcommits⟩ | ⟨_, rfl, rfl⟩⟩ := hd.step hok hstep
  · have hb : Beside w i d next := by
      refine ⟨hworks.committed, fun t identity ht => hworks.locks identity t ht, hworks.next,
        hworks.statements, fun position hdraws => ?_⟩
      exact (PgInbox.step_draws hstep hdraws).imp_right And.left
    refine h.turn hb hinvariant hnumbering (PgInbox.step_turn hd hok (hholding.rows i) hstep) ?_
    intro begunAt slot row found left head hp hp'
    refine hleaves ?_ begunAt slot row found hp
    rw [hp, hp'] at hstep
    cases a with
    | next => rfl
    | _ => cases hstep
  · have hnone : next.wakes = none ∧ next.claims = none ∧ next.resolves = none ∧ next.takes = none := by
      unfold Process.committed at hcommits
      split at hcommits <;> cases hcommits <;> exact ⟨rfl, rfl, rfl, rfl⟩
    obtain ⟨hwakes, hclaims, hresolves, htakes⟩ := hnone
    exact h.ends hinvariant true hwakes hclaims hresolves htakes (Process.committed_draws hcommits).1
  · exact h.ends hinvariant false rfl rfl rfl rfl rfl

theorem beginning (now : Nat) : Unhindered (beginning now) where
  known := by rintro _ _ (⟨_, _, _, h, _⟩ | h) <;> cases h
  counted := by rintro _ _ _ _ ⟨⟩
  waits := by rintro _ _ _ _ ⟨⟩
  claims := by rintro _ _ ⟨⟩
  heads := by rintro _ _ _ _ _ h; cases h
  woken := by rintro _ _ _ _ ⟨⟩
  apart := by rintro _ _ _ _ _ _ _ _ _ ⟨⟩
  held := by rintro _ _ _ _ _ _ _ _ _ ⟨⟩
  later := by rintro _ _ _ _ _ _ _ _ ⟨⟩

end Unhindered

/-- What a session waits for that holds something: a dispatcher with its head for the lock on an identity,
a mark or a resolve for a row it has found. -/
theorem PgInbox.Wants.cases {lock : Lock} (h : o.Wants d s p lock)
    (hheld : (∃ identity, p.Holds identity) ∨ p.Keyed) :
    (∃ head key, p.takes = some head ∧ lock = .advisory key ∧ ¬p.Keyed ∧
      ∀ identity, p.Holds identity → head.identity = identity) ∨
    ∃ row, p.Finds row ∧ lock = .row row.identity ∧ d.There s row := by
  cases h with
  | heading =>
    obtain ⟨_, _, hnone, _⟩ | hnone := hheld
    · cases hnone
    · cases hnone
  | locking =>
    refine Or.inl ⟨_, _, rfl, rfl, id, ?_⟩
    rintro identity ⟨head, hhead, hidentity⟩
    cases hhead
    exact hidentity
  | identifying =>
    refine Or.inl ⟨_, _, rfl, rfl, id, ?_⟩
    rintro identity ⟨head, hhead, hidentity⟩
    cases hhead
    exact hidentity
  | waking hthere => exact Or.inr ⟨_, Or.inl ⟨_, _, _, rfl, List.mem_cons_self⟩, rfl, hthere⟩
  | resolving =>
    obtain ⟨_, hnone⟩ | hnone := hheld
    · cases hnone
    · cases hnone
  | claiming hthere => exact Or.inr ⟨_, Or.inr rfl, rfl, hthere⟩
  | wakingResolved hthere => exact Or.inr ⟨_, Or.inl ⟨_, _, _, rfl, List.mem_cons_self⟩, rfl, hthere⟩
  | unparking =>
    obtain ⟨_, hnone⟩ | hnone := hheld
    · cases hnone
    · cases hnone
  | publishing =>
    obtain ⟨_, hnone⟩ | hnone := hheld
    · cases hnone
    · cases hnone

/-- A row waited for is there, as it was committed. -/
theorem There.committed {row : Row} (h : d.There s row) {t : Nat} (ht : t ≠ s)
    (hlock : (d.cells row.identity).lock = some t) :
    ∃ latest, d.committed row.identity = some latest ∧ latest.receivedPosition = row.receivedPosition := by
  obtain ⟨latest, hseen, hposition⟩ := (Option.any_eq_true _ _).mp h
  rw [seen_of_unchanged (by rw [hlock, Option.some.injEq]; exact fun heq => absurd heq ht)] at hseen
  exact ⟨latest, hseen, of_decide_eq_true hposition⟩

section Cycle

variable (hinvariant : Invariant o w) (hholding : Holding o w) (h : Unhindered w)

open WaitsFor

include hholding in
theorem holds_of_waited {t u : Nat} (hwaits : o.Waits w t u) :
    (∃ identity, (w.procs u).Holds identity) ∨ (w.procs u).Keyed := by
  obtain ⟨_, lock, _, hheld⟩ := hwaits
  cases lock with
  | row identity => exact Or.inl ⟨identity, hholding.rows u identity hheld⟩
  | advisory key => exact Or.inr (hholding.keys u key hheld)

include hinvariant hholding h in
/-- Who is on a cycle waits for a row it has found. -/
theorem wants_of_on_cycle {t : Nat} (hcycle : OnCycle (o.Waits w) t) {lock : Lock}
    (hwants : o.Wants w.shared t (w.procs t) lock) :
    ∃ row, (w.procs t).Finds row ∧ lock = .row row.identity ∧ w.shared.There t row := by
  obtain ⟨u, hut, hcycle'⟩ := hcycle.pred
  rcases hwants.cases (holds_of_waited hholding hut) with ⟨head, key, htakes, rfl, hkeyless, hholds⟩ | hfound
  · exfalso
    obtain ⟨htu, lock, hwants', hheld⟩ := hut
    obtain ⟨v, hvu, _⟩ := hcycle'.pred
    cases lock with
    | advisory key' => exact hkeyless (hholding.keys t key' hheld)
    | row identity =>
      have hhead := hholds identity (hholding.rows t identity hheld)
      rcases hwants'.cases (holds_of_waited hholding hvu) with ⟨_, _, _, heq, _⟩ | ⟨row, hfinds, heq, hthere⟩
      · cases heq
      · cases heq
        obtain ⟨latest, hlatest, hposition⟩ := There.committed hthere htu hheld
        refine h.heads u t row head hfinds htakes hhead ?_
        cases hq : w.procs t with
        | dispatcher =>
          have hok := hinvariant.ok t
          rw [hq] at htakes hok
          obtain ⟨_, hcommitted, _⟩ := hok.stands htakes
          rw [hhead, hlatest, Option.some.injEq] at hcommitted
          exact hcommitted ▸ hposition
        | _ => rw [hq] at htakes; cases htakes
  · exact hfound

include hinvariant hholding h in
/-- Who is on a cycle goes through what it has found waiting. -/
theorem wakes_of_on_cycle {t : Nat} (hcycle : OnCycle (o.Waits w) t) {lock : Lock}
    (hwants : o.Wants w.shared t (w.procs t) lock) : (w.procs t).claims = none ∧
      ∃ marked n found row, (w.procs t).wakes = some (marked, n, found) ∧ row ∈ found ∧
        lock = .row row.identity ∧ w.shared.There t row := by
  obtain ⟨row, hfinds, hlock, hthere⟩ := wants_of_on_cycle hinvariant hholding h hcycle hwants
  obtain ⟨u, ⟨_, lock', hwants', hheld⟩, hcycle'⟩ := hcycle.pred
  obtain ⟨row', _, rfl, _⟩ := wants_of_on_cycle hinvariant hholding h hcycle' hwants'
  have hholds := hholding.rows t _ hheld
  have hclaims : (w.procs t).claims = none := by
    cases hq : w.procs t with
    | resolver identity q =>
      cases q with
      | claiming => rw [hq] at hholds; cases hholds
      | _ => rfl
    | _ => rfl
  rcases hfinds with ⟨marked, n, found, hwakes, hrow⟩ | hc
  · exact ⟨hclaims, marked, n, found, row, hwakes, hrow, hlock, hthere⟩
  · cases hclaims.symm.trans hc

/-- The number of the snapshot a session goes through. -/
def Process.statement (p : Process) : Nat := (p.wakes.map (·.2.1)).getD 0

include hinvariant hholding h in
theorem statement_lt {t u : Nat} (hwaits : o.Waits w t u) (ht : OnCycle (o.Waits w) t)
    (hu : OnCycle (o.Waits w) u) : (w.procs t).statement < (w.procs u).statement := by
  obtain ⟨hne, lock, hwants, hheld⟩ := hwaits
  obtain ⟨_, marked, n, found, row, hwakes, hrow, rfl, hthere⟩ :=
    wakes_of_on_cycle hinvariant hholding h ht hwants
  obtain ⟨v, ⟨_, _, hwants', _⟩, _⟩ := TransGen.head'_iff.mp hu
  obtain ⟨_, marked', n', found', _, hwakes', _⟩ := wakes_of_on_cycle hinvariant hholding h hu hwants'
  obtain ⟨latest, hlatest, hposition⟩ := There.committed hthere hne hheld
  obtain ⟨head, hhead, hidentity⟩ := h.held t u (Ne.symm hne) _ _ _ _ _ _ hwakes hwakes' row hrow hheld latest
    hlatest hposition
  have hok := hinvariant.ok u
  obtain ⟨_, hcommitted, _⟩ := hok.head head hhead
  rw [hidentity, hlatest, Option.some.injEq] at hcommitted
  have hposition' : head.receivedPosition = row.receivedPosition := hcommitted ▸ hposition
  have hlater : n < n' := by
    cases hq : w.procs u with
    | dispatcher =>
      rw [hq] at hhead
      have htakes : (w.procs u).takes = some head := by rw [hq]; exact hhead
      exact absurd hposition' (h.heads t u row head (Unhindered.finds_of_wakes hwakes hrow) htakes hidentity)
    | resolver identity q =>
      cases q with
      | waking =>
        have hresolves : (w.procs u).resolves = some (head, n') := by
          rw [hq] at hhead hwakes' ⊢
          cases hhead
          cases hwakes'
          rfl
        exact h.later t u _ _ _ row head n' hwakes hrow hresolves hidentity hposition'
      | claiming => rw [hq] at hhead; cases hhead
      | _ => rw [hq] at hwakes'; cases hwakes'
    | _ => rw [hq] at hwakes'; cases hwakes'
  simpa [Process.statement, hwakes, hwakes'] using hlater

end Cycle

/-- While no dispatcher takes what a mark or a resolve has found, no sessions wait for each other in a
cycle. -/
theorem no_lock_cycle {now : Nat} (hrun : o.program.Run LeavesFound (beginning now) w) (t : Nat) :
    ¬TransGen (o.Waits w) t t := by
  have hreached := hrun.invariant (I := fun v => Invariant o v ∧ Numbering o v ∧ Holding o v ∧ Unhindered v) ?_
    ⟨.beginning now, .beginning now, .beginning now, .beginning now⟩
  · obtain ⟨hinvariant, _, hholding, h⟩ := hreached
    exact WaitsFor.no_cycle (fun t u => statement_lt hinvariant hholding h) t
  · rintro v i a v' ⟨hinvariant, hnumbering, hholding, h⟩ hleaves hact
    exact ⟨hinvariant.act hact, hnumbering.act hinvariant hact, hholding.act hinvariant hnumbering hact,
      h.act hinvariant hnumbering hholding hleaves hact⟩

/-- An inbox of two slots. -/
def twoSlots : PgInbox :=
  { oneSlot with slots := 2, slots_pos := Nat.two_pos, hashtext := fun text => .ofNat 32 text.length }

/-- A message of the other slot, which depends on the first of the stream of orders. -/
def parcel : InboxMessage := { order 2 (after "1") with streamType := "Parcel", uri := "bus://parcels/7" }

/-- The next parcel, which depends on the same order. -/
def nextParcel : InboxMessage := { parcel with streamPosition := 3 }

/-- What a mark or a resolve has found. -/
def Process.found (p : Process) : List Row := (p.wakes.map (·.2.2)).getD [] ++ p.claims.toList

theorem Process.Finds.mem_found {row : Row} (h : p.Finds row) : row ∈ p.found := by
  rcases h with ⟨marked, n, rows, hwakes, hrow⟩ | hclaims
  · simp [Process.found, hwakes, hrow]
  · simp [Process.found, hclaims]

/-- The row a dispatcher goes for next. -/
def Process.goesFor : Process → Option Row
  | .dispatcher _ (.heading _ (row :: _)) => some row
  | _ => none

/-- Seven sessions are at work, and the next row this one goes for is none that another has found. -/
def GoesApart (w : World) (i : Nat) : Prop :=
  i < 7 ∧ ∀ row ∈ (w.procs i).goesFor, ∀ t < 7, ∀ r ∈ (w.procs t).found, row.receivedPosition ≠ r.receivedPosition

instance (w : World) (i : Nat) : Decidable (GoesApart w i) := inferInstanceAs (Decidable (_ ∧ _))

theorem leavesFound_of_goesApart {i : Nat} (h : GoesApart w i)
    (hidle : ∀ t, ¬t < 7 → w.procs t = (beginning 0).procs t) : LeavesFound w i a := by
  intro _ begunAt slot row found hp t r hfinds _
  have hgoes : row ∈ (w.procs i).goesFor := by rw [hp]; rfl
  by_cases ht : t < 7
  · exact h.2 row hgoes t ht r hfinds.mem_found
  · have hnone := hfinds.mem_found
    rw [hidle t ht] at hnone
    cases hnone

/-- A publisher's insert meets another's of the same message; and when a mark has found a parcel set aside, a
dispatcher takes the next one, whose dependency is the order being marked. -/
def compete : List (Nat × Act) :=
  List.flatten [[(5, .publish (order 2 none)), (6, .publish (order 2 none)), (5, .next), (5, .next), (6, .next)],
    publish 0 (order 1 none), publish 0 parcel, look 1 2, look 2 7, (2, .commit) :: publish 0 nextParcel,
    List.replicate 3 (1, .next), [(1, .succeed), (1, .next), (1, .next)], look 3 5]

def competing : World := twoSlots.program.after (beginning 0) compete (by decide +kernel)

theorem no_lock_cycle_competing : twoSlots.Waits competing 3 1 ∧ twoSlots.Waits competing 6 5 ∧
    ¬TransGen (twoSlots.Waits competing) 3 3 := by
  have hhead : twoSlots.Waits competing 3 1 := by
    have hp : competing.procs 3 = .dispatcher 0 (.locking 1 (.received nextParcel 5) (.on (order 1 none))) := by
      decide +kernel
    have hheld : competing.shared.advisory (twoSlots.lockKey (.on (order 1 none))) = some 1 := by decide +kernel
    have hwants : twoSlots.Wants competing.shared 3 (competing.procs 3)
        (.advisory (twoSlots.lockKey (.on (order 1 none)))) := by
      rw [hp]
      exact .locking
    exact ⟨by decide, _, hwants, hheld⟩
  have hpublish : twoSlots.Waits competing 6 5 := by
    have hp : competing.procs 6 = .publisher (.drawn (order 2 none) 2) := by decide +kernel
    have hheld : (competing.shared.cells (.on (order 2 none))).lock = some 5 := by decide +kernel
    have hwants : twoSlots.Wants competing.shared 6 (competing.procs 6) (.row (.on (order 2 none))) := by
      rw [hp]
      exact .publishing List.mem_cons_self (by decide +kernel)
    exact ⟨by decide, _, hwants, hheld⟩
  have happart : twoSlots.program.Run (fun v i _ => GoesApart v i) (beginning 0) competing :=
    Program.Run.checked (fun v i _ => decide (GoesApart v i)) (by decide +kernel) fun _ _ _ => of_decide_eq_true
  exact ⟨hhead, hpublish, no_lock_cycle ((happart.among (· < 7) fun _ _ _ h => h.1).mono fun _ _ _ h =>
    leavesFound_of_goesApart h.1 h.2) 3⟩

/-- A parcel set aside for an order is found by the order's mark, parked because it has waited too long,
put back into its queue by hand and taken again: the dispatcher that took it waits for the lock on the
order, and the mark for the parcel's row. -/
def crossed : World := worldAfter twoSlots (beginning 0)
  (publish 0 (order 1 none) ++ publish 0 parcel ++ look 1 2 ++ look 2 7 ++ (2, .commit) ::
    List.replicate 3 (1, .next) ++ [(1, .succeed), (1, .next), (1, .next), (3, .tick 101), (3, .dispatch),
      (3, .next), (3, .commit), (4, .unpark (.on parcel)), (4, .next), (4, .next), (4, .commit)] ++
    List.replicate 5 (3, .next))
  (by decide +kernel)

theorem lock_cycle : ¬∀ (o : PgInbox) (now : Nat) (w : World),
    o.program.Run (fun _ _ _ => True) (beginning now) w → ∀ t, ¬TransGen (o.Waits w) t t := by
  intro h
  have hmark : twoSlots.Waits crossed 1 3 := by
    have hp : crossed.procs 1 = .dispatcher 0 (.waking 0 (.received (order 1 none) 1) 3 0 0
        [(Row.received parcel 2).waiting (.on (order 1 none)) 0]) := by decide +kernel
    have hthere : (crossed.shared.seen 1 (.on parcel)).any (·.receivedPosition = 2) := by decide +kernel
    have hheld : (crossed.shared.cells (.on parcel)).lock = some 3 := by decide +kernel
    have hwants : twoSlots.Wants crossed.shared 1 (crossed.procs 1) (.row (.on parcel)) := by
      rw [hp]
      exact .waking hthere
    exact ⟨by decide, _, hwants, hheld⟩
  have hhead : twoSlots.Waits crossed 3 1 := by
    have hp : crossed.procs 3 = .dispatcher 101 (.locking 1
        (((Row.received parcel 2).expired "dependency  never arrived" 101).unparked)
        (.on (order 1 none))) := by decide +kernel
    have hheld : crossed.shared.advisory (twoSlots.lockKey (.on (order 1 none))) = some 1 := by
      decide +kernel
    have hwants : twoSlots.Wants crossed.shared 3 (crossed.procs 3)
        (.advisory (twoSlots.lockKey (.on (order 1 none)))) := by
      rw [hp]
      exact .locking
    exact ⟨by decide, _, hwants, hheld⟩
  exact h twoSlots 0 crossed (worldAfter_run fun _ _ _ => trivial) 1 (.head hmark (.single hhead))

end AsceticDdd.Inbox
