import AsceticDdd.Outbox.Reclaimer
import AsceticDdd.Outbox.Serving

/-!
# The bound below which no row is left

A pass reads it in three statements: the least of the next id, of the ids of the rows left, and of
the ids still open. A transaction that commits its rows between the second and the third is in none.
-/

namespace AsceticDdd.Outbox

open Postgres Interleaving

variable {o : PgOutbox} {d d' : Database} {i s : Nat} {w w' : World}

/-- No committed row of the generations a pass leaves lies below the bound. -/
def Database.LeftFrom (o : PgOutbox) (d : Database) (generation bound : Nat) : Prop :=
  ∀ r ∈ d.table, o.generationOf r ≠ generation → d.transactions.Committed r.transactionId →
    bound ≤ r.transactionId

/-- What a pass knows of the bound it has read so far. -/
def Reclaiming.Bounds (o : PgOutbox) (d : Database) : Reclaiming → Prop
  | .bounded _ goneBelow => goneBelow ≤ d.transactions.next
  | .left c goneBelow => goneBelow ≤ d.transactions.next ∧ d.LeftFrom o c.generation goneBelow
  | .leftSessions c goneBelow ids => ids.foldl min goneBelow ≤ d.transactions.next ∧
      d.LeftFrom o c.generation (ids.foldl min goneBelow) ∧ d.SessionsFrom (ids.foldl min goneBelow)
  | .opened c goneBelow | .emptied c goneBelow _ =>
      d.LeftFrom o c.generation goneBelow ∧ d.RunningFrom goneBelow
  | _ => True

def Process.Bounds (o : PgOutbox) (d : Database) : Process → Prop
  | .reclaimer p => p.Bounds o d
  | _ => True

/-- The bound a pass has read, while the ids still open are not. -/
def Process.reads : Process → Option Nat
  | .reclaimer (.left _ goneBelow) => some goneBelow
  | .reclaimer (.leftSessions _ goneBelow ids) => some (ids.foldl min goneBelow)
  | _ => none

theorem Database.LeftFrom.mono {generation bound bound' : Nat} (h : d.LeftFrom o generation bound)
    (hle : bound' ≤ bound) : d.LeftFrom o generation bound' :=
  fun r hr hgen hcommitted => hle.trans (h r hr hgen hcommitted)

theorem Database.LeftFrom.stable {generation bound : Nat} (h : d.LeftFrom o generation bound)
    (hguarantee : Guarantee o i d d')
    (hnew : ∀ r ∈ d.table, ¬d.transactions.Ended r.transactionId →
      d'.transactions.Committed r.transactionId → bound ≤ r.transactionId) :
    d'.LeftFrom o generation bound := by
  intro r hr hgen hcommitted
  rcases hguarantee.table r hr with hr | ⟨hr, hnot⟩
  · by_cases hended : d.transactions.Ended r.transactionId
    · exact h r hr hgen ((hguarantee.transactions.status _ hended).symm.trans hcommitted)
    · exact hnew r hr hended hcommitted
  · have hnew := (hguarantee.of_mem_written hr).resolve_left hnot
    exact absurd hcommitted.ended hnew.2.1

/-- A running transaction that wrote a row is of this database. -/
theorem Database.RunningFrom.le_of_running {bound : Nat} (h : d.RunningFrom bound) (hd : RowsOk o d)
    {r : Row} (hr : r ∈ d.written) (hrunning : ¬d.transactions.Ended r.transactionId) :
    bound ≤ r.transactionId :=
  h.2 r.transactionId (hd.ids r hr) hrunning (hd.here r hr hrunning)

/-- A step keeps the bounds others read, when it commits no row below one being read. -/
theorem Process.Bounds.stable {p : Process} (h : p.Bounds o d) (hd : RowsOk o d)
    (hguarantee : Guarantee o i d d')
    (hcommits : ∀ bound, p.reads = some bound → ∀ r ∈ d.table, ¬d.transactions.Ended r.transactionId →
      d'.transactions.Committed r.transactionId → bound ≤ r.transactionId) : p.Bounds o d' := by
  have hnext := hguarantee.transactions.next
  have hopened : ∀ {generation bound : Nat}, d.LeftFrom o generation bound → d.RunningFrom bound →
      d'.LeftFrom o generation bound ∧ d'.RunningFrom bound := by
    intro generation bound hleft hrunning
    refine ⟨hleft.stable hguarantee fun r hr hnot _ => ?_, hguarantee.runningFrom hrunning⟩
    exact hrunning.le_of_running hd (hd.mem_written hr) hnot
  cases p with
  | reclaimer p =>
    cases p with
    | bounded c goneBelow => exact Nat.le_trans h hnext
    | left c goneBelow => exact ⟨h.1.trans hnext, h.2.stable hguarantee (hcommits goneBelow rfl)⟩
    | leftSessions c goneBelow ids =>
      obtain ⟨hle, hleft, hsessions⟩ := h
      exact ⟨hle.trans hnext, hleft.stable hguarantee (hcommits _ rfl),
        hguarantee.sessionsFrom hle hsessions⟩
    | opened c goneBelow => exact hopened h.1 h.2
    | emptied c goneBelow intactFrom => exact hopened h.1 h.2
    | _ => trivial
  | _ => trivial

/-- The least ids of the generations left bound the rows left. -/
theorem leftFrom_rowsLeft {generation bound : Nat} : d.LeftFrom o generation
    (((o.leastPerGeneration (o.rowsLeft d s generation)).map (·.2)).foldl min bound) := by
  intro r hr hgen hcommitted
  have hleft : r ∈ o.rowsLeft d s generation :=
    List.mem_filter.mpr ⟨Database.mem_visibleRows.mpr ⟨hr, Or.inl hcommitted⟩, decide_eq_true hgen⟩
  have hmem : r.transactionId ∈ ((o.rowsLeft d s generation).filter fun row =>
      decide (o.generationOf row = o.generationOf r)).map (·.transactionId) :=
    List.mem_map_of_mem (List.mem_filter.mpr ⟨hleft, decide_eq_true rfl⟩)
  cases hleast : o.leastOf (o.rowsLeft d s generation) (o.generationOf r) with
  | none =>
    rw [PgOutbox.leastOf, List.min?_eq_none_iff] at hleast
    rw [hleast] at hmem
    cases hmem
  | some least =>
    have hle : least ≤ r.transactionId := (List.min?_eq_some_iff.mp hleast).2 _ hmem
    refine Nat.le_trans (foldl_min_le.2 least ?_) hle
    refine List.mem_map.mpr ⟨(o.generationOf r, least), ?_, rfl⟩
    refine List.mem_filterMap.mpr ⟨o.generationOf r, List.mem_range.mpr Ring.generationOf_lt, ?_⟩
    rw [hleast]
    rfl

theorem pass_bounds {p next : Reclaiming} (h : o.pass d s p = some (d', next)) (hp : p.Bounds o d) :
    next.Bounds o d' := by
  unfold PgOutbox.pass at h
  split at h
  case h_1 =>
    split at h <;> cases h <;> trivial
  case h_2 =>
    split at h
    · cases h
      trivial
    · split at h <;> cases h <;> trivial
  case h_3 =>
    split at h <;> cases h <;> trivial
  case h_4 =>
    cases h
    trivial
  case h_5 =>
    split at h <;> cases h <;> trivial
  case h_6 =>
    obtain ⟨_, _, heq⟩ := Option.map_eq_some_iff.mp h
    cases heq
    trivial
  case h_7 =>
    obtain ⟨_, _, heq⟩ := Option.map_eq_some_iff.mp h
    split at heq <;> cases heq <;> trivial
  case h_8 =>
    split at h <;> cases h <;> trivial
  case h_9 =>
    obtain ⟨_, _, heq⟩ := Option.map_eq_some_iff.mp h
    cases heq
    trivial
  case h_10 =>
    cases h
    trivial
  case h_11 =>
    split at h <;> cases h <;> trivial
  case h_12 =>
    cases h
    trivial
  case h_13 =>
    cases h
    exact d.transactions.latest_lt
  case h_14 c goneBelow =>
    cases h
    exact ⟨foldl_min_le.1.trans hp, leftFrom_rowsLeft⟩
  case h_15 c goneBelow =>
    obtain ⟨ids, hids, heq⟩ := Option.map_eq_some_iff.mp h
    cases heq
    obtain ⟨hle, hleft⟩ := hp
    refine ⟨foldl_min_le.1.trans hle, hleft.mono foldl_min_le.1, fun x hx hrunning hseat => ?_⟩
    obtain ⟨y, hy, hyx⟩ := openHere_le hids (d.transactions.mem_sessionXids hx hrunning hseat)
      (Nat.le_trans d.transactions.latest_lt (d.transactions.within x hx (not_not.mp hrunning)))
    exact (foldl_min_le.2 y hy).trans hyx
  case h_16 c goneBelow ids =>
    obtain ⟨prepared, hprepared, heq⟩ := Option.map_eq_some_iff.mp h
    cases heq
    obtain ⟨hle, hleft, hsessions⟩ := hp
    rw [Reclaiming.Bounds, List.foldl_append]
    refine ⟨hleft.mono foldl_min_le.1, foldl_min_le.1.trans hle, fun x hx hrunning hseat => ?_⟩
    cases hcase : d.transactions.seat x with
    | elsewhere => exact absurd hcase hseat
    | session => exact foldl_min_le.1.trans (hsessions x hx hrunning (Or.inl hcase))
    | preparing => exact foldl_min_le.1.trans (hsessions x hx hrunning (Or.inr hcase))
    | prepared =>
      obtain ⟨y, hy, hyx⟩ := openHere_le hprepared
        (d.transactions.mem_preparedXids hx hrunning (Or.inl hcase))
        (Nat.le_trans d.transactions.latest_lt (d.transactions.within x hx (not_not.mp hrunning)))
      exact (foldl_min_le.2 y hy).trans hyx
  case h_17 =>
    cases h
    exact hp
  all_goals cases h

theorem Step.bounds {p next : Process} {a : Act} (h : Step o s d p a d' next) (hp : p.Bounds o d)
    (hd : RowsOk o d) (hguarantee : Guarantee o s d d') : next.Bounds o d' := by
  cases h with
  | start h =>
    unfold PgOutbox.start at h
    split at h
    case h_6 =>
      obtain ⟨_, _, heq⟩ := Option.map_eq_some_iff.mp h
      cases heq
      trivial
    all_goals cases h <;> trivial
  | assign hseat ht =>
    apply hp.stable hd hguarantee
    intro bound _ r _ hrunning hcommitted
    obtain ⟨_, _, hstatus, _⟩ := Transactions.assign_eq_some ht
    rw [Transactions.Committed, hstatus] at hcommitted
    rw [Transactions.Ended, hcommitted] at hrunning
    exact (hrunning (by rintro ⟨⟩)).elim
  | produce h => rcases produce_next h with rfl | ⟨_, _, rfl⟩ <;> trivial
  | pass h => exact pass_bounds h hp
  | commit h =>
    unfold PgOutbox.commit at h
    split at h <;> cases h <;> trivial
  | _ => trivial

/-- A step that commits no row below a bound a pass is reading. -/
def Settles (w : World) (i : Nat) (a : Act) : Prop := a.Serves ∧ ∀ x, Commits w i a x →
  ∀ j bound, (w.procs j).reads = some bound → ∀ r ∈ w.shared.written, r.transactionId = x → bound ≤ x

theorem Resting.settles (h : Resting w) (hrun : o.program.Run Settles w w') :
    Invariant o (fun _ => True) w' ∧ ∀ s, (w'.procs s).Bounds o w'.shared := by
  obtain ⟨hserving, _⟩ := h.serving (fun _ _ _ ha => ha.1) hrun
  have hallows : ∀ v i a, (Settles v i a ∧ ∀ s, ¬(v.procs s).Moves ∧ ¬(v.procs s).MakesRing) →
      Allows (fun _ => True) v i a := fun v i a ha => allows_of_serving ha.2
  refine ⟨h.invariant.run hallows hserving, ?_⟩
  refine h.invariant.extend (J := fun v => ∀ s, (v.procs s).Bounds o v.shared) hallows ?_ ?_ hserving
  · rintro v i a d p hinv hbounds ⟨hsettles, _⟩ hstep s
    obtain ⟨⟨_, hguarantee⟩, _⟩ := hinv.consistent.step (hinv.ok i) hstep
    by_cases hs : s = i
    · subst hs
      simp only [Function.update_self]
      exact hstep.bounds (hbounds s) hinv.consistent.rows hguarantee
    · simp only [Function.update_of_ne hs]
      apply (hbounds s).stable hinv.consistent.rows hguarantee
      intro bound hreads r hr hrunning hcommitted
      have hcommits := (hstep.effect.committed hcommitted).resolve_left fun hc => hrunning hc.ended
      exact hsettles.2 _ hcommits s bound hreads r (hinv.consistent.rows.mem_written hr) rfl
  · intro s
    rcases h.procs s with ⟨hp, _⟩ | ⟨hp, _⟩ <;> rw [hp] <;> trivial

/-- No committed row is left below the bound, nor is one to come. -/
def Database.Gone (o : PgOutbox) (d : Database) (bound : Nat) : Prop :=
  d.RunningFrom bound ∧ ∀ generation, d.LeftFrom o generation bound

theorem Database.Gone.stable {bound : Nat} (h : d.Gone o bound) (hd : RowsOk o d)
    (hguarantee : Guarantee o i d d') : d'.Gone o bound := by
  refine ⟨hguarantee.runningFrom h.1, fun generation => (h.2 generation).stable hguarantee ?_⟩
  exact fun r hr hrunning _ => h.1.le_of_running hd (hd.mem_written hr) hrunning

theorem Resting.gone {c : Candidate} {goneBelow intactFrom : Nat} {w₁ w₂ : World} (hw : Resting w)
    (hrun : o.program.Run Settles w w₁)
    (hemptied : w₁.procs i = .reclaimer (.emptied c goneBelow intactFrom))
    (hcommit : o.program.act w₁ i .commit = some w₂) :
    w₂.shared.metaRow.goneBelow = some goneBelow ∧ w₂.shared.Gone o goneBelow := by
  obtain ⟨hinv, hbounds⟩ := hw.settles hrun
  have hd := hinv.consistent.rows
  obtain ⟨d, p, hstep, rfl⟩ := (o.program.act_eq_some).mp hcommit
  obtain ⟨⟨_, hguarantee⟩, _⟩ := hinv.consistent.step (hinv.ok i) (PgOutbox.step_cases hstep)
  have hleft : (w₁.procs i).Bounds o w₁.shared := hbounds i
  rw [hemptied] at hstep hleft
  obtain ⟨hleft, hrunning⟩ := hleft
  cases hstep
  refine ⟨rfl, hguarantee.runningFrom hrunning, fun generation r hr _ hcommitted => ?_⟩
  obtain ⟨htable, hgen⟩ := List.mem_filter.mp hr
  by_cases hended : w₁.shared.transactions.Ended r.transactionId
  · exact hleft r htable (of_decide_eq_true hgen)
      ((hguarantee.transactions.status _ hended).symm.trans hcommitted)
  · exact hrunning.le_of_running hd (hd.mem_written htable) hended

/-- Once recorded, the bound stays one: what commits later is above it. -/
theorem gone_below_is_sound {c : Candidate} {goneBelow intactFrom : Nat} {w₁ w₂ : World} (hw : Resting w)
    (hrun : o.program.Run Settles w w₁)
    (hemptied : w₁.procs i = .reclaimer (.emptied c goneBelow intactFrom))
    (hcommit : o.program.act w₁ i .commit = some w₂)
    (hlater : o.program.Run (fun _ _ a => a.Serves) w₂ w') :
    w₂.shared.metaRow.goneBelow = some goneBelow ∧
      ∀ r ∈ w'.shared.table, w'.shared.transactions.Committed r.transactionId →
        goneBelow ≤ r.transactionId := by
  obtain ⟨hrecorded, hgone⟩ := hw.gone hrun hemptied hcommit
  refine ⟨hrecorded, fun r hr hcommitted => ?_⟩
  have hserves : Act.Serves .commit := ⟨id, nofun⟩
  have hrun₂ : o.program.Run (fun _ _ a => a.Serves) w w₂ :=
    (hrun.mono fun _ _ _ ha => ha.1).step hserves hcommit
  obtain ⟨hbefore, hsessions⟩ := hw.serving (fun _ _ _ => id) hrun₂
  obtain ⟨hafter, _⟩ := Program.Run.serving hsessions (fun _ _ _ => id) hlater
  have hallows : ∀ v i a, (Act.Serves a ∧ ∀ s, ¬(v.procs s).Moves ∧ ¬(v.procs s).MakesRing) →
      Allows (fun _ => True) v i a := fun v i a ha => allows_of_serving ha.2
  have hinv : Invariant o (fun _ => True) w₂ := hw.invariant.run hallows hbefore
  have hgone' : w'.shared.Gone o goneBelow := by
    refine hinv.extend (J := fun v => v.shared.Gone o goneBelow) hallows ?_ hgone hafter
    intro v i a d p hinv hgone _ hstep
    obtain ⟨⟨_, hguarantee⟩, _⟩ := hinv.consistent.step (hinv.ok i) hstep
    exact hgone.stable hinv.consistent.rows hguarantee
  exact hgone'.2 (o.generationOf r + 1) r hr (by omega) hcommitted

section Sound

def Act.commits : Act → Bool
  | .commit | .resolve _ _ => true
  | _ => false

/-- Five sessions are at work, and when one commits none is reading a bound. -/
def Clear (w : World) (i : Nat) (a : Act) : Prop := i < 5 ∧ (a.commits → ∀ j < 5, (w.procs j).reads = none)

instance (w : World) (i : Nat) (a : Act) : Decidable (Clear w i a) := inferInstanceAs (Decidable (_ ∧ _))

theorem settles_of_clear {v : World} {a : Act} (hserves : a.Serves) (hclear : Clear v i a)
    (hidle : ∀ j, ¬j < 5 → v.procs j = beginning.procs j) : Settles v i a := by
  refine ⟨hserves, fun x hx j bound hreads => ?_⟩
  have hcommits : a.commits := by
    rcases hx with ⟨rfl, _⟩ | rfl <;> rfl
  have hnone : (v.procs j).reads = none := by
    by_cases hj : j < 5
    · exact hclear.2 hcommits j hj
    · rw [hidle j hj]
      rfl
  cases hnone.symm.trans hreads

/-- A row is written while a pass is to empty another generation, and is committed before the pass reads the rows
left. -/
def pass : List (Nat × Act) :=
  List.flatten [publish, [(0, .commit)], deliver, [(2, .begin), (2, .assign), (2, .commit)], publish,
    [(2, .begin), (2, .assign), (2, .commit)], (4, .reclaim) :: List.replicate 13 (4, .next),
    (0, .commit) :: List.replicate 4 (4, .next)]

def passing : World := worldIf (fun v i a => decide (Clear v i a)) beginning pass (by decide +kernel)

def passed : World := (oneSlot.program.act passing 4 .commit).get (by decide +kernel)

/-- Afterwards another row is committed, and both are handed on. -/
def after : List (Nat × Act) :=
  List.flatten [publish, [(0, .commit)], (1, .dispatch ⟨"billing", ""⟩ 10) :: List.replicate 2 (1, .next),
    (1, .take (some 0)) :: List.replicate 6 (1, .next), [(1, .commit)]]

def served : World := worldAfter passed after (by decide +kernel)

theorem gone_below_is_sound_passed : served.shared.table.map (·.transactionId) = [8, 10] ∧
    passed.shared.metaRow.goneBelow = some 8 ∧
    ∀ r ∈ served.shared.table, served.shared.transactions.Committed r.transactionId →
      8 ≤ r.transactionId := by
  have hclear : oneSlot.program.Run (fun v i a => Clear v i a ∧ a.Serves) beginning passing := by
    refine worldIf_run fun v s hs hcheck => ⟨of_decide_eq_true hcheck, ?_⟩
    revert s
    simp [pass, publish, deliver, Act.Serves, Act.Moves]
  have hrun : oneSlot.program.Run Settles beginning passing :=
    (hclear.among (· < 5) fun _ _ _ h => h.1.1).mono fun _ _ _ h => settles_of_clear h.1.2 h.1.1 h.2
  have hemptied : passing.procs 4 = .reclaimer (.emptied ⟨1, 6, 6⟩ 8 7) := rfl
  have hlater : oneSlot.program.Run (fun _ _ a => a.Serves) passed served :=
    worldAfter_run fun _ => by simp [after, publish, Act.Serves, Act.Moves]
  exact ⟨by decide +kernel,
    gone_below_is_sound Resting.fresh hrun hemptied (Option.some_get _).symm hlater⟩

end Sound

section Missed

/-- A row is written while a pass that empties another generation reads its bound, and is committed
between the reading of the rows left and that of the ids still open. -/
def overtake : List (Nat × Act) :=
  publish ++ [(0, .commit), (2, .begin), (2, .assign), (2, .commit)] ++ publish ++
    [(2, .begin), (2, .assign), (2, .commit), (4, .reclaim)] ++ List.replicate 14 (4, .next) ++
    [(0, .commit)] ++ List.replicate 3 (4, .next) ++ [(4, .commit)]

def overtaken : World := worldAfter beginning overtake (by decide +kernel)

def late : Row := ⟨⟨"orders/7", [], .null⟩, "now", 2, 8⟩

theorem gone_below_is_sound_fails : overtaken.shared.metaRow.goneBelow = some 10 ∧
    late ∈ overtaken.shared.table ∧ overtaken.shared.transactions.Committed late.transactionId ∧
    late.transactionId < 10 := by
  decide +kernel

end Missed

end AsceticDdd.Outbox
