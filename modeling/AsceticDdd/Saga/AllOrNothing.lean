import AsceticDdd.Saga.Scheduled

/-!
# Nested slips are all or nothing

A call takes the region of what it is given to the region of what it leaves: a work that fails
leaves nothing standing, one that answers a log leaves what the log stands for.
-/

namespace AsceticDdd.Saga.Nested

open Compensation

variable {ν : Type}

mutual

theorem Item.standing_eq_nil : ∀ item : Item ν, item.region.standing = []
  | .leaf _ => rfl
  | .parallel branches => standing_each branches
  | .fallback alternatives => standing_each alternatives

theorem standing_items : ∀ items : List (Item ν), (regionItems items).standing = []
  | [] => rfl
  | item :: items => by
    rw [regionItems, Region.standing_seq, Item.standing_eq_nil item, standing_items items]
    rfl

theorem standing_each : ∀ branches : List (List (Item ν)), (regionEach branches).standing = []
  | [] => rfl
  | items :: rest => by
    rw [regionEach, Region.standing_par, standing_items items, standing_each rest]
    rfl

end

mutual

theorem Log.fresh_eq_nil : ∀ log : Log ν, log.region.fresh = []
  | .leaf _ => rfl
  | .parallel slips => fresh_slips slips
  | .fallback slip => fresh_slip slip

theorem fresh_slip : ∀ slip : RoutingSlip (Item ν) (Log ν), (regionSlip slip).fresh = []
  | ⟨logs, _⟩ => fresh_logs logs

theorem fresh_logs : ∀ logs : List (Log ν), (regionLogs logs).fresh = []
  | [] => rfl
  | log :: logs => by
    rw [regionLogs, Region.fresh_seq, Log.fresh_eq_nil log, fresh_logs logs]
    rfl

theorem fresh_slips : ∀ slips : List (RoutingSlip (Item ν) (Log ν)), (regionSlips slips).fresh = []
  | [] => rfl
  | slip :: slips => by
    rw [regionSlips, Region.fresh_par, fresh_slip slip, fresh_slips slips]
    rfl

end

theorem regionSlip_eq (slip : Slip ν) : regionSlip slip = regionLogs slip.completedWorkLogs := by
  cases slip
  rfl

theorem regionLogs_append (logs : List (Log ν)) (log : Log ν) :
    regionLogs (logs ++ [log]) = (regionLogs logs).seq log.region := by
  induction logs with
  | nil =>
    calc
      log.region.seq .empty = log.region := Region.seq_empty
      _ = (regionLogs []).seq log.region := Region.empty_seq.symm
  | cons first logs ih => rw [List.cons_append, regionLogs, ih, regionLogs, Region.seq_assoc]

/-- A slip's completed logs, and then its pending items. -/
def regionAll (slip : Slip ν) : Region ν :=
  (regionLogs slip.completedWorkLogs).seq (regionItems slip.nextWorkItems)

def regionAlls : List (Slip ν) → Region ν
  | [] => .empty
  | slip :: slips => (regionAll slip).par (regionAlls slips)

theorem regionAll_new (items : List (Item ν)) : regionAll (.new items) = regionItems items :=
  Region.empty_seq

theorem regionAlls_new (branches : List (List (Item ν))) :
    regionAlls (branches.map .new) = regionEach branches := by
  induction branches with
  | nil => rfl
  | cons items rest ih => rw [List.map_cons, regionAlls, regionAll_new, ih, regionEach]

variable [DecidableEq ν]

/-- What each call does to the leaves it is given. -/
def Upholds : Call ν → List (Compensation.Event ν) → Answer ν → Prop
  | .doWork item, t, .worked (.ok (some log)) => item.region.Simple → Keeps item.region t log.region
  | .doWork item, t, .worked _ => item.region.Simple → Keeps item.region t .empty
  | .compensate log slip, t, .stepped result slip' => log.region.Simple →
      result = .ok true ∧ slip'.completedWorkLogs = slip.completedWorkLogs ∧ Keeps log.region t .empty
  | .processNext slip, t, .stepped result slip' => slip.nextWorkItems ≠ [] → (regionAll slip).Simple →
      (∃ done, result = .ok done) ∧ Keeps (regionAll slip) t (regionAll slip')
  | .undoLast slip, t, .stepped result slip' => slip.completedWorkLogs ≠ [] →
      (regionLogs slip.completedWorkLogs).Simple → result = .ok true ∧
        Keeps (regionLogs slip.completedWorkLogs) t (regionLogs slip'.completedWorkLogs)
  | .execute slip, t, .stepped result slip' => (regionAll slip).Simple →
      (result = .ok true ∨ result = .ok false ∧ slip'.completedWorkLogs = []) ∧
        Keeps (regionAll slip) t (regionLogs slip'.completedWorkLogs)
  | .unwind slip, t, .unwound result slip' => (regionLogs slip.completedWorkLogs).Simple →
      result = .ok () ∧ slip'.completedWorkLogs = [] ∧
        Keeps (regionLogs slip.completedWorkLogs) t .empty
  | .executeEach slips, t, .executed _ slips' => (regionAlls slips).Simple →
      Keeps (regionAlls slips) t (regionSlips slips')
  | .compensateBranches slips, t, .compensated _ => (regionSlips slips).Simple →
      Keeps (regionSlips slips) t .empty
  | _, _, _ => True

theorem upholds_worked_failed {item : Item ν} {t : List (Compensation.Event ν)}
    {result : Except SagaError (Option (Log ν))} (hfails : ∀ log, result ≠ .ok (some log)) :
    Upholds (.doWork item) t (.worked result) ↔ (item.region.Simple → Keeps item.region t .empty) := by
  match result with
  | .ok (some log) => exact absurd rfl (hfails log)
  | .ok none => rfl
  | .error _ => rfl

variable {compensates : ν → Except SagaError Bool → Prop} {call : Call ν} {answer : Answer ν}
  {t : List (Compensation.Event ν)}

/-- Once an item failed, those after it are given up. -/
theorem givenUp {r : Region ν} {slip : Slip ν} (h : Keeps r t (regionAll slip)) (hr : r.Simple) :
    (regionLogs slip.completedWorkLogs).Simple ∧ Keeps r t (regionLogs slip.completedWorkLogs) := by
  obtain ⟨hlogs, -, hapart⟩ := Region.Simple.seq (h.simple hr)
  exact ⟨hlogs, h.left_of_seq (standing_items _) hapart⟩

theorem Runs.upholds (hc : ∀ a result, compensates a result → result = .ok true)
    (h : Runs compensates call t answer) : Upholds call t answer := by
  induction h with
  | leafDone a => exact fun _ => .did a
  | leafNone a => exact fun _ => .failed a
  | leafError a _ => exact fun _ => .failed a
  | parallelDone _ _ ih =>
    intro hsimple
    rw [Upholds, regionAlls_new] at ih
    exact ih hsimple
  | parallelFailed _ _ _ ihwork ihback =>
    intro hsimple
    rw [Upholds, regionAlls_new] at ihwork
    have hwork := ihwork hsimple
    exact hwork.trans (ihback (hwork.simple hsimple))
  | fallbackNone => exact fun _ => .nil
  | @fallbackDone alternative rest t slip _ ih =>
    intro hsimple
    obtain ⟨hfirst, -, hapart⟩ := Region.Simple.par hsimple
    rw [Upholds, regionAll_new] at ih
    rw [Log.region, regionSlip_eq]
    exact (ih hfirst).2.left_of_par (standing_each rest) hapart
  | @fallbackNext alternative rest t slip u result _ _ ihfirst ihrest =>
    have hkeeps : (Item.fallback (alternative :: rest)).region.Simple →
        (Item.fallback rest).region.Simple ∧
        Keeps (Item.fallback (alternative :: rest)).region t (Item.fallback rest).region := by
      intro hsimple
      obtain ⟨hfirst, hrest, hapart⟩ := Region.Simple.par hsimple
      rw [Upholds, regionAll_new] at ihfirst
      obtain ⟨hresult | ⟨-, hnone⟩, hkeeps⟩ := ihfirst hfirst
      · cases hresult
      · rw [hnone] at hkeeps
        exact ⟨hrest, hkeeps.right_of_par hapart⟩
    match result with
    | .ok (some log) => exact fun hsimple => (hkeeps hsimple).2.trans (ihrest (hkeeps hsimple).1)
    | .ok none => exact fun hsimple => (hkeeps hsimple).2.trans (ihrest (hkeeps hsimple).1)
    | .error _ => exact fun hsimple => (hkeeps hsimple).2.trans (ihrest (hkeeps hsimple).1)
  | fallbackError _ ih =>
    intro hsimple
    rw [Upholds, regionAll_new] at ih
    obtain ⟨hresult | ⟨hresult, -⟩, -⟩ := ih (Region.Simple.par hsimple).1
    · cases hresult
    · cases hresult
  | leafCompensated hcomp => exact fun _ => ⟨hc _ _ hcomp, rfl, .undid _⟩
  | parallelCompensated _ ih => exact fun hsimple => ⟨rfl, rfl, ih hsimple⟩
  | @fallbackCompensated succeeded slip t slip' _ ih =>
    intro hsimple
    rw [Log.region, regionSlip_eq] at hsimple ⊢
    exact ⟨rfl, rfl, (ih hsimple).2.2⟩
  | @fallbackNotCompensated succeeded slip t error slip' _ ih =>
    intro hsimple
    rw [Log.region, regionSlip_eq] at hsimple
    cases (ih hsimple).1
  | nothingToProcess => exact fun h => absurd rfl h
  | @processed logs item items t log _ ih =>
    intro _ hsimple
    obtain ⟨-, hitems, hlogs⟩ := Region.Simple.seq hsimple
    obtain ⟨hitem, -, hapart⟩ := Region.Simple.seq hitems
    have hregion : regionAll ⟨logs ++ [log], items⟩ =
        (regionLogs logs).seq (log.region.seq (regionItems items)) := by
      rw [regionAll, regionLogs_append, Region.seq_assoc]
    rw [hregion]
    exact ⟨⟨true, rfl⟩, ((ih hitem).first hapart (standing_items items)).second hlogs⟩
  | @notProcessed logs item items t result _ hfails ih =>
    intro _ hsimple
    obtain ⟨-, hitems, hlogs⟩ := Region.Simple.seq hsimple
    obtain ⟨hitem, -, hapart⟩ := Region.Simple.seq hitems
    have hkeeps := ((upholds_worked_failed hfails).mp ih hitem).first hapart (standing_items items)
    rw [Region.empty_seq] at hkeeps
    exact ⟨⟨false, rfl⟩, hkeeps.second hlogs⟩
  | nothingToUndo => exact fun h => absurd rfl h
  | @undone logs log items t result slip _ ih =>
    intro _ hsimple
    rw [regionLogs_append] at hsimple ⊢
    obtain ⟨-, hlog, hapart⟩ := Region.Simple.seq hsimple
    obtain ⟨hresult, hlogs, hkeeps⟩ := ih hlog
    have hkeeps := hkeeps.second hapart
    rw [Region.seq_empty] at hkeeps
    rw [hlogs]
    exact ⟨hresult, hkeeps⟩
  | @executeDone logs =>
    intro _
    rw [regionAll, regionItems, Region.seq_empty]
    exact ⟨.inl rfl, .nil⟩
  | @executeNext slip t slip' u answer hpending _ _ ihstep ihrest =>
    cases answer with
    | stepped result slip'' =>
      intro hsimple
      obtain ⟨-, hstep⟩ := ihstep hpending hsimple
      obtain ⟨hresult, hrest⟩ := ihrest (hstep.simple hsimple)
      exact ⟨hresult, hstep.trans hrest⟩
    | _ => trivial
  | executeFailed hpending _ _ ihstep ihback =>
    intro hsimple
    obtain ⟨hlogs, hstep⟩ := givenUp (ihstep hpending hsimple).2 hsimple
    obtain ⟨-, hnone, hback⟩ := ihback hlogs
    rw [hnone]
    exact ⟨.inr ⟨rfl, rfl⟩, hstep.trans hback⟩
  | executeNotUnwound hpending _ _ ihstep ihback =>
    intro hsimple
    obtain ⟨hlogs, -⟩ := givenUp (ihstep hpending hsimple).2 hsimple
    cases (ihback hlogs).1
  | executeError hpending _ ih =>
    intro hsimple
    obtain ⟨⟨_, hresult⟩, -⟩ := ih hpending hsimple
    cases hresult
  | unwindDone => exact fun _ => ⟨rfl, rfl, .nil⟩
  | @unwindNext slip t goesOn slip' u answer hlogs _ _ ihstep ihrest =>
    cases answer with
    | unwound result slip'' =>
      intro hsimple
      obtain ⟨-, hstep⟩ := ihstep hlogs hsimple
      obtain ⟨hresult, hnone, hrest⟩ := ihrest (hstep.simple hsimple)
      exact ⟨hresult, hnone, hstep.trans hrest⟩
    | _ => trivial
  | unwindError hlogs _ ih =>
    intro hsimple
    cases (ih hlogs hsimple).1
  | executeEachNil => exact fun _ => .nil
  | @executeEachCons slip slips t u w result results slip' slips' _ _ hshuffle ihfirst ihrest =>
    intro hsimple
    obtain ⟨hfirst, hrest, hapart⟩ := Region.Simple.par hsimple
    rw [regionSlips, regionSlip_eq]
    exact (ihfirst hfirst).2.beside (ihrest hrest) hshuffle hapart
  | compensateNil => exact fun _ => .nil
  | @compensateCons slip slips t u w result slip' slips' _ _ hshuffle ihfirst ihrest =>
    intro hsimple
    obtain ⟨hfirst, hrest, hapart⟩ := Region.Simple.par hsimple
    rw [regionSlip_eq] at hfirst hapart
    rw [regionSlips, regionSlip_eq, ← Region.empty_par (r := .empty)]
    exact (ihfirst hfirst).2.2.beside (ihrest hrest) hshuffle hapart

/-- The leaves that count as done once the items were worked: of a Parallel those of every branch,
of a Fallback those of one alternative. -/
inductive CountsAsDone : List (Item ν) → List ν → Prop
  | nil : CountsAsDone [] []
  | leaf {a items done} : CountsAsDone items done → CountsAsDone (.leaf a :: items) (a :: done)
  | branchless {items done} : CountsAsDone items done → CountsAsDone (.parallel [] :: items) done
  | branch {branch branches items done done'} : CountsAsDone branch done →
      CountsAsDone (.parallel branches :: items) done' →
      CountsAsDone (.parallel (branch :: branches) :: items) (done ++ done')
  | alternative {alternatives alternative items done done'} : alternative ∈ alternatives →
      CountsAsDone alternative done → CountsAsDone items done' →
      CountsAsDone (.fallback alternatives :: items) (done ++ done')

omit [DecidableEq ν] in
theorem CountsAsDone.append {items items' : List (Item ν)} {done done' : List ν}
    (h : CountsAsDone items done) (h' : CountsAsDone items' done') :
    CountsAsDone (items ++ items') (done ++ done') := by
  induction h with
  | nil => exact h'
  | leaf _ ih => exact .leaf ih
  | branchless _ ih => exact .branchless ih
  | branch hfirst _ _ ih =>
    rw [List.append_assoc]
    exact .branch hfirst ih
  | alternative hmem hfirst _ _ ih =>
    rw [List.append_assoc]
    exact .alternative hmem hfirst ih

/-- What a call that goes well has done. -/
def Completes : Call ν → Answer ν → Prop
  | .doWork item, .worked (.ok (some log)) => CountsAsDone [item] log.region.standing
  | .processNext slip, .stepped (.ok true) slip' => ∃ item log,
      slip.nextWorkItems = item :: slip'.nextWorkItems ∧
      slip'.completedWorkLogs = slip.completedWorkLogs ++ [log] ∧ CountsAsDone [item] log.region.standing
  | .execute slip, .stepped (.ok true) slip' => ∃ done, CountsAsDone slip.nextWorkItems done ∧
      (regionSlip slip').standing = (regionSlip slip).standing ++ done
  | .executeEach slips, .executed results slips' => (∀ result ∈ results, result = .ok true) →
      ∀ branches, slips = branches.map .new →
        CountsAsDone [.parallel branches] (regionSlips slips').standing
  | _, _ => True

omit [DecidableEq ν] in
theorem CountsAsDone.after {alternative : List (Item ν)} {rest : List (List (Item ν))} {done : List ν}
    (h : CountsAsDone [.fallback rest] done) : CountsAsDone [.fallback (alternative :: rest)] done := by
  cases h with
  | alternative hmem hfirst hrest => exact .alternative (List.mem_cons_of_mem _ hmem) hfirst hrest

omit [DecidableEq ν] in
theorem Runs.completes (h : Runs compensates call t answer) : Completes call answer := by
  induction h with
  | leafDone a => exact .leaf .nil
  | parallelDone _ hall ih => exact ih hall _ rfl
  | @fallbackDone alternative rest t slip _ ih =>
    obtain ⟨done, hdone, hstanding⟩ := ih
    have hlog : (Log.fallback slip).region.standing = done ++ [] := hstanding.trans (List.append_nil _).symm
    rw [Completes, hlog]
    exact .alternative List.mem_cons_self hdone .nil
  | @fallbackNext alternative rest t slip u result _ _ _ ih =>
    match result with
    | .ok (some log) => exact ih.after
    | .ok none => trivial
    | .error _ => trivial
  | @processed logs item items t log _ ih => exact ⟨item, log, rfl, rfl, ih⟩
  | @executeDone logs => exact ⟨[], .nil, (List.append_nil _).symm⟩
  | @executeNext slip t slip' u answer _ _ _ ihstep ihrest =>
    obtain ⟨item, log, hitems, hlogs, hitem⟩ := ihstep
    match answer with
    | .stepped (.ok true) slip'' =>
      obtain ⟨done, hdone, hstanding⟩ := ihrest
      refine ⟨log.region.standing ++ done, hitems ▸ hitem.append hdone, ?_⟩
      rw [hstanding, regionSlip_eq slip', hlogs, regionLogs_append, Region.standing_seq,
        ← regionSlip_eq, List.append_assoc]
    | .stepped (.ok false) _ => trivial
    | .stepped (.error _) _ => trivial
    | .worked _ => trivial
    | .unwound _ _ => trivial
    | .executed _ _ => trivial
    | .compensated _ => trivial
  | executeEachNil =>
    intro _ branches h
    obtain rfl := List.map_eq_nil_iff.mp h.symm
    exact .branchless .nil
  | @executeEachCons slip slips t u w result results slip' slips' _ _ _ ihfirst ihrest =>
    intro hall branches h
    obtain ⟨branch, rest, rfl, rfl, rfl⟩ := List.map_eq_cons_iff.mp h.symm
    obtain ⟨rfl, hrest⟩ := List.forall_mem_cons.mp hall
    obtain ⟨done, hdone, hstanding⟩ := ihfirst
    rw [regionSlips, Region.standing_par, hstanding]
    exact .branch hdone (ihrest hrest rest rfl)
  | _ => trivial

section

variable {item : Item ν} {log : Log ν} {slip : Slip ν}
  {result : Except SagaError (Option (Log ν))} {u : List (Compensation.Event ν)}

/-- The leaves below an item, from left to right. -/
def Item.leaves (item : Item ν) : List ν := item.region.fresh

/-- In some slip below the item, the one leaf is below an item and the other below a later one. -/
def Item.Earlier (item : Item ν) (a b : ν) : Prop := item.region.earlier a b

/-- Whenever a leaf is compensated, no leaf of a later item of its slip is done and not yet
compensated. -/
def InReverse (item : Item ν) (t : List (Compensation.Event ν)) : Prop :=
  ∀ x y a b, t = x ++ .undid a :: y → item.Earlier a b → x.count (.did b) = x.count (.undid b)

/-- A leaf is compensated only once it is done. -/
def DoneFirst (t : List (Compensation.Event ν)) : Prop :=
  ∀ x y, t = x ++ y → ∀ a, x.count (.undid a) ≤ x.count (.did a)

theorem simple_of_nodup (h : item.leaves.Nodup) : item.region.Simple := by
  intro a
  rw [Item.standing_eq_nil, List.count_nil, Nat.zero_add]
  exact List.nodup_iff_count_le_one.mp h a

theorem inReverse_of_keeps {r : Region ν} (h : Keeps item.region t r) : InReverse item t := by
  intro x y a b hxy hab
  have hreverse := h.reverse x y a b hxy hab
  rwa [Item.standing_eq_nil, List.count_nil, Nat.zero_add] at hreverse

theorem doneFirst_of_keeps {r : Region ν} (h : Keeps item.region t r) : DoneFirst t := by
  intro x y hxy a
  have hundoes := h.undoes x y hxy a
  rwa [Item.standing_eq_nil, List.count_nil, Nat.zero_add] at hundoes

theorem count_did_le_one {r : Region ν} (hleaves : item.leaves.Nodup) (h : Keeps item.region t r) (a : ν) :
    t.count (.did a) ≤ 1 := by
  have honce := h.once a
  have hone := List.nodup_iff_count_le_one.mp hleaves a
  rw [Item.leaves] at hone
  omega

theorem nothing_stands (h : Keeps item.region t .empty) (a : ν) : t.count (.undid a) = t.count (.did a) := by
  have hbalance := h.balance a
  rw [Item.standing_eq_nil, List.count_nil] at hbalance
  simp only [Region.empty, List.count_nil] at hbalance
  omega

/-- The work of an item answers, whatever its leaves answer and however its branches take turns. One
that answers no log has compensated each leaf that was done below it, each once. One that answers a
log stands for the leaves of the parts that count as done; the log's compensation answers too, and
compensates each of these once and no other. Each slip is compensated in reverse. -/
theorem all_or_nothing (hleaves : item.leaves.Nodup) :
    (∀ s : Schedule ν, Runs Obliging (.doWork item) (s.doWork item).1 (.worked (s.doWork item).2)) ∧
    ∀ t result, Runs Obliging (.doWork item) t (.worked result) →
      (∀ a, t.count (.did a) ≤ 1) ∧
      ((∀ log, result ≠ .ok (some log)) →
        (∀ a, t.count (.undid a) = t.count (.did a)) ∧ InReverse item t ∧ DoneFirst t) ∧
      (∀ log, result = .ok (some log) → ∃ done, CountsAsDone [item] done ∧
        (∀ a, t.count (.did a) = t.count (.undid a) + done.count a) ∧
        (∀ (s : Schedule ν) slip,
          Runs Obliging (.compensate log slip) (s.compensate log) (.stepped (.ok true) slip)) ∧
        ∀ slip u answer slip', Runs Obliging (.compensate log slip) u (.stepped answer slip') →
          answer = .ok true ∧ (∀ a, u.count (.undid a) = done.count a ∧ u.count (.did a) = 0) ∧
          InReverse item (t ++ u) ∧ DoneFirst (t ++ u)) := by
  refine ⟨fun s => s.runs_doWork item, fun t result h => ?_⟩
  have hsimple := simple_of_nodup hleaves
  by_cases hfails : ∀ log, result ≠ .ok (some log)
  · have hkeeps := (upholds_worked_failed hfails).mp (h.upholds fun _ _ hc => hc) hsimple
    refine ⟨count_did_le_one hleaves hkeeps, fun _ => ?_, fun log hlog => absurd hlog (hfails log)⟩
    exact ⟨nothing_stands hkeeps, inReverse_of_keeps hkeeps, doneFirst_of_keeps hkeeps⟩
  · obtain ⟨log, hlog⟩ : ∃ log, result = .ok (some log) := by simpa using hfails
    subst hlog
    have hkeeps : Keeps item.region t log.region := h.upholds (fun _ _ hc => hc) hsimple
    refine ⟨count_did_le_one hleaves hkeeps, fun hnone => absurd rfl (hnone log), ?_⟩
    rintro _ ⟨⟩
    refine ⟨log.region.standing, h.completes, fun a => ?_, fun s => s.runs_compensate log,
      fun slip u answer slip' hback => ?_⟩
    · have hbalance := hkeeps.balance a
      rwa [Item.standing_eq_nil, List.count_nil, Nat.zero_add] at hbalance
    · obtain ⟨hanswer, -, hundone⟩ := hback.upholds (fun _ _ hc => hc) (hkeeps.simple hsimple)
      have hboth := hkeeps.trans hundone
      refine ⟨hanswer, fun a => ?_, inReverse_of_keeps hboth, doneFirst_of_keeps hboth⟩
      have honce := hundone.once a
      have hbalance := hundone.balance a
      rw [Log.fresh_eq_nil] at honce
      simp only [Region.empty, List.count_nil] at honce hbalance
      omega

/-- Two branches side by side; the first falls back on a second alternative. -/
def journey : Item Nat :=
  .parallel [[.leaf 1, .fallback [[.leaf 2, .leaf 3], [.leaf 4]]], [.leaf 5, .leaf 6]]

/-- The branches take turns; the leaf that fails answers no log, each other one its own. -/
def takingTurns (fails : Nat → Bool) : Schedule Nat where
  works a := .ok !fails a
  interleave := alternate
  shuffle := shuffle_alternate

/-- The log of the journey whose third leaf failed. -/
def journeyLog : Log Nat :=
  .parallel [⟨[.leaf 1, .fallback ⟨[.leaf 4], []⟩], []⟩, ⟨[.leaf 5, .leaf 6], []⟩]

/-- The third leaf fails and the second alternative is done instead, both branches stand, and are
compensated side by side. Where the sixth leaf fails as well, nothing stands. -/
theorem all_or_nothing_journey :
    (∃ done, CountsAsDone [journey] done ∧
      (∀ a, [Compensation.Event.did 1, .did 5, .did 2, .did 6, .undid 2, .did 4].count (.did a) =
        [Compensation.Event.did 1, .did 5, .did 2, .did 6, .undid 2, .did 4].count (.undid a) + done.count a) ∧
      (∀ a, [Compensation.Event.undid 4, .undid 6, .undid 1, .undid 5].count (.undid a) = done.count a)) ∧
    ∀ a, ((takingTurns fun a => a = 3 || a = 6).doWork journey).1.count (.undid a) =
      ((takingTurns fun a => a = 3 || a = 6).doWork journey).1.count (.did a) := by
  have hleaves : journey.leaves.Nodup := by decide
  obtain ⟨hworks, hstands⟩ := all_or_nothing hleaves
  have hwork : Runs Obliging (.doWork journey) [.did 1, .did 5, .did 2, .did 6, .undid 2, .did 4]
      (.worked (.ok (some journeyLog))) := hworks (takingTurns (· = 3))
  have hfailed : Runs Obliging (.doWork journey) ((takingTurns fun a => a = 3 || a = 6).doWork journey).1
      (.worked (.ok none)) := hworks (takingTurns fun a => a = 3 || a = 6)
  obtain ⟨-, -, hlog⟩ := hstands _ _ hwork
  obtain ⟨done, hdone, hcount, hanswers, hundone⟩ := hlog journeyLog rfl
  have hback : Runs Obliging (.compensate journeyLog ⟨[], []⟩) [.undid 4, .undid 6, .undid 1, .undid 5]
      (.stepped (.ok true) ⟨[], []⟩) := hanswers (takingTurns (· = 3)) ⟨[], []⟩
  refine ⟨⟨done, hdone, hcount, fun a => ((hundone _ _ _ _ hback).2.1 a).1⟩, ?_⟩
  exact ((hstands _ _ hfailed).2.1 (by simp)).1

end

end AsceticDdd.Saga.Nested
