import AsceticDdd.Saga.AllOrNothing

/-!
# A compensation that fails

`undo_last` takes a log off its slip before it asks for its compensation, and a Parallel goes on
when a branch answers an error. So what a call leaves accounts for every leaf it was given or
did, as long as no compensation begun in it fails.
-/

namespace AsceticDdd.Saga.Nested

open Compensation

variable {ν : Type}

/-- Every leaf's compensation answers as the pattern says. -/
def Answering (answers : ν → Except SagaError Bool) (a : ν) (result : Except SagaError Bool) : Prop :=
  result = answers a

/-- No compensation begun in the trace answers an error. -/
def NoneFails (answers : ν → Except SagaError Bool) (t : List (Compensation.Event ν)) : Prop :=
  ∀ a, .undid a ∈ t → ∃ goesOn, answers a = .ok goesOn

/-- The leaves standing in what a call is given. -/
def Call.standing : Call ν → List ν
  | .doWork _ => []
  | .compensate log slip => log.region.standing ++ (regionSlip slip).standing
  | .processNext slip | .undoLast slip | .execute slip | .unwind slip => (regionSlip slip).standing
  | .executeEach slips | .compensateBranches slips => (regionSlips slips).standing

/-- The leaves standing in what a call leaves. -/
def Answer.standing : Answer ν → List ν
  | .worked (.ok (some log)) => log.region.standing
  | .worked (.ok none) | .worked (.error _) => []
  | .stepped _ slip | .unwound _ slip => (regionSlip slip).standing
  | .executed _ slips | .compensated slips => (regionSlips slips).standing

theorem standing_of_failed {result : Except SagaError (Option (Log ν))}
    (hfails : ∀ log, result ≠ .ok (some log)) : (Answer.worked result).standing = [] := by
  match result with
  | .ok (some log) => exact absurd rfl (hfails log)
  | .ok none => rfl
  | .error _ => rfl

/-- A call of the backward path. -/
def Call.Backward : Call ν → Prop
  | .compensate _ _ | .undoLast _ | .unwind _ | .compensateBranches _ => True
  | _ => False

theorem standing_slip (slip : Slip ν) :
    (regionSlip slip).standing = (regionLogs slip.completedWorkLogs).standing := by
  rw [regionSlip_eq]

theorem standing_concat (logs : List (Log ν)) (log : Log ν) (items : List (Item ν)) :
    (regionSlip ⟨logs ++ [log], items⟩).standing = (regionLogs logs).standing ++ log.region.standing := by
  rw [standing_slip, regionLogs_append, Region.standing_seq]

theorem standing_new (branches : List (List (Item ν))) :
    (regionSlips (branches.map .new)).standing = [] := by
  induction branches with
  | nil => rfl
  | cons items rest ih =>
    rw [List.map_cons, regionSlips, Region.standing_par, ih]
    rfl

variable {compensates : ν → Except SagaError Bool → Prop} {call : Call ν} {answer : Answer ν}
  {t : List (Compensation.Event ν)}

/-- The backward path does no work. -/
theorem Runs.not_did (h : Runs compensates call t answer) (hback : call.Backward) (a : ν) : .did a ∉ t := by
  induction h with
  | leafCompensated => simp
  | parallelCompensated _ ih => exact ih trivial
  | fallbackCompensated _ ih => exact ih trivial
  | fallbackNotCompensated _ ih => exact ih trivial
  | nothingToUndo => simp
  | undone _ ih => exact ih trivial
  | unwindDone => simp
  | unwindNext _ _ _ ihstep ihrest =>
    rw [List.mem_append, not_or]
    exact ⟨ihstep trivial, ihrest trivial⟩
  | unwindError _ _ ih => exact ih trivial
  | compensateNil => simp
  | compensateCons _ _ hshuffle ihfirst ihrest =>
    rw [hshuffle.mem_iff, not_or]
    exact ⟨ihfirst trivial, ihrest trivial⟩
  | _ => exact hback.elim

/-- A compensation leaves the completed logs of the slip it is given. -/
theorem Runs.logs_of_compensate {log : Log ν} {slip slip' : Slip ν} {result : Except SagaError Bool}
    (h : Runs compensates (.compensate log slip) t (.stepped result slip')) :
    slip'.completedWorkLogs = slip.completedWorkLogs := by
  cases h with
  | leafCompensated => rfl
  | parallelCompensated => rfl
  | fallbackCompensated => rfl
  | fallbackNotCompensated => rfl

/-- What a call answers when no compensation fails. -/
def GoesWell : Call ν → Answer ν → Prop
  | .compensate _ _, .stepped result _ => ∃ goesOn, result = .ok goesOn
  | .processNext slip, .stepped result _ => slip.nextWorkItems ≠ [] → ∃ done, result = .ok done
  | .undoLast slip, .stepped result _ => slip.completedWorkLogs ≠ [] → ∃ goesOn, result = .ok goesOn
  | .execute _, .stepped result slip => (∃ done, result = .ok done) ∧
      (result = .ok false → (regionSlip slip).standing = [])
  | .unwind _, .unwound result slip => result = .ok () ∧ (regionSlip slip).standing = []
  | .compensateBranches _, .compensated slips => (regionSlips slips).standing = []
  | _, _ => True

variable {answers : ν → Except SagaError Bool} {u w : List (Compensation.Event ν)}

theorem NoneFails.append (h : NoneFails answers (t ++ u)) : NoneFails answers t ∧ NoneFails answers u :=
  ⟨fun a ha => h a (List.mem_append_left u ha), fun a ha => h a (List.mem_append_right t ha)⟩

theorem NoneFails.shuffle (h : NoneFails answers w) (hshuffle : Shuffle t u w) :
    NoneFails answers t ∧ NoneFails answers u :=
  ⟨fun a ha => h a (hshuffle.mem_iff.mpr (.inl ha)), fun a ha => h a (hshuffle.mem_iff.mpr (.inr ha))⟩

theorem Runs.goesWell (h : Runs (Answering answers) call t answer) (hnone : NoneFails answers t) :
    GoesWell call answer := by
  induction h with
  | @leafCompensated a result slip items hanswer =>
    obtain ⟨goesOn, hok⟩ := hnone a List.mem_cons_self
    exact ⟨goesOn, hanswer.trans hok⟩
  | parallelCompensated => exact ⟨true, rfl⟩
  | fallbackCompensated => exact ⟨true, rfl⟩
  | fallbackNotCompensated _ ih =>
    obtain ⟨hresult, -⟩ := ih hnone
    cases hresult
  | nothingToProcess => exact fun h => absurd rfl h
  | processed => exact fun _ => ⟨true, rfl⟩
  | notProcessed => exact fun _ => ⟨false, rfl⟩
  | nothingToUndo => exact fun h => absurd rfl h
  | undone _ ih => exact fun _ => ih hnone
  | executeDone => exact ⟨⟨true, rfl⟩, fun h => by cases h⟩
  | @executeNext slip t slip' u answer _ _ _ _ ihrest =>
    cases answer with
    | stepped result slip'' => exact ihrest hnone.append.2
    | _ => trivial
  | executeFailed _ _ _ _ ihback => exact ⟨⟨false, rfl⟩, fun _ => (ihback hnone.append.2).2⟩
  | executeNotUnwound _ _ _ _ ihback =>
    obtain ⟨hresult, -⟩ := ihback hnone.append.2
    cases hresult
  | executeError hpending _ ih =>
    obtain ⟨done, hresult⟩ := ih hnone hpending
    cases hresult
  | unwindDone => exact ⟨rfl, rfl⟩
  | @unwindNext slip t goesOn slip' u answer _ _ _ _ ihrest =>
    cases answer with
    | unwound result slip'' => exact ihrest hnone.append.2
    | _ => trivial
  | unwindError hlogs _ ih =>
    obtain ⟨goesOn, hresult⟩ := ih hnone hlogs
    cases hresult
  | compensateNil => rfl
  | compensateCons _ _ hshuffle ihfirst ihrest =>
    obtain ⟨hfirst, hrest⟩ := hnone.shuffle hshuffle
    rw [GoesWell, regionSlips, Region.standing_par, (ihfirst hfirst).2, ihrest hrest]
    rfl
  | _ => trivial

variable [DecidableEq ν] {a : ν}

/-- How often the leaf was given or done is how often it was compensated or left standing, but for
what was lost; and nothing is lost when no compensation fails. -/
def Accounts (answers : ν → Except SagaError Bool) (a : ν) (t : List (Compensation.Event ν))
    (given left : List ν) : Prop :=
  ∃ lost, t.count (.did a) + given.count a = t.count (.undid a) + left.count a + lost ∧
    (NoneFails answers t → lost = 0)

namespace Accounts

variable {given between left given' left' : List ν}

theorem nil : Accounts answers a [] given given := ⟨0, rfl, fun _ => rfl⟩

theorem trans (h : Accounts answers a t given between) (h' : Accounts answers a u between left) :
    Accounts answers a (t ++ u) given left := by
  obtain ⟨lost, hcount, hnone⟩ := h
  obtain ⟨lost', hcount', hnone'⟩ := h'
  simp only [Accounts, List.count_append]
  refine ⟨lost + lost', by omega, fun h => ?_⟩
  rw [hnone h.append.1, hnone' h.append.2]

theorem beside (h : Accounts answers a t given left) (h' : Accounts answers a u given' left')
    (hshuffle : Shuffle t u w) : Accounts answers a w (given ++ given') (left ++ left') := by
  obtain ⟨lost, hcount, hnone⟩ := h
  obtain ⟨lost', hcount', hnone'⟩ := h'
  simp only [Accounts, List.count_append, hshuffle.count_eq]
  refine ⟨lost + lost', by omega, fun h => ?_⟩
  rw [hnone (h.shuffle hshuffle).1, hnone' (h.shuffle hshuffle).2]

/-- What is left is out of reach from here on. -/
theorem drop (h : Accounts answers a t given left) (hleft : NoneFails answers t → left = []) :
    Accounts answers a t given [] := by
  obtain ⟨lost, hcount, hnone⟩ := h
  refine ⟨lost + left.count a, by rw [List.count_nil]; omega, fun h => ?_⟩
  rw [hnone h, hleft h]
  rfl

/-- What stands beside the part a call works on stays as it is. -/
theorem framed (h : Accounts answers a t given left) (rest : List ν) :
    Accounts answers a t (rest ++ given) (rest ++ left) := by
  obtain ⟨lost, hcount, hnone⟩ := h
  simp only [Accounts, List.count_append]
  exact ⟨lost, by omega, hnone⟩

theorem perm (h : Accounts answers a t given left) (hgiven : given.Perm given') (hleft : left.Perm left') :
    Accounts answers a t given' left' := by
  rw [Accounts, ← hgiven.count_eq, ← hleft.count_eq]
  exact h

theorem framed_right (h : Accounts answers a t given left) (rest : List ν) :
    Accounts answers a t (given ++ rest) (left ++ rest) :=
  (h.framed rest).perm List.perm_append_comm List.perm_append_comm

theorem did (b : ν) : Accounts answers a [.did b] [] [b] := by
  refine ⟨0, ?_, fun _ => rfl⟩
  simp [List.count_cons]

theorem undid (b : ν) : Accounts answers a [.undid b] [b] [] := by
  refine ⟨0, ?_, fun _ => rfl⟩
  simp [List.count_cons]

end Accounts

/-- A call compensates, or leaves standing, nothing but what it was given or did, and all of that
when no compensation fails. -/
theorem Runs.accounts (h : Runs (Answering answers) call t answer) (a : ν) :
    Accounts answers a t call.standing answer.standing := by
  induction h with
  | leafDone b => exact .did b
  | leafNone => exact .nil
  | leafError => exact .nil
  | @parallelDone branches t results slips _ _ ih =>
    rw [Call.standing, standing_new] at ih
    exact ih
  | @parallelFailed branches t results slips u slips' _ _ hback ihwork ihback =>
    rw [Call.standing, standing_new] at ihwork
    exact (ihwork.trans ihback).drop fun h => hback.goesWell h.append.2
  | fallbackNone => exact .nil
  | fallbackDone _ ih => exact ih
  | fallbackNext hfirst _ ihfirst ihrest =>
    exact (ihfirst.drop fun h => (hfirst.goesWell h).2 rfl).trans ihrest
  | fallbackError hfirst ih =>
    refine ih.drop fun h => ?_
    obtain ⟨⟨done, hresult⟩, -⟩ := hfirst.goesWell h
    cases hresult
  | @leafCompensated b result slip items _ =>
    simp only [Call.standing, Answer.standing, standing_slip]
    exact (Accounts.undid b).framed_right _
  | @parallelCompensated slips slip t slips' hback ih =>
    exact (ih.drop fun h => hback.goesWell h).framed_right _
  | @fallbackCompensated succeeded slip t slip' hback ih =>
    exact (ih.drop fun h => (hback.goesWell h).2).framed_right _
  | @fallbackNotCompensated succeeded slip t error slip' hback ih =>
    exact (ih.drop fun h => (hback.goesWell h).2).framed_right _
  | nothingToProcess => exact .nil
  | @processed logs item items t log _ ih =>
    have hframed := ih.framed (regionLogs logs).standing
    rw [Call.standing, List.append_nil] at hframed
    simp only [Answer.standing, Call.standing, standing_concat]
    rw [standing_slip]
    exact hframed
  | @notProcessed logs item items t result _ hfails ih =>
    have hframed := ih.framed (regionLogs logs).standing
    rw [standing_of_failed hfails, Call.standing, List.append_nil] at hframed
    simp only [Answer.standing, Call.standing, standing_slip]
    exact hframed
  | nothingToUndo => exact .nil
  | @undone logs log items t result slip hback ih =>
    rw [Call.standing, standing_slip ⟨logs, items⟩] at ih
    rw [Call.standing, standing_concat]
    exact ih.perm List.perm_append_comm (.refl _)
  | executeDone => exact .nil
  | executeNext _ _ _ ihstep ihrest => exact ihstep.trans ihrest
  | executeFailed _ _ _ ihstep ihback => exact ihstep.trans ihback
  | executeNotUnwound _ _ _ ihstep ihback => exact ihstep.trans ihback
  | executeError _ _ ih => exact ih
  | unwindDone => exact .nil
  | unwindNext _ _ _ ihstep ihrest => exact ihstep.trans ihrest
  | unwindError _ _ ih => exact ih
  | executeEachNil => exact .nil
  | executeEachCons _ _ hshuffle ihfirst ihrest => exact ihfirst.beside ihrest hshuffle
  | compensateNil => exact .nil
  | compensateCons _ _ hshuffle ihfirst ihrest => exact ihfirst.beside ihrest hshuffle

section

variable {logs : List (Log ν)} {log : Log ν} {slip slip' : Slip ν} {result : Except SagaError Bool}

/-- Each of the leaves was compensated, as often as it is there, and its compensation answered no
error. -/
def Compensated (answers : ν → Except SagaError Bool) (t : List (Compensation.Event ν))
    (leaves : List ν) : Prop :=
  ∀ a ∈ leaves, t.count (.undid a) = leaves.count a ∧ ∃ goesOn, answers a = .ok goesOn

/-- Each leaf done in the trace was compensated in it. -/
def CompensatesItself (answers : ν → Except SagaError Bool) (t : List (Compensation.Event ν)) : Prop :=
  ∀ a, .did a ∈ t → t.count (.undid a) = t.count (.did a) ∧ ∃ goesOn, answers a = .ok goesOn

/-- A log whose compensation answered an error is in its place, with those below it as they were;
any other is compensated with all it stands for. -/
def UndoRemembers (answers : ν → Except SagaError Bool) (logs : List (Log ν)) (log : Log ν)
    (t : List (Compensation.Event ν)) (result : Except SagaError Bool) (slip : Slip ν) : Prop :=
  (∀ error, result = .error error → ∃ kept, slip.completedWorkLogs = logs ++ [kept]) ∧
    (∀ goesOn, result = .ok goesOn → Compensated answers t log.region.standing)

theorem NoneFails.of_compensated {leaves : List ν} (h : Compensated answers t leaves)
    (hmem : ∀ a, .undid a ∈ t → a ∈ leaves) : NoneFails answers t :=
  fun a ha => (h a (hmem a ha)).2

/-- What a compensation begins to compensate stands in its log. -/
theorem mem_of_undid (h : Runs (Answering answers) (.compensate log slip) t (.stepped result slip'))
    (ha : .undid a ∈ t) : a ∈ log.region.standing := by
  obtain ⟨lost, hcount, -⟩ := h.accounts a
  have hdid := List.count_eq_zero.mpr (h.not_did trivial a)
  have hundid := List.count_pos_iff.mpr ha
  simp only [Call.standing, Answer.standing, standing_slip, h.logs_of_compensate, List.count_append] at hcount
  exact List.count_pos_iff.mp (by omega)

theorem compensated_of_noneFails
    (h : Runs (Answering answers) (.compensate log slip) t (.stepped result slip'))
    (hnone : NoneFails answers t) : Compensated answers t log.region.standing := by
  intro a ha
  obtain ⟨lost, hcount, hlost⟩ := h.accounts a
  have hdid := List.count_eq_zero.mpr (h.not_did trivial a)
  have hpos := List.count_pos_iff.mpr ha
  simp only [Call.standing, Answer.standing, standing_slip, h.logs_of_compensate, List.count_append] at hcount
  rw [hlost hnone] at hcount
  have hundid : t.count (.undid a) = log.region.standing.count a := by omega
  exact ⟨hundid, hnone a (List.count_pos_iff.mp (by omega))⟩

theorem undoRemembers_iff (items : List (Item ν))
    (h : Runs (Answering answers) (.undoLast ⟨logs ++ [log], items⟩) t (.stepped result slip)) :
    UndoRemembers answers logs log t result slip ↔ NoneFails answers t := by
  generalize hgiven : logs ++ [log] = given at h
  cases h with
  | nothingToUndo => simp at hgiven
  | undone hback =>
    obtain ⟨rfl, rfl⟩ := List.append_singleton_inj.mp hgiven
    constructor
    · rintro ⟨hkept, hdone⟩
      cases result with
      | error error =>
        obtain ⟨kept, hlogs⟩ := hkept error rfl
        rw [hback.logs_of_compensate] at hlogs
        simp at hlogs
      | ok goesOn => exact .of_compensated (hdone goesOn rfl) fun a ha => mem_of_undid hback ha
    · intro hnone
      obtain ⟨goesOn, rfl⟩ := hback.goesWell hnone
      refine ⟨fun error herror => ?_, fun _ _ => compensated_of_noneFails hback hnone⟩
      cases herror

omit [DecidableEq ν] in
/-- A step that fails leaves the completed logs of its slip. -/
theorem logs_of_notProcessed (h : Runs compensates (.processNext slip) t (.stepped (.ok false) slip')) :
    slip'.completedWorkLogs = slip.completedWorkLogs := by
  cases h with
  | notProcessed => rfl

theorem compensatesItself_iff
    (h : Runs (Answering answers) (.processNext slip) t (.stepped (.ok false) slip')) :
    CompensatesItself answers t ↔ NoneFails answers t := by
  have hcount := fun a => h.accounts a
  simp only [Accounts, Call.standing, Answer.standing, standing_slip, logs_of_notProcessed h] at hcount
  constructor
  · intro hself a ha
    obtain ⟨lost, hlost, -⟩ := hcount a
    have hundid := List.count_pos_iff.mpr ha
    exact (hself a (List.count_pos_iff.mp (by omega))).2
  · intro hnone a ha
    obtain ⟨lost, hlost, hzero⟩ := hcount a
    rw [hzero hnone] at hlost
    have hdid := List.count_pos_iff.mpr ha
    have hundid : t.count (.undid a) = t.count (.did a) := by omega
    exact ⟨hundid, hnone a (List.count_pos_iff.mp (by omega))⟩

/-- A failed compensation is remembered in no call: undoing a log, compensating one and answering
that a step failed forget nothing exactly when no compensation begun in them fails. -/
theorem remembered_iff (answers : ν → Except SagaError Bool) :
    (∀ logs log items t result slip,
      Runs (Answering answers) (.undoLast ⟨logs ++ [log], items⟩) t (.stepped result slip) →
        (UndoRemembers answers logs log t result slip ↔ NoneFails answers t)) ∧
    (∀ log slip t slip', Runs (Answering answers) (.compensate log slip) t (.stepped (.ok true) slip') →
      (Compensated answers t log.region.standing ↔ NoneFails answers t)) ∧
    (∀ slip t slip', Runs (Answering answers) (.processNext slip) t (.stepped (.ok false) slip') →
      (CompensatesItself answers t ↔ NoneFails answers t)) := by
  refine ⟨fun logs log items t result slip h => undoRemembers_iff items h, fun log slip t slip' h => ?_,
    fun slip t slip' h => compensatesItself_iff h⟩
  exact ⟨fun hdone => .of_compensated hdone fun a ha => mem_of_undid h ha, compensated_of_noneFails h⟩

end

/-- The first leaf's compensation answers an error, any other that it went well. -/
def refusing (a : Nat) : Except SagaError Bool :=
  if a = 1 then .error (.activity "the cancellation is refused") else .ok true

/-- The log of a Parallel of two branches. -/
def pairLog : Log Nat := .parallel [⟨[] ++ [.leaf 2], []⟩, ⟨[] ++ [.leaf 3], []⟩]

/-- Where the first leaf has no part, the Parallel's log above another is undone with both of its
branches, and a Parallel of which a branch failed compensates the other. -/
theorem remembered_iff_parallel :
    UndoRemembers refusing [.leaf 1] pairLog [.undid 2, .undid 3] (.ok true) ⟨[.leaf 1], []⟩ ∧
    Compensated refusing [.undid 2, .undid 3] pairLog.region.standing ∧
    CompensatesItself refusing [.did 2, .undid 2] := by
  have hunwind : ∀ a, a ≠ 1 → Runs (Answering refusing) (.unwind ⟨[] ++ [.leaf a], []⟩) [.undid a]
      (.unwound (.ok ()) ⟨[], []⟩) := by
    intro a ha
    have hok : Answering refusing a (.ok true) := (if_neg ha).symm
    have hback : Runs (Answering refusing) (.compensate (.leaf a) ⟨[], []⟩) [.undid a]
        (.stepped (.ok true) ⟨[], []⟩) := .leafCompensated hok
    exact .unwindNext (List.concat_ne_nil _ _) (.undone hback) .unwindDone
  have hboth : Runs (Answering refusing) (.compensateBranches [⟨[] ++ [.leaf 2], []⟩, ⟨[] ++ [.leaf 3], []⟩])
      [.undid 2, .undid 3] (.compensated [⟨[], []⟩, ⟨[], []⟩]) :=
    .compensateCons (hunwind 2 (by decide))
      (.compensateCons (hunwind 3 (by decide)) .compensateNil (.nil_right _)) (.left (.right .nil))
  have hback : Runs (Answering refusing) (.compensate pairLog ⟨[.leaf 1], []⟩) [.undid 2, .undid 3]
      (.stepped (.ok true) ⟨[.leaf 1], []⟩) := .parallelCompensated hboth
  have hfirst : Runs (Answering refusing) (.execute ⟨[], [.leaf 2]⟩) [.did 2]
      (.stepped (.ok true) ⟨[] ++ [.leaf 2], []⟩) :=
    .executeNext (by simp) (.processed (.leafDone 2)) .executeDone
  have hsecond : Runs (Answering refusing) (.execute ⟨[], [.leaf 3]⟩) [] (.stepped (.ok false) ⟨[], []⟩) :=
    .executeFailed (by simp) (.notProcessed (.leafNone 3) (by simp)) .unwindDone
  have heach : Runs (Answering refusing) (.executeEach [⟨[], [.leaf 2]⟩, ⟨[], [.leaf 3]⟩]) [.did 2]
      (.executed [.ok true, .ok false] [⟨[] ++ [.leaf 2], []⟩, ⟨[], []⟩]) :=
    .executeEachCons hfirst (.executeEachCons hsecond .executeEachNil .nil) (.nil_right _)
  have hbranches : Runs (Answering refusing) (.compensateBranches [⟨[] ++ [.leaf 2], []⟩, ⟨[], []⟩]) [.undid 2]
      (.compensated [⟨[], []⟩, ⟨[], []⟩]) :=
    .compensateCons (hunwind 2 (by decide)) (.compensateCons .unwindDone .compensateNil .nil) (.nil_right _)
  have hfailed : Runs (Answering refusing) (.doWork (.parallel [[.leaf 2], [.leaf 3]]))
      ([.did 2] ++ [.undid 2]) (.worked (.ok none)) :=
    .parallelFailed heach ⟨.ok false, by simp, by simp⟩ hbranches
  have hstep : Runs (Answering refusing) (.processNext ⟨[], [.parallel [[.leaf 2], [.leaf 3]]]⟩)
      [.did 2, .undid 2] (.stepped (.ok false) ⟨[], []⟩) := .notProcessed hfailed (by simp)
  have hnone : ∀ t : List (Compensation.Event Nat), .undid 1 ∉ t → NoneFails refusing t := by
    intro t ht a ha
    have hother : a ≠ 1 := fun h => ht (h ▸ ha)
    exact ⟨true, if_neg hother⟩
  obtain ⟨hundo, hcompensate, hprocess⟩ := remembered_iff refusing
  refine ⟨(hundo [.leaf 1] pairLog [] _ _ _ (.undone hback)).mpr (hnone _ (by simp)), ?_, ?_⟩
  · exact (hcompensate pairLog _ _ _ hback).mpr (hnone _ (by simp))
  · exact (hprocess _ _ _ hstep).mpr (hnone _ (by simp))

/-- The refused cancellation is off its slip; a Parallel answers that it went well; and a step in
whose other branch the work failed is reported as failed, with the first branch's work done. -/
theorem refused_cancellation_forgotten :
    (∃ t result slip, Runs (Answering refusing) (.undoLast ⟨[] ++ [.leaf 1], []⟩) t (.stepped result slip) ∧
      ¬ UndoRemembers refusing [] (.leaf 1) t result slip) ∧
    (∃ t slip, Runs (Answering refusing) (.compensate (.parallel [⟨[] ++ [.leaf 1], []⟩]) ⟨[], []⟩) t
        (.stepped (.ok true) slip) ∧
      ¬ Compensated refusing t (Log.parallel [⟨[] ++ [.leaf 1], []⟩]).region.standing) ∧
    ∃ t slip, Runs (Answering refusing) (.processNext ⟨[], [.parallel [[.leaf 1], [.leaf 2]]]⟩) t
        (.stepped (.ok false) slip) ∧
      ¬ CompensatesItself refusing t := by
  have hback : Runs (Answering refusing) (.compensate (.leaf 1) ⟨[], []⟩) [.undid 1]
      (.stepped (refusing 1) ⟨[], []⟩) := .leafCompensated rfl
  have hundo : Runs (Answering refusing) (.undoLast ⟨[] ++ [.leaf 1], []⟩) [.undid 1]
      (.stepped (refusing 1) ⟨[], []⟩) := .undone hback
  have hunwind : Runs (Answering refusing) (.unwind ⟨[] ++ [.leaf 1], []⟩) [.undid 1]
      (.unwound (.error (.activity "the cancellation is refused")) ⟨[], []⟩) := .unwindError (by simp) hundo
  have hfirst : Runs (Answering refusing) (.execute ⟨[], [.leaf 1]⟩) [.did 1]
      (.stepped (.ok true) ⟨[] ++ [.leaf 1], []⟩) :=
    .executeNext (by simp) (.processed (.leafDone 1)) .executeDone
  have hsecond : Runs (Answering refusing) (.execute ⟨[], [.leaf 2]⟩) []
      (.stepped (.ok false) ⟨[], []⟩) :=
    .executeFailed (by simp) (.notProcessed (.leafNone 2) (by simp)) .unwindDone
  have heach : Runs (Answering refusing) (.executeEach [⟨[], [.leaf 1]⟩, ⟨[], [.leaf 2]⟩]) [.did 1]
      (.executed [.ok true, .ok false] [⟨[] ++ [.leaf 1], []⟩, ⟨[], []⟩]) :=
    .executeEachCons hfirst (.executeEachCons hsecond .executeEachNil .nil) (.nil_right _)
  have hbranches : Runs (Answering refusing) (.compensateBranches [⟨[] ++ [.leaf 1], []⟩, ⟨[], []⟩]) [.undid 1]
      (.compensated [⟨[], []⟩, ⟨[], []⟩]) :=
    .compensateCons hunwind (.compensateCons .unwindDone .compensateNil .nil) (.nil_right _)
  have hfails : ∀ t, .undid 1 ∈ t → ¬ NoneFails refusing t := by
    intro t ht hnone
    obtain ⟨goesOn, h⟩ := hnone 1 ht
    cases h
  refine ⟨⟨_, _, _, hundo, fun h => ?_⟩, ⟨_, _, .parallelCompensated (.compensateCons hunwind .compensateNil
    (.nil_right _)), fun h => ?_⟩, _, _, .notProcessed (.parallelFailed heach ⟨.ok false, by simp, by simp⟩ hbranches)
    (by simp), fun h => ?_⟩
  · exact hfails _ List.mem_cons_self ((undoRemembers_iff [] hundo).mp h)
  · obtain ⟨-, goesOn, h⟩ := h 1 List.mem_cons_self
    cases h
  · obtain ⟨-, goesOn, h⟩ := h 1 List.mem_cons_self
    cases h

end AsceticDdd.Saga.Nested
