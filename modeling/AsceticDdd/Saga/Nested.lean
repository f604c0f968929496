import AsceticDdd.Concurrency.Compensation
import AsceticDdd.Saga.RoutingSlip

/-!
# Parallel and Fallback activities

Their work items hold slips, which are built new and belong to no other item, so a log holds its
own slips in turn. What a call can do is a relation: a leaf may answer anything, and the branches
of a Parallel run side by side.
-/

namespace AsceticDdd.Saga.Nested

open Compensation

/-- A work item of a leaf, of a Parallel activity or of a Fallback activity, the latter two with
the items of the slips in their arguments. -/
inductive Item (ν : Type)
  | leaf (name : ν)
  | parallel (branches : List (List (Item ν)))
  | fallback (alternatives : List (List (Item ν)))

inductive Log (ν : Type)
  | leaf (name : ν)
  | parallel (branches : List (RoutingSlip (Item ν) (Log ν)))
  | fallback (succeeded : RoutingSlip (Item ν) (Log ν))

abbrev Slip (ν : Type) := RoutingSlip (Item ν) (Log ν)

inductive Call (ν : Type)
  | doWork (item : Item ν)
  | compensate (log : Log ν) (slip : Slip ν)
  | processNext (slip : Slip ν)
  | undoLast (slip : Slip ν)
  /-- `execute_branch`, and `execute_alternative`, which is the same. -/
  | execute (slip : Slip ν)
  /-- `undo_last` while the slip is in progress. -/
  | unwind (slip : Slip ν)
  | executeEach (slips : List (Slip ν))
  | compensateBranches (slips : List (Slip ν))

/-- What a call returns, with the slips as it leaves them. -/
inductive Answer (ν : Type)
  | worked (result : Except SagaError (Option (Log ν)))
  | stepped (result : Except SagaError Bool) (slip : Slip ν)
  | unwound (result : Except SagaError Unit) (slip : Slip ν)
  | executed (results : List (Except SagaError Bool)) (slips : List (Slip ν))
  | compensated (slips : List (Slip ν))

variable {ν : Type}

/-- What a call can do, when `compensates` says what the compensation of a leaf can answer. -/
inductive Runs (compensates : ν → Except SagaError Bool → Prop) :
    Call ν → List (Compensation.Event ν) → Answer ν → Prop
  | leafDone (a) : Runs compensates (.doWork (.leaf a)) [.did a] (.worked (.ok (some (.leaf a))))
  | leafNone (a) : Runs compensates (.doWork (.leaf a)) [] (.worked (.ok none))
  | leafError (a error) : Runs compensates (.doWork (.leaf a)) [] (.worked (.error error))
  | parallelDone {branches t results slips} :
      Runs compensates (.executeEach (branches.map .new)) t (.executed results slips) →
      (∀ result ∈ results, result = .ok true) →
      Runs compensates (.doWork (.parallel branches)) t (.worked (.ok (some (.parallel slips))))
  | parallelFailed {branches t results slips u slips'} :
      Runs compensates (.executeEach (branches.map .new)) t (.executed results slips) →
      (∃ result ∈ results, result ≠ .ok true) →
      Runs compensates (.compensateBranches slips) u (.compensated slips') →
      Runs compensates (.doWork (.parallel branches)) (t ++ u) (.worked (.ok none))
  | fallbackNone : Runs compensates (.doWork (.fallback [])) [] (.worked (.ok none))
  | fallbackDone {alternative rest t slip} :
      Runs compensates (.execute (.new alternative)) t (.stepped (.ok true) slip) →
      Runs compensates (.doWork (.fallback (alternative :: rest))) t
        (.worked (.ok (some (.fallback slip))))
  | fallbackNext {alternative rest t slip u result} :
      Runs compensates (.execute (.new alternative)) t (.stepped (.ok false) slip) →
      Runs compensates (.doWork (.fallback rest)) u (.worked result) →
      Runs compensates (.doWork (.fallback (alternative :: rest))) (t ++ u) (.worked result)
  | fallbackError {alternative rest t error slip} :
      Runs compensates (.execute (.new alternative)) t (.stepped (.error error) slip) →
      Runs compensates (.doWork (.fallback (alternative :: rest))) t (.worked (.error error))
  -- a leaf's compensation may change the pending work items of the slip it is given
  | leafCompensated {a result} {slip : Slip ν} {items : List (Item ν)} :
      compensates a result →
      Runs compensates (.compensate (.leaf a) slip) [.undid a]
        (.stepped result { slip with nextWorkItems := items })
  | parallelCompensated {slips slip t slips'} :
      Runs compensates (.compensateBranches slips) t (.compensated slips') →
      Runs compensates (.compensate (.parallel slips) slip) t (.stepped (.ok true) slip)
  | fallbackCompensated {succeeded slip t slip'} :
      Runs compensates (.unwind succeeded) t (.unwound (.ok ()) slip') →
      Runs compensates (.compensate (.fallback succeeded) slip) t (.stepped (.ok true) slip)
  | fallbackNotCompensated {succeeded slip t error slip'} :
      Runs compensates (.unwind succeeded) t (.unwound (.error error) slip') →
      Runs compensates (.compensate (.fallback succeeded) slip) t (.stepped (.error error) slip)
  | nothingToProcess {logs} :
      Runs compensates (.processNext ⟨logs, []⟩) []
        (.stepped (.error (.invalidOperation "No more work items to process")) ⟨logs, []⟩)
  | processed {logs item items t log} :
      Runs compensates (.doWork item) t (.worked (.ok (some log))) →
      Runs compensates (.processNext ⟨logs, item :: items⟩) t (.stepped (.ok true) ⟨logs ++ [log], items⟩)
  | notProcessed {logs item items t result} :
      Runs compensates (.doWork item) t (.worked result) → (∀ log, result ≠ .ok (some log)) →
      Runs compensates (.processNext ⟨logs, item :: items⟩) t (.stepped (.ok false) ⟨logs, items⟩)
  | nothingToUndo {items} :
      Runs compensates (.undoLast ⟨[], items⟩) []
        (.stepped (.error (.invalidOperation "No work to undo")) ⟨[], items⟩)
  | undone {logs log items t result slip} :
      Runs compensates (.compensate log ⟨logs, items⟩) t (.stepped result slip) →
      Runs compensates (.undoLast ⟨logs ++ [log], items⟩) t (.stepped result slip)
  | executeDone {logs} :
      Runs compensates (.execute ⟨logs, []⟩) [] (.stepped (.ok true) ⟨logs, []⟩)
  | executeNext {slip t slip' u answer} : slip.nextWorkItems ≠ [] →
      Runs compensates (.processNext slip) t (.stepped (.ok true) slip') →
      Runs compensates (.execute slip') u answer → Runs compensates (.execute slip) (t ++ u) answer
  | executeFailed {slip t slip' u slip''} : slip.nextWorkItems ≠ [] →
      Runs compensates (.processNext slip) t (.stepped (.ok false) slip') →
      Runs compensates (.unwind slip') u (.unwound (.ok ()) slip'') →
      Runs compensates (.execute slip) (t ++ u) (.stepped (.ok false) slip'')
  | executeNotUnwound {slip t slip' u error slip''} : slip.nextWorkItems ≠ [] →
      Runs compensates (.processNext slip) t (.stepped (.ok false) slip') →
      Runs compensates (.unwind slip') u (.unwound (.error error) slip'') →
      Runs compensates (.execute slip) (t ++ u) (.stepped (.error error) slip'')
  | executeError {slip t error slip'} : slip.nextWorkItems ≠ [] →
      Runs compensates (.processNext slip) t (.stepped (.error error) slip') →
      Runs compensates (.execute slip) t (.stepped (.error error) slip')
  | unwindDone {items} :
      Runs compensates (.unwind ⟨[], items⟩) [] (.unwound (.ok ()) ⟨[], items⟩)
  -- whether the compensation goes on is not looked at
  | unwindNext {slip t goesOn slip' u answer} : slip.completedWorkLogs ≠ [] →
      Runs compensates (.undoLast slip) t (.stepped (.ok goesOn) slip') →
      Runs compensates (.unwind slip') u answer → Runs compensates (.unwind slip) (t ++ u) answer
  | unwindError {slip t error slip'} : slip.completedWorkLogs ≠ [] →
      Runs compensates (.undoLast slip) t (.stepped (.error error) slip') →
      Runs compensates (.unwind slip) t (.unwound (.error error) slip')
  | executeEachNil : Runs compensates (.executeEach []) [] (.executed [] [])
  | executeEachCons {slip slips t u w result results slip' slips'} :
      Runs compensates (.execute slip) t (.stepped result slip') →
      Runs compensates (.executeEach slips) u (.executed results slips') → Shuffle t u w →
      Runs compensates (.executeEach (slip :: slips)) w (.executed (result :: results) (slip' :: slips'))
  | compensateNil : Runs compensates (.compensateBranches []) [] (.compensated [])
  -- a branch that cannot be compensated does not keep the others from being compensated
  | compensateCons {slip slips t u w result slip' slips'} :
      Runs compensates (.unwind slip) t (.unwound result slip') →
      Runs compensates (.compensateBranches slips) u (.compensated slips') → Shuffle t u w →
      Runs compensates (.compensateBranches (slip :: slips)) w (.compensated (slip' :: slips'))

mutual

/-- The leaves below an item: those of one slip in series, those of several side by side. -/
def Item.region : Item ν → Region ν
  | .leaf a => .once a
  | .parallel branches => regionEach branches
  | .fallback alternatives => regionEach alternatives

def regionItems : List (Item ν) → Region ν
  | [] => .empty
  | item :: items => item.region.seq (regionItems items)

def regionEach : List (List (Item ν)) → Region ν
  | [] => .empty
  | items :: rest => (regionItems items).par (regionEach rest)

end

mutual

/-- The leaves whose logs a log stands for. -/
def Log.region : Log ν → Region ν
  | .leaf a => .done a
  | .parallel slips => regionSlips slips
  | .fallback slip => regionSlip slip

def regionSlip : RoutingSlip (Item ν) (Log ν) → Region ν
  | ⟨logs, _⟩ => regionLogs logs

def regionLogs : List (Log ν) → Region ν
  | [] => .empty
  | log :: logs => log.region.seq (regionLogs logs)

def regionSlips : List (RoutingSlip (Item ν) (Log ν)) → Region ν
  | [] => .empty
  | slip :: slips => (regionSlip slip).par (regionSlips slips)

end

end AsceticDdd.Saga.Nested
