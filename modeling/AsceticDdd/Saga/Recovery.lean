import AsceticDdd.Saga.ActivityHost
import Mathlib.Data.List.Induction
import Mathlib.Data.List.Nodup
import Mathlib.Logic.Function.Iterate
import Mathlib.Order.Basic

/-!
# A saga recovers host by host

The slip's queue decides where a success goes and its stack where a failure does. While the stack
unwinds the address on the way is that of its top, and nothing looks at the queue again.
-/

namespace AsceticDdd.Saga

variable {T A R : Type} {create : T → Activity T A R} {hosts : List (ActivityHost T)}

namespace ActivityHost

/-- No two of the hosts' addresses are the same. -/
def Distinct (create : T → Activity T A R) (hosts : List (ActivityHost T)) : Prop :=
  (hosts.flatMap (addresses create)).Nodup

instance : Decidable (Distinct create hosts) := inferInstanceAs (Decidable (List.Nodup _))

variable {host other : ActivityHost T} {j : Journey T A R}

theorem acceptMessage_compensation :
    host.acceptMessage create (create host.activityType).compensationQueueAddress j =
      some (processBackwardMessage create j) :=
  if_pos rfl

theorem acceptMessage_work
    (h : (create host.activityType).compensationQueueAddress ≠
      (create host.activityType).workItemQueueAddress) :
    host.acceptMessage create (create host.activityType).workItemQueueAddress j =
      some (processForwardMessage create j) := by
  rw [acceptMessage, if_neg h, if_pos rfl]

theorem acceptMessage_other {uri : String} (h : uri ∉ other.addresses create) :
    other.acceptMessage create uri j = none := by
  simp only [addresses, List.mem_cons, List.not_mem_nil, or_false, not_or] at h
  rw [acceptMessage, if_neg (Ne.symm h.2), if_neg (Ne.symm h.1)]

/-- A message for one of the hosts is given to that host and to no other. -/
theorem findSome?_acceptMessage (hd : Distinct create hosts) (hmem : host ∈ hosts) {uri : String}
    (huri : uri ∈ host.addresses create) :
    (hosts.findSome? fun h => h.acceptMessage create uri j) = host.acceptMessage create uri j := by
  induction hosts with
  | nil => cases hmem
  | cons first rest ih =>
    obtain ⟨-, hrest, hapart⟩ := List.nodup_append.mp hd
    cases hmem with
    | head =>
      simp only [addresses, List.mem_cons, List.not_mem_nil, or_false] at huri
      have haccepts : ∃ answer, host.acceptMessage create uri j = some answer := by
        simp only [acceptMessage]
        split
        · exact ⟨_, rfl⟩
        · rename_i hne
          obtain rfl | rfl := huri
          · exact ⟨_, if_pos rfl⟩
          · exact absurd rfl hne
      obtain ⟨answer, haccepts⟩ := haccepts
      simp only [List.findSome?_cons, haccepts]
    | tail _ hmem =>
      have hfar : uri ∉ first.addresses create := by
        intro hfirst
        exact hapart uri hfirst uri (List.mem_flatMap.mpr ⟨host, hmem, huri⟩) rfl
      simp only [List.findSome?_cons, acceptMessage_other hfar]
      exact ih hrest hmem

theorem Distinct.ne (hd : Distinct create hosts) (hmem : host ∈ hosts) :
    (create host.activityType).compensationQueueAddress ≠
      (create host.activityType).workItemQueueAddress := by
  obtain ⟨hnodup, -⟩ := List.nodup_flatMap.mp hd
  have hpair := hnodup host hmem
  simp only [addresses, List.nodup_cons, List.mem_cons, List.not_mem_nil, or_false] at hpair
  exact Ne.symm hpair.1

end ActivityHost

namespace Exchange

open Journey

/-- The works that went well one after the other, each from the past the one before it left. -/
inductive Worked (create : T → Activity T A R) :
    List (Event (WorkItem T A) (WorkLog T R)) → List (WorkItem T A) → List (WorkLog T R) → Prop
  | nil (past) : Worked create past [] []
  | cons {past item items log logs} :
      (create item.activityType).doWork item past = .ok (some log) →
      Worked create (past ++ [.worked item]) items logs →
      Worked create past (item :: items) (log :: logs)

/-- Every compensation answers that the backward path goes on. It may add work items to the slip;
the completed work logs are the slip's own. -/
def Compensates (create : T → Activity T A R) : Prop :=
  ∀ t log slip past, ((create t).compensate log slip past).1 = .ok true ∧
    ((create t).compensate log slip past).2.completedWorkLogs = slip.completedWorkLogs

/-- There is a host for every activity type of the slip and of the logs its activities answer. -/
structure Hosted (create : T → Activity T A R) (hosts : List (ActivityHost T))
    (items : List (WorkItem T A)) : Prop where
  item : ∀ item ∈ items, ⟨item.activityType⟩ ∈ hosts
  log : ∀ item ∈ items, ∀ past log,
    (create item.activityType).doWork item past = .ok (some log) → ⟨log.activityType⟩ ∈ hosts

variable {past : List (Event (WorkItem T A) (WorkLog T R))} {item : WorkItem T A}
  {items : List (WorkItem T A)} {log : WorkLog T R} {logs : List (WorkLog T R)}

theorem step_of_ended {x : Exchange T A R} (h : x.uri = none) : step create hosts x = x := by
  rw [step, h]

theorem iterate_of_ended {x : Exchange T A R} (h : x.uri = none) (n : Nat) :
    (step create hosts)^[n] x = x :=
  Function.iterate_fixed (step_of_ended h) n

/-- How the exchange goes on from what a host answers. -/
def sentOn : Except SagaError (Option String) × Journey T A R → Exchange T A R
  | (.ok sent, j) => ⟨sent, j, none⟩
  | (.error error, j) => ⟨none, j, some error⟩

theorem step_of_accepts {host : ActivityHost T} {uri : String} {j : Journey T A R}
    {answer : Except SagaError (Option String) × Journey T A R}
    (hd : ActivityHost.Distinct create hosts) (hmem : host ∈ hosts) (huri : uri ∈ host.addresses create)
    (haccepts : host.acceptMessage create uri j = some answer) :
    step create hosts ⟨some uri, j, none⟩ = sentOn answer := by
  simp only [step, ActivityHost.findSome?_acceptMessage hd hmem huri, haccepts]
  rcases answer with ⟨_ | _, _⟩ <;> rfl

theorem step_compensation (logs : List (WorkLog T R)) (items : List (WorkItem T A))
    (past : List (Event (WorkItem T A) (WorkLog T R))) (hd : ActivityHost.Distinct create hosts) (hc : Compensates create)
    (hhost : ⟨log.activityType⟩ ∈ hosts) :
    ∃ later, step create hosts
        ⟨some (create log.activityType).compensationQueueAddress, ⟨⟨logs ++ [log], items⟩, past⟩, none⟩ =
      ⟨logs.getLast?.map fun top => (create top.activityType).compensationQueueAddress,
        ⟨⟨logs, later⟩, past ++ [.compensated log]⟩, none⟩ := by
  obtain ⟨hanswer, hstack⟩ := hc log.activityType log ⟨logs, items⟩ past
  obtain ⟨later, hundo⟩ : ∃ later, undoLast create ⟨⟨logs ++ [log], items⟩, past⟩ =
      (.ok true, ⟨⟨logs, later⟩, past ++ [.compensated log]⟩) := by
    simp only [undoLast, List.getLast?_append, List.getLast?_singleton, Option.some_or,
      List.dropLast_concat, hanswer]
    exact ⟨_, congrArg (fun stack => (Except.ok true, Journey.mk (RoutingSlip.mk stack _) _)) hstack⟩
  have hstep := step_of_accepts (j := ⟨⟨logs ++ [log], items⟩, past⟩) hd hhost
    (List.mem_cons_of_mem _ List.mem_cons_self) ActivityHost.acceptMessage_compensation
  have hlogged : (logs ++ [log]).isEmpty = false := by simp
  refine ⟨later, hstep.trans ?_⟩
  simp only [ActivityHost.processBackwardMessage, RoutingSlip.isInProgress, hundo, compensationUri,
    hlogged, Bool.not_false, if_true, sentOn]

/-- The logs on the stack are compensated from its top down, each once. -/
theorem iterate_compensation (items : List (WorkItem T A))
    (past : List (Event (WorkItem T A) (WorkLog T R))) (hd : ActivityHost.Distinct create hosts) (hc : Compensates create)
    (hhosts : ∀ log ∈ logs, ⟨log.activityType⟩ ∈ hosts) :
    ∃ later, (step create hosts)^[logs.length]
        ⟨logs.getLast?.map fun top => (create top.activityType).compensationQueueAddress,
          ⟨⟨logs, items⟩, past⟩, none⟩ =
      ⟨none, ⟨⟨[], later⟩, past ++ logs.reverse.map .compensated⟩, none⟩ := by
  induction logs using List.reverseRec generalizing items past with
  | nil => exact ⟨items, by simp⟩
  | append_singleton rest log ih =>
    obtain ⟨between, hstep⟩ := step_compensation rest items past hd hc
      (hhosts log (List.mem_append_right _ List.mem_cons_self))
    obtain ⟨later, hrest⟩ := ih between (past ++ [.compensated log])
      fun other hother => hhosts other (List.mem_append_left _ hother)
    refine ⟨later, ?_⟩
    simp only [List.length_append, List.length_singleton, Function.iterate_succ_apply,
      List.getLast?_append, List.getLast?_singleton, Option.some_or, Option.map_some]
    rw [hstep, hrest]
    simp

theorem step_work (hd : ActivityHost.Distinct create hosts) (hhost : ⟨item.activityType⟩ ∈ hosts)
    (j : Journey T A R) :
    step create hosts ⟨some (create item.activityType).workItemQueueAddress, j, none⟩ =
      sentOn (ActivityHost.processForwardMessage create j) :=
  step_of_accepts hd hhost List.mem_cons_self
    (ActivityHost.acceptMessage_work (ActivityHost.Distinct.ne hd hhost))

theorem step_done (hd : ActivityHost.Distinct create hosts) (hhost : ⟨item.activityType⟩ ∈ hosts)
    (hdone : (create item.activityType).doWork item past = .ok (some log)) :
    step create hosts
        ⟨some (create item.activityType).workItemQueueAddress, ⟨⟨logs, item :: items⟩, past⟩, none⟩ =
      ⟨items.head?.map fun next => (create next.activityType).workItemQueueAddress,
        ⟨⟨logs ++ [log], items⟩, past ++ [.worked item]⟩, none⟩ := by
  rw [step_work hd hhost]
  simp only [ActivityHost.processForwardMessage, RoutingSlip.isCompleted, List.isEmpty_cons,
    processNext_of_done hdone, Bool.false_eq_true, if_false, progressUri, sentOn]

theorem step_fails (hd : ActivityHost.Distinct create hosts) (hhost : ⟨item.activityType⟩ ∈ hosts)
    (hfails : Fails create item past) :
    step create hosts
        ⟨some (create item.activityType).workItemQueueAddress, ⟨⟨logs, item :: items⟩, past⟩, none⟩ =
      ⟨logs.getLast?.map fun top => (create top.activityType).compensationQueueAddress,
        ⟨⟨logs, items⟩, past ++ [.worked item]⟩, none⟩ := by
  rw [step_work hd hhost]
  simp only [ActivityHost.processForwardMessage, RoutingSlip.isCompleted, List.isEmpty_cons,
    processNext_of_fails hfails, Bool.false_eq_true, if_false, compensationUri, sentOn]

/-- How an exchange of the items ends, from a stack and a past: all were worked, or those before
the first that failed, and then the stack and their logs were compensated from the top. -/
def Recovered (create : T → Activity T A R) (stack : List (WorkLog T R))
    (past : List (Event (WorkItem T A) (WorkLog T R))) (items : List (WorkItem T A))
    (ended : List (Event (WorkItem T A) (WorkLog T R))) : Prop :=
  ∃ done rest logs, items = done ++ rest ∧ Worked create past done logs ∧
    (rest = [] ∧ ended = past ++ done.map .worked ∨
      ∃ failed later, rest = failed :: later ∧ Fails create failed (past ++ done.map .worked) ∧
        ended = past ++ (done ++ [failed]).map .worked ++ (stack ++ logs).reverse.map .compensated)

theorem Recovered.worked {stack : List (WorkLog T R)} {ended : List (Event (WorkItem T A) (WorkLog T R))}
    (hdone : (create item.activityType).doWork item past = .ok (some log))
    (h : Recovered create (stack ++ [log]) (past ++ [.worked item]) items ended) :
    Recovered create stack past (item :: items) ended := by
  obtain ⟨done, rest, logs, rfl, hworked, hend⟩ := h
  refine ⟨item :: done, rest, log :: logs, rfl, .cons hdone hworked, ?_⟩
  obtain ⟨rfl, rfl⟩ | ⟨failed, later, rfl, hfails, rfl⟩ := hend
  · exact .inl ⟨rfl, by simp⟩
  · exact .inr ⟨failed, later, rfl, by simpa using hfails, by simp⟩

/-- The stack and the queue of a slip decide the rest of its exchange. -/
theorem iterate_work (logs : List (WorkLog T R))
    (past : List (Event (WorkItem T A) (WorkLog T R))) (hd : ActivityHost.Distinct create hosts) (hc : Compensates create)
    (hhosts : Hosted create hosts items) (hlogs : ∀ log ∈ logs, ⟨log.activityType⟩ ∈ hosts) :
    ∃ n x, n ≤ 2 * items.length + logs.length ∧
      (step create hosts)^[n]
        ⟨items.head?.map fun next => (create next.activityType).workItemQueueAddress,
          ⟨⟨logs, items⟩, past⟩, none⟩ = x ∧
      x.uri = none ∧ x.failure = none ∧ Recovered create logs past items x.journey.past := by
  induction items generalizing logs past with
  | nil => exact ⟨0, _, Nat.zero_le _, rfl, rfl, rfl, [], [], [], rfl, .nil _, .inl ⟨rfl, by simp⟩⟩
  | cons item items ih =>
    have hhost := hhosts.item item List.mem_cons_self
    obtain hfails | ⟨log, hdone⟩ := fails_or_done create item past
    · obtain ⟨later, hback⟩ := iterate_compensation items (past ++ [.worked item]) hd hc hlogs
      refine ⟨logs.length + 1, _, by simp only [List.length_cons]; omega, rfl, ?_⟩
      simp only [List.head?_cons, Option.map_some, Function.iterate_succ_apply, step_fails hd hhost hfails,
        hback]
      refine ⟨trivial, trivial, [], item :: items, [], rfl, .nil _, .inr ⟨item, items, rfl, ?_, ?_⟩⟩
      · simpa using hfails
      · simp
    · have hlog := hhosts.log item List.mem_cons_self past log hdone
      have hrest : Hosted create hosts items :=
        ⟨fun next hnext => hhosts.item next (List.mem_cons_of_mem _ hnext),
          fun next hnext => hhosts.log next (List.mem_cons_of_mem _ hnext)⟩
      have hstack : ∀ top ∈ logs ++ [log], ⟨top.activityType⟩ ∈ hosts := by
        intro top htop
        obtain htop | htop := List.mem_append.mp htop
        · exact hlogs top htop
        · rw [List.mem_singleton.mp htop]
          exact hlog
      obtain ⟨n, x, hn, hx, huri, hfailure, hrecovered⟩ :=
        ih (logs ++ [log]) (past ++ [.worked item]) hrest hstack
      refine ⟨n + 1, x, ?_, ?_, huri, hfailure, hrecovered.worked hdone⟩
      · simp only [List.length_append, List.length_cons, List.length_nil] at hn ⊢
        omega
      · simp only [List.head?_cons, Option.map_some, Function.iterate_succ_apply, step_done hd hhost hdone,
          hx]

/-- The items are worked in order up to the first that fails, each once; then the logs of those
before it are compensated, each once and the last first; and the exchange ends in every case. -/
theorem ends_recovered (hd : ActivityHost.Distinct create hosts) (hc : Compensates create)
    (hhosts : Hosted create hosts items) :
    ∃ x, (∀ n, 2 * items.length ≤ n → (step create hosts)^[n] (start create (.new items)) = x) ∧
      x.uri = none ∧ x.failure = none ∧
      ∃ done rest logs, items = done ++ rest ∧ Worked create [] done logs ∧
        (rest = [] ∧ x.journey.past = done.map .worked ∨
          ∃ failed later, rest = failed :: later ∧ Fails create failed (done.map .worked) ∧
            x.journey.past = (done ++ [failed]).map .worked ++ logs.reverse.map .compensated) := by
  obtain ⟨n, x, hn, hx, huri, hfailure, done, rest, logs, hitems, hworked, hend⟩ :=
    iterate_work [] [] hd hc hhosts (fun _ h => by cases h)
  refine ⟨x, fun m hm => ?_, huri, hfailure, done, rest, logs, hitems, hworked, by simpa using hend⟩
  obtain ⟨k, rfl⟩ := Nat.exists_eq_add_of_le (Nat.le_trans hn hm)
  rw [Nat.add_comm, Function.iterate_add_apply]
  exact (congrArg _ hx).trans (iterate_of_ended huri k)

/-- The travel booking, on a day when no car is free. -/
inductive Travel
  | hotel | car | flight
deriving DecidableEq

def Travel.activities : Travel → Activity Travel Unit Unit
  | .hotel => ⟨fun item _ => .ok (some ⟨item.activityType, ()⟩), fun _ slip _ => (.ok true, slip),
      "sb://./hotelReservations", "sb://./hotelCancellations", some "ReserveHotelActivity"⟩
  | .car => ⟨fun _ _ => .ok none, fun _ slip _ => (.ok true, slip),
      "sb://./carReservations", "sb://./carCancellations", some "ReserveCarActivity"⟩
  | .flight => ⟨fun item _ => .ok (some ⟨item.activityType, ()⟩), fun _ slip _ => (.ok true, slip),
      "sb://./flightReservations", "sb://./flightCancellations", some "ReserveFlightActivity"⟩

theorem ends_recovered_travel :
    ∃ x : Exchange Travel Unit Unit,
      (∀ n, 6 ≤ n → (step Travel.activities [⟨.hotel⟩, ⟨.car⟩, ⟨.flight⟩])^[n]
        (start Travel.activities (.new [⟨.hotel, ()⟩, ⟨.car, ()⟩, ⟨.flight, ()⟩])) = x) ∧
      x.uri = none ∧
      x.journey.past = [.worked ⟨.hotel, ()⟩, .worked ⟨.car, ()⟩, .compensated ⟨.hotel, ()⟩] := by
  have hall : ∀ t : Travel, ⟨t⟩ ∈ [ActivityHost.mk Travel.hotel, ⟨.car⟩, ⟨.flight⟩] := by
    intro t
    cases t <;> decide
  have hhosts : Hosted Travel.activities [⟨.hotel⟩, ⟨.car⟩, ⟨.flight⟩]
      [⟨.hotel, ()⟩, ⟨.car, ()⟩, ⟨.flight, ()⟩] :=
    ⟨fun _ _ => hall _, fun _ _ _ _ _ => hall _⟩
  obtain ⟨x, hends, huri, -⟩ := ends_recovered (by decide : ActivityHost.Distinct Travel.activities _)
    (fun t _ _ _ => by cases t <;> exact ⟨rfl, rfl⟩) hhosts
  refine ⟨x, hends, huri, ?_⟩
  rw [← hends 6 (Nat.le_refl _)]
  rfl

end Exchange

end AsceticDdd.Saga
