import AsceticDdd.Concurrency.Interleaving
import AsceticDdd.Inbox.Operate

/-!
# The inbox as a system of sessions

Publishers, dispatchers, operators and sweeps, each in a session of the server and a transaction of its
own, interleaved step by step. A session may stop and roll back between any two steps, and time passes
at any.
-/

namespace AsceticDdd.Inbox

open Interleaving

inductive Process
  | idle
  | publisher (p : Publishing)
  | expirer (begunAt maxWait : Nat) (found : List Row)
  | dispatcher (begunAt : Nat) (p : Dispatching)
  | resolver (identity : CausalDependency) (p : Resolving)
  | unparker (identity : CausalDependency) (p : Unparking)
  | sweeper (channel : String) (window : Nat) (sweptTo : Option Nat) (p : Sweeping)
deriving DecidableEq

inductive Act
  | publish (message : InboxMessage)
  | dispatch
  | resolve (identity : CausalDependency)
  | unpark (identity : CausalDependency)
  | sweep (channel : String) (sweptTo : Option Nat)
  | next
  | succeed
  | fail (error : String) (permanent : Bool)
  | commit
  | crash
  | tick (time : Nat)
deriving DecidableEq

namespace PgInbox

variable (o : PgInbox) (d : Database) (s : Nat)

/-- A call begins. A dispatch first parks the rows that have waited too long, in a transaction before
its own. -/
def start : Act → Option Process
  | .publish message => some (.publisher (.begun message))
  | .dispatch =>
    match o.maxWait with
    | some maxWait => some (.expirer d.now maxWait ((d.rows s).filter (overdue maxWait d.now)))
    | none => some (.dispatcher d.now .begun)
  | .resolve identity => some (.resolver identity .begun)
  | .unpark identity => some (.unparker identity .begun)
  | .sweep channel sweptTo =>
    (o.windows.lookup channel).map fun window => .sweeper channel window sweptTo .begun
  | _ => none

def next : Process → Option (Database × Process)
  | .publisher p => (o.publish d s p).map fun r => (r.1, .publisher r.2)
  | .expirer begunAt maxWait (row :: found) =>
    some (o.expire d s begunAt maxWait row, .expirer begunAt maxWait found)
  | .dispatcher begunAt p => (o.dispatch d s begunAt p).map fun r => (r.1, .dispatcher begunAt r.2)
  | .resolver identity p => (o.resolve d s identity p).map fun r => (r.1, .resolver identity r.2)
  | .unparker identity p => (Inbox.unpark d s identity p).map fun r => (r.1, .unparker identity r.2)
  | .sweeper channel window sweptTo p => (o.forgetBatch d s channel window sweptTo p).map fun r =>
      (r.1, .sweeper channel window sweptTo r.2)
  | _ => none

end PgInbox

/-- Where a commit leads, of what may commit. -/
def Process.committed (d : Database) : Process → Option Process
  | .expirer _ _ [] => some (.dispatcher d.now .begun)
  | .publisher (.done _) | .dispatcher _ (.done _ _) | .resolver _ (.done _) | .unparker _ (.done _)
  | .sweeper _ _ _ (.done _) => some .idle
  | _ => none

namespace PgInbox

variable (o : PgInbox) (d : Database) (s : Nat)

/-- A session's step. -/
def step (p : Process) : Act → Option (Database × Process)
  | .tick time => some ({ d with now := d.now + time }, p)
  | .crash => some (d.finish s false, .idle)
  | .commit => (p.committed d).map fun next => (d.finish s true, next)
  | .next => o.next d s p
  | .succeed =>
    match p with
    | .dispatcher begunAt p => (o.succeed d s p).map fun r => (r.1, .dispatcher begunAt r.2)
    | _ => none
  | .fail error permanent =>
    match p with
    | .dispatcher begunAt p => (p.fail error permanent).map fun p => (d, .dispatcher begunAt p)
    | _ => none
  | act => if p = .idle then (o.start d s act).map fun p => (d, p) else none

/-- The steps there are: of time, of a transaction's end, of a statement, of the subscriber, of a call. -/
inductive Step : Process → Act → Database → Process → Prop
  | tick (p : Process) (time : Nat) : Step p (.tick time) { d with now := d.now + time } p
  | crash (p : Process) : Step p .crash (d.finish s false) .idle
  | commit {p next : Process} (h : p.committed d = some next) : Step p .commit (d.finish s true) next
  | next {p p' : Process} {d' : Database} (h : o.next d s p = some (d', p')) : Step p .next d' p'
  | succeed {begunAt slot : Nat} {row : Row} :
      Step (.dispatcher begunAt (.handling slot row)) .succeed (d.record s (.effects row))
        (.dispatcher begunAt (if 1 < o.slots then .identifying slot row else .marking slot row))
  | fail {begunAt slot : Nat} {row : Row} (error : String) (permanent : Bool) :
      Step (.dispatcher begunAt (.handling slot row)) (.fail error permanent) d
        (.dispatcher begunAt (.failing slot row error permanent))
  | start {a : Act} {next : Process} (h : o.start d s a = some next) : Step .idle a d next

variable {o d s} in
theorem step_cases {p next : Process} {a : Act} {d' : Database} (h : o.step d s p a = some (d', next)) :
    o.Step d s p a d' next := by
  have hstart : (if p = .idle then (o.start d s a).map fun p => (d, p) else none) = some (d', next) →
      o.Step d s p a d' next := by
    intro h
    obtain ⟨rfl, h⟩ := Option.ite_none_right_eq_some.mp h
    obtain ⟨_, hnext, h⟩ := Option.map_eq_some_iff.mp h
    cases h
    exact .start hnext
  cases a with
  | tick time => cases h; exact .tick p time
  | crash => cases h; exact .crash p
  | commit =>
    obtain ⟨_, hcommits, h⟩ := Option.map_eq_some_iff.mp h
    cases h
    exact .commit hcommits
  | next => exact .next h
  | succeed =>
    cases p with
    | dispatcher begunAt p =>
      obtain ⟨_, hr, h⟩ := Option.map_eq_some_iff.mp h
      cases h
      cases p with
      | handling slot row => cases hr; exact .succeed
      | _ => cases hr
    | _ => cases h
  | fail error permanent =>
    cases p with
    | dispatcher begunAt p =>
      obtain ⟨_, hr, h⟩ := Option.map_eq_some_iff.mp h
      cases h
      cases p with
      | handling slot row => cases hr; exact .fail error permanent
      | _ => cases hr
    | _ => cases h
  | _ => exact hstart h

def program : Program Database Nat Process Act where
  step d s p act := o.step d s p act

end PgInbox

abbrev World := Interleaving.World Database Nat Process

end AsceticDdd.Inbox
