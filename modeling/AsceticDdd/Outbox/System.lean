import AsceticDdd.Concurrency.Interleaving
import AsceticDdd.Outbox.Migrate
import AsceticDdd.Outbox.Move

/-!
# The outbox as a system of sessions

Producers, dispatchers, reclamation passes, moves and the making of the ring, each in a session
of the server, interleaved statement by statement. A session may stop and roll back between any
two statements, and a transaction may draw its id at any of them.
-/

namespace AsceticDdd.Outbox

open Postgres Interleaving

/-- A producer between two statements, or within one. -/
inductive Producing
  | ready
  | inserting (message : Message) (createdAt : String) (position : Int)
  | preparing
  | moving (selection : Selection) (moving : Moving)

/-- What a session is at. `landings` are the transactions the rewinds of this one landed on. -/
inductive Process
  | idle
  | elsewhere
  | producer (landings : List Nat) (producing : Producing)
  | dispatcher (selection : Selection) (limit : Nat) (dispatching : Dispatching)
  | reclaimer (reclaiming : Reclaiming)
  | migrator (migrating : Migrating)

inductive Act
  | begin
  | beginElsewhere
  | assign
  | publish (message : Message) (createdAt : String)
  | next
  | prepare
  | leave
  | resolve (xid : Nat) (commits : Bool)
  | setPosition (selection : Selection) (move : Move)
  | dispatch (selection : Selection) (size : Nat)
  | take (slot : Option Nat)
  | reclaim
  | stop
  | migrate
  | commit
  | rollback

/-- Where a process's transaction draws its id; none outside one. -/
def Process.seat : Process → Option Seat
  | .idle | .migrator (.fixed _) => none
  | .elsewhere => some .elsewhere
  | _ => some .session

/-- Whether the session holds nothing a prepared transaction would keep. -/
def Database.holdsNothing (d : Database) (s : Nat) : Bool :=
  decide (d.reclamationKey.exclusive ≠ some s) && decide (s ∉ d.reclamationKey.shared) &&
    d.keys.all fun key => (d.cells key).lock ≠ some s

namespace PgOutbox

variable (o : PgOutbox) (d : Database) (s : Nat)

def start : Act → Option (Database × Process)
  | .begin => some (d, .producer [] .ready)
  | .beginElsewhere => some (d, .elsewhere)
  | .dispatch selection size => some (d, .dispatcher selection (max size 1) (.begun false))
  | .reclaim => some (d, .reclaimer .begun)
  | .migrate => some (d, .migrator .begun)
  | .resolve xid commits =>
    (d.transactions.resolve xid commits).map fun t => ({ d with transactions := t }, .idle)
  | _ => none

def produce (landings : List Nat) : Producing → Act → Option (Database × Process)
  | .ready, .publish message createdAt => (d.draw s).map fun r =>
      (r.1, .producer landings (.inserting message createdAt r.2))
  | .inserting message createdAt position, .next =>
    (d.insert o s message createdAt position).map fun d => (d, .producer landings .ready)
  | .ready, .setPosition selection move => some (d, .producer landings (.moving selection
      (.holding (d.reclamationKey.exclusive = some s) move d.metaRow.intactFrom)))
  | .moving _ moving, .stop =>
    (stopPosition d s moving).map fun d => (d, .producer landings .ready)
  | .moving selection moving, .next => (o.setPosition d s selection moving).map fun r =>
      (r.1, .producer (moving.landings r.2 landings) (r.2.elim .ready (.moving selection)))
  | .ready, .commit => some (d.finish s true, .idle)
  | .ready, .prepare =>
    if d.holdsNothing s then
      (d.transactions.prepare s).map fun t =>
        ({ d with transactions := t }, .producer landings .preparing)
    else none
  | .preparing, .leave => (d.transactions.leave s).map fun t => ({ d with transactions := t }, .idle)
  | _, _ => none

/-- What a pass commits, and what the making of the ring does. -/
def commit : Process → Option (Database × Process)
  | .elsewhere => some (d.finish s true, .idle)
  | .dispatcher _ _ .done => some (d.finish s true, .idle)
  | .reclaimer .done => some (d.finish s true, .idle)
  | .reclaimer (.emptied c goneBelow intactFrom) =>
    some (o.emptied (d.finish s true) c goneBelow intactFrom, .idle)
  | .migrator .made => some (d.finish s true, .idle)
  | .migrator (.recorded bound goneBelow intactFrom) =>
    some ({ d.finish s true with
      metaRow := { d.metaRow with goneBelow := some goneBelow, intactFrom := some intactFrom }
      bounds := bound :: d.bounds }, .migrator (.fixed bound))
  | .migrator (.copied _ rows) =>
    some ({ d.finish s true with table := rows, ringMade := true }, .idle)
  | _ => none

/-- A session's step. -/
def step : Process → Act → Option (Database × Process)
  | .idle, act => start d act
  | process, .assign => do
    let seat ← process.seat
    let transactions ← d.transactions.assign s seat
    return ({ d with transactions }, process)
  | .migrator (.fixed _), .rollback => some (d, .idle)
  | _, .rollback => some (d.finish s false, .idle)
  | .producer landings producing, act => o.produce d s landings producing act
  | .dispatcher selection limit (.looked again look), .take slot =>
    (o.take d s selection again look slot).map fun r => (r.1, .dispatcher selection limit r.2)
  | .dispatcher selection limit dispatching, .next =>
    (o.dispatch d s selection limit dispatching).map fun r =>
      (r.1, .dispatcher selection limit r.2)
  | .reclaimer (.passed _), .stop => some (d, .reclaimer .done)
  | .reclaimer reclaiming, .next =>
    (o.pass d s reclaiming).map fun r => (r.1, .reclaimer r.2)
  | .migrator migrating, .next =>
    (o.migrate d s migrating).map fun r => (r.1, .migrator r.2)
  | process, .commit => o.commit d s process
  | _, _ => none

def program : Program Database Nat Process Act where
  step d s process act := o.step d s process act

end PgOutbox

/-- A step by what it is of. -/
inductive Step (o : PgOutbox) (s : Nat) (d : Database) : Process → Act → Database → Process → Prop
  | start {a : Act} {d' : Database} {p : Process} (h : PgOutbox.start d a = some (d', p)) :
      Step o s d .idle a d' p
  | assign {p : Process} {seat : Seat} {t : Transactions} (hseat : p.seat = some seat)
      (h : d.transactions.assign s seat = some t) : Step o s d p .assign { d with transactions := t } p
  | release {bound : Nat} : Step o s d (.migrator (.fixed bound)) .rollback d .idle
  | rollback {p : Process} (hp : p.seat.isSome) : Step o s d p .rollback (d.finish s false) .idle
  | produce {landings : List Nat} {producing : Producing} {a : Act} {d' : Database} {p : Process}
      (h : o.produce d s landings producing a = some (d', p)) :
      Step o s d (.producer landings producing) a d' p
  | take {selection : Selection} {limit : Nat} {again : Bool} {look : Look} {slot : Option Nat}
      {d' : Database} {next : Dispatching} (h : o.take d s selection again look slot = some (d', next)) :
      Step o s d (.dispatcher selection limit (.looked again look)) (.take slot) d'
        (.dispatcher selection limit next)
  | dispatch {selection : Selection} {limit : Nat} {p next : Dispatching} {d' : Database}
      (h : o.dispatch d s selection limit p = some (d', next)) :
      Step o s d (.dispatcher selection limit p) .next d' (.dispatcher selection limit next)
  | stop {c : Candidate} : Step o s d (.reclaimer (.passed c)) .stop d (.reclaimer .done)
  | pass {p next : Reclaiming} {d' : Database} (h : o.pass d s p = some (d', next)) :
      Step o s d (.reclaimer p) .next d' (.reclaimer next)
  | migrate {p next : Migrating} {d' : Database} (h : o.migrate d s p = some (d', next)) :
      Step o s d (.migrator p) .next d' (.migrator next)
  | commit {p next : Process} {d' : Database} (h : o.commit d s p = some (d', next)) :
      Step o s d p .commit d' next

theorem PgOutbox.step_cases {o : PgOutbox} {d d' : Database} {s : Nat} {p next : Process} {a : Act}
    (h : o.step d s p a = some (d', next)) : Step o s d p a d' next := by
  unfold PgOutbox.step at h
  split at h
  · exact .start h
  · obtain ⟨seat, hseat, h⟩ := Option.bind_eq_some_iff.mp h
    obtain ⟨t, ht, h⟩ := Option.bind_eq_some_iff.mp h
    cases h
    exact .assign hseat ht
  · cases h
    exact .release
  · rename_i hidle hfixed
    cases h
    refine .rollback ?_
    cases p with
    | idle => exact absurd rfl hidle
    | migrator m =>
      cases m with
      | fixed bound => exact absurd rfl (hfixed bound)
      | _ => rfl
    | _ => rfl
  · exact .produce h
  · obtain ⟨⟨d₁, next⟩, htake, heq⟩ := Option.map_eq_some_iff.mp h
    cases heq
    exact .take htake
  · obtain ⟨⟨d₁, next⟩, hdispatch, heq⟩ := Option.map_eq_some_iff.mp h
    cases heq
    exact .dispatch hdispatch
  · cases h
    exact .stop
  · obtain ⟨⟨d₁, next⟩, hpass, heq⟩ := Option.map_eq_some_iff.mp h
    cases heq
    exact .pass hpass
  · obtain ⟨⟨d₁, next⟩, hmigrate, heq⟩ := Option.map_eq_some_iff.mp h
    cases heq
    exact .migrate hmigrate
  · exact .commit h
  · cases h

abbrev World := Interleaving.World Database Nat Process

end AsceticDdd.Outbox
