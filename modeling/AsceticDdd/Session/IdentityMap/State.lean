import AsceticDdd.Session.IdentityMap.Window
import Mathlib.Data.List.AList

/-!
# What the identity map knows, and how it is asked

Entities are named by their allocations. Besides the map, the domain holds some of them, and an
entity is alive while the domain or an anchored slot holds it.
-/

namespace AsceticDdd.Session.IdentityMap

inductive IsolationLevel
  | readUncommitted | readCommitted | repeatableRead | serializable
deriving DecidableEq

inductive Kind
  | entity | absence
deriving DecidableEq

/-- What a level may remember, and answer. -/
def admits : IsolationLevel → Kind → Bool
  | .readUncommitted, _ | .readCommitted, _ => false
  | .repeatableRead, .entity => true
  | .repeatableRead, .absence => false
  | .serializable, _ => true

variable {κ ε : Type}

inductive Fact (ε : Type)
  | entity (e : ε)
  | absence
deriving DecidableEq

def Fact.kind : Fact ε → Kind
  | entity _ => .entity
  | absence => .absence

inductive Lookup (ε : Type)
  | found (e : ε)
  | absent
  | unknown
deriving DecidableEq

def Lookup.isKnown : Lookup ε → Bool
  | unknown => false
  | _ => true

/-- The answer, if the policy admits its kind. -/
def Lookup.admitted (answer : Lookup ε) (admits : Kind → Bool) : Lookup ε :=
  match answer with
  | found e => if admits .entity then found e else unknown
  | absent => if admits .absence then absent else unknown
  | unknown => unknown

def Fact.recallKey : Fact ε → Lookup ε
  | entity e => .found e
  | absence => .absent

inductive Slot (ε : Type)
  | anchored (fact : Fact ε)
  | released (e : ε)
deriving DecidableEq

/-- Leaves the window, `alive` telling the entities that something else holds. -/
def Slot.release (alive : ε → Bool) : Slot ε → Option (Slot ε)
  | anchored (.entity e) => if alive e then some (released e) else none
  | anchored .absence => none
  | released e => some (released e)

def Slot.recallKey (alive : ε → Bool) : Slot ε → Option (Slot ε) × Lookup ε
  | anchored fact => (some (anchored fact), fact.recallKey)
  | released e => if alive e then (some (anchored (.entity e)), .found e) else (none, .unknown)

abbrev Slots (κ ε : Type) := AList fun _ : κ => Slot ε

section

variable [DecidableEq ε]

/-- Held by what is outside the map, or by an anchored slot of it. -/
def alive (held : List ε) (slots : Slots κ ε) (e : ε) : Bool :=
  held.contains e || slots.entries.any fun entry => entry.2 = .anchored (.entity e)

def Slot.isAlive (held : List ε) (slots : Slots κ ε) : Slot ε → Bool
  | anchored _ => true
  | released e => alive held slots e

/-- The slots whose entity is alive. -/
def retain (held : List ε) (slots : Slots κ ε) : Slots κ ε :=
  ⟨slots.entries.filter fun entry => entry.2.isAlive held slots,
    slots.nodupKeys.sublist List.filter_sublist⟩

structure State (κ ε : Type) where
  slots : Slots κ ε
  window : Window κ
  sinceSweep : Nat

namespace State

def new (window : Window κ) : State κ ε := ⟨∅, window, 0⟩

def sweep (held : List ε) (s : State κ ε) : State κ ε :=
  { s with slots := retain held s.slots, sinceSweep := 0 }

def sweepWhenDue (held : List ε) (s : State κ ε) : State κ ε :=
  let s := { s with sinceSweep := s.sinceSweep + 1 }
  if s.slots.entries.length < s.sinceSweep then s.sweep held else s

variable [DecidableEq κ] (it : Iteration κ) (held : List ε)

def releaseKey (slots : Slots κ ε) (key : κ) : Slots κ ε :=
  match slots.lookup key with
  | none => slots
  | some slot =>
    let rest := slots.erase key
    match slot.release (alive held rest) with
    | none => rest
    | some next => rest.insert key next

/-- The window let these keys go. -/
def release (s : State κ ε) (gone : List κ) : State κ ε :=
  { s with slots := gone.foldl (releaseKey held) s.slots }

/-- The key was just used. -/
def admitKey (s : State κ ε) (key : κ) : State κ ε :=
  let admitted := s.window.admitKey it key
  release held { s with window := admitted.2 } admitted.1

def remember (s : State κ ε) (key : κ) (fact : Fact ε) : State κ ε :=
  let s := { s with slots := s.slots.insert key (.anchored fact) }
  (s.admitKey it held key).sweepWhenDue held

/-- While an entity is answered, the answer holds it. -/
def recallKey (s : State κ ε) (key : κ) : Lookup ε × State κ ε :=
  match s.slots.lookup key with
  | none => (.unknown, s)
  | some slot =>
    let rest := s.slots.erase key
    match slot.recallKey (alive held rest) with
    | (some next, answer) =>
      let held := match answer with | .found e => e :: held | _ => held
      let s := { s with slots := rest.insert key next }
      (answer, (s.admitKey it held key).sweepWhenDue held)
    | (none, answer) =>
      let s := { s with slots := rest, window := s.window.remove key }
      (answer, s.sweepWhenDue held)

def forget (s : State κ ε) (key : κ) : State κ ε :=
  { s with slots := s.slots.erase key, window := s.window.remove key }

def forgetAll (s : State κ ε) : State κ ε := { s with slots := ∅, window := s.window.clear }

/-- The keys that can still be answered for; the dead slots are forgotten on the way. -/
def len (s : State κ ε) : Nat × State κ ε :=
  let swept := s.sweep held
  (swept.slots.entries.length, swept)

def resize (s : State κ ε) (size : Nat) : State κ ε :=
  let resized := s.window.resize it size
  release held { s with window := resized.2 } resized.1

end State

/-- The identity map. -/
structure Map (κ ε : Type) where
  isolation : IsolationLevel
  state : State κ ε

namespace Map

variable [DecidableEq κ] (it : Iteration κ) (held : List ε)

def remember (m : Map κ ε) (key : κ) (fact : Fact ε) : Map κ ε :=
  if admits m.isolation fact.kind then { m with state := m.state.remember it held key fact } else m

def recallKey (m : Map κ ε) (key : κ) : Lookup ε × Map κ ε :=
  let recalled := m.state.recallKey it held key
  (recalled.1.admitted (admits m.isolation), { m with state := recalled.2 })

def add (m : Map κ ε) (key : κ) (e : ε) : Map κ ε := m.remember it held key (.entity e)

def addAbsent (m : Map κ ε) (key : κ) : Map κ ε := m.remember it held key .absence

def get (m : Map κ ε) (key : κ) : Lookup ε × Map κ ε := m.recallKey it held key

def has (m : Map κ ε) (key : κ) : Bool × Map κ ε :=
  let recalled := m.recallKey it held key
  (recalled.1.isKnown, recalled.2)

def remove (m : Map κ ε) (key : κ) : Map κ ε := { m with state := m.state.forget key }

def clear (m : Map κ ε) : Map κ ε := { m with state := m.state.forgetAll }

def setSize (m : Map κ ε) (size : Nat) : Map κ ε := { m with state := m.state.resize it held size }

end Map

end

end AsceticDdd.Session.IdentityMap
