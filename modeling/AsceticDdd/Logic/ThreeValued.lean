import Mathlib.Data.Fintype.Option

/-!
# Kleene's three-valued logic

True, false and unknown. A connective is decided by the value that settles it whatever the other side is.
-/

namespace AsceticDdd.ThreeValued

/-- The strong connective that `deciding` settles: false for the conjunction, true for the disjunction. -/
def connect (deciding : Bool) : Option Bool → Option Bool → Option Bool
  | some left, some right => some (if left = deciding ∨ right = deciding then deciding else !deciding)
  | some left, none => if left = deciding then some deciding else none
  | none, some right => if right = deciding then some deciding else none
  | none, none => none

def and : Option Bool → Option Bool → Option Bool := connect false

def or : Option Bool → Option Bool → Option Bool := connect true

def not : Option Bool → Option Bool := Option.map Bool.not

variable {deciding : Bool} {a b c : Option Bool}

theorem connect_deciding (h : a = some deciding) : connect deciding a b = some deciding := by
  revert deciding a b
  decide

theorem connect_assoc : connect deciding (connect deciding a b) c = connect deciding a (connect deciding b c) := by
  revert deciding a b c
  decide

theorem connect_eq_deciding : connect deciding a b = some deciding ↔ a = some deciding ∨ b = some deciding := by
  revert deciding a b
  decide

end AsceticDdd.ThreeValued
