import Mathlib.Algebra.Group.Int.Defs
import Mathlib.Algebra.Group.Nat.Defs
import Mathlib.Data.Nat.Basic

/-!
# Checked arithmetic on unsigned 64-bit integers

An operation that the machine refuses, past either end or by zero, has no value.
-/

namespace AsceticDdd.Machine

def add64 (left right : Nat) : Option Nat := if left + right < 2 ^ 64 then some (left + right) else none

def sub64 (left right : Nat) : Option Nat := if right ≤ left then some (left - right) else none

def div64 (left right : Nat) : Option Nat := if right = 0 then none else some (left / right)

def rem64 (left right : Nat) : Option Nat := if right = 0 then none else some (left % right)

/-- The low half of the bits. -/
def cast32 (value : Nat) : Nat := value % 2 ^ 32

variable {left right : Nat}

theorem add64_eq (h : left + right < 2 ^ 64) : add64 left right = some (left + right) := if_pos h

theorem sub64_eq (h : right ≤ left) : sub64 left right = some (left - right) := if_pos h

theorem div64_eq (h : 0 < right) : div64 left right = some (left / right) := if_neg (Nat.pos_iff_ne_zero.mp h)

theorem rem64_eq (h : 0 < right) : rem64 left right = some (left % right) := if_neg (Nat.pos_iff_ne_zero.mp h)

theorem cast32_eq (h : left < 2 ^ 32) : cast32 left = left := Nat.mod_eq_of_lt h

end AsceticDdd.Machine
