import AsceticDdd.Machine.Checked

/-!
# `bigint`

A result out of range is an error. The remainder has the sign of what is divided.
-/

namespace AsceticDdd.Postgres.Bigint

open Machine

def inRange (n : Int) : Option Int := if Fits n then some n else none

def add (left right : Int) : Option Int := inRange (left + right)

def sub (left right : Int) : Option Int := inRange (left - right)

def rem (left right : Int) : Option Int := if right = 0 then none else inRange (left.tmod right)

variable {n left right : Int}

theorem inRange_eq (h : Fits n) : inRange n = some n := if_pos h

theorem inRange_eq_none (h : ¬ Fits n) : inRange n = none := if_neg h

/-- Of what is not negative the remainder is the ordinary one. -/
theorem rem_eq (h : 0 ≤ left) (positive : 0 < right) (fits : Fits (left % right)) : rem left right = some (left % right) := by
  rw [rem, if_neg (by omega), Int.tmod_eq_emod_of_nonneg h, inRange_eq fits]

end AsceticDdd.Postgres.Bigint
