import Mathlib.Data.List.Basic

/-! # `jsonb` -/

namespace AsceticDdd.Postgres

/-- A number keeps its numeral: `1` and `1.0` print apart. -/
inductive Jsonb
  | null
  | bool (value : Bool)
  | number (numeral : String)
  | string (text : String)
  | array (elements : List Jsonb)
  | object (members : List (String × Jsonb))

namespace Jsonb

mutual

def beq : Jsonb → Jsonb → Bool
  | .null, .null => true
  | .bool a, .bool b => a == b
  | .number a, .number b => a == b
  | .string a, .string b => a == b
  | .array a, .array b => beqElements a b
  | .object a, .object b => beqMembers a b
  | _, _ => false

def beqElements : List Jsonb → List Jsonb → Bool
  | [], [] => true
  | a :: as, b :: bs => a.beq b && beqElements as bs
  | _, _ => false

def beqMembers : List (String × Jsonb) → List (String × Jsonb) → Bool
  | [], [] => true
  | (k, a) :: as, (l, b) :: bs => k == l && a.beq b && beqMembers as bs
  | _, _ => false

end

mutual

theorem beq_iff : ∀ a b : Jsonb, a.beq b = true ↔ a = b
  | .array a, .array b => by simpa [beq] using beqElements_iff a b
  | .object a, .object b => by simpa [beq] using beqMembers_iff a b
  | .null, b => by cases b <;> simp [beq]
  | .bool a, b => by cases b <;> simp [beq]
  | .number a, b => by cases b <;> simp [beq]
  | .string a, b => by cases b <;> simp [beq]
  | .array _, .null | .array _, .bool _ | .array _, .number _ | .array _, .string _
  | .array _, .object _ | .object _, .null | .object _, .bool _ | .object _, .number _
  | .object _, .string _ | .object _, .array _ => by simp [beq]

theorem beqElements_iff : ∀ as bs : List Jsonb, beqElements as bs = true ↔ as = bs
  | [], bs => by cases bs <;> simp [beqElements]
  | a :: as, [] => by simp [beqElements]
  | a :: as, b :: bs => by simp [beqElements, beq_iff a b, beqElements_iff as bs]

theorem beqMembers_iff : ∀ as bs : List (String × Jsonb), beqMembers as bs = true ↔ as = bs
  | [], bs => by cases bs <;> simp [beqMembers]
  | a :: as, [] => by simp [beqMembers]
  | (k, a) :: as, (l, b) :: bs => by
    simp [beqMembers, beq_iff a b, beqMembers_iff as bs]

end

instance : DecidableEq Jsonb := fun a b => decidable_of_iff (a.beq b = true) (beq_iff a b)

end Jsonb

end AsceticDdd.Postgres
