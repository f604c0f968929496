import Mathlib.Data.List.Basic

/-!
# What crosses the wire

Headers are a list: one more goes to the end, and the first of a name is read.
-/

namespace AsceticDdd.Bus

structure Message where
  key : Option (List UInt8)
  payload : List UInt8
  headers : List (String × List UInt8)
deriving DecidableEq

namespace Message

variable (m : Message)

def withHeader (name : String) (value : List UInt8) : Message := { m with headers := m.headers ++ [(name, value)] }

def withPayload (payload : List UInt8) : Message := { m with payload := payload }

def withoutHeader (name : String) : Message := { m with headers := m.headers.filter (·.1 ≠ name) }

/-- The first header of that name. -/
def header (name : String) : Option (List UInt8) := (m.headers.find? (·.1 = name)).map Prod.snd

variable {m} {name other : String} {value payload : List UInt8}

@[simp] theorem payload_withHeader : (m.withHeader name value).payload = m.payload := rfl

@[simp] theorem header_withPayload : (m.withPayload payload).header name = m.header name := rfl

theorem header_withHeader :
    (m.withHeader other value).header name = (m.header name).or (if other = name then some value else none) := by
  rw [header, header, withHeader, List.find?_append]
  cases m.headers.find? (·.1 = name) with
  | some found => rfl
  | none =>
    rw [Option.none_or, List.find?_singleton]
    by_cases same : other = name
    · rw [if_pos same, if_pos (decide_eq_true same)]
      rfl
    · rw [if_neg same, if_neg fun h => same (of_decide_eq_true h)]
      rfl

theorem header_withHeader_ne (different : other ≠ name) : (m.withHeader other value).header name = m.header name := by
  rw [header_withHeader, if_neg different, Option.or_none]

theorem header_eq_none : m.header name = none ↔ ∀ header ∈ m.headers, header.1 ≠ name := by
  rw [header, Option.map_eq_none_iff, List.find?_eq_none]
  exact forall₂_congr fun _ _ => decide_eq_true_iff.not

/-- A header that was not there is the one that is read. -/
theorem header_withHeader_self (absent : m.header name = none) : (m.withHeader name value).header name = some value := by
  rw [header_withHeader, absent, if_pos rfl, Option.none_or]

theorem header_withoutHeader : (m.withoutHeader name).header name = none := by
  rw [header_eq_none]
  intro header hheader
  exact of_decide_eq_true (List.mem_filter.mp hheader).2

theorem header_withoutHeader_of_none (absent : m.header name = none) : (m.withoutHeader other).header name = none := by
  rw [header_eq_none] at absent ⊢
  intro header hheader
  exact absent header (List.mem_of_mem_filter hheader)

/-- One more header leaves those that are there as they are read. -/
theorem header_withHeader_of_some (carried : m.header name ≠ none) :
    (m.withHeader other value).header name = m.header name := by
  obtain ⟨found, hfound⟩ := Option.ne_none_iff_exists'.mp carried
  rw [header_withHeader, hfound, Option.some_or]

theorem withoutHeader_of_none (absent : m.header name = none) : m.withoutHeader name = m := by
  have kept : m.headers.filter (·.1 ≠ name) = m.headers := by
    rw [List.filter_eq_self]
    intro header hheader
    exact decide_eq_true (header_eq_none.mp absent header hheader)
  rw [withoutHeader, kept]

theorem withoutHeader_withHeader_self : (m.withHeader name value).withoutHeader name = m.withoutHeader name := by
  have gone : (m.headers ++ [(name, value)]).filter (·.1 ≠ name) = m.headers.filter (·.1 ≠ name) := by
    rw [List.filter_append, List.filter_cons_of_neg (by simp), List.filter_nil, List.append_nil]
  exact congrArg (fun headers => { m with headers := headers }) gone

theorem withoutHeader_withHeader_ne (different : other ≠ name) :
    (m.withHeader other value).withoutHeader name = (m.withoutHeader name).withHeader other value := by
  have kept : (m.headers ++ [(other, value)]).filter (·.1 ≠ name) =
      m.headers.filter (·.1 ≠ name) ++ [(other, value)] := by
    rw [List.filter_append, List.filter_singleton, decide_eq_true different, cond_true]
  exact congrArg (fun headers => { m with headers := headers }) kept

end Message

end AsceticDdd.Bus
