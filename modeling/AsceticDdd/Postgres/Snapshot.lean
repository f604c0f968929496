import AsceticDdd.Text.Decimal

/-!
# PostgreSQL's snapshots of its transactions

A `pg_snapshot` is `xmin:xmax:xip`, and no other value of the type exists: the server checks
the order of the three when it reads one.
-/

namespace AsceticDdd.Postgres

open Text

structure Snapshot where
  xmin : Nat
  xmax : Nat
  xip : List Nat
  xmin_pos : 0 < xmin
  xmin_le : xmin ≤ xmax
  ascending : xip.Pairwise (· < ·)
  within : ∀ x ∈ xip, xmin ≤ x ∧ x < xmax
deriving DecidableEq

namespace Snapshot

/-- `pg_visible_in_snapshot`. -/
def visible (s : Snapshot) (xid : Nat) : Bool :=
  decide (xid < s.xmin) || (decide (xid < s.xmax) && !s.xip.contains xid)

variable {s : Snapshot} {x : Nat}

theorem visible_iff : s.visible x ↔ x < s.xmax ∧ x ∉ s.xip := by
  have hle := s.xmin_le
  have hwithin := s.within x
  simp only [visible, Bool.or_eq_true, Bool.and_eq_true, decide_eq_true_eq, Bool.not_eq_true',
    List.contains_eq_mem, decide_eq_false_iff_not]
  constructor
  · rintro (h | h)
    · exact ⟨by omega, fun hx => by have := hwithin hx; omega⟩
    · exact h
  · exact Or.inr

theorem visible_eq_false_iff : s.visible x = false ↔ s.xmax ≤ x ∨ x ∈ s.xip := by
  rw [← Bool.not_eq_true, visible_iff, not_and_or, not_not, Nat.not_lt]

theorem lt_xmax_of_visible (h : s.visible x) : x < s.xmax := (visible_iff.mp h).1

theorem xmin_le_of_not_visible (h : s.visible x = false) : s.xmin ≤ x := by
  rcases visible_eq_false_iff.mp h with h | h
  · exact Nat.le_trans s.xmin_le h
  · exact (s.within x h).1

theorem visible_of_lt_xmin (h : x < s.xmin) : s.visible x := by
  by_contra hnot
  have := xmin_le_of_not_visible (Bool.not_eq_true _ ▸ hnot)
  omega

/-- What a snapshot sees below an id. -/
def cut (s : Snapshot) (xid : Nat) (h : 0 < xid) : Snapshot where
  xmin := min s.xmin xid
  xmax := min s.xmax xid
  xip := s.xip.filter (· < xid)
  xmin_pos := by
    have := s.xmin_pos
    omega
  xmin_le := by
    have := s.xmin_le
    omega
  ascending := s.ascending.sublist List.filter_sublist
  within x hx := by
    have hbelow := of_decide_eq_true (List.mem_filter.mp hx).2
    have := s.within x (List.mem_filter.mp hx).1
    omega

theorem cut_visible {xid : Nat} {h : 0 < xid} : (s.cut xid h).visible x ↔ x < xid ∧ s.visible x := by
  rw [visible_iff, visible_iff]
  change x < min s.xmax xid ∧ x ∉ s.xip.filter (· < xid) ↔ _
  rw [List.mem_filter, decide_eq_true_eq]
  constructor
  · rintro ⟨hlt, hout⟩
    exact ⟨by omega, by omega, fun hx => hout ⟨hx, by omega⟩⟩
  · rintro ⟨hbelow, hlt, hout⟩
    exact ⟨by omega, fun hx => hout hx.1⟩

/-- The text of a snapshot of these parts, as `pg_snapshot_out` prints it. -/
def text (xmin xmax : Nat) (xip : List Nat) : List Char :=
  digits xmin ++ ':' :: (digits xmax ++ ':' :: commaSeparated xip)

/-- The in-progress list of a text, from the id before on: in order, within the bounds, one
repeated taken once; the text may end after a comma. -/
def readXip (xmin xmax : Nat) : Nat → List (List Char) → Option (List Nat)
  | _, [] => some []
  | _, [[]] => some []
  | last, field :: rest => do
    let x ← number field
    if x < xmin ∨ xmax ≤ x ∨ x < last then none
    else
      let xip ← readXip xmin xmax x rest
      return if x = last then xip else x :: xip

/-- `pg_snapshot_in` on the decimal texts it accepts, as the three numbers it reads. -/
def readParts (text : List Char) : Option (Nat × Nat × List Nat) := do
  let (xmin, text) ← cutAt ':' text
  let (xmax, text) ← cutAt ':' text
  let xmin ← number xmin
  let xmax ← number xmax
  if xmin = 0 ∨ xmax < xmin then none
  else return (xmin, xmax, ← readXip xmin xmax 0 (text.splitOn ','))

theorem readXip_spec {xmin xmax last : Nat} {fields : List (List Char)} {xip : List Nat}
    (h : readXip xmin xmax last fields = some xip) :
    xip.Pairwise (· < ·) ∧ ∀ x ∈ xip, xmin ≤ x ∧ x < xmax ∧ last < x := by
  induction fields generalizing last xip with
  | nil =>
    cases h
    simp
  | cons field rest ih =>
    by_cases hend : field = [] ∧ rest = []
    · obtain ⟨rfl, rfl⟩ := hend
      cases h
      simp
    · rw [readXip.eq_3 _ _ _ _ _ (by rintro rfl rfl; exact hend ⟨rfl, rfl⟩)] at h
      obtain ⟨x, _, h⟩ := Option.bind_eq_some_iff.mp h
      split at h
      · cases h
      · rename_i hbounds
        obtain ⟨tail, htail, h⟩ := Option.bind_eq_some_iff.mp h
        obtain ⟨hsorted, hin⟩ := ih htail
        cases h
        split
        · rename_i hlast
          subst hlast
          exact ⟨hsorted, hin⟩
        · refine ⟨List.pairwise_cons.mpr ⟨fun y hy => (hin y hy).2.2, hsorted⟩, ?_⟩
          intro y hy
          rcases List.mem_cons.mp hy with rfl | hy
          · omega
          · have := hin y hy
            omega

theorem readParts_spec {text : List Char} {xmin xmax : Nat} {xip : List Nat}
    (h : readParts text = some (xmin, xmax, xip)) :
    0 < xmin ∧ xmin ≤ xmax ∧ xip.Pairwise (· < ·) ∧ ∀ x ∈ xip, xmin ≤ x ∧ x < xmax := by
  simp only [readParts, Option.bind_eq_bind, Option.bind_eq_some_iff, Prod.exists] at h
  obtain ⟨_, _, _, _, _, _, a, _, b, _, h⟩ := h
  split at h
  · cases h
  · rename_i hbounds
    obtain ⟨read, hread, h⟩ := Option.bind_eq_some_iff.mp h
    cases h
    obtain ⟨hsorted, hin⟩ := readXip_spec hread
    exact ⟨by omega, by omega, hsorted, fun x hx => ⟨(hin x hx).1, (hin x hx).2.1⟩⟩

def read (text : List Char) : Option Snapshot :=
  match h : readParts text with
  | none => none
  | some (xmin, xmax, xip) =>
    let bounds := readParts_spec h
    some ⟨xmin, xmax, xip, bounds.1, bounds.2.1, bounds.2.2.1, bounds.2.2.2⟩

theorem readXip_digits {xmin xmax last : Nat} {xip : List Nat} (hlast : ∀ x ∈ xip, last < x)
    (hsorted : xip.Pairwise (· < ·)) (hin : ∀ x ∈ xip, xmin ≤ x ∧ x < xmax) :
    readXip xmin xmax last (xip.map digits) = some xip := by
  induction xip generalizing last with
  | nil => rfl
  | cons x xip ih =>
    obtain ⟨hx, hsorted⟩ := List.pairwise_cons.mp hsorted
    have hbounds := hin x List.mem_cons_self
    have hafter := hlast x List.mem_cons_self
    have hrest := ih hx hsorted fun y hy => hin y (List.mem_cons_of_mem _ hy)
    rw [List.map_cons, readXip.eq_3 _ _ _ _ _ (fun h => absurd h (digits_ne_nil x)), number_digits,
      Option.bind_eq_bind, Option.bind_some, if_neg (by omega), hrest, Option.bind_eq_bind,
      Option.bind_some, if_neg (by omega)]
    rfl

theorem readXip_commaSeparated {xmin xmax : Nat} {xip : List Nat} (hpos : 0 < xmin)
    (hsorted : xip.Pairwise (· < ·)) (hin : ∀ x ∈ xip, xmin ≤ x ∧ x < xmax) :
    readXip xmin xmax 0 ((commaSeparated xip).splitOn ',') = some xip := by
  by_cases hnil : xip = []
  · subst hnil
    rfl
  · rw [splitOn_commaSeparated hnil]
    exact readXip_digits (fun x hx => Nat.lt_of_lt_of_le hpos (hin x hx).1) hsorted hin

theorem readParts_text {xmin xmax : Nat} {xip : List Nat} (hpos : 0 < xmin) (hle : xmin ≤ xmax)
    (hsorted : xip.Pairwise (· < ·)) (hin : ∀ x ∈ xip, xmin ≤ x ∧ x < xmax) :
    readParts (text xmin xmax xip) = some (xmin, xmax, xip) := by
  rw [readParts, text, cutAt_append (not_mem_digits (by decide))]
  simp only [Option.bind_eq_bind, Option.bind_some]
  rw [cutAt_append (not_mem_digits (by decide))]
  simp only [Option.bind_some, number_digits]
  rw [if_neg (by omega), readXip_commaSeparated hpos hsorted hin]
  rfl

theorem read_eq_some {text : List Char} {s : Snapshot}
    (h : readParts text = some (s.xmin, s.xmax, s.xip)) : read text = some s := by
  rw [read]
  split
  · rename_i hnone
    rw [h] at hnone
    cases hnone
  · rename_i hsome
    rw [h] at hsome
    cases hsome
    rfl

@[simp] theorem read_text (s : Snapshot) : read (text s.xmin s.xmax s.xip) = some s :=
  read_eq_some (readParts_text s.xmin_pos s.xmin_le s.ascending s.within)

end Snapshot

end AsceticDdd.Postgres
