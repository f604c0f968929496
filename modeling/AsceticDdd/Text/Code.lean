import Mathlib.Data.List.Basic

/-!
# Codes

Texts cut at a stop, and texts made of pieces none of which starts another: they are read back from what they are
made to.
-/

namespace AsceticDdd.Text

variable {α β : Type}

/-- Texts that are cut at the first stop. -/
theorem append_stop {stop : α} {a b s t : List α} (ha : stop ∉ a) (hb : stop ∉ b)
    (same : a ++ stop :: s = b ++ stop :: t) : a = b ∧ s = t := by
  induction a generalizing b with
  | nil =>
    cases b with
    | nil => exact ⟨rfl, (List.cons.inj same).2⟩
    | cons d b => exact absurd (List.cons.inj same).1 (List.ne_of_not_mem_cons hb)
  | cons c a ih =>
    cases b with
    | nil => exact absurd (List.cons.inj same).1.symm (List.ne_of_not_mem_cons ha)
    | cons d b =>
      obtain ⟨rfl, after⟩ := List.cons.inj same
      obtain ⟨rfl, rest⟩ := ih (List.not_mem_of_not_mem_cons ha) (List.not_mem_of_not_mem_cons hb) after
      exact ⟨rfl, rest⟩

/-- Texts that are cut at the last stop. -/
theorem append_lastStop {stop : α} {a b s t : List α} (hs : stop ∉ s) (ht : stop ∉ t)
    (same : a ++ stop :: s = b ++ stop :: t) : a = b ∧ s = t := by
  have reversed := congrArg List.reverse same
  rw [List.reverse_append, List.reverse_append, List.reverse_cons, List.reverse_cons, List.append_assoc,
    List.append_assoc, List.singleton_append, List.singleton_append] at reversed
  obtain ⟨ends, starts⟩ := append_stop (List.mem_reverse.not.mpr hs) (List.mem_reverse.not.mpr ht) reversed
  exact ⟨List.reverse_injective starts, List.reverse_injective ends⟩

theorem not_mem_of_mem_splitOn [DecidableEq α] {stop : α} {text piece : List α} (h : piece ∈ text.splitOn stop) :
    stop ∉ piece := by
  induction text generalizing piece with
  | nil =>
    rw [List.splitOn_nil] at h
    rw [List.mem_singleton.mp h]
    exact List.not_mem_nil
  | cons c text ih =>
    rw [List.splitOn_cons_eq_if_modifyHead] at h
    split at h
    case isTrue =>
      obtain rfl | h := List.mem_cons.mp h
      · exact List.not_mem_nil
      · exact ih h
    case isFalse other =>
      obtain ⟨first, rest, pieces⟩ := List.exists_cons_of_ne_nil (List.splitOn_ne_nil stop text)
      rw [pieces, List.modifyHead_cons] at h
      obtain rfl | h := List.mem_cons.mp h
      · apply List.not_mem_cons_of_ne_of_not_mem
        · rintro rfl
          exact other (beq_self_eq_true _)
        · exact ih (pieces ▸ List.mem_cons_self)
      · exact ih (pieces ▸ List.mem_cons_of_mem _ h)

/-- Pieces that are joined are cut again if there is one and none has the stop. -/
theorem splitOn_intercalate_iff [DecidableEq α] {stop : α} {pieces : List (List α)} :
    ([stop].intercalate pieces).splitOn stop = pieces ↔ pieces ≠ [] ∧ ∀ piece ∈ pieces, stop ∉ piece := by
  constructor
  · intro same
    refine ⟨?_, fun piece hpiece => ?_⟩
    · rintro rfl
      cases same
    · rw [← same] at hpiece
      exact not_mem_of_mem_splitOn hpiece
  · rintro ⟨some, plain⟩
    exact List.splitOn_intercalate stop plain some

/-- Each piece is told from what it starts. -/
structure IsCode (piece : α → List β) : Prop where
  nonempty : ∀ a, piece a ≠ []
  cancel : ∀ {a b s t}, piece a ++ s = piece b ++ t → a = b ∧ s = t

namespace IsCode

variable {piece : α → List β} {as bs : List α} {stop : β} {s t : List β}

/-- Up to a stop that starts no piece. -/
theorem cancel_stop (code : IsCode piece) (other : ∀ a, (piece a).head? ≠ some stop)
    (same : as.flatMap piece ++ stop :: s = bs.flatMap piece ++ stop :: t) : as = bs ∧ s = t := by
  have apart : ∀ {a rest rest'}, piece a ++ rest ≠ stop :: rest' := by
    intro a rest rest' h
    obtain ⟨first, after, hpiece⟩ := List.exists_cons_of_ne_nil (code.nonempty a)
    rw [hpiece, List.cons_append] at h
    obtain ⟨rfl, _⟩ := List.cons.inj h
    exact other a (by rw [hpiece]; rfl)
  induction as generalizing bs with
  | nil =>
    cases bs with
    | nil => exact ⟨rfl, (List.cons.inj same).2⟩
    | cons b bs =>
      rw [List.flatMap_cons, List.append_assoc] at same
      exact absurd same.symm apart
  | cons a as ih =>
    cases bs with
    | nil =>
      rw [List.flatMap_cons, List.append_assoc] at same
      exact absurd same apart
    | cons b bs =>
      rw [List.flatMap_cons, List.flatMap_cons, List.append_assoc, List.append_assoc] at same
      obtain ⟨rfl, rest⟩ := code.cancel same
      obtain ⟨rfl, after⟩ := ih rest
      exact ⟨rfl, after⟩

theorem flatMap_injective (code : IsCode piece) (same : as.flatMap piece = bs.flatMap piece) : as = bs := by
  induction as generalizing bs with
  | nil =>
    cases bs with
    | nil => rfl
    | cons b bs => exact absurd (List.append_eq_nil_iff.mp same.symm).1 (code.nonempty b)
  | cons a as ih =>
    cases bs with
    | nil => exact absurd (List.append_eq_nil_iff.mp same).1 (code.nonempty a)
    | cons b bs =>
      obtain ⟨rfl, rest⟩ := code.cancel same
      rw [ih rest]

end IsCode

end AsceticDdd.Text
