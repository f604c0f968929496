import AsceticDdd.Text.Code

/-!
# Texts between commas

A list is read back from the texts of its elements, if each is cut where it ends and none starts with what ends the
list.
-/

namespace AsceticDdd.Text

/-- Texts between commas. -/
def separated : List (List Char) → List Char
  | [] => []
  | text :: texts => text ++ texts.flatMap (',' :: ·)

section Separated

variable {α β : Type} {follows : List Char → Prop} {text : α → List Char} {value : α → β} {stop : Char} {as bs : List α}
  {s t : List Char}

/-- Its text says its value and where it ends, if what follows it may follow it. -/
def Cut (follows : List Char → Prop) (text : α → List Char) (value : α → β) (a : α) : Prop :=
  ∀ {b s t}, follows s → follows t → text a ++ s = text b ++ t → value a = value b ∧ s = t

theorem follows_more (hcomma : ∀ s, follows (',' :: s)) (hstop : ∀ s, follows (stop :: s)) (as : List α)
    (s : List Char) : follows (as.flatMap (fun a => ',' :: text a) ++ stop :: s) := by
  cases as with
  | nil => exact hstop s
  | cons a as => exact hcomma _

theorem more_cancel (hcomma : ∀ s, follows (',' :: s)) (hstop : ∀ s, follows (stop :: s)) (comma : stop ≠ ',')
    (cut : ∀ a ∈ as, Cut follows text value a)
    (same : as.flatMap (fun a => ',' :: text a) ++ stop :: s = bs.flatMap (fun b => ',' :: text b) ++ stop :: t) :
    as.map value = bs.map value ∧ s = t := by
  induction as generalizing bs with
  | nil =>
    cases bs with
    | nil => exact ⟨rfl, (List.cons.inj same).2⟩
    | cons b bs => exact absurd (List.cons.inj same).1 comma
  | cons a as ih =>
    cases bs with
    | nil => exact absurd (List.cons.inj same).1.symm comma
    | cons b bs =>
      simp only [List.flatMap_cons, List.cons_append, List.append_assoc, List.cons.injEq, true_and] at same
      obtain ⟨first, rest⟩ :=
        cut a List.mem_cons_self (follows_more hcomma hstop as s) (follows_more hcomma hstop bs t) same
      obtain ⟨others, after⟩ := ih (fun a ha => cut a (List.mem_cons_of_mem _ ha)) rest
      exact ⟨by rw [List.map_cons, List.map_cons, first, others], after⟩

theorem separated_cancel (hcomma : ∀ s, follows (',' :: s)) (hstop : ∀ s, follows (stop :: s)) (comma : stop ≠ ',')
    (starts : ∀ a rest rest', text a ++ rest ≠ stop :: rest') (cut : ∀ a ∈ as, Cut follows text value a)
    (same : separated (as.map text) ++ stop :: s = separated (bs.map text) ++ stop :: t) :
    as.map value = bs.map value ∧ s = t := by
  cases as with
  | nil =>
    cases bs with
    | nil => exact ⟨rfl, (List.cons.inj same).2⟩
    | cons b bs =>
      rw [List.map_cons, separated, List.append_assoc] at same
      exact absurd same.symm (starts b _ _)
  | cons a as =>
    cases bs with
    | nil =>
      rw [List.map_cons, separated, List.append_assoc] at same
      exact absurd same (starts a _ _)
    | cons b bs =>
      simp only [List.map_cons, separated, List.append_assoc, List.flatMap_map] at same
      obtain ⟨first, rest⟩ :=
        cut a List.mem_cons_self (follows_more hcomma hstop as s) (follows_more hcomma hstop bs t) same
      obtain ⟨others, after⟩ := more_cancel hcomma hstop comma (fun a ha => cut a (List.mem_cons_of_mem _ ha)) rest
      exact ⟨by rw [List.map_cons, List.map_cons, first, others], after⟩

end Separated

end AsceticDdd.Text
