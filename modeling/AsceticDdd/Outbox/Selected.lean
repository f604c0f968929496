import AsceticDdd.Outbox.Store

/-!
# A selection by URI

Every statement that filters by a selection has the same test: no URI, the URI itself, or `LIKE` the URI and `/%`.
-/

namespace AsceticDdd.Outbox

open Postgres

/-- One URI, and what is under it; no URI is every one. -/
def Under (uri rowUri : String) : Prop :=
  uri = "" ∨ rowUri = uri ∨ (uri ++ "/").toList <+: rowUri.toList

instance (uri rowUri : String) : Decidable (Under uri rowUri) := inferInstanceAs (Decidable (_ ∨ _))

/-- A URI without a character that is special in a pattern. -/
def Literally (uri : String) : Prop := ∀ c ∈ uri.toList, Literal c

/-- The test of the statement that advances: the server appends to the column. -/
def selectedByServer (uri rowUri : String) : Bool :=
  uri = "" || rowUri = uri || like (uri.toList ++ "/%".toList) rowUri.toList

theorem selectedByServer_eq : selectedByServer = selected := by
  funext uri rowUri
  rw [selectedByServer, selected, String.toList_append]

variable {uri other rowUri : String}

theorem selected_iff : selected uri rowUri = true ↔
    uri = "" ∨ rowUri = uri ∨ like (uri.toList ++ ['/', '%']) rowUri.toList = true := by
  have pattern : (uri ++ "/%").toList = uri.toList ++ ['/', '%'] := String.toList_append
  simp only [selected, pattern, Bool.or_eq_true, decide_eq_true_eq, or_assoc]

/-- Where no character of the URI is special, a row is taken if it is under the URI. -/
theorem selected_iff_under (literally : Literally uri) : selected uri rowUri = true ↔ Under uri rowUri := by
  rw [selected_iff, Under, like_append_literal literally, String.toList_append]
  refine or_congr_right (or_congr_right ?_)
  constructor
  · rintro ⟨last, whole, matched⟩
    obtain ⟨rest, rfl, _⟩ := (like_literal (by decide)).mp matched
    exact ⟨rest, by rw [whole, List.append_assoc]; rfl⟩
  · rintro ⟨rest, whole⟩
    refine ⟨'/' :: rest, by rw [← whole, List.append_assoc]; rfl, ?_⟩
    exact (like_literal (by decide)).mpr ⟨rest, rfl, like_any⟩

/-- A URI that the pattern of `uri` matches. -/
def neighbour (uri : String) : String := .ofList (sample (uri.toList ++ ['/', '%']))

theorem selected_neighbour (uri : String) : selected uri (neighbour uri) = true :=
  selected_iff.mpr (.inr (.inr (by rw [neighbour, String.toList_ofList]; exact like_sample)))

theorem not_under_of_count (more : rowUri.toList.count '/' < uri.toList.count '/') (some' : uri ≠ "") :
    ¬ Under uri rowUri := by
  rintro (rfl | rfl | starts)
  · exact some' rfl
  · omega
  · have := starts.sublist.count_le '/'
    rw [String.toList_append, List.count_append] at this
    omega

/-- With a special character in it, a URI takes a row that is not under it. -/
theorem not_under_neighbour (special : ¬ Literally uri) : ¬ Under uri (neighbour uri) := by
  obtain ⟨count, _, lighter⟩ := sample_spec uri.toList
  rw [Literally] at special
  push Not at special
  have light := lighter special
  rintro (rfl | same | starts)
  · obtain ⟨c, hc, _⟩ := special
    cases hc
  · rw [← String.toList_inj, neighbour, String.toList_ofList] at same
    rw [same] at count
    omega
  · obtain ⟨rest, whole⟩ := starts
    rw [neighbour, String.toList_ofList, String.toList_append] at whole
    rw [← whole, weight_append, weight_append] at light
    have : weight ['/'] = 1 := rfl
    change weight uri.toList + weight ['/'] + _ < _ at light
    omega

/-- Of two URIs neither of which is under the other, what is under one is not under the other. -/
theorem not_under_both (apart : ¬ Under uri other) (apart' : ¬ Under other uri) :
    ¬ (Under uri rowUri ∧ Under other rowUri) := by
  have within : ∀ {one two : String}, one.toList ++ ['/'] <+: two.toList ++ ['/'] → Under one two := by
    intro one two starts
    obtain same | shorter := Nat.eq_or_lt_of_le starts.length_le
    · have := List.append_cancel_right (starts.eq_of_length same)
      exact .inr (.inl (String.toList_inj.mp this).symm)
    · refine .inr (.inr ?_)
      rw [String.toList_append]
      refine List.prefix_of_prefix_length_le starts (List.prefix_append _ _) ?_
      simp only [List.length_append, List.length_singleton] at shorter ⊢
      change one.toList.length + 1 ≤ _
      omega
  rintro ⟨rfl | rfl | first, second⟩
  · exact apart (.inl rfl)
  · exact apart' second
  · obtain rfl | rfl | second := second
    · exact apart' (.inl rfl)
    · exact apart (.inr (.inr first))
    · rw [String.toList_append] at first second
      obtain starts | starts := List.prefix_or_prefix_of_prefix first second
      · exact apart (within starts)
      · exact apart' (within starts)

/-- A selection's test is what is under its URI exactly when no character of the URI is special in a pattern, and only
then does it keep apart from the others. -/
theorem takes_what_is_under (uri : String) :
    ((∀ (o : PgOutbox) (key : PositionKey) (row : Row), key.uri = uri →
        (o.Covers key row ↔ o.slotOf row.uri = key.slot ∧ Under uri row.uri)) ↔ Literally uri) ∧
      (∀ rowUri, selectedByServer uri rowUri = selected uri rowUri) ∧
      (Literally uri → ∀ other, Literally other → ¬ Under uri other → ¬ Under other uri →
        ∀ rowUri, ¬ (selected uri rowUri = true ∧ selected other rowUri = true)) ∧
      (¬ Literally uri → ∃ other rowUri, ¬ Under uri other ∧ ¬ Under other uri ∧ selected uri rowUri = true ∧
        selected other rowUri = true) := by
  refine ⟨⟨fun taken => ?_, fun literally o key row same => ?_⟩, fun rowUri => by rw [selectedByServer_eq],
    fun literally other literally' apart apart' rowUri both => ?_, fun special => ?_⟩
  · by_contra special
    let o : PgOutbox := ⟨1, .new 2 1, 0, 0, fun _ => 0⟩
    let row : Row := ⟨⟨neighbour uri, [], .null⟩, "", 1, 1⟩
    have covers : o.Covers ⟨"", uri, o.slotOf row.uri⟩ row := ⟨rfl, selected_neighbour uri⟩
    exact not_under_neighbour special ((taken o ⟨"", uri, o.slotOf row.uri⟩ row rfl).mp covers).2
  · subst same
    exact and_congr_right fun _ => selected_iff_under literally
  · rw [selected_iff_under literally, selected_iff_under literally'] at both
    exact not_under_both apart apart' both
  · refine ⟨neighbour uri, neighbour uri, not_under_neighbour special, ?_, selected_neighbour uri,
      selected_iff.mpr (.inr (.inl rfl))⟩
    have count : (neighbour uri).toList.count '/' = uri.toList.count '/' + 1 := by
      rw [neighbour, String.toList_ofList]
      exact (sample_spec uri.toList).1
    refine not_under_of_count (by omega) fun nothing => ?_
    rw [nothing] at count
    cases count

/-- The `_` of a URI matches any character, so a row is taken with its neighbour's. -/
theorem neighbour_taken : selected "kafka://a_b" "kafka://axb/1" = true ∧ ¬ Under "kafka://a_b" "kafka://axb/1" ∧
    selected "kafka://axb" "kafka://axb/1" = true ∧ ¬ Under "kafka://a_b" "kafka://axb" ∧
    ¬ Under "kafka://axb" "kafka://a_b" := by
  decide

end AsceticDdd.Outbox
