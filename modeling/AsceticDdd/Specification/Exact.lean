import AsceticDdd.Specification.Compute

/-!
# Integer and temporal arithmetic is exact or refused

And the values of one kind are in a total order, the null and the floats apart.
-/

namespace AsceticDdd.Specification.Value

open Machine

/-- The operators of points in time and spans, on the integers. -/
def moments (op : Arithmetic) (left right : Value) : Option ((Int64 → Value) × Int) :=
  match left, op, right with
  | .timestamp l, .sub, .timestamp r => some (.interval, l.toInt - r.toInt)
  | .timestamp l, .add, .interval r => some (.timestamp, l.toInt + r.toInt)
  | .interval l, .add, .timestamp r => some (.timestamp, l.toInt + r.toInt)
  | .timestamp l, .sub, .interval r => some (.timestamp, l.toInt - r.toInt)
  | .interval l, .add, .interval r => some (.interval, l.toInt + r.toInt)
  | .interval l, .sub, .interval r => some (.interval, l.toInt - r.toInt)
  | _, _, _ => none

def Number (value : Value) : Prop := value.kind = "integer" ∨ value.kind = "float"

theorem measured_exact (wrap : Int64 → Value) (n : Int) : measured wrap (exact n) = some (exactly wrap n) :=
  congrArg some (fitting_exact wrap n)

theorem temporal_eq (op : Arithmetic) (left right : Value) :
    temporal op left right = (moments op left right).map fun result => exactly result.1 result.2 := by
  unfold moments
  split
  · exact (congrArg (measured _) (checkedSub_eq ..)).trans (measured_exact ..)
  · exact (congrArg (measured _) (checkedAdd_eq ..)).trans (measured_exact ..)
  · exact (congrArg (measured _) ((checkedAdd_eq ..).trans (congrArg exact (Int.add_comm ..)))).trans (measured_exact ..)
  · exact (congrArg (measured _) (checkedSub_eq ..)).trans (measured_exact ..)
  · exact (congrArg (measured _) (checkedAdd_eq ..)).trans (measured_exact ..)
  · exact (congrArg (measured _) (checkedSub_eq ..)).trans (measured_exact ..)
  · unfold temporal
    split <;> simp_all

theorem compute_temporal [FloatArithmetic] (op : Arithmetic) {left right : Value} (h : ¬ (left.Number ∧ right.Number)) :
    compute op left right =
      ((moments op left right).map fun result => exactly result.1 result.2).getD
        (.error (.unsupported (toString op) left.kind (some right.kind))) := by
  rw [← temporal_eq]
  unfold compute
  split
  · exact absurd ⟨.inl rfl, .inl rfl⟩ h
  · exact absurd ⟨.inr rfl, .inr rfl⟩ h
  · exact absurd ⟨.inl rfl, .inr rfl⟩ h
  · exact absurd ⟨.inr rfl, .inl rfl⟩ h
  · rfl

theorem negate_int (value : Int64) : negate (.int value) = exactly .int (-value.toInt) := by
  rw [negate, checkedNeg_eq, fitting_exact]

theorem negate_interval (micros : Int64) : negate (.interval micros) = exactly .interval (-micros.toInt) := by
  rw [negate, checkedNeg_eq, fitting_exact]

theorem exactly_tmod {left right : Int64} :
    exactly .int (left.toInt.tmod right.toInt) = .ok (.int (left % right)) := by
  have hfits : Fits (left.toInt.tmod right.toInt) := Int64.toInt_mod left right ▸ fits (left % right)
  rw [exactly, if_pos hfits, ← Int64.toInt_mod, Int64.ofInt_toInt]

variable [FloatArithmetic]

/-- The values of `P` are in a total order, that equality agrees with. -/
structure TotalOn (P : Value → Prop) : Prop where
  answers : ∀ a b, P a → P b → ∃ order, a.compare b = .ok order ∧ b.compare a = .ok order.swap ∧
    a.equals b = .ok order.isEq ∧ (order = .eq ↔ a = b)
  trans : ∀ a b c order order', P a → P b → P c → a.compare b = .ok order → order.isLE →
    b.compare c = .ok order' → order'.isLE → ∃ order'', a.compare c = .ok order'' ∧ order''.isLE

theorem TotalOn.mono {P Q : Value → Prop} (h : TotalOn Q) (hsub : ∀ v, P v → Q v) : TotalOn P where
  answers a b ha hb := h.answers a b (hsub a ha) (hsub b hb)
  trans a b c order order' ha hb hc := h.trans a b c order order' (hsub a ha) (hsub b hb) (hsub c hc)

theorem totalOn_range {α : Type} [Ord α] [Std.TransOrd α] [Std.LawfulEqOrd α] (make : α → Value)
    (hinjective : Function.Injective make)
    (hcompare : ∀ x y, (make x).compare (make y) = .ok (Ord.compare x y)) :
    TotalOn fun v => ∃ x, v = make x where
  answers := by
    rintro _ _ ⟨x, rfl⟩ ⟨y, rfl⟩
    refine ⟨Ord.compare x y, hcompare x y, ?_, ?_, ?_⟩
    · rw [hcompare, Std.OrientedOrd.eq_swap (a := y)]
    · rw [equals, hcompare]
      rfl
    · rw [Std.compare_eq_iff_eq]
      exact hinjective.eq_iff.symm
  trans := by
    rintro _ _ _ order order' ⟨x, rfl⟩ ⟨y, rfl⟩ ⟨z, rfl⟩ hxy hle hyz hle'
    rw [hcompare] at hxy hyz
    cases hxy
    cases hyz
    exact ⟨_, hcompare x z, Std.TransOrd.isLE_trans hle hle'⟩

theorem totalOn_kind (a : Value) (hnull : a.kind ≠ "null") (hfloat : a.kind ≠ "float") :
    TotalOn fun v => v.kind = a.kind := by
  cases a with
  | null => exact absurd rfl hnull
  | float x => exact absurd rfl hfloat
  | bool x =>
    refine (totalOn_range Value.bool (fun _ _ => bool.inj) fun _ _ => rfl).mono fun v hv => ?_
    cases v with
    | bool y => exact ⟨y, rfl⟩
    | _ => simp [kind] at hv
  | int x =>
    refine (totalOn_range Value.int (fun _ _ => int.inj) fun _ _ => rfl).mono fun v hv => ?_
    cases v with
    | int y => exact ⟨y, rfl⟩
    | _ => simp [kind] at hv
  | text x =>
    refine (totalOn_range Value.text (fun _ _ => text.inj) fun _ _ => rfl).mono fun v hv => ?_
    cases v with
    | text y => exact ⟨y, rfl⟩
    | _ => simp [kind] at hv
  | timestamp x =>
    refine (totalOn_range Value.timestamp (fun _ _ => timestamp.inj) fun _ _ => rfl).mono fun v hv => ?_
    cases v with
    | timestamp y => exact ⟨y, rfl⟩
    | _ => simp [kind] at hv
  | date x =>
    refine (totalOn_range Value.date (fun _ _ => date.inj) fun _ _ => rfl).mono fun v hv => ?_
    cases v with
    | date y => exact ⟨y, rfl⟩
    | _ => simp [kind] at hv
  | interval x =>
    refine (totalOn_range Value.interval (fun _ _ => interval.inj) fun _ _ => rfl).mono fun v hv => ?_
    cases v with
    | interval y => exact ⟨y, rfl⟩
    | _ => simp [kind] at hv
  | uuid x =>
    refine (totalOn_range Value.uuid (fun _ _ => uuid.inj) fun _ _ => rfl).mono fun v hv => ?_
    cases v with
    | uuid y => exact ⟨y, rfl⟩
    | _ => simp [kind] at hv

/-- Integer and temporal arithmetic is exact or refused, and the values of a kind other than null and
float are in a total order. -/
theorem arithmetic_exact :
    (∀ left right : Int64,
      compute .add (.int left) (.int right) = exactly .int (left.toInt + right.toInt) ∧
      compute .sub (.int left) (.int right) = exactly .int (left.toInt - right.toInt) ∧
      compute .mul (.int left) (.int right) = exactly .int (left.toInt * right.toInt) ∧
      compute .div (.int left) (.int right) =
        (if right = 0 then .error .divisionByZero else exactly .int (left.toInt.tdiv right.toInt)) ∧
      compute .mod (.int left) (.int right) =
        (if right = 0 then .error .divisionByZero else exactly .int (left.toInt.tmod right.toInt)) ∧
      (compute .shl (.int left) (.int right) =
        .ok (.int (Int64.ofInt (left.toInt * 2 ^ (right.toInt % 64).toNat)))) ∧
      compute .shr (.int left) (.int right) =
        .ok (.int (Int64.ofInt (left.toInt / 2 ^ (right.toInt % 64).toNat)))) ∧
    (∀ left right : Int64, right ≠ 0 → Fits (left.toInt.tmod right.toInt)) ∧
    (∀ op left right, ¬ (Number left ∧ Number right) →
      compute op left right =
        ((moments op left right).map fun result => exactly result.1 result.2).getD
          (.error (.unsupported (toString op) left.kind (some right.kind)))) ∧
    (∀ n : Int64, negate (.int n) = exactly .int (-n.toInt) ∧ negate (.interval n) = exactly .interval (-n.toInt)) ∧
    ∀ a : Value, a.kind ≠ "null" → a.kind ≠ "float" → TotalOn fun v => v.kind = a.kind := by
  refine ⟨fun left right => ⟨compute_add .., compute_sub .., compute_mul .., compute_div .., ?_, compute_shl ..,
    compute_shr ..⟩, fun left right _ => ?_, fun op left right h => compute_temporal op h,
    fun n => ⟨negate_int n, negate_interval n⟩, totalOn_kind⟩
  · rw [compute_mod]
    split
    · rfl
    · rw [exactly_tmod, ← Int64.toInt_mod, Int64.ofInt_toInt]
  · exact Int64.toInt_mod left right ▸ fits (left % right)

omit [FloatArithmetic] in
/-- Two nulls are of one kind, and in no order. -/
theorem null_unordered :
    ¬ ∀ (_ : FloatArithmetic) (a : Value), a.kind ≠ "float" → TotalOn fun v => v.kind = a.kind := by
  intro h
  let arithmetic : FloatArithmetic := ⟨fun x _ => x, fun x _ => x, fun x _ => x, fun x _ => x, fun _ => ⟨0⟩⟩
  have horder := h arithmetic .null (by decide)
  obtain ⟨_, hcompare, _⟩ := horder.answers .null .null rfl rfl
  cases hcompare

end AsceticDdd.Specification.Value
