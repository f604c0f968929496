import AsceticDdd.Postgres.Json

/-!
# One identity, one row, one lock

A row is found by its columns, its waiters by an object built of its identity, and its lock by the hash of that
object's text.
-/

namespace AsceticDdd.Inbox

open Postgres

/-- A message that must be processed before another, as a process holds it. -/
structure Identity where
  tenantId : String
  streamType : String
  streamId : Json Numeral
  streamPosition : Int

/-- A row of the table: its identity, as the columns have it, and where it stands. -/
structure Stored where
  tenantId : String
  streamType : String
  streamId : Json Numeric
  streamPosition : Int
  processedPosition : Option Nat
  waitingFor : Option (Json Numeric)

namespace Identity

/-- A row's identity as the `jsonb` a waiting row names it by. -/
def identityJson (i : Identity) : Json Numeral :=
  .object [("stream_id", i.streamId),
    ("stream_position", .number ⟨i.streamPosition < 0, i.streamPosition.natAbs, 0, 0⟩),
    ("stream_type", .string i.streamType), ("tenant_id", .string i.tenantId)]

/-- The row is the one with the identity: the columns of the primary key. -/
def IsOf (i : Identity) (row : Stored) : Prop :=
  row.tenantId = i.tenantId ∧ row.streamType = i.streamType ∧ Json.Same row.streamId i.streamId.jsonb ∧
    row.streamPosition = i.streamPosition

instance (i : Identity) (row : Stored) : Decidable (i.IsOf row) := inferInstanceAs (Decidable (_ ∧ _))

/-- The identity's row, as it arrived or as it stands now. -/
def stored (i : Identity) (processedPosition : Option Nat) (waitingFor : Option (Json Numeric)) : Stored :=
  ⟨i.tenantId, i.streamType, i.streamId.jsonb, i.streamPosition, processedPosition, waitingFor⟩

/-- The two are one to `waiting_for`. -/
def Same (a b : Identity) : Prop := Json.Same a.identityJson.jsonb b.identityJson.jsonb

instance (a b : Identity) : Decidable (a.Same b) := inferInstanceAs (Decidable (Json.Same _ _))

/-- The row waits for the identity. -/
def AwaitedBy (i : Identity) (row : Stored) : Prop :=
  ∃ named ∈ row.waitingFor, Json.Same named i.identityJson.jsonb

instance (i : Identity) (row : Stored) : Decidable (i.AwaitedBy row) := inferInstanceAs (Decidable (∃ _ ∈ _, _))

end Identity

section Statements

variable (rows : List Stored)

/-- The keys of the advisory lock: of the table, and of the identity. -/
def lockIdentity (hashtext : List Char → BitVec 32) (quote : String → List Char) (table : List Char) (i : Identity) :
    BitVec 32 × BitVec 32 :=
  (hashtext table, hashtext (i.identityJson.jsonb.text quote))

def isProcessed (dependency : Identity) : Bool :=
  rows.any fun row => decide (dependency.IsOf row) && row.processedPosition.isSome

def setWaitingUnlessProcessed (message dependency : Identity) : List Stored :=
  rows.map fun row =>
    if message.IsOf row && !rows.any fun d => decide (dependency.IsOf d) && d.processedPosition.isSome then
      { row with waitingFor := some dependency.identityJson.jsonb }
    else row

/-- The mark of `message`'s row, and the rows that waited for it put back. -/
def markProcessed (message : Identity) (position : Nat) : List Stored :=
  rows.map fun row =>
    if message.IsOf row then { row with processedPosition := some position }
    else if message.AwaitedBy row then { row with waitingFor := none }
    else row

end Statements

variable {a b : Identity}

namespace Identity

theorem identityJson_jsonb (i : Identity) : i.identityJson.jsonb =
    .object [("stream_id", i.streamId.jsonb), ("tenant_id", .string i.tenantId), ("stream_type", .string i.streamType),
      ("stream_position", .number ⟨i.streamPosition, 0⟩)] := by
  have position : (Numeral.mk (i.streamPosition < 0) i.streamPosition.natAbs 0 0).numeric = ⟨i.streamPosition, 0⟩ := by
    have digits : i.streamPosition.natAbs * 10 ^ 0 = i.streamPosition.natAbs := Nat.mul_one _
    have signed : (if i.streamPosition < 0 then -(i.streamPosition.natAbs : Int) else i.streamPosition.natAbs) =
        i.streamPosition := by
      split <;> omega
    simp only [Numeral.numeric, decide_eq_true_eq]
    change Numeric.mk (if i.streamPosition < 0 then -((i.streamPosition.natAbs * 10 ^ 0 : Nat) : Int)
      else (i.streamPosition.natAbs * 10 ^ 0 : Nat)) 0 = _
    rw [digits, signed]
  simp only [identityJson, Json.jsonb, Json.jsonbMembers, position]
  rfl

/-- What the columns compare is what the object has. -/
theorem same_iff : a.Same b ↔ a.tenantId = b.tenantId ∧ a.streamType = b.streamType ∧
    Json.Same a.streamId.jsonb b.streamId.jsonb ∧ a.streamPosition = b.streamPosition := by
  simp only [Same, identityJson_jsonb, Json.Same, Json.Related, Json.RelatedMembers, Numeric.Same, true_and, and_true,
    Int.pow_zero, Int.mul_one]
  constructor
  · rintro ⟨stream, tenant, type, position⟩
    exact ⟨tenant, type, stream, position⟩
  · rintro ⟨tenant, type, stream, position⟩
    exact ⟨stream, tenant, type, position⟩

theorem isOf_stored_iff {processed : Option Nat} {waiting : Option (Json Numeric)} :
    b.IsOf (a.stored processed waiting) ↔ a.Same b := same_iff.symm

/-- The numbers that may differ are those of the stream's id. -/
theorem alike_iff (same : a.Same b) :
    Json.Alike a.identityJson.jsonb b.identityJson.jsonb ↔ Json.Alike a.streamId.jsonb b.streamId.jsonb := by
  obtain ⟨tenant, type, _, position⟩ := same_iff.mp same
  simp only [identityJson_jsonb, Json.Alike, Json.Related, Json.RelatedMembers, true_and, and_true, tenant, type]

/-- Identities that are one are of the same row, and awaited by the same rows. -/
theorem isOf_iff (same : a.Same b) (row : Stored) : a.IsOf row ↔ b.IsOf row := by
  obtain ⟨tenant, type, stream, position⟩ := same_iff.mp same
  rw [IsOf, IsOf, tenant, type, position]
  exact and_congr_right fun _ => and_congr_right fun _ =>
    and_congr_left fun _ => ⟨fun h => h.trans stream, fun h => h.trans stream.symm⟩

theorem awaitedBy_iff (same : a.Same b) (row : Stored) : a.AwaitedBy row ↔ b.AwaitedBy row :=
  exists_congr fun _ => and_congr_right fun _ => ⟨fun h => h.trans same, fun h => h.trans (Json.Same.symm same)⟩

end Identity

theorem isProcessed_eq (same : a.Same b) (rows : List Stored) : isProcessed rows a = isProcessed rows b := by
  simp only [isProcessed, Identity.isOf_iff same]

/-- Under any hash, two identities that are one take the same lock exactly when the numbers of their stream ids have
as many digits after the point. Their row is one to each statement, and so are the rows that wait for it. -/
theorem same_lock_iff (a b : Identity) :
    (∀ processed waiting, b.IsOf (a.stored processed waiting) ↔ a.Same b) ∧
      (∀ row, row.waitingFor = some a.identityJson.jsonb → (b.AwaitedBy row ↔ a.Same b)) ∧
      (a.Same b →
        ((∀ hashtext quote table, lockIdentity hashtext quote table a = lockIdentity hashtext quote table b) ↔
          Json.Alike a.streamId.jsonb b.streamId.jsonb) ∧
        (∀ rows, isProcessed rows a = isProcessed rows b) ∧
        (∀ rows message, setWaitingUnlessProcessed rows message b = rows.map fun row =>
          if message.IsOf row && !isProcessed rows a then { row with waitingFor := some b.identityJson.jsonb } else row) ∧
        ∀ rows position, markProcessed rows a position = markProcessed rows b position) := by
  refine ⟨fun _ _ => Identity.isOf_stored_iff, fun row waits => ?_, fun same => ⟨?_, isProcessed_eq same, ?_, ?_⟩⟩
  · simp only [Identity.AwaitedBy, waits, Option.mem_some_iff, exists_eq_left']
    rfl
  · rw [← Identity.alike_iff same]
    constructor
    · intro locks
      by_contra apart
      have texts : b.identityJson.jsonb.text String.toList ≠ a.identityJson.jsonb.text String.toList :=
        fun texts => apart ((Json.text_eq_iff same).mp texts.symm)
      have keys := congrArg Prod.snd
        (locks (fun text => if text = a.identityJson.jsonb.text String.toList then 1 else 0) String.toList [])
      simp [lockIdentity, texts] at keys
    · intro alike hashtext quote table
      rw [lockIdentity, lockIdentity, (Json.text_eq_iff same).mpr alike]
  · intro rows message
    rw [isProcessed_eq same]
    rfl
  · intro rows position
    simp only [markProcessed, Identity.isOf_iff same, Identity.awaitedBy_iff same]

def ofStream (numeral : Numeral) : Identity := ⟨"t", "orders.Order", .number numeral, 3⟩

theorem same_lock_of_seven :
    lockIdentity (fun text => text.length) String.toList [] (ofStream ⟨false, 7, 0, 0⟩) =
      lockIdentity (fun text => text.length) String.toList [] (ofStream ⟨false, 7, 1, 1⟩) := by
  have same : (ofStream ⟨false, 7, 0, 0⟩).Same (ofStream ⟨false, 7, 1, 1⟩) := by decide
  exact ((same_lock_iff _ _).2.2 same).1.mpr (by decide) _ _ _

/-- `1` and `1.0` are one row, and their locks are apart. -/
theorem one_and_one_point_zero :
    (ofStream ⟨false, 1, 0, 0⟩).Same (ofStream ⟨false, 10, 1, 0⟩) ∧
      lockIdentity (fun text => text.length) String.toList [] (ofStream ⟨false, 1, 0, 0⟩) ≠
        lockIdentity (fun text => text.length) String.toList [] (ofStream ⟨false, 10, 1, 0⟩) := by
  decide

end AsceticDdd.Inbox
