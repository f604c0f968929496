import AsceticDdd.Bus.Message
import AsceticDdd.Control.Except

/-!
# A stage of the wire

A message goes out through its stages in order, and comes in through the same ones in reverse.
-/

namespace AsceticDdd.Bus

variable {ε : Type}

structure Stage (ε : Type) where
  outbound : Message → Except ε Message
  inbound : Message → Except ε Message

namespace Stage

variable (stage : Stage ε) (stages : List (Stage ε)) (m : Message)

/-- Through every stage, first to last. -/
def outboundAll : Except ε Message := stages.foldlM (fun m stage => stage.outbound m) m

/-- Back through every stage, last to first. -/
def inboundAll : Except ε Message := stages.reverse.foldlM (fun m stage => stage.inbound m) m

theorem outboundAll_cons : outboundAll (stage :: stages) m = stage.outbound m >>= outboundAll stages :=
  List.foldlM_cons

theorem inboundAll_cons : inboundAll (stage :: stages) m = inboundAll stages m >>= stage.inbound := by
  rw [inboundAll, List.reverse_cons, List.foldlM_append]
  exact bind_congr fun m => List.foldlM_cons.trans (bind_pure _)

variable {stage stages m} {m' : Message}

theorem outboundAll_single : outboundAll [stage] m = stage.outbound m :=
  (outboundAll_cons stage [] m).trans (bind_pure _)

theorem inboundAll_single : inboundAll [stage] m = stage.inbound m := inboundAll_cons stage [] m

/-- What the last of two stages lets in the one before it refuses. -/
theorem inboundAll_ne_ok (Open : Message → Prop)
    (closes : ∀ stage ∈ stages, ∀ m m', stage.inbound m = .ok m' → ¬ Open m')
    (opens : ∀ stage ∈ stages, ∀ m m', stage.inbound m = .ok m' → Open m) (many : 2 ≤ stages.length) :
    inboundAll stages m ≠ .ok m' := by
  rcases stages with _ | ⟨first, _ | ⟨second, rest⟩⟩
  · cases many
  · exact absurd many (Nat.not_succ_le_self 1)
  · rw [inboundAll_cons, inboundAll_cons]
    intro h
    obtain ⟨between, hbetween, hfirst⟩ := Control.bind_eq_ok.mp h
    obtain ⟨before, _, hsecond⟩ := Control.bind_eq_ok.mp hbetween
    exact closes second (List.mem_cons_of_mem _ List.mem_cons_self) before between hsecond
      (opens first List.mem_cons_self between m' hfirst)

end Stage

end AsceticDdd.Bus
