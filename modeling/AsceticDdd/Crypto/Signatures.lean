import AsceticDdd.Crypto.Aead

/-!
# Signatures

A public half is derived from a private one, is read back in its one form, and verifies what the private half signed.
-/

namespace AsceticDdd.Crypto

structure Signatures where
  publicOf : (privateHalf : Octets) → Option Octets
  /-- A public half in its one form. -/
  parse : Octets → Option Octets
  isSignature : Octets → Bool
  sign : (privateHalf message : Octets) → Octets
  verifies : (publicHalf message signature : Octets) → Bool
  derived : ∀ {privateHalf publicHalf}, publicOf privateHalf = some publicHalf → parse publicHalf = some publicHalf
  parsed : ∀ {bytes publicHalf}, parse bytes = some publicHalf → parse publicHalf = some publicHalf
  signs : ∀ {privateHalf publicHalf} message, publicOf privateHalf = some publicHalf →
    isSignature (sign privateHalf message) ∧ verifies publicHalf message (sign privateHalf message)

namespace Signatures

/-- As many bytes of a text, filled up with zeros. -/
def fill (size : Nat) (bytes : Octets) : Octets := (bytes ++ List.replicate size 0).take size

/-- Halves of one form and messages of few bytes, signed in the clear. -/
def clear : Signatures where
  publicOf privateHalf := if privateHalf.length = 32 then some privateHalf else none
  parse bytes := if bytes.length = 32 then some bytes else none
  isSignature bytes := bytes.length = 64
  sign privateHalf message := fill 32 privateHalf ++ fill 32 message
  verifies publicHalf message signature := fill 32 publicHalf ++ fill 32 message = signature
  derived h := by
    obtain ⟨size, h⟩ := Option.ite_none_right_eq_some.mp h
    cases h
    exact if_pos size
  parsed h := by
    obtain ⟨size, h⟩ := Option.ite_none_right_eq_some.mp h
    cases h
    exact if_pos size
  signs message h := by
    obtain ⟨_, h⟩ := Option.ite_none_right_eq_some.mp h
    cases h
    refine ⟨decide_eq_true ?_, decide_eq_true rfl⟩
    simp only [fill, List.length_append, List.length_take, List.length_replicate]
    omega

end Signatures

end AsceticDdd.Crypto
