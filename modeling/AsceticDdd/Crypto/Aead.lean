import AsceticDdd.Text.Code

/-!
# Authenticated encryption with associated data

An ideal cipher opens what it sealed, under the key, the nonce and the associated data it was sealed under, and
nothing else; and what it sealed is of one key and one associated data.
-/

namespace AsceticDdd.Crypto

open Text

abbrev Octets := List UInt8

structure Aead where
  encrypt : (key nonce data plain : Octets) → Option Octets
  decrypt : (key nonce data sealed : Octets) → Option Octets
  maxPlain : Nat
  maxData : Nat
  tagSize : Nat
  seals : ∀ key nonce data plain, plain.length ≤ maxPlain → data.length ≤ maxData →
    ∃ sealed, encrypt key nonce data plain = some sealed
  tagged : ∀ {key nonce data plain sealed}, encrypt key nonce data plain = some sealed → tagSize ≤ sealed.length
  opens_iff : ∀ {key nonce data plain sealed},
    decrypt key nonce data sealed = some plain ↔ encrypt key nonce data plain = some sealed
  apart : ∀ {key nonce data plain key' nonce' data' plain' sealed}, encrypt key nonce data plain = some sealed →
    encrypt key' nonce' data' plain' = some sealed → key = key' ∧ data = data'

namespace Aead

theorem never_opens (aead : Aead) {key nonce data plain key' nonce' data' sealed : Octets}
    (sealing : aead.encrypt key nonce data plain = some sealed) (other : key ≠ key' ∨ data ≠ data') :
    aead.decrypt key' nonce' data' sealed = none := by
  cases opened : aead.decrypt key' nonce' data' sealed with
  | none => rfl
  | some plain' =>
    obtain ⟨keys, datas⟩ := aead.apart sealing (aead.opens_iff.mp opened)
    obtain other | other := other
    · exact absurd keys other
    · exact absurd datas other

/-- As many ones as there are bytes, a zero, and the bytes. -/
def frame (bytes : Octets) : Octets := List.replicate bytes.length 1 ++ 0 :: bytes

theorem frame_isCode : IsCode frame where
  nonempty bytes := List.append_ne_nil_of_right_ne_nil _ (List.cons_ne_nil _ _)
  cancel {a b s t} same := by
    have ones : ∀ n, (0 : UInt8) ∉ List.replicate n 1 := fun n h => absurd (List.eq_of_mem_replicate h) (by decide)
    rw [frame, frame, List.append_assoc, List.append_assoc, List.cons_append, List.cons_append] at same
    obtain ⟨counts, rest⟩ := append_stop (ones _) (ones _) same
    have lengths : a.length = b.length := by
      have counted := congrArg List.length counts
      rwa [List.length_replicate, List.length_replicate] at counted
    exact List.append_inj rest lengths

/-- A key, a nonce and associated data before what is sealed, and as many bytes as a tag has. -/
def header (tagSize : Nat) (key nonce data : Octets) : Octets :=
  List.replicate tagSize 0 ++ (frame key ++ (frame nonce ++ frame data))

theorem header_cancel {tagSize : Nat} {key nonce data key' nonce' data' s t : Octets}
    (same : header tagSize key nonce data ++ s = header tagSize key' nonce' data' ++ t) :
    key = key' ∧ nonce = nonce' ∧ data = data' ∧ s = t := by
  simp only [header, List.append_assoc] at same
  obtain ⟨rfl, afterKey⟩ := frame_isCode.cancel (List.append_cancel_left same)
  obtain ⟨rfl, afterNonce⟩ := frame_isCode.cancel afterKey
  obtain ⟨rfl, rest⟩ := frame_isCode.cancel afterNonce
  exact ⟨rfl, rfl, rfl, rest⟩

/-- An ideal cipher, of what it is sealed under in the clear. -/
def framed (maxPlain maxData tagSize : Nat) : Aead where
  encrypt key nonce data plain :=
    if plain.length ≤ maxPlain ∧ data.length ≤ maxData then some (header tagSize key nonce data ++ plain) else none
  decrypt key nonce data sealed :=
    let plain := sealed.drop (header tagSize key nonce data).length
    if plain.length ≤ maxPlain ∧ data.length ≤ maxData ∧ header tagSize key nonce data ++ plain = sealed then some plain
    else none
  maxPlain := maxPlain
  maxData := maxData
  tagSize := tagSize
  seals key nonce data plain short few := ⟨_, if_pos ⟨short, few⟩⟩
  tagged h := by
    cases (Option.ite_none_right_eq_some.mp h).2
    simp only [header, List.length_append, List.length_replicate]
    omega
  opens_iff {key nonce data plain sealed} := by
    simp only [Option.ite_none_right_eq_some, Option.some.injEq]
    constructor
    · rintro ⟨⟨short, few, whole⟩, rfl⟩
      exact ⟨⟨short, few⟩, whole⟩
    · rintro ⟨⟨short, few⟩, rfl⟩
      rw [List.drop_left]
      exact ⟨⟨short, few, rfl⟩, rfl⟩
  apart h h' := by
    cases (Option.ite_none_right_eq_some.mp h).2
    obtain ⟨keys, _, datas, _⟩ := header_cancel (Option.some.inj (Option.ite_none_right_eq_some.mp h').2)
    exact ⟨keys.symm, datas.symm⟩

end Aead

end AsceticDdd.Crypto
