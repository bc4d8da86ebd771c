import Netcode.Sim.Box

/-!
# Inputs on the wire

An input goes over the wire as the tick that the sender has applied and the bits
of its two floats. A buffer is read from the front, so that whatever is long
enough is some input and its tail is not looked at.
-/

namespace Netcode.Sim

open Netcode.Library

/-- The memory of an input, the two floats as their bits. -/
def encodeInput (input : Input UInt32) : Bytes :=
  encodeLE 4 input.lastReceivedTick.toNat ++
    (encodeLE 4 input.dx.toNat ++ encodeLE 4 input.dy.toNat)

def Input.ofBits (input : Input UInt32) : Input Extended where
  dx := Extended.ofBits input.dx
  dy := Extended.ofBits input.dy
  lastReceivedTick := input.lastReceivedTick

def wordAt (bytes : Bytes) (off : ℕ) : UInt32 :=
  UInt32.ofNat (decodeLE ((bytes.drop off).take 4))

theorem wordAt_append (before : Bytes) {off : ℕ} (hoff : before.length = off) (v : UInt32)
    (after : Bytes) : wordAt (before ++ (encodeLE 4 v.toNat ++ after)) off = v := by
  have hdrop : (before ++ (encodeLE 4 v.toNat ++ after)).drop off = encodeLE 4 v.toNat ++ after :=
    List.drop_left' hoff
  have htake : (encodeLE 4 v.toNat ++ after).take 4 = encodeLE 4 v.toNat :=
    List.take_left' (length_encodeLE 4 _)
  have hvalue : v.toNat % 256 ^ 4 = v.toNat := Nat.mod_eq_of_lt v.toNat_lt
  rw [wordAt, hdrop, htake, decodeLE_encodeLE, hvalue, UInt32.ofNat_toNat]

theorem encodeLE_wordAt {bytes : Bytes} {off : ℕ} (h : off + 4 ≤ bytes.length) :
    encodeLE 4 (wordAt bytes off).toNat = (bytes.drop off).take 4 := by
  have hlen : ((bytes.drop off).take 4).length = 4 := by
    rw [List.length_take, List.length_drop]
    omega
  have hlt := decodeLE_lt ((bytes.drop off).take 4)
  have hword := encodeLE_decodeLE ((bytes.drop off).take 4)
  rw [hlen] at hlt hword
  have hvalue : (wordAt bytes off).toNat = decodeLE ((bytes.drop off).take 4) := by
    rw [wordAt, UInt32.toNat_ofNat']
    exact Nat.mod_eq_of_lt hlt
  rw [hvalue]
  exact hword

@[simp] theorem length_encodeInput (input : Input UInt32) : (encodeInput input).length = 12 := by
  simp only [encodeInput, List.length_append, length_encodeLE]

theorem decodeInput_eq_none_iff (bytes : Bytes) :
    decodeInput bytes = none ↔ bytes.length < 12 := by
  rw [decodeInput]
  split_ifs with hshort <;> simp [hshort]

theorem wordAt_encodeInput (input : Input UInt32) (rest : Bytes) :
    wordAt (encodeInput input ++ rest) 0 = input.lastReceivedTick ∧
      wordAt (encodeInput input ++ rest) 4 = input.dx ∧
      wordAt (encodeInput input ++ rest) 8 = input.dy := by
  rw [encodeInput, List.append_assoc]
  refine ⟨wordAt_append [] rfl _ _, ?_, ?_⟩
  · rw [List.append_assoc]
    exact wordAt_append _ (length_encodeLE 4 _) _ _
  · rw [List.append_assoc, ← List.append_assoc]
    exact wordAt_append _ (by simp only [List.length_append, length_encodeLE]) _ _

theorem decodeInput_encodeInput_append (input : Input UInt32) (rest : Bytes) :
    decodeInput (encodeInput input ++ rest) = some input.ofBits := by
  have hlong : ¬ (encodeInput input ++ rest).length < 12 := by
    rw [List.length_append, length_encodeInput]
    omega
  obtain ⟨htick, hdx, hdy⟩ := wordAt_encodeInput input rest
  rw [decodeInput, if_neg hlong]
  exact congrArg some (congr (congr (congrArg Input.mk (congrArg Extended.ofBits hdx))
    (congrArg Extended.ofBits hdy)) htick)

theorem encodeInput_injective : Function.Injective encodeInput := by
  intro a b h
  obtain ⟨htick, hdx, hdy⟩ := wordAt_encodeInput a []
  obtain ⟨htick', hdx', hdy'⟩ := wordAt_encodeInput b []
  rw [h] at htick hdx hdy
  cases a
  cases b
  simp only at htick hdx hdy htick' hdx' hdy'
  rw [← htick, ← hdx, ← hdy, htick', hdx', hdy']

theorem decodeInput_encodeInput (input : Input UInt32) :
    decodeInput (encodeInput input) = some input.ofBits := by
  have h := decodeInput_encodeInput_append input []
  rwa [List.append_nil] at h

theorem eq_encodeInput_append {bytes : Bytes} (h : 12 ≤ bytes.length) :
    bytes = encodeInput ⟨wordAt bytes 4, wordAt bytes 8, wordAt bytes 0⟩ ++ bytes.drop 12 := by
  have hfront : bytes.take 12 = encodeInput ⟨wordAt bytes 4, wordAt bytes 8, wordAt bytes 0⟩ := by
    simp only [encodeInput]
    rw [encodeLE_wordAt (by omega), encodeLE_wordAt (by omega), encodeLE_wordAt (by omega),
      List.drop_zero, ← List.append_assoc, ← List.take_add, ← List.take_add]
  rw [← hfront, List.take_append_drop]

/-- Encoding and decoding are inverse to each other on the first twelve bytes, for all
bit patterns of the floats, and a shorter buffer is rejected. -/
theorem input_codec :
    (∀ input rest, decodeInput (encodeInput input ++ rest) = some input.ofBits) ∧
      (∀ bytes, decodeInput bytes = none ↔ bytes.length < 12) ∧
      (∀ bytes out, decodeInput bytes = some out →
        ∃ input rest, bytes = encodeInput input ++ rest ∧ out = input.ofBits) ∧
      Function.Injective encodeInput := by
  refine ⟨decodeInput_encodeInput_append, decodeInput_eq_none_iff, fun bytes out h => ?_,
    encodeInput_injective⟩
  have hlong : ¬ bytes.length < 12 := by
    rw [← decodeInput_eq_none_iff, h]
    exact Option.some_ne_none out
  have heq := eq_encodeInput_append (not_lt.mp hlong)
  refine ⟨_, _, heq, ?_⟩
  rw [heq, decodeInput_encodeInput_append] at h
  exact (Option.some.inj h).symm

end Netcode.Sim
