import Mathlib.Data.List.Basic
import Mathlib.Data.Nat.Bitwise
import Mathlib.Tactic.Ring
import Netcode.Library.Bytes

/-!
# Bit strings, most significant bit first

A field of `n` bits is written as the list `bits n v` of the low `n` bits of its
value, and a buffer is read as the list `bitsOf` of the bits of its bytes. What a
list of bits stands for is `valueOf`, which takes `bits n v` back to `v` modulo
`2 ^ n`.
-/

namespace Netcode.Library

def bits : ℕ → ℕ → List Bool
  | 0, _ => []
  | n + 1, v => v.testBit n :: bits n v

def valueStep (r : ℕ) (b : Bool) : ℕ := 2 * r + b.toNat

def valueOf (bs : List Bool) : ℕ := bs.foldl valueStep 0

def bitsOf (bytes : Bytes) : List Bool := bytes.flatMap fun b => bits 8 b.toNat

variable {n v : ℕ}

@[simp] theorem length_bits (n v : ℕ) : (bits n v).length = n := by
  induction n with
  | zero => rfl
  | succ n ih => simp only [bits, List.length_cons, ih]

theorem bits_add (m n v : ℕ) : bits (m + n) v = bits m (v >>> n) ++ bits n v := by
  induction m with
  | zero => simp only [bits, Nat.zero_add, List.nil_append]
  | succ m ih =>
    rw [Nat.succ_add, bits, bits, ih, Nat.testBit_shiftRight, Nat.add_comm n m]
    rfl

theorem bits_congr {u : ℕ} (h : ∀ i < n, u.testBit i = v.testBit i) : bits n u = bits n v := by
  induction n with
  | zero => rfl
  | succ n ih =>
    simp only [bits]
    rw [h n (Nat.lt_succ_self n), ih fun i hi => h i (Nat.lt_succ_of_lt hi)]

theorem bits_mod (n v : ℕ) : bits n (v % 2 ^ n) = bits n v := by
  apply bits_congr
  intro i hi
  simp only [Nat.testBit_mod_two_pow, hi, decide_true, Bool.true_and]

theorem bits_zero (n : ℕ) : bits n 0 = List.replicate n false := by
  induction n with
  | zero => rfl
  | succ n ih => simp only [bits, Nat.zero_testBit, ih, List.replicate_succ]

theorem bits_shiftLeft (m n v : ℕ) :
    bits (n + m) (v <<< m) = bits n v ++ List.replicate m false := by
  rw [bits_add, ← bits_zero]
  congr 1
  · apply bits_congr
    intro i _
    simp
  · apply bits_congr
    intro i hi
    simp [Nat.testBit_shiftLeft, hi]

theorem foldl_valueStep_bits (n v r : ℕ) :
    (bits n v).foldl valueStep r = r * 2 ^ n + v % 2 ^ n := by
  induction n generalizing r with
  | zero => simp [bits, Nat.mod_one]
  | succ n ih =>
    rw [bits, List.foldl_cons, ih, valueStep, Nat.toNat_testBit, Nat.mod_pow_succ, pow_succ]
    ring

theorem valueOf_bits (n v : ℕ) : valueOf (bits n v) = v % 2 ^ n := by
  rw [valueOf, foldl_valueStep_bits, Nat.zero_mul, Nat.zero_add]

theorem bitsOf_append (a b : Bytes) : bitsOf (a ++ b) = bitsOf a ++ bitsOf b :=
  List.flatMap_append

theorem bitsOf_cons (b : UInt8) (bytes : Bytes) :
    bitsOf (b :: bytes) = bits 8 b.toNat ++ bitsOf bytes := rfl

@[simp] theorem length_bitsOf (bytes : Bytes) : (bitsOf bytes).length = 8 * bytes.length := by
  induction bytes with
  | nil => rfl
  | cons b bytes ih =>
    rw [bitsOf_cons, List.length_append, length_bits, ih, List.length_cons]
    omega

theorem bits_getElem {i : ℕ} (hi : i < (bits n v).length) :
    (bits n v)[i] = v.testBit (n - 1 - i) := by
  induction n generalizing i with
  | zero => exact absurd hi (Nat.not_lt_zero i)
  | succ n ih =>
    cases i with
    | zero => rfl
    | succ i =>
      simp only [bits, List.getElem_cons_succ]
      rw [ih]
      congr 1
      omega

theorem bitsOf_getElem {bytes : Bytes} {i : ℕ} (hi : i < (bitsOf bytes).length)
    (hbyte : i / 8 < bytes.length) :
    (bitsOf bytes)[i] = bytes[i / 8].toNat.testBit (7 - i % 8) := by
  induction bytes generalizing i with
  | nil => exact absurd hbyte (Nat.not_lt_zero _)
  | cons b bytes ih =>
    simp only [bitsOf_cons]
    rcases Nat.lt_or_ge i 8 with hlt | hge
    · rw [List.getElem_append_left (by rwa [length_bits]), bits_getElem]
      simp only [Nat.div_eq_of_lt hlt, Nat.mod_eq_of_lt hlt, List.getElem_cons_zero]
    · obtain ⟨j, rfl⟩ := Nat.exists_eq_add_of_le hge
      have hdiv : (8 + j) / 8 = j / 8 + 1 := by omega
      have hmod : (8 + j) % 8 = j % 8 := by omega
      rw [List.getElem_append_right (by simp)]
      simp only [length_bits, Nat.add_sub_cancel_left, hdiv, hmod, List.getElem_cons_succ]
      apply ih

def field (bytes : Bytes) (pos n : ℕ) : ℕ := valueOf (((bitsOf bytes).drop pos).take n)

theorem foldl_valueStep_lt (bs : List Bool) (r : ℕ) :
    bs.foldl valueStep r < (r + 1) * 2 ^ bs.length := by
  induction bs generalizing r with
  | nil => simp
  | cons b bs ih =>
    have hstep : valueStep r b + 1 ≤ 2 * (r + 1) := by
      have hbit := Bool.toNat_lt b
      rw [valueStep]
      omega
    calc bs.foldl valueStep (valueStep r b)
        < (valueStep r b + 1) * 2 ^ bs.length := ih _
      _ ≤ 2 * (r + 1) * 2 ^ bs.length := Nat.mul_le_mul_right _ hstep
      _ = (r + 1) * 2 ^ (b :: bs).length := by
        rw [List.length_cons, pow_succ]
        ring

theorem field_lt (bytes : Bytes) (pos n : ℕ) : field bytes pos n < 2 ^ n := by
  have hlt := foldl_valueStep_lt (((bitsOf bytes).drop pos).take n) 0
  rw [Nat.zero_add, Nat.one_mul] at hlt
  exact hlt.trans_le (Nat.pow_le_pow_right (by decide) (List.length_take_le _ _))

theorem field_of_prefix {a b : Bytes} {pos : ℕ} (h : a <+: b) (hfits : pos + n ≤ 8 * a.length) :
    field a pos n = field b pos n := by
  obtain ⟨c, rfl⟩ := h
  rw [field, field, bitsOf_append, List.drop_append_of_le_length (by rw [length_bitsOf]; omega),
    List.take_append_of_le_length (by rw [List.length_drop, length_bitsOf]; omega)]

theorem field_of_bits {bytes : Bytes} {front tail : List Bool} {pos : ℕ}
    (h : bitsOf bytes = front ++ (bits n v ++ tail)) (hpos : front.length = pos) :
    field bytes pos n = v % 2 ^ n := by
  rw [field, h, List.drop_left' hpos, List.take_left' (length_bits n v), valueOf_bits]

end Netcode.Library
