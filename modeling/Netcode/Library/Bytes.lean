import Mathlib.Algebra.Group.Nat.Defs
import Mathlib.Data.List.Basic

/-!
# Little-endian numbers and pieces of byte strings

`encodeLE w n` writes `n` in `w` bytes, least significant first, and `takeLE`
takes a number of that width off the front of a string. `piece k xs i` is the
`i`-th of the consecutive pieces of length `k` into which `xs` falls.
-/

namespace Netcode.Library

abbrev Bytes := List UInt8

def encodeLE : ℕ → ℕ → Bytes
  | 0, _ => []
  | w + 1, n => UInt8.ofNat n :: encodeLE w (n / 256)

def decodeLE : Bytes → ℕ
  | [] => 0
  | b :: bs => b.toNat + 256 * decodeLE bs

def takeLE (w : ℕ) (bs : Bytes) : Option (ℕ × Bytes) :=
  if bs.length < w then none else some (decodeLE (bs.take w), bs.drop w)

@[simp] theorem length_encodeLE (w n : ℕ) : (encodeLE w n).length = w := by
  induction w generalizing n with
  | zero => rfl
  | succ w ih => simp only [encodeLE, List.length_cons, ih]

theorem decodeLE_encodeLE (w n : ℕ) : decodeLE (encodeLE w n) = n % 256 ^ w := by
  induction w generalizing n with
  | zero => simp only [encodeLE, decodeLE, Nat.pow_zero, Nat.mod_one]
  | succ w ih =>
    have hsplit : n % 256 ^ (w + 1) = n % 256 + 256 * (n / 256 % 256 ^ w) := by
      rw [Nat.pow_succ, Nat.mul_comm, Nat.mod_mul]
    simp only [encodeLE, decodeLE, ih, hsplit, UInt8.toNat_ofNat']

theorem takeLE_encodeLE (w n : ℕ) (rest : Bytes) :
    takeLE w (encodeLE w n ++ rest) = some (n % 256 ^ w, rest) := by
  have hlen : ¬ (encodeLE w n ++ rest).length < w := by
    simp only [List.length_append, length_encodeLE]
    omega
  have htake : (encodeLE w n ++ rest).take w = encodeLE w n := by
    simp only [List.take_append, length_encodeLE, Nat.sub_self, List.take_zero, List.append_nil]
    exact List.take_of_length_le (Nat.le_of_eq (length_encodeLE w n))
  have hdrop : (encodeLE w n ++ rest).drop w = rest := by
    simp only [List.drop_append, length_encodeLE, Nat.sub_self, List.drop_zero]
    rw [List.drop_of_length_le (Nat.le_of_eq (length_encodeLE w n)), List.nil_append]
  rw [takeLE, if_neg hlen, htake, hdrop, decodeLE_encodeLE]

theorem length_of_takeLE {w n : ℕ} {bs rest : Bytes} (h : takeLE w bs = some (n, rest)) :
    bs.length = w + rest.length := by
  rw [takeLE] at h
  split_ifs at h with hlen
  have hrest : bs.drop w = rest := congrArg Prod.snd (Option.some.inj h)
  rw [← hrest, List.length_drop]
  omega

theorem encodeLE_decodeLE (bs : Bytes) : encodeLE bs.length (decodeLE bs) = bs := by
  induction bs with
  | nil => rfl
  | cons b bs ih =>
    have hb := b.toNat_lt
    have hdiv : (b.toNat + 256 * decodeLE bs) / 256 = decodeLE bs := by omega
    have hlow : UInt8.ofNat (b.toNat + 256 * decodeLE bs) = b := by
      rw [← UInt8.toNat_inj, UInt8.toNat_ofNat']
      omega
    rw [List.length_cons, decodeLE, encodeLE, hdiv, ih, hlow]

theorem decodeLE_lt (bs : Bytes) : decodeLE bs < 256 ^ bs.length := by
  have hlt : decodeLE (encodeLE bs.length (decodeLE bs)) < 256 ^ bs.length := by
    rw [decodeLE_encodeLE]
    exact Nat.mod_lt _ (Nat.pow_pos (by omega))
  rwa [encodeLE_decodeLE] at hlt

theorem eq_of_takeLE {w n : ℕ} {bs rest : Bytes} (h : takeLE w bs = some (n, rest)) :
    bs = encodeLE w n ++ rest ∧ n < 256 ^ w := by
  rw [takeLE] at h
  split_ifs at h with hlen
  obtain ⟨rfl, rfl⟩ := Prod.mk.inj (Option.some.inj h)
  have htake : (bs.take w).length = w := List.length_take_of_le (Nat.le_of_not_lt hlen)
  have hencode := encodeLE_decodeLE (bs.take w)
  have hlt := decodeLE_lt (bs.take w)
  rw [htake] at hencode hlt
  exact ⟨by rw [hencode, List.take_append_drop], hlt⟩

variable {α : Type*}

def piece (k : ℕ) (xs : List α) (i : ℕ) : List α := (xs.drop (i * k)).take k

theorem flatten_pieces (k : ℕ) (xs : List α) (n : ℕ) :
    ((List.range n).map (piece k xs)).flatten = xs.take (n * k) := by
  induction n with
  | zero =>
    simp only [List.range_zero, List.map_nil, List.flatten_nil, Nat.zero_mul, List.take_zero]
  | succ n ih =>
    rw [List.range_succ, List.map_append, List.flatten_append, ih, Nat.succ_mul, List.take_add]
    simp only [List.map_cons, List.map_nil, List.flatten_cons, List.flatten_nil, List.append_nil,
      piece]

theorem length_piece_le (k : ℕ) (xs : List α) (i : ℕ) : (piece k xs i).length ≤ k :=
  List.length_take_le _ _

theorem piece_ne_nil {k : ℕ} {xs : List α} {i : ℕ} (hk : 0 < k) (hi : i * k < xs.length) :
    piece k xs i ≠ [] := by
  intro h
  have hlen := congrArg List.length h
  simp only [piece, List.length_take, List.length_drop, List.length_nil] at hlen
  omega

theorem length_flatten_le {k : ℕ} {xss : List (List α)} (h : ∀ xs ∈ xss, xs.length ≤ k) :
    xss.flatten.length ≤ xss.length * k := by
  induction xss with
  | nil => simp
  | cons xs xss ih =>
    have hxs := h xs List.mem_cons_self
    have hrest := ih fun ys hys => h ys (List.mem_cons_of_mem _ hys)
    simp only [List.flatten_cons, List.length_append, List.length_cons, Nat.succ_mul]
    omega

def filled (xss : List (List α)) : ℕ := xss.countP fun xs => !xs.isEmpty

theorem filled_le_length (xss : List (List α)) : filled xss ≤ xss.length :=
  List.countP_le_length

theorem filled_eq_length_iff {xss : List (List α)} :
    filled xss = xss.length ↔ ∀ i, ∀ hi : i < xss.length, xss[i] ≠ [] := by
  rw [filled, List.countP_eq_length, List.forall_mem_iff_forall_getElem]
  simp only [Bool.not_eq_true', List.isEmpty_eq_false_iff, ne_eq]

theorem filled_replicate_nil (n : ℕ) : filled (List.replicate n ([] : List α)) = 0 := by
  simp [filled, List.countP_replicate]

theorem filled_set {xss : List (List α)} {i : ℕ} {xs : List α} (hi : i < xss.length)
    (hempty : xss[i] = []) (hxs : xs ≠ []) : filled (xss.set i xs) = filled xss + 1 := by
  simp [filled, List.countP_set hi, hempty, hxs]

theorem eq_map_of_filled {xss : List (List α)} {f : ℕ → List α}
    (hslots : ∀ i, ∀ hi : i < xss.length, xss[i] = [] ∨ xss[i] = f i)
    (hfull : filled xss = xss.length) : xss = (List.range xss.length).map f := by
  have hall := List.countP_eq_length.mp hfull
  apply List.ext_getElem
  · simp
  · intro i hi _
    rcases hslots i hi with hnil | heq
    · exact absurd (hall _ (List.getElem_mem hi)) (by simp [hnil])
    · simpa using heq

end Netcode.Library
