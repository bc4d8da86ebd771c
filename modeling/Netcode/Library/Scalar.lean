import Mathlib.Algebra.Order.Floor.Defs
import Mathlib.Algebra.Order.ToIntervalMod
import Mathlib.Data.Rat.Floor
import Mathlib.Tactic.Linarith

/-!
# The operations of a machine number type

Code that computes with floating-point numbers is written over `Scalar`, which
has the operations and none of the laws: rounding, infinities and the like are
the instance's. `ofRat` is the value of a literal and of a converted integer.
The rationals are the instance in which every operation is exact.
-/

namespace Netcode.Library

class Scalar (α : Type*) extends Add α, Sub α, Mul α, Div α where
  ofRat : ℚ → α
  lt : α → α → Bool
  le : α → α → Bool
  eq : α → α → Bool
  lround : α → ℤ

def Scalar.clamp {α : Type*} [Scalar α] (v lo hi : α) : α :=
  if Scalar.lt v lo then lo else if Scalar.lt hi v then hi else v

def roundAway (x : ℚ) : ℤ := if 0 ≤ x then ⌊x + 1 / 2⌋ else -⌊-x + 1 / 2⌋

instance : Scalar ℚ where
  ofRat := id
  lt a b := decide (a < b)
  le a b := decide (a ≤ b)
  eq a b := decide (a = b)
  lround := roundAway

theorem roundAway_mem {x : ℚ} {n : ℕ} (h0 : 0 ≤ x) (hn : x ≤ n) :
    0 ≤ roundAway x ∧ roundAway x ≤ n := by
  rw [roundAway, if_pos h0]
  constructor
  · apply Int.floor_nonneg.mpr
    linarith
  · apply Int.le_of_lt_add_one
    apply Int.floor_lt.mpr
    push_cast
    linarith

theorem clamp_mem {v lo hi : ℚ} (h : lo ≤ hi) :
    lo ≤ Scalar.clamp v lo hi ∧ Scalar.clamp v lo hi ≤ hi := by
  simp only [Scalar.clamp, Scalar.lt, decide_eq_true_eq]
  split_ifs with hlo hhi
  · exact ⟨le_rfl, h⟩
  · exact ⟨h, le_rfl⟩
  · exact ⟨not_lt.mp hlo, not_lt.mp hhi⟩

theorem clamp_of_mem {v lo hi : ℚ} (hlo : lo ≤ v) (hhi : v ≤ hi) : Scalar.clamp v lo hi = v := by
  simp only [Scalar.clamp, Scalar.lt, decide_eq_true_eq]
  rw [if_neg (not_lt.mpr hlo), if_neg (not_lt.mpr hhi)]

theorem clamp_mono {u v lo hi : ℚ} (h : lo ≤ hi) (huv : u ≤ v) :
    Scalar.clamp u lo hi ≤ Scalar.clamp v lo hi := by
  simp only [Scalar.clamp, Scalar.lt, decide_eq_true_eq]
  split_ifs <;> linarith

theorem roundAway_of_nonneg {x : ℚ} (h0 : 0 ≤ x) : roundAway x = ⌊x + 1 / 2⌋ := if_pos h0

theorem roundAway_mono {x y : ℚ} (h0 : 0 ≤ x) (hxy : x ≤ y) : roundAway x ≤ roundAway y := by
  rw [roundAway_of_nonneg h0, roundAway_of_nonneg (h0.trans hxy)]
  apply Int.floor_le_floor
  linarith

theorem abs_roundAway_sub_le {x : ℚ} (h0 : 0 ≤ x) : |(roundAway x : ℚ) - x| ≤ 1 / 2 := by
  rw [roundAway_of_nonneg h0, abs_le]
  have hle := Int.floor_le (x + 1 / 2)
  have hlt := Int.lt_floor_add_one (x + 1 / 2)
  constructor <;> linarith

theorem roundAway_natCast (n : ℕ) : roundAway n = n := by
  rw [roundAway_of_nonneg (Nat.cast_nonneg n), Int.floor_eq_iff]
  push_cast
  constructor <;> linarith

/-- `fmod` of the C library: the quotient is cut towards zero. -/
class Fmod (α : Type*) where
  fmod : α → α → α

def truncate (x : ℚ) : ℤ := if 0 ≤ x then ⌊x⌋ else ⌈x⌉

instance : Fmod ℚ where
  fmod x y := x - truncate (x / y) * y

theorem fmod_eq_toIcoMod {x y : ℚ} (hx : 0 ≤ x) (hy : 0 < y) :
    Fmod.fmod x y = toIcoMod hy 0 x := by
  have hquot : truncate (x / y) = toIcoDiv hy 0 x := by
    rw [truncate, if_pos (div_nonneg hx hy.le), toIcoDiv_eq_floor, sub_zero]
  rw [← self_sub_toIcoDiv_mul, ← hquot]
  rfl

end Netcode.Library
