import Mathlib.Tactic.NormNum
import Netcode.Library.Bytes
import Netcode.Library.Scalar

/-!
# Exact numbers with infinities and NaN

The numbers that a float stands for, with the arithmetic of the special values
and no rounding. Zero has no sign. A comparison with NaN is false, an operation
on NaN is NaN, and so are a product of zero and an infinity and a sum of two
opposite infinities.
-/

namespace Netcode.Library

inductive Extended
  | finite (q : ℚ)
  | inf (negative : Bool)
  | nan
deriving DecidableEq

namespace Extended

def neg : Extended → Extended
  | finite q => finite (-q)
  | inf s => inf !s
  | nan => nan

def add : Extended → Extended → Extended
  | finite a, finite b => finite (a + b)
  | finite _, inf t => inf t
  | inf s, finite _ => inf s
  | inf s, inf t => if s = t then inf s else nan
  | nan, _ => nan
  | _, nan => nan

def mul : Extended → Extended → Extended
  | finite a, finite b => finite (a * b)
  | finite a, inf t => if a = 0 then nan else inf (decide (a < 0) ^^ t)
  | inf s, finite b => if b = 0 then nan else inf (s ^^ decide (b < 0))
  | inf s, inf t => inf (s ^^ t)
  | nan, _ => nan
  | _, nan => nan

def div : Extended → Extended → Extended
  | finite a, finite b =>
    if b = 0 then if a = 0 then nan else inf (decide (a < 0)) else finite (a / b)
  | finite _, inf _ => finite 0
  | inf s, finite b => inf (s ^^ decide (b < 0))
  | inf _, inf _ => nan
  | nan, _ => nan
  | _, nan => nan

def lt : Extended → Extended → Bool
  | finite a, finite b => decide (a < b)
  | finite _, inf t => !t
  | inf s, finite _ => s
  | inf s, inf t => s && !t
  | nan, _ => false
  | _, nan => false

def eq : Extended → Extended → Bool
  | finite a, finite b => decide (a = b)
  | inf s, inf t => s == t
  | _, _ => false

/-- The library leaves the rounding of an infinity or a NaN open. -/
def lround : Extended → ℤ
  | finite q => roundAway q
  | _ => 0

instance instScalarExtended : Scalar Extended where
  add := add
  sub x y := add x y.neg
  mul := mul
  div := div
  ofRat := finite
  lt := lt
  le x y := lt x y || eq x y
  eq := eq
  lround := lround

def ofBits (bits : UInt32) : Extended :=
  let negative := decide (2 ^ 31 ≤ bits.toNat)
  let exponent : ℕ := bits.toNat / 2 ^ 23 % 2 ^ 8
  let fraction : ℕ := bits.toNat % 2 ^ 23
  if exponent = 255 then if fraction = 0 then inf negative else nan
  else
    let magnitude : ℚ :=
      if exponent = 0 then fraction / 2 ^ 149 else (2 ^ 23 + fraction) * 2 ^ exponent / 2 ^ 150
    finite (if negative then -magnitude else magnitude)

def Within (bound x : Extended) : Prop :=
  Scalar.le (Scalar.ofRat 0) x = true ∧ Scalar.le x bound = true

instance instDecidableWithin (bound x : Extended) : Decidable (Within bound x) :=
  inferInstanceAs (Decidable (_ ∧ _))

variable {x v d bound : Extended}

theorem not_within_nan (bound : Extended) : ¬Within bound nan :=
  fun h => Bool.false_ne_true h.1

theorem lt_zero_iff : Scalar.lt (Scalar.ofRat 0) d = true ↔
    (∃ q, 0 < q ∧ d = finite q) ∨ d = inf false := by
  cases d with
  | finite q => simp [Scalar.lt, Scalar.ofRat, lt]
  | inf s => cases s <;> simp [Scalar.lt, Scalar.ofRat, lt]
  | nan => simp [Scalar.lt, Scalar.ofRat, lt]

theorem le_zero_iff : Scalar.le (Scalar.ofRat 0) x = true ↔
    (∃ q, 0 ≤ q ∧ x = finite q) ∨ x = inf false := by
  cases x with
  | finite q => simp [Scalar.le, Scalar.ofRat, lt, eq, le_iff_lt_or_eq]
  | inf s => cases s <;> simp [Scalar.le, Scalar.ofRat, lt, eq]
  | nan => simp [Scalar.le, Scalar.ofRat, lt, eq]

theorem clamp_nan (lo hi : Extended) : Scalar.clamp nan lo hi = nan := by
  cases hi <;> rfl

theorem Within.ne_inf (h : Within bound x) (hbound : bound ≠ inf false) : x ≠ inf false := by
  intro hx
  have hle := h.2
  rw [hx] at hle
  cases bound with
  | inf t => cases t <;> simp_all [Scalar.le, lt, eq]
  | _ => exact absurd hle Bool.false_ne_true

theorem le_of_not_lt {y : Extended} (hx : x ≠ nan) (hy : y ≠ nan) (h : Scalar.lt x y = false) :
    Scalar.le y x = true := by
  cases x with
  | finite a =>
    cases y with
    | finite b =>
      have hle : b ≤ a := not_lt.mp (of_decide_eq_false h)
      simpa [Scalar.le, lt, eq] using hle.lt_or_eq
    | inf t => simpa [Scalar.lt, Scalar.le, lt, eq] using h
    | nan => exact absurd rfl hy
  | inf s =>
    cases y with
    | finite b => simpa [Scalar.lt, Scalar.le, lt, eq] using h
    | inf t => cases s <;> cases t <;> simp_all [Scalar.lt, Scalar.le, lt, eq]
    | nan => exact absurd rfl hy
  | nan => exact absurd rfl hx

theorem ne_nan_of_lt (h : Scalar.lt x bound = true) : bound ≠ nan := by
  intro hnan
  rw [hnan] at h
  cases x <;> exact absurd h Bool.false_ne_true

theorem le_of_lt (h : Scalar.lt x bound = true) : Scalar.le x bound = true :=
  Bool.or_eq_true_iff.mpr (Or.inl h)

theorem le_self (hx : x ≠ nan) : Scalar.le x x = true := by
  apply le_of_not_lt hx hx
  cases x with
  | finite q => exact decide_eq_false (lt_irrefl q)
  | inf s => cases s <;> rfl
  | nan => rfl

theorem within_clamp_iff (hbound : Scalar.lt (Scalar.ofRat 0) bound = true) (x : Extended) :
    Within bound (Scalar.clamp x (Scalar.ofRat 0) bound) ↔ x ≠ nan := by
  have hnan := ne_nan_of_lt hbound
  have hzero : (Scalar.ofRat 0 : Extended) ≠ nan := Extended.noConfusion
  constructor
  · intro h hx
    rw [hx, clamp_nan] at h
    exact not_within_nan bound h
  · intro hx
    rw [Scalar.clamp]
    split_ifs with hlow hhigh
    · exact ⟨le_self hzero, le_of_lt hbound⟩
    · exact ⟨le_of_lt hbound, le_self hnan⟩
    · exact ⟨le_of_not_lt hx hzero (Bool.not_eq_true _ ▸ hlow),
        le_of_not_lt hnan hx (Bool.not_eq_true _ ▸ hhigh)⟩

theorem Within.div_mem (h : Within bound x) (hbound : Scalar.lt (Scalar.ofRat 0) bound = true) :
    x / bound = nan ∨ ∃ q, 0 ≤ q ∧ q ≤ 1 ∧ x / bound = finite q := by
  change div x bound = nan ∨ ∃ q, 0 ≤ q ∧ q ≤ 1 ∧ div x bound = finite q
  rcases lt_zero_iff.mp hbound with ⟨m, hm, rfl⟩ | rfl
  · rcases le_zero_iff.mp h.1 with ⟨a, ha, rfl⟩ | rfl
    · have hle : a ≤ m := by simpa [Scalar.le, lt, eq, le_iff_lt_or_eq] using h.2
      exact Or.inr ⟨a / m, div_nonneg ha hm.le, (div_le_one hm).mpr hle, if_neg hm.ne'⟩
    · exact absurd h.2 Bool.false_ne_true
  · rcases le_zero_iff.mp h.1 with ⟨a, -, rfl⟩ | rfl
    · exact Or.inr ⟨0, le_rfl, zero_le_one, rfl⟩
    · exact Or.inl rfl

theorem within_finite_iff {b : ℚ} : Within (finite b) x ↔ ∃ q, 0 ≤ q ∧ q ≤ b ∧ x = finite q := by
  constructor
  · intro h
    rcases le_zero_iff.mp h.1 with ⟨q, hq, rfl⟩ | rfl
    · exact ⟨q, hq, by simpa [Scalar.le, lt, eq, le_iff_lt_or_eq] using h.2, rfl⟩
    · exact absurd h.2 Bool.false_ne_true
  · intro h
    obtain ⟨q, hq, hle, rfl⟩ := h
    exact ⟨le_zero_iff.mpr (Or.inl ⟨q, hq, rfl⟩),
      by simpa [Scalar.le, lt, eq] using hle.lt_or_eq⟩

structure Steady (x v d : Extended) : Prop where
  velocity : v ≠ nan
  product : ¬(v = finite 0 ∧ d = inf false)
  sum : ¬(x = inf false ∧ Scalar.lt v (Scalar.ofRat 0) = true ∧ (v = inf true ∨ d = inf false))

theorem steady_iff {x v d : Extended} : Steady x v d ↔ v ≠ nan ∧ ¬(v = finite 0 ∧ d = inf false) ∧
    ¬(x = inf false ∧ Scalar.lt v (Scalar.ofRat 0) = true ∧ (v = inf true ∨ d = inf false)) :=
  ⟨fun h => ⟨h.velocity, h.product, h.sum⟩, fun h => ⟨h.1, h.2.1, h.2.2⟩⟩

instance instDecidableSteady (x v d : Extended) : Decidable (Steady x v d) :=
  decidable_of_iff _ steady_iff.symm

theorem add_eq_nan_iff {y : Extended} (hx : Scalar.le (Scalar.ofRat 0) x = true) :
    x + y = nan ↔ y = nan ∨ (x = inf false ∧ y = inf true) := by
  change add x y = nan ↔ _
  rcases le_zero_iff.mp hx with ⟨a, _, rfl⟩ | rfl
  · cases y <;> simp [add]
  · cases y with
    | inf t => cases t <;> simp [add]
    | _ => simp [add]

theorem mul_eq_nan_iff (hd : Scalar.lt (Scalar.ofRat 0) d = true) :
    v * d = nan ↔ v = nan ∨ (v = finite 0 ∧ d = inf false) := by
  change mul v d = nan ↔ _
  rcases lt_zero_iff.mp hd with ⟨q, hq, rfl⟩ | rfl
  · cases v <;> simp [mul, hq.ne']
  · cases v with
    | finite a => by_cases ha : a = 0 <;> simp [mul, ha]
    | _ => simp [mul]

theorem mul_eq_inf_true_iff (hd : Scalar.lt (Scalar.ofRat 0) d = true) :
    v * d = inf true ↔
      Scalar.lt v (Scalar.ofRat 0) = true ∧ (v = inf true ∨ d = inf false) := by
  change mul v d = inf true ↔ lt v (finite 0) = true ∧ _
  rcases lt_zero_iff.mp hd with ⟨q, hq, rfl⟩ | rfl
  · cases v with
    | inf s => cases s <;> simp [mul, lt, hq.ne', hq.le]
    | _ => simp [mul, lt]
  · cases v with
    | finite a =>
      by_cases ha : a = 0
      · simp [mul, lt, ha]
      · simp [mul, lt, ha]
    | inf s => cases s <;> simp [mul, lt]
    | nan => simp [mul, lt]

theorem add_mul_ne_nan_iff (hx : Scalar.le (Scalar.ofRat 0) x = true)
    (hd : Scalar.lt (Scalar.ofRat 0) d = true) : x + v * d ≠ nan ↔ Steady x v d := by
  rw [ne_eq, add_eq_nan_iff hx, mul_eq_nan_iff hd, mul_eq_inf_true_iff hd, not_or, not_or,
    and_assoc]
  exact steady_iff.symm

theorem within_step_iff (hx : Within bound x) (hd : Scalar.lt (Scalar.ofRat 0) d = true)
    (hbound : Scalar.lt (Scalar.ofRat 0) bound = true) :
    Within bound (Scalar.clamp (x + v * d) (Scalar.ofRat 0) bound) ↔ Steady x v d := by
  rw [within_clamp_iff hbound, add_mul_ne_nan_iff hx.1 hd]

def Bounded (c : ℚ) (x : Extended) : Prop := ∃ q, |q| ≤ c ∧ x = finite q

theorem Bounded.ne_nan {c : ℚ} (h : Bounded c x) : x ≠ nan := by
  obtain ⟨q, -, rfl⟩ := h
  exact Extended.noConfusion

theorem Bounded.mul {a b : ℚ} (hx : Bounded a x) (hv : Bounded b v) : Bounded (a * b) (x * v) := by
  obtain ⟨q, hq, rfl⟩ := hx
  obtain ⟨r, hr, rfl⟩ := hv
  refine ⟨q * r, ?_, rfl⟩
  rw [abs_mul]
  exact mul_le_mul hq hr (abs_nonneg r) ((abs_nonneg q).trans hq)

end Extended

end Netcode.Library
