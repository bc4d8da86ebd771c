import Netcode.Sim.Delta
import Netcode.Sim.SnapshotHistory

/-!
# The area of interest in exact numbers

A comparison with NaN is false and an infinite distance is not small, so that a
view has only entities at finite positions no further away than the radius, and
has all of these. What a client reads for one of them is at most half a step of
the quantization off.
-/

namespace Netcode.Library.Extended

theorem sub_eq_finite_iff {x y : Extended} {d : ℚ} :
    x - y = finite d ↔ ∃ a b, x = finite a ∧ y = finite b ∧ d = a - b := by
  change add x y.neg = finite d ↔ _
  cases x with
  | finite a =>
    cases y with
    | finite b => simp [add, neg, sub_eq_add_neg, eq_comm]
    | _ => simp [add, neg]
  | inf s =>
    cases y with
    | inf t => cases s <;> cases t <;> simp [add, neg]
    | _ => simp [add, neg]
  | nan => simp [add]

theorem mul_self_cases (x : Extended) :
    (∃ a, x = finite a ∧ x * x = finite (a * a)) ∨ x * x = inf false ∨ x * x = nan := by
  change (∃ a, x = finite a ∧ mul x x = finite (a * a)) ∨ mul x x = inf false ∨ mul x x = nan
  cases x with
  | finite a => exact Or.inl ⟨a, rfl, rfl⟩
  | inf s => cases s <;> exact Or.inr (Or.inl rfl)
  | nan => exact Or.inr (Or.inr rfl)

theorem sum_sq_le_iff {x y : Extended} {c : ℚ} : Scalar.le (x * x + y * y) (finite c) = true ↔
    ∃ a b, x = finite a ∧ y = finite b ∧ a * a + b * b ≤ c := by
  constructor
  · intro h
    change (lt (add (x * x) (y * y)) (finite c) || eq (add (x * x) (y * y)) (finite c)) = true at h
    rcases mul_self_cases x with ⟨a, hx, hxx⟩ | hxx | hxx <;>
      rcases mul_self_cases y with ⟨b, hy, hyy⟩ | hyy | hyy <;>
      simp only [hxx, hyy] at h
    · refine ⟨a, b, hx, hy, ?_⟩
      simpa [add, lt, eq, le_iff_lt_or_eq] using h
    all_goals exact absurd h Bool.false_ne_true
  · intro h
    obtain ⟨a, b, rfl, rfl, hle⟩ := h
    change (lt (finite (a * a + b * b)) (finite c) || eq (finite (a * a + b * b)) (finite c)) = true
    simpa [lt, eq] using hle.lt_or_eq

end Netcode.Library.Extended

namespace Netcode.Sim

open Netcode.Library

def EntityState.At (e : EntityState Extended) (x y : ℚ) : Prop :=
  e.x = Extended.finite x ∧ e.y = Extended.finite y

theorem mem_filterAoi_iff {es : List (EntityState Extended)} {center e : EntityState Extended}
    {r : ℚ} : e ∈ filterAoi es center.x center.y (Extended.finite r) ↔
      e ∈ es ∧ ∃ x y a b, e.At x y ∧ center.At a b ∧ (x - a) ^ 2 + (y - b) ^ 2 ≤ r ^ 2 := by
  have hsq : Extended.finite r * Extended.finite r = Extended.finite (r * r) := rfl
  rw [filterAoi, List.mem_filter, hsq, Extended.sum_sq_le_iff]
  refine and_congr_right fun _ => ?_
  constructor
  · intro h
    obtain ⟨dx, dy, hdx, hdy, hle⟩ := h
    obtain ⟨x, a, hx, ha, rfl⟩ := Extended.sub_eq_finite_iff.mp hdx
    obtain ⟨y, b, hy, hb, rfl⟩ := Extended.sub_eq_finite_iff.mp hdy
    exact ⟨x, y, a, b, ⟨hx, hy⟩, ⟨ha, hb⟩, by linarith [sq (x - a), sq (y - b), sq r]⟩
  · intro h
    obtain ⟨x, y, a, b, hat, hcenter, hle⟩ := h
    exact ⟨x - a, y - b, Extended.sub_eq_finite_iff.mpr ⟨x, a, hat.1, hcenter.1, rfl⟩,
      Extended.sub_eq_finite_iff.mpr ⟨y, b, hat.2, hcenter.2, rfl⟩,
      by linarith [sq (x - a), sq (y - b), sq r]⟩

variable {b : ℚ}

theorem clamp_finite (v lo hi : ℚ) :
    Scalar.clamp (Extended.finite v) (Extended.finite lo) (Extended.finite hi) =
      Extended.finite (Scalar.clamp v lo hi) := by
  rw [Scalar.clamp, Scalar.clamp, apply_ite Extended.finite, apply_ite Extended.finite]
  rfl

theorem div_finite {c : ℚ} (hc : c ≠ 0) (a : ℚ) :
    Extended.finite a / Extended.finite c = Extended.finite (a / c) := if_neg hc

theorem quantize_finite (hb : 0 < b) (v : ℚ) :
    quantize (Extended.finite v) (Extended.finite b) = quantize v b := by
  have hlt : Scalar.lt (Scalar.ofRat 0) (Extended.finite b) = true := decide_eq_true hb
  have hlt' : Scalar.lt (Scalar.ofRat 0) b = true := decide_eq_true hb
  have hclamp := clamp_finite v 0 b
  rw [quantize, quantize, if_pos hlt, if_pos hlt']
  change UInt32.ofInt (Scalar.lround (Scalar.clamp (Extended.finite v) (Extended.finite 0)
    (Extended.finite b) / Extended.finite b * _)) = _
  rw [hclamp, div_finite hb.ne']
  rfl

theorem dequantize_finite (q : UInt32) (b : ℚ) :
    dequantize q (Extended.finite b) = Extended.finite (dequantize q b) := by
  have hlevel : ((kMaxLevel.toNat : ℕ) : ℚ) ≠ 0 := by
    rw [toNat_kMaxLevel]
    norm_num
  change Extended.finite q.toNat / Extended.finite kMaxLevel.toNat * Extended.finite b = _
  rw [div_finite hlevel]
  rfl

theorem received_near (hb : 0 < b) {e : EntityState Extended} {x y : ℚ} (h : e.At x y) :
    ∃ px py, (received (Extended.finite b) e).At px py ∧
      |px - Scalar.clamp x 0 b| ≤ b / (2 * 4095) ∧ |py - Scalar.clamp y 0 b| ≤ b / (2 * 4095) := by
  refine ⟨dequantize (quantize x b) b, dequantize (quantize y b) b, ⟨?_, ?_⟩,
    abs_dequantize_quantize_sub_le hb x, abs_dequantize_quantize_sub_le hb y⟩
  · simp only [received, h.1, quantize_finite hb, dequantize_finite]
  · simp only [received, h.2, quantize_finite hb, dequantize_finite]

end Netcode.Sim
