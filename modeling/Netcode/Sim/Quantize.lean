import Netcode.Library.Extended

/-!
# Positions as twelve-bit levels

A position in `[0, max]` goes over the wire as the nearest of `4096` levels. The
arithmetic is that of the number type, of which the codec needs no more than
`LawfulLevels`: equal numbers have the same level, and every level fits.
-/

namespace Netcode.Sim

open Netcode.Library

abbrev kPosBits : ℕ := 12

def kMaxLevel : UInt32 := (1 <<< UInt32.ofNat kPosBits) - 1

variable {α : Type*} [Scalar α]

def quantize (v max : α) : UInt32 :=
  let v := Scalar.clamp v (Scalar.ofRat 0) max
  let frac := if Scalar.lt (Scalar.ofRat 0) max then v / max else Scalar.ofRat 0
  UInt32.ofInt (Scalar.lround (frac * Scalar.ofRat kMaxLevel.toNat))

def dequantize (q : UInt32) (max : α) : α :=
  Scalar.ofRat q.toNat / Scalar.ofRat kMaxLevel.toNat * max

class LawfulLevels (α : Type*) [Scalar α] : Prop where
  quantize_congr : ∀ {a b : α}, Scalar.eq a b = true → ∀ max : α, quantize a max = quantize b max
  quantize_lt : ∀ a max : α, (quantize a max).toNat < 2 ^ kPosBits

def levels (v max : ℚ) : ℚ :=
  (if Scalar.lt (0 : ℚ) max then Scalar.clamp v 0 max / max else 0) * 4095

theorem toNat_kMaxLevel : kMaxLevel.toNat = 4095 := by decide

theorem quantize_eq (v max : ℚ) : quantize v max = UInt32.ofInt (roundAway (levels v max)) := by
  have hcast : (Scalar.ofRat kMaxLevel.toNat : ℚ) = 4095 := by
    rw [toNat_kMaxLevel]
    rfl
  rw [quantize, hcast]
  rfl

theorem dequantize_eq (q : UInt32) (max : ℚ) : dequantize q max = q.toNat / 4095 * max := by
  have hcast : (Scalar.ofRat kMaxLevel.toNat : ℚ) = 4095 := by
    rw [toNat_kMaxLevel]
    rfl
  rw [dequantize, hcast]
  rfl

theorem levels_mem (v max : ℚ) : 0 ≤ levels v max ∧ levels v max ≤ 4095 := by
  have hfrac : 0 ≤ (if Scalar.lt (0 : ℚ) max then Scalar.clamp v 0 max / max else 0) ∧
      (if Scalar.lt (0 : ℚ) max then Scalar.clamp v 0 max / max else 0) ≤ 1 := by
    split_ifs with hmax
    · have hpos : 0 < max := of_decide_eq_true hmax
      obtain ⟨hlo, hhi⟩ := clamp_mem (v := v) hpos.le
      exact ⟨div_nonneg hlo hpos.le, (div_le_one hpos).mpr hhi⟩
    · exact ⟨le_rfl, zero_le_one⟩
  rw [levels]
  constructor <;> linarith [hfrac.1, hfrac.2]

theorem toNat_quantize (v max : ℚ) : ((quantize v max).toNat : ℤ) = roundAway (levels v max) := by
  obtain ⟨hlo, hhi⟩ := levels_mem v max
  have hround := roundAway_mem (n := 4095) hlo (by exact_mod_cast hhi)
  rw [quantize_eq, UInt32.ofInt, UInt32.toNat_ofNat']
  omega

theorem quantize_le (v max : ℚ) : (quantize v max).toNat ≤ 4095 := by
  obtain ⟨hlo, hhi⟩ := levels_mem v max
  have hround := roundAway_mem (n := 4095) hlo (by exact_mod_cast hhi)
  have hlevel := toNat_quantize v max
  omega

instance : LawfulLevels ℚ where
  quantize_congr := by
    intro a b h max
    rw [of_decide_eq_true h]
  quantize_lt a max := Nat.lt_succ_of_le (quantize_le a max)

variable {max : ℚ}

theorem levels_of_pos (hmax : 0 < max) (v : ℚ) :
    levels v max = Scalar.clamp v 0 max / max * 4095 := by
  have hlt : Scalar.lt (0 : ℚ) max = true := decide_eq_true hmax
  rw [levels, if_pos hlt]

theorem quantize_mono (hmax : 0 < max) {u v : ℚ} (huv : u ≤ v) :
    quantize u max ≤ quantize v max := by
  have hlevels : levels u max ≤ levels v max := by
    rw [levels_of_pos hmax, levels_of_pos hmax]
    have hclamp := clamp_mono hmax.le huv
    gcongr
  have hround := roundAway_mono (levels_mem u max).1 hlevels
  rw [← toNat_quantize, ← toNat_quantize] at hround
  rw [UInt32.le_iff_toNat_le]
  exact_mod_cast hround

theorem abs_dequantize_quantize_sub_le (hmax : 0 < max) (v : ℚ) :
    |dequantize (quantize v max) max - Scalar.clamp v 0 max| ≤ max / (2 * 4095) := by
  have hlevel : ((quantize v max).toNat : ℚ) = roundAway (levels v max) := by
    exact_mod_cast congrArg (Int.cast : ℤ → ℚ) (toNat_quantize v max)
  have hclamp : Scalar.clamp v 0 max = levels v max / 4095 * max := by
    rw [levels_of_pos hmax]
    field_simp
  have hstep : dequantize (quantize v max) max - Scalar.clamp v 0 max =
      (roundAway (levels v max) - levels v max) * (max / 4095) := by
    rw [dequantize_eq, hlevel, hclamp]
    ring
  rw [hstep, abs_mul, abs_of_pos (by positivity : 0 < max / 4095)]
  calc |(roundAway (levels v max) : ℚ) - levels v max| * (max / 4095)
      ≤ 1 / 2 * (max / 4095) := by
        gcongr
        exact abs_roundAway_sub_le (levels_mem v max).1
    _ = max / (2 * 4095) := by ring

theorem quantize_dequantize (hmax : 0 < max) {q : UInt32} (hq : q.toNat ≤ 4095) :
    quantize (dequantize q max) max = q := by
  have hle : (q.toNat : ℚ) ≤ 4095 := by exact_mod_cast hq
  have hfrac : (q.toNat : ℚ) / 4095 ≤ 1 := (div_le_one (by norm_num)).mpr hle
  have hlo : 0 ≤ dequantize q max := by
    rw [dequantize_eq]
    positivity
  have hhi : dequantize q max ≤ max := by
    rw [dequantize_eq]
    exact mul_le_of_le_one_left hmax.le hfrac
  have hlevels : levels (dequantize q max) max = q.toNat := by
    rw [levels_of_pos hmax, clamp_of_mem hlo hhi, dequantize_eq]
    field_simp
  have hround := toNat_quantize (dequantize q max) max
  rw [hlevels, roundAway_natCast] at hround
  exact UInt32.toNat_inj.mp (by exact_mod_cast hround)

/-- Every position has a level of twelve bits, no more than half a step away, and every
level stands for a position that has this level again. -/
theorem quantize_stable (hmax : 0 < max) :
    (∀ v : ℚ, (quantize v max).toNat ≤ 2 ^ kPosBits - 1) ∧
    (∀ u v : ℚ, u ≤ v → quantize u max ≤ quantize v max) ∧
    (∀ v : ℚ, |dequantize (quantize v max) max - Scalar.clamp v 0 max| ≤
      max / (2 * (2 ^ kPosBits - 1))) ∧
    ∀ q : UInt32, q.toNat ≤ 2 ^ kPosBits - 1 → quantize (dequantize q max) max = q := by
  have hlevels : (2 : ℚ) ^ kPosBits - 1 = 4095 := by norm_num
  rw [hlevels]
  exact ⟨fun v => quantize_le v max, fun u v => quantize_mono hmax,
    abs_dequantize_quantize_sub_le hmax, fun q => quantize_dequantize hmax⟩

theorem quantize_stable_top : quantize (dequantize 4095 (100 : ℚ)) 100 = 4095 :=
  (quantize_stable (by norm_num)).2.2.2 4095 (by decide)

theorem share_mem (v max : Extended) :
    let frac := if Scalar.lt (Scalar.ofRat 0) max then
      Scalar.clamp v (Scalar.ofRat 0) max / max else Scalar.ofRat 0
    frac = Extended.nan ∨ ∃ q, 0 ≤ q ∧ q ≤ 1 ∧ frac = Extended.finite q := by
  intro frac
  simp only [frac]
  split_ifs with hmax
  · by_cases hv : v = Extended.nan
    · rw [hv, Extended.clamp_nan]
      exact Or.inl rfl
    · exact ((Extended.within_clamp_iff hmax v).mpr hv).div_mem hmax
  · exact Or.inr ⟨0, le_rfl, zero_le_one, rfl⟩

instance : LawfulLevels Extended where
  quantize_congr := by
    intro a b h max
    have hab : a = b := by
      cases a <;> cases b <;> simp_all [Scalar.eq, Extended.eq]
    rw [hab]
  quantize_lt a max := by
    rw [quantize]
    rcases share_mem a max with hnan | ⟨q, hlo, hhi, hq⟩
    · rw [hnan]
      exact (by decide : (UInt32.ofInt 0).toNat < 2 ^ kPosBits)
    · have hround := roundAway_mem (x := q * kMaxLevel.toNat) (n := kMaxLevel.toNat)
        (by positivity) (mul_le_of_le_one_left (by positivity) hhi)
      rw [toNat_kMaxLevel] at hround
      rw [hq, UInt32.ofInt, UInt32.toNat_ofNat']
      change (roundAway (q * kMaxLevel.toNat) % _).toNat % _ < _
      rw [toNat_kMaxLevel]
      exact Nat.lt_succ_of_le (by omega)

end Netcode.Sim
