import Mathlib.Tactic
import Mathlib.Data.Rat.Floor
import Mathlib.Data.Int.Log

/-!
# Rounding of rationals

Three directed roundings and the one to the nearest integer, as functions, and what each of them
returns for an integer with a fraction on top of it.

A rational is rounded to the nearest multiple of its unit in the last place, which is the power of
two that leaves 53 binary digits, and never less than the smallest subnormal number.  Rounding does
not carry a number over one that is representable.
-/

namespace SoulSystem.Library

inductive Rounding where
  | towardZero
  | floor
  | ceil
  | nearestEven
  deriving DecidableEq

namespace Rounding

/-- The integer that a rational is rounded to; of two that are as near, `nearestEven` takes the even
one. -/
def round : Rounding → ℚ → ℤ
  | towardZero, q => if q < 0 then ⌈q⌉ else ⌊q⌋
  | floor, q => ⌊q⌋
  | ceil, q => ⌈q⌉
  | nearestEven, q =>
    if Int.fract q < 1 / 2 then ⌊q⌋
    else if 1 / 2 < Int.fract q then ⌊q⌋ + 1
    else if Even ⌊q⌋ then ⌊q⌋ else ⌊q⌋ + 1

theorem round_intCast (mode : Rounding) (t : ℤ) : mode.round t = t := by
  cases mode <;> simp [round]

section Fraction

variable {q : ℚ} {t r d : ℤ} (hq : q = t + r / d) (hr : 0 ≤ r) (hd : r < d)

include hq hr hd

theorem floor_eq : ⌊q⌋ = t := by
  have hpos : (0 : ℚ) < d := by exact_mod_cast hr.trans_lt hd
  have hlow : (0 : ℚ) ≤ r / d := div_nonneg (by exact_mod_cast hr) hpos.le
  have hhigh : (r : ℚ) / d < 1 := (div_lt_one hpos).mpr (by exact_mod_cast hd)
  rw [Int.floor_eq_iff, hq]
  constructor <;> linarith

theorem fract_eq : Int.fract q = r / d := by
  rw [Int.fract, floor_eq hq hr hd, hq]
  ring

theorem ceil_eq : ⌈q⌉ = if r = 0 then t else t + 1 := by
  have hpos : (0 : ℚ) < d := by exact_mod_cast hr.trans_lt hd
  split
  · rename_i hzero
    rw [hq, hzero]
    simp
  · rename_i hzero
    have hlow : (0 : ℚ) < r / d := div_pos (by exact_mod_cast hr.lt_of_ne' hzero) hpos
    have hhigh : (r : ℚ) / d < 1 := (div_lt_one hpos).mpr (by exact_mod_cast hd)
    rw [Int.ceil_eq_iff, hq]
    push_cast
    constructor <;> linarith

theorem towardZero_eq : towardZero.round q = if t < 0 ∧ r ≠ 0 then t + 1 else t := by
  have hsign : q < 0 ↔ t < 0 := by
    rw [← floor_eq hq hr hd, Int.floor_lt, Int.cast_zero]
  simp only [round, hsign, floor_eq hq hr hd, ceil_eq hq hr hd]
  by_cases hneg : t < 0
  · by_cases hzero : r = 0
    · simp [hneg, hzero]
    · simp [hneg, hzero]
  · simp [hneg]

theorem nearestEven_eq : nearestEven.round q =
    if 2 * r < d then t else if d < 2 * r then t + 1 else if Even t then t else t + 1 := by
  have hpos : (0 : ℚ) < d := by exact_mod_cast hr.trans_lt hd
  have hless : (r : ℚ) / d < 1 / 2 ↔ 2 * r < d := by
    rw [div_lt_div_iff₀ hpos two_pos, one_mul, mul_comm]
    exact_mod_cast Iff.rfl
  have hmore : 1 / 2 < (r : ℚ) / d ↔ d < 2 * r := by
    rw [div_lt_div_iff₀ two_pos hpos, one_mul, mul_comm]
    exact_mod_cast Iff.rfl
  simp only [round, fract_eq hq hr hd, floor_eq hq hr hd, hless, hmore]

end Fraction

end Rounding

end SoulSystem.Library

namespace SoulSystem.Library.Binary64

/-! ## Rounding to binary64 -/

/-- The exponent of the unit in the last place. -/
def exponent (q : ℚ) : ℤ := max (Int.log 2 |q| - 52) (-1074)

/-- The unit in the last place. -/
def ulp (q : ℚ) : ℚ := 2 ^ exponent q

/-- The nearest multiple of the unit, the even one of two that are as near. -/
def round (q : ℚ) : ℚ := Rounding.nearestEven.round (q / ulp q) * ulp q

/-- The numbers from here on overflow. -/
def limit : ℚ := 2 ^ (1024 : ℤ)

/-- A multiple of its own unit. -/
def Representable (q : ℚ) : Prop := ∃ m : ℤ, q = m * ulp q

theorem ulp_pos (q : ℚ) : 0 < ulp q := zpow_pos two_pos _

/-! ## The nearest integer -/

theorem le_nearestEven {q : ℚ} {m : ℤ} (hle : (m : ℚ) ≤ q) : m ≤ Rounding.nearestEven.round q := by
  have hfloor : m ≤ ⌊q⌋ := Int.le_floor.mpr hle
  simp only [Rounding.round]
  split_ifs
  · exact hfloor
  · exact hfloor.trans (Int.le_add_one le_rfl)
  · exact hfloor
  · exact hfloor.trans (Int.le_add_one le_rfl)

theorem nearestEven_le {q : ℚ} {m : ℤ} (hle : q ≤ m) : Rounding.nearestEven.round q ≤ m := by
  have hfloor : ⌊q⌋ ≤ m := by exact_mod_cast (Int.floor_le q).trans hle
  by_cases hfract : Int.fract q < 1 / 2
  · simp only [Rounding.round, if_pos hfract]
    exact hfloor
  · have hbelow : ⌊q⌋ < m := by
      rcases hfloor.lt_or_eq with hlt | heq
      · exact hlt
      · have hzero : Int.fract q ≤ 0 := by
          rw [Int.fract, heq]
          linarith
        linarith
    simp only [Rounding.round, if_neg hfract]
    split_ifs
    · exact hbelow
    · exact hfloor
    · exact hbelow

/-! ## Rounding and order -/

theorem round_nonneg {q : ℚ} (hq : 0 ≤ q) : 0 ≤ round q := by
  have hquotient : ((0 : ℤ) : ℚ) ≤ q / ulp q := by
    rw [Int.cast_zero]
    exact div_nonneg hq (ulp_pos q).le
  have hround : (0 : ℚ) ≤ Rounding.nearestEven.round (q / ulp q) := by
    exact_mod_cast le_nearestEven hquotient
  exact mul_nonneg hround (ulp_pos q).le

theorem exponent_mono {q r : ℚ} (hq : 0 < q) (hle : q ≤ r) : exponent q ≤ exponent r := by
  have hlog : Int.log 2 |q| ≤ Int.log 2 |r| := by
    rw [abs_of_pos hq, abs_of_pos (hq.trans_le hle)]
    exact Int.log_mono_right hq hle
  exact max_le_max (by linarith) le_rfl

/-- A representable number is a multiple of every smaller unit. -/
theorem Representable.multiple {r : ℚ} (hr : Representable r) {e : ℤ} (he : e ≤ exponent r) :
    ∃ m : ℤ, r = m * (2 : ℚ) ^ e := by
  obtain ⟨m, hm⟩ := hr
  obtain ⟨k, hk⟩ := Int.eq_ofNat_of_zero_le (sub_nonneg.mpr he)
  refine ⟨m * 2 ^ k, ?_⟩
  have hsplit : exponent r = k + e := by linarith
  rw [hm, ulp, hsplit, zpow_add₀ two_ne_zero, zpow_natCast]
  push_cast
  ring

/-- Rounding does not go over a representable number. -/
theorem round_le {q r : ℚ} (hq : 0 ≤ q) (hle : q ≤ r) (hr : Representable r) : round q ≤ r := by
  rcases hq.lt_or_eq with hpos | rfl
  · obtain ⟨m, hm⟩ := hr.multiple (exponent_mono hpos hle)
    have hquotient : q / ulp q ≤ m := by
      rw [div_le_iff₀ (ulp_pos q), ulp, ← hm]
      exact hle
    have hround : (Rounding.nearestEven.round (q / ulp q) : ℚ) ≤ m := by
      exact_mod_cast nearestEven_le hquotient
    calc round q ≤ m * ulp q := mul_le_mul_of_nonneg_right hround (ulp_pos q).le
      _ = r := hm.symm
  · have hzero : round 0 = 0 := by
      have hinteger : Rounding.nearestEven.round ((0 : ℤ) : ℚ) = 0 := Rounding.round_intCast _ 0
      rw [round, zero_div, ← Int.cast_zero, hinteger, Int.cast_zero, zero_mul]
    rw [hzero]
    exact hle

/-- A dyadic number of 53 digits. -/
theorem representable_dyadic {m k : ℕ} (hm : m < 2 ^ 53) (hk : k ≤ 1074) :
    Representable (m / 2 ^ k) := by
  rcases Nat.eq_zero_or_pos m with rfl | hpos
  · exact ⟨0, by simp⟩
  · have hq : (0 : ℚ) < m / 2 ^ k := by positivity
    have hlog : Int.log 2 (m / 2 ^ k : ℚ) < 53 - k := by
      apply (Int.lt_zpow_iff_log_lt one_lt_two hq).mp
      have hcast : (m : ℚ) < 2 ^ 53 := by exact_mod_cast hm
      rw [Nat.cast_ofNat, zpow_sub₀ two_ne_zero, zpow_natCast]
      exact div_lt_div_of_pos_right (by exact_mod_cast hcast) (by positivity)
    have hexponent : exponent (m / 2 ^ k) ≤ -k := by
      refine max_le ?_ ?_
      · rw [abs_of_pos hq]
        omega
      · omega
    unfold Representable ulp
    generalize exponent (m / 2 ^ k) = e at hexponent ⊢
    obtain ⟨j, hj⟩ := Int.eq_ofNat_of_zero_le (sub_nonneg.mpr hexponent)
    have hsplit : (-k : ℤ) = j + e := by linarith
    have hpower : ((2 : ℚ) ^ k)⁻¹ = 2 ^ j * 2 ^ e := by
      rw [← zpow_natCast, ← zpow_neg, hsplit, zpow_add₀ two_ne_zero, zpow_natCast]
    refine ⟨m * 2 ^ j, ?_⟩
    push_cast
    rw [div_eq_mul_inv, hpower, mul_assoc]

end SoulSystem.Library.Binary64
