import SoulSystem.Scirust.Convolution.Gemm

/-!
# The truncating operations on integers

A product is the truncated quotient of the integer product by the unit, and a quotient is the
truncated quotient of the shifted dividend.
-/

namespace SoulSystem.Scirust

open Library FixedReducible

/-! ## Truncated quotients -/

theorem towardZero_div (a : ℤ) {b : ℤ} (hb : b ≠ 0) :
    Rounding.towardZero.round (a / b : ℚ) = a.tdiv b := by
  have hr : a - a.tdiv b * b = a - a.tdiv b * b := rfl
  have hless := abs_remainder_lt hb hr
  by_cases hexact : a - a.tdiv b * b = 0
  · have hdiv := div_eq_tdiv_add hb hr
    rw [hexact, Int.cast_zero, zero_div, add_zero] at hdiv
    rw [hdiv, Rounding.round_intCast]
  have hpositive : 0 < |a - a.tdiv b * b| := abs_pos.mpr hexact
  by_cases hsame : a - a.tdiv b * b < 0 ↔ b < 0
  · obtain ⟨hdiv, hnonneg⟩ := div_of_same_sign hb hr hsame hexact
    rw [Rounding.towardZero_eq hdiv hpositive.le hless, if_neg fun hneg ↦ not_lt.mpr hnonneg hneg.1]
  · obtain ⟨hdiv, hnonpos⟩ := div_of_opposite_sign hb hr hsame hexact
    have hbelow : a.tdiv b - 1 < 0 ∧ |b| - |a - a.tdiv b * b| ≠ 0 :=
      ⟨by omega, (sub_pos.mpr hless).ne'⟩
    rw [Rounding.towardZero_eq hdiv (sub_nonneg.mpr hless.le) (sub_lt_self _ hpositive),
      if_pos hbelow, sub_add_cancel]

theorem abs_tdiv (a b : ℤ) : |a.tdiv b| = |a| / |b| := by
  rw [Int.abs_eq_natAbs, Int.natAbs_tdiv, Int.abs_eq_natAbs, Int.abs_eq_natAbs]
  rfl

theorem abs_tdiv_le {a b c : ℤ} (hb : b ≠ 0) (hle : |a| < (c + 1) * |b|) : |a.tdiv b| ≤ c := by
  rw [abs_tdiv]
  exact Int.lt_add_one_iff.mp ((Int.ediv_lt_iff_lt_mul (abs_pos.mpr hb)).mpr hle)

section Storage

variable {w frac : ℕ}

theorem raw_eq_zero_iff (x : BitVec w) : x = 0 ↔ x.toInt = 0 := by
  rw [← BitVec.toInt_inj, BitVec.ofNat_eq_ofNat, BitVec.toInt_zero]

theorem abs_toInt_le [NeZero w] (x : BitVec w) : |x.toInt| ≤ 2 ^ (w - 1) := by
  have hsplit : (2 : ℤ) ^ w = 2 * 2 ^ (w - 1) := two_pow_split (NeZero.pos w)
  obtain ⟨hlow, hhigh⟩ := inRange_toInt x
  exact abs_le.mpr ⟨by linarith, by linarith⟩

theorem inRange_iff_abs [NeZero w] {x : ℤ} (hx : |x| < 2 ^ (w - 1)) : InRange w x := by
  have hsplit : (2 : ℤ) ^ w = 2 * 2 ^ (w - 1) := two_pow_split (NeZero.pos w)
  obtain ⟨hlow, hhigh⟩ := abs_lt.mp hx
  exact ⟨by linarith, by linarith⟩

/-- The absolute value is clamped at the most negative integer. -/
theorem toInt_saturatingAbs [NeZero w] (x : BitVec w) :
    (saturatingAbs x).toInt = min |x.toInt| (2 ^ (w - 1) - 1) := by
  have hsplit : (2 : ℤ) ^ w = 2 * 2 ^ (w - 1) := two_pow_split (NeZero.pos w)
  obtain ⟨hlow, hhigh⟩ := inRange_toInt x
  by_cases hneg : x.toInt < 0
  · have hzero : (0 : BitVec w).toInt - x.toInt = |x.toInt| := by
      rw [BitVec.ofNat_eq_ofNat, BitVec.toInt_zero, zero_sub, abs_of_neg hneg]
    have hpos : ¬ |x.toInt| < (BitVec.intMin w).toInt := by
      rw [toInt_intMin_eq, not_lt]
      exact le_trans (by linarith [show (0 : ℤ) < 2 ^ (w - 1) by positivity]) (abs_nonneg _)
    rw [saturatingAbs, if_pos hneg, saturatingSub]
    simp only [hzero, if_neg hpos, toInt_intMax_eq]
    by_cases hlarge : 2 ^ (w - 1) - 1 < |x.toInt|
    · rw [if_pos hlarge, toInt_intMax_eq, min_eq_right hlarge.le]
    · rw [if_neg hlarge, min_eq_left (not_lt.mp hlarge)]
      exact toInt_ofInt_eq_self (inRange_iff_abs (by rw [abs_abs]; linarith))
  · rw [saturatingAbs, if_neg hneg, abs_of_nonneg (not_lt.mp hneg), min_eq_left]
    linarith

theorem saturatingAbs_eq_zero_iff (hw : 2 ≤ w) (x : BitVec w) : saturatingAbs x = 0 ↔ x = 0 := by
  have : NeZero w := ⟨by omega⟩
  have htwo : (2 : ℤ) ^ 1 ≤ 2 ^ (w - 1) := pow_le_pow_right₀ (by norm_num) (by omega)
  rw [raw_eq_zero_iff, raw_eq_zero_iff, toInt_saturatingAbs, ← abs_eq_zero (a := x.toInt)]
  have hnonneg := abs_nonneg x.toInt
  omega

def Fixed.wrappingSub (a b : Fixed w frac) : Fixed w frac := ⟨a.raw - b.raw⟩

/-- The number one. -/
def Fixed.one : Fixed w frac := ⟨1#w <<< frac⟩

theorem toInt_one (hfrac : frac < w - 1) : (Fixed.one : Fixed w frac).raw.toInt = 2 ^ frac := by
  have : NeZero w := ⟨by omega⟩
  have hunit : (2 : ℤ) ^ frac * 2 ≤ 2 ^ (w - 1) := by
    rw [← pow_succ]
    exact pow_le_pow_right₀ (by norm_num) hfrac
  have hpos : (0 : ℤ) < 2 ^ frac := by positivity
  rw [Fixed.one, toInt_shl, BitVec.toInt_one_of_lt (by omega), one_mul, bmod_eq_self]
  exact inRange_iff_abs (by rw [abs_of_pos hpos]; linarith)

end Storage

/-! ## Products and quotients -/

namespace FixedReducible

variable {w frac : ℕ}

/-- `checked_div`, with an accumulator of twice the width. -/
def quotient (a b : Fixed w frac) : Option (Fixed w frac) :=
  Fixed.checkedDiv (m := Id) (BitVec (2 * w)) a b

variable [NeZero w]

theorem raw_times_eq (hfrac : frac < w) (a b : Fixed w frac) :
    (times a b).raw = BitVec.ofInt w ((a.raw.toInt * b.raw.toInt).tdiv (2 ^ frac)) := by
  have hunit : (2 : ℤ) ^ frac ≠ 0 := by positivity
  rw [times, Fixed.wrappingMul_eq hfrac, ← towardZero_div _ hunit]
  push_cast
  rfl

omit [NeZero w] in
theorem quotient_zero (a : Fixed w frac) {b : Fixed w frac} (hb : b.raw = 0) : quotient a b = none := by
  rw [quotient, Fixed.checkedDiv, Fixed.divRounded, if_pos hb]
  rfl

theorem quotient_eq (hfrac : frac < w) (a : Fixed w frac) {b : Fixed w frac} (hb : b.raw ≠ 0) :
    quotient a b = if InRange w ((a.raw.toInt * 2 ^ frac).tdiv b.raw.toInt) then
      some ⟨BitVec.ofInt w ((a.raw.toInt * 2 ^ frac).tdiv b.raw.toInt)⟩ else none := by
  have hden : b.raw.toInt ≠ 0 := mt (raw_eq_zero_iff b.raw).mpr hb
  have hround := Fixed.divRounded_eq (m := Id) (BitVec (2 * w)) hfrac a b .towardZero .checked hb
  have hcast : ((a.raw.toInt : ℚ) * 2 ^ frac / b.raw.toInt) =
      ((a.raw.toInt * 2 ^ frac : ℤ) : ℚ) / (b.raw.toInt : ℤ) := by
    push_cast
    rfl
  rw [hcast, towardZero_div _ hden] at hround
  rw [quotient, Fixed.checkedDiv]
  refine hround.trans ?_
  rw [narrowed]
  split
  · rfl
  · rfl

end FixedReducible

end SoulSystem.Scirust
