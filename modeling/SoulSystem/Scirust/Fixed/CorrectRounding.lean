import SoulSystem.Scirust.Fixed.Types

/-!
# Correct rounding of the fixed-point operations

Each operation is the exact rational result, rounded by the mode and narrowed to the storage.  The
statement is about any lawful accumulator: read over the one that wraps around it says what the
program returns, and over the one that refuses an overflow it says that none happens.
-/

namespace SoulSystem.Scirust

open Library

/-! ## What the accumulator has room for -/

theorem four_mul_abs_shl_le {w frac : ℕ} (x : BitVec w) (hfrac : frac < w) :
    4 * |x.toInt * 2 ^ frac| ≤ 2 ^ (2 * w) := by
  obtain ⟨hlow, hhigh⟩ := inRange_toInt x
  have habs : 2 * |x.toInt| ≤ 2 ^ w := by
    have hboth : |x.toInt| ≤ 2 ^ w / 2 := abs_le.mpr ⟨by omega, by omega⟩
    omega
  have hshift : 2 * (2 : ℤ) ^ frac ≤ 2 ^ w := by
    rw [← pow_succ']
    exact pow_le_pow_right₀ (by norm_num) hfrac
  have hwide : (2 : ℤ) ^ (2 * w) = 2 ^ w * 2 ^ w := by rw [two_mul, pow_add]
  have hpos : (0 : ℤ) < 2 ^ frac := by positivity
  rw [abs_mul, abs_of_pos hpos, hwide]
  nlinarith [abs_nonneg x.toInt]

theorem four_mul_abs_mul_le {w : ℕ} (x y : BitVec w) :
    4 * |x.toInt * y.toInt| ≤ 2 ^ (2 * w) := by
  have hhalf : ∀ z : BitVec w, 2 * |z.toInt| ≤ 2 ^ w := by
    intro z
    obtain ⟨hlow, hhigh⟩ := inRange_toInt z
    have hboth : |z.toInt| ≤ 2 ^ w / 2 := abs_le.mpr ⟨by omega, by omega⟩
    omega
  have hwide : (2 : ℤ) ^ (2 * w) = 2 ^ w * 2 ^ w := by rw [two_mul, pow_add]
  rw [abs_mul, hwide]
  nlinarith [hhalf x, hhalf y, abs_nonneg x.toInt, abs_nonneg y.toInt]

theorem inRange_of_abs {n : ℕ} {x : ℤ} (hx : 4 * |x| ≤ 2 ^ n) : InRange n x := by
  have hpos : (0 : ℤ) < 2 ^ n := by positivity
  constructor
  · linarith [neg_abs_le x]
  · linarith [le_abs_self x]

/-! ## The operations -/

namespace Fixed

/-- What it means that multiplication, division and rescaling are correctly rounded. -/
structure CorrectlyRounded (w : ℕ) (W : Type) (m : Type → Type) [Monad m] [WideInt W m]
    [FixedStorage w W] : Prop where
  mulRounded_eq : ∀ frac < w, ∀ (a b : Fixed w frac) (rounding : RoundingMode)
    (overflow : OverflowMode), mulRounded W a b rounding overflow =
      pure ((narrowed w (rounding.round (a.raw.toInt * b.raw.toInt / 2 ^ frac : ℚ)) overflow).map mk)
  divRounded_eq : ∀ frac < w, ∀ (a b : Fixed w frac) (rounding : RoundingMode)
    (overflow : OverflowMode), b.raw ≠ 0 → divRounded W a b rounding overflow =
      pure ((narrowed w (rounding.round (a.raw.toInt * 2 ^ frac / b.raw.toInt : ℚ)) overflow).map mk)
  rescale_eq : ∀ frac < w, ∀ toFrac < w, ∀ (x : Fixed w frac) (rounding : RoundingMode)
    (overflow : OverflowMode), rescale W toFrac x rounding overflow =
      pure ((narrowed w (rounding.round (x.raw.toInt * 2 ^ (toFrac - frac : ℤ) : ℚ)) overflow).map mk)
  wrappingMul_eq : ∀ (frac : ℕ) (a b : Fixed w frac),
    some <$> wrappingMul W a b = mulRounded W a b .towardZero .wrap
  checkedMul_eq : ∀ (frac : ℕ) (a b : Fixed w frac),
    checkedMul W a b = mulRounded W a b .towardZero .checked
  saturatingMul_eq : ∀ (frac : ℕ) (a b : Fixed w frac),
    some <$> saturatingMul W a b = mulRounded W a b .towardZero .saturate
  wrappingDiv_eq : ∀ (frac : ℕ) (a b : Fixed w frac),
    wrappingDiv W a b = divRounded W a b .towardZero .wrap
  checkedDiv_eq : ∀ (frac : ℕ) (a b : Fixed w frac),
    checkedDiv W a b = divRounded W a b .towardZero .checked
  saturatingDiv_eq : ∀ (frac : ℕ) (a b : Fixed w frac),
    saturatingDiv W a b = divRounded W a b .towardZero .saturate

section Operations

variable {w frac : ℕ} [NeZero w] (W : Type) {m : Type → Type} [Monad m] [LawfulMonad m]
  [WideInt W m] [FixedStorage w W] [hlaws : LawfulStorage w W m]

theorem mulRounded_eq (hfrac : frac < w) (a b : Fixed w frac) (rounding : RoundingMode)
    (overflow : OverflowMode) : mulRounded W a b rounding overflow = pure
      ((narrowed w (rounding.round (a.raw.toInt * b.raw.toInt / 2 ^ frac : ℚ)) overflow).map mk) := by
  have hrange : InRange (2 * w) (hlaws.val (toWide a.raw) * hlaws.val (toWide b.raw)) := by
    rw [hlaws.val_toWide, hlaws.val_toWide]
    exact inRange_of_abs (four_mul_abs_mul_le a.raw b.raw)
  obtain ⟨product, hproductRun, hproduct⟩ := hlaws.mul _ _ hrange
  obtain ⟨shifted, hshiftedRun, hshifted⟩ :=
    roundShift_eq product rounding (show frac < 2 * w by omega)
  rw [hproduct, hlaws.val_toWide, hlaws.val_toWide, Int.cast_mul] at hshifted
  simp only [mulRounded, mulWide, hproductRun, hshiftedRun, pure_bind, narrow_eq, hshifted]

theorem divRounded_eq (hfrac : frac < w) (a b : Fixed w frac) (rounding : RoundingMode)
    (overflow : OverflowMode) (hb : b.raw ≠ 0) : divRounded W a b rounding overflow = pure
      ((narrowed w (rounding.round (a.raw.toInt * 2 ^ frac / b.raw.toInt : ℚ)) overflow).map mk) := by
  have hnumSize := four_mul_abs_shl_le a.raw hfrac
  have hdenSize : 4 * |b.raw.toInt| ≤ 2 ^ (2 * w) := by
    have hsize := four_mul_abs_shl_le b.raw hfrac
    have hone : (1 : ℤ) ≤ 2 ^ frac := one_le_pow₀ (by norm_num)
    rw [abs_mul, abs_of_pos (show (0 : ℤ) < 2 ^ frac by positivity)] at hsize
    nlinarith [abs_nonneg b.raw.toInt]
  have hden : hlaws.val (toWide b.raw) ≠ 0 := by
    rw [hlaws.val_toWide]
    exact fun hzero ↦ hb (BitVec.eq_of_toInt_eq (by rw [hzero, BitVec.ofNat_eq_ofNat,
      BitVec.toInt_zero]))
  obtain ⟨num, hnumRun, hnum⟩ := hlaws.shl (toWide a.raw) frac (by
    rw [hlaws.val_toWide]
    exact inRange_of_abs hnumSize)
  rw [hlaws.val_toWide] at hnum
  rw [← hnum] at hnumSize
  rw [← hlaws.val_toWide] at hdenSize
  obtain ⟨hquotientRange, -⟩ := inRange_quotient (show 2 ≤ 2 * w by have := NeZero.pos w; omega)
    hnumSize hdenSize hden rfl
  obtain ⟨quotient, hquotientRun, hquotient⟩ := hlaws.divTrunc num _ hden hquotientRange
  obtain ⟨rounded, hroundedRun, hrounded⟩ := divRound_eq num _ quotient rounding
    (show 2 ≤ 2 * w by have := NeZero.pos w; omega) hnumSize hdenSize hden hquotient
  rw [hnum, hlaws.val_toWide] at hrounded
  push_cast at hrounded
  simp only [divRounded, if_neg hb, hnumRun, hquotientRun, hroundedRun, pure_bind, narrow_eq,
    hrounded]

theorem rescale_eq (hfrac : frac < w) {toFrac : ℕ} (hto : toFrac < w) (x : Fixed w frac)
    (rounding : RoundingMode) (overflow : OverflowMode) : rescale W toFrac x rounding overflow =
      pure ((narrowed w (rounding.round (x.raw.toInt * 2 ^ (toFrac - frac : ℤ) : ℚ)) overflow).map
        mk) := by
  by_cases hfiner : toFrac ≥ frac
  · obtain ⟨shifted, hshiftedRun, hshifted⟩ := hlaws.shl (toWide x.raw) (toFrac - frac) (by
      rw [hlaws.val_toWide]
      exact inRange_of_abs (four_mul_abs_shl_le x.raw (by omega)))
    have hexponent : (toFrac - frac : ℤ) = ((toFrac - frac : ℕ) : ℤ) := by omega
    have hexact : (x.raw.toInt * 2 ^ (toFrac - frac : ℤ) : ℚ) =
        ((x.raw.toInt * 2 ^ (toFrac - frac) : ℤ) : ℚ) := by
      rw [hexponent, zpow_natCast]
      push_cast
      rfl
    rw [hlaws.val_toWide] at hshifted
    simp only [rescale, if_pos hfiner, hshiftedRun, pure_bind, narrow_eq, hshifted, hexact,
      Rounding.round_intCast]
  · have hshift : ∃ shifted : W, roundShift (toWide x.raw) (frac - toFrac) rounding = pure shifted ∧
        hlaws.val shifted =
          rounding.round (hlaws.val (toWide x.raw : W) / 2 ^ (frac - toFrac) : ℚ) :=
      roundShift_eq _ rounding (by omega)
    obtain ⟨shifted, hshiftedRun, hshifted⟩ := hshift
    have hexponent : (toFrac - frac : ℤ) = -((frac - toFrac : ℕ) : ℤ) := by omega
    rw [hlaws.val_toWide] at hshifted
    simp only [rescale, if_neg hfiner, hshiftedRun, pure_bind, narrow_eq, hshifted, hexponent,
      zpow_neg, zpow_natCast, div_eq_mul_inv]

theorem correctlyRounded : CorrectlyRounded w W m where
  mulRounded_eq := fun _ hfrac ↦ mulRounded_eq W hfrac
  divRounded_eq := fun _ hfrac ↦ divRounded_eq W hfrac
  rescale_eq := fun _ hfrac _ hto ↦ rescale_eq W hfrac hto
  wrappingMul_eq := by
    intro frac a b
    simp [wrappingMul, mulRounded, narrow]
  checkedMul_eq := fun _ _ _ ↦ rfl
  saturatingMul_eq := by
    intro frac a b
    simp [saturatingMul, mulRounded, narrow]
  wrappingDiv_eq := fun _ _ _ ↦ rfl
  checkedDiv_eq := fun _ _ _ ↦ rfl
  saturatingDiv_eq := fun _ _ _ ↦ rfl

end Operations

/-- **Correct rounding** at every storage width with its doubled accumulator, without an overflow
on the way. -/
theorem fixed_correctlyRounded (w : ℕ) [NeZero w] :
    CorrectlyRounded w (BitVec (2 * w)) Id ∧ CorrectlyRounded w (Exact (2 * w)) Option :=
  ⟨correctlyRounded _, correctlyRounded _⟩

theorem fixed_correctlyRounded_storages :
    (CorrectlyRounded 16 (BitVec (2 * 16)) Id ∧ CorrectlyRounded 16 (Exact (2 * 16)) Option) ∧
      (CorrectlyRounded 32 (BitVec (2 * 32)) Id ∧ CorrectlyRounded 32 (Exact (2 * 32)) Option) ∧
        CorrectlyRounded 64 (BitVec (2 * 64)) Id ∧ CorrectlyRounded 64 (Exact (2 * 64)) Option :=
  ⟨fixed_correctlyRounded 16, fixed_correctlyRounded 32, fixed_correctlyRounded 64⟩

end Fixed

end SoulSystem.Scirust
