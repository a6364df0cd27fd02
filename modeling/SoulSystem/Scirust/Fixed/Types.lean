import SoulSystem.Scirust.Fixed.Repr

/-!
# Fixed-point multiplication, division and rescaling

A product is shifted right by the fraction bits and rounded, a quotient is truncated and then
corrected by its remainder, and both are narrowed to the storage width.  The two routines round
differently and agree with the rounding of the exact rational in every mode, and no accumulator
overflows on the way.
-/

namespace SoulSystem.Scirust

open Library SoulSystem.Library.Rounding

abbrev RoundingMode := Rounding

inductive OverflowMode where
  | wrap
  | checked
  | saturate
  deriving DecidableEq

/-- The raw integer of a number with a number of fraction bits. -/
structure Fixed (w frac : ℕ) where
  raw : BitVec w
  deriving DecidableEq

/-! ## Rounding and narrowing -/

section Rounding

variable {W : Type} {m : Type → Type} [Monad m] [WideInt W m]

/-- `round(value / 2^frac)`, from the remainder of an arithmetic shift. -/
def roundShift (value : W) (frac : ℕ) (mode : RoundingMode) : m W := do
  if frac = 0 then
    return value
  let floor ← shr value frac
  let rem ← wrappingSub value (← shl floor frac)
  match mode with
  | .floor => return floor
  | .towardZero =>
    if WideInt.lt value WideInt.zero && rem ≠ WideInt.zero then
      wrappingAdd floor WideInt.one
    else
      return floor
  | .ceil =>
    if rem ≠ WideInt.zero then
      wrappingAdd floor WideInt.one
    else
      return floor
  | .nearestEven => do
      let half ← shl WideInt.one (frac - 1)
      match cmp rem half with
      | .gt => wrappingAdd floor WideInt.one
      | .lt => return floor
      | .eq => if isOdd floor then wrappingAdd floor WideInt.one else return floor

def wideAbs (v : W) : m W :=
  if WideInt.lt v WideInt.zero then wrappingSub WideInt.zero v else return v

/-- `num / den` rounded, from its truncated quotient. -/
def divRound (num den quotientTrunc : W) (rounding : RoundingMode) : m W := do
  let rem ← wrappingSub num (← wrappingMul quotientTrunc den)
  if rem = WideInt.zero then
    return quotientTrunc
  let quotientNegative := WideInt.lt rem WideInt.zero ^^ WideInt.lt den WideInt.zero
  match rounding with
  | .towardZero => return quotientTrunc
  | .floor =>
    if quotientNegative then wrappingSub quotientTrunc WideInt.one else return quotientTrunc
  | .ceil =>
    if quotientNegative then return quotientTrunc else wrappingAdd quotientTrunc WideInt.one
  | .nearestEven => do
      let twiceRem ← shl (← wideAbs rem) 1
      let bump := match cmp twiceRem (← wideAbs den) with
        | .gt => true
        | .lt => false
        | .eq => isOdd quotientTrunc
      if !bump then
        return quotientTrunc
      else if quotientNegative then
        wrappingSub quotientTrunc WideInt.one
      else
        wrappingAdd quotientTrunc WideInt.one

end Rounding

section Narrowing

variable {w : ℕ} {W : Type} {m : Type → Type} [Monad m] [WideInt W m] [FixedStorage w W]

def fromWideChecked (wide : W) : Option (BitVec w) :=
  if !WideInt.lt wide (toWide (BitVec.intMin w)) && !WideInt.lt (toWide (BitVec.intMax w)) wide then
    some (fromWideWrapping wide)
  else
    none

def fromWideSaturating (wide : W) : BitVec w :=
  if WideInt.lt wide (toWide (BitVec.intMin w)) then BitVec.intMin w
  else if WideInt.lt (toWide (BitVec.intMax w)) wide then BitVec.intMax w
  else fromWideWrapping wide

def narrow (wide : W) : OverflowMode → Option (BitVec w)
  | .wrap => some (fromWideWrapping wide)
  | .checked => fromWideChecked wide
  | .saturate => some (fromWideSaturating wide)

end Narrowing

section Saturating

variable {w : ℕ}

/-- The difference clamped to the storage range. -/
def saturatingSub (a b : BitVec w) : BitVec w :=
  let exact := a.toInt - b.toInt
  if exact < (BitVec.intMin w).toInt then BitVec.intMin w
  else if (BitVec.intMax w).toInt < exact then BitVec.intMax w
  else BitVec.ofInt w exact

def saturatingAbs (x : BitVec w) : BitVec w :=
  if x.toInt < 0 then saturatingSub 0 x else x

end Saturating

/-! ## The operations -/

namespace Fixed

section Scalar

variable {w frac : ℕ}

def wrappingAdd (a b : Fixed w frac) : Fixed w frac :=
  ⟨a.raw + b.raw⟩

def abs (x : Fixed w frac) : Fixed w frac :=
  ⟨saturatingAbs x.raw⟩

end Scalar

variable {w frac : ℕ} (W : Type) {m : Type → Type} [Monad m] [WideInt W m] [FixedStorage w W]

def mulWide (a b : Fixed w frac) : m W :=
  WideInt.wrappingMul (toWide a.raw) (toWide b.raw)

def mulRounded (a b : Fixed w frac) (rounding : RoundingMode) (overflow : OverflowMode) :
    m (Option (Fixed w frac)) := do
  let shifted : W ← roundShift (← mulWide W a b) frac rounding
  return (narrow shifted overflow).map Fixed.mk

def wrappingMul (a b : Fixed w frac) : m (Fixed w frac) := do
  let shifted : W ← roundShift (← mulWide W a b) frac .towardZero
  return ⟨fromWideWrapping shifted⟩

def checkedMul (a b : Fixed w frac) : m (Option (Fixed w frac)) :=
  mulRounded W a b .towardZero .checked

def saturatingMul (a b : Fixed w frac) : m (Fixed w frac) := do
  return (← mulRounded W a b .towardZero .saturate).getD ⟨0⟩

def divRounded (a b : Fixed w frac) (rounding : RoundingMode) (overflow : OverflowMode) :
    m (Option (Fixed w frac)) := do
  if b.raw = 0 then
    return none
  let num : W ← shl (toWide a.raw) frac
  let den : W := toWide b.raw
  let quotient ← divTrunc num den
  let rounded ← divRound num den quotient rounding
  return (narrow rounded overflow).map Fixed.mk

/-- A panic is `none`. -/
def wrappingDiv (a b : Fixed w frac) : m (Option (Fixed w frac)) :=
  divRounded W a b .towardZero .wrap

def checkedDiv (a b : Fixed w frac) : m (Option (Fixed w frac)) :=
  divRounded W a b .towardZero .checked

/-- A panic is `none`. -/
def saturatingDiv (a b : Fixed w frac) : m (Option (Fixed w frac)) :=
  divRounded W a b .towardZero .saturate

/-- The same value with another number of fraction bits. -/
def rescale (toFrac : ℕ) (x : Fixed w frac) (rounding : RoundingMode) (overflow : OverflowMode) :
    m (Option (Fixed w toFrac)) := do
  let wide : W := toWide x.raw
  let shifted ←
    if toFrac ≥ frac then shl wide (toFrac - frac) else roundShift wide (frac - toFrac) rounding
  return (narrow shifted overflow).map Fixed.mk

end Fixed

/-- An exact integer narrowed to the storage range. -/
def narrowed (w : ℕ) (x : ℤ) : OverflowMode → Option (BitVec w)
  | .wrap => some (BitVec.ofInt w x)
  | .checked => if InRange w x then some (BitVec.ofInt w x) else none
  | .saturate => some (BitVec.ofInt w (max (-2 ^ (w - 1)) (min x (2 ^ (w - 1) - 1))))

/-! ## Rounding by a shift -/

section Rounded

/-- What a shift by some of the bits has room for. -/
theorem inRange_shift {n frac : ℕ} {v : ℤ} (hv : InRange n v) (hpos : 0 < frac) (hfrac : frac < n) :
    InRange n (v / 2 ^ frac * 2 ^ frac) ∧ InRange n (v - v / 2 ^ frac * 2 ^ frac) ∧
      InRange n (v / 2 ^ frac + 1) ∧ InRange n (1 * 2 ^ (frac - 1)) := by
  obtain ⟨e, rfl⟩ : ∃ e, n = frac + (e + 1) := ⟨n - frac - 1, by omega⟩
  obtain ⟨k, rfl⟩ : ∃ k, frac = k + 1 := ⟨frac - 1, by omega⟩
  have hhalf : (1 : ℤ) ≤ 2 ^ k := one_le_pow₀ (by norm_num)
  have hscale : (1 : ℤ) ≤ 2 ^ e := one_le_pow₀ (by norm_num)
  have hdouble : (2 : ℤ) ^ (k + 1) = 2 * 2 ^ k := pow_succ' 2 k
  have hwidth : (2 : ℤ) ^ (k + 1 + (e + 1)) = 2 * (2 ^ (k + 1) * 2 ^ e) := by
    rw [pow_add, pow_succ' 2 e]
    ring
  have hdiv : 0 < (2 : ℤ) ^ (k + 1) := by positivity
  rw [Nat.add_sub_cancel]
  simp only [InRange, hwidth] at hv ⊢
  generalize (2 : ℤ) ^ k = half at *
  generalize (2 : ℤ) ^ (k + 1) = unit at *
  generalize (2 : ℤ) ^ e = scale at *
  have hrem := Int.emod_add_mul_ediv v unit
  have hlow := Int.emod_nonneg v hdiv.ne'
  have hhigh := Int.emod_lt_of_pos v hdiv
  have hfloor : -scale ≤ v / unit := by
    rw [Int.le_ediv_iff_mul_le hdiv]
    linarith
  have hceil : v / unit < scale := by
    rw [Int.ediv_lt_iff_lt_mul hdiv]
    linarith
  have hunit : 2 * scale ≤ unit * scale := by nlinarith
  have hlarge : unit ≤ unit * scale := by nlinarith
  have hshifted : -(unit * scale) ≤ unit * (v / unit) := by nlinarith
  refine ⟨⟨?_, ?_⟩, ⟨?_, ?_⟩, ⟨?_, ?_⟩, ?_, ?_⟩ <;> linarith

variable {W : Type} {m : Type → Type} [Monad m] [LawfulMonad m] [WideInt W m] {n : ℕ}
  [hlaws : LawfulWide W m n]

omit [LawfulMonad m] in
theorem cmp_eq (x y : W) : cmp x y = compare (hlaws.val x) (hlaws.val y) := by
  unfold cmp
  rw [compare, instOrdInt]
  simp only [compareOfLessAndEq, ← hlaws.lt_iff, ← hlaws.val_injective.eq_iff]

omit [LawfulMonad m] in
theorem ne_zero_iff (x : W) : x ≠ WideInt.zero ↔ hlaws.val x ≠ 0 := by
  rw [← hlaws.val_zero, ne_eq, ne_eq, hlaws.val_injective.eq_iff]

/-- An integer over a power of two is its shift with the remainder on top. -/
theorem div_two_pow (v : ℤ) (frac : ℕ) :
    (v : ℚ) / 2 ^ frac = (v / 2 ^ frac : ℤ) + ((v - v / 2 ^ frac * 2 ^ frac : ℤ) : ℚ) / (2 ^ frac : ℤ) := by
  have hpos : (0 : ℚ) < 2 ^ frac := by positivity
  push_cast
  field_simp
  ring

/-- **Rounding by a shift.** -/
theorem roundShift_eq (value : W) {frac : ℕ} (mode : RoundingMode) (hfrac : frac < n) :
    ∃ w : W, roundShift value frac mode = pure w ∧
      hlaws.val w = mode.round (hlaws.val value / 2 ^ frac : ℚ) := by
  rcases Nat.eq_zero_or_pos frac with rfl | hpos
  · refine ⟨value, rfl, ?_⟩
    rw [pow_zero, div_one, Rounding.round_intCast]
  have hdiv : 0 < (2 : ℤ) ^ frac := by positivity
  obtain ⟨hback, hremainder, hnext, hhalf⟩ := inRange_shift (hlaws.inRange value) hpos hfrac
  obtain ⟨floor, hfloorRun, hfloor⟩ := hlaws.shr value frac
  obtain ⟨back, hbackRun, hbackVal⟩ := hlaws.shl floor frac (by rwa [hfloor])
  obtain ⟨rem, hremRun, hrem⟩ := hlaws.sub value back (by rwa [hbackVal, hfloor])
  obtain ⟨next, hnextRun, hnextVal⟩ := hlaws.add floor WideInt.one (by rwa [hfloor, hlaws.val_one])
  obtain ⟨half, hhalfRun, hhalfVal⟩ := hlaws.shl WideInt.one (frac - 1) (by rwa [hlaws.val_one])
  rw [hbackVal, hfloor] at hrem
  rw [hfloor, hlaws.val_one] at hnextVal
  rw [hlaws.val_one, one_mul] at hhalfVal
  have hq := div_two_pow (hlaws.val value) frac
  rw [← hfloor] at hq hrem hnextVal
  have hnonneg : 0 ≤ hlaws.val value - hlaws.val floor * 2 ^ frac := by
    have hmod := Int.emod_nonneg (hlaws.val value) hdiv.ne'
    have hsplit := Int.emod_add_mul_ediv (hlaws.val value) (2 ^ frac)
    rw [hfloor]
    linarith
  have hless : hlaws.val value - hlaws.val floor * 2 ^ frac < 2 ^ frac := by
    have hmod := Int.emod_lt_of_pos (hlaws.val value) hdiv
    have hsplit := Int.emod_add_mul_ediv (hlaws.val value) (2 ^ frac)
    rw [hfloor]
    linarith
  rw [← hrem] at hq hnonneg hless
  have hrun : roundShift value frac mode = match mode with
      | .floor => pure floor
      | .towardZero =>
        if WideInt.lt value WideInt.zero && rem ≠ WideInt.zero then pure next else pure floor
      | .ceil => if rem ≠ WideInt.zero then pure next else pure floor
      | .nearestEven => match cmp rem half with
          | .gt => pure next
          | .lt => pure floor
          | .eq => if isOdd floor then pure next else pure floor := by
    unfold roundShift
    simp only [hpos.ne', if_false, hfloorRun, pure_bind, hbackRun, hremRun, hnextRun, hhalfRun]
  rw [hrun]
  cases mode with
  | floor => exact ⟨floor, rfl, (floor_eq hq hnonneg hless).symm⟩
  | towardZero =>
    have hsign : WideInt.lt value WideInt.zero = true ↔ hlaws.val floor < 0 := by
      rw [hlaws.lt_iff, hlaws.val_zero, hfloor, Int.ediv_lt_iff_lt_mul hdiv, zero_mul]
    simp only [towardZero_eq hq hnonneg hless, ← hsign, ← ne_zero_iff, Bool.and_eq_true,
      decide_eq_true_eq]
    split
    · exact ⟨next, rfl, hnextVal⟩
    · exact ⟨floor, rfl, rfl⟩
  | ceil =>
    have hceil : Rounding.ceil.round (hlaws.val value / 2 ^ frac : ℚ) = _ :=
      ceil_eq hq hnonneg hless
    simp only [hceil, ne_zero_iff]
    by_cases hzero : hlaws.val rem = 0
    · rw [if_neg (not_not.mpr hzero), if_pos hzero]
      exact ⟨floor, rfl, rfl⟩
    · rw [if_pos hzero, if_neg hzero]
      exact ⟨next, rfl, hnextVal⟩
  | nearestEven =>
    have hdouble : (2 : ℤ) ^ frac = 2 * 2 ^ (frac - 1) := by
      rw [← pow_succ', Nat.sub_add_cancel hpos]
    rw [nearestEven_eq hq hnonneg hless, hdouble]
    simp only [cmp_eq, hhalfVal]
    rcases lt_trichotomy (hlaws.val rem) (2 ^ (frac - 1)) with hlt | heq | hgt
    · have hbelow : 2 * hlaws.val rem < 2 * 2 ^ (frac - 1) := by linarith
      rw [compare_lt_iff_lt.mpr hlt, if_pos hbelow]
      exact ⟨floor, rfl, rfl⟩
    · have hbelow : ¬ 2 * hlaws.val rem < 2 * 2 ^ (frac - 1) := by linarith
      have habove : ¬ 2 * 2 ^ (frac - 1) < 2 * hlaws.val rem := by linarith
      rw [compare_eq_iff_eq.mpr heq, if_neg hbelow, if_neg habove]
      by_cases hodd : isOdd floor = true
      · rw [if_neg ((hlaws.isOdd_iff floor).mp hodd)]
        simp only [hodd, if_true]
        exact ⟨next, rfl, hnextVal⟩
      · rw [if_pos (not_not.mp (mt (hlaws.isOdd_iff floor).mpr hodd))]
        simp only [hodd]
        exact ⟨floor, rfl, rfl⟩
    · have hbelow : ¬ 2 * hlaws.val rem < 2 * 2 ^ (frac - 1) := by linarith
      have habove : 2 * 2 ^ (frac - 1) < 2 * hlaws.val rem := by linarith
      rw [compare_gt_iff_gt.mpr hgt, if_neg hbelow, if_pos habove]
      exact ⟨next, rfl, hnextVal⟩

/-! ## Rounding by a remainder -/

omit [LawfulMonad m] in
theorem wideAbs_eq (v : W) (habs : InRange n |hlaws.val v|) :
    ∃ w : W, wideAbs v = pure w ∧ hlaws.val w = |hlaws.val v| := by
  unfold wideAbs
  by_cases hneg : hlaws.val v < 0
  · have hlt : WideInt.lt v WideInt.zero = true := by
      rwa [hlaws.lt_iff, hlaws.val_zero]
    rw [abs_of_neg hneg] at habs ⊢
    obtain ⟨w, hrun, hval⟩ := hlaws.sub WideInt.zero v (by rwa [hlaws.val_zero, zero_sub])
    rw [hlaws.val_zero, zero_sub] at hval
    exact ⟨w, by rw [if_pos hlt, hrun], hval⟩
  · have hlt : ¬ WideInt.lt v WideInt.zero = true := by
      rwa [hlaws.lt_iff, hlaws.val_zero]
    rw [abs_of_nonneg (not_lt.mp hneg)]
    exact ⟨v, by rw [if_neg hlt], rfl⟩

section Quotient

variable {a b r : ℤ} (hb : b ≠ 0) (hr : r = a - a.tdiv b * b)

include hb hr

theorem abs_remainder_lt : |r| < |b| := by
  have hmod : r = a.tmod b := by
    rw [hr, Int.tmod_def, mul_comm]
  rw [hmod, Int.abs_eq_natAbs, Int.abs_eq_natAbs, Int.natAbs_tmod]
  exact_mod_cast Nat.mod_lt _ (Int.natAbs_pos.mpr hb)

omit hb in
theorem neg_of_remainder (hzero : r ≠ 0) : r < 0 ↔ a < 0 := by
  have hmod : r = a.tmod b := by
    rw [hr, Int.tmod_def, mul_comm]
  constructor
  · intro hneg
    by_contra ha
    have hnonneg := Int.tmod_nonneg b (not_lt.mp ha)
    omega
  · intro ha
    have hnonneg := Int.tmod_nonneg b (neg_nonneg.mpr ha.le)
    rw [Int.neg_tmod] at hnonneg
    omega

theorem div_eq_tdiv_add : (a : ℚ) / b = a.tdiv b + (r : ℚ) / b := by
  have hcast : (b : ℚ) ≠ 0 := by exact_mod_cast hb
  rw [hr]
  push_cast
  field_simp
  ring

/-- A quotient that is not negative is its truncation with the remainder on top. -/
theorem div_of_same_sign (hsign : r < 0 ↔ b < 0) (hzero : r ≠ 0) :
    (a : ℚ) / b = (a.tdiv b : ℤ) + ((|r| : ℤ) : ℚ) / (|b| : ℤ) ∧ 0 ≤ a.tdiv b := by
  have hnum := neg_of_remainder hr hzero
  rcases lt_or_ge b 0 with hneg | hpos
  · have hrneg := hsign.mpr hneg
    constructor
    · rw [div_eq_tdiv_add hb hr, abs_of_neg hneg, abs_of_neg hrneg]
      push_cast
      rw [neg_div_neg_eq]
    · exact Int.tdiv_nonneg_of_nonpos_of_nonpos (hnum.mp hrneg).le hneg.le
  · have hrpos : ¬ r < 0 := mt hsign.mp (not_lt.mpr hpos)
    constructor
    · rw [div_eq_tdiv_add hb hr, abs_of_nonneg hpos, abs_of_nonneg (not_lt.mp hrpos)]
    · exact Int.tdiv_nonneg (not_lt.mp (mt hnum.mpr hrpos)) hpos

/-- A quotient that is negative is one less than its truncation, with what the remainder leaves of
the divisor on top. -/
theorem div_of_opposite_sign (hsign : ¬ (r < 0 ↔ b < 0)) (hzero : r ≠ 0) :
    (a : ℚ) / b = (a.tdiv b - 1 : ℤ) + ((|b| - |r| : ℤ) : ℚ) / (|b| : ℤ) ∧ a.tdiv b ≤ 0 := by
  have hnum := neg_of_remainder hr hzero
  have hcast : (b : ℚ) ≠ 0 := by exact_mod_cast hb
  rcases lt_or_ge b 0 with hneg | hpos
  · have hrpos : ¬ r < 0 := fun hrneg ↦ hsign ⟨fun _ ↦ hneg, fun _ ↦ hrneg⟩
    constructor
    · rw [div_eq_tdiv_add hb hr, abs_of_neg hneg, abs_of_nonneg (not_lt.mp hrpos)]
      push_cast
      field_simp
      ring
    · exact Int.tdiv_nonpos_of_nonneg_of_nonpos (not_lt.mp (mt hnum.mpr hrpos)) hneg.le
  · have hrneg : r < 0 := by
      by_contra hrpos
      exact hsign ⟨fun h ↦ absurd h hrpos, fun h ↦ absurd h (not_lt.mpr hpos)⟩
    constructor
    · rw [div_eq_tdiv_add hb hr, abs_of_nonneg hpos, abs_of_neg hrneg]
      push_cast
      field_simp
      ring
    · have hopposite : 0 ≤ (-a).tdiv b := Int.tdiv_nonneg (by linarith [hnum.mp hrneg]) hpos
      rw [Int.neg_tdiv] at hopposite
      linarith

end Quotient

/-- What a division has room for when its operands leave two bits free. -/
theorem inRange_quotient {n : ℕ} {a b r : ℤ} (hn : 2 ≤ n) (ha : 4 * |a| ≤ 2 ^ n)
    (hbound : 4 * |b| ≤ 2 ^ n) (hb : b ≠ 0) (hr : r = a - a.tdiv b * b) :
    InRange n (a.tdiv b) ∧ InRange n (a.tdiv b * b) ∧ InRange n r ∧ InRange n |r| ∧
      InRange n |b| ∧ InRange n (|r| * 2 ^ 1) ∧
        (r ≠ 0 → InRange n (a.tdiv b + 1) ∧ InRange n (a.tdiv b - 1)) := by
  have hless := abs_remainder_lt hb hr
  have hwide : (2 : ℤ) ^ 2 ≤ 2 ^ n := pow_le_pow_right₀ (by norm_num) hn
  have hsize : |a.tdiv b| * |b| ≤ |a| := by
    rw [Int.abs_eq_natAbs, Int.abs_eq_natAbs, Int.abs_eq_natAbs, Int.natAbs_tdiv]
    exact_mod_cast Nat.div_mul_le_self _ _
  have hone : 1 ≤ |b| := Int.one_le_abs hb
  have hquotient : |a.tdiv b| ≤ |a| := by nlinarith [abs_nonneg (a.tdiv b)]
  have hproduct : |a.tdiv b * b| ≤ |a| := by rwa [abs_mul]
  have hhalf : r ≠ 0 → 2 * |a.tdiv b| ≤ |a| := by
    intro hzero
    have htwo : 2 ≤ |b| := by linarith [Int.one_le_abs hzero]
    nlinarith [abs_nonneg (a.tdiv b)]
  have habs : ∀ x : ℤ, 2 * |x| < 2 ^ n → InRange n x := by
    intro x hx
    constructor
    · linarith [neg_abs_le x]
    · linarith [le_abs_self x]
  refine ⟨habs _ ?_, habs _ ?_, habs _ ?_, habs _ ?_, habs _ ?_, habs _ ?_, fun hzero ↦
    ⟨habs _ ?_, habs _ ?_⟩⟩
  · linarith
  · linarith
  · linarith
  · rw [abs_abs]
    linarith
  · rw [abs_abs]
    linarith
  · rw [abs_mul, abs_abs]
    norm_num
    linarith
  · linarith [abs_add_le (a.tdiv b) 1, hhalf hzero, abs_one (α := ℤ)]
  · linarith [abs_sub (a.tdiv b) 1, hhalf hzero, abs_one (α := ℤ)]

omit [LawfulMonad m] in
/-- The nearest of two neighbours, with the even one on a tie, from twice the distance to the lower
one. -/
theorem nearest_of_compare {low high twice unit : W} (hhigh : hlaws.val high = hlaws.val low + 1) :
    ∃ w : W, (match cmp twice unit with
      | .gt => pure high
      | .lt => pure low
      | .eq => if isOdd low then pure high else pure low : m W) = pure w ∧
      hlaws.val w = if hlaws.val twice < hlaws.val unit then hlaws.val low
        else if hlaws.val unit < hlaws.val twice then hlaws.val low + 1
        else if Even (hlaws.val low) then hlaws.val low else hlaws.val low + 1 := by
  rw [cmp_eq]
  rcases lt_trichotomy (hlaws.val twice) (hlaws.val unit) with hlt | heq | hgt
  · rw [compare_lt_iff_lt.mpr hlt, if_pos hlt]
    exact ⟨low, rfl, rfl⟩
  · rw [compare_eq_iff_eq.mpr heq, if_neg heq.not_lt, if_neg heq.not_gt]
    by_cases hodd : isOdd low = true
    · simp only [if_pos hodd, if_neg ((hlaws.isOdd_iff low).mp hodd)]
      exact ⟨high, rfl, hhigh⟩
    · simp only [if_neg hodd, if_pos (not_not.mp (mt (hlaws.isOdd_iff low).mpr hodd))]
      exact ⟨low, rfl, rfl⟩
  · rw [compare_gt_iff_gt.mpr hgt, if_neg hgt.not_gt, if_pos hgt]
    exact ⟨high, rfl, hhigh⟩

omit [LawfulMonad m] in
/-- As `nearest_of_compare`, from twice the distance to the upper one. -/
theorem nearest_of_compare_mirrored {low high twice unit : W}
    (hhigh : hlaws.val high = hlaws.val low + 1) :
    ∃ w : W, (match cmp twice unit with
      | .gt => pure low
      | .lt => pure high
      | .eq => if isOdd high then pure low else pure high : m W) = pure w ∧
      hlaws.val w = if 2 * hlaws.val unit - hlaws.val twice < hlaws.val unit then hlaws.val low
        else if hlaws.val unit < 2 * hlaws.val unit - hlaws.val twice then hlaws.val low + 1
        else if Even (hlaws.val low) then hlaws.val low else hlaws.val low + 1 := by
  have hparity : Even (hlaws.val low) ↔ isOdd high = true := by
    rw [hlaws.isOdd_iff, hhigh, Int.even_add_one, not_not]
  rw [cmp_eq]
  rcases lt_trichotomy (hlaws.val twice) (hlaws.val unit) with hlt | heq | hgt
  · have hfar : ¬ 2 * hlaws.val unit - hlaws.val twice < hlaws.val unit := by linarith
    have hnear : hlaws.val unit < 2 * hlaws.val unit - hlaws.val twice := by linarith
    rw [compare_lt_iff_lt.mpr hlt, if_neg hfar, if_pos hnear]
    exact ⟨high, rfl, hhigh⟩
  · have hbelow : ¬ 2 * hlaws.val unit - hlaws.val twice < hlaws.val unit := by linarith
    have habove : ¬ hlaws.val unit < 2 * hlaws.val unit - hlaws.val twice := by linarith
    rw [compare_eq_iff_eq.mpr heq, if_neg hbelow, if_neg habove]
    simp only [hparity]
    by_cases hodd : isOdd high = true
    · rw [if_pos hodd, if_pos hodd]
      exact ⟨low, rfl, rfl⟩
    · rw [if_neg hodd, if_neg hodd]
      exact ⟨high, rfl, hhigh⟩
  · have hnear : 2 * hlaws.val unit - hlaws.val twice < hlaws.val unit := by linarith
    rw [compare_gt_iff_gt.mpr hgt, if_pos hnear]
    exact ⟨low, rfl, rfl⟩

/-- **Rounding by a remainder.** -/
theorem divRound_eq (num den quotient : W) (mode : RoundingMode) (hn : 2 ≤ n)
    (hnum : 4 * |hlaws.val num| ≤ 2 ^ n) (hden : 4 * |hlaws.val den| ≤ 2 ^ n)
    (hzero : hlaws.val den ≠ 0)
    (hquotient : hlaws.val quotient = (hlaws.val num).tdiv (hlaws.val den)) :
    ∃ w : W, divRound num den quotient mode = pure w ∧
      hlaws.val w = mode.round (hlaws.val num / hlaws.val den : ℚ) := by
  obtain ⟨-, hproduct, hremainder, hremAbs, hdenAbs, htwice, hbump⟩ :=
    inRange_quotient hn hnum hden hzero rfl
  rw [← hquotient] at hproduct hremainder hremAbs htwice hbump
  obtain ⟨product, hproductRun, hproductVal⟩ := hlaws.mul quotient den hproduct
  obtain ⟨rem, hremRun, hrem⟩ := hlaws.sub num product (by rwa [hproductVal])
  rw [hproductVal] at hrem
  rw [← hrem] at hremAbs htwice hbump
  have hr : hlaws.val rem =
      hlaws.val num - (hlaws.val num).tdiv (hlaws.val den) * hlaws.val den := by
    rw [hrem, hquotient]
  by_cases hexact : hlaws.val rem = 0
  · have hrun : divRound num den quotient mode = pure quotient := by
      have hrem0 : rem = WideInt.zero := by
        rwa [← hlaws.val_injective.eq_iff, hlaws.val_zero]
      unfold divRound
      simp only [hproductRun, pure_bind, hremRun, if_pos hrem0]
    have hdiv := div_eq_tdiv_add hzero hr
    rw [hexact, Int.cast_zero, zero_div, add_zero] at hdiv
    refine ⟨quotient, hrun, ?_⟩
    rw [hdiv, Rounding.round_intCast, hquotient]
  obtain ⟨hnextRange, hpreviousRange⟩ := hbump hexact
  obtain ⟨next, hnextRun, hnext⟩ :=
    hlaws.add quotient WideInt.one (by rwa [hlaws.val_one])
  obtain ⟨previous, hpreviousRun, hprevious⟩ :=
    hlaws.sub quotient WideInt.one (by rwa [hlaws.val_one])
  obtain ⟨remAbs, hremAbsRun, hremAbsVal⟩ := wideAbs_eq rem hremAbs
  obtain ⟨denAbs, hdenAbsRun, hdenAbsVal⟩ := wideAbs_eq den hdenAbs
  obtain ⟨twice, htwiceRun, htwiceVal⟩ := hlaws.shl remAbs 1 (by rwa [hremAbsVal])
  rw [hlaws.val_one] at hnext hprevious
  rw [hremAbsVal, pow_one] at htwiceVal
  have hrun : divRound num den quotient mode =
      bif WideInt.lt rem WideInt.zero ^^ WideInt.lt den WideInt.zero then
        match mode with
        | .towardZero => pure quotient
        | .floor => pure previous
        | .ceil => pure quotient
        | .nearestEven => match cmp twice denAbs with
            | .gt => pure previous
            | .lt => pure quotient
            | .eq => if isOdd quotient then pure previous else pure quotient
      else
        match mode with
        | .towardZero => pure quotient
        | .floor => pure quotient
        | .ceil => pure next
        | .nearestEven => match cmp twice denAbs with
            | .gt => pure next
            | .lt => pure quotient
            | .eq => if isOdd quotient then pure next else pure quotient := by
    have hrem0 : ¬ rem = WideInt.zero := by
      rwa [← hlaws.val_injective.eq_iff, hlaws.val_zero]
    unfold divRound
    simp only [hproductRun, pure_bind, hremRun, if_neg hrem0, hnextRun, hpreviousRun, hremAbsRun,
      htwiceRun, hdenAbsRun]
    cases WideInt.lt rem WideInt.zero ^^ WideInt.lt den WideInt.zero <;> cases mode <;>
      cases cmp twice denAbs <;> cases isOdd quotient <;> rfl
  have hsign : (WideInt.lt rem WideInt.zero ^^ WideInt.lt den WideInt.zero) = false ↔
      (hlaws.val rem < 0 ↔ hlaws.val den < 0) := by
    rw [← hlaws.val_zero, ← hlaws.lt_iff, ← hlaws.lt_iff, ← Bool.eq_iff_iff]
    cases WideInt.lt rem WideInt.zero <;> cases WideInt.lt den WideInt.zero <;> simp
  have hless := abs_remainder_lt hzero hr
  have hpositive : 0 < |hlaws.val rem| := abs_pos.mpr hexact
  by_cases hsame : hlaws.val rem < 0 ↔ hlaws.val den < 0
  · obtain ⟨hdiv, hnonneg⟩ := div_of_same_sign hzero hr hsame hexact
    rw [← hquotient] at hdiv hnonneg
    rw [hrun, hsign.mpr hsame, cond_false]
    cases mode with
    | towardZero =>
      have hkept : ¬ (hlaws.val quotient < 0 ∧ |hlaws.val rem| ≠ 0) := fun hneg ↦
        not_lt.mpr hnonneg hneg.1
      rw [towardZero_eq hdiv hpositive.le hless, if_neg hkept]
      exact ⟨quotient, rfl, rfl⟩
    | floor => exact ⟨quotient, rfl, (floor_eq hdiv hpositive.le hless).symm⟩
    | ceil =>
      have hceil : Rounding.ceil.round (hlaws.val num / hlaws.val den : ℚ) = _ :=
        ceil_eq hdiv hpositive.le hless
      rw [hceil, if_neg hpositive.ne']
      exact ⟨next, rfl, hnext⟩
    | nearestEven =>
      rw [nearestEven_eq hdiv hpositive.le hless, mul_comm, ← htwiceVal, ← hdenAbsVal]
      exact nearest_of_compare hnext
  · obtain ⟨hdiv, hnonpos⟩ := div_of_opposite_sign hzero hr hsame hexact
    rw [← hquotient, ← hprevious] at hdiv
    rw [← hquotient] at hnonpos
    have hleft : 0 ≤ |hlaws.val den| - |hlaws.val rem| := sub_nonneg.mpr hless.le
    have hpart : |hlaws.val den| - |hlaws.val rem| < |hlaws.val den| := sub_lt_self _ hpositive
    have hrest : |hlaws.val den| - |hlaws.val rem| ≠ 0 := (sub_pos.mpr hless).ne'
    have hback : hlaws.val quotient = hlaws.val previous + 1 := by
      rw [hprevious, sub_add_cancel]
    rw [hrun, Bool.eq_true_of_not_eq_false (mt hsign.mp hsame), cond_true]
    cases mode with
    | towardZero =>
      have hbelow : hlaws.val previous < 0 ∧ |hlaws.val den| - |hlaws.val rem| ≠ 0 :=
        ⟨by omega, hrest⟩
      rw [towardZero_eq hdiv hleft hpart, if_pos hbelow]
      exact ⟨quotient, rfl, hback⟩
    | floor => exact ⟨previous, rfl, (floor_eq hdiv hleft hpart).symm⟩
    | ceil =>
      have hceil : Rounding.ceil.round (hlaws.val num / hlaws.val den : ℚ) = _ :=
        ceil_eq hdiv hleft hpart
      rw [hceil, if_neg hrest]
      exact ⟨quotient, rfl, hback⟩
    | nearestEven =>
      have hmirror : 2 * (|hlaws.val den| - |hlaws.val rem|) =
          2 * hlaws.val denAbs - hlaws.val twice := by
        rw [hdenAbsVal, htwiceVal]
        ring
      rw [nearestEven_eq hdiv hleft hpart, hmirror, ← hdenAbsVal]
      exact nearest_of_compare_mirrored hback

end Rounded

/-! ## Narrowing -/

section Narrowed

variable {w : ℕ} [NeZero w] {W : Type} {m : Type → Type} [Monad m] [WideInt W m]
  [FixedStorage w W] [hlaws : LawfulStorage w W m]

omit [NeZero w] in
theorem two_pow_split (hpos : 0 < w) : (2 : ℤ) ^ w = 2 * 2 ^ (w - 1) := by
  rw [← pow_succ', Nat.sub_add_cancel hpos]

theorem toInt_intMin_eq : (BitVec.intMin w).toInt = -2 ^ (w - 1) := by
  rw [BitVec.toInt_intMin_of_pos (NeZero.pos w)]

omit [NeZero w] in
theorem toInt_intMax_eq : (BitVec.intMax w).toInt = 2 ^ (w - 1) - 1 := by
  rw [BitVec.toInt_intMax]

/-- **Narrowing** is that of the integer that the accumulator holds. -/
theorem narrow_eq (wide : W) (overflow : OverflowMode) :
    narrow wide overflow = narrowed w (hlaws.val wide) overflow := by
  have hlow : WideInt.lt wide (toWide (BitVec.intMin w)) = true ↔
      hlaws.val wide < -2 ^ (w - 1) := by
    rw [hlaws.lt_iff, hlaws.val_toWide, toInt_intMin_eq]
  have hhigh : WideInt.lt (toWide (BitVec.intMax w)) wide = true ↔
      2 ^ (w - 1) - 1 < hlaws.val wide := by
    rw [hlaws.lt_iff, hlaws.val_toWide, toInt_intMax_eq]
  have hunit : (1 : ℤ) ≤ 2 ^ (w - 1) := one_le_pow₀ (by norm_num)
  have hwidth := two_pow_split (NeZero.pos w)
  cases overflow with
  | wrap => rw [narrow, narrowed, hlaws.fromWideWrapping_eq]
  | checked =>
    have hrange : (!WideInt.lt wide (toWide (BitVec.intMin w)) &&
        !WideInt.lt (toWide (BitVec.intMax w)) wide) = true ↔ InRange w (hlaws.val wide) := by
      rw [Bool.and_eq_true, Bool.not_eq_true', Bool.not_eq_true', ← Bool.not_eq_true,
        ← Bool.not_eq_true, hlow, hhigh, InRange, hwidth]
      constructor
      · rintro ⟨hnear, hfar⟩
        constructor
        · linarith
        · linarith
      · rintro ⟨hnear, hfar⟩
        constructor
        · linarith
        · linarith
    simp only [narrow, narrowed, fromWideChecked, hrange, hlaws.fromWideWrapping_eq]
  | saturate =>
    rw [narrow, narrowed, fromWideSaturating]
    simp only [hlow, hhigh, hlaws.fromWideWrapping_eq]
    rcases lt_or_ge (hlaws.val wide) (-2 ^ (w - 1)) with hsmall | hsmall
    · rw [if_pos hsmall, max_eq_left (min_le_of_left_le hsmall.le), ← toInt_intMin_eq,
        BitVec.ofInt_toInt]
    · rw [if_neg hsmall.not_gt]
      rcases lt_or_ge (2 ^ (w - 1) - 1) (hlaws.val wide) with hlarge | hlarge
      · rw [if_pos hlarge, min_eq_right hlarge.le, max_eq_right (by linarith), ← toInt_intMax_eq,
          BitVec.ofInt_toInt]
      · rw [if_neg hlarge.not_gt, min_eq_left hlarge, max_eq_right hsmall]

end Narrowed

end SoulSystem.Scirust
