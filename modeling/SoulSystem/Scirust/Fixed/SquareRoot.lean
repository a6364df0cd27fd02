import Mathlib.Analysis.SpecialFunctions.Pow.Real
import SoulSystem.Library.Newton
import SoulSystem.Scirust.Fixed.Truncation

/-!
# Square roots and reciprocal square roots

The root of a number is the root of its integer with the fraction bits appended, rounded down, which
Newton's iteration finds from above.  Its reciprocal is a truncated quotient.  Of a number that is
not below one it is off by less than two units.  Below one, the part that the root has lost is
magnified, and may be larger than that.
-/

namespace SoulSystem.Scirust.Fixed

open Library

/-! ## Definitions -/

section Definitions

variable {w frac : ℕ} (W : Type) {m : Type → Type} [Monad m] [WideInt W m] [FixedStorage w W]

variable {W} in
/-- The loop from a root with its next value.  There is no result if the budget is used up. -/
def newtonLoop (n : W) : ℕ → W → W → m (Option W)
  | 0, _, _ => return none
  | budget + 1, x, y =>
    if WideInt.lt y x then do
      let next ← shr (← WideInt.wrappingAdd y (← divTrunc n y)) 1
      newtonLoop n budget y next
    else
      return some x

variable {W} in
def wideIsqrt (budget : ℕ) (n : W) : m (Option W) :=
  if WideInt.lt WideInt.one n then do
    let y ← shr (← WideInt.wrappingAdd n WideInt.one) 1
    newtonLoop n budget n y
  else
    return some n

def sqrt (budget : ℕ) (x : Fixed w frac) : m (Option (Fixed w frac)) :=
  if x.raw.toInt ≤ 0 then
    return some ⟨0⟩
  else do
    let widened : W ← shl (toWide x.raw) frac
    let root ← wideIsqrt budget widened
    return root.map fun r ↦ ⟨fromWideSaturating r⟩

def reciprocal (x : Fixed w frac) : m (Option (Fixed w frac)) :=
  divRounded W one x .towardZero .checked

def rsqrt (budget : ℕ) (x : Fixed w frac) : m (Option (Option (Fixed w frac))) := do
  match ← sqrt W budget x with
  | none => return none
  | some root => return some (← reciprocal W root)

end Definitions

/-! ## The root -/

section Root

variable {W : Type} {m : Type → Type} [Monad m] [LawfulMonad m] [WideInt W m] {n : ℕ}
  [hlaws : LawfulWide W m n]

/-- **Newton's iteration** ends at the root, which every pass of the loop approaches from above. -/
theorem newtonLoop_eq {v : W} (hv : 0 < hlaws.val v) (hroom : InRange n (hlaws.val v + 1))
    (budget : ℕ) {x y : W} (hx : 0 < hlaws.val x) (hxv : hlaws.val x ≤ hlaws.val v)
    (hy : hlaws.val y = newtonStep (hlaws.val v) (hlaws.val x))
    (hupper : hlaws.val v < (hlaws.val x + 1) * (hlaws.val x + 1))
    (hbudget : hlaws.val x ≤ budget) :
    ∃ root : W, newtonLoop v budget x y = pure (some root) ∧
      hlaws.val root = Nat.sqrt (hlaws.val v).toNat := by
  induction budget generalizing x y with
  | zero => omega
  | succ budget ih =>
    rw [newtonLoop]
    by_cases hless : hlaws.val y < hlaws.val x
    · rw [if_pos ((hlaws.lt_iff y x).mpr hless)]
      have hypos : 0 < hlaws.val y := hy ▸ Newton.newtonStep_pos hv hx
      have hyv : hlaws.val y ≤ hlaws.val v := by omega
      have hquotient : 0 ≤ hlaws.val v / hlaws.val y := Int.ediv_nonneg hv.le hypos.le
      have htdiv : (hlaws.val v).tdiv (hlaws.val y) = hlaws.val v / hlaws.val y :=
        Int.tdiv_eq_ediv_of_nonneg hv.le
      have hsum := Newton.add_div_le hypos hyv
      have hwidth : (0 : ℤ) < 2 ^ n := by positivity
      obtain ⟨q, hqRun, hq⟩ := hlaws.divTrunc v y hypos.ne' (by
        rw [htdiv]
        exact ⟨by linarith [hroom.1], by linarith [hroom.2]⟩)
      obtain ⟨s, hsRun, hs⟩ := hlaws.add y q (by
        rw [hq, htdiv]
        exact ⟨by linarith [hroom.1], by linarith [hroom.2]⟩)
      obtain ⟨next, hnextRun, hnext⟩ := hlaws.shr s 1
      simp only [hqRun, hsRun, hnextRun, pure_bind]
      refine ih hypos hyv ?_ ?_ (by omega)
      · rw [hnext, hs, hq, htdiv, newtonStep, pow_one]
      · rw [hy]
        exact Newton.lt_newtonStep_sq hx hv.le
    · rw [if_neg (mt (hlaws.lt_iff y x).mp hless)]
      have hlow := Newton.sq_le_of_le_newtonStep hx (hy ▸ not_lt.mp hless)
      exact ⟨x, rfl, Newton.eq_sqrt hx.le hlow hupper⟩

theorem wideIsqrt_eq {v : W} (hv : 0 ≤ hlaws.val v) (hroom : InRange n (hlaws.val v + 1))
    {budget : ℕ} (hbudget : hlaws.val v ≤ budget) :
    ∃ root : W, wideIsqrt budget v = pure (some root) ∧
      hlaws.val root = Nat.sqrt (hlaws.val v).toNat := by
  rw [wideIsqrt]
  by_cases hlarge : 1 < hlaws.val v
  · rw [if_pos ((hlaws.lt_iff _ _).mpr (by rwa [hlaws.val_one]))]
    obtain ⟨s, hsRun, hs⟩ := hlaws.add v WideInt.one (by rwa [hlaws.val_one])
    obtain ⟨y, hyRun, hy⟩ := hlaws.shr s 1
    simp only [hsRun, hyRun, pure_bind]
    refine newtonLoop_eq (by omega) hroom budget (by omega) le_rfl ?_ (by nlinarith) hbudget
    rw [hy, hs, hlaws.val_one, newtonStep, Int.ediv_self (by omega), pow_one]
  · rw [if_neg (mt (hlaws.lt_iff _ _).mp (by rwa [hlaws.val_one]))]
    refine ⟨v, rfl, ?_⟩
    have hsmall : hlaws.val v = 0 ∨ hlaws.val v = 1 := by omega
    rcases hsmall with hzero | hone
    · rw [hzero]
      rfl
    · rw [hone]
      rfl

end Root

section Sqrt

variable {w frac : ℕ} [NeZero w] (W : Type) {m : Type → Type} [Monad m] [LawfulMonad m]
  [WideInt W m] [FixedStorage w W] [hlaws : LawfulStorage w W m]

/-- The integer of a number with the fraction bits appended. -/
def widened (x : Fixed w frac) : ℕ := x.raw.toInt.toNat * 2 ^ frac

omit [NeZero w] in
theorem widened_eq {x : Fixed w frac} (hx : 0 < x.raw.toInt) :
    (widened x : ℤ) = x.raw.toInt * 2 ^ frac := by
  rw [widened, Nat.cast_mul, Int.toNat_of_nonneg hx.le, Nat.cast_pow, Nat.cast_ofNat]

theorem widened_lt (hfrac : frac < w) (x : Fixed w frac) :
    widened x < 2 ^ (w - 1) * 2 ^ (w - 1) := by
  have hsplit : (2 : ℤ) ^ w = 2 * 2 ^ (w - 1) := two_pow_split (NeZero.pos w)
  have hpos : (0 : ℤ) < 2 ^ (w - 1) := by positivity
  have hraw : x.raw.toInt.toNat < 2 ^ (w - 1) := by
    have hhigh := (inRange_toInt x.raw).2
    zify
    omega
  have hunit : 2 ^ frac ≤ 2 ^ (w - 1) := Nat.pow_le_pow_right (by norm_num) (by omega)
  exact Nat.mul_lt_mul_of_lt_of_le hraw hunit (by positivity)

/-- A root leaves the sign bit free. -/
theorem sqrt_widened_lt (hfrac : frac < w) (x : Fixed w frac) :
    Nat.sqrt (widened x) < 2 ^ (w - 1) := Nat.sqrt_lt.mpr (widened_lt hfrac x)

/-- **The square root** is the root of the widened integer, rounded down. -/
theorem sqrt_eq (hfrac : frac < w) {x : Fixed w frac} (hx : 0 < x.raw.toInt) {budget : ℕ}
    (hbudget : widened x ≤ budget) :
    sqrt W budget x = pure (some ⟨BitVec.ofInt w (Nat.sqrt (widened x))⟩) := by
  have hwidened := widened_eq hx
  have hsize : 4 * (widened x : ℤ) + 4 ≤ 2 ^ (2 * w) := by
    have hsquare : (2 : ℤ) ^ (2 * w) = 4 * (2 ^ (w - 1) * 2 ^ (w - 1)) := by
      rw [two_mul, pow_add, two_pow_split (NeZero.pos w)]
      ring
    have hlt : (widened x : ℤ) < 2 ^ (w - 1) * 2 ^ (w - 1) := by
      exact_mod_cast widened_lt hfrac x
    rw [hsquare]
    linarith
  have hpos : 0 < widened x := by
    have hcast : (0 : ℤ) < widened x := by
      rw [hwidened]
      positivity
    exact_mod_cast hcast
  obtain ⟨v, hvRun, hv⟩ := hlaws.shl (toWide x.raw) frac (by
    rw [hlaws.val_toWide, ← hwidened]
    exact ⟨by linarith, by linarith⟩)
  rw [hlaws.val_toWide, ← hwidened] at hv
  have hloop : hlaws.val v ≤ budget := by omega
  obtain ⟨root, hrootRun, hroot⟩ := wideIsqrt_eq (v := v) (by omega)
    (by rw [hv]; exact ⟨by linarith, by linarith⟩) hloop
  rw [hv, Int.toNat_natCast] at hroot
  have hless := sqrt_widened_lt hfrac x
  have hnarrow := narrow_eq root .saturate
  rw [hroot, narrowed, narrow, Option.some_inj] at hnarrow
  rw [sqrt, if_neg (not_le.mpr hx)]
  have hlessInt : (Nat.sqrt (widened x) : ℤ) < 2 ^ (w - 1) := by exact_mod_cast hless
  simp only [hvRun, hrootRun, pure_bind, Option.map_some, hnarrow]
  rw [min_eq_left (by omega), max_eq_right (by linarith [show (0 : ℤ) < 2 ^ (w - 1) by positivity])]

omit [NeZero w] in
theorem sqrt_widened_pos {x : Fixed w frac} (hx : 0 < x.raw.toInt) : 0 < Nat.sqrt (widened x) := by
  have hraw : 0 < x.raw.toInt.toNat := by omega
  rw [Nat.sqrt_pos, widened]
  positivity

theorem toInt_sqrt (hfrac : frac < w) (x : Fixed w frac) :
    (BitVec.ofInt w (Nat.sqrt (widened x))).toInt = Nat.sqrt (widened x) := by
  have hless : (Nat.sqrt (widened x) : ℤ) < 2 ^ (w - 1) := by
    exact_mod_cast sqrt_widened_lt hfrac x
  exact toInt_ofInt_eq_self (inRange_iff_abs (by rwa [Nat.abs_cast]))

/-- One in a format without integer bits is its most negative number. -/
theorem toInt_one_of_eq (hfrac : frac + 1 = w) :
    (one : Fixed w frac).raw.toInt = -2 ^ (w - 1) := by
  have hsplit : (2 : ℤ) ^ w = 2 * 2 ^ (w - 1) := two_pow_split (NeZero.pos w)
  have hwidth : w - 1 = frac := by omega
  have hvalue : (one : Fixed w frac).raw = BitVec.intMin w := by
    apply BitVec.eq_of_toNat_eq
    rw [one, BitVec.toNat_shiftLeft, BitVec.toNat_intMin, BitVec.toNat_ofNat, Nat.shiftLeft_eq,
      hwidth, Nat.mod_mul_mod, one_mul]
  rw [hvalue, toInt_intMin_eq]

/-- The quotient of one by a root fits exactly if there is an integer bit and the quotient is small
enough. -/
theorem inRange_one_div (hfrac : frac < w) {s : ℕ} (hpos : 0 < s) (hless : s < 2 ^ (w - 1)) :
    InRange w (((one : Fixed w frac).raw.toInt * 2 ^ frac).tdiv s) ↔
      frac + 1 < w ∧ 2 ^ (2 * frac) / s < 2 ^ (w - 1) := by
  have hsplit : (2 : ℤ) ^ w = 2 * 2 ^ (w - 1) := two_pow_split (NeZero.pos w)
  by_cases hinteger : frac + 1 < w
  · have hquotient : ((one : Fixed w frac).raw.toInt * 2 ^ frac).tdiv s =
        (2 ^ (2 * frac) / s : ℕ) := by
      rw [toInt_one (by omega), ← pow_add, ← two_mul, Int.tdiv_eq_ediv_of_nonneg (by positivity)]
      push_cast
      rfl
    rw [hquotient, InRange, hsplit]
    have hnonneg : (0 : ℤ) ≤ (2 ^ (2 * frac) / s : ℕ) := Nat.cast_nonneg _
    have hunit : (0 : ℤ) < 2 ^ (w - 1) := by positivity
    constructor
    · rintro ⟨-, hhigh⟩
      refine ⟨hinteger, ?_⟩
      zify
      push_cast at hhigh
      linarith
    · rintro ⟨-, hhigh⟩
      zify at hhigh
      push_cast at hnonneg ⊢
      exact ⟨by linarith, by linarith⟩
  · have hlast : frac + 1 = w := by omega
    refine iff_of_false (fun hrange ↦ ?_) fun h ↦ hinteger h.1
    have hwidth : frac = w - 1 := by omega
    have hsInt : (s : ℤ) < 2 ^ (w - 1) := by exact_mod_cast hless
    have hsPos : (0 : ℤ) < s := by exact_mod_cast hpos
    rw [toInt_one_of_eq hlast, hwidth, neg_mul, Int.neg_tdiv,
      Int.tdiv_eq_ediv_of_nonneg (by positivity)] at hrange
    have hlarge : (2 : ℤ) ^ (w - 1) + 1 ≤ 2 ^ (w - 1) * 2 ^ (w - 1) / s := by
      rw [Int.le_ediv_iff_mul_le hsPos]
      nlinarith
    obtain ⟨hlow, -⟩ := hrange
    rw [hsplit] at hlow
    linarith

/-- The reciprocal of a root, unless it has no room. -/
theorem reciprocal_eq (hfrac : frac < w) {x : Fixed w frac} (hx : 0 < x.raw.toInt) :
    reciprocal W (⟨BitVec.ofInt w (Nat.sqrt (widened x))⟩ : Fixed w frac) =
      pure (if frac + 1 < w ∧ 2 ^ (2 * frac) / Nat.sqrt (widened x) < 2 ^ (w - 1) then
        some ⟨BitVec.ofInt w (2 ^ (2 * frac) / Nat.sqrt (widened x) : ℕ)⟩ else none) := by
  have hpos := sqrt_widened_pos hx
  have hless := sqrt_widened_lt hfrac x
  have hsqrt := toInt_sqrt hfrac x
  have hden : (BitVec.ofInt w (Nat.sqrt (widened x))).toInt ≠ 0 := by
    rw [hsqrt]
    exact_mod_cast hpos.ne'
  have hraw : BitVec.ofInt w (Nat.sqrt (widened x)) ≠ 0 := mt (raw_eq_zero_iff _).mp hden
  have hrange := inRange_one_div hfrac hpos hless
  have hround := divRounded_eq W hfrac one
    (⟨BitVec.ofInt w (Nat.sqrt (widened x))⟩ : Fixed w frac) .towardZero .checked hraw
  have hcast : ((one : Fixed w frac).raw.toInt : ℚ) * 2 ^ frac /
      (BitVec.ofInt w (Nat.sqrt (widened x))).toInt =
        (((one : Fixed w frac).raw.toInt * 2 ^ frac : ℤ) : ℚ) /
          ((BitVec.ofInt w (Nat.sqrt (widened x))).toInt : ℤ) := by
    push_cast
    rfl
  rw [hcast, towardZero_div _ hden, hsqrt] at hround
  rw [reciprocal, hround, narrowed]
  congr 1
  by_cases hfits : frac + 1 < w ∧ 2 ^ (2 * frac) / Nat.sqrt (widened x) < 2 ^ (w - 1)
  · have hquotient : ((one : Fixed w frac).raw.toInt * 2 ^ frac).tdiv (Nat.sqrt (widened x)) =
        (2 ^ (2 * frac) / Nat.sqrt (widened x) : ℕ) := by
      rw [toInt_one (by omega), ← pow_add, ← two_mul, Int.tdiv_eq_ediv_of_nonneg (by positivity)]
      push_cast
      rfl
    rw [if_pos hfits, if_pos (hrange.mpr hfits), hquotient]
    rfl
  · rw [if_neg hfits, if_neg (mt hrange.mp hfits)]
    rfl

/-- **The reciprocal square root** divides one by the root. -/
theorem rsqrt_eq (hfrac : frac < w) {x : Fixed w frac} (hx : 0 < x.raw.toInt) {budget : ℕ}
    (hbudget : widened x ≤ budget) : rsqrt W budget x =
      pure (some (if frac + 1 < w ∧ 2 ^ (2 * frac) / Nat.sqrt (widened x) < 2 ^ (w - 1) then
        some ⟨BitVec.ofInt w (2 ^ (2 * frac) / Nat.sqrt (widened x) : ℕ)⟩ else none)) := by
  simp only [rsqrt, sqrt_eq W hfrac hx hbudget, reciprocal_eq W hfrac hx, pure_bind]

end Sqrt

/-! ## The error of the reciprocal -/

section Error

variable {w frac : ℕ}

local instance atLeastTwo : Nat.AtLeastTwo 2 := ⟨le_rfl⟩

/-- The exact reciprocal root in units of the last fraction bit. -/
noncomputable def exactRsqrt (x : Fixed w frac) : ℝ := √(2 ^ (3 * frac) / x.raw.toInt)

theorem inv_sqrt_eq (x : Fixed w frac) :
    1 / √((x.raw.toInt : ℝ) / 2 ^ frac) = exactRsqrt x / 2 ^ frac := by
  have hunit : (0 : ℝ) < 2 ^ frac := by positivity
  have hcube : (2 : ℝ) ^ (3 * frac) / x.raw.toInt =
      (2 ^ frac * 2 ^ frac) * (2 ^ frac / x.raw.toInt) := by
    rw [show 3 * frac = frac + frac + frac by ring, pow_add, pow_add]
    ring
  rw [exactRsqrt, hcube, Real.sqrt_mul (by positivity), Real.sqrt_mul_self hunit.le,
    mul_div_cancel_left₀ _ hunit.ne', one_div, ← Real.sqrt_inv, inv_div]

theorem exactRsqrt_mul_sqrt {x : Fixed w frac} (hx : 0 < x.raw.toInt) :
    exactRsqrt x * √(widened x) = 2 ^ (2 * frac) := by
  have hraw : (0 : ℝ) < x.raw.toInt := by exact_mod_cast hx
  have hwidened : (widened x : ℝ) = x.raw.toInt * 2 ^ frac := by exact_mod_cast widened_eq hx
  have hsquare : (2 : ℝ) ^ (3 * frac) / x.raw.toInt * (x.raw.toInt * 2 ^ frac) =
      2 ^ (2 * frac) * 2 ^ (2 * frac) := by
    rw [show 3 * frac = 2 * frac + frac by ring, pow_add, two_mul, pow_add]
    field_simp
  rw [exactRsqrt, ← Real.sqrt_mul (by positivity), hwidened, hsquare,
    Real.sqrt_mul_self (by positivity)]

/-- The quotient is not below the exact reciprocal root by a whole unit. -/
theorem exactRsqrt_lt {x : Fixed w frac} (hx : 0 < x.raw.toInt) :
    exactRsqrt x < (2 ^ (2 * frac) / Nat.sqrt (widened x) : ℕ) + 1 := by
  have hpos := sqrt_widened_pos hx
  have hsqrt : (0 : ℝ) < Nat.sqrt (widened x) := by exact_mod_cast hpos
  have hroot : (Nat.sqrt (widened x) : ℝ) ≤ √(widened x) := Real.nat_sqrt_le_real_sqrt
  have hquotient : (2 : ℝ) ^ (2 * frac) <
      ((2 ^ (2 * frac) / Nat.sqrt (widened x) : ℕ) + 1) * Nat.sqrt (widened x) := by
    rw [mul_comm (_ + 1)]
    exact_mod_cast Nat.lt_mul_div_succ (2 ^ (2 * frac)) hpos
  have hproduct : exactRsqrt x * √(widened x) <
      ((2 ^ (2 * frac) / Nat.sqrt (widened x) : ℕ) + 1) * √(widened x) := by
    rw [exactRsqrt_mul_sqrt hx]
    exact hquotient.trans_le (mul_le_mul_of_nonneg_left hroot (by positivity))
  exact lt_of_mul_lt_mul_right hproduct (Real.sqrt_nonneg _)

/-- The error of the quotient is below two units exactly if the root times the exact reciprocal,
rounded up and two units more, exceeds one. -/
theorem abs_sub_lt_iff {x : Fixed w frac} (hx : 0 < x.raw.toInt) :
    |((2 ^ (2 * frac) / Nat.sqrt (widened x) : ℕ) : ℝ) / 2 ^ frac -
        1 / √((x.raw.toInt : ℝ) / 2 ^ frac)| < 2 * (2 ^ frac)⁻¹ ↔
      2 ^ (2 * frac) < Nat.sqrt (widened x) * (⌈exactRsqrt x⌉₊ + 2) := by
  have hunit : (0 : ℝ) < 2 ^ frac := by positivity
  have hpos := sqrt_widened_pos hx
  have hlow := exactRsqrt_lt hx
  have hnonneg : 0 ≤ exactRsqrt x := Real.sqrt_nonneg _
  rw [mul_comm (Nat.sqrt _), ← Nat.div_lt_iff_lt_mul hpos]
  generalize 2 ^ (2 * frac) / Nat.sqrt (widened x) = q at hlow ⊢
  rw [inv_sqrt_eq, ← sub_div, abs_div, abs_of_pos hunit, ← div_eq_mul_inv,
    div_lt_div_iff_of_pos_right hunit, abs_lt]
  constructor
  · rintro ⟨-, hhigh⟩
    have hceil : (q : ℝ) < ⌈exactRsqrt x⌉₊ + 2 := by linarith [Nat.le_ceil (exactRsqrt x)]
    exact_mod_cast hceil
  · intro hless
    refine ⟨by linarith, ?_⟩
    rcases Nat.lt_or_ge q 2 with hsmall | hlarge
    · have hq : (q : ℝ) < 2 := by exact_mod_cast hsmall
      linarith
    · have hbelow : ((q - 2 : ℕ) : ℝ) < exactRsqrt x := Nat.lt_ceil.mp (by omega)
      rw [Nat.cast_sub hlarge, Nat.cast_ofNat] at hbelow
      linarith

end Error

/-! ## The bounds -/

/-- The stated bounds for a number: the root is exact and found without an overflow, and its
reciprocal is off by less than two units. -/
structure MeetsBounds {w frac : ℕ} (W : Type) (m : Type → Type) [Monad m] [WideInt W m]
    [FixedStorage w W] (x : Fixed w frac) : Prop where
  sqrt_eq : ∀ budget, widened x ≤ budget → ∃ root : Fixed w frac,
    sqrt W budget x = pure (some root) ∧ root.raw.toInt = Nat.sqrt (widened x)
  rsqrt_close : ∀ (budget : ℕ) (y : Fixed w frac), widened x ≤ budget →
    rsqrt W budget x = pure (some (some y)) →
      |(y.raw.toInt : ℝ) / 2 ^ frac - 1 / √((x.raw.toInt : ℝ) / 2 ^ frac)| < 2 * (2 ^ frac)⁻¹

/-- One divided by the root has no room, or the root times the exact reciprocal, rounded up and two
units more, exceeds one. -/
def ReciprocalFits {w frac : ℕ} (x : Fixed w frac) : Prop :=
  frac + 1 = w ∨ 2 ^ (w - 1) * Nat.sqrt (widened x) ≤ 2 ^ (2 * frac) ∨
    2 ^ (2 * frac) < Nat.sqrt (widened x) * (⌈exactRsqrt x⌉₊ + 2)

/-- The reciprocal root of a number that is not below one fits. -/
theorem reciprocalFits_of_one_le {w frac : ℕ} {x : Fixed w frac} (hx : 2 ^ frac ≤ x.raw.toInt) :
    ReciprocalFits x := by
  have hunit : (0 : ℤ) < 2 ^ frac := by positivity
  have hpos : 0 < x.raw.toInt := by omega
  have hroot : 2 ^ frac ≤ Nat.sqrt (widened x) := by
    rw [Nat.le_sqrt]
    zify
    rw [widened_eq hpos]
    exact mul_le_mul_of_nonneg_right hx hunit.le
  have hrootReal : (2 : ℝ) ^ frac ≤ Nat.sqrt (widened x) := by exact_mod_cast hroot
  have hunitReal : (0 : ℝ) < 2 ^ frac := by positivity
  have hlow : (Nat.sqrt (widened x) : ℝ) ≤ √(widened x) := Real.nat_sqrt_le_real_sqrt
  have hhigh : √(widened x) < Nat.sqrt (widened x) + 1 := Real.real_sqrt_lt_nat_sqrt_succ
  have hproduct := exactRsqrt_mul_sqrt hpos
  have hsquare : (2 : ℝ) ^ (2 * frac) = 2 ^ frac * 2 ^ frac := by rw [two_mul, pow_add]
  have hexactPos : 0 < exactRsqrt x := by
    by_contra hneg
    have hnonneg : 0 ≤ exactRsqrt x := Real.sqrt_nonneg _
    have hzero : exactRsqrt x = 0 := le_antisymm (not_lt.mp hneg) hnonneg
    rw [hzero, zero_mul] at hproduct
    exact absurd hproduct.symm (by positivity)
  have hexact : exactRsqrt x ≤ 2 ^ frac := by nlinarith
  have hceil := Nat.le_ceil (exactRsqrt x)
  have hless : (2 : ℝ) ^ (2 * frac) < Nat.sqrt (widened x) * (⌈exactRsqrt x⌉₊ + 2) := by
    nlinarith
  refine .inr (.inr ?_)
  exact_mod_cast hless

section Bounds

variable {w frac : ℕ} [NeZero w]

theorem meetsBounds_iff (W : Type) {m : Type → Type} [Monad m] [LawfulMonad m] [WideInt W m]
    [FixedStorage w W] [LawfulStorage w W m] (hfrac : frac < w) {x : Fixed w frac}
    (hx : 0 < x.raw.toInt)
    (hpure : Function.Injective (pure : Option (Option (Fixed w frac)) → m _)) :
    MeetsBounds W m x ↔ ReciprocalFits x := by
  have hpos := sqrt_widened_pos hx
  have hroom : 2 ^ (w - 1) * Nat.sqrt (widened x) ≤ 2 ^ (2 * frac) ↔
      ¬ 2 ^ (2 * frac) / Nat.sqrt (widened x) < 2 ^ (w - 1) := by
    rw [not_lt, Nat.le_div_iff_mul_le hpos]
  have hvalue : 2 ^ (2 * frac) / Nat.sqrt (widened x) < 2 ^ (w - 1) →
      (BitVec.ofInt w (2 ^ (2 * frac) / Nat.sqrt (widened x) : ℕ)).toInt =
        (2 ^ (2 * frac) / Nat.sqrt (widened x) : ℕ) := by
    intro hless
    refine toInt_ofInt_eq_self (inRange_iff_abs ?_)
    rw [Nat.abs_cast]
    exact_mod_cast hless
  constructor
  · intro hbounds
    by_cases hlast : frac + 1 = w
    · exact .inl hlast
    by_cases hfits : 2 ^ (2 * frac) / Nat.sqrt (widened x) < 2 ^ (w - 1)
    · have hclose := hbounds.rsqrt_close (widened x) _ le_rfl
        ((rsqrt_eq W hfrac hx le_rfl).trans (by rw [if_pos ⟨by omega, hfits⟩]))
      rw [hvalue hfits, Int.cast_natCast] at hclose
      exact .inr (.inr ((abs_sub_lt_iff hx).mp hclose))
    · exact .inr (.inl (hroom.mpr hfits))
  · intro hcondition
    refine ⟨fun budget hbudget ↦ ⟨_, Fixed.sqrt_eq W hfrac hx hbudget, toInt_sqrt hfrac x⟩,
      fun budget y hbudget hrun ↦ ?_⟩
    rw [rsqrt_eq W hfrac hx hbudget] at hrun
    have hresult := Option.some_inj.mp (hpure hrun)
    by_cases hfits : frac + 1 < w ∧ 2 ^ (2 * frac) / Nat.sqrt (widened x) < 2 ^ (w - 1)
    · rw [if_pos hfits, Option.some_inj] at hresult
      rw [← hresult, hvalue hfits.2, Int.cast_natCast, abs_sub_lt_iff hx]
      rcases hcondition with hlast | hlarge | hclose
      · omega
      · exact absurd hfits.2 (hroom.mp hlarge)
      · exact hclose
    · rw [if_neg hfits] at hresult
      exact absurd hresult.symm (Option.some_ne_none y)

/-- **The bounds of the roots.**  Both readings of the accumulator meet the bounds of a positive
number exactly if its reciprocal root fits. -/
theorem roots_meetBounds_iff (hfrac : frac < w) (x : Fixed w frac) (hx : 0 < x.raw.toInt) :
    (MeetsBounds (BitVec (2 * w)) Id x ↔ ReciprocalFits x) ∧
      (MeetsBounds (Exact (2 * w)) Option x ↔ ReciprocalFits x) :=
  ⟨meetsBounds_iff _ hfrac hx fun _ _ heq ↦ heq,
    meetsBounds_iff _ hfrac hx fun _ _ heq ↦ Option.some_inj.mp heq⟩

end Bounds

/-- The number one in every storage width. -/
theorem roots_meetBounds_iff_one :
    (MeetsBounds (BitVec (2 * 16)) Id (⟨256⟩ : Fixed 16 8) ↔ ReciprocalFits (⟨256⟩ : Fixed 16 8)) ∧
      (MeetsBounds (BitVec (2 * 32)) Id (⟨65536⟩ : Fixed 32 16) ↔
        ReciprocalFits (⟨65536⟩ : Fixed 32 16)) ∧
      (MeetsBounds (Exact (2 * 64)) Option (⟨65536⟩ : Fixed 64 16) ↔
        ReciprocalFits (⟨65536⟩ : Fixed 64 16)) :=
  ⟨(roots_meetBounds_iff (by decide) ⟨256⟩ (by decide)).1,
    (roots_meetBounds_iff (by decide) ⟨65536⟩ (by decide)).1,
    (roots_meetBounds_iff (by decide) ⟨65536⟩ (by decide)).2⟩

/-- Two units with sixteen fraction bits: the reciprocal root is off by more than a thousand
units. -/
theorem rsqrt_two_units :
    rsqrt (BitVec (2 * 32)) 131072 (⟨2⟩ : Fixed 32 16) = pure (some (some ⟨11864550⟩)) ∧
      1000 * (2 ^ 16)⁻¹ < |((⟨11864550⟩ : Fixed 32 16).raw.toInt : ℝ) / 2 ^ 16 -
        1 / √(((⟨2⟩ : Fixed 32 16).raw.toInt : ℝ) / 2 ^ 16)| ∧
      ¬ ∀ x : Fixed 32 16, 0 < x.raw.toInt → MeetsBounds (BitVec (2 * 32)) Id x := by
  have hrun : rsqrt (BitVec (2 * 32)) 131072 (⟨2⟩ : Fixed 32 16) =
      pure (some (some ⟨11864550⟩)) := by
    change @Eq (Option (Option (Fixed 32 16))) _ _
    decide +kernel
  have hraw : (⟨2⟩ : Fixed 32 16).raw.toInt = 2 := by decide
  have hquotient : (⟨11864550⟩ : Fixed 32 16).raw.toInt = 11864550 := by decide
  have hexact : exactRsqrt (⟨2⟩ : Fixed 32 16) < 11863284 := by
    rw [exactRsqrt, hraw, Real.sqrt_lt' (by norm_num)]
    norm_num
  have hfar : 1000 * (2 ^ 16)⁻¹ < |((⟨11864550⟩ : Fixed 32 16).raw.toInt : ℝ) / 2 ^ 16 -
      1 / √(((⟨2⟩ : Fixed 32 16).raw.toInt : ℝ) / 2 ^ 16)| := by
    rw [inv_sqrt_eq, ← sub_div, hquotient, lt_abs]
    refine .inl ?_
    rw [← div_eq_mul_inv, div_lt_div_iff_of_pos_right (by norm_num), Int.cast_ofNat]
    linarith
  refine ⟨hrun, hfar, fun hbounds ↦ ?_⟩
  have hclose := (hbounds ⟨2⟩ (by decide)).rsqrt_close 131072 _ (by decide) hrun
  have hunit : (0 : ℝ) < (2 ^ 16)⁻¹ := by positivity
  linarith

end SoulSystem.Scirust.Fixed
