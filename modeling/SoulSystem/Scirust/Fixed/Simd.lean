import SoulSystem.Scirust.Fixed.CorrectRounding
import Mathlib.Data.BitVec

/-!
# Fixed-point numbers in lanes

A vector is a function from its lanes, and the lane operations are the wrapping ones of the integer.
A product is widened, biased by the sign, shifted and truncated, which is what the scalar product
does with a remainder.
-/

namespace SoulSystem.Scirust

open Library

/-! ## Lanes -/

abbrev Lanes (k n : ℕ) := Fin k → BitVec n

namespace Lanes

variable {k n : ℕ}

def splat (x : BitVec n) : Lanes k n := fun _ ↦ x

/-- Sign-extends to a wider lane and truncates to a narrower one. -/
def cast (n' : ℕ) (v : Lanes k n) : Lanes k n' := fun lane ↦ (v lane).signExtend n'

def shr (v : Lanes k n) (amount : ℕ) : Lanes k n := fun lane ↦ (v lane).sshiftRight amount

def and (u v : Lanes k n) : Lanes k n := fun lane ↦ u lane &&& v lane

def abs (v : Lanes k n) : Lanes k n := fun lane ↦ (v lane).abs

def simdEq (u v : Lanes k n) : Fin k → Bool := fun lane ↦ u lane == v lane

def select (mask : Fin k → Bool) (u v : Lanes k n) : Lanes k n := fun lane ↦
  bif mask lane then u lane else v lane

def low (v : Lanes 8 n) : Lanes 4 n := fun lane ↦ v (lane.castAdd 4)

def high (v : Lanes 8 n) : Lanes 4 n := fun lane ↦ v (lane.natAdd 4)

def join (u v : Lanes 4 n) : Lanes 8 n := Fin.append u v

@[simp]
theorem join_castAdd (u v : Lanes 4 n) (lane : Fin 4) : u.join v (lane.castAdd 4) = u lane :=
  Fin.append_left u v lane

@[simp]
theorem join_natAdd (u v : Lanes 4 n) (lane : Fin 4) : u.join v (lane.natAdd 4) = v lane :=
  Fin.append_right u v lane

/-- A shift that rounds toward zero, by a bias on the negative lanes. -/
def shiftTowardZero (v : Lanes k n) (frac : ℕ) : Lanes k n :=
  if frac = 0 then v
  else
    let sign := v.shr (n - 1)
    let bias := sign.and (splat (1#n <<< frac - 1#n))
    (v + bias).shr frac

def shiftTowardZeroI64x4 (v : Lanes 4 64) (frac : ℕ) : Lanes 4 64 := v.shiftTowardZero frac

def shiftTowardZeroI32x8 (v : Lanes 8 32) (frac : ℕ) : Lanes 8 32 := v.shiftTowardZero frac

end Lanes

/-! ## Vectors of fixed-point numbers -/

/-- The raw lanes of a vector of numbers with a number of fraction bits. -/
structure FixedLanes (k w frac : ℕ) where
  raw : Lanes k w

abbrev FixedI16x8 (frac : ℕ) := FixedLanes 8 16 frac

abbrev FixedI32x8 (frac : ℕ) := FixedLanes 8 32 frac

namespace FixedLanes

variable {k w frac : ℕ}

def toArray (v : FixedLanes k w frac) : Fin k → Fixed w frac := fun lane ↦ ⟨v.raw lane⟩

/-- The wrapping absolute value, with the lanes of the least integer replaced. -/
def abs (v : FixedLanes k w frac) : FixedLanes k w frac :=
  let isMin := v.raw.simdEq (Lanes.splat (BitVec.intMin w))
  ⟨Lanes.select isMin (Lanes.splat (BitVec.intMax w)) v.raw.abs⟩

def add (u v : FixedLanes k w frac) : FixedLanes k w frac :=
  ⟨u.raw + v.raw⟩

end FixedLanes

namespace FixedI16x8

variable {frac : ℕ}

def mul (u v : FixedI16x8 frac) : FixedI16x8 frac :=
  let wide := u.raw.cast 32 * v.raw.cast 32
  ⟨(Lanes.shiftTowardZeroI32x8 wide frac).cast 16⟩

def mulAdd (u v c : FixedI16x8 frac) : FixedI16x8 frac :=
  (mul u v).add c

end FixedI16x8

namespace FixedI32x8

variable {frac : ℕ}

/-- The product of the low and of the high four lanes. -/
def mul (u v : FixedI32x8 frac) : FixedI32x8 frac :=
  let productLow := Lanes.shiftTowardZeroI64x4 (u.raw.low.cast 64 * v.raw.low.cast 64) frac
  let productHigh := Lanes.shiftTowardZeroI64x4 (u.raw.high.cast 64 * v.raw.high.cast 64) frac
  ⟨Lanes.join (productLow.cast 32) (productHigh.cast 32)⟩

def mulAdd (u v c : FixedI32x8 frac) : FixedI32x8 frac :=
  (mul u v).add c

end FixedI32x8

/-! ## The biased shift -/

theorem toInt_sshiftRight_eq {n : ℕ} (x : BitVec n) (k : ℕ) :
    (x.sshiftRight k).toInt = x.toInt / 2 ^ k := by
  rw [BitVec.toInt_sshiftRight, Int.shiftRight_eq_div_pow]
  push_cast
  rfl

/-- The sign bit in every place. -/
theorem sshiftRight_sign {n : ℕ} (hn : 0 < n) (x : BitVec n) :
    x.sshiftRight (n - 1) = if x.toInt < 0 then BitVec.allOnes n else 0#n := by
  obtain ⟨hlow, hhigh⟩ := inRange_toInt x
  rw [two_pow_split hn] at hlow hhigh
  have hpos : (0 : ℤ) < 2 ^ (n - 1) := by positivity
  apply BitVec.eq_of_toInt_eq
  rw [toInt_sshiftRight_eq]
  split
  · rename_i hneg
    rw [BitVec.toInt_allOnes, if_pos hn]
    have hbelow : x.toInt / 2 ^ (n - 1) < 0 := Int.ediv_neg_of_neg_of_pos hneg hpos
    have habove : -1 ≤ x.toInt / 2 ^ (n - 1) := by
      rw [Int.le_ediv_iff_mul_le hpos]
      linarith
    omega
  · rename_i hnonneg
    rw [BitVec.toInt_zero]
    exact Int.ediv_eq_zero_of_lt (not_lt.mp hnonneg) (by linarith)

theorem toInt_mask {n frac : ℕ} (hfrac : frac + 1 < n) :
    (1#n <<< frac - 1#n).toInt = 2 ^ frac - 1 := by
  have hwidth : 2 * (2 : ℤ) ^ (frac + 1) ≤ 2 ^ n := by
    rw [← pow_succ']
    exact pow_le_pow_right₀ (by norm_num) hfrac
  have hdouble : (2 : ℤ) ^ (frac + 1) = 2 * 2 ^ frac := pow_succ' 2 frac
  have hpos : (1 : ℤ) ≤ 2 ^ frac := one_le_pow₀ (by norm_num)
  have hone : (1#n).toInt = 1 := BitVec.toInt_one_of_lt (by omega)
  have hshl : (1#n <<< frac).toInt = 2 ^ frac := by
    rw [toInt_shl, hone, one_mul]
    exact bmod_eq_self ⟨by linarith, by linarith⟩
  rw [BitVec.toInt_sub, hshl, hone]
  exact bmod_eq_self ⟨by linarith, by linarith⟩

theorem add_sub_one_ediv {x d : ℤ} (hd : 0 < d) :
    (x + (d - 1)) / d = if x % d = 0 then x / d else x / d + 1 := by
  have hlow := Int.emod_nonneg x hd.ne'
  have hhigh := Int.emod_lt_of_pos x hd
  have hsplit : x + (d - 1) = x % d + (d - 1) + d * (x / d) := by
    linarith [Int.emod_add_mul_ediv x d]
  rw [hsplit, Int.add_mul_ediv_left _ _ hd.ne']
  by_cases hzero : x % d = 0
  · rw [if_pos hzero, hzero, zero_add, Int.ediv_eq_zero_of_lt (by linarith) (by linarith), zero_add]
  · have hcarry : x % d + (d - 1) = x % d - 1 + d * 1 := by ring
    rw [if_neg hzero, hcarry, Int.add_mul_ediv_left _ _ hd.ne',
      Int.ediv_eq_zero_of_lt (by omega) (by linarith), zero_add, add_comm]

/-- **The biased shift** rounds toward zero. -/
theorem toInt_shiftTowardZero {k n frac : ℕ} (v : Lanes k n) (hfrac : frac + 1 < n) (lane : Fin k) :
    (v.shiftTowardZero frac lane).toInt =
      Rounding.towardZero.round ((v lane).toInt / 2 ^ frac : ℚ) := by
  rcases Nat.eq_zero_or_pos frac with rfl | hpos
  · rw [Lanes.shiftTowardZero, if_pos rfl, pow_zero, div_one, Rounding.round_intCast]
  have hdiv : 0 < (2 : ℤ) ^ frac := by positivity
  have hlane : v.shiftTowardZero frac lane = (v lane + ((v lane).sshiftRight (n - 1) &&&
      (1#n <<< frac - 1#n))).sshiftRight frac := by
    rw [Lanes.shiftTowardZero, if_neg hpos.ne']
    rfl
  have hq := div_two_pow (v lane).toInt frac
  have hsplit := Int.emod_add_mul_ediv (v lane).toInt (2 ^ frac)
  have hlow := Int.emod_nonneg (v lane).toInt hdiv.ne'
  have hhigh := Int.emod_lt_of_pos (v lane).toInt hdiv
  have hrem : (v lane).toInt - (v lane).toInt / 2 ^ frac * 2 ^ frac = (v lane).toInt % 2 ^ frac := by
    linarith
  rw [hrem] at hq
  rw [hlane, toInt_sshiftRight_eq, sshiftRight_sign (by omega),
    Rounding.towardZero_eq hq hlow hhigh]
  by_cases hneg : (v lane).toInt < 0
  · have hbelow : (v lane).toInt / 2 ^ frac < 0 := Int.ediv_neg_of_neg_of_pos hneg hdiv
    have hbias : (v lane + (1#n <<< frac - 1#n)).toInt = (v lane).toInt + (2 ^ frac - 1) := by
      have hwidth : (2 : ℤ) ^ (frac + 1) ≤ 2 ^ n :=
        pow_le_pow_right₀ (by norm_num) (by omega)
      have hdouble : (2 : ℤ) ^ (frac + 1) = 2 * 2 ^ frac := pow_succ' 2 frac
      rw [BitVec.toInt_add, toInt_mask hfrac]
      exact bmod_eq_self ⟨by linarith [(inRange_toInt (v lane)).1], by linarith⟩
    rw [if_pos hneg, BitVec.allOnes_and, hbias, add_sub_one_ediv hdiv]
    by_cases hzero : (v lane).toInt % 2 ^ frac = 0
    · rw [if_pos hzero, if_neg fun h ↦ h.2 hzero]
    · rw [if_neg hzero, if_pos ⟨hbelow, hzero⟩]
  · have hnonneg : ¬ (v lane).toInt / 2 ^ frac < 0 :=
      not_lt.mpr (Int.ediv_nonneg (not_lt.mp hneg) hdiv.le)
    rw [if_neg hneg, BitVec.zero_and, BitVec.add_zero, if_neg fun h ↦ hnonneg h.1]

/-! ## The lane operations -/

section LaneOperations

variable {w frac : ℕ}

theorem Fixed.wrappingMul_eq [NeZero w] (hfrac : frac < w) (a b : Fixed w frac) :
    (Fixed.wrappingMul (BitVec (2 * w)) a b : Id (Fixed w frac)) =
      (⟨BitVec.ofInt w (Rounding.towardZero.round (a.raw.toInt * b.raw.toInt / 2 ^ frac : ℚ))⟩ :
        Fixed w frac) := by
  have hsome := Fixed.correctlyRounded (w := w) (BitVec (2 * w)) (m := Id) |>.wrappingMul_eq frac a b
  rw [Fixed.mulRounded_eq (BitVec (2 * w)) hfrac a b .towardZero .wrap] at hsome
  exact Option.some.inj hsome

/-- A widened lane product, shifted and truncated, is the scalar product. -/
theorem signExtend_shiftTowardZero [NeZero w] {k : ℕ} (hfrac : frac < w) (u v : Lanes k w)
    (lane : Fin k) :
    (((u.cast (2 * w) * v.cast (2 * w)).shiftTowardZero frac).cast w) lane =
      (Fixed.wrappingMul (m := Id) (BitVec (2 * w)) (⟨u lane⟩ : Fixed w frac) ⟨v lane⟩).raw := by
  have hproduct : ((u.cast (2 * w) * v.cast (2 * w)) lane).toInt =
      (u lane).toInt * (v lane).toInt := by
    simp only [Pi.mul_apply, Lanes.cast]
    rw [BitVec.toInt_mul, BitVec.toInt_signExtend_of_le (by omega),
      BitVec.toInt_signExtend_of_le (by omega)]
    exact bmod_eq_self (inRange_of_abs (four_mul_abs_mul_le (u lane) (v lane)))
  have hshift := toInt_shiftTowardZero (u.cast (2 * w) * v.cast (2 * w))
    (show frac + 1 < 2 * w by have := NeZero.pos w; omega) lane
  rw [hproduct, Int.cast_mul] at hshift
  rw [Fixed.wrappingMul_eq hfrac, ← hshift]
  rfl

theorem FixedI16x8.toArray_mul (hfrac : frac < 16) (u v : FixedI16x8 frac) :
    (FixedI16x8.mul u v).toArray =
      fun lane ↦ Fixed.wrappingMul (m := Id) (BitVec (2 * 16)) (u.toArray lane) (v.toArray lane) := by
  funext lane
  exact congrArg Fixed.mk (signExtend_shiftTowardZero (w := 16) hfrac u.raw v.raw lane)

theorem shiftTowardZeroI64x4_mul (hfrac : frac < 32) (u v : Lanes 4 32) (lane : Fin 4) :
    (Lanes.shiftTowardZeroI64x4 (u.cast 64 * v.cast 64) frac).cast 32 lane =
      (Fixed.wrappingMul (m := Id) (BitVec (2 * 32)) (⟨u lane⟩ : Fixed 32 frac) ⟨v lane⟩).raw :=
  signExtend_shiftTowardZero hfrac u v lane

theorem FixedI32x8.toArray_mul (hfrac : frac < 32) (u v : FixedI32x8 frac) :
    (FixedI32x8.mul u v).toArray =
      fun lane ↦ Fixed.wrappingMul (m := Id) (BitVec (2 * 32)) (u.toArray lane) (v.toArray lane) := by
  funext lane
  cases lane using Fin.addCases (m := 4) (n := 4) with
  | left low =>
    have hlow := shiftTowardZeroI64x4_mul hfrac u.raw.low v.raw.low low
    exact congrArg Fixed.mk ((Lanes.join_castAdd _ _ low).trans hlow)
  | right high =>
    have hhigh := shiftTowardZeroI64x4_mul hfrac u.raw.high v.raw.high high
    exact congrArg Fixed.mk ((Lanes.join_natAdd _ _ high).trans hhigh)

theorem select_abs_eq_saturatingAbs [NeZero w] (x : BitVec w) :
    (bif x == BitVec.intMin w then BitVec.intMax w else x.abs) = saturatingAbs x := by
  have hpos : (1 : ℤ) ≤ 2 ^ (w - 1) := one_le_pow₀ (by norm_num)
  obtain ⟨hlow, hhigh⟩ := inRange_toInt x
  rw [two_pow_split (NeZero.pos w)] at hlow hhigh
  by_cases hmin : x = BitVec.intMin w
  · have hneg : x.toInt < 0 := by
      rw [hmin, toInt_intMin_eq]
      linarith
    have hbelow : ¬ (0 : BitVec w).toInt - x.toInt < (BitVec.intMin w).toInt := by
      rw [BitVec.ofNat_eq_ofNat, BitVec.toInt_zero, toInt_intMin_eq]
      linarith
    have habove : (BitVec.intMax w).toInt < (0 : BitVec w).toInt - x.toInt := by
      rw [BitVec.ofNat_eq_ofNat, BitVec.toInt_zero, hmin, toInt_intMin_eq, toInt_intMax_eq]
      linarith
    rw [saturatingAbs, if_pos hneg, saturatingSub, if_neg hbelow, if_pos habove, hmin, beq_self_eq_true,
      cond_true]
  · rw [beq_false_of_ne hmin, cond_false, BitVec.abs_eq, saturatingAbs]
    by_cases hneg : x.toInt < 0
    · have hless : -2 ^ (w - 1) < x.toInt := by
        refine lt_of_le_of_ne (by linarith) fun heq ↦ hmin (BitVec.eq_of_toInt_eq ?_)
        rw [← heq, toInt_intMin_eq]
      have hbelow : ¬ (0 : BitVec w).toInt - x.toInt < (BitVec.intMin w).toInt := by
        rw [BitVec.ofNat_eq_ofNat, BitVec.toInt_zero, toInt_intMin_eq]
        linarith
      have habove : ¬ (BitVec.intMax w).toInt < (0 : BitVec w).toInt - x.toInt := by
        rw [BitVec.ofNat_eq_ofNat, BitVec.toInt_zero, toInt_intMax_eq]
        linarith
      rw [if_pos hneg, saturatingSub, if_neg hbelow, if_neg habove,
        if_pos (BitVec.msb_eq_toInt.trans (decide_eq_true hneg)), BitVec.ofNat_eq_ofNat,
        BitVec.toInt_zero, zero_sub, BitVec.ofInt_neg, BitVec.ofInt_toInt]
    · rw [if_neg hneg, if_neg (by rw [BitVec.msb_eq_toInt]; exact fun h ↦ hneg (of_decide_eq_true h))]

theorem FixedLanes.toArray_abs [NeZero w] {k : ℕ} (v : FixedLanes k w frac) :
    v.abs.toArray = fun lane ↦ (v.toArray lane).abs := by
  funext lane
  exact congrArg Fixed.mk (select_abs_eq_saturatingAbs (v.raw lane))

theorem FixedLanes.toArray_add {k : ℕ} (u v : FixedLanes k w frac) :
    (u.add v).toArray = fun lane ↦ (u.toArray lane).wrappingAdd (v.toArray lane) :=
  rfl

end LaneOperations

end SoulSystem.Scirust
