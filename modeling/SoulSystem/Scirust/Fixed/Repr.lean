import SoulSystem.Library.Rounding

/-!
# Storage integers and their accumulators

Fixed-point numbers are stored in a signed integer and computed in one that is twice as wide.  The
operations of the accumulator are read in two ways: as they wrap around in the program, and as
operations that refuse a result out of range.  What is proved from the laws of an accumulator holds
of both, so it says what is computed and that nothing overflows on the way.
-/

namespace SoulSystem.Scirust

open Library

/-! ## Accumulators -/

/-- An accumulator, with the effect that its operations have. -/
class WideInt (W : Type) (m : outParam (Type → Type)) where
  zero : W
  one : W
  wrappingAdd : W → W → m W
  wrappingSub : W → W → m W
  wrappingMul : W → W → m W
  shl : W → ℕ → m W
  shr : W → ℕ → m W
  divTrunc : W → W → m W
  isOdd : W → Bool
  lt : W → W → Bool
  decEq : DecidableEq W

export WideInt (wrappingAdd wrappingSub wrappingMul shl shr divTrunc isOdd)

section Compare

variable {W : Type} {m : Type → Type} [WideInt W m]

instance decidableEqOfWide : DecidableEq W :=
  WideInt.decEq

def cmp (x y : W) : Ordering :=
  if WideInt.lt x y then .lt else if x = y then .eq else .gt

end Compare

/-- The signed integers of a width. -/
def InRange (n : ℕ) (x : ℤ) : Prop :=
  -2 ^ n ≤ 2 * x ∧ 2 * x < 2 ^ n

instance (n : ℕ) (x : ℤ) : Decidable (InRange n x) :=
  inferInstanceAs (Decidable (_ ∧ _))

/-- What holds of an accumulator of some width as long as nothing overflows. -/
class LawfulWide (W : Type) (m : Type → Type) [Monad m] [WideInt W m] (n : outParam ℕ) where
  val : W → ℤ
  val_injective : Function.Injective val
  inRange : ∀ x : W, InRange n (val x)
  val_zero : val (WideInt.zero : W) = 0
  val_one : val (WideInt.one : W) = 1
  add : ∀ x y : W, InRange n (val x + val y) →
    ∃ w, wrappingAdd x y = pure w ∧ val w = val x + val y
  sub : ∀ x y : W, InRange n (val x - val y) →
    ∃ w, wrappingSub x y = pure w ∧ val w = val x - val y
  mul : ∀ x y : W, InRange n (val x * val y) →
    ∃ w, wrappingMul x y = pure w ∧ val w = val x * val y
  shl : ∀ (x : W) (k : ℕ), InRange n (val x * 2 ^ k) →
    ∃ w, WideInt.shl x k = pure w ∧ val w = val x * 2 ^ k
  shr : ∀ (x : W) (k : ℕ), ∃ w, WideInt.shr x k = pure w ∧ val w = val x / 2 ^ k
  divTrunc : ∀ x y : W, val y ≠ 0 → InRange n ((val x).tdiv (val y)) →
    ∃ w, WideInt.divTrunc x y = pure w ∧ val w = (val x).tdiv (val y)
  isOdd_iff : ∀ x : W, isOdd x = true ↔ ¬ Even (val x)
  lt_iff : ∀ x y : W, WideInt.lt x y = true ↔ val x < val y

/-! ## Wrapping accumulators -/

instance (n : ℕ) : WideInt (BitVec n) Id where
  zero := 0#n
  one := 1#n
  wrappingAdd := fun x y ↦ x + y
  wrappingSub := fun x y ↦ x - y
  wrappingMul := fun x y ↦ x * y
  shl := fun x k ↦ x <<< k
  shr := fun x k ↦ x.sshiftRight k
  divTrunc := fun x y ↦ x.sdiv y
  isOdd := fun x ↦ x &&& 1#n != 0#n
  lt := fun x y ↦ x.slt y
  decEq := inferInstance

theorem bmod_eq_self {n : ℕ} {x : ℤ} (hx : InRange n x) : x.bmod (2 ^ n) = x := by
  apply Int.bmod_eq_of_le_mul_two
  · push_cast
    linarith [hx.1]
  · push_cast
    linarith [hx.2]

theorem inRange_toInt {n : ℕ} (x : BitVec n) : InRange n x.toInt :=
  ⟨BitVec.le_two_mul_toInt, BitVec.two_mul_toInt_lt⟩

theorem toInt_ofInt_eq_self {n : ℕ} {x : ℤ} (hx : InRange n x) : (BitVec.ofInt n x).toInt = x := by
  rw [BitVec.toInt_ofInt, bmod_eq_self hx]

theorem and_one_ne_zero_iff {n : ℕ} (hn : 0 < n) (x : BitVec n) :
    (x &&& 1#n != 0#n) = true ↔ ¬ Even x.toInt := by
  have hdvd : (2 : ℤ) ∣ ((2 ^ n : ℕ) : ℤ) := by
    exact_mod_cast dvd_pow_self 2 hn.ne'
  have hmod : x.toInt % 2 = (x.toNat : ℤ) % 2 := by
    rw [BitVec.toInt_eq_toNat_bmod, Int.bmod_def]
    split
    · rw [Int.emod_emod_of_dvd _ hdvd]
    · rw [Int.sub_emod, Int.emod_emod_of_dvd _ hdvd, Int.emod_eq_zero_of_dvd hdvd, sub_zero,
        Int.emod_emod]
  have hone : 1 % 2 ^ n = 1 := Nat.mod_eq_of_lt (Nat.one_lt_two_pow hn.ne')
  rw [bne_iff_ne, ne_eq, ← BitVec.toNat_inj, BitVec.toNat_and, BitVec.toNat_ofNat,
    BitVec.toNat_ofNat, hone, Nat.and_one_is_mod, Int.even_iff, hmod]
  simp only [Nat.zero_mod]
  omega

theorem toInt_shl {n : ℕ} (x : BitVec n) (k : ℕ) :
    (x <<< k).toInt = (x.toInt * 2 ^ k).bmod (2 ^ n) := by
  rw [BitVec.toInt_shiftLeft, BitVec.toInt_eq_toNat_bmod, Int.bmod_mul_bmod, Nat.shiftLeft_eq]
  push_cast
  rfl

instance (w : ℕ) [NeZero w] : LawfulWide (BitVec (2 * w)) Id (2 * w) where
  val := BitVec.toInt
  val_injective := fun _ _ heq ↦ BitVec.eq_of_toInt_eq heq
  inRange := inRange_toInt
  val_zero := BitVec.toInt_zero
  val_one := BitVec.toInt_one_of_lt (by have := NeZero.pos w; omega)
  add := fun x y hrange ↦ ⟨x + y, rfl, by rw [BitVec.toInt_add, bmod_eq_self hrange]⟩
  sub := fun x y hrange ↦ ⟨x - y, rfl, by rw [BitVec.toInt_sub, bmod_eq_self hrange]⟩
  mul := fun x y hrange ↦ ⟨x * y, rfl, by rw [BitVec.toInt_mul, bmod_eq_self hrange]⟩
  shl := fun x k hrange ↦ ⟨x <<< k, rfl, by rw [toInt_shl, bmod_eq_self hrange]⟩
  shr := by
    intro x k
    refine ⟨x.sshiftRight k, rfl, ?_⟩
    rw [BitVec.toInt_sshiftRight, Int.shiftRight_eq_div_pow]
    push_cast
    rfl
  divTrunc := fun x y _ hrange ↦ ⟨x.sdiv y, rfl, by rw [BitVec.toInt_sdiv, bmod_eq_self hrange]⟩
  isOdd_iff := and_one_ne_zero_iff (by have := NeZero.pos w; omega)
  lt_iff := fun x y ↦ BitVec.slt_iff_toInt_lt

/-! ## Accumulators that refuse an overflow -/

/-- An integer that a width has room for. -/
structure Exact (n : ℕ) where
  value : ℤ
  inRange : InRange n value

namespace Exact

variable {n w : ℕ}

@[ext]
theorem ext {x y : Exact n} (hvalue : x.value = y.value) : x = y := by
  cases x
  cases y
  congr

instance : DecidableEq (Exact n) := fun x y ↦
  decidable_of_iff (x.value = y.value) ⟨ext, congrArg value⟩

/-- The result of an operation, unless it overflows. -/
def checked (x : ℤ) : Option (Exact n) :=
  if hx : InRange n x then some ⟨x, hx⟩ else none

theorem checked_eq {x : ℤ} (hx : InRange n x) :
    ∃ y : Exact n, checked x = pure y ∧ y.value = x :=
  ⟨⟨x, hx⟩, dif_pos hx, rfl⟩

theorem inRange_one [NeZero w] : InRange (2 * w) 1 := by
  have hpos := NeZero.pos w
  have hfour : (2 : ℤ) ^ 2 ≤ 2 ^ (2 * w) := pow_le_pow_right₀ (by norm_num) (by omega)
  constructor
  · linarith
  · linarith

theorem inRange_zero : InRange n 0 := by
  have hpos : (0 : ℤ) < 2 ^ n := by positivity
  constructor
  · linarith
  · linarith

theorem inRange_shr (x : Exact n) (k : ℕ) : InRange n (x.value / 2 ^ k) := by
  have hpos : (0 : ℤ) < 2 ^ k := by positivity
  obtain ⟨hlow, hhigh⟩ := x.inRange
  rcases le_or_gt 0 x.value with hsign | hsign
  · have hbelow : x.value / 2 ^ k ≤ x.value := Int.ediv_le_self _ hsign
    have habove : 0 ≤ x.value / 2 ^ k := Int.ediv_nonneg hsign hpos.le
    constructor
    · linarith
    · linarith
  · have hbelow : x.value ≤ x.value / 2 ^ k := by
      rw [Int.le_ediv_iff_mul_le hpos]
      nlinarith
    have habove : x.value / 2 ^ k < 0 := Int.ediv_neg_of_neg_of_pos hsign hpos
    constructor
    · linarith
    · have hwide : (0 : ℤ) < 2 ^ n := by positivity
      linarith

instance [NeZero w] : WideInt (Exact (2 * w)) Option where
  zero := ⟨0, inRange_zero⟩
  one := ⟨1, inRange_one⟩
  wrappingAdd := fun x y ↦ checked (x.value + y.value)
  wrappingSub := fun x y ↦ checked (x.value - y.value)
  wrappingMul := fun x y ↦ checked (x.value * y.value)
  shl := fun x k ↦ checked (x.value * 2 ^ k)
  shr := fun x k ↦ some ⟨x.value / 2 ^ k, inRange_shr x k⟩
  divTrunc := fun x y ↦ checked (x.value.tdiv y.value)
  isOdd := fun x ↦ !decide (Even x.value)
  lt := fun x y ↦ decide (x.value < y.value)
  decEq := inferInstance

instance [NeZero w] : LawfulWide (Exact (2 * w)) Option (2 * w) where
  val := value
  val_injective := fun _ _ ↦ ext
  inRange := inRange
  val_zero := rfl
  val_one := rfl
  add := fun _ _ hrange ↦ checked_eq hrange
  sub := fun _ _ hrange ↦ checked_eq hrange
  mul := fun _ _ hrange ↦ checked_eq hrange
  shl := fun _ _ hrange ↦ checked_eq hrange
  shr := fun x k ↦ ⟨⟨x.value / 2 ^ k, inRange_shr x k⟩, rfl, rfl⟩
  divTrunc := fun _ _ _ hrange ↦ checked_eq hrange
  isOdd_iff := fun x ↦ by simp [isOdd]
  lt_iff := fun x y ↦ by simp [WideInt.lt]

end Exact

/-! ## Storage -/

/-- A storage integer of a width with its accumulator. -/
class FixedStorage (w : outParam ℕ) (W : Type) where
  toWide : BitVec w → W
  fromWideWrapping : W → BitVec w

export FixedStorage (toWide fromWideWrapping)

class LawfulStorage (w : outParam ℕ) (W : Type) (m : Type → Type) [Monad m] [WideInt W m]
    [FixedStorage w W] extends LawfulWide W m (2 * w) where
  val_toWide : ∀ x : BitVec w, val (toWide x : W) = x.toInt
  fromWideWrapping_eq : ∀ x : W, fromWideWrapping x = BitVec.ofInt w (val x)

instance (w : ℕ) : FixedStorage w (BitVec (2 * w)) where
  toWide := fun x ↦ x.signExtend (2 * w)
  fromWideWrapping := fun x ↦ x.setWidth w

theorem inRange_wide {w : ℕ} (x : BitVec w) : InRange (2 * w) x.toInt := by
  obtain ⟨hlow, hhigh⟩ := inRange_toInt x
  have hwide : (2 : ℤ) ^ w ≤ 2 ^ (2 * w) := pow_le_pow_right₀ (by norm_num) (by omega)
  constructor
  · linarith
  · linarith

instance (w : ℕ) : FixedStorage w (Exact (2 * w)) where
  toWide := fun x ↦ ⟨x.toInt, inRange_wide x⟩
  fromWideWrapping := fun x ↦ BitVec.ofInt w x.value

theorem setWidth_eq_ofInt {w : ℕ} (x : BitVec (2 * w)) : x.setWidth w = BitVec.ofInt w x.toInt := by
  apply BitVec.eq_of_toInt_eq
  have hdvd : (2 ^ w : ℕ) ∣ 2 ^ (2 * w) := pow_dvd_pow 2 (by omega)
  rw [BitVec.toInt_setWidth, BitVec.toInt_ofInt, BitVec.toInt_eq_toNat_bmod,
    Int.bmod_bmod_of_dvd hdvd]

instance (w : ℕ) [NeZero w] : LawfulStorage w (BitVec (2 * w)) Id where
  val_toWide := fun x ↦ BitVec.toInt_signExtend_of_le (by omega)
  fromWideWrapping_eq := setWidth_eq_ofInt

instance (w : ℕ) [NeZero w] : LawfulStorage w (Exact (2 * w)) Option where
  val_toWide := fun _ ↦ rfl
  fromWideWrapping_eq := fun _ ↦ rfl

end SoulSystem.Scirust
