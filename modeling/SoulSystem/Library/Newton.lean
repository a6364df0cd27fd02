import Mathlib.Tactic

/-!
# Newton's iteration for the integer square root

A step from any positive root leads to an upper bound of the root, up to one.  It goes down as long
as the square of the root is too large, so the iteration may stop at the first step that does not go
down.
-/

namespace SoulSystem.Library

/-- One step towards the square root of `n`. -/
def newtonStep (n root : ℤ) : ℤ := (root + n / root) / 2

namespace Newton

variable {n root : ℤ}

theorem newtonStep_pos (hn : 0 < n) (hroot : 0 < root) : 0 < newtonStep n root := by
  have hquotient : 0 ≤ n / root := Int.ediv_nonneg hn.le hroot.le
  rw [newtonStep]
  rcases eq_or_lt_of_le (Int.add_one_le_of_lt hroot) with hone | hmore
  · have hself : n / root = n := by
      rw [← hone, zero_add, Int.ediv_one]
    omega
  · omega

/-- The arithmetic mean of a root and the quotient is not below the geometric one. -/
theorem lt_newtonStep_sq (hroot : 0 < root) (hn : 0 ≤ n) :
    n < (newtonStep n root + 1) * (newtonStep n root + 1) := by
  have hquotient := Int.lt_ediv_add_one_mul_self n hroot
  have hnonneg : 0 ≤ n / root := Int.ediv_nonneg hn hroot.le
  have hmean : root + n / root + 1 ≤ 2 * (newtonStep n root + 1) := by
    rw [newtonStep]
    omega
  have hgeometric :
      4 * ((n / root + 1) * root) ≤ (root + n / root + 1) * (root + n / root + 1) := by
    nlinarith [sq_nonneg (root - (n / root + 1))]
  nlinarith

/-- A root whose square is too large goes down. -/
theorem newtonStep_lt (hroot : 0 < root) (hlarge : n < root * root) : newtonStep n root < root := by
  have hquotient : n / root < root := Int.ediv_lt_of_lt_mul hroot hlarge
  rw [newtonStep]
  omega

/-- The quotient by an upper bound of the square root. -/
theorem div_le_of_lt_sq (hroot : 0 < root) (hupper : n < (root + 1) * (root + 1)) :
    n / root ≤ root + 2 := by
  refine Int.ediv_le_of_le_mul hroot ?_
  nlinarith

/-- A root that does not go down has a square that is small enough. -/
theorem sq_le_of_le_newtonStep (hroot : 0 < root) (hle : root ≤ newtonStep n root) :
    root * root ≤ n := not_lt.mp fun hlarge ↦ absurd (newtonStep_lt hroot hlarge) (not_lt.mpr hle)

theorem add_div_le (hroot : 0 < root) (hle : root ≤ n) : root + n / root ≤ n + 1 := by
  have hquotient : 1 ≤ n / root := by
    rw [Int.le_ediv_iff_mul_le hroot, one_mul]
    exact hle
  have hproduct := Int.ediv_mul_le n hroot.ne'
  nlinarith

theorem eq_sqrt (hroot : 0 ≤ root) (hlow : root * root ≤ n) (hhigh : n < (root + 1) * (root + 1)) :
    root = Nat.sqrt n.toNat := by
  obtain ⟨k, rfl⟩ := Int.eq_ofNat_of_zero_le hroot
  have hlowNat : k * k ≤ n.toNat := by
    zify
    exact hlow.trans (Int.self_le_toNat n)
  have hhighNat : n.toNat < (k + 1) * (k + 1) := by
    have hn : 0 ≤ n := (mul_self_nonneg _).trans hlow
    zify
    rwa [Int.toNat_of_nonneg hn]
  exact_mod_cast Nat.eq_sqrt.mpr ⟨hlowNat, hhighNat⟩

end Newton

end SoulSystem.Library
