import Mathlib.Algebra.BigOperators.Field
import Mathlib.Algebra.BigOperators.Ring.Finset
import Mathlib.Algebra.Order.BigOperators.Ring.Finset
import Mathlib.Tactic.FieldSimp
import Mathlib.Tactic.LinearCombination
import Mathlib.Tactic.Linarith

/-!
# Linear systems and least squares

A square system keeps its solutions when a row is divided by its pivot and subtracted from the
others.  When this has been done for every column, the right side is the only solution.

The solutions of the normal equations of an overdetermined system are its least squares solutions.
When there is only one, every other vector is worse.
-/

namespace SoulSystem.Library.NormalEquations

open scoped BigOperators

variable {ι ρ K : Type*} [Field K]

/-! ## Solutions -/

/-- A solution of a square system. -/
def Solves (s : Finset ι) (a : ι → ι → K) (b x : ι → K) : Prop :=
  ∀ i ∈ s, ∑ j ∈ s, a i j * x j = b i

section Pivots

variable [DecidableEq ι]

/-- The rows when the column of a pivot has been cleared. -/
def pivotRows (a : ι → ι → K) (c : ι) : ι → ι → K := fun i j ↦
  if i = c then a c j / a c c else a i j - a i c * (a c j / a c c)

/-- The right side when the column of a pivot has been cleared. -/
def pivotSide (a : ι → ι → K) (b : ι → K) (c : ι) : ι → K := fun i ↦
  if i = c then b c / a c c else b i - a i c * (b c / a c c)

/-- The columns of the identity. -/
def Cleared (s done : Finset ι) (a : ι → ι → K) : Prop :=
  ∀ j ∈ done, ∀ i ∈ s, a i j = if i = j then 1 else 0

variable {s done : Finset ι} {a : ι → ι → K} {b x : ι → K} {c : ι}

/-- **A pivot keeps the solutions.** -/
theorem solves_pivot (hc : c ∈ s) (hpivot : a c c ≠ 0) :
    Solves s (pivotRows a c) (pivotSide a b c) x ↔ Solves s a b x := by
  have hself : ∑ j ∈ s, pivotRows a c c j * x j = (∑ j ∈ s, a c j * x j) / a c c := by
    rw [Finset.sum_div]
    refine Finset.sum_congr rfl fun j _ ↦ ?_
    rw [pivotRows, if_pos rfl]
    ring
  have hother : ∀ i, i ≠ c → ∑ j ∈ s, pivotRows a c i j * x j =
      ∑ j ∈ s, a i j * x j - a i c * ((∑ j ∈ s, a c j * x j) / a c c) := by
    intro i hi
    rw [Finset.sum_div, Finset.mul_sum, ← Finset.sum_sub_distrib]
    refine Finset.sum_congr rfl fun j _ ↦ ?_
    rw [pivotRows, if_neg hi]
    ring
  constructor
  · intro hsolves
    have hrow : ∑ j ∈ s, a c j * x j = b c := by
      have hequation := hsolves c hc
      rw [hself, pivotSide, if_pos rfl] at hequation
      exact (div_left_inj' hpivot).mp hequation
    intro i hi
    by_cases hic : i = c
    · rw [hic, hrow]
    · have hequation := hsolves i hi
      rw [hother i hic, hrow, pivotSide, if_neg hic] at hequation
      exact sub_left_inj.mp hequation
  · intro hsolves i hi
    by_cases hic : i = c
    · rw [hic, hself, hsolves c hc, pivotSide, if_pos rfl]
    · rw [hother i hic, hsolves i hi, hsolves c hc, pivotSide, if_neg hic]

/-- **A pivot clears its column** and keeps the others clear. -/
theorem Cleared.pivot (hc : c ∈ s) (hpivot : a c c ≠ 0)
    (hcleared : Cleared s done a) : Cleared s (insert c done) (pivotRows a c) := by
  intro j hj i hi
  by_cases hjc : j = c
  · rw [hjc, pivotRows, div_self hpivot, mul_one, sub_self]
  · have hdone := (Finset.mem_insert.mp hj).resolve_left hjc
    have hzero : a c j = 0 := by
      rw [hcleared j hdone c hc, if_neg (Ne.symm hjc)]
    rw [pivotRows, hzero, zero_div, mul_zero, sub_zero, hcleared j hdone i hi]
    by_cases hic : i = c
    · rw [if_pos hic, hic, if_neg (Ne.symm hjc)]
    · rw [if_neg hic]

/-- When all columns are clear, the right side is the only solution. -/
theorem Cleared.solves_iff (hcleared : Cleared s s a) : Solves s a b x ↔ ∀ i ∈ s, x i = b i := by
  refine forall₂_congr fun i hi ↦ ?_
  have hsum : ∑ j ∈ s, a i j * x j = x i := by
    rw [Finset.sum_eq_single_of_mem i hi]
    · rw [hcleared i hi i hi, if_pos rfl, one_mul]
    · intro j hj hne
      rw [hcleared j hj i hi, if_neg (Ne.symm hne), zero_mul]
  rw [hsum]

end Pivots

/-! ## Least squares -/

section LeastSquares

variable (rows : Finset ρ) (s : Finset ι) (v : ρ → ι → K) (y : ρ → K)

/-- What a vector of coefficients gives for a row. -/
def fitted (x : ι → K) (r : ρ) : K := ∑ j ∈ s, v r j * x j

def residual (x : ι → K) : K := ∑ r ∈ rows, (y r - fitted s v x r) ^ 2

/-- The matrix of the normal equations. -/
def gram (i j : ι) : K := ∑ r ∈ rows, v r i * v r j

def moments (i : ι) : K := ∑ r ∈ rows, v r i * y r

variable {rows s v y} {x z : ι → K}

theorem fitted_sub (r : ρ) :
    fitted s v (fun j ↦ z j - x j) r = fitted s v z r - fitted s v x r := by
  rw [fitted, fitted, fitted, ← Finset.sum_sub_distrib]
  exact Finset.sum_congr rfl fun j _ ↦ mul_sub _ _ _

theorem gram_apply (i : ι) :
    ∑ j ∈ s, gram rows v i j * x j = ∑ r ∈ rows, v r i * fitted s v x r := by
  calc
    ∑ j ∈ s, gram rows v i j * x j
    _ = ∑ j ∈ s, ∑ r ∈ rows, v r i * v r j * x j :=
      Finset.sum_congr rfl fun j _ ↦ Finset.sum_mul _ _ _
    _ = ∑ r ∈ rows, ∑ j ∈ s, v r i * v r j * x j := Finset.sum_comm
    _ = ∑ r ∈ rows, v r i * fitted s v x r := by
      refine Finset.sum_congr rfl fun r _ ↦ ?_
      rw [fitted, Finset.mul_sum]
      exact Finset.sum_congr rfl fun j _ ↦ mul_assoc _ _ _

/-- What the normal equations leave over is orthogonal to everything that can be fitted. -/
theorem sum_error_mul_fitted (hnormal : Solves s (gram rows v) (moments rows v y) x) :
    ∑ r ∈ rows, (y r - fitted s v x r) * fitted s v z r = 0 := by
  calc
    ∑ r ∈ rows, (y r - fitted s v x r) * fitted s v z r
    _ = ∑ r ∈ rows, ∑ j ∈ s, (v r j * y r - v r j * fitted s v x r) * z j := by
      refine Finset.sum_congr rfl fun r _ ↦ ?_
      rw [fitted, fitted, Finset.mul_sum]
      exact Finset.sum_congr rfl fun j _ ↦ by ring
    _ = ∑ j ∈ s, ∑ r ∈ rows, (v r j * y r - v r j * fitted s v x r) * z j := Finset.sum_comm
    _ = 0 := by
      refine Finset.sum_eq_zero fun j hj ↦ ?_
      rw [← Finset.sum_mul, Finset.sum_sub_distrib, ← gram_apply, hnormal j hj, moments, sub_self,
        zero_mul]

/-- **Pythagoras.** -/
theorem residual_eq (hnormal : Solves s (gram rows v) (moments rows v y) x) (z : ι → K) :
    residual rows s v y z = residual rows s v y x +
      ∑ r ∈ rows, (fitted s v z r - fitted s v x r) ^ 2 := by
  have hcross : ∑ r ∈ rows, (y r - fitted s v x r) * (fitted s v z r - fitted s v x r) = 0 := by
    have hdifference := sum_error_mul_fitted (z := fun j ↦ z j - x j) hnormal
    simpa only [fitted_sub] using hdifference
  calc
    residual rows s v y z
    _ = ∑ r ∈ rows, ((y r - fitted s v x r) ^ 2 + (fitted s v z r - fitted s v x r) ^ 2 -
          2 * ((y r - fitted s v x r) * (fitted s v z r - fitted s v x r))) :=
      Finset.sum_congr rfl fun r _ ↦ by ring
    _ = residual rows s v y x + ∑ r ∈ rows, (fitted s v z r - fitted s v x r) ^ 2 := by
      rw [Finset.sum_sub_distrib, Finset.sum_add_distrib, ← Finset.mul_sum, hcross, mul_zero,
        sub_zero, residual]

/-- What is fitted by nothing may be added to a solution. -/
theorem Solves.add (hnormal : Solves s (gram rows v) (moments rows v y) x)
    (hzero : ∀ r ∈ rows, fitted s v z r = 0) :
    Solves s (gram rows v) (moments rows v y) fun j ↦ x j + z j := by
  intro i hi
  have hsum : ∑ r ∈ rows, v r i * fitted s v z r = 0 :=
    Finset.sum_eq_zero fun r hr ↦ by rw [hzero r hr, mul_zero]
  simp only [mul_add, Finset.sum_add_distrib]
  rw [hnormal i hi, gram_apply, hsum, add_zero]

variable [LinearOrder K] [IsStrictOrderedRing K]

/-- **A solution of the normal equations is a least squares solution.** -/
theorem residual_le (hnormal : Solves s (gram rows v) (moments rows v y) x) (z : ι → K) :
    residual rows s v y x ≤ residual rows s v y z := by
  rw [residual_eq hnormal z]
  exact le_add_of_nonneg_right (Finset.sum_nonneg fun r _ ↦ sq_nonneg _)

/-- What is as good as a solution of the normal equations is one itself. -/
theorem solves_of_residual_le (hnormal : Solves s (gram rows v) (moments rows v y) x)
    (hle : residual rows s v y z ≤ residual rows s v y x) :
    Solves s (gram rows v) (moments rows v y) z := by
  rw [residual_eq hnormal z] at hle
  have hzero : ∑ r ∈ rows, (fitted s v z r - fitted s v x r) ^ 2 = 0 := by
    refine le_antisymm ?_ (Finset.sum_nonneg fun r _ ↦ sq_nonneg _)
    linarith
  have hsame : ∀ r ∈ rows, fitted s v z r = fitted s v x r := by
    intro r hr
    have hsquare := (Finset.sum_eq_zero_iff_of_nonneg fun r _ ↦ sq_nonneg _).mp hzero r hr
    exact sub_eq_zero.mp (pow_eq_zero_iff two_ne_zero |>.mp hsquare)
  intro i hi
  rw [← hnormal i hi, gram_apply, gram_apply]
  exact Finset.sum_congr rfl fun r hr ↦ by rw [hsame r hr]

end LeastSquares

end SoulSystem.Library.NormalEquations
