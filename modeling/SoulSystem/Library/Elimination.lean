import Mathlib.Algebra.BigOperators.Group.Finset.Basic
import Mathlib.GroupTheory.Perm.Basic
import Mathlib.Tactic.Abel

/-!
# Elimination with any product and any quotient

A matrix is eliminated column by column: the multipliers of a column are stored where they make
zeros, and the rows below the pivot lose their multiples of the pivot's row.  Rows are exchanged
together with the multipliers that are stored in them.

Neither the product nor the quotient has to be exact.  The entries on and above the diagonal are
recovered without any error, and an entry below the diagonal up to what its quotient leaves.
-/

namespace SoulSystem.Library.Elimination

open scoped BigOperators

variable {R : Type*} [AddCommGroup R] (mul quot : R → R → R)

/-! ## Steps -/

/-- The rows of the matrix in another order. -/
def reorder (m : ℕ → ℕ → R) (σ : ℕ → ℕ) : ℕ → ℕ → R := fun i j ↦ m (σ i) j

/-- The column under a pivot is eliminated. -/
def eliminate (m : ℕ → ℕ → R) (k : ℕ) : ℕ → ℕ → R := fun i j ↦
  if i ≤ k ∨ j < k then m i j
  else if j = k then quot (m i k) (m k k)
  else m i j - mul (quot (m i k) (m k k)) (m k j)

/-- What the first columns of multipliers and the first rows account for. -/
def partialProduct (m : ℕ → ℕ → R) (i j t : ℕ) : R := ∑ l ∈ Finset.range t, mul (m i l) (m l j)

/-! ## The invariant -/

/-- The first columns are eliminated.  What an entry below the diagonal was divided from is related
to the pivot of its column. -/
structure Eliminated (Related : R → R → Prop) (a m : ℕ → ℕ → R) (n k : ℕ) : Prop where
  upper : ∀ i < n, ∀ j < n, min i k ≤ j → a i j = m i j + partialProduct mul m i j (min i k)
  lower : ∀ i < n, ∀ j < min i k, m i j = quot (a i j - partialProduct mul m i j j) (m j j) ∧
    Related (a i j - partialProduct mul m i j j) (m j j)

variable {mul quot} {Related : R → R → Prop} {a m m' : ℕ → ℕ → R} {n k : ℕ}

theorem partialProduct_congr {i i' j t : ℕ} (hrow : ∀ l < t, m i l = m' i' l)
    (hcol : ∀ l < t, m l j = m' l j) : partialProduct mul m i j t = partialProduct mul m' i' j t := by
  refine Finset.sum_congr rfl fun l hl ↦ ?_
  rw [hrow l (Finset.mem_range.mp hl), hcol l (Finset.mem_range.mp hl)]

theorem partialProduct_succ (m : ℕ → ℕ → R) (i j t : ℕ) :
    partialProduct mul m i j (t + 1) = partialProduct mul m i j t + mul (m i t) (m t j) :=
  Finset.sum_range_succ _ _

theorem Eliminated.start (a : ℕ → ℕ → R) (n : ℕ) : Eliminated mul quot Related a a n 0 where
  upper i _ j _ _ := by
    rw [Nat.min_zero, partialProduct, Finset.sum_range_zero, add_zero]
  lower i _ j hj := by
    rw [Nat.min_zero] at hj
    exact absurd hj (Nat.not_lt_zero j)

/-- Only the entries inside of the matrix matter. -/
theorem Eliminated.congr (helim : Eliminated mul quot Related a m n k)
    (hsame : ∀ i < n, ∀ j < n, m' i j = m i j) : Eliminated mul quot Related a m' n k := by
  have hproduct : ∀ i < n, ∀ j < n, ∀ t ≤ i,
      partialProduct mul m' i j t = partialProduct mul m i j t := by
    intro i hi j hj t ht
    exact partialProduct_congr (fun l hl ↦ hsame i hi l (by omega))
      fun l hl ↦ hsame l (by omega) j hj
  constructor
  · intro i hi j hj hle
    rw [helim.upper i hi j hj hle, hsame i hi j hj, hproduct i hi j hj _ (min_le_left i k)]
  · intro i hi j hj
    have hji : j < i := hj.trans_le (min_le_left i k)
    rw [hsame i hi j (hji.trans hi), hsame j (hji.trans hi) j (hji.trans hi),
      hproduct i hi j (hji.trans hi) j hji.le]
    exact helim.lower i hi j hj

/-- Two rows that are not finished are exchanged. -/
theorem Eliminated.swap (helim : Eliminated mul quot Related a m n k) {p : ℕ} (hk : k < n)
    (hkp : k ≤ p) (hp : p < n) :
    Eliminated mul quot Related (reorder a (Equiv.swap k p)) (reorder m (Equiv.swap k p)) n k := by
  have hbelow : ∀ l < k, Equiv.swap k p l = l := fun l hl ↦
    Equiv.swap_apply_of_ne_of_ne hl.ne (hl.trans_le hkp).ne
  have hinside : ∀ i < n, Equiv.swap k p i < n := by
    intro i hi
    rw [Equiv.swap_apply_def]
    split_ifs
    · exact hp
    · exact hk
    · exact hi
  have hmin : ∀ i, min (Equiv.swap k p i) k = min i k := by
    intro i
    rw [Equiv.swap_apply_def]
    split_ifs with hik hip
    · rw [hik, min_eq_right hkp, min_self]
    · rw [hip, min_eq_right hkp, min_self]
    · rfl
  have hproduct : ∀ i j t, t ≤ k → partialProduct mul (reorder m (Equiv.swap k p)) i j t =
      partialProduct mul m (Equiv.swap k p i) j t := by
    intro i j t ht
    exact partialProduct_congr (fun l _ ↦ rfl)
      fun l hl ↦ congrArg (m · j) (hbelow l (hl.trans_le ht))
  constructor
  · intro i hi j hj hle
    rw [hproduct i j _ (min_le_right i k), ← hmin i]
    exact helim.upper _ (hinside i hi) j hj ((hmin i).trans_le hle)
  · intro i hi j hj
    have hjk : j < k := hj.trans_le (min_le_right i k)
    have hdiag : reorder m (Equiv.swap k p) j j = m j j := congrArg (m · j) (hbelow j hjk)
    rw [hproduct i j j hjk.le, hdiag]
    exact helim.lower _ (hinside i hi) j (hj.trans_eq (hmin i).symm)

/-- The next column is eliminated. -/
theorem Eliminated.step (helim : Eliminated mul quot Related a m n k) (hk : k < n)
    (hpivot : ∀ i < n, k < i → Related (m i k) (m k k)) :
    Eliminated mul quot Related a (eliminate mul quot m k) n (k + 1) := by
  have hrow : ∀ l ≤ k, ∀ j, eliminate mul quot m k l j = m l j := fun l hl j ↦
    if_pos (.inl hl)
  have hcol : ∀ i, ∀ l < k, eliminate mul quot m k i l = m i l := fun i l hl ↦
    if_pos (.inr hl)
  have hproduct : ∀ i j, ∀ t ≤ k,
      partialProduct mul (eliminate mul quot m k) i j t = partialProduct mul m i j t := by
    intro i j t ht
    exact partialProduct_congr (fun l hl ↦ hcol i l (hl.trans_le ht))
      fun l hl ↦ hrow l (hl.le.trans ht) j
  constructor
  · intro i hi j hj hle
    rcases Nat.lt_or_ge k i with hki | hik
    · rw [min_eq_right hki] at hle ⊢
      have hold := helim.upper i hi j hj (by omega)
      have hnot : ¬ (i ≤ k ∨ j < k) := by omega
      have hother : j ≠ k := by omega
      have hentry : eliminate mul quot m k i j = m i j - mul (quot (m i k) (m k k)) (m k j) := by
        rw [eliminate, if_neg hnot, if_neg hother]
      have hfactor : eliminate mul quot m k i k = quot (m i k) (m k k) := by
        rw [eliminate, if_neg (by omega), if_pos rfl]
      rw [min_eq_right hki.le] at hold
      rw [hold, hentry, partialProduct_succ, hproduct i j k le_rfl, hfactor, hrow k le_rfl]
      abel
    · rw [min_eq_left (hik.trans (Nat.le_succ k))] at hle ⊢
      have hold := helim.upper i hi j hj (by omega)
      rw [min_eq_left hik] at hold
      rw [hrow i hik, hproduct i j i hik]
      exact hold
  · intro i hi j hj
    rcases Nat.lt_or_ge j k with hjk | hkj
    · rw [hproduct i j j hjk.le, hcol i j hjk, hrow j hjk.le]
      exact helim.lower i hi j (by omega)
    · obtain rfl : j = k := by omega
      have hold := helim.upper i hi j hk (by omega)
      have hji : j < i := by omega
      rw [min_eq_right hji.le] at hold
      have hback : a i j - partialProduct mul m i j j = m i j := by
        rw [hold, add_sub_cancel_right]
      rw [hproduct i j j le_rfl, hrow j le_rfl, hback]
      refine ⟨?_, hpivot i hi hji⟩
      rw [eliminate, if_neg (by omega), if_pos rfl]

end SoulSystem.Library.Elimination
