import Mathlib.Algebra.Polynomial.BigOperators
import SoulSystem.Library.Grid
import SoulSystem.Library.NormalEquations
import SoulSystem.Library.Str

/-!
# Polynomial fits

The coefficients are computed from the normal equations of the powers of the inputs.  The system is
solved in place, column by column, without a search for pivots.  A pivot that is close to zero is an
error.

The numbers are rationals.  The buffers are read and written inside of their bounds only, so no
access is checked.
-/

namespace SoulSystem.Scirust.Symbolic

open Library RowMajor Outcome NormalEquations List Function

section Program

/-- The powers of each input, one row after the other. -/
def vandermonde (xs : List ℚ) (k : ℕ) : List ℚ :=
  xs.foldl
    (fun v x ↦ ((List.range k).foldl (fun state _ ↦ (state.1 ++ [state.2], state.2 * x)) (v, 1)).1)
    []

def accumulate (n : ℕ) (term : ℕ → ℚ) : ℚ := (List.range n).foldl (fun s row ↦ s + term row) 0

/-- The matrix and the right side, entry by entry. -/
def normalEquations (v ys : List ℚ) (n k : ℕ) : List ℚ × List ℚ :=
  (List.range k).foldl
    (fun state i ↦
      let vtv := (List.range k).foldl
        (fun vtv j ↦ vtv.set (i * k + j)
          (accumulate n fun row ↦ v.getD (row * k + i) 0 * v.getD (row * k + j) 0)) state.1
      let vty := state.2.set i (accumulate n fun row ↦ v.getD (row * k + i) 0 * ys.getD row 0)
      (vtv, vty))
    (List.replicate (k * k) 0, List.replicate k 0)

/-- A row loses its multiple of the pivot's row. -/
def eliminateRow (k col : ℕ) (state : List ℚ × List ℚ) (row : ℕ) : List ℚ × List ℚ :=
  if row = col then state
  else
    let factor := state.1.getD (row * k + col) 0
    let vtv := (List.range k).foldl
      (fun vtv j ↦ vtv.set (row * k + j)
        (vtv.getD (row * k + j) 0 - factor * vtv.getD (col * k + j) 0)) state.1
    (vtv, state.2.set row (state.2.getD row 0 - factor * state.2.getD col 0))

def eliminateColumn (k : ℕ) (state : List ℚ × List ℚ) (col : ℕ) :
    Except Str (List ℚ × List ℚ) :=
  let pivot := state.1.getD (col * k + col) 0
  if |pivot| < 1 / 10 ^ 15 then .error "Singular matrix".toList
  else
    let vtv := (List.range k).foldl
      (fun vtv j ↦ vtv.set (col * k + j) (vtv.getD (col * k + j) 0 / pivot)) state.1
    let vty := state.2.set col (state.2.getD col 0 / pivot)
    .ok ((List.range k).foldl (eliminateRow k col) (vtv, vty))

def polynomialFit (xs ys : List ℚ) (degree : ℕ) : Except Str (List ℚ) :=
  let n := xs.length
  if n ≠ ys.length ∨ n = 0 then .error "Empty or mismatched inputs".toList
  else do
    let k := degree + 1
    let (_, vty) ← (List.range k).foldlM (eliminateColumn k)
      (normalEquations (vandermonde xs k) ys n k)
    return vty

/-- The intercept and the slope. -/
def linearRegression (xs ys : List ℚ) : Except Str (ℚ × ℚ) := do
  let coeffs ← polynomialFit xs ys 1
  if coeffs.length < 2 then .error "Fit failed".toList
  else return (coeffs.getD 0 0, coeffs.getD 1 0)

end Program

/-! ## Entries -/

section Entries

/-- A buffer with the entries of a square matrix. -/
def Holds (k : ℕ) (buf : List ℚ) (a : ℕ → ℕ → ℚ) : Prop :=
  buf.length = k * k ∧ ∀ i < k, ∀ j < k, buf.getD (i * k + j) 0 = a i j

/-- A buffer with the entries of a vector. -/
def HoldsSide (k : ℕ) (buf : List ℚ) (b : ℕ → ℚ) : Prop :=
  buf.length = k ∧ ∀ i < k, buf.getD i 0 = b i

variable {k : ℕ} {buf : List ℚ} {a : ℕ → ℕ → ℚ} {b : ℕ → ℚ}

theorem getD_set {p : ℕ} (hp : p < buf.length) (x : ℚ) (q : ℕ) :
    (buf.set p x).getD q 0 = if q = p then x else buf.getD q 0 := by
  rw [getD_eq_getElem?_getD, getD_eq_getElem?_getD, getElem?_set]
  by_cases hq : p = q
  · rw [if_pos hq, if_pos hp, if_pos hq.symm, Option.getD_some]
  · rw [if_neg hq, if_neg (Ne.symm hq)]

theorem HoldsSide.set (hold : HoldsSide k buf b) {i : ℕ} (hi : i < k) (x : ℚ) :
    HoldsSide k (buf.set i x) (update b i x) := by
  refine ⟨(length_set ..).trans hold.1, fun j hj ↦ ?_⟩
  rw [getD_set (hi.trans_eq hold.1.symm), update_apply, hold.2 j hj]

theorem Holds.set (hold : Holds k buf a) {i j : ℕ} (hi : i < k) (hj : j < k) (x : ℚ) :
    Holds k (buf.set (i * k + j) x)
      fun i' j' ↦ if i' = i ∧ j' = j then x else a i' j' := by
  refine ⟨(length_set ..).trans hold.1, fun i' hi' j' hj' ↦ ?_⟩
  rw [getD_set ((place_lt hi hj).trans_eq hold.1.symm), hold.2 i' hi' j' hj']
  refine if_congr ⟨place_inj hj' hj, fun heq ↦ ?_⟩ rfl rfl
  rw [heq.1, heq.2]

theorem Holds.congr {a' : ℕ → ℕ → ℚ} (hold : Holds k buf a)
    (hsame : ∀ i < k, ∀ j < k, a i j = a' i j) : Holds k buf a' :=
  ⟨hold.1, fun i hi j hj ↦ (hold.2 i hi j hj).trans (hsame i hi j hj)⟩

theorem HoldsSide.congr {b' : ℕ → ℚ} (hold : HoldsSide k buf b) (hsame : ∀ i < k, b i = b' i) :
    HoldsSide k buf b' :=
  ⟨hold.1, fun i hi ↦ (hold.2 i hi).trans (hsame i hi)⟩

theorem holds_zero (k : ℕ) : Holds k (List.replicate (k * k) 0) fun _ _ ↦ 0 :=
  ⟨length_replicate .., fun _ hi _ hj ↦ getD_replicate _ (place_lt hi hj)⟩

theorem holdsSide_zero (k : ℕ) : HoldsSide k (List.replicate k 0) fun _ ↦ 0 :=
  ⟨length_replicate .., fun _ hi ↦ getD_replicate _ hi⟩

/-- A loop over the entries of a row, which reads them and those of a second row. -/
theorem Holds.rowLoop (hold : Holds k buf a) {r c : ℕ} (hr : r < k) (hc : c < k)
    (f : ℕ → ℚ → ℚ → ℚ) :
    Holds k ((List.range k).foldl (fun buf j ↦ buf.set (r * k + j)
        (f j (buf.getD (r * k + j) 0) (buf.getD (c * k + j) 0))) buf)
      fun i j ↦ if i = r then f j (a r j) (a c j) else a i j := by
  have hloop : ∀ count ≤ k, Holds k ((List.range count).foldl (fun buf j ↦ buf.set (r * k + j)
        (f j (buf.getD (r * k + j) 0) (buf.getD (c * k + j) 0))) buf)
      fun i j ↦ if i = r ∧ j < count then f j (a r j) (a c j) else a i j := by
    intro count hcount
    induction count with
    | zero => exact hold.congr fun i _ j _ ↦ (if_neg fun h ↦ Nat.not_lt_zero j h.2).symm
    | succ count ih =>
      have hbefore := ih (Nat.le_of_succ_le hcount)
      rw [range_succ, foldl_append, foldl_cons, foldl_nil,
        hbefore.2 r hr count hcount, hbefore.2 c hc count hcount]
      refine (hbefore.set hr hcount _).congr fun i _ j _ ↦ ?_
      simp only [lt_irrefl, and_false, if_false]
      by_cases hi : i = r
      · by_cases hj : j = count
        · simp [hi, hj]
        · simp only [hi, hj, true_and, if_false]
          exact if_congr (by omega) rfl rfl
      · simp [hi]
  refine (hloop k le_rfl).congr fun i _ j hj ↦ ?_
  exact if_congr (and_iff_left hj) rfl rfl

end Entries

/-! ## The normal equations -/

section Setup

variable {k : ℕ}

theorem accumulate_eq (n : ℕ) (term : ℕ → ℚ) :
    accumulate n term = ∑ row ∈ Finset.range n, term row := by
  induction n with
  | zero => rfl
  | succ n ih =>
    rw [Finset.sum_range_succ, ← ih, accumulate, range_succ, foldl_append]
    rfl

theorem vandermonde_eq (xs : List ℚ) (k : ℕ) :
    vandermonde xs k = grid xs.length k fun row j ↦ xs.getD row 0 ^ j := by
  have hrow : ∀ (v : List ℚ) (x : ℚ) (count : ℕ),
      (List.range count).foldl (fun state _ ↦ (state.1 ++ [state.2], state.2 * x)) (v, 1) =
        (v ++ (List.range count).map (x ^ ·), x ^ count) := by
    intro v x count
    induction count with
    | zero => rw [range_zero, map_nil, append_nil, pow_zero]; rfl
    | succ count ih =>
      rw [range_succ, foldl_append, ih, map_append, ← append_assoc, pow_succ]
      rfl
  have hrows : ∀ start : List ℚ, xs.foldl (fun v x ↦ ((List.range k).foldl
      (fun state _ ↦ (state.1 ++ [state.2], state.2 * x)) (v, 1)).1) start =
        start ++ grid xs.length k fun row j ↦ xs.getD row 0 ^ j := by
    induction xs with
    | nil => exact fun start ↦ (append_nil start).symm
    | cons x xs ih =>
      intro start
      have hgrid : grid (x :: xs).length k (fun row j ↦ (x :: xs).getD row 0 ^ j) =
          (List.range k).map (x ^ ·) ++ grid xs.length k fun row j ↦ xs.getD row 0 ^ j := by
        rw [length_cons, add_comm, grid, tab_add, tab_one]
        refine congrArg (_ ++ ·) (tab_congr fun i _ ↦ ?_)
        rw [add_comm, getD_cons_succ]
      rw [foldl_cons, hrow, ih, hgrid, append_assoc]
  exact hrows []

theorem getD_vandermonde {xs : List ℚ} {row j : ℕ} (hrow : row < xs.length) (hj : j < k) :
    (vandermonde xs k).getD (row * k + j) 0 = xs.getD row 0 ^ j := by
  rw [vandermonde_eq, getD_eq_getElem?_getD, getElem?_grid hrow hj, Option.getD_some]

variable (xs ys : List ℚ)

/-- The powers of an input. -/
def powers (row j : ℕ) : ℚ := xs.getD row 0 ^ j

/-- **The buffers are the normal equations.** -/
theorem normalEquations_holds :
    Holds k (normalEquations (vandermonde xs k) ys xs.length k).1
      (gram (Finset.range xs.length) (powers xs)) ∧
    HoldsSide k (normalEquations (vandermonde xs k) ys xs.length k).2
      (moments (Finset.range xs.length) (powers xs) (ys.getD · 0)) := by
  have hgram : ∀ i < k, ∀ j < k, (accumulate xs.length fun row ↦
      (vandermonde xs k).getD (row * k + i) 0 * (vandermonde xs k).getD (row * k + j) 0) =
        gram (Finset.range xs.length) (powers xs) i j := by
    intro i hi j hj
    rw [accumulate_eq]
    refine Finset.sum_congr rfl fun row hrow ↦ ?_
    have hrow := Finset.mem_range.mp hrow
    rw [getD_vandermonde hrow hi, getD_vandermonde hrow hj, powers, powers]
  have hmoments : ∀ i < k, (accumulate xs.length fun row ↦
      (vandermonde xs k).getD (row * k + i) 0 * ys.getD row 0) =
        moments (Finset.range xs.length) (powers xs) (ys.getD · 0) i := by
    intro i hi
    rw [accumulate_eq]
    refine Finset.sum_congr rfl fun row hrow ↦ ?_
    rw [getD_vandermonde (Finset.mem_range.mp hrow) hi, powers]
  have hloop : ∀ count ≤ k, ∃ state, (List.range count).foldl
      (fun (state : List ℚ × List ℚ) i ↦
        ((List.range k).foldl (fun vtv j ↦ vtv.set (i * k + j)
          (accumulate xs.length fun row ↦ (vandermonde xs k).getD (row * k + i) 0 *
            (vandermonde xs k).getD (row * k + j) 0)) state.1,
          state.2.set i (accumulate xs.length fun row ↦
            (vandermonde xs k).getD (row * k + i) 0 * ys.getD row 0)))
      (List.replicate (k * k) 0, List.replicate k 0) = state ∧
      Holds k state.1
        (fun i j ↦ if i < count then gram (Finset.range xs.length) (powers xs) i j else 0) ∧
      HoldsSide k state.2
        fun i ↦ if i < count then moments (Finset.range xs.length) (powers xs) (ys.getD · 0) i
          else 0 := by
    intro count hcount
    induction count with
    | zero =>
      exact ⟨_, rfl, (holds_zero k).congr fun i _ _ _ ↦ (if_neg (Nat.not_lt_zero i)).symm,
        (holdsSide_zero k).congr fun i _ ↦ (if_neg (Nat.not_lt_zero i)).symm⟩
    | succ count ih =>
      obtain ⟨state, hstate, hmatrix, hside⟩ := ih (Nat.le_of_succ_le hcount)
      have hrow := hmatrix.rowLoop hcount hcount fun j _ _ ↦ accumulate xs.length fun row ↦
        (vandermonde xs k).getD (row * k + count) 0 * (vandermonde xs k).getD (row * k + j) 0
      have hentry := hside.set hcount (accumulate xs.length fun row ↦
        (vandermonde xs k).getD (row * k + count) 0 * ys.getD row 0)
      rw [range_succ, foldl_append, hstate]
      refine ⟨_, rfl, hrow.congr fun i _ j hj ↦ ?_, hentry.congr fun i _ ↦ ?_⟩
      · by_cases hlast : i = count
        · rw [if_pos hlast, if_pos (by omega), hlast, hgram count hcount j hj]
        · rw [if_neg hlast]
          exact if_congr (by omega) rfl rfl
      · by_cases hlast : i = count
        · rw [hlast, update_self, if_pos (Nat.lt_succ_self count),
            hmoments count hcount]
        · rw [update_of_ne hlast]
          exact if_congr (by omega) rfl rfl
  obtain ⟨state, hstate, hmatrix, hside⟩ := hloop k le_rfl
  rw [normalEquations, hstate]
  exact ⟨hmatrix.congr fun i hi j _ ↦ if_pos hi, hside.congr fun i hi ↦ if_pos hi⟩

end Setup

/-! ## The elimination -/

section Elimination

variable {k col : ℕ} {state : List ℚ × List ℚ} {a : ℕ → ℕ → ℚ} {b : ℕ → ℚ}

theorem eliminateRow_holds {row : ℕ} (hrow : row < k) (hcol : col < k) (ha : Holds k state.1 a)
    (hb : HoldsSide k state.2 b) :
    Holds k (eliminateRow k col state row).1
      (fun i j ↦ if i = row ∧ i ≠ col then a i j - a i col * a col j else a i j) ∧
    HoldsSide k (eliminateRow k col state row).2
      fun i ↦ if i = row ∧ i ≠ col then b i - a i col * b col else b i := by
  by_cases hpivot : row = col
  · rw [eliminateRow, if_pos hpivot]
    exact ⟨ha.congr fun i _ j _ ↦ (if_neg fun h ↦ h.2 (h.1.trans hpivot)).symm,
      hb.congr fun i _ ↦ (if_neg fun h ↦ h.2 (h.1.trans hpivot)).symm⟩
  · rw [eliminateRow, if_neg hpivot, ha.2 row hrow col hcol, hb.2 row hrow, hb.2 col hcol]
    have hmatrix := ha.rowLoop hrow hcol fun _ x y ↦ x - a row col * y
    have hside := hb.set hrow (b row - a row col * b col)
    refine ⟨hmatrix.congr fun i _ j _ ↦ ?_, hside.congr fun i _ ↦ ?_⟩
    · by_cases hi : i = row
      · rw [if_pos hi, if_pos ⟨hi, hi ▸ hpivot⟩, hi]
      · rw [if_neg hi, if_neg fun h ↦ hi h.1]
    · rw [update_apply]
      by_cases hi : i = row
      · rw [if_pos hi, if_pos ⟨hi, hi ▸ hpivot⟩, hi]
      · rw [if_neg hi, if_neg fun h ↦ hi h.1]

theorem eliminateRows_holds (state : List ℚ × List ℚ) (hcol : col < k) (ha : Holds k state.1 a)
    (hb : HoldsSide k state.2 b) :
    Holds k ((List.range k).foldl (eliminateRow k col) state).1
      (fun i j ↦ if i ≠ col then a i j - a i col * a col j else a i j) ∧
    HoldsSide k ((List.range k).foldl (eliminateRow k col) state).2
      fun i ↦ if i ≠ col then b i - a i col * b col else b i := by
  have hloop : ∀ count ≤ k, Holds k ((List.range count).foldl (eliminateRow k col) state).1
      (fun i j ↦ if i < count ∧ i ≠ col then a i j - a i col * a col j else a i j) ∧
    HoldsSide k ((List.range count).foldl (eliminateRow k col) state).2
      fun i ↦ if i < count ∧ i ≠ col then b i - a i col * b col else b i := by
    intro count hcount
    induction count with
    | zero =>
      exact ⟨ha.congr fun i _ j _ ↦ (if_neg fun h ↦ Nat.not_lt_zero i h.1).symm,
        hb.congr fun i _ ↦ (if_neg fun h ↦ Nat.not_lt_zero i h.1).symm⟩
    | succ count ih =>
      obtain ⟨hmatrix, hside⟩ := ih (Nat.le_of_succ_le hcount)
      obtain ⟨hmatrix', hside'⟩ := eliminateRow_holds hcount hcol hmatrix hside
      rw [range_succ, foldl_append]
      refine ⟨hmatrix'.congr fun i _ j _ ↦ ?_, hside'.congr fun i _ ↦ ?_⟩
      · by_cases hlast : i = count
        · by_cases hpivot : i = col
          · simp [hpivot]
          · simp [hlast, hlast ▸ hpivot]
        · simp only [hlast, false_and, if_false]
          exact if_congr (by omega) rfl rfl
      · by_cases hlast : i = count
        · by_cases hpivot : i = col
          · simp [hpivot]
          · simp [hlast, hlast ▸ hpivot]
        · simp only [hlast, false_and, if_false]
          exact if_congr (by omega) rfl rfl
  obtain ⟨hmatrix, hside⟩ := hloop k le_rfl
  exact ⟨hmatrix.congr fun i hi j _ ↦ if_congr (and_iff_right hi) rfl rfl,
    hside.congr fun i hi ↦ if_congr (and_iff_right hi) rfl rfl⟩

/-- **A column is eliminated**, or its pivot is too small. -/
theorem eliminateColumn_cases (hcol : col < k) (ha : Holds k state.1 a)
    (hb : HoldsSide k state.2 b) :
    eliminateColumn k state col = .error "Singular matrix".toList ∨
    ∃ state', eliminateColumn k state col = .ok state' ∧ a col col ≠ 0 ∧
      Holds k state'.1 (pivotRows a col) ∧ HoldsSide k state'.2 (pivotSide a b col) := by
  rw [eliminateColumn, ha.2 col hcol col hcol, hb.2 col hcol]
  by_cases hsmall : |a col col| < 1 / 10 ^ 15
  · exact .inl (if_pos hsmall)
  · have hpivot : a col col ≠ 0 := by
      intro hzero
      rw [hzero, abs_zero] at hsmall
      exact hsmall (by positivity)
    refine .inr ⟨_, if_neg hsmall, hpivot, ?_⟩
    have hmatrix := ha.rowLoop hcol hcol fun _ x _ ↦ x / a col col
    have hside := hb.set hcol (b col / a col col)
    obtain ⟨hmatrix', hside'⟩ := eliminateRows_holds (_, _) hcol hmatrix hside
    refine ⟨hmatrix'.congr fun i _ j _ ↦ ?_, hside'.congr fun i _ ↦ ?_⟩
    · by_cases hi : i = col
      · simp [pivotRows, hi]
      · simp [pivotRows, hi]
    · by_cases hi : i = col
      · simp [pivotSide, hi]
      · simp [pivotSide, hi]

/-- **The elimination** keeps the solutions and clears the columns, or ends with an error. -/
theorem eliminate_run (ha : Holds k state.1 a) (hb : HoldsSide k state.2 b) {count : ℕ}
    (hcount : count ≤ k) :
    (List.range count).foldlM (eliminateColumn k) state = .error "Singular matrix".toList ∨
    ∃ state' a' b', (List.range count).foldlM (eliminateColumn k) state = .ok state' ∧
      Holds k state'.1 a' ∧ HoldsSide k state'.2 b' ∧
      Cleared (Finset.range k) (Finset.range count) a' ∧
      ∀ x, Solves (Finset.range k) a' b' x ↔ Solves (Finset.range k) a b x := by
  induction count with
  | zero =>
    refine .inr ⟨state, a, b, rfl, ha, hb, fun j hj ↦ ?_, fun x ↦ Iff.rfl⟩
    exact absurd (Finset.mem_range.mp hj) (Nat.not_lt_zero j)
  | succ count ih =>
    rw [range_succ, foldlM_append]
    rcases ih (Nat.le_of_succ_le hcount) with
      hsingular | ⟨mid, m, d, hmid, hmatrix, hside, hcleared, hsolves⟩
    · rw [hsingular]
      exact .inl rfl
    · rw [hmid, ok_bind, foldlM_cons]
      rcases eliminateColumn_cases hcount hmatrix hside with
        hsingular | ⟨state', hstate, hpivot, hmatrix', hside'⟩
      · rw [hsingular]
        exact .inl rfl
      · rw [hstate, ok_bind, foldlM_nil]
        have hmem := Finset.mem_range.mpr hcount
        refine .inr ⟨state', _, _, rfl, hmatrix', hside', ?_, fun x ↦ ?_⟩
        · rw [Finset.range_add_one]
          exact hcleared.pivot hmem hpivot
        · exact (solves_pivot hmem hpivot).trans (hsolves x)

end Elimination

/-! ## The fit -/

section Fit

variable {xs ys c : List ℚ} {degree : ℕ}

/-- The sum of the squared errors. -/
def squaredError (xs ys c : List ℚ) : ℚ :=
  ∑ i ∈ Finset.range xs.length,
    (ys.getD i 0 - ∑ j ∈ Finset.range c.length, c.getD j 0 * xs.getD i 0 ^ j) ^ 2

theorem squaredError_eq (hc : c.length = degree + 1) :
    squaredError xs ys c = residual (Finset.range xs.length) (Finset.range (degree + 1))
      (powers xs) (ys.getD · 0) (c.getD · 0) := by
  rw [squaredError, hc]
  refine Finset.sum_congr rfl fun i _ ↦ ?_
  rw [fitted, Finset.sum_congr rfl fun j _ ↦ mul_comm (c.getD j 0) _]
  rfl

/-- **A fit is the only solution of the normal equations**; else there is an error. -/
theorem polynomialFit_cases (hlength : xs.length = ys.length) (hne : xs ≠ []) (degree : ℕ) :
    polynomialFit xs ys degree = .error "Singular matrix".toList ∨
    ∃ c, polynomialFit xs ys degree = .ok c ∧ c.length = degree + 1 ∧
      ∀ x : ℕ → ℚ, Solves (Finset.range (degree + 1))
          (gram (Finset.range xs.length) (powers xs))
          (moments (Finset.range xs.length) (powers xs) (ys.getD · 0)) x ↔
        ∀ j < degree + 1, x j = c.getD j 0 := by
  have hguard : ¬ (xs.length ≠ ys.length ∨ xs.length = 0) := by
    rw [not_or, not_not, length_eq_zero_iff]
    exact ⟨hlength, hne⟩
  rw [polynomialFit]
  simp only [if_neg hguard]
  obtain ⟨hmatrix, hside⟩ := normalEquations_holds (k := degree + 1) xs ys
  rcases eliminate_run hmatrix hside le_rfl with
    hsingular | ⟨state, a, b, hstate, -, hb, hcleared, hsolves⟩
  · rw [hsingular]
    exact .inl rfl
  · rw [hstate]
    refine .inr ⟨state.2, rfl, hb.1, fun x ↦ ?_⟩
    rw [← hsolves x, hcleared.solves_iff]
    refine forall_congr' fun j ↦ ?_
    rw [Finset.mem_range]
    exact forall_congr' fun hj ↦ by rw [hb.2 j hj]

/-- Inputs with too few values are the roots of a polynomial, which adds nothing to a fit. -/
theorem exists_kernel (hfew : xs.toFinset.card < degree + 1) :
    ∃ d : ℕ → ℚ, (∃ j < degree + 1, d j ≠ 0) ∧
      ∀ row ∈ Finset.range xs.length, fitted (Finset.range (degree + 1)) (powers xs) d row = 0 := by
  let p : Polynomial ℚ := ∏ x ∈ xs.toFinset, (Polynomial.X - Polynomial.C x)
  have hmonic : p.Monic := Polynomial.monic_prod_of_monic _ _ fun x _ ↦ Polynomial.monic_X_sub_C x
  have hdegree : p.natDegree = xs.toFinset.card := by
    rw [Polynomial.natDegree_prod_of_monic _ _ fun x _ ↦ Polynomial.monic_X_sub_C x]
    simp
  refine ⟨p.coeff, ⟨p.natDegree, hdegree ▸ hfew, ?_⟩, fun row hrow ↦ ?_⟩
  · rw [Polynomial.Monic.coeff_natDegree hmonic]
    exact one_ne_zero
  · have hmem : xs.getD row 0 ∈ xs.toFinset := by
      rw [mem_toFinset, getD_eq_getElem _ _ (Finset.mem_range.mp hrow)]
      exact getElem_mem _
    have hroot : p.eval (xs.getD row 0) = 0 := by
      rw [Polynomial.eval_prod]
      exact Finset.prod_eq_zero hmem (by simp)
    rw [← hroot, Polynomial.eval_eq_sum_range' (hdegree ▸ hfew), fitted]
    exact Finset.sum_congr rfl fun j _ ↦ mul_comm _ _

theorem length_of_fit (hlength : xs.length = ys.length) (hne : xs ≠ []) {c : List ℚ}
    (hfit : polynomialFit xs ys degree = .ok c) : c.length = degree + 1 := by
  rcases polynomialFit_cases hlength hne degree with hsingular | ⟨c₁, hfit₁, hc, -⟩
  · cases hsingular.symm.trans hfit
  · cases hfit₁.symm.trans hfit
    exact hc

theorem squaredError_le_of_fit (hlength : xs.length = ys.length) (hne : xs ≠ []) {c c' : List ℚ}
    (hfit : polynomialFit xs ys degree = .ok c) (hc' : c'.length = degree + 1) :
    squaredError xs ys c ≤ squaredError xs ys c' ∧
      (squaredError xs ys c' ≤ squaredError xs ys c → c' = c) := by
  rcases polynomialFit_cases hlength hne degree with hsingular | ⟨c₁, hfit₁, hc, hsolves⟩
  · cases hsingular.symm.trans hfit
  · cases hfit₁.symm.trans hfit
    have hnormal := (hsolves (c.getD · 0)).mpr fun _ _ ↦ rfl
    rw [squaredError_eq hc, squaredError_eq hc']
    refine ⟨residual_le hnormal _, fun hle ↦ ?_⟩
    have hsame := (hsolves _).mp (solves_of_residual_le hnormal hle)
    refine ext_getElem (hc'.trans hc.symm) fun j hj hj' ↦ ?_
    have hentry := hsame j (hj.trans_eq hc')
    rwa [getD_eq_getElem _ _ hj, getD_eq_getElem _ _ hj'] at hentry

theorem polynomialFit_of_few (hlength : xs.length = ys.length) (hne : xs ≠ [])
    (hfew : xs.toFinset.card < degree + 1) :
    polynomialFit xs ys degree = .error "Singular matrix".toList := by
  rcases polynomialFit_cases hlength hne degree with hsingular | ⟨c, _, _, hsolves⟩
  · exact hsingular
  · obtain ⟨d, ⟨j, hj, hne⟩, hzero⟩ := exists_kernel hfew
    have hnormal := (hsolves (c.getD · 0)).mpr fun _ _ ↦ rfl
    have hboth := (hsolves _).mp (hnormal.add hzero) j hj
    exact absurd (add_eq_left.mp hboth) hne

/-- **The fit is exact least squares**, and too few values are an error. -/
theorem polynomialFit_leastSquares (xs ys : List ℚ) (degree : ℕ) (hlength : xs.length = ys.length)
    (hne : xs ≠ []) :
    (∀ c, polynomialFit xs ys degree = .ok c → c.length = degree + 1 ∧
      ∀ c' : List ℚ, c'.length = degree + 1 → squaredError xs ys c ≤ squaredError xs ys c' ∧
        (squaredError xs ys c' ≤ squaredError xs ys c → c' = c)) ∧
    (xs.toFinset.card < degree + 1 →
      polynomialFit xs ys degree = .error "Singular matrix".toList) :=
  ⟨fun _ hfit ↦ ⟨length_of_fit hlength hne hfit,
    fun _ hc' ↦ squaredError_le_of_fit hlength hne hfit hc'⟩,
    fun hfew ↦ polynomialFit_of_few hlength hne hfew⟩

/-- Two distinct inputs on a line. -/
theorem polynomialFit_line : (∀ c, polynomialFit [0, 1] [1, 3] 1 = .ok c → c.length = 1 + 1 ∧
      ∀ c' : List ℚ, c'.length = 1 + 1 →
        squaredError [0, 1] [1, 3] c ≤ squaredError [0, 1] [1, 3] c' ∧
        (squaredError [0, 1] [1, 3] c' ≤ squaredError [0, 1] [1, 3] c → c' = c)) ∧
    (([0, 1] : List ℚ).toFinset.card < 1 + 1 →
      polynomialFit [0, 1] [1, 3] 1 = .error "Singular matrix".toList) :=
  polynomialFit_leastSquares [0, 1] [1, 3] 1 rfl (cons_ne_nil _ _)

example : polynomialFit [0, 1] [1, 3] 1 = .ok [1, 2] := by decide +kernel

/-- A regression has an intercept and a slope whenever there is a fit. -/
theorem linearRegression_eq (hlength : xs.length = ys.length) (hne : xs ≠ []) :
    linearRegression xs ys =
      (polynomialFit xs ys 1).map fun coeffs ↦ (coeffs.getD 0 0, coeffs.getD 1 0) := by
  rcases polynomialFit_cases hlength hne 1 with hsingular | ⟨c, hfit, hc, -⟩
  · rw [linearRegression, hsingular]
    rfl
  · rw [linearRegression, hfit, ok_bind, if_neg (by omega)]
    rfl

/-- **A regression is the best line.**  Its intercept and slope are the only ones with the least
squared error, and it fails when all inputs are equal. -/
theorem linearRegression_leastSquares (hlength : xs.length = ys.length) (hne : xs ≠ []) :
    (∀ line, linearRegression xs ys = .ok line → ∀ other : ℚ × ℚ,
      squaredError xs ys [line.1, line.2] ≤ squaredError xs ys [other.1, other.2] ∧
      (squaredError xs ys [other.1, other.2] ≤ squaredError xs ys [line.1, line.2] →
        other = line)) ∧
    (xs.toFinset.card < 2 → linearRegression xs ys = .error "Singular matrix".toList) := by
  rw [linearRegression_eq hlength hne]
  constructor
  · intro line hok other
    cases hfit : polynomialFit xs ys 1 with
    | error text =>
      rw [hfit] at hok
      cases hok
    | ok c =>
      rw [hfit] at hok
      cases hok
      obtain ⟨intercept, slope, rfl⟩ := length_eq_two.mp (length_of_fit hlength hne hfit)
      obtain ⟨hle, hunique⟩ := @squaredError_le_of_fit _ _ _ hlength hne _
        [other.1, other.2] hfit rfl
      refine ⟨hle, fun hother ↦ ?_⟩
      cases hunique hother
      rfl
  · intro hfew
    rw [polynomialFit_of_few hlength hne hfew]
    rfl

theorem linearRegression_line :
    (∀ line, linearRegression [0, 1] [1, 3] = .ok line → ∀ other : ℚ × ℚ,
      squaredError [0, 1] [1, 3] [line.1, line.2] ≤
        squaredError [0, 1] [1, 3] [other.1, other.2] ∧
      (squaredError [0, 1] [1, 3] [other.1, other.2] ≤
        squaredError [0, 1] [1, 3] [line.1, line.2] → other = line)) ∧
    (([0, 1] : List ℚ).toFinset.card < 2 →
      linearRegression [0, 1] [1, 3] = .error "Singular matrix".toList) :=
  linearRegression_leastSquares rfl (cons_ne_nil _ _)

end Fit

end SoulSystem.Scirust.Symbolic
