import SoulSystem.Library.Elimination
import SoulSystem.Scirust.Fixed.Truncation
import SoulSystem.Scirust.Convolution.Variants

/-!
# Factorisation with partial pivoting

A square matrix is factored in place, column by column.  The row with the largest entry of the
column becomes the pivot's row, the multipliers take the place of the zeros under the pivot, and the
rows below lose their multiples of the pivot's row.

All places lie inside of the matrix, so no access is checked.
-/

namespace SoulSystem.Scirust

open Library RowMajor Outcome FixedReducible Elimination List

/-! ## The factorisation -/

section Definitions

/-- Two entries of a vector are exchanged. -/
def swapAt {α : Type} (default : α) (xs : List α) (p q : ℕ) : List α :=
  (xs.set p (xs.getD q default)).set q (xs.getD p default)

variable {w frac : ℕ}

/-- The indices after an index. -/
def after (k n : ℕ) : List ℕ := List.range' (k + 1) (n - (k + 1))

/-- The first row from the diagonal on whose entry in the column has the largest absolute value,
with this value. -/
def luPivot (lu : List (Fixed w frac)) (n k : ℕ) : ℕ × Fixed w frac :=
  (after k n).foldl
    (fun pivot i ↦
      let v := (entry lu (i * n + k)).abs
      if pivot.2.raw.slt v.raw then (i, v) else pivot)
    (k, (entry lu (k * n + k)).abs)

def swapRows (lu : List (Fixed w frac)) (n k p : ℕ) : List (Fixed w frac) :=
  (List.range n).foldl (fun lu j ↦ swapAt ⟨0⟩ lu (k * n + j) (p * n + j)) lu

/-- A row loses its multiple of the pivot's row; the division may fail. -/
def eliminateRow (n k : ℕ) (lu : List (Fixed w frac)) (i : ℕ) : Option (List (Fixed w frac)) := do
  let factor ← quotient (entry lu (i * n + k)) (entry lu (k * n + k))
  let lu := lu.set (i * n + k) factor
  return (after k n).foldl
    (fun lu j ↦ lu.set (i * n + j)
      (Fixed.wrappingSub (entry lu (i * n + j)) (times factor (entry lu (k * n + j))))) lu

/-- The step of one column. -/
def luStep (n : ℕ) (state : List (Fixed w frac) × List ℕ) (k : ℕ) :
    Option (List (Fixed w frac) × List ℕ) := do
  let (lu, perm) := state
  let (pivotRow, pivotVal) := luPivot lu n k
  if pivotVal = ⟨0⟩ then
    none
  else
    let (lu, perm) :=
      if pivotRow ≠ k then (swapRows lu n k pivotRow, swapAt 0 perm k pivotRow) else (lu, perm)
    let lu ← (after k n).foldlM (eliminateRow n k) lu
    return (lu, perm)

/-- The steps of the first columns. -/
def luSteps (a : List (Fixed w frac)) (n k : ℕ) : Option (List (Fixed w frac) × List ℕ) :=
  (List.range k).foldlM (luStep n) (a, List.range n)

def luDecompose (a : List (Fixed w frac)) (n : ℕ) :
    Except Failure (Option (List (Fixed w frac) × List ℕ)) := do
  require (a.length = n * n)
  return luSteps a n n

end Definitions

/-! ## Entries of a matrix -/

section View

variable {w frac n : ℕ}

/-- The raw entries of a square matrix. -/
def view (n : ℕ) (lu : List (Fixed w frac)) : ℕ → ℕ → BitVec w := fun i j ↦ (entry lu (i * n + j)).raw

theorem entry_set {lu : List (Fixed w frac)} {p : ℕ} (hp : p < lu.length) (v : Fixed w frac) (q : ℕ) :
    entry (lu.set p v) q = if q = p then v else entry lu q := by
  rw [entry, entry, getD_eq_getElem?_getD, getD_eq_getElem?_getD, getElem?_set]
  by_cases hq : p = q
  · rw [if_pos hq, if_pos hp, if_pos hq.symm, Option.getD_some]
  · rw [if_neg hq, if_neg (Ne.symm hq)]

theorem getD_swapAt {α : Type} (default : α) {xs : List α} {p q : ℕ} (hp : p < xs.length)
    (hq : q < xs.length) (r : ℕ) :
    (swapAt default xs p q).getD r default = xs.getD (Equiv.swap p q r) default := by
  rw [swapAt, getD_eq_getElem?_getD, getElem?_set, getElem?_set, length_set,
    Equiv.swap_apply_def]
  by_cases hqr : q = r
  · subst hqr
    rw [if_pos rfl, if_pos hq, Option.getD_some]
    by_cases hpq : q = p
    · rw [if_pos hpq, hpq]
    · rw [if_neg hpq, if_pos rfl]
  · rw [if_neg hqr]
    by_cases hpr : p = r
    · subst hpr
      rw [if_pos rfl, if_pos hp, if_pos rfl, Option.getD_some]
    · rw [if_neg hpr, if_neg (Ne.symm hpr), if_neg (Ne.symm hqr), getD_eq_getElem?_getD]

theorem length_swapAt {α : Type} (default : α) (xs : List α) (p q : ℕ) :
    (swapAt default xs p q).length = xs.length := by
  rw [swapAt, length_set, length_set]

theorem swapAt_perm {α : Type} (default : α) {xs : List α} {p q : ℕ} (hp : p < xs.length)
    (hq : q < xs.length) : (swapAt default xs p q).Perm xs := by
  rw [swapAt, getD_eq_getElem _ _ hp, getD_eq_getElem _ _ hq]
  exact set_set_perm hp hq

/-- Two rows are exchanged entry by entry. -/
theorem view_swapRows {lu : List (Fixed w frac)} {k p : ℕ} (hlength : lu.length = n * n) (hk : k < n)
    (hp : p < n) : (swapRows lu n k p).length = n * n ∧
      ∀ i < n, ∀ j < n, view n (swapRows lu n k p) i j = view n lu (Equiv.swap k p i) j := by
  have hloop : ∀ count ≤ n, ∃ out, (List.range count).foldl
      (fun lu j ↦ swapAt ⟨0⟩ lu (k * n + j) (p * n + j)) lu = out ∧ out.length = n * n ∧
        ∀ i < n, ∀ j < n, entry out (i * n + j) =
          if j < count then entry lu (Equiv.swap k p i * n + j) else entry lu (i * n + j) := by
    intro count hcount
    induction count with
    | zero => exact ⟨lu, rfl, hlength, fun i _ j _ ↦ (if_neg (Nat.not_lt_zero j)).symm⟩
    | succ count ih =>
      obtain ⟨mid, hmid, hmidLength, hentries⟩ := ih (Nat.le_of_succ_le hcount)
      have hkPlace : k * n + count < mid.length := (place_lt hk hcount).trans_eq hmidLength.symm
      have hpPlace : p * n + count < mid.length := (place_lt hp hcount).trans_eq hmidLength.symm
      refine ⟨swapAt ⟨0⟩ mid (k * n + count) (p * n + count), ?_,
        (length_swapAt _ _ _ _).trans hmidLength, fun i hi j hj ↦ ?_⟩
      · rw [range_succ, foldl_append, hmid, foldl_cons, foldl_nil]
      · have hplace : ∀ r < n, (i * n + j = r * n + count ↔ i = r ∧ j = count) := fun r _ ↦
          ⟨place_inj hj hcount, fun heq ↦ by rw [heq.1, heq.2]⟩
        have hswap : Equiv.swap (k * n + count) (p * n + count) (i * n + j) =
            if j = count then Equiv.swap k p i * n + j else i * n + j := by
          simp only [Equiv.swap_apply_def, hplace k hk, hplace p hp]
          by_cases hlast : j = count
          · simp only [hlast, and_true, if_true]
            split_ifs <;> rfl
          · simp only [hlast, and_false, if_false]
        rw [entry, getD_swapAt _ hkPlace hpPlace, hswap]
        change entry mid _ = _
        by_cases hlast : j = count
        · rw [if_pos hlast, if_pos (by omega), hlast]
          have hinside : Equiv.swap k p i < n := by
            rw [Equiv.swap_apply_def]
            split_ifs
            · exact hp
            · exact hk
            · exact hi
          rw [hentries _ hinside count hcount, if_neg (Nat.lt_irrefl count)]
        · rw [if_neg hlast, hentries i hi j hj]
          exact if_congr (by omega) rfl rfl
  obtain ⟨out, hout, hlengthOut, hentries⟩ := hloop n le_rfl
  rw [swapRows, hout]
  refine ⟨hlengthOut, fun i hi j hj ↦ ?_⟩
  rw [view, view, hentries i hi j hj, if_pos hj]

end View

/-! ## The steps on matrices -/

section Steps

variable {w n k : ℕ} (frac : ℕ)

def rawMul (x y : BitVec w) : BitVec w := (times (⟨x⟩ : Fixed w frac) ⟨y⟩).raw

def rawQuot (x y : BitVec w) : BitVec w := ((quotient (⟨x⟩ : Fixed w frac) ⟨y⟩).getD ⟨0⟩).raw

/-- A dividend is at most as large as the pivot that it is divided by. -/
def Dominated (x y : BitVec w) : Prop :=
  (saturatingAbs x).toInt ≤ (saturatingAbs y).toInt ∧ y ≠ 0

variable {frac}

theorem after_of_le {stop : ℕ} (hstop : stop ≤ k + 1) : after k stop = [] := by
  rw [after, Nat.sub_eq_zero_of_le hstop, range'_zero]

theorem after_succ {stop : ℕ} (hstop : k < stop) : after k (stop + 1) = after k stop ++ [stop] := by
  have hcount : stop + 1 - (k + 1) = stop - (k + 1) + 1 := by omega
  rw [after, after, hcount, range'_1_concat]
  congr 2
  omega

/-- **The pivot** has the largest absolute value of its column from the diagonal on. -/
theorem luPivot_spec (lu : List (Fixed w frac)) (hk : k < n) :
    ∃ p, luPivot lu n k = (p, (entry lu (p * n + k)).abs) ∧ k ≤ p ∧ p < n ∧
      ∀ i, k ≤ i → i < n →
        (entry lu (i * n + k)).abs.raw.toInt ≤ (entry lu (p * n + k)).abs.raw.toInt := by
  have hloop : ∀ stop, k + 1 ≤ stop → ∃ p, (after k stop).foldl
      (fun pivot i ↦
        let v := (entry lu (i * n + k)).abs
        if pivot.2.raw.slt v.raw then (i, v) else pivot)
      (k, (entry lu (k * n + k)).abs) = (p, (entry lu (p * n + k)).abs) ∧ k ≤ p ∧ p < stop ∧
        ∀ i, k ≤ i → i < stop →
          (entry lu (i * n + k)).abs.raw.toInt ≤ (entry lu (p * n + k)).abs.raw.toInt := by
    intro stop hstop
    induction stop, hstop using Nat.le_induction with
    | base =>
      refine ⟨k, by rw [after_of_le le_rfl, foldl_nil], le_rfl, Nat.lt_succ_self k, ?_⟩
      intro i hki hik
      rw [show i = k by omega]
    | succ stop hstop ih =>
      obtain ⟨p, hp, hkp, hpstop, hmax⟩ := ih
      rw [after_succ hstop, foldl_append, hp, foldl_cons, foldl_nil]
      by_cases hlarger : (entry lu (p * n + k)).abs.raw.slt (entry lu (stop * n + k)).abs.raw
      · rw [BitVec.slt_iff_toInt_lt] at hlarger
        refine ⟨stop, if_pos (BitVec.slt_iff_toInt_lt.mpr hlarger), by omega, by omega, ?_⟩
        intro i hki hi
        rcases Nat.lt_succ_iff_lt_or_eq.mp hi with hbefore | rfl
        · exact (hmax i hki hbefore).trans hlarger.le
        · exact le_rfl
      · refine ⟨p, if_neg hlarger, hkp, by omega, ?_⟩
        intro i hki hi
        rcases Nat.lt_succ_iff_lt_or_eq.mp hi with hbefore | rfl
        · exact hmax i hki hbefore
        · rw [BitVec.slt_iff_toInt_lt, not_lt] at hlarger
          exact hlarger
  exact hloop n hk

/-- The multiplier is stored, and the entries after it lose their multiples. -/
theorem view_eliminateRow {lu : List (Fixed w frac)} {i : ℕ} (hlength : lu.length = n * n)
    (hk : k < n) (hi : i < n) (hki : k < i)
    (hfactor : (quotient (entry lu (i * n + k)) (entry lu (k * n + k))).isSome) :
    ∃ out, eliminateRow n k lu i = some out ∧ out.length = n * n ∧
      ∀ r < n, ∀ c < n, view n out r c =
        if r = i then eliminate (rawMul frac) (rawQuot frac) (view n lu) k i c
        else view n lu r c := by
  obtain ⟨factor, hquotient⟩ := Option.isSome_iff_exists.mp hfactor
  have hraw : rawQuot frac (view n lu i k) (view n lu k k) = factor.raw := by
    rw [rawQuot]
    exact congrArg (fun f : Option (Fixed w frac) ↦ (f.getD ⟨0⟩).raw) hquotient
  have hplace : ∀ {r c r' c' : ℕ}, c < n → c' < n → (r * n + c = r' * n + c' ↔ r = r' ∧ c = c') :=
    fun hc hc' ↦ ⟨place_inj hc hc', fun heq ↦ by rw [heq.1, heq.2]⟩
  have hloop : ∀ stop, k + 1 ≤ stop → stop ≤ n → ∃ out, (after k stop).foldl
      (fun lu j ↦ lu.set (i * n + j)
        (Fixed.wrappingSub (entry lu (i * n + j)) (times factor (entry lu (k * n + j)))))
      (lu.set (i * n + k) factor) = out ∧ out.length = n * n ∧
        ∀ r < n, ∀ c < n, view n out r c =
          if r = i ∧ c < stop then eliminate (rawMul frac) (rawQuot frac) (view n lu) k i c
          else view n lu r c := by
    intro stop hstop hle
    induction stop, hstop using Nat.le_induction with
    | base =>
      refine ⟨_, by rw [after_of_le le_rfl, foldl_nil], by rw [length_set, hlength], ?_⟩
      intro r hr c hc
      rw [view, entry_set ((place_lt hi hk).trans_eq hlength.symm)]
      simp only [hplace hc hk]
      by_cases hri : r = i
      · subst hri
        rcases Nat.lt_trichotomy c k with hck | rfl | hkc
        · rw [if_neg (by omega), if_pos ⟨rfl, by omega⟩, eliminate, if_pos (.inr hck)]
          rfl
        · rw [if_pos ⟨rfl, rfl⟩, if_pos ⟨rfl, by omega⟩, eliminate, if_neg (by omega), if_pos rfl,
            hraw]
        · rw [if_neg (by omega), if_neg (by omega)]
          rfl
      · rw [if_neg fun h ↦ hri h.1, if_neg fun h ↦ hri h.1]
        rfl
    | succ stop hstop ih =>
      obtain ⟨mid, hmid, hmidLength, hview⟩ := ih (Nat.le_of_succ_le hle)
      have hstopLt : stop < n := hle
      have hentry : view n mid i stop = view n lu i stop := by
        rw [hview i hi stop hstopLt, if_neg (by omega)]
      have hpivot : view n mid k stop = view n lu k stop := by
        rw [hview k hk stop hstopLt, if_neg (by omega)]
      refine ⟨_, by rw [after_succ hstop, foldl_append, hmid, foldl_cons,
        foldl_nil], by rw [length_set, hmidLength], ?_⟩
      intro r hr c hc
      rw [view, entry_set ((place_lt hi hstopLt).trans_eq hmidLength.symm)]
      simp only [hplace hc hstopLt]
      by_cases hlast : r = i ∧ c = stop
      · obtain ⟨rfl, rfl⟩ := hlast
        rw [if_pos ⟨rfl, rfl⟩, if_pos ⟨rfl, Nat.lt_succ_self c⟩, eliminate, if_neg (by omega),
          if_neg (by omega), hraw]
        change view n mid r c - rawMul frac factor.raw (view n mid k c) = _
        rw [hentry, hpivot]
      · rw [if_neg hlast]
        refine (hview r hr c hc).trans (if_congr ?_ rfl rfl)
        omega
  obtain ⟨out, hout, hlengthOut, hview⟩ := hloop n hk le_rfl
  refine ⟨out, ?_, hlengthOut, fun r hr c hc ↦ ?_⟩
  · rw [eliminateRow, hquotient]
    exact congrArg some hout
  · rw [hview r hr c hc]
    exact if_congr (and_iff_left hc) rfl rfl

/-- All rows below the pivot lose their multiples. -/
theorem view_eliminateRows {lu : List (Fixed w frac)} (hlength : lu.length = n * n) (hk : k < n)
    (hfactor : ∀ i < n, k < i →
      (quotient (entry lu (i * n + k)) (entry lu (k * n + k))).isSome) :
    ∃ out, (after k n).foldlM (eliminateRow n k) lu = some out ∧ out.length = n * n ∧
      ∀ r < n, ∀ c < n, view n out r c =
        eliminate (rawMul frac) (rawQuot frac) (view n lu) k r c := by
  have hloop : ∀ stop, k + 1 ≤ stop → stop ≤ n → ∃ out,
      (after k stop).foldlM (eliminateRow n k) lu = some out ∧ out.length = n * n ∧
        ∀ r < n, ∀ c < n, view n out r c =
          if r < stop then eliminate (rawMul frac) (rawQuot frac) (view n lu) k r c
          else view n lu r c := by
    intro stop hstop hle
    induction stop, hstop using Nat.le_induction with
    | base =>
      refine ⟨lu, by rw [after_of_le le_rfl]; rfl, hlength, fun r _ c _ ↦ ?_⟩
      split
      case isTrue hr => rw [eliminate, if_pos (.inl (Nat.lt_succ_iff.mp hr))]
      case isFalse => rfl
    | succ stop hstop ih =>
      obtain ⟨mid, hmid, hmidLength, hview⟩ := ih (Nat.le_of_succ_le hle)
      have hstopLt : stop < n := hle
      have hrow : ∀ c < n, view n mid stop c = view n lu stop c := fun c hc ↦ by
        rw [hview stop hstopLt c hc, if_neg (Nat.lt_irrefl stop)]
      have hpivot : ∀ c < n, view n mid k c = view n lu k c := fun c hc ↦ by
        rw [hview k hk c hc, if_pos (Nat.lt_of_succ_le hstop), eliminate, if_pos (.inl le_rfl)]
      have hsome : (quotient (entry mid (stop * n + k)) (entry mid (k * n + k))).isSome := by
        have hnum : entry mid (stop * n + k) = entry lu (stop * n + k) :=
          congrArg Fixed.mk (hrow k hk)
        have hden : entry mid (k * n + k) = entry lu (k * n + k) :=
          congrArg Fixed.mk (hpivot k hk)
        rw [hnum, hden]
        exact hfactor stop hstopLt hstop
      obtain ⟨out, hout, hlengthOut, hviewOut⟩ :=
        view_eliminateRow hmidLength hk hstopLt hstop hsome
      refine ⟨out, ?_, hlengthOut, fun r hr c hc ↦ ?_⟩
      · rw [after_succ hstop, foldlM_append, hmid]
        exact (foldlM_cons ..).trans (congrArg (· >>= _) hout)
      · rw [hviewOut r hr c hc]
        by_cases hlast : r = stop
        · subst hlast
          rw [if_pos rfl, if_pos (Nat.lt_succ_self r)]
          simp only [eliminate, hrow c hc, hrow k hk, hpivot c hc, hpivot k hk]
        · rw [if_neg hlast, hview r hr c hc]
          exact if_congr (by omega) rfl rfl
  obtain ⟨out, hout, hlengthOut, hview⟩ := hloop n hk le_rfl
  refine ⟨out, hout, hlengthOut, fun r hr c hc ↦ ?_⟩
  rw [hview r hr c hc, if_pos hr]

end Steps

/-! ## Multipliers -/

section Multipliers

variable {w frac : ℕ}

/-- A multiplier is a truncated quotient of magnitude at most one, even if the dividend is the most
negative number. -/
theorem rawQuot_of_dominated (hw : 3 ≤ w) (hfrac : frac < w - 1) {x y : BitVec w}
    (hxy : Dominated x y) : (quotient (⟨x⟩ : Fixed w frac) ⟨y⟩).isSome ∧
      (rawQuot frac x y).toInt = (x.toInt * 2 ^ frac).tdiv y.toInt ∧
        |(rawQuot frac x y).toInt| ≤ 2 ^ frac := by
  have : NeZero w := ⟨by omega⟩
  obtain ⟨hle, hy⟩ := hxy
  have hden : y.toInt ≠ 0 := mt (raw_eq_zero_iff y).mpr hy
  have hunit : (2 : ℤ) ^ frac * 2 ≤ 2 ^ (w - 1) := by
    rw [← pow_succ]
    exact pow_le_pow_right₀ (by norm_num) hfrac
  have hwide : (2 : ℤ) ^ 2 ≤ 2 ^ (w - 1) := pow_le_pow_right₀ (by norm_num) (by omega)
  have hpos : (1 : ℤ) ≤ 2 ^ frac := one_le_pow₀ (by norm_num)
  have hbound : |x.toInt * 2 ^ frac| < (2 ^ frac + 1) * |y.toInt| := by
    rw [toInt_saturatingAbs, toInt_saturatingAbs] at hle
    have hx := abs_toInt_le x
    have hone : 1 ≤ |y.toInt| := Int.one_le_abs hden
    rw [abs_mul, abs_of_pos (show (0 : ℤ) < 2 ^ frac by positivity)]
    rcases le_or_gt |x.toInt| |y.toInt| with hsmall | hlarge
    · nlinarith
    · have hx' : |x.toInt| = 2 ^ (w - 1) := by omega
      have hy' : |y.toInt| = 2 ^ (w - 1) - 1 := by omega
      rw [hx', hy']
      nlinarith
  have hquotient : |(x.toInt * 2 ^ frac).tdiv y.toInt| ≤ 2 ^ frac := abs_tdiv_le hden hbound
  have hrange : InRange w ((x.toInt * 2 ^ frac).tdiv y.toInt) := inRange_iff_abs (by linarith)
  have hrun := quotient_eq (show frac < w by omega) (⟨x⟩ : Fixed w frac) (b := ⟨y⟩) hy
  rw [if_pos hrange] at hrun
  have hraw : rawQuot frac x y = BitVec.ofInt w ((x.toInt * 2 ^ frac).tdiv y.toInt) := by
    rw [rawQuot, hrun]
    rfl
  have hvalue : (rawQuot frac x y).toInt = (x.toInt * 2 ^ frac).tdiv y.toInt := by
    rw [hraw, toInt_ofInt_eq_self hrange]
  exact ⟨by rw [hrun]; rfl, hvalue, by rwa [hvalue]⟩

/-- What the truncation of a multiplier and of its product leave of the dividend. -/
theorem abs_sub_truncated_le (a : ℤ) {u : ℤ} (hu : u ≠ 0) (frac : ℕ) :
    |a - ((a * 2 ^ frac).tdiv u * u).tdiv (2 ^ frac)| * 2 ^ frac ≤ |u| + 2 ^ frac := by
  have hunit : (2 : ℤ) ^ frac ≠ 0 := by positivity
  have hpos : (0 : ℤ) < 2 ^ frac := by positivity
  have hquotient := abs_remainder_lt hu (rfl : a * 2 ^ frac - (a * 2 ^ frac).tdiv u * u = _)
  have hproduct := abs_remainder_lt hunit
    (rfl : (a * 2 ^ frac).tdiv u * u - ((a * 2 ^ frac).tdiv u * u).tdiv (2 ^ frac) * 2 ^ frac = _)
  rw [abs_of_pos hpos] at hproduct
  calc
    |a - ((a * 2 ^ frac).tdiv u * u).tdiv (2 ^ frac)| * 2 ^ frac
        = |(a * 2 ^ frac - (a * 2 ^ frac).tdiv u * u) + ((a * 2 ^ frac).tdiv u * u -
            ((a * 2 ^ frac).tdiv u * u).tdiv (2 ^ frac) * 2 ^ frac)| := by
          rw [← abs_of_pos hpos, ← abs_mul, abs_of_pos hpos]
          congr 1
          ring
    _ ≤ _ := abs_add_le _ _
    _ ≤ |u| + 2 ^ frac := by linarith

theorem times_one_left (hfrac : frac < w - 1) (u : Fixed w frac) : (times Fixed.one u).raw = u.raw := by
  have : NeZero w := ⟨by omega⟩
  have hunit : (2 : ℤ) ^ frac ≠ 0 := by positivity
  rw [raw_times_eq (by omega), toInt_one hfrac, Int.mul_tdiv_cancel_left _ hunit, BitVec.ofInt_toInt]

end Multipliers

/-! ## The factors -/

section Factors

variable {w frac : ℕ}

/-- What the first columns leave behind. -/
structure LuState (a : List (Fixed w frac)) (n k : ℕ) (state : List (Fixed w frac) × List ℕ) :
    Prop where
  length : state.1.length = n * n
  perm : state.2.Perm (List.range n)
  eliminated : Eliminated (rawMul frac) (rawQuot frac) Dominated
    (reorder (view n a) fun i ↦ state.2.getD i 0) (view n state.1) n k

variable {a : List (Fixed w frac)} {n k : ℕ} {state : List (Fixed w frac) × List ℕ}

theorem LuState.start (ha : a.length = n * n) : LuState a n 0 (a, List.range n) where
  length := ha
  perm := List.Perm.refl _
  eliminated := by
    refine (Eliminated.start _ n).congr fun i hi j _ ↦ ?_
    rw [reorder]
    change _ = view n a ((List.range n).getD i 0) j
    rw [getD_eq_getElem _ _ (by rwa [length_range]), getElem_range]

/-- The pivot's row is exchanged with the next row. -/
theorem LuState.swap (hstate : LuState a n k state) {p : ℕ} (hk : k < n) (hkp : k ≤ p) (hp : p < n) :
    LuState a n k (swapRows state.1 n k p, swapAt 0 state.2 k p) := by
  have hlength : state.2.length = n := hstate.perm.length_eq.trans length_range
  obtain ⟨hlengthRows, hview⟩ := view_swapRows hstate.length hk hp
  have hpermK : k < state.2.length := hk.trans_eq hlength.symm
  have hpermP : p < state.2.length := hp.trans_eq hlength.symm
  have hrows : (reorder (view n a) fun i ↦ (swapAt 0 state.2 k p).getD i 0) =
      reorder (reorder (view n a) fun i ↦ state.2.getD i 0) (Equiv.swap k p) := by
    funext i j
    rw [reorder, getD_swapAt 0 hpermK hpermP]
    rfl
  refine ⟨hlengthRows, (swapAt_perm 0 hpermK hpermP).trans hstate.perm, ?_⟩
  rw [hrows]
  exact (hstate.eliminated.swap hk hkp hp).congr hview

/-- **A step** finds a column of zeros, or eliminates it. -/
theorem luStep_cases (hw : 3 ≤ w) (hfrac : frac < w - 1) (hstate : LuState a n k state) (hk : k < n) :
    (luStep n state k = none ∧ ∀ i, k ≤ i → i < n → entry state.1 (i * n + k) = ⟨0⟩) ∨
      ∃ next, luStep n state k = some next ∧ LuState a n (k + 1) next := by
  obtain ⟨p, hpivot, hkp, hp, hmax⟩ := luPivot_spec state.1 hk
  by_cases hzero : (entry state.1 (p * n + k)).abs = ⟨0⟩
  · refine .inl ⟨?_, fun i hki hi ↦ ?_⟩
    · rw [luStep]
      simp only [hpivot, if_pos hzero]
    · have : NeZero w := ⟨by omega⟩
      have hle := hmax i hki hi
      have hnone : (entry state.1 (i * n + k)).abs.raw.toInt = 0 := by
        have hnonneg : 0 ≤ (entry state.1 (i * n + k)).abs.raw.toInt := by
          have htwo : (2 : ℤ) ^ 1 ≤ 2 ^ (w - 1) := pow_le_pow_right₀ (by norm_num) (by omega)
          rw [Fixed.abs, toInt_saturatingAbs]
          exact le_min (abs_nonneg _) (by linarith)
        rw [hzero, BitVec.ofNat_eq_ofNat, BitVec.toInt_zero] at hle
        exact le_antisymm hle hnonneg
      exact congrArg Fixed.mk ((saturatingAbs_eq_zero_iff (by omega) _).mp
        ((raw_eq_zero_iff _).mpr hnone))
  · right
    obtain ⟨swapped, hswap, hstate', hmax', hpivot'⟩ : ∃ swapped : List (Fixed w frac) × List ℕ,
        (if p ≠ k then (swapRows state.1 n k p, swapAt 0 state.2 k p) else (state.1, state.2)) =
          swapped ∧ LuState a n k swapped ∧
        (∀ i, k < i → i < n → (saturatingAbs (view n swapped.1 i k)).toInt ≤
          (saturatingAbs (view n swapped.1 k k)).toInt) ∧
        view n swapped.1 k k = view n state.1 p k := by
      by_cases hpk : p = k
      · subst hpk
        exact ⟨state, by rw [if_neg (not_not.mpr rfl)], hstate, fun i hki hi ↦ hmax i hki.le hi, rfl⟩
      · obtain ⟨-, hview⟩ := view_swapRows hstate.length hk hp
        have hdiag : view n (swapRows state.1 n k p) k k = view n state.1 p k := by
          rw [hview k hk k hk, Equiv.swap_apply_left]
        refine ⟨_, if_pos hpk, hstate.swap hk hkp hp, fun i hki hi ↦ ?_, hdiag⟩
        change _ ≤ (saturatingAbs (view n (swapRows state.1 n k p) k k)).toInt
        rw [hdiag]
        change (saturatingAbs (view n (swapRows state.1 n k p) i k)).toInt ≤ _
        rw [hview i hi k hk]
        refine hmax (Equiv.swap k p i) ?_ ?_
        · rw [Equiv.swap_apply_def]
          split_ifs <;> omega
        · rw [Equiv.swap_apply_def]
          split_ifs <;> omega
    have hdominated : ∀ i < n, k < i → Dominated (view n swapped.1 i k) (view n swapped.1 k k) := by
      intro i hi hki
      refine ⟨hmax' i hki hi, ?_⟩
      rw [hpivot']
      exact fun hnone ↦ hzero (congrArg Fixed.mk ((saturatingAbs_eq_zero_iff (by omega) _).mpr hnone))
    obtain ⟨out, hout, hlength, hview⟩ := view_eliminateRows hstate'.length hk
      fun i hi hki ↦ (rawQuot_of_dominated hw hfrac (hdominated i hi hki)).1
    refine ⟨(out, swapped.2), ?_, hlength, hstate'.perm,
      (hstate'.eliminated.step hk hdominated).congr hview⟩
    rw [luStep]
    simp only [hpivot, if_neg hzero, hswap, hout]
    rfl

theorem luSteps_succ (a : List (Fixed w frac)) (n k : ℕ) :
    luSteps a n (k + 1) = luSteps a n k >>= fun state ↦ luStep n state k := by
  rw [luSteps, range_succ, foldlM_append]
  refine bind_congr fun state ↦ ?_
  rw [foldlM_cons]
  cases luStep n state k with
  | none => rfl
  | some next => rfl

/-- **A run** keeps the invariant, or has found a column of zeros. -/
theorem luSteps_cases (hw : 3 ≤ w) (hfrac : frac < w - 1) (ha : a.length = n * n) (hk : k ≤ n) :
    (∃ state, luSteps a n k = some state ∧ LuState a n k state) ∨
      luSteps a n k = none ∧ ∃ l < k, ∃ state, luSteps a n l = some state ∧
        ∀ i, l ≤ i → i < n → entry state.1 (i * n + l) = ⟨0⟩ := by
  induction k with
  | zero => exact .inl ⟨_, rfl, LuState.start ha⟩
  | succ k ih =>
    have hnext := luSteps_succ a n k
    rcases ih (Nat.le_of_succ_le hk) with ⟨state, hrun, hstate⟩ | ⟨hrun, l, hl, hzeros⟩
    · rw [hnext, hrun]
      rcases luStep_cases hw hfrac hstate hk with ⟨hnone, hzeros⟩ | ⟨next, hstep, hnextState⟩
      · exact .inr ⟨hnone, k, Nat.lt_succ_self k, state, hrun, hzeros⟩
      · exact .inl ⟨next, hstep, hnextState⟩
    · rw [hnext, hrun]
      exact .inr ⟨rfl, l, hl.trans (Nat.lt_succ_self k), hzeros⟩

/-- An entry of the lower factor, whose diagonal of ones is not stored. -/
def lowerAt (lu : List (Fixed w frac)) (n i l : ℕ) : Fixed w frac :=
  if l < i then entry lu (i * n + l) else if l = i then Fixed.one else ⟨0⟩

/-- An entry of the upper factor. -/
def upperAt (lu : List (Fixed w frac)) (n l j : ℕ) : Fixed w frac :=
  if l ≤ j then entry lu (l * n + j) else ⟨0⟩

/-- An entry of the product of the factors, as a wrapped sum of products. -/
def luProduct (lu : List (Fixed w frac)) (n i j : ℕ) : BitVec w :=
  ∑ l ∈ Finset.range n, (times (lowerAt lu n i l) (upperAt lu n l j)).raw

theorem times_zero_left [NeZero w] (hfrac : frac < w) (b : Fixed w frac) : (times ⟨0⟩ b).raw = 0 := by
  rw [times_comm, times_zero hfrac]

/-- The product ends where one of the factors does. -/
theorem luProduct_eq [NeZero w] (hfrac : frac < w) (lu : List (Fixed w frac)) {i j t : ℕ} (hi : i < n)
    (hj : j < n) (ht : t = min i j) :
    luProduct lu n i j = partialProduct (rawMul frac) (view n lu) i j t +
      (times (lowerAt lu n i t) (upperAt lu n t j)).raw := by
  have hsub : Finset.range (t + 1) ⊆ Finset.range n := Finset.range_mono (by omega)
  rw [luProduct, ← Finset.sum_subset hsub, Finset.sum_range_succ]
  · congr 1
    refine Finset.sum_congr rfl fun l hl ↦ ?_
    rw [Finset.mem_range] at hl
    rw [lowerAt, if_pos (by omega), upperAt, if_pos (by omega)]
    rfl
  · intro l _ hl
    rw [Finset.mem_range, not_lt] at hl
    rcases Nat.lt_or_ge j l with hjl | hlj
    · rw [upperAt, if_neg (by omega), times_zero hfrac]
    · rw [lowerAt, if_neg (by omega), if_neg (by omega), times_zero_left hfrac]

/-- The factors of a matrix with its rows in another order. -/
structure FactorsOf (a lu : List (Fixed w frac)) (perm : List ℕ) (n : ℕ) : Prop where
  order : perm.Perm (List.range n)
  multiplier : ∀ i < n, ∀ j < i, |(entry lu (i * n + j)).raw.toInt| ≤ 2 ^ frac
  upper : ∀ i < n, ∀ j < n, i ≤ j → (entry a (perm.getD i 0 * n + j)).raw = luProduct lu n i j
  lower : ∀ i < n, ∀ j < i, ∃ d : ℤ,
    (|d| : ℚ) ≤ |(entry lu (j * n + j)).raw.toInt| / 2 ^ frac + 1 ∧
      (entry a (perm.getD i 0 * n + j)).raw = luProduct lu n i j + BitVec.ofInt w d

theorem LuState.factors (hw : 3 ≤ w) (hfrac : frac < w - 1) (hstate : LuState a n n state) :
    FactorsOf a state.1 state.2 n := by
  have : NeZero w := ⟨by omega⟩
  have hlower : ∀ i < n, ∀ j < i, view n state.1 i j = rawQuot frac
      (view n a (state.2.getD i 0) j - partialProduct (rawMul frac) (view n state.1) i j j)
      (view n state.1 j j) ∧
      Dominated (view n a (state.2.getD i 0) j - partialProduct (rawMul frac) (view n state.1) i j j)
        (view n state.1 j j) := fun i hi j hj ↦
    hstate.eliminated.lower i hi j (hj.trans_eq (min_eq_left hi.le).symm)
  refine ⟨hstate.perm, fun i hi j hj ↦ ?_, fun i hi j hj hle ↦ ?_, fun i hi j hj ↦ ?_⟩
  · obtain ⟨hentry, hdominated⟩ := hlower i hi j hj
    have hsmall := (rawQuot_of_dominated hw hfrac hdominated).2.2
    rw [← hentry] at hsmall
    exact hsmall
  · have hentry := hstate.eliminated.upper i hi j hj (by omega)
    rw [min_eq_left hi.le] at hentry
    rw [luProduct_eq (by omega) state.1 hi hj (min_eq_left hle).symm, lowerAt, if_neg (lt_irrefl i),
      if_pos rfl, times_one_left hfrac, upperAt, if_pos hle]
    exact hentry.trans (add_comm _ _)
  · obtain ⟨hentry, hdominated⟩ := hlower i hi j hj
    obtain ⟨-, hvalue, -⟩ := rawQuot_of_dominated hw hfrac hdominated
    have hden : (view n state.1 j j).toInt ≠ 0 := mt (raw_eq_zero_iff _).mpr hdominated.2
    generalize hx : view n a (state.2.getD i 0) j -
      partialProduct (rawMul frac) (view n state.1) i j j = x at hentry hvalue hdominated
    rw [← hentry] at hvalue
    have hsum : view n a (state.2.getD i 0) j =
        partialProduct (rawMul frac) (view n state.1) i j j + x := by
      rw [← hx, add_sub_cancel]
    have hproduct : (times (lowerAt state.1 n i j) (upperAt state.1 n j j)).raw =
        BitVec.ofInt w (((x.toInt * 2 ^ frac).tdiv (view n state.1 j j).toInt *
          (view n state.1 j j).toInt).tdiv (2 ^ frac)) := by
      rw [lowerAt, if_pos hj, upperAt, if_pos le_rfl, raw_times_eq (by omega), ← hvalue]
      rfl
    have hbound := abs_sub_truncated_le x.toInt hden frac
    refine ⟨x.toInt - ((x.toInt * 2 ^ frac).tdiv (view n state.1 j j).toInt *
      (view n state.1 j j).toInt).tdiv (2 ^ frac), ?_, ?_⟩
    · have hpos : (0 : ℚ) < 2 ^ frac := by positivity
      rw [← sub_le_iff_le_add, le_div_iff₀ hpos, sub_mul, one_mul, sub_le_iff_le_add]
      exact_mod_cast hbound
    · rw [luProduct_eq (by omega) state.1 hi (hj.trans hi) (min_eq_right hj.le).symm, hproduct,
        sub_eq_add_neg, BitVec.ofInt_add, BitVec.ofInt_neg, BitVec.ofInt_toInt]
      refine hsum.trans ?_
      abel

/-- **The factorisation** returns the factors of the matrix with its rows in another order, or some
column has only zeros from the diagonal on. -/
theorem luDecompose_factors (hw : 3 ≤ w) (hfrac : frac < w - 1) (ha : a.length = n * n) :
    (∃ lu perm, luDecompose a n = .ok (some (lu, perm)) ∧ FactorsOf a lu perm n) ∨
      luDecompose a n = .ok none ∧ ∃ k < n, ∃ lu perm, luSteps a n k = some (lu, perm) ∧
        ∀ i, k ≤ i → i < n → entry lu (i * n + k) = ⟨0⟩ := by
  rw [luDecompose, require_bind ha]
  rcases luSteps_cases hw hfrac ha le_rfl with ⟨state, hrun, hstate⟩ | ⟨hrun, k, hk, state, hzeros⟩
  · exact .inl ⟨state.1, state.2, congrArg Except.ok hrun, hstate.factors hw hfrac⟩
  · exact .inr ⟨congrArg Except.ok hrun, k, hk, state.1, state.2, hzeros⟩

theorem luDecompose_factors_both_widths :
    ((∃ lu perm, luDecompose [(⟨1⟩ : Fixed 32 30), ⟨2⟩, ⟨2147483648⟩, ⟨5⟩] 2 = .ok (some (lu, perm)) ∧
        FactorsOf [⟨1⟩, ⟨2⟩, ⟨2147483648⟩, ⟨5⟩] lu perm 2) ∨
      luDecompose [(⟨1⟩ : Fixed 32 30), ⟨2⟩, ⟨2147483648⟩, ⟨5⟩] 2 = .ok none ∧ ∃ k < 2, ∃ lu perm,
        luSteps [(⟨1⟩ : Fixed 32 30), ⟨2⟩, ⟨2147483648⟩, ⟨5⟩] 2 k = some (lu, perm) ∧
          ∀ i, k ≤ i → i < 2 → entry lu (i * 2 + k) = ⟨0⟩) ∧
    ((∃ lu perm, luDecompose [(⟨0⟩ : Fixed 64 2), ⟨2⟩, ⟨0⟩, ⟨5⟩] 2 = .ok (some (lu, perm)) ∧
        FactorsOf [⟨0⟩, ⟨2⟩, ⟨0⟩, ⟨5⟩] lu perm 2) ∨
      luDecompose [(⟨0⟩ : Fixed 64 2), ⟨2⟩, ⟨0⟩, ⟨5⟩] 2 = .ok none ∧ ∃ k < 2, ∃ lu perm,
        luSteps [(⟨0⟩ : Fixed 64 2), ⟨2⟩, ⟨0⟩, ⟨5⟩] 2 k = some (lu, perm) ∧
          ∀ i, k ≤ i → i < 2 → entry lu (i * 2 + k) = ⟨0⟩) :=
  ⟨luDecompose_factors (by decide) (by decide) rfl, luDecompose_factors (by decide) (by decide) rfl⟩

/-- The rows change places, and the multiplier and its product are truncated. -/
example : luDecompose [(⟨1⟩ : Fixed 32 2), ⟨2⟩, ⟨3⟩, ⟨5⟩] 2 =
    .ok (some ([⟨3⟩, ⟨5⟩, ⟨1⟩, ⟨1⟩], [1, 0])) := by
  decide +kernel

end Factors

end SoulSystem.Scirust
