import SoulSystem.Library.Grid
import SoulSystem.Scirust.Transformer.Linear

/-!
# Matrix products of both widths

The reducible numbers are those of 32 and of 64 bits.  The scalar product of the first goes
through vector lanes, the one of the second through one wide accumulator, and both are the wrapped
sum of the rounded products.  A matrix product transposes its right factor and takes scalar
products of rows.

Every access to a slice is checked here, so a product that succeeds has read nothing out of range.
-/

namespace SoulSystem.Scirust

open Library RowMajor Outcome List

/-! ## Reducible numbers -/

/-- The widths of `FixedReducible`, with their scalar products. -/
class FixedReducible (w : ℕ) where
  reduceDot : ∀ {frac : ℕ}, List (Fixed w frac) → List (Fixed w frac) → Fixed w frac

namespace FixedReducible

variable {w frac : ℕ}

/-- `wrapping_mul`, with an accumulator of twice the width. -/
def times (a b : Fixed w frac) : Fixed w frac :=
  Fixed.wrappingMul (m := Id) (BitVec (2 * w)) a b

instance : FixedReducible 32 where
  reduceDot := Scirust.reduceDot

/-- The scalar product of 64-bit numbers, summed in 128 bits. -/
def reduceDot64 (a b : List (Fixed 64 frac)) : Fixed 64 frac :=
  let total := (a.zip b).foldl
    (fun total pair ↦ total + (times pair.1 pair.2).raw.signExtend 128) (0 : BitVec 128)
  ⟨total.setWidth 64⟩

instance : FixedReducible 64 where
  reduceDot := reduceDot64

/-! ## Products -/

def transpose (a : List (Fixed w frac)) (rows cols : ℕ) : Except Failure (List (Fixed w frac)) := do
  require (a.length = rows * cols)
  tabM cols fun j ↦ (List.range rows).mapM fun i ↦ readAt Failure.panic a (i * cols + j)

section Products

variable [FixedReducible w]

def dot (a b : List (Fixed w frac)) : Except Failure (Fixed w frac) := do
  require (a.length = b.length)
  return reduceDot a b

def matmulBt (a bt : List (Fixed w frac)) (m k n : ℕ) : Except Failure (List (Fixed w frac)) := do
  require (a.length = m * k)
  require (bt.length = n * k)
  tabM m fun i ↦ do
    let aRow ← sliceAt Failure.panic a (i * k) k
    (List.range n).mapM fun j ↦ do
      let btRow ← sliceAt Failure.panic bt (j * k) k
      dot aRow btRow

def matmul (a b : List (Fixed w frac)) (m k n : ℕ) : Except Failure (List (Fixed w frac)) := do
  require (a.length = m * k)
  require (b.length = k * n)
  let bt ← transpose b k n
  matmulBt a bt m k n

end Products

/-! ## The scalar product is a wrapped sum -/

/-- A scalar product is the wrapped sum of the rounded products. -/
class LawfulReducible (w : ℕ) [FixedReducible w] : Prop where
  reduceDot_eq : ∀ {frac : ℕ}, frac < w → ∀ pairs : List (Fixed w frac × Fixed w frac),
    reduceDot (pairs.map Prod.fst) (pairs.map Prod.snd) =
      ⟨(pairs.map fun pair ↦ (times pair.1 pair.2).raw).sum⟩

instance : LawfulReducible 32 where
  reduceDot_eq hfrac pairs := Scirust.reduceDot_eq hfrac pairs

/-- Truncation undoes the extension of every summand. -/
theorem setWidth_foldl_signExtend (addends : List (BitVec 64)) (start : BitVec 128) :
    (addends.foldl (fun total x ↦ total + x.signExtend 128) start).setWidth 64 =
      start.setWidth 64 + addends.sum := by
  induction addends generalizing start with
  | nil => rw [foldl_nil, sum_nil, BitVec.ofNat_eq_ofNat, BitVec.add_zero]
  | cons x addends ih =>
    have hx : (x.signExtend 128).setWidth 64 = x := by
      apply BitVec.eq_of_getLsbD_eq
      intro bit hbit
      have hwide : bit < 128 := by omega
      rw [BitVec.getLsbD_setWidth, BitVec.getLsbD_signExtend]
      simp only [hbit, hwide, decide_true, Bool.true_and, if_true]
    rw [foldl_cons, ih, BitVec.setWidth_add _ _ (by omega), hx, sum_cons, add_assoc]

instance : LawfulReducible 64 where
  reduceDot_eq _ pairs := by
    have hzip : (pairs.map Prod.fst).zip (pairs.map Prod.snd) = pairs :=
      (zip_of_prod rfl rfl).symm
    have hfold := setWidth_foldl_signExtend (pairs.map fun pair ↦ (times pair.1 pair.2).raw) 0
    rw [foldl_map] at hfold
    refine congrArg Fixed.mk ?_
    rw [hzip]
    refine hfold.trans ?_
    rw [BitVec.ofNat_eq_ofNat, BitVec.setWidth_zero, BitVec.zero_add]

/-! ## Products by their entries -/

/-- An entry of a buffer; nothing is read past its end. -/
def entry (buf : List (Fixed w frac)) (place : ℕ) : Fixed w frac := buf.getD place ⟨0⟩

theorem sum_map_range {M : Type} [AddCommMonoid M] (k : ℕ) (f : ℕ → M) :
    ((List.range k).map f).sum = ∑ l ∈ Finset.range k, f l := by
  induction k with
  | zero => rfl
  | succ k ih =>
    rw [range_succ, map_append, sum_append, ih, Finset.sum_range_succ,
      map_singleton, sum_singleton]

theorem slice_eq_map {buf : List (Fixed w frac)} {off len : ℕ} (hinside : off + len ≤ buf.length) :
    slice buf off len = (List.range len).map fun l ↦ entry buf (off + l) := by
  refine ext_getElem ?_ fun l hl hl' ↦ ?_
  · rw [length_slice hinside, length_map, length_range]
  · rw [length_map, length_range] at hl'
    have hplace : off + l < buf.length := by omega
    simp only [slice, getElem_take, getElem_drop, getElem_map, getElem_range,
      entry, getD_eq_getElem _ _ hplace]

variable {m k n : ℕ}

theorem transpose_eq {b : List (Fixed w frac)} (hb : b.length = k * n) :
    transpose b k n = .ok (grid n k fun j i ↦ entry b (i * n + j)) := by
  rw [transpose, require_bind hb]
  refine tabM_eq_tab fun j hj ↦ mapM_eq_map fun i hi ↦ readAt_of_lt ?_ _
  rw [hb]
  exact place_lt (List.mem_range.mp hi) hj

variable [FixedReducible w] [LawfulReducible w]

theorem dot_slices (hfrac : frac < w) {a b : List (Fixed w frac)} {p q : ℕ}
    (ha : p + k ≤ a.length) (hb : q + k ≤ b.length) :
    dot (slice a p k) (slice b q k) =
      .ok ⟨∑ l ∈ Finset.range k, (times (entry a (p + l)) (entry b (q + l))).raw⟩ := by
  let pairs := (List.range k).map fun l ↦ (entry a (p + l), entry b (q + l))
  have hfst : pairs.map Prod.fst = slice a p k := by
    rw [slice_eq_map ha, map_map]
    rfl
  have hsnd : pairs.map Prod.snd = slice b q k := by
    rw [slice_eq_map hb, map_map]
    rfl
  have hdot := LawfulReducible.reduceDot_eq hfrac pairs
  rw [hfst, hsnd, map_map, sum_map_range] at hdot
  rw [dot, require_bind ((length_slice ha).trans (length_slice hb).symm), hdot]
  rfl

theorem matmulBt_eq (hfrac : frac < w) {a bt : List (Fixed w frac)} (ha : a.length = m * k)
    (hbt : bt.length = n * k) : matmulBt a bt m k n = .ok (grid m n fun i j ↦
      ⟨∑ l ∈ Finset.range k, (times (entry a (i * k + l)) (entry bt (j * k + l))).raw⟩) := by
  have hrow : ∀ {r p : ℕ}, r < p → r * k + k ≤ p * k := fun hr ↦ by
    rw [← Nat.succ_mul]
    exact Nat.mul_le_mul_right k hr
  rw [matmulBt, require_bind ha, require_bind hbt]
  refine tabM_eq_tab fun i hi ↦ ?_
  have hi' : i * k + k ≤ a.length := (hrow hi).trans_eq ha.symm
  rw [sliceAt, if_pos hi', ok_bind]
  refine mapM_eq_map fun j hj ↦ ?_
  have hj' : j * k + k ≤ bt.length := (hrow (List.mem_range.mp hj)).trans_eq hbt.symm
  rw [sliceAt, if_pos hj', ok_bind]
  exact dot_slices hfrac hi' hj'

/-- **Matrix products** by their entries. -/
theorem matmul_eq (hfrac : frac < w) {a b : List (Fixed w frac)} (ha : a.length = m * k)
    (hb : b.length = k * n) : matmul a b m k n = .ok (grid m n fun i j ↦
      ⟨∑ l ∈ Finset.range k, (times (entry a (i * k + l)) (entry b (l * n + j))).raw⟩) := by
  rw [matmul, require_bind ha, require_bind hb, transpose_eq hb, ok_bind,
    matmulBt_eq hfrac ha (length_grid n k _)]
  refine congrArg Except.ok (grid_congr fun i _ j hj ↦ congrArg Fixed.mk ?_)
  refine Finset.sum_congr rfl fun l hl ↦ ?_
  have hentry : entry (grid n k fun j i ↦ entry b (i * n + j)) (j * k + l) = entry b (l * n + j) := by
    rw [entry, getD_eq_getElem?_getD, getElem?_grid hj (Finset.mem_range.mp hl), Option.getD_some]
  rw [hentry]

end FixedReducible

end SoulSystem.Scirust
