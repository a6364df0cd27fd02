import SoulSystem.Library.Loop

/-!
# The vector store

Vectors of a fixed dimension, in the order of their insertion.  The cosine of a query and a record
is computed from three sums, which one unrolled loop and a loop for the rest accumulate together.

The unrolled loop advances by four coordinates and reads the first two of them.
-/

namespace SoulSystem.Storage

open Library

/-! ## The store -/

def maxVectors : ℕ := 65536

def vectorDim : ℕ := 1024

/-- `[f32; VECTOR_DIM]`, with the numbers left open. -/
abbrev Embedding (R : Type*) := Fin vectorDim → R

structure VectorRecord (R : Type*) where
  id : UInt64
  data : Embedding R

/-- The records below the counter. -/
structure VectorStore (R : Type*) where
  records : List (VectorRecord R)
  length_le : records.length ≤ maxVectors

namespace VectorStore

variable {R : Type*}

def new : VectorStore R := ⟨[], Nat.zero_le maxVectors⟩

def count (store : VectorStore R) : ℕ := store.records.length

def insert (store : VectorStore R) (id : UInt64) (vector : Embedding R) : VectorStore R × Bool :=
  if hfree : store.count < maxVectors then
    (⟨store.records ++ [⟨id, vector⟩], by
      rw [List.length_append, List.length_singleton]
      exact hfree⟩, true)
  else (store, false)

end VectorStore

/-! ## The similarity -/

section Similarity

variable {R : Type*}

/-- What one pass over the coordinates accumulates. -/
structure Sums (R : Type*) where
  dotProduct : R
  normA : R
  normB : R

section Loops

variable [NonUnitalNonAssocSemiring R]

/-- A coordinate; the loops read none from the dimension on. -/
def coordinate (v : Embedding R) (j : ℕ) : R :=
  if hj : j < vectorDim then v ⟨j, hj⟩ else 0

/-- One turn of the unrolled loop. -/
def unrolledTurn (query data : Embedding R) (state : ℕ × Sums R) : ℕ × Sums R :=
  let j := state.1
  let a0 := coordinate query j
  let b0 := coordinate data j
  let a1 := coordinate query (j + 1)
  let b1 := coordinate data (j + 1)
  (j + 4, {
    dotProduct := state.2.dotProduct + (a0 * b0 + a1 * b1)
    normA := state.2.normA + (a0 * a0 + a1 * a1)
    normB := state.2.normB + (b0 * b0 + b1 * b1) })

/-- One turn of the loop for the rest. -/
def cleanupTurn (query data : Embedding R) (state : ℕ × Sums R) : ℕ × Sums R :=
  let a := coordinate query state.1
  let b := coordinate data state.1
  (state.1 + 1, {
    dotProduct := state.2.dotProduct + a * b
    normA := state.2.normA + a * a
    normB := state.2.normB + b * b })

def unrolledSums (query data : Embedding R) : ℕ × Sums R :=
  loopWhile (fun state ↦ state.1 + 4 ≤ vectorDim) (unrolledTurn query data) vectorDim (0, ⟨0, 0, 0⟩)

def similaritySums (query data : Embedding R) : Sums R :=
  (loopWhile (fun state ↦ state.1 < vectorDim) (cleanupTurn query data) vectorDim
    (unrolledSums query data)).2

end Loops

/-- The cosine from the three sums, for a square root. -/
def cosine [Field R] [LinearOrder R] (sqrt : R → R) (query : Embedding R) (record : VectorRecord R) :
    R :=
  let sums := similaritySums query record.data
  if 0 < sums.normA ∧ 0 < sums.normB then
    sums.dotProduct / (sqrt sums.normA * sqrt sums.normB)
  else -1

end Similarity

/-! ## What the loops visit -/

section Visited

variable {R : Type*} [CommRing R]

/-- The sum over the coordinates that the unrolled loop reads before one of its turns. -/
def visitedBefore (f : ℕ → R) (j : ℕ) : R := ∑ i ∈ Finset.range j, if i % 4 < 2 then f i else 0

theorem visitedBefore_add_four (f : ℕ → R) {j : ℕ} (hj : j % 4 = 0) :
    visitedBefore f (j + 4) = visitedBefore f j + (f j + f (j + 1)) := by
  have hsecond : (j + 1) % 4 < 2 := by omega
  have hthird : ¬ (j + 2) % 4 < 2 := by omega
  have hfourth : ¬ (j + 3) % 4 < 2 := by omega
  rw [visitedBefore, visitedBefore, Finset.sum_range_succ, Finset.sum_range_succ,
    Finset.sum_range_succ, Finset.sum_range_succ, if_pos (by omega), if_pos hsecond, if_neg hthird,
    if_neg hfourth]
  ring

variable (query data : Embedding R)

/-- The sums over the coordinates that are read before a turn. -/
def visitedSums (j : ℕ) : Sums R where
  dotProduct := visitedBefore (fun i ↦ coordinate query i * coordinate data i) j
  normA := visitedBefore (fun i ↦ coordinate query i * coordinate query i) j
  normB := visitedBefore (fun i ↦ coordinate data i * coordinate data i) j

theorem unrolledTurn_visitedSums {j : ℕ} (hj : j % 4 = 0) :
    unrolledTurn query data (j, visitedSums query data j) =
      (j + 4, visitedSums query data (j + 4)) := by
  simp only [unrolledTurn, visitedSums, visitedBefore_add_four _ hj]

/-- The invariant of the unrolled loop. -/
structure Unrolling (state : ℕ × Sums R) : Prop where
  aligned : state.1 % 4 = 0
  le_dim : state.1 ≤ vectorDim
  sums : state.2 = visitedSums query data state.1

theorem unrolledSums_eq :
    unrolledSums query data = (vectorDim, visitedSums query data vectorDim) := by
  have hturn : ∀ state : ℕ × Sums R, Unrolling query data state → state.1 + 4 ≤ vectorDim →
      Unrolling query data (unrolledTurn query data state) ∧
        vectorDim - (unrolledTurn query data state).1 < vectorDim - state.1 := by
    rintro ⟨j, sums⟩ ⟨haligned, hle, hsums⟩ htest
    dsimp only at haligned hle hsums htest
    rw [hsums, unrolledTurn_visitedSums query data haligned]
    refine ⟨⟨?_, htest, rfl⟩, ?_⟩
    · dsimp only
      omega
    · dsimp only
      omega
  have hstart : Unrolling query data (0, ⟨0, 0, 0⟩) := ⟨rfl, Nat.zero_le vectorDim, rfl⟩
  obtain ⟨hinv, hexit⟩ := Loop.inv_and_exit (fun state : ℕ × Sums R ↦ vectorDim - state.1) hturn
    hstart (le_refl vectorDim)
  have hend : (unrolledSums query data).1 = vectorDim := by
    have haligned := hinv.aligned
    have hle := hinv.le_dim
    rw [← unrolledSums] at haligned hle hexit
    rw [vectorDim] at hle hexit ⊢
    omega
  have hsums := hinv.sums
  rw [← unrolledSums, hend] at hsums
  exact Prod.ext hend hsums

/-- The loop for the rest has nothing left to do. -/
theorem similaritySums_eq : similaritySums query data = visitedSums query data vectorDim := by
  have hrest : ∀ budget, loopWhile (fun state : ℕ × Sums R ↦ state.1 < vectorDim)
      (cleanupTurn query data) budget (vectorDim, visitedSums query data vectorDim) =
        (vectorDim, visitedSums query data vectorDim) :=
    fun _ ↦ Loop.of_not_test (lt_irrefl vectorDim)
  rw [similaritySums, unrolledSums_eq, hrest]

/-! ## Which sums are complete -/

/-- The sums over all coordinates. -/
def fullSums : Sums R where
  dotProduct := ∑ j, query j * data j
  normA := ∑ j, query j * query j
  normB := ∑ j, data j * data j

/-- The sum over the coordinates that the unrolled loop skips. -/
def skipped (f : ℕ → R) : R := ∑ i ∈ Finset.range vectorDim, if i % 4 < 2 then 0 else f i

theorem visitedBefore_add_skipped (f : ℕ → R) :
    visitedBefore f vectorDim + skipped f = ∑ i ∈ Finset.range vectorDim, f i := by
  rw [visitedBefore, skipped, ← Finset.sum_add_distrib]
  refine Finset.sum_congr rfl fun i _ ↦ ?_
  by_cases hi : i % 4 < 2
  · rw [if_pos hi, if_pos hi, add_zero]
  · rw [if_neg hi, if_neg hi, zero_add]

theorem coordinate_val (v : Embedding R) (j : Fin vectorDim) : coordinate v j = v j :=
  dif_pos j.isLt

theorem sum_eq_sum_coordinate (v w : Embedding R) :
    ∑ j, v j * w j = ∑ i ∈ Finset.range vectorDim, coordinate v i * coordinate w i := by
  rw [← Fin.sum_univ_eq_sum_range fun i ↦ coordinate v i * coordinate w i]
  exact Finset.sum_congr rfl fun j _ ↦ by rw [coordinate_val, coordinate_val]

theorem visitedBefore_eq_iff (v w : Embedding R) :
    visitedBefore (fun i ↦ coordinate v i * coordinate w i) vectorDim = ∑ j, v j * w j ↔
      skipped (fun i ↦ coordinate v i * coordinate w i) = 0 := by
  rw [sum_eq_sum_coordinate, ← visitedBefore_add_skipped, left_eq_add]

theorem similaritySums_eq_fullSums_iff_skipped :
    similaritySums query data = fullSums query data ↔
      skipped (fun i ↦ coordinate query i * coordinate data i) = 0 ∧
        skipped (fun i ↦ coordinate query i * coordinate query i) = 0 ∧
          skipped (fun i ↦ coordinate data i * coordinate data i) = 0 := by
  rw [similaritySums_eq, visitedSums, fullSums, Sums.mk.injEq, visitedBefore_eq_iff,
    visitedBefore_eq_iff, visitedBefore_eq_iff]

theorem skipped_eq_zero {f : ℕ → R} (hzero : ∀ j : Fin vectorDim, 2 ≤ j.val % 4 → f j = 0) :
    skipped f = 0 := by
  refine Finset.sum_eq_zero fun i hi ↦ ?_
  by_cases hvisited : i % 4 < 2
  · exact if_pos hvisited
  · rw [if_neg hvisited]
    exact hzero ⟨i, Finset.mem_range.mp hi⟩ (not_lt.mp hvisited)

variable [LinearOrder R] [IsStrictOrderedRing R]

theorem skipped_square_eq_zero_iff (v : Embedding R) :
    skipped (fun i ↦ coordinate v i * coordinate v i) = 0 ↔
      ∀ j : Fin vectorDim, 2 ≤ j.val % 4 → v j = 0 := by
  constructor
  · intro hzero j hj
    have hnonneg : ∀ i ∈ Finset.range vectorDim,
        0 ≤ if i % 4 < 2 then 0 else coordinate v i * coordinate v i := by
      intro i _
      split
      · exact le_rfl
      · exact mul_self_nonneg _
    have hsquare := (Finset.sum_eq_zero_iff_of_nonneg hnonneg).mp hzero j (Finset.mem_range.mpr j.isLt)
    rw [if_neg (not_lt.mpr hj), mul_self_eq_zero, coordinate_val] at hsquare
    exact hsquare
  · intro hzero
    refine skipped_eq_zero fun j hj ↦ ?_
    rw [coordinate_val, hzero j hj, mul_zero]

/-- **The loops cover a vector** exactly when the coordinates that are skipped are zero. -/
theorem similaritySums_eq_fullSums_iff :
    similaritySums query data = fullSums query data ↔
      ∀ j : Fin vectorDim, 2 ≤ j.val % 4 → query j = 0 ∧ data j = 0 := by
  rw [similaritySums_eq_fullSums_iff_skipped, skipped_square_eq_zero_iff, skipped_square_eq_zero_iff]
  constructor
  · rintro ⟨-, hquery, hdata⟩ j hj
    exact ⟨hquery j hj, hdata j hj⟩
  · intro hzero
    refine ⟨skipped_eq_zero fun j hj ↦ ?_, fun j hj ↦ (hzero j hj).1, fun j hj ↦ (hzero j hj).2⟩
    rw [coordinate_val, coordinate_val, (hzero j hj).1, zero_mul]

end Visited

/-- The vector of length one along an axis. -/
def axis (j : ℕ) : Embedding ℚ := fun i ↦ if i.val = j then 1 else 0

theorem similaritySums_axis_zero : similaritySums (axis 0) (axis 0) = fullSums (axis 0) (axis 0) := by
  refine (similaritySums_eq_fullSums_iff (axis 0) (axis 0)).mpr fun j hj ↦ ?_
  have hne : j.val ≠ 0 := by
    intro hzero
    rw [hzero] at hj
    exact absurd hj (by norm_num)
  exact ⟨if_neg hne, if_neg hne⟩

/-- Along the third axis the sums are zero. -/
theorem not_similaritySums_eq_fullSums :
    ¬ ∀ query data : Embedding ℚ, similaritySums query data = fullSums query data := by
  intro hall
  have haxis := hall (axis 2) (axis 2)
  rw [similaritySums_eq_fullSums_iff_skipped, skipped_square_eq_zero_iff] at haxis
  have hone := haxis.2.1 ⟨2, by norm_num [vectorDim]⟩ le_rfl
  exact one_ne_zero hone

end SoulSystem.Storage
