import SoulSystem.Library.CycleWalk
import SoulSystem.Scirust.Linalg.Lu

/-!
# The determinant and the parity of its rows

The determinant is the product of the pivots, with the sign of the order of the rows.  The sign is
not counted while the rows change places: it is found from the order alone, by a walk along its
cycles.
-/

namespace SoulSystem.Scirust

open Library Outcome FixedReducible List
open Equiv (Perm swap)

/-! ## The parity of a permutation -/

theorem count_visit_lt {visited : List Bool} {j : ℕ} (hseen : visited[j]? = some false) :
    (visited.set j true).count false < visited.count false := by
  obtain ⟨hj, hfalse⟩ := List.getElem?_eq_some_iff.mp hseen
  have hpos : 0 < visited.count false := List.count_pos_iff.mpr (hfalse ▸ getElem_mem hj)
  rw [count_set hj, hfalse]
  simpa using hpos

/-- The walk from an index to the first visited one, with the visited indices and the number of
steps after it. -/
def walkCycle (perm : List ℕ) (visited : List Bool) (j cycleLen : ℕ) :
    Except Failure (List Bool × ℕ) :=
  match _hseen : visited[j]? with
  | none => .error .panic
  | some true => .ok (visited, cycleLen)
  | some false =>
    match perm[j]? with
    | none => .error .panic
    | some next => walkCycle perm (visited.set j true) next (cycleLen + 1)
termination_by visited.count false
decreasing_by exact count_visit_lt _hseen

theorem walkCycle_of_visited {perm : List ℕ} {visited : List Bool} {j : ℕ}
    (hseen : visited[j]? = some true) (cycleLen : ℕ) :
    walkCycle perm visited j cycleLen = .ok (visited, cycleLen) := by
  rw [walkCycle]
  split
  · rename_i hnone
    rw [hseen] at hnone
    cases hnone
  · rfl
  · rename_i hfalse
    rw [hseen] at hfalse
    cases hfalse

theorem walkCycle_of_fresh {perm : List ℕ} {visited : List Bool} {j next : ℕ}
    (hseen : visited[j]? = some false) (hnext : perm[j]? = some next) (cycleLen : ℕ) :
    walkCycle perm visited j cycleLen =
      walkCycle perm (visited.set j true) next (cycleLen + 1) := by
  rw [walkCycle]
  split
  · rename_i hnone
    rw [hseen] at hnone
    cases hnone
  · rename_i htrue
    rw [hseen] at htrue
    cases htrue
  · rw [hnext]

/-- The round of one start. -/
def walkFrom (perm : List ℕ) (state : List Bool × ℕ) (start : ℕ) :
    Except Failure (List Bool × ℕ) := do
  let (visited, swaps) := state
  if visited[start]? = some true then
    return state
  else
    let (visited, cycleLen) ← walkCycle perm visited start 0
    return (visited, swaps + (cycleLen - 1))

def permutationIsOdd (perm : List ℕ) : Except Failure Bool := do
  let (_, swaps) ← (List.range perm.length).foldlM (walkFrom perm)
    (List.replicate perm.length false, 0)
  return swaps % 2 = 1

/-! ## The determinant -/

section Determinant

variable {w frac : ℕ}

/-- The product of the diagonal. -/
def pivotProduct (lu : List (Fixed w frac)) (n : ℕ) : Fixed w frac :=
  (after 0 n).foldl (fun det i ↦ times det (entry lu (i * n + i))) (entry lu 0)

def determinant (a : List (Fixed w frac)) (n : ℕ) : Except Failure (Fixed w frac) := do
  require (1 ≤ n)
  match ← luDecompose a n with
  | none => return ⟨0⟩
  | some (lu, perm) =>
    if ← permutationIsOdd perm then
      return Fixed.wrappingSub ⟨0⟩ (pivotProduct lu n)
    else
      return pivotProduct lu n

/-- Whether the step of a column exchanges two rows. -/
def exchangesRows (a : List (Fixed w frac)) (n k : ℕ) : Bool :=
  (luSteps a n k).any fun state ↦ (luPivot state.1 n k).1 ≠ k

/-- The number of row exchanges of the first columns. -/
def rowSwaps (a : List (Fixed w frac)) (n k : ℕ) : ℕ := (List.range k).countP (exchangesRows a n)

end Determinant

/-! ## The walk -/

section Walk

variable {n : ℕ} {σ seen : Perm (Fin n)} {visited : List Bool}

/-- The list of the values of a permutation. -/
def listOf (σ : Perm (Fin n)) : List ℕ := List.ofFn fun i ↦ (σ i : ℕ)

def Marked (visited : List Bool) (i : Fin n) : Prop := visited[(i : ℕ)]? = some true

theorem marked_set (hlength : visited.length = n) (j i : Fin n) :
    Marked (visited.set j true) i ↔ i = j ∨ Marked visited i := by
  rw [Marked, Marked, getElem?_set, Fin.ext_iff]
  by_cases hsame : (j : ℕ) = i
  · rw [if_pos hsame, if_pos (by omega)]
    exact iff_of_true rfl (.inl hsame.symm)
  · rw [if_neg hsame]
    exact (or_iff_right (Ne.symm hsame)).symm

/-- The rounds so far have marked whole cycles and have counted the transpositions of what they have
seen. -/
structure Rounds (σ seen : Perm (Fin n)) (visited : List Bool) (swaps : ℕ) : Prop where
  length : visited.length = n
  walked : Walked σ seen (Marked visited)
  sign : seen.sign = (-1) ^ swaps

/-- The walk of a round. -/
structure Round (σ seen : Perm (Fin n)) (visited : List Bool) (start j : Fin n)
    (swaps cycleLen : ℕ) : Prop where
  length : visited.length = n
  walk : CycleWalk σ seen (Marked visited) start j
  sign : seen.sign = (-1) ^ (swaps + (cycleLen - 1))
  first : cycleLen = 0 ∧ j = start ∨ 0 < cycleLen ∧ Marked visited start

variable {start j : Fin n} {swaps cycleLen : ℕ}

theorem Round.step (hround : Round σ seen visited start j swaps cycleLen)
    (hnew : ¬ Marked visited j) :
    Round σ (swap start j * seen) (visited.set j true) start (σ j) swaps (cycleLen + 1) where
  length := List.length_set.trans hround.length
  walk := by
    have hmarked : Marked (visited.set j true) = fun i ↦ i = j ∨ Marked visited i := by
      funext i
      exact propext (marked_set hround.length j i)
    rw [hmarked]
    exact hround.walk.step hnew
  sign := by
    rw [Perm.sign_mul, Perm.sign_swap', hround.sign]
    rcases hround.first with ⟨hzero, hfirst⟩ | ⟨hpos, hstart⟩
    · rw [if_pos hfirst.symm, hzero, one_mul]
    · have hne : start ≠ j := fun heq ↦ hnew (heq ▸ hstart)
      have hcount : swaps + (cycleLen + 1 - 1) = swaps + (cycleLen - 1) + 1 := by omega
      rw [if_neg hne, hcount, pow_succ']
  first := by
    refine .inr ⟨Nat.succ_pos cycleLen, (marked_set hround.length j start).mpr ?_⟩
    rcases hround.first with ⟨_, hfirst⟩ | ⟨_, hstart⟩
    · exact .inl hfirst.symm
    · exact .inr hstart

theorem getElem?_listOf (σ : Perm (Fin n)) (i : Fin n) : (listOf σ)[(i : ℕ)]? = some (σ i : ℕ) := by
  rw [listOf, List.getElem?_ofFn, dif_pos i.isLt]

/-- **The walk of a round ends**, with the start and all that was marked before among the marked
indices. -/
theorem walkCycle_rounds (hround : Round σ seen visited start j swaps cycleLen) :
    ∃ out len seen', walkCycle (listOf σ) visited j cycleLen = .ok (out, len) ∧
      Rounds σ seen' out (swaps + (len - 1)) ∧ Marked out start ∧
        ∀ i : Fin n, Marked visited i → Marked out i := by
  induction hcount : visited.count false using Nat.strong_induction_on generalizing
    visited j cycleLen seen with
  | _ count ih =>
    have hj : (j : ℕ) < visited.length := j.isLt.trans_eq hround.length.symm
    cases hvalue : visited[(j : ℕ)] with
    | true =>
      have hmarked : Marked visited j := List.getElem?_eq_some_iff.mpr ⟨hj, hvalue⟩
      have hend := hround.walk.eq_start hmarked
      exact ⟨visited, cycleLen, seen, walkCycle_of_visited hmarked cycleLen,
        ⟨hround.length, hround.walk.walked hmarked, hround.sign⟩, hend ▸ hmarked, fun _ hi ↦ hi⟩
    | false =>
      have hfresh : visited[(j : ℕ)]? = some false := List.getElem?_eq_some_iff.mpr ⟨hj, hvalue⟩
      have hnew : ¬ Marked visited j := by simp [Marked, hfresh]
      obtain ⟨out, len, seen', hwalk, hrounds, hstart, hkept⟩ :=
        ih _ (hcount ▸ count_visit_lt hfresh) (hround.step hnew) rfl
      refine ⟨out, len, seen', ?_, hrounds, hstart, fun i hi ↦ hkept i ?_⟩
      · rw [walkCycle_of_fresh hfresh (getElem?_listOf σ j), hwalk]
      · exact (marked_set hround.length j i).mpr (.inr hi)

/-- **A round** leaves its start marked. -/
theorem walkFrom_rounds (hrounds : Rounds σ seen visited swaps) (start : Fin n) :
    ∃ out swaps' seen', walkFrom (listOf σ) (visited, swaps) start = .ok (out, swaps') ∧
      Rounds σ seen' out swaps' ∧ Marked out start ∧
        ∀ i : Fin n, Marked visited i → Marked out i := by
  rw [walkFrom]
  by_cases hmarked : Marked visited start
  · exact ⟨visited, swaps, seen, if_pos hmarked, hrounds, hmarked, fun _ hi ↦ hi⟩
  · have hround : Round σ seen visited start start swaps 0 :=
      ⟨hrounds.length, CycleWalk.begin hrounds.walked start, hrounds.sign, .inl ⟨rfl, rfl⟩⟩
    obtain ⟨out, len, seen', hwalk, hout, hstart, hkept⟩ := walkCycle_rounds hround
    refine ⟨out, swaps + (len - 1), seen', ?_, hout, hstart, hkept⟩
    refine (if_neg hmarked).trans ?_
    rw [hwalk]
    rfl

theorem walkFrom_all (σ : Perm (Fin n)) {count : ℕ} (hcount : count ≤ n) :
    ∃ out swaps seen, (List.range count).foldlM (walkFrom (listOf σ)) (List.replicate n false, 0) =
      .ok (out, swaps) ∧ Rounds σ seen out swaps ∧ ∀ i : Fin n, (i : ℕ) < count → Marked out i := by
  induction count with
  | zero =>
    have hnone : Marked (n := n) (List.replicate n false) = fun _ ↦ False := by
      funext i
      simp [Marked]
    refine ⟨_, 0, 1, rfl, ⟨length_replicate, ?_, Perm.sign_one⟩, ?_⟩
    · rw [hnone]
      exact Walked.none
    · exact fun i hi ↦ absurd hi (Nat.not_lt_zero i)
  | succ count ih =>
    obtain ⟨mid, swaps, seen, hrun, hrounds, hmarked⟩ := ih (Nat.le_of_succ_le hcount)
    obtain ⟨out, swaps', seen', hround, hout, hstart, hkept⟩ :=
      walkFrom_rounds hrounds ⟨count, hcount⟩
    refine ⟨out, swaps', seen', ?_, hout, fun i hi ↦ ?_⟩
    · rw [range_succ, foldlM_append, hrun, ok_bind, foldlM_cons, hround]
      rfl
    · rcases Nat.lt_succ_iff_lt_or_eq.mp hi with hbefore | hlast
      · exact hkept i (hmarked i hbefore)
      · have hsame : i = ⟨count, hcount⟩ := Fin.ext hlast
        rwa [hsame]

theorem neg_one_pow_eq_neg_one_iff (swaps : ℕ) : (-1 : ℤˣ) ^ swaps = -1 ↔ swaps % 2 = 1 := by
  rw [← Nat.odd_iff]
  rcases Nat.even_or_odd swaps with heven | hodd
  · rw [heven.neg_one_pow]
    exact iff_of_false (by decide) (Nat.not_odd_iff_even.mpr heven)
  · exact iff_of_true hodd.neg_one_pow hodd

/-- **The walk finds the parity** of a permutation. -/
theorem permutationIsOdd_listOf (σ : Perm (Fin n)) :
    permutationIsOdd (listOf σ) = .ok (decide (σ.sign = -1)) := by
  obtain ⟨out, swaps, seen, hrun, hrounds, hmarked⟩ := walkFrom_all σ le_rfl
  have hseen : seen = σ := hrounds.walked.eq_of_all fun i ↦ hmarked i i.isLt
  have hlength : (listOf σ).length = n := length_ofFn
  rw [permutationIsOdd, hlength, hrun, ok_bind, ← hseen, hrounds.sign]
  simp only [neg_one_pow_eq_neg_one_iff]
  rfl

/-- Every order of the indices is the list of a permutation. -/
theorem exists_listOf_eq {perm : List ℕ} (hperm : perm.Perm (List.range n)) :
    ∃ σ : Perm (Fin n), perm = listOf σ := by
  have hlength : perm.length = n := hperm.length_eq.trans length_range
  have hbound : ∀ i : Fin n, perm[(i : ℕ)] < n := fun i ↦
    List.mem_range.mp (hperm.subset (getElem_mem _))
  have hinjective : Function.Injective fun i : Fin n ↦ (⟨perm[(i : ℕ)], hbound i⟩ : Fin n) := by
    intro i j heq
    have hnodup : perm.Nodup := hperm.nodup_iff.mpr nodup_range
    exact Fin.ext ((hnodup.getElem_inj_iff).mp (Fin.mk.inj heq))
  refine ⟨Equiv.ofBijective _ (Finite.injective_iff_bijective.mp hinjective), ?_⟩
  apply ext_getElem
  · rw [listOf, length_ofFn, hlength]
  · intro i _ _
    simp [listOf]

end Walk

/-! ## The order of the rows -/

section Rows

variable {w frac n k : ℕ} {a : List (Fixed w frac)} {state next : List (Fixed w frac) × List ℕ}

/-- A step changes the order by the exchange of its rows, if it makes one. -/
theorem order_of_luStep (hstep : luStep n state k = some next) :
    next.2 = if (luPivot state.1 n k).1 ≠ k then swapAt 0 state.2 k (luPivot state.1 n k).1
      else state.2 := by
  rw [luStep] at hstep
  simp only [] at hstep
  split at hstep
  · cases hstep
  · obtain ⟨lu, _, hnext⟩ := Option.bind_eq_some_iff.mp hstep
    cases hnext
    split
    case isTrue => rfl
    case isFalse => rfl

theorem swapAt_listOf (σ : Perm (Fin n)) (p q : Fin n) :
    swapAt 0 (listOf σ) p q = listOf (σ * swap p q) := by
  have hlength : ∀ τ : Perm (Fin n), (listOf τ).length = n := fun _ ↦ length_ofFn
  have hvalue : ∀ (τ : Perm (Fin n)) (i : Fin n), (listOf τ).getD i 0 = (τ i : ℕ) := fun τ i ↦ by
    rw [getD_eq_getElem?_getD, getElem?_listOf, Option.getD_some]
  have hplace : ∀ r : Fin n, (r : ℕ) < (listOf σ).length := fun r ↦ r.isLt.trans_eq (hlength σ).symm
  apply ext_getElem
  · rw [length_swapAt, hlength, hlength]
  · intro i hi _
    rw [length_swapAt, hlength] at hi
    have hswap : swap (p : ℕ) q i = (swap p q ⟨i, hi⟩ : Fin n) := by
      rw [Equiv.swap_apply_def, Equiv.swap_apply_def]
      simp only [Fin.ext_iff]
      split_ifs <;> rfl
    rw [← getD_eq_getElem _ 0, ← getD_eq_getElem _ 0, getD_swapAt 0 (hplace p) (hplace q),
      hswap, hvalue]
    exact (hvalue (σ * swap p q) ⟨i, hi⟩).symm

/-- **The order of the rows** is the product of the exchanges. -/
theorem luSteps_sign (hk : k ≤ n) (hrun : luSteps a n k = some state) :
    ∃ σ : Perm (Fin n), state.2 = listOf σ ∧ σ.sign = (-1) ^ rowSwaps a n k := by
  induction k generalizing state with
  | zero =>
    cases hrun
    refine ⟨1, ?_, Perm.sign_one⟩
    apply ext_getElem
    · rw [listOf, length_ofFn, length_range]
    · intro i _ _
      simp [listOf]
  | succ k ih =>
    rw [luSteps_succ] at hrun
    obtain ⟨before, hbefore, hstep⟩ := Option.bind_eq_some_iff.mp hrun
    obtain ⟨σ, horder, hsign⟩ := ih (Nat.le_of_succ_le hk) hbefore
    obtain ⟨p, hpivot, _, hp, _⟩ := luPivot_spec before.1 hk
    have hcount : rowSwaps a n (k + 1) = rowSwaps a n k + if p ≠ k then 1 else 0 := by
      rw [rowSwaps, range_succ, countP_append, countP_singleton, exchangesRows,
        hbefore, Option.any_some, hpivot, rowSwaps]
      simp only [decide_eq_true_eq]
    have hnext := order_of_luStep hstep
    rw [hpivot] at hnext
    simp only [] at hnext
    rw [hcount, hnext]
    by_cases hsame : p = k
    · rw [if_neg (not_not.mpr hsame), if_neg (not_not.mpr hsame)]
      exact ⟨σ, horder, hsign⟩
    · rw [if_pos hsame, if_pos hsame, horder]
      refine ⟨σ * swap ⟨k, hk⟩ ⟨p, hp⟩, swapAt_listOf σ ⟨k, hk⟩ ⟨p, hp⟩, ?_⟩
      have hne : (⟨k, hk⟩ : Fin n) ≠ ⟨p, hp⟩ := fun heq ↦ hsame (Fin.mk.inj heq).symm
      rw [Perm.sign_mul, Perm.sign_swap hne, hsign, pow_succ]

theorem permutationIsOdd_of_luDecompose {lu : List (Fixed w frac)} {perm : List ℕ}
    (hrun : luDecompose a n = .ok (some (lu, perm))) :
    permutationIsOdd perm = .ok (decide (rowSwaps a n n % 2 = 1)) := by
  obtain ⟨_, _, hok⟩ := bind_eq_ok.mp hrun
  obtain ⟨σ, horder, hsign⟩ := luSteps_sign le_rfl (pure_eq_ok.mp hok).symm
  simp only [] at horder
  rw [horder, permutationIsOdd_listOf, hsign]
  simp only [neg_one_pow_eq_neg_one_iff]

/-- **The parity that the walk finds** is that of the permutation; for the order of the rows of a
factorisation it is the parity of the exchanges of rows, and gives the determinant its sign. -/
theorem permutationIsOdd_parity (w frac n : ℕ) :
    (∀ perm : List ℕ, perm.Perm (List.range n) →
      ∃ σ : Perm (Fin n), perm = listOf σ ∧
        permutationIsOdd perm = .ok (decide (σ.sign = -1))) ∧
    ∀ (a lu : List (Fixed w frac)) (perm : List ℕ), luDecompose a n = .ok (some (lu, perm)) →
      permutationIsOdd perm = .ok (decide (rowSwaps a n n % 2 = 1)) ∧
      (1 ≤ n → determinant a n =
        .ok (if rowSwaps a n n % 2 = 1 then Fixed.wrappingSub ⟨0⟩ (pivotProduct lu n)
          else pivotProduct lu n)) := by
  refine ⟨fun perm hperm ↦ ?_, fun a lu perm hrun ↦ ⟨permutationIsOdd_of_luDecompose hrun, ?_⟩⟩
  · obtain ⟨σ, rfl⟩ := exists_listOf_eq hperm
    exact ⟨σ, rfl, permutationIsOdd_listOf σ⟩
  · intro hn
    rw [determinant, require_bind hn, hrun, ok_bind]
    simp only []
    rw [permutationIsOdd_of_luDecompose hrun, ok_bind]
    by_cases hodd : rowSwaps a n n % 2 = 1
    · rw [if_pos hodd, if_pos (decide_eq_true hodd)]
      rfl
    · rw [if_neg hodd, if_neg (fun htrue ↦ hodd (of_decide_eq_true htrue))]
      rfl

theorem permutationIsOdd_parity_exchanged :
    (∃ σ : Perm (Fin 3), [1, 2, 0] = listOf σ ∧
      permutationIsOdd [1, 2, 0] = .ok (decide (σ.sign = -1))) ∧
    permutationIsOdd [1, 0] =
      .ok (decide (rowSwaps [(⟨1⟩ : Fixed 32 2), ⟨2⟩, ⟨3⟩, ⟨5⟩] 2 2 % 2 = 1)) ∧
    determinant [(⟨1⟩ : Fixed 32 2), ⟨2⟩, ⟨3⟩, ⟨5⟩] 2 =
      .ok (if rowSwaps [(⟨1⟩ : Fixed 32 2), ⟨2⟩, ⟨3⟩, ⟨5⟩] 2 2 % 2 = 1 then
          Fixed.wrappingSub ⟨0⟩ (pivotProduct [⟨3⟩, ⟨5⟩, ⟨1⟩, ⟨1⟩] 2)
        else pivotProduct [⟨3⟩, ⟨5⟩, ⟨1⟩, ⟨1⟩] 2) := by
  have hrun : luDecompose [(⟨1⟩ : Fixed 32 2), ⟨2⟩, ⟨3⟩, ⟨5⟩] 2 =
      .ok (some ([⟨3⟩, ⟨5⟩, ⟨1⟩, ⟨1⟩], [1, 0])) := by decide +kernel
  obtain ⟨hodd, hdeterminant⟩ := (permutationIsOdd_parity 32 2 2).2 _ _ _ hrun
  exact ⟨(permutationIsOdd_parity 32 2 3).1 [1, 2, 0] (by decide), hodd, hdeterminant (by decide)⟩

end Rows

end SoulSystem.Scirust
