import SoulSystem.Storage.VectorStore

/-!
# Nearest neighbours

`knn_search` keeps the best results so far in a buffer.  While the buffer is filled, a new result
rises to its place.  Afterwards a better result replaces the last one, and the loop that should move
it has no turn, so the buffer is not sorted again.

Scores are values of a linear order.  An access outside of the buffer is a panic, and so is a
subtraction below zero: nothing is returned.
-/

namespace SoulSystem.Storage

open Library List

structure SearchResult (S : Type*) where
  id : UInt64
  score : S
  deriving DecidableEq

namespace VectorStore

variable {R S : Type*}

/-! ## The search -/

/-- Two neighbours in the buffer are swapped. -/
def swapWithNext (results : List (SearchResult S)) (pos : ℕ) (first second : SearchResult S) :
    List (SearchResult S) :=
  (results.set pos second).set (pos + 1) first

theorem swapWithNext_append (front rest : List (SearchResult S)) (a b : SearchResult S) :
    swapWithNext (front ++ a :: b :: rest) front.length a b = front ++ b :: a :: rest := by
  rw [swapWithNext, set_append_right _ _ le_rfl, Nat.sub_self, set_cons_zero,
    set_append_right _ _ (Nat.le_add_right _ 1), Nat.add_sub_cancel_left, set_cons_succ,
    set_cons_zero]

/-- A write to the buffer. -/
def write (results : List (SearchResult S)) (pos : ℕ) (result : SearchResult S) :
    Option (List (SearchResult S)) :=
  if pos < results.length then some (results.set pos result) else none

/-- The result that a record stands for. -/
def resultOf (score : VectorRecord R → S) (record : VectorRecord R) : SearchResult S :=
  ⟨record.id, score record⟩

variable [LinearOrder S]

/-- The result at a position rises as long as its score is above the one before it. -/
def bubbleUp : ℕ → List (SearchResult S) → Option (List (SearchResult S))
  | 0, results => some results
  | pos + 1, results => do
      let before ← results[pos]?
      let result ← results[pos + 1]?
      if before.score < result.score then
        bubbleUp pos (swapWithNext results pos before result)
      else some results

/-- The result at a position sinks as long as its score is below the one after it.  The first number
bounds the turns. -/
def bubbleDown (effectiveK : ℕ) : ℕ → ℕ → List (SearchResult S) → Option (List (SearchResult S))
  | 0, _, results => some results
  | turns + 1, pos, results =>
    if pos + 1 < effectiveK then do
      let result ← results[pos]?
      let after ← results[pos + 1]?
      if result.score < after.score then
        bubbleDown effectiveK turns (pos + 1) (swapWithNext results pos result after)
      else some results
    else some results

/-- One record: the write index and the buffer after it. -/
def offer (effectiveK : ℕ) (state : ℕ × List (SearchResult S)) (result : SearchResult S) :
    Option (ℕ × List (SearchResult S)) :=
  if state.1 < effectiveK then do
    let results ← write state.2 state.1 result
    let results ← bubbleUp state.1 results
    return (state.1 + 1, results)
  else if effectiveK = 0 then none
  else do
    let last ← state.2[effectiveK - 1]?
    if last.score < result.score then
      let results ← write state.2 (effectiveK - 1) result
      let results ← bubbleDown effectiveK effectiveK (effectiveK - 1) results
      return (state.1, results)
    else return state

/-- The number of results and the buffer after a search. -/
def knnSearch (negInfinity : S) (score : VectorRecord R → S) (store : VectorStore R) (k : ℕ)
    (results : List (SearchResult S)) : Option (ℕ × List (SearchResult S)) :=
  if store.count = 0 then some (0, results)
  else do
    let effectiveK := min k store.count
    let cleared := results.map fun result ↦ { result with score := negInfinity }
    let final ← (store.records.map (resultOf score)).foldlM (offer effectiveK) (0, cleared)
    return (effectiveK, final.2)

/-! ## Filling the buffer -/

variable {score : VectorRecord R → S} {effectiveK : ℕ}

/-- Records by falling scores. -/
def Descending (score : VectorRecord R → S) (records : List (VectorRecord R)) : Prop :=
  records.Pairwise fun a b ↦ score b ≤ score a

theorem Descending.concat {front : List (VectorRecord R)} {last : VectorRecord R}
    (hfront : Descending score front) (hlast : ∀ a ∈ front, score last ≤ score a) :
    Descending score (front ++ [last]) := by
  rw [Descending, pairwise_append]
  refine ⟨hfront, pairwise_singleton _ _, fun a ha b hb ↦ ?_⟩
  rw [List.mem_singleton.mp hb]
  exact hlast a ha

theorem Descending.le_of_concat {front : List (VectorRecord R)} {last : VectorRecord R}
    (hsorted : Descending score (front ++ [last])) : ∀ a ∈ front, score last ≤ score a :=
  fun a ha ↦ (List.pairwise_append.mp hsorted).2.2 a ha last (mem_singleton_self last)

/-- A new result rises to its place in a sorted part of the buffer. -/
theorem exists_bubbleUp {front : List (VectorRecord R)} (hfront : Descending score front)
    (record : VectorRecord R) (rest : List (SearchResult S)) :
    ∃ sorted, bubbleUp front.length
        (front.map (resultOf score) ++ resultOf score record :: rest) =
          some (sorted.map (resultOf score) ++ rest) ∧
      sorted.Perm (record :: front) ∧ Descending score sorted := by
  induction front using List.reverseRecOn generalizing rest with
  | nil => exact ⟨[record], rfl, List.Perm.refl _, pairwise_singleton _ _⟩
  | append_singleton front last ih =>
    have hprefix : Descending score front := (List.pairwise_append.mp hfront).1
    have hbuffer : (front ++ [last]).map (resultOf score) ++ resultOf score record :: rest =
        front.map (resultOf score) ++ resultOf score last :: resultOf score record :: rest := by
      rw [map_append, map_singleton, append_assoc, singleton_append]
    have hlast : (front.map (resultOf score) ++
        resultOf score last :: resultOf score record :: rest)[front.length]? =
          some (resultOf score last) := by simp
    have hrecord : (front.map (resultOf score) ++
        resultOf score last :: resultOf score record :: rest)[front.length + 1]? =
          some (resultOf score record) := by
      rw [getElem?_append_right (by rw [length_map]; omega), length_map,
        Nat.add_sub_cancel_left]
      rfl
    rw [hbuffer, length_append, length_singleton, bubbleUp, hlast, hrecord]
    simp only [Option.bind_eq_bind, Option.bind_some]
    by_cases hlt : (resultOf score last).score < (resultOf score record).score
    · have hswap := swapWithNext_append (front.map (resultOf score)) rest (resultOf score last)
        (resultOf score record)
      rw [length_map] at hswap
      obtain ⟨sorted, hrun, hperm, hsorted⟩ := ih hprefix (resultOf score last :: rest)
      refine ⟨sorted ++ [last], ?_, ?_, hsorted.concat fun a ha ↦ ?_⟩
      · rw [if_pos hlt, hswap, hrun, map_append, append_assoc]
        rfl
      · exact hperm.append_right [last]
      · cases List.mem_cons.mp (hperm.mem_iff.mp ha) with
        | inl hnew => exact hnew ▸ le_of_lt hlt
        | inr hold => exact hfront.le_of_concat a hold
    · refine ⟨front ++ [last] ++ [record], ?_, perm_append_singleton record _,
        hfront.concat fun a ha ↦ ?_⟩
      · rw [if_neg hlt]
        simp
      · cases List.mem_append.mp ha with
        | inl hold => exact (not_lt.mp hlt).trans (hfront.le_of_concat a hold)
        | inr hend => exact List.mem_singleton.mp hend ▸ not_lt.mp hlt

/-- The first records fill the buffer, by falling scores. -/
theorem exists_fill {records front : List (VectorRecord R)} {rest : List (SearchResult S)}
    (hfront : Descending score front) (hroom : front.length + records.length ≤ effectiveK)
    (hrest : records.length ≤ rest.length) :
    ∃ sorted rest', (records.map (resultOf score)).foldlM (offer effectiveK)
        (front.length, front.map (resultOf score) ++ rest) =
          some (front.length + records.length, sorted.map (resultOf score) ++ rest') ∧
      sorted.Perm (front ++ records) ∧ Descending score sorted := by
  induction records generalizing front rest with
  | nil => exact ⟨front, rest, rfl, by rw [append_nil], hfront⟩
  | cons record records ih =>
    cases rest with
    | nil => exact absurd hrest (Nat.not_succ_le_zero _)
    | cons free rest =>
      rw [length_cons] at hroom hrest
      rw [length_cons] at hrest
      obtain ⟨risen, hrun, hperm, hrisen⟩ := exists_bubbleUp hfront record rest
      have hwrite : write (front.map (resultOf score) ++ free :: rest) front.length
          (resultOf score record) =
            some (front.map (resultOf score) ++ resultOf score record :: rest) := by
        rw [write, if_pos (by simp), set_append_right _ _ (by rw [length_map]),
          length_map, Nat.sub_self, set_cons_zero]
      have hlength : risen.length = front.length + 1 := hperm.length_eq
      have hoffer : offer effectiveK (front.length, front.map (resultOf score) ++ free :: rest)
          (resultOf score record) =
            some (risen.length, risen.map (resultOf score) ++ rest) := by
        rw [offer, if_pos (by dsimp only; omega), hwrite]
        simp only [Option.bind_eq_bind, Option.bind_some, hrun, hlength]
        rfl
      obtain ⟨sorted, rest', hfold, hsorted, hdescending⟩ := @ih risen rest hrisen (by omega)
        (by omega)
      refine ⟨sorted, rest', ?_, hsorted.trans ?_, hdescending⟩
      · rw [map_cons, foldlM_cons, hoffer]
        refine hfold.trans ?_
        rw [hlength, length_cons]
        congr 2
        omega
      · exact (hperm.append_right records).trans List.perm_middle.symm

/-! ## The full buffer -/

/-- The last result of a full buffer after more records. -/
def keptLast (score : VectorRecord R → S) : VectorRecord R → List (VectorRecord R) → VectorRecord R
  | last, [] => last
  | last, record :: records =>
    keptLast score (if score last < score record then record else last) records

/-- A full buffer changes in its last place only. -/
theorem foldlM_full {front : List (VectorRecord R)} (hfull : front.length + 1 = effectiveK)
    (last : VectorRecord R) (records : List (VectorRecord R)) (rest : List (SearchResult S)) :
    (records.map (resultOf score)).foldlM (offer effectiveK)
        (effectiveK, front.map (resultOf score) ++ resultOf score last :: rest) =
      some (effectiveK, front.map (resultOf score) ++
        resultOf score (keptLast score last records) :: rest) := by
  induction records generalizing last with
  | nil => rfl
  | cons record records ih =>
    have hpos : effectiveK - 1 = front.length := by omega
    have hlast : (front.map (resultOf score) ++ resultOf score last :: rest)[front.length]? =
        some (resultOf score last) := by simp
    have hwrite : write (front.map (resultOf score) ++ resultOf score last :: rest) front.length
        (resultOf score record) =
          some (front.map (resultOf score) ++ resultOf score record :: rest) := by
      rw [write, if_pos (by simp), set_append_right _ _ (by rw [length_map]),
        length_map, Nat.sub_self, set_cons_zero]
    have hstay : ∀ results : List (SearchResult S),
        bubbleDown effectiveK effectiveK front.length results = some results := by
      intro results
      cases effectiveK with
      | zero => rfl
      | succ turns => rw [bubbleDown, if_neg (by omega)]
    have hoffer : offer effectiveK
        (effectiveK, front.map (resultOf score) ++ resultOf score last :: rest)
        (resultOf score record) = some (effectiveK, front.map (resultOf score) ++
          resultOf score (if score last < score record then record else last) :: rest) := by
      rw [offer, if_neg (lt_irrefl effectiveK), if_neg (by omega)]
      simp only [hpos, hlast, Option.bind_eq_bind, Option.bind_some]
      by_cases hlt : (resultOf score last).score < (resultOf score record).score
      · have hless : score last < score record := hlt
        simp only [if_pos hlt, if_pos hless, hwrite, hstay, Option.bind_some]
        rfl
      · have hnot : ¬ score last < score record := hlt
        simp only [if_neg hlt, if_neg hnot]
        rfl
    rw [map_cons, foldlM_cons, hoffer]
    exact ih _

/-- The last result is a best one of those that it was compared with. -/
theorem exists_keptLast (last : VectorRecord R) (records : List (VectorRecord R)) :
    ∃ left, (keptLast score last records :: left).Perm (last :: records) ∧
      ∀ record ∈ left, score record ≤ score (keptLast score last records) := by
  induction records generalizing last with
  | nil => exact ⟨[], List.Perm.refl _, fun _ hrecord ↦ absurd hrecord not_mem_nil⟩
  | cons record records ih =>
    rw [keptLast]
    by_cases hlt : score last < score record
    · rw [if_pos hlt]
      obtain ⟨left, hperm, hbest⟩ := ih record
      have hrecord : score record ≤ score (keptLast score record records) := by
        cases List.mem_cons.mp (hperm.mem_iff.mpr mem_cons_self) with
        | inl hsame => exact le_of_eq (congrArg score hsame)
        | inr hleft => exact hbest record hleft
      refine ⟨last :: left, ?_, ?_⟩
      · exact (List.Perm.swap last _ left).trans (hperm.cons last)
      · rw [forall_mem_cons]
        exact ⟨hlt.le.trans hrecord, hbest⟩
    · rw [if_neg hlt]
      obtain ⟨left, hperm, hbest⟩ := ih last
      have hlast : score last ≤ score (keptLast score last records) := by
        cases List.mem_cons.mp (hperm.mem_iff.mpr mem_cons_self) with
        | inl hsame => exact le_of_eq (congrArg score hsame)
        | inr hleft => exact hbest last hleft
      refine ⟨record :: left, ?_, ?_⟩
      · exact (List.Perm.swap record _ left).trans
          ((hperm.cons record).trans (List.Perm.swap last record records))
      · rw [forall_mem_cons]
        exact ⟨(not_lt.mp hlt).trans hlast, hbest⟩

/-! ## When the results are ranked -/

/-- The number of results is returned, and the first results are the scores, by falling scores, of
records that no other record exceeds. -/
def Ranks (score : VectorRecord R → S) (store : VectorStore R) (k : ℕ)
    (outcome : Option (ℕ × List (SearchResult S))) : Prop :=
  ∃ results, outcome = some (min k store.count, results) ∧
    ((results.take (min k store.count)).map SearchResult.score).Pairwise (· ≥ ·) ∧
    ∃ found left : List (VectorRecord R), (found ++ left).Perm store.records ∧
      found.length = min k store.count ∧
      (results.take (min k store.count)).map SearchResult.score = found.map score ∧
      ∀ record ∈ left, ∀ best ∈ found, score record ≤ score best

/-- Every record after the first `k` exceeds at most one of these, and a search for nothing meets an
empty store. -/
def Rankable (score : VectorRecord R → S) (store : VectorStore R) (k : ℕ) : Prop :=
  (k = 0 → store.count = 0) ∧
    ∀ record ∈ store.records.drop k,
      (store.records.take k).countP (fun first ↦ score first < score record) ≤ 1

/-- What a search returns, from the records in the first places, the one in the last place and the
others. -/
structure Search (score : VectorRecord R → S) (store : VectorStore R) (k : ℕ)
    (results : List (SearchResult S)) (front : List (VectorRecord R)) (last kept : VectorRecord R)
    (left : List (VectorRecord R)) : Prop where
  length : front.length + 1 = min k store.count
  taken : results.take (min k store.count) = (front ++ [kept]).map (resultOf score)
  first : (front ++ [last]).Perm (store.records.take k)
  descending : Descending score (front ++ [last])
  others : (kept :: left).Perm (last :: store.records.drop k)
  best : ∀ record ∈ left, score record ≤ score kept

variable {store : VectorStore R} {k : ℕ} {results : List (SearchResult S)}

theorem exists_search (negInfinity : S) (score : VectorRecord R → S) (hcount : store.count ≠ 0)
    (hk : k ≠ 0) (hresults : k ≤ results.length) :
    ∃ found front last kept left,
      knnSearch negInfinity score store k results = some (min k store.count, found) ∧
        Search score store k found front last kept left := by
  let effectiveK := min k store.count
  let cleared := results.map fun result ↦ { result with score := negInfinity }
  have htake : (store.records.take k).length = effectiveK := length_take
  have hcleared : (store.records.take k).length ≤ cleared.length := by
    rw [htake, length_map]
    exact (min_le_left k store.count).trans hresults
  obtain ⟨sorted, rest, hfill, hperm, hsorted⟩ := @exists_fill R S _ score effectiveK
    (store.records.take k) [] cleared List.Pairwise.nil (by rw [htake, length_nil, zero_add])
    hcleared
  have hlength : sorted.length = effectiveK := hperm.length_eq.trans htake
  have hne : sorted ≠ [] := by
    intro hnil
    rw [hnil, length_nil] at hlength
    omega
  obtain ⟨front, last, hsplit⟩ : ∃ front last, sorted = front ++ [last] :=
    ⟨sorted.dropLast, sorted.getLast hne, (dropLast_append_getLast hne).symm⟩
  subst hsplit
  have hfront : front.length + 1 = effectiveK := by
    rwa [length_append, length_singleton] at hlength
  obtain ⟨left, hothers, hbest⟩ := @exists_keptLast _ _ _ score last (store.records.drop k)
  refine ⟨front.map (resultOf score) ++
    resultOf score (keptLast score last (store.records.drop k)) :: rest, front, last,
    keptLast score last (store.records.drop k), left, ?_, hfront, ?_, hperm, hsorted, hothers, hbest⟩
  · have hfilled : ((store.records.take k).map (resultOf score)).foldlM (offer effectiveK)
        (0, cleared) = some (effectiveK, front.map (resultOf score) ++ resultOf score last :: rest) := by
      refine hfill.trans ?_
      rw [htake, length_nil, zero_add, map_append, append_assoc]
      rfl
    have hrecords : store.records.map (resultOf score) =
        (store.records.take k).map (resultOf score) ++
          (store.records.drop k).map (resultOf score) := by
      rw [← map_append, take_append_drop]
    rw [knnSearch, if_neg hcount]
    simp only [hrecords, foldlM_append, Option.bind_eq_bind]
    rw [hfilled, Option.bind_some, foldlM_full hfront]
    rfl
  · have hall : front.map (resultOf score) ++
        resultOf score (keptLast score last (store.records.drop k)) :: rest =
          (front ++ [keptLast score last (store.records.drop k)]).map (resultOf score) ++ rest := by
      rw [map_append, append_assoc]
      rfl
    rw [hall]
    refine take_left' ?_
    rw [length_map, length_append, length_singleton]
    exact hfront

namespace Search

variable {front left : List (VectorRecord R)} {last kept : VectorRecord R}
  (hsearch : Search score store k results front last kept left)

include hsearch

/-- How many of the first records a record exceeds. -/
theorem countP_first (record : VectorRecord R) :
    (store.records.take k).countP (fun first ↦ score first < score record) =
      front.countP (fun first ↦ score first < score record) +
        [last].countP fun first ↦ score first < score record := by
  rw [← hsearch.first.countP_eq, countP_append]

theorem ranks_of_sorted (hsorted : ∀ first ∈ front, score kept ≤ score first) :
    Ranks score store k (some (min k store.count, results)) := by
  have hdescending : Descending score (front ++ [kept]) :=
    Descending.concat (List.pairwise_append.mp hsearch.descending).1 hsorted
  have hscores : (results.take (min k store.count)).map SearchResult.score =
      (front ++ [kept]).map score := by
    rw [hsearch.taken, map_map]
    rfl
  refine ⟨results, rfl, ?_, front ++ [kept], left, ?_, ?_, hscores, ?_⟩
  · rw [hscores, pairwise_map]
    exact hdescending
  · calc
      (front ++ [kept] ++ left).Perm (front ++ (last :: store.records.drop k)) := by
        rw [append_assoc]
        exact hsearch.others.append_left front
      _ = front ++ [last] ++ store.records.drop k := by rw [append_assoc, singleton_append]
      List.Perm _ (store.records.take k ++ store.records.drop k) := hsearch.first.append_right _
      _ = store.records := take_append_drop k store.records
  · rw [length_append, length_singleton, hsearch.length]
  · intro record hrecord best hbest
    cases List.mem_append.mp hbest with
    | inl hfront => exact (hsearch.best record hrecord).trans (hsorted best hfront)
    | inr hlast => exact List.mem_singleton.mp hlast ▸ hsearch.best record hrecord

/-- The replaced last result is in its place exactly when no record after the first ones exceeds
two of them. -/
theorem sorted_iff : (∀ first ∈ front, score kept ≤ score first) ↔
    ∀ record ∈ store.records.drop k,
      (store.records.take k).countP (fun first ↦ score first < score record) ≤ 1 := by
  constructor
  · intro hsorted record hrecord
    have hkept : score record ≤ score kept := by
      cases List.mem_cons.mp (hsearch.others.mem_iff.mpr (mem_cons_of_mem last hrecord)) with
      | inl hsame => exact le_of_eq (congrArg score hsame)
      | inr hleft => exact hsearch.best record hleft
    have hnone : front.countP (fun first ↦ score first < score record) = 0 := by
      rw [countP_eq_zero]
      intro first hfirst
      rw [decide_eq_true_eq, not_lt]
      exact hkept.trans (hsorted first hfirst)
    rw [hsearch.countP_first, hnone, zero_add]
    exact countP_le_length
  · intro hcount first hfirst
    cases List.mem_cons.mp (hsearch.others.mem_iff.mp mem_cons_self) with
    | inl hsame => exact hsame ▸ hsearch.descending.le_of_concat first hfirst
    | inr hlater =>
      by_contra hnot
      have hbelow : score first < score kept := not_le.mp hnot
      have hlast : score last < score kept :=
        (hsearch.descending.le_of_concat first hfirst).trans_lt hbelow
      have hfront : 0 < front.countP fun first ↦ score first < score kept :=
        List.countP_pos_iff.mpr ⟨first, hfirst, decide_eq_true hbelow⟩
      have hend : [last].countP (fun first ↦ score first < score kept) = 1 := by
        rw [countP_singleton, decide_eq_true hlast]
        rfl
      have hone := hcount kept hlater
      rw [hsearch.countP_first, hend] at hone
      omega

theorem sorted_of_ranks {outcome : Option (ℕ × List (SearchResult S))}
    (houtcome : outcome = some (min k store.count, results)) (hranks : Ranks score store k outcome) :
    ∀ first ∈ front, score kept ≤ score first := by
  obtain ⟨results', hsame, hpairwise, -⟩ := hranks
  rw [houtcome] at hsame
  cases hsame
  rw [hsearch.taken, map_map, pairwise_map] at hpairwise
  exact Descending.le_of_concat hpairwise

end Search

/-- **The search ranks correctly** exactly when its records come in an order in which no record
after the first `k` exceeds two of these. -/
theorem knnSearch_ranks_iff (negInfinity : S) (score : VectorRecord R → S) (store : VectorStore R)
    (k : ℕ) (results : List (SearchResult S)) (hresults : k ≤ results.length) :
    Ranks score store k (knnSearch negInfinity score store k results) ↔ Rankable score store k := by
  by_cases hcount : store.count = 0
  · have hrecords : store.records = [] := eq_nil_of_length_eq_zero hcount
    have hnone : min k store.count = 0 := by rw [hcount, Nat.min_zero]
    rw [knnSearch, if_pos hcount, Ranks, Rankable, hrecords, hnone]
    refine iff_of_true ⟨results, rfl, List.Pairwise.nil, [], [], List.Perm.refl _, rfl, rfl, ?_⟩
      ⟨fun _ ↦ hcount, ?_⟩
    · exact fun _ hrecord ↦ absurd hrecord not_mem_nil
    · rw [drop_nil]
      exact fun _ hrecord ↦ absurd hrecord not_mem_nil
  · by_cases hk : k = 0
    · have hpanic : knnSearch negInfinity score store k results = none := by
        obtain ⟨record, records, hrecords⟩ := exists_cons_of_length_pos (Nat.pos_of_ne_zero hcount)
        rw [knnSearch, if_neg hcount, hk, Nat.zero_min, hrecords, map_cons]
        rfl
      rw [hpanic]
      refine iff_of_false ?_ fun hrankable ↦ hcount (hrankable.1 hk)
      rintro ⟨_, hsome, -⟩
      exact nomatch hsome
    · obtain ⟨found, front, last, kept, left, hrun, hsearch⟩ :=
        exists_search negInfinity score hcount hk hresults
      rw [hrun]
      constructor
      · intro hranks
        exact ⟨fun hzero ↦ absurd hzero hk,
          hsearch.sorted_iff.mp (hsearch.sorted_of_ranks rfl hranks)⟩
      · intro hrankable
        exact hsearch.ranks_of_sorted (hsearch.sorted_iff.mpr hrankable.2)

/-- A store of zero vectors. -/
def storeOf (ids : List UInt64) (hfits : ids.length ≤ maxVectors) : VectorStore ℚ :=
  ⟨ids.map fun id ↦ ⟨id, 0⟩, by rwa [length_map]⟩

def scoreById (record : VectorRecord ℚ) : ℕ := record.id.toNat

/-- The last of three records exceeds one of the first two. -/
def oneExceeded : VectorStore ℚ := storeOf [3, 1, 2] (by norm_num [maxVectors])

theorem knnSearch_ranks_oneExceeded : Ranks scoreById oneExceeded 2
    (knnSearch 0 scoreById oneExceeded 2 [⟨0, 0⟩, ⟨0, 0⟩]) :=
  (knnSearch_ranks_iff 0 scoreById oneExceeded 2 [⟨0, 0⟩, ⟨0, 0⟩] (by decide)).mpr
    ⟨by decide, by decide⟩

/-- The last of three records exceeds the first two and ends behind one of them. -/
def bothExceeded : VectorStore ℚ := storeOf [1, 2, 3] (by norm_num [maxVectors])

theorem not_knnSearch_ranks : ¬ ∀ (store : VectorStore ℚ) (k : ℕ) (results : List (SearchResult ℕ)),
    k ≤ results.length → Ranks scoreById store k (knnSearch 0 scoreById store k results) := by
  intro hall
  obtain ⟨results, hrun, hpairwise, -⟩ := hall bothExceeded 2 [⟨0, 0⟩, ⟨0, 0⟩] le_rfl
  have hunsorted : knnSearch 0 scoreById bothExceeded 2 [⟨0, 0⟩, ⟨0, 0⟩] =
      some (2, [⟨2, 2⟩, ⟨3, 3⟩]) := by decide
  rw [hunsorted] at hrun
  cases hrun
  revert hpairwise
  decide

end VectorStore

end SoulSystem.Storage
