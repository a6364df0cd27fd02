import SoulSystem.Scirust.Solvers.MedoidClustering

/-!
# The objective of a partition

A partition is judged by its number of clusters, then by the sum of the distances to the medoids,
and then by its canonical assignment.  None of these depends on the colours that name the clusters,
and the program computes each of them.
-/

namespace SoulSystem.Scirust.Solvers

open Library FirstOccurrence Labelling List

/-! ## Partitions -/

section Partitions

variable {n : ℕ} {α β : Type} [DecidableEq α] [DecidableEq β] (distance : Fin n → Fin n → ℚ)
  (diameter : ℚ)

/-- Points of one cluster are not further apart than the diameter. -/
def Feasible (c : Fin n → α) : Prop := ∀ i j, c i = c j → distance i j ≤ diameter

/-- The sum of the distances of some points to a point. -/
def spread (s : Finset (Fin n)) (m : Fin n) : ℚ := ∑ p ∈ s, distance p m

/-- The smallest sum of the distances to a point of a set. -/
def medoidCost (s : Finset (Fin n)) : ℚ :=
  if hs : s.Nonempty then s.inf' hs (spread distance s) else 0

/-- A point of a set that has the smallest sum of distances, and the first one of these. -/
structure IsMedoid (s : Finset (Fin n)) (m : Fin n) : Prop where
  mem : m ∈ s
  le : ∀ q ∈ s, spread distance s m ≤ spread distance s q
  first : ∀ q ∈ s, spread distance s q = spread distance s m → m ≤ q

/-- The sum of the distances of all points to the medoids of their clusters. -/
def totalCost (c : Fin n → α) : ℚ := ∑ s ∈ clusters c, medoidCost distance s

/-- The number of clusters, the cost and the canonical assignment, of which the first that differs
decides. -/
abbrev Objective := ℕ ×ₗ ℚ ×ₗ List ℕ

def objective (c : Fin n → α) : Objective :=
  toLex ((clusters c).card, toLex (totalCost distance c, numbered (List.ofFn c)))

variable {distance diameter}

omit [DecidableEq α] [DecidableEq β] in
theorem Feasible.congr {c : Fin n → α} {c' : Fin n → β} (hsame : Same c c')
    (hc : Feasible distance diameter c) : Feasible distance diameter c' :=
  fun i j heq ↦ hc i j ((hsame i j).mpr heq)

theorem totalCost_congr {c : Fin n → α} {c' : Fin n → β} (hsame : Same c c') :
    totalCost distance c = totalCost distance c' := by
  rw [totalCost, totalCost, clusters_congr hsame]

/-- **The objective does not depend on the colours.** -/
theorem objective_congr {c : Fin n → α} {c' : Fin n → β} (hsame : Same c c') :
    objective distance c = objective distance c' := by
  rw [objective, objective, clusters_congr hsame, totalCost_congr hsame, numbered_congr hsame]

/-- Canonical assignments of equal objectives are equal. -/
theorem eq_of_objective_eq {c c' : Fin n → α}
    (heq : objective distance c = objective distance c') :
    numbered (List.ofFn c) = numbered (List.ofFn c') ∧
      totalCost distance c = totalCost distance c' := by
  have hpair := Prod.mk.inj (toLex.injective (Prod.mk.inj (toLex.injective heq)).2)
  exact ⟨hpair.2, hpair.1⟩

theorem medoidCost_empty : medoidCost distance ∅ = 0 := dif_neg Finset.not_nonempty_empty

theorem IsMedoid.cost_eq {s : Finset (Fin n)} {m : Fin n} (hm : IsMedoid distance s m) :
    medoidCost distance s = spread distance s m := by
  rw [medoidCost, dif_pos ⟨m, hm.mem⟩]
  exact le_antisymm (Finset.inf'_le _ hm.mem) (Finset.le_inf' _ _ hm.le)

end Partitions

/-! ## Clusters -/

section Clusters

variable {n : ℕ} {distance : Fin n → Fin n → ℚ}

/-- A minimum that is replaced only by something smaller is the first one. -/
theorem foldl_first_min {α : Type} (f : α → ℚ) (first : α) (rest : List α) :
    ∃ best before after, rest.foldl (fun best a ↦ if f a < best.2 then (a, f a) else best)
        (first, f first) = (best, f best) ∧ first :: rest = before ++ best :: after ∧
      (∀ a ∈ before, f best < f a) ∧ ∀ a ∈ after, f best ≤ f a := by
  induction rest using List.reverseRecOn with
  | nil => exact ⟨first, [], [], rfl, rfl, fun _ h ↦ absurd h not_mem_nil,
      fun _ h ↦ absurd h not_mem_nil⟩
  | append_singleton rest a ih =>
    obtain ⟨best, before, after, hfold, hsplit, hbefore, hafter⟩ := ih
    rw [foldl_append, hfold, foldl_cons, foldl_nil, ← cons_append, hsplit]
    by_cases hlt : f a < f best
    · refine ⟨a, before ++ best :: after, [], if_pos hlt, rfl, ?_,
        fun _ h ↦ absurd h not_mem_nil⟩
      intro b hb
      rcases List.mem_append.mp hb with hb | hb
      · exact hlt.trans (hbefore b hb)
      · rcases List.mem_cons.mp hb with hb | hb
        · rwa [hb]
        · exact hlt.trans_le (hafter b hb)
    · refine ⟨best, before, after ++ [a], if_neg hlt, by rw [append_assoc]; rfl, hbefore, ?_⟩
      intro b hb
      rcases List.mem_append.mp hb with hb | hb
      · exact hafter b hb
      · rw [List.mem_singleton.mp hb]
        exact not_lt.mp hlt

/-- **The medoid** of a cluster whose members are in ascending order. -/
theorem clusterMedoidCost_spec {first : Fin n} {rest : List (Fin n)}
    (hsorted : (first :: rest).Pairwise (· < ·)) :
    IsMedoid distance (first :: rest).toFinset (clusterMedoidCost distance first rest).1 ∧
      (clusterMedoidCost distance first rest).2 = medoidCost distance (first :: rest).toFinset := by
  have hsum : ∀ m, sumTo distance (first :: rest) m = spread distance (first :: rest).toFinset m :=
    fun m ↦ (sum_toFinset _ (hsorted.imp ne_of_lt)).symm
  obtain ⟨best, before, after, hfold, hsplit, hbefore, hafter⟩ :=
    foldl_first_min (sumTo distance (first :: rest)) first rest
  have hcases : ∀ q ∈ (first :: rest).toFinset, q ∈ before ∨ q = best ∨ q ∈ after := by
    intro q hq
    rwa [mem_toFinset, hsplit, mem_append, mem_cons] at hq
  have hmedoid : IsMedoid distance (first :: rest).toFinset best := by
    constructor
    · rw [mem_toFinset, hsplit]
      exact mem_append_right _ mem_cons_self
    · intro q hq
      rw [← hsum, ← hsum]
      rcases hcases q hq with hq | hq | hq
      · exact (hbefore q hq).le
      · rw [hq]
      · exact hafter q hq
    · intro q hq heq
      rw [← hsum, ← hsum] at heq
      rcases hcases q hq with hq | hq | hq
      · exact absurd heq (hbefore q hq).ne'
      · exact hq.ge
      · rw [hsplit] at hsorted
        exact (rel_of_pairwise_cons (List.pairwise_append.mp hsorted).2.1 hq).le
  have hvalue : clusterMedoidCost distance first rest =
      (best, sumTo distance (first :: rest) best) := hfold
  rw [hvalue]
  exact ⟨hmedoid, by rw [hmedoid.cost_eq, hsum]⟩

theorem sorted_filter (p : Fin n → Bool) : ((List.finRange n).filter p).Pairwise (· < ·) :=
  (pairwise_lt_finRange n).filter p

theorem toFinset_members (colors : Colors n) (label : ℕ) :
    (members colors label).toFinset = ({p | colors p = some label} : Finset (Fin n)) := by
  ext p
  simp [members]

/-- The part of a label in the cost. -/
theorem partitionCost_eq_sum (colors : Colors n) (labelBound : ℕ) :
    partitionCost distance colors labelBound =
      ∑ label ∈ Finset.range (labelBound + 1), medoidCost distance {p | colors p = some label} := by
  rw [partitionCost]
  generalize labelBound + 1 = bound
  induction bound with
  | zero => rfl
  | succ bound ih =>
    rw [range_succ, foldl_append, ih, Finset.sum_range_succ, foldl_cons,
      foldl_nil, ← toFinset_members colors bound]
    have hsorted : (members colors bound).Pairwise (· < ·) := sorted_filter _
    cases hmembers : members colors bound with
    | nil => rw [toFinset_nil, medoidCost_empty, add_zero]
    | cons first rest =>
      rw [hmembers] at hsorted
      exact congrArg _ (clusterMedoidCost_spec hsorted).2

/-- **The cost** of a complete partition whose labels the bound reaches. -/
theorem partitionCost_eq {colors : Colors n} {labelBound : ℕ}
    (hlabels : ∀ i, ∃ label ≤ labelBound, colors i = some label) :
    partitionCost distance colors labelBound = totalCost distance colors := by
  have himage : Finset.univ.image colors ⊆ (Finset.range (labelBound + 1)).image some := by
    intro k hk
    obtain ⟨i, -, rfl⟩ := Finset.mem_image.mp hk
    obtain ⟨label, hle, hlabel⟩ := hlabels i
    rw [hlabel]
    exact Finset.mem_image_of_mem _ (Finset.mem_range.mpr (Nat.lt_succ_of_le hle))
  have hunused : ∀ k ∈ (Finset.range (labelBound + 1)).image some, k ∉ Finset.univ.image colors →
      medoidCost distance {p | colors p = k} = 0 := by
    intro k _ hk
    have hempty : ({p | colors p = k} : Finset (Fin n)) = ∅ := by
      rw [Finset.filter_eq_empty_iff]
      intro i hi heq
      exact hk (Finset.mem_image.mpr ⟨i, hi, heq⟩)
    rw [hempty, medoidCost_empty]
  rw [partitionCost_eq_sum, totalCost, sum_clusters, Finset.sum_subset himage hunused,
    Finset.sum_image fun a _ b _ h ↦ Option.some_inj.mp h]

theorem card_firsts {α : Type} [DecidableEq α] (c : Fin n → α) :
    (firsts (List.ofFn c)).length = (clusters c).card := by
  have hset : (firsts (List.ofFn c)).toFinset = Finset.univ.image c := by
    ext k
    rw [mem_toFinset, mem_firsts, mem_ofFn', Finset.mem_image]
    simp
  rw [card_clusters, ← hset, toFinset_card_of_nodup (nodup_firsts _)]

theorem countUsed_eq (colors : Colors n) : countUsed colors = (clusters colors).card :=
  card_firsts colors

end Clusters

/-! ## Canonical labels -/

section Labels

variable {n : ℕ} {α : Type} [DecidableEq α]

theorem find_zipIdx (keys : List α) (color : α) (k : ℕ) :
    (keys.zipIdx k).find? (fun entry ↦ entry.1 = color) =
      if color ∈ keys then some (color, k + keys.idxOf color) else none := by
  induction keys generalizing k with
  | nil => rfl
  | cons key keys ih =>
    rw [zipIdx_cons, find?_cons, idxOf_cons, ih]
    by_cases heq : key = color
    · rw [heq, beq_self_eq_true, if_pos mem_cons_self]
      simp
    · have hmem : color ∈ key :: keys ↔ color ∈ keys := by
        rw [mem_cons, or_iff_right (Ne.symm heq)]
      simp only [heq, decide_false, beq_eq_false_iff_ne.mpr heq, hmem, cond_false]
      split_ifs
      · rw [Nat.add_assoc, Nat.add_comm 1]
      · rfl

theorem canonicalFrom_eq (keys colors : List α) :
    canonicalFrom keys.zipIdx keys.length colors =
      colors.map fun color ↦ (colors.foldl note keys).idxOf color := by
  induction colors generalizing keys with
  | nil => rfl
  | cons color colors ih =>
    rw [canonicalFrom, find_zipIdx, map_cons, foldl_cons]
    by_cases hmem : color ∈ keys
    · have hnote : note keys color = keys := if_pos hmem
      rw [if_pos hmem, hnote, Nat.zero_add, ih,
        idxOf_eq_of_append (prefix_foldl_note colors keys) hmem]
    · have hnote : note keys color = keys ++ [color] := if_neg hmem
      have hzip : keys.zipIdx ++ [(color, keys.length)] = (keys ++ [color]).zipIdx := by
        rw [zipIdx_append, Nat.zero_add]
        rfl
      have hlength : keys.length + 1 = (keys ++ [color]).length := by
        rw [length_append, length_singleton]
      have hindex : (colors.foldl note (keys ++ [color])).idxOf color = keys.length := by
        rw [idxOf_eq_of_append (prefix_foldl_note colors _)
          (mem_append_right keys (mem_singleton_self color)),
          idxOf_append_of_notMem hmem, idxOf_cons_self, Nat.add_zero]
      rw [if_neg hmem, hnote, hindex]
      change keys.length ::
        canonicalFrom (keys.zipIdx ++ [(color, keys.length)]) (keys.length + 1) colors = _
      rw [hzip, hlength, ih]

/-- **Canonical labels** are numbers by first occurrence. -/
theorem canonicalLabels_eq (colors : Colors n) :
    canonicalLabels colors = numbered (List.ofFn colors) :=
  canonicalFrom_eq [] (List.ofFn colors)

/-- The objective that a candidate claims. -/
def Candidate.objective (a : Candidate n) : Objective :=
  toLex (a.count, toLex (a.cost, numbered (List.ofFn a.colors)))

/-- **A candidate beats another** if its objective is smaller. -/
theorem beats_iff (a b : Candidate n) : a.beats b = true ↔ a.objective < b.objective := by
  rw [Candidate.objective, Candidate.objective, Prod.Lex.toLex_lt_toLex, Prod.Lex.toLex_lt_toLex,
    Candidate.beats, canonicalLabels_eq, canonicalLabels_eq]
  by_cases hcount : a.count = b.count
  · rw [if_neg (not_not_intro hcount), hcount]
    rcases lt_trichotomy a.cost b.cost with hlt | heq | hlt
    · simp [compare_lt_iff_lt.mpr hlt, hlt]
    · simp [heq]
    · simp [compare_gt_iff_gt.mpr hlt, hlt.not_gt, hlt.ne']
  · rw [if_pos hcount, decide_eq_true_iff, or_iff_left fun h ↦ hcount h.1]

end Labels

end SoulSystem.Scirust.Solvers
