import SoulSystem.Library.Outcome
import SoulSystem.Scirust.Solvers.Search

/-!
# The exact mode

The search starts from a partition by first fit and is in charge of all partitions.  Unless it runs
out of nodes, its last incumbent is the partition with the smallest objective, and the result
reports this partition, its count and its cost, and the medoid of each cluster.
-/

namespace SoulSystem.Scirust.Solvers

open Library FirstOccurrence Labelling List Function

/-! ## First fit -/

section FirstFit

variable {n : ℕ} {distance : Fin n → Fin n → ℚ} {incompatible : Fin n → Fin n → Bool}
  {p : Colors n} {used uncolored : ℕ}

theorem Partial.card_clusters (hp : Partial incompatible p used 0) : (clusters p).card = used := by
  apply le_antisymm
  · have hsub : Finset.univ.image p ⊆ (Finset.range used).image some := by
      intro k hk
      obtain ⟨i, -, rfl⟩ := Finset.mem_image.mp hk
      obtain ⟨a, ha⟩ := Option.ne_none_iff_exists'.mp (hp.complete i)
      rw [ha]
      exact Finset.mem_image_of_mem _ (Finset.mem_range.mpr ((hp.contiguous a).mp ⟨i, ha⟩))
    rw [Labelling.card_clusters]
    exact (Finset.card_le_card hsub).trans (Finset.card_image_le.trans (Finset.card_range used).le)
  · exact Extends.used_le (fun i j _ _ ↦ Iff.rfl) hp.contiguous

/-- First fit colours the vertices one after the other. -/
theorem partial_foldl_firstFit (hsymm : ∀ i j, incompatible i j = incompatible j i)
    (hself : ∀ i, incompatible i i = false) (vertices : List (Fin n)) {state : Colors n × ℕ}
    (hsorted : vertices.Pairwise (· < ·)) (hnone : ∀ v ∈ vertices, state.1 v = none)
    (hbefore : ∀ i, state.1 i ≠ none → ∀ v ∈ vertices, i < v)
    (hp : Partial incompatible state.1 state.2 (uncolored + vertices.length)) :
    let final := vertices.foldl (fun state vertex ↦
      let chosen := (List.range state.2).find? fun color ↦
        ((members state.1 color).filter fun other ↦ other < vertex).all fun other ↦
          !incompatible vertex other
      match chosen with
      | some color => (update state.1 vertex (some color), state.2)
      | none => (update state.1 vertex (some state.2), state.2 + 1)) state
    Partial incompatible final.1 final.2 uncolored := by
  induction vertices generalizing state with
  | nil => exact hp
  | cons vertex vertices ih =>
    obtain ⟨hvertex, hnone⟩ := List.forall_mem_cons.mp hnone
    obtain ⟨hfirst, hsorted⟩ := List.pairwise_cons.mp hsorted
    rw [length_cons, ← Nat.add_assoc] at hp
    have hnext : ∀ color v, v ∈ vertices →
        update state.1 vertex (some color) v = none := by
      intro color v hv
      rw [update_of_ne (hfirst v hv).ne', hnone v hv]
    have hordered : ∀ color i, update state.1 vertex (some color) i ≠ none →
        ∀ v ∈ vertices, i < v := by
      intro color i hi v hv
      by_cases hiv : i = vertex
      · rw [hiv]
        exact hfirst v hv
      · rw [update_of_ne hiv] at hi
        exact hbefore i hi v (mem_cons_of_mem _ hv)
    rw [foldl_cons]
    cases hchosen : (List.range state.2).find? fun color ↦
      ((members state.1 color).filter fun other ↦ other < vertex).all fun other ↦
        !incompatible vertex other with
    | some color =>
      have hlt := List.mem_range.mp (mem_of_find?_eq_some hchosen)
      have hfeasible : feasible incompatible state.1 vertex color = true := by
        refine feasible_iff.mpr fun j hj ↦ ?_
        have hjv := hbefore j (by rw [hj]; exact Option.some_ne_none color) vertex
          mem_cons_self
        have hall := find?_some hchosen
        rw [all_eq_true] at hall
        have hmem : j ∈ (members state.1 color).filter fun other ↦ other < vertex :=
          List.mem_filter.mpr ⟨List.mem_filter.mpr ⟨mem_finRange j, decide_eq_true hj⟩,
            decide_eq_true hjv⟩
        exact Bool.not_eq_true' _ ▸ hall j hmem
      have hupdate := hp.update hsymm hself hvertex hlt.le hfeasible
      rw [max_eq_left (Nat.succ_le_of_lt hlt)] at hupdate
      exact ih hsorted (hnext color) (hordered color) hupdate
    | none =>
      have hfresh : feasible incompatible state.1 vertex state.2 = true :=
        feasible_iff.mpr fun j hj ↦
          absurd ((hp.contiguous state.2).mp ⟨j, hj⟩) (lt_irrefl state.2)
      have hupdate := hp.update hsymm hself hvertex le_rfl hfresh
      rw [max_eq_right (Nat.le_succ state.2)] at hupdate
      exact ih hsorted (hnext state.2) (hordered state.2) hupdate

/-- **First fit** is a partition with its true count and cost. -/
theorem honest_greedyFirstFit (hsymm : ∀ i j, incompatible i j = incompatible j i)
    (hself : ∀ i, incompatible i i = false) :
    Honest distance incompatible (greedyFirstFit distance incompatible) := by
  have hp : Partial incompatible (firstFit incompatible).1 (firstFit incompatible).2 0 := by
    refine partial_foldl_firstFit hsymm hself (List.finRange n) (pairwise_lt_finRange n)
      (fun _ _ ↦ rfl) (fun _ h ↦ absurd rfl h) ?_
    rw [length_finRange, Nat.zero_add]
    exact partial_none
  exact {
    complete := hp.complete
    proper := fun i j ↦ hp.proper i j (hp.complete i)
    count := hp.card_clusters.symm
    cost := partitionCost_eq fun i ↦ by
      obtain ⟨label, hlabel⟩ := Option.ne_none_iff_exists'.mp (hp.complete i)
      exact ⟨label, ((hp.contiguous label).mp ⟨i, hlabel⟩).le, hlabel⟩ }

end FirstFit

/-! ## The number of nodes -/

section Nodes

variable {n : ℕ} {distance : Fin n → Fin n → ℚ} {incompatible : Fin n → Fin n → Bool}
  {nodeBudget bound : ℕ}

theorem count_le_of_objective_le {a b : Candidate n} (hle : a.objective ≤ b.objective) :
    a.count ≤ b.count := by
  rcases Prod.Lex.toLex_le_toLex.mp hle with hlt | ⟨heq, -⟩
  · exact hlt.le
  · exact heq.le

theorem explored_foldl_le {visit : Search n → ℕ → Search n} {nodes : ℕ} (colors : List ℕ)
    (hvisit : ∀ color ∈ colors, ∀ s : Search n, s.incumbent.count ≤ bound →
      (visit s color).exploredNodes ≤ s.exploredNodes + nodes ∧
        (visit s color).incumbent.count ≤ bound) {s : Search n} (hs : s.incumbent.count ≤ bound) :
    (colors.foldl visit s).exploredNodes ≤ s.exploredNodes + colors.length * nodes ∧
      (colors.foldl visit s).incumbent.count ≤ bound := by
  induction colors generalizing s with
  | nil => exact ⟨Nat.le_add_right _ _, hs⟩
  | cons color colors ih =>
    rw [forall_mem_cons] at hvisit
    obtain ⟨hfirst, hcount⟩ := hvisit.1 s hs
    obtain ⟨hrest, hlast⟩ := ih hvisit.2 hcount
    rw [foldl_cons, length_cons, Nat.succ_mul]
    exact ⟨by omega, hlast⟩

variable [NeZero n] {degrees : Fin n → ℕ}

/-- **A node has at most as many children as the incumbent has clusters.** -/
theorem explored_branch_le (hsymm : ∀ i j, incompatible i j = incompatible j i)
    (hself : ∀ i, incompatible i i = false) (uncolored : ℕ) {p : Colors n} {used : ℕ}
    (hp : Partial incompatible p used uncolored) {s : Search n}
    (hs : s.incumbent.count ≤ bound) :
    (branch distance incompatible degrees nodeBudget uncolored p s).exploredNodes ≤
      s.exploredNodes + ∑ i ∈ Finset.range uncolored, bound ^ i := by
  induction uncolored generalizing p used s with
  | zero =>
    rw [branch, Finset.range_zero, Finset.sum_empty, Nat.add_zero]
    split_ifs
    · exact le_rfl
    · rw [visitLeaf]
      split_ifs
      · exact le_rfl
      · exact le_rfl
  | succ uncolored ih =>
    have hvertex := select_uncolored hp degrees
    have hsum : ∑ i ∈ Finset.range (uncolored + 1), bound ^ i =
        bound * ∑ i ∈ Finset.range uncolored, bound ^ i + 1 := geom_sum_succ
    have hchild : ∀ color ≤ used,
        feasible incompatible p (select incompatible degrees p) color = true → ∀ s : Search n,
        s.incumbent.count ≤ bound →
        (branch distance incompatible degrees nodeBudget uncolored
          (update p (select incompatible degrees p) (some color)) s).exploredNodes ≤
            s.exploredNodes + ∑ i ∈ Finset.range uncolored, bound ^ i ∧
        (branch distance incompatible degrees nodeBudget uncolored
          (update p (select incompatible degrees p) (some color)) s).incumbent.count ≤
            bound := by
      intro color hcolor hfeasible s hs
      have hupdate := hp.update hsymm hself hvertex hcolor hfeasible
      have hstretch : Stretch distance incompatible nodeBudget _ s
          (branch distance incompatible degrees nodeBudget uncolored
            (update p (select incompatible degrees p) (some color)) s) :=
        stretch_branch hsymm hself uncolored hupdate s
      exact ⟨ih hupdate hs, (count_le_of_objective_le hstretch.covers.le).trans hs⟩
    rw [branch, hp.usedColors_eq, hsum]
    generalize select incompatible degrees p = vertex at hvertex hchild ⊢
    by_cases hexhausted : s.exhaustedBudget = true
    · rw [if_pos hexhausted]
      exact Nat.le_add_right _ _
    rw [if_neg hexhausted]
    by_cases hbudget : nodeBudget ≤ s.exploredNodes
    · rw [if_pos hbudget]
      exact Nat.le_add_right _ _
    rw [if_neg hbudget]
    by_cases hprune : s.incumbent.count < used
    · rw [if_pos hprune]
      change s.exploredNodes + 1 ≤ _
      omega
    rw [if_neg hprune]
    have hcolors : min used s.incumbent.count = used := min_eq_left (not_lt.mp hprune)
    rw [hcolors]
    have hvisit : ∀ color ∈ List.range used, ∀ s : Search n, s.incumbent.count ≤ bound →
        (if s.exhaustedBudget then s
          else if feasible incompatible p vertex color then
            branch distance incompatible degrees nodeBudget uncolored
              (update p vertex (some color)) s
          else s).exploredNodes ≤ s.exploredNodes + ∑ i ∈ Finset.range uncolored, bound ^ i ∧
        (if s.exhaustedBudget then s
          else if feasible incompatible p vertex color then
            branch distance incompatible degrees nodeBudget uncolored
              (update p vertex (some color)) s
          else s).incumbent.count ≤ bound := by
      intro color hcolor s hs
      split_ifs with _ hfeasible
      · exact ⟨Nat.le_add_right _ _, hs⟩
      · exact hchild color (List.mem_range.mp hcolor).le hfeasible s hs
      · exact ⟨Nat.le_add_right _ _, hs⟩
    have hloop := explored_foldl_le (List.range used) hvisit
      (s := { s with exploredNodes := s.exploredNodes + 1 }) hs
    rw [length_range] at hloop
    generalize (List.range used).foldl _ _ = tried at hloop ⊢
    obtain ⟨hexplored, hcount⟩ := hloop
    change tried.exploredNodes ≤ s.exploredNodes + 1 + _ at hexplored
    have hfew : used * ∑ i ∈ Finset.range uncolored, bound ^ i ≤
        bound * ∑ i ∈ Finset.range uncolored, bound ^ i :=
      Nat.mul_le_mul_right _ ((not_lt.mp hprune).trans hs)
    dsimp only
    split_ifs with _ hmore
    · omega
    · have hfresh : feasible incompatible p vertex used = true :=
        feasible_iff.mpr fun j hj ↦ absurd ((hp.contiguous used).mp ⟨j, hj⟩) (lt_irrefl used)
      have hlast := (hchild used le_rfl hfresh tried hcount).1
      have hroom : (used + 1) * ∑ i ∈ Finset.range uncolored, bound ^ i ≤
          bound * ∑ i ∈ Finset.range uncolored, bound ^ i :=
        Nat.mul_le_mul_right _ ((Nat.succ_le_of_lt hmore).trans hcount)
      rw [Nat.succ_mul] at hroom
      omega
    · change tried.exploredNodes ≤ _
      omega

end Nodes

/-! ## What a result reports -/

section Reports

variable {n : ℕ} (distance : Fin n → Fin n → ℚ)

/-- The canonical assignment of a labelling. -/
def assignment {α : Type} [DecidableEq α] (c : Fin n → α) (i : Fin n) : ℕ :=
  (firsts (List.ofFn c)).idxOf (c i)

theorem ofFn_assignment {α : Type} [DecidableEq α] (c : Fin n → α) :
    List.ofFn (assignment c) = numbered (List.ofFn c) := by
  rw [numbered, map_ofFn]
  rfl

theorem same_assignment {α : Type} [DecidableEq α] (c : Fin n → α) : Same (assignment c) c := by
  intro i j
  have hmem : ∀ i, c i ∈ firsts (List.ofFn c) := fun i ↦
    mem_firsts.mpr ((mem_ofFn' _ _).mpr ⟨i, rfl⟩)
  exact idxOf_inj (hmem i)

/-- The labels are the numbers below the number of clusters. -/
theorem exists_assignment_iff {α : Type} [DecidableEq α] (c : Fin n → α) (label : ℕ) :
    (∃ i, assignment c i = label) ↔ label < (clusters c).card := by
  have hlabels : label ∈ firsts (numbered (List.ofFn c)) ↔ label ∈ numbered (List.ofFn c) :=
    mem_firsts
  rw [firsts_numbered, mem_range, card_firsts, ← ofFn_assignment, mem_ofFn'] at hlabels
  exact hlabels.symm

/-- The medoids of the clusters, in the order of the labels. -/
structure AreMedoids (a : Fin n → ℕ) (medoids : List (Fin n)) : Prop where
  length : medoids.length = (clusters a).card
  isMedoid : ∀ label m, medoids[label]? = some m → IsMedoid distance {p | a p = label} m

/-- **The canonical form** of a complete partition. -/
theorem canonicalize_eq [NeZero n] (colors : Colors n) : ∃ medoids,
    canonicalize distance colors = some (List.ofFn (assignment colors), medoids) ∧
      AreMedoids distance (assignment colors) medoids := by
  have hcard : (clusters (assignment colors)).card = (clusters colors).card := by
    rw [clusters_congr (same_assignment colors)]
  have hpos : 0 < (clusters colors).card :=
    Nat.pos_of_ne_zero fun hzero ↦ by
      have hlt := (exists_assignment_iff colors _).mp ⟨0, rfl⟩
      omega
  have hmax : ((List.ofFn (assignment colors)).max?.map (· + 1)).getD 0 =
      (clusters colors).card := by
    have hlast := (exists_assignment_iff colors ((clusters colors).card - 1)).mpr (by omega)
    have hvalue : (List.ofFn (assignment colors)).max? = some ((clusters colors).card - 1) := by
      rw [max?_eq_some_iff]
      refine ⟨(mem_ofFn' _ _).mpr hlast, fun label hlabel ↦ ?_⟩
      have hlt := (exists_assignment_iff colors label).mp ((mem_ofFn' _ _).mp hlabel)
      omega
    rw [hvalue, Option.map_some, Option.getD_some]
    omega
  have hmembers : ∀ label, (List.finRange n).filter (fun p ↦
      (List.ofFn (assignment colors))[p.val]? = some label) =
        (List.finRange n).filter fun p ↦ assignment colors p = label := by
    intro label
    refine filter_congr fun p _ ↦ ?_
    rw [decide_eq_decide, List.getElem?_ofFn, dif_pos p.isLt, Option.some_inj]
  have hcluster : ∀ label, ∃ m : Fin n, label < (clusters colors).card →
      medoidOf distance ((List.finRange n).filter fun p ↦
        (List.ofFn (assignment colors))[p.val]? = some label) = some m ∧
      IsMedoid distance {p | assignment colors p = label} m := by
    intro label
    by_cases hlabel : label < (clusters colors).card
    · obtain ⟨i, hi⟩ := (exists_assignment_iff colors label).mpr hlabel
      have hsorted := sorted_filter fun p : Fin n ↦ assignment colors p = label
      have hset : ((List.finRange n).filter fun p ↦ assignment colors p = label).toFinset =
          ({p | assignment colors p = label} : Finset (Fin n)) := by
        ext p
        simp
      have hmem : i ∈ (List.finRange n).filter fun p ↦ assignment colors p = label :=
        List.mem_filter.mpr ⟨mem_finRange i, decide_eq_true hi⟩
      rw [hmembers]
      rw [← hset]
      cases hlist : (List.finRange n).filter fun p ↦ assignment colors p = label with
      | nil =>
        rw [hlist] at hmem
        exact absurd hmem not_mem_nil
      | cons first rest =>
        rw [hlist] at hsorted
        exact ⟨_, fun _ ↦ ⟨rfl, (clusterMedoidCost_spec hsorted).1⟩⟩
    · exact ⟨0, fun h ↦ absurd h hlabel⟩
  choose medoid hmedoid using hcluster
  refine ⟨(List.range (clusters colors).card).map medoid, ?_, ?_, ?_⟩
  · have hrange : ∀ label ∈ List.range (clusters colors).card, medoidOf distance
        ((List.finRange n).filter fun p ↦
          (List.ofFn (assignment colors))[p.val]? = some label) = some (medoid label) :=
      fun label hlabel ↦ (hmedoid label (List.mem_range.mp hlabel)).1
    have hall := Outcome.mapM_some hrange
    have hlabels : canonicalLabels colors = List.ofFn (assignment colors) := by
      rw [canonicalLabels_eq, ofFn_assignment]
    rw [canonicalize, hlabels, hmax, hall]
    rfl
  · rw [length_map, length_range, hcard]
  · intro label m hm
    rw [getElem?_map, Option.map_eq_some_iff] at hm
    obtain ⟨index, hindex, rfl⟩ := hm
    obtain ⟨hlt, heq⟩ := List.getElem?_eq_some_iff.mp hindex
    rw [getElem_range] at heq
    rw [length_range, heq] at hlt
    rw [← heq] at hlt ⊢
    exact (hmedoid _ hlt).2

end Reports

/-! ## The result -/

section Result

variable (m : DistanceMatrix) {diameter : ℚ}

theorem incompatible_comm (i j : Fin m.size) :
    incompatible m diameter i j = incompatible m diameter j i := by
  rw [incompatible, incompatible, decide_eq_decide, m.distance_comm i j, ne_comm]

theorem incompatible_self (i : Fin m.size) : incompatible m diameter i i = false :=
  decide_eq_false fun h ↦ h.1 rfl

theorem proper_iff {α : Type} (hdiameter : 0 ≤ diameter) (c : Fin m.size → α) :
    Proper (incompatible m diameter) c ↔ Feasible m.distance diameter c := by
  have hpair : ∀ i j, incompatible m diameter i j = false ↔ m.distance i j ≤ diameter := by
    intro i j
    rw [incompatible, decide_eq_false_iff_not]
    constructor
    · intro hcompatible
      by_cases heq : i = j
      · rw [heq, m.distance_self]
        exact hdiameter
      · exact not_lt.mp fun hlt ↦ hcompatible ⟨heq, hlt⟩
    · exact fun hle h ↦ absurd h.2 (not_lt.mpr hle)
  exact forall₂_congr fun i j ↦ imp_congr_right fun _ ↦ hpair i j

/-- A partition that no feasible partition beats. -/
def Optimal {n : ℕ} (distance : Fin n → Fin n → ℚ) (diameter : ℚ) (a : Fin n → ℕ) : Prop :=
  ∀ c : Fin n → ℕ, Feasible distance diameter c → objective distance a ≤ objective distance c

/-- A result reports a feasible partition in canonical form, its count and its cost, and its
medoids. -/
structure Reports (diameter : ℚ) (r : CertifiedMedoidClusteringResult m.size)
    (a : Fin m.size → ℕ) : Prop where
  assignments : r.assignments = List.ofFn a
  canonical : numbered (List.ofFn a) = List.ofFn a
  feasible : Feasible m.distance diameter a
  count : r.certificate.objectiveClusterCount = (clusters a).card
  cost : r.certificate.objectiveMedoidCost = totalCost m.distance a
  medoids : AreMedoids m.distance a r.medoidIndices

variable (diameter) in
/-- The whole search is in charge of all partitions. -/
theorem stretch_search (mode : CertifiedClusteringMode) :
    Stretch m.distance (incompatible m diameter) (nodeBudget mode)
      (completions m.distance (incompatible m diameter) fun _ ↦ none)
      ⟨0, 0, false, warmStart m diameter mode⟩ (search m diameter mode) :=
  stretch_branch (incompatible_comm m) (incompatible_self m) m.size partial_none _

/-- A search that is not cut short leaves what no feasible partition beats. -/
theorem search_le (hdiameter : 0 ≤ diameter) {mode : CertifiedClusteringMode}
    (hrun : (search m diameter mode).exhaustedBudget = false) (c : Fin m.size → ℕ)
    (hc : Feasible m.distance diameter c) :
    (search m diameter mode).incumbent.objective ≤ objective m.distance c :=
  (stretch_search m diameter mode).covers.leaf_le (Bool.eq_false_iff.mp hrun) _
    ⟨c, (proper_iff m hdiameter c).mpr hc, extends_none c, rfl⟩

/-- A search that is cut short has used up its nodes. -/
theorem exploredNodes_of_exhausted {mode : CertifiedClusteringMode}
    (hcut : (search m diameter mode).exhaustedBudget = true) :
    (search m diameter mode).exploredNodes = nodeBudget mode := by
  have hstretch := stretch_search m diameter mode
  have hwithin := hstretch.within
  rw [Nat.zero_max] at hwithin
  exact le_antisymm hwithin ((hstretch.cut hcut).resolve_left Bool.false_ne_true)

/-- There is a result, which reports the last incumbent. -/
theorem certifiedMedoidClustering_eq (hdiameter : 0 ≤ diameter) (mode : CertifiedClusteringMode)
    (hmode : mode.hasInvalidBudget = false) :
    ∃ medoids, certifiedMedoidClustering m ⟨diameter, mode⟩ = some (.ok
        ⟨List.ofFn (assignment (search m diameter mode).incumbent.colors), medoids,
          certificate m diameter (search m diameter mode)⟩) ∧
      AreMedoids m.distance (assignment (search m diameter mode).incumbent.colors) medoids := by
  obtain ⟨medoids, hcanonicalize, hmedoids⟩ :=
    canonicalize_eq m.distance (search m diameter mode).incumbent.colors
  refine ⟨medoids, ?_, hmedoids⟩
  rw [certifiedMedoidClustering, if_neg (not_lt.mpr hdiameter), hmode, if_neg Bool.false_ne_true]
  change (canonicalize m.distance (search m diameter mode).incumbent.colors >>= _) = _
  rw [hcanonicalize]
  rfl

theorem provenOptimal_certificate (s : Search m.size) :
    (certificate m diameter s).provenOptimal = !s.exhaustedBudget := rfl

theorem objectiveMedoidCost_certificate (s : Search m.size) :
    (certificate m diameter s).objectiveMedoidCost = s.incumbent.cost := rfl

/-- A result reports its last incumbent if its cost is true. -/
theorem reports_of_counted (hdiameter : 0 ≤ diameter) {mode : CertifiedClusteringMode}
    {medoids : List (Fin m.size)}
    (hcounted : Counted (incompatible m diameter) (search m diameter mode).incumbent)
    (hcost : (search m diameter mode).incumbent.cost =
      totalCost m.distance (search m diameter mode).incumbent.colors)
    (hmedoids : AreMedoids m.distance (assignment (search m diameter mode).incumbent.colors)
      medoids) :
    Reports m diameter ⟨List.ofFn (assignment (search m diameter mode).incumbent.colors), medoids,
      certificate m diameter (search m diameter mode)⟩
      (assignment (search m diameter mode).incumbent.colors) where
  assignments := rfl
  canonical := by rw [ofFn_assignment, numbered_numbered]
  feasible := ((proper_iff m hdiameter _).mp hcounted.proper).congr fun i j ↦
    (same_assignment _ i j).symm
  count := by
    rw [clusters_congr (same_assignment _)]
    exact hcounted.count
  cost := by
    rw [totalCost_congr (same_assignment _)]
    exact hcost
  medoids := hmedoids

variable (diameter) in
theorem honest_incumbent_exact :
    Honest m.distance (incompatible m diameter) (search m diameter .exact).incumbent := by
  rcases (stretch_search m diameter .exact).keeps with heq | hhonest
  · rw [heq]
    exact honest_greedyFirstFit (incompatible_comm m) (incompatible_self m)
  · exact hhonest

/-- The objective of a canonical assignment is that of the colours. -/
theorem objective_assignment {a : Candidate m.size}
    (ha : Honest m.distance (incompatible m diameter) a) :
    objective m.distance (assignment a.colors) = a.objective := by
  rw [objective_congr (same_assignment a.colors), ha.objective_eq]

/-- The exact mode has a result, which reports a partition that no feasible partition beats if the
result is marked so. -/
theorem exact_reports (hdiameter : 0 ≤ diameter) : ∃ r a,
    certifiedMedoidClustering m ⟨diameter, .exact⟩ = some (.ok r) ∧ Reports m diameter r a ∧
      (r.certificate.provenOptimal = true → Optimal m.distance diameter a) ∧
      r.certificate = certificate m diameter (search m diameter .exact) := by
  obtain ⟨medoids, hresult, hmedoids⟩ := certifiedMedoidClustering_eq m hdiameter .exact rfl
  have hhonest := honest_incumbent_exact m diameter
  refine ⟨_, _, hresult, reports_of_counted m hdiameter hhonest.toCounted hhonest.cost hmedoids,
    ?_, rfl⟩
  intro hoptimal c hc
  rw [provenOptimal_certificate, Bool.not_eq_true'] at hoptimal
  rw [objective_assignment m hhonest]
  exact search_le m hdiameter hoptimal c hc

/-- Two points at the same place. -/
def samePlace : DistanceMatrix where
  size := 2
  values := [0, 0, 0, 0]
  size_pos := by decide
  length_eq := rfl
  nonneg := by decide +kernel
  diagonal := by decide +kernel
  symmetric := by decide +kernel

end Result

/-! ## A search that is cut short -/

section Exhaustion

variable {n : ℕ} [NeZero n] {distance : Fin n → Fin n → ℚ} {incompatible : Fin n → Fin n → Bool}
  {degrees : Fin n → ℕ} {nodeBudget : ℕ}

/-- **The nodes double** with every vertex that is compatible with all others, once two colours are
in use. -/
theorem two_pow_le_explored (hsymm : ∀ i j, incompatible i j = incompatible j i)
    (hself : ∀ i, incompatible i i = false)
    (htwo : ∀ a, Honest distance incompatible a → 2 ≤ a.count) (uncolored : ℕ) {p : Colors n}
    (hp : Partial incompatible p 2 uncolored)
    (hfree : ∀ v, p v = none → ∀ j, incompatible v j = false) {s : Search n}
    (hs : 2 ≤ s.incumbent.count)
    (hrun : (branch distance incompatible degrees nodeBudget uncolored p s).exhaustedBudget =
      false) :
    s.exploredNodes + 2 ^ uncolored ≤
      (branch distance incompatible degrees nodeBudget uncolored p s).exploredNodes + 1 := by
  induction uncolored generalizing p s with
  | zero =>
    have hmono : Stretch distance incompatible nodeBudget _ s
        (branch distance incompatible degrees nodeBudget 0 p s) :=
      stretch_branch hsymm hself 0 hp s
    have hexplored := hmono.explored
    omega
  | succ uncolored ih =>
    have hvertex := select_uncolored hp degrees
    rw [branch, hp.usedColors_eq] at hrun ⊢
    generalize select incompatible degrees p = vertex at hvertex hrun ⊢
    have hfeasible : ∀ color, feasible incompatible p vertex color = true := fun color ↦
      feasible_iff.mpr fun j _ ↦ hfree vertex hvertex j
    have hupdate : ∀ color ≤ 2, Partial incompatible (update p vertex (some color))
        (max 2 (color + 1)) uncolored :=
      fun color hcolor ↦ hp.update hsymm hself hvertex hcolor (hfeasible color)
    have hstretch : ∀ color ≤ 2, ∀ t : Search n, Stretch distance incompatible nodeBudget
        (completions distance incompatible (update p vertex (some color))) t
        (branch distance incompatible degrees nodeBudget uncolored
          (update p vertex (some color)) t) :=
      fun color hcolor t ↦ stretch_branch hsymm hself uncolored (hupdate color hcolor) t
    have hchild : ∀ color < 2, ∀ t : Search n, 2 ≤ t.incumbent.count →
        (branch distance incompatible degrees nodeBudget uncolored
          (update p vertex (some color)) t).exhaustedBudget = false →
        t.exploredNodes + 2 ^ uncolored ≤
          (branch distance incompatible degrees nodeBudget uncolored
            (update p vertex (some color)) t).exploredNodes + 1 := by
      intro color hcolor t ht hrun
      have hnext := hupdate color hcolor.le
      rw [max_eq_left (Nat.succ_le_of_lt hcolor)] at hnext
      refine ih hnext (fun v hv ↦ hfree v ?_) ht hrun
      by_cases heq : v = vertex
      · rwa [heq]
      · rwa [update_of_ne heq] at hv
    by_cases hexhausted : s.exhaustedBudget = true
    · rw [if_pos hexhausted, hexhausted] at hrun
      cases hrun
    rw [if_neg hexhausted] at hrun ⊢
    by_cases hbudget : nodeBudget ≤ s.exploredNodes
    · rw [if_pos hbudget] at hrun
      cases hrun
    have hprune : ¬ s.incumbent.count < 2 := not_lt.mpr hs
    rw [if_neg hbudget, if_neg hprune, min_eq_left hs] at hrun ⊢
    have hrange : List.range 2 = [0, 1] := rfl
    rw [hrange, foldl_cons, foldl_cons, foldl_nil, if_neg hexhausted,
      if_pos (hfeasible 0), if_pos (hfeasible 1)] at hrun ⊢
    have hfirst := hchild 0 (by norm_num) { s with exploredNodes := s.exploredNodes + 1 } hs
    have hfirstStretch := hstretch 0 (by norm_num) { s with exploredNodes := s.exploredNodes + 1 }
    generalize branch distance incompatible degrees nodeBudget uncolored
      (update p vertex (some 0)) _ = first at hrun hfirst hfirstStretch ⊢
    have hcount : 2 ≤ first.incumbent.count := by
      rcases hfirstStretch.keeps with heq | hhonest
      · rw [heq]
        exact hs
      · exact htwo _ hhonest
    by_cases hfirstCut : first.exhaustedBudget = true
    · rw [if_pos hfirstCut] at hrun
      dsimp only at hrun
      rw [if_pos hfirstCut, hfirstCut] at hrun
      cases hrun
    rw [if_neg hfirstCut] at hrun ⊢
    have hsecond := hchild 1 (by norm_num) first hcount
    generalize branch distance incompatible degrees nodeBudget uncolored
      (update p vertex (some 1)) first = second at hrun hsecond ⊢
    dsimp only at hrun ⊢
    by_cases hsecondCut : second.exhaustedBudget = true
    · rw [if_pos hsecondCut, hsecondCut] at hrun
      cases hrun
    have hsum := hsecond (Bool.eq_false_iff.mpr hsecondCut)
    have hstart := hfirst (Bool.eq_false_iff.mpr hfirstCut)
    have hlast : second.exploredNodes ≤
        (if 2 < second.incumbent.count then
          branch distance incompatible degrees nodeBudget uncolored
            (update p vertex (some 2)) second
        else { second with prunedNodes := second.prunedNodes + 1 }).exploredNodes := by
      split_ifs
      · exact (hstretch 2 le_rfl second).explored
      · exact le_rfl
    rw [if_neg hsecondCut, pow_succ]
    dsimp only at hstart
    omega

/-- A vertex that no colour suits takes a new one. -/
theorem branch_fresh {uncolored used : ℕ} {p : Colors n}
    (hp : Partial incompatible p used (uncolored + 1)) {vertex : Fin n}
    (hvertex : select incompatible degrees p = vertex)
    (hinfeasible : ∀ color ∈ List.range used, feasible incompatible p vertex color = false)
    {s : Search n} (hs : used < s.incumbent.count)
    (hrun : (branch distance incompatible degrees nodeBudget (uncolored + 1) p s).exhaustedBudget =
      false) :
    branch distance incompatible degrees nodeBudget (uncolored + 1) p s =
      branch distance incompatible degrees nodeBudget uncolored
        (update p vertex (some used)) { s with exploredNodes := s.exploredNodes + 1 } := by
  have hskip : ∀ (colors : List ℕ) (t : Search n),
      (∀ color ∈ colors, feasible incompatible p vertex color = false) →
      colors.foldl (fun s color ↦
        if s.exhaustedBudget then s
        else if feasible incompatible p vertex color then
          branch distance incompatible degrees nodeBudget uncolored
            (update p vertex (some color)) s
        else s) t = t := by
    intro colors t hcolors
    induction colors with
    | nil => rfl
    | cons color colors ih =>
      rw [forall_mem_cons] at hcolors
      rw [foldl_cons, hcolors.1, if_neg Bool.false_ne_true, ite_self]
      exact ih hcolors.2
  rw [branch, hp.usedColors_eq, hvertex] at hrun ⊢
  by_cases hexhausted : s.exhaustedBudget = true
  · rw [if_pos hexhausted, hexhausted] at hrun
    cases hrun
  rw [if_neg hexhausted] at hrun ⊢
  by_cases hbudget : nodeBudget ≤ s.exploredNodes
  · rw [if_pos hbudget] at hrun
    cases hrun
  have hprune : ¬ s.incumbent.count < used := not_lt.mpr hs.le
  rw [if_neg hbudget, if_neg hprune, min_eq_left hs.le, hskip _ _ hinfeasible]
  dsimp only
  rw [if_neg hexhausted, if_pos hs]

end Exhaustion

section TwoApart

/-- Two points that are apart, among points that are not. -/
def apart (i j : Fin 70) : Bool :=
  decide ((i.val = 0 ∧ j.val = 1) ∨ (i.val = 1 ∧ j.val = 0))

theorem getD_twoApart (k : ℕ) :
    ((List.range 4900).map fun k ↦ if k = 1 ∨ k = 70 then (1 : ℚ) else 0).getD k 0 =
      if k = 1 ∨ k = 70 then 1 else 0 := by
  rw [getD_eq_getElem?_getD, getElem?_map]
  rcases Nat.lt_or_ge k 4900 with hlt | hge
  · rw [getElem?_range hlt]
    rfl
  · rw [getElem?_eq_none (by rwa [length_range]), if_neg (by omega)]
    rfl

def twoApart : DistanceMatrix where
  size := 70
  values := (List.range 4900).map fun k ↦ if k = 1 ∨ k = 70 then 1 else 0
  size_pos := by decide
  length_eq := by rw [length_map, length_range]
  nonneg := by
    intro row _ col _
    rw [getD_twoApart]
    split_ifs
    · exact zero_le_one
    · exact le_rfl
  diagonal := by
    intro index _
    rw [getD_twoApart, if_neg (by omega)]
  symmetric := by
    intro row hrow col hcol
    have hiff : row * 70 + col = 1 ∨ row * 70 + col = 70 ↔
        col * 70 + row = 1 ∨ col * 70 + row = 70 := by omega
    rw [getD_twoApart, getD_twoApart]
    exact if_congr hiff rfl rfl

theorem values_twoApart : twoApart.values =
    (List.range 4900).map fun k ↦ if k = 1 ∨ k = 70 then 1 else 0 := by
  rw [twoApart]

theorem incompatible_twoApart : incompatible twoApart 0 = apart := by
  funext i j
  have hi : i.val < 70 := i.isLt
  have hj : j.val < 70 := j.isLt
  have hvalue : twoApart.distance i j =
      if i.val * 70 + j.val = 1 ∨ i.val * 70 + j.val = 70 then 1 else 0 := by
    rw [DistanceMatrix.distance, values_twoApart, getD_twoApart]
    rfl
  have hapart : apart i j = decide ((i.val = 0 ∧ j.val = 1) ∨ (i.val = 1 ∧ j.val = 0)) := rfl
  rw [hapart, incompatible, decide_eq_decide, hvalue]
  constructor
  · rintro ⟨-, hlt⟩
    split_ifs at hlt with hpair
    · omega
    · exact absurd hlt (lt_irrefl 0)
  · intro hpair
    rw [if_pos (by omega)]
    exact ⟨fun heq ↦ by rw [heq] at hpair; omega, zero_lt_one⟩

def apartDegree (i : Fin 70) : ℕ := if i.val < 2 then 1 else 0

/-- The vertices that are apart have one incompatible vertex each. -/
theorem degree_twoApart : degree twoApart 0 = apartDegree := by
  have hdegrees : ∀ i : Fin 70, ((List.finRange 70).filter fun j ↦ apart i j).length =
      apartDegree i := by decide +kernel
  funext i
  rw [degree, incompatible_twoApart]
  exact hdegrees i

theorem two_le_count {distance : Fin 70 → Fin 70 → ℚ} {a : Candidate 70}
    (ha : Honest distance apart a) : 2 ≤ a.count := by
  have hne : a.colors 0 ≠ a.colors 1 := fun heq ↦ absurd (ha.proper 0 1 heq) (by decide)
  have hinj : Set.InjOn a.colors ({0, 1} : Finset (Fin 70)) := by
    rw [Finset.coe_pair, Set.injOn_pair]
    exact fun heq ↦ absurd heq hne
  have hcard : ({0, 1} : Finset (Fin 70)).card = 2 := by decide
  rw [ha.count, ← hcard]
  exact card_le_clusters hinj

theorem apart_comm (i j : Fin 70) : apart i j = apart j i := by
  rw [← incompatible_twoApart]
  exact incompatible_comm twoApart i j

theorem apart_self (i : Fin 70) : apart i i = false := by
  rw [← incompatible_twoApart]
  exact incompatible_self twoApart i

/-- The two points that are apart are coloured first, and then the nodes double. -/
theorem explored_apart {distance : Fin 70 → Fin 70 → ℚ} {nodeBudget : ℕ} {s : Search 70}
    (hs : 2 ≤ s.incumbent.count)
    (hrun : (branch distance apart apartDegree nodeBudget 70 (fun _ ↦ none) s).exhaustedBudget =
      false) :
    s.exploredNodes + 2 ^ 68 ≤
      (branch distance apart apartDegree nodeBudget 70 (fun _ ↦ none) s).exploredNodes := by
  have hstart : Partial apart (fun _ ↦ none) 0 70 := partial_none
  have hfirst : select apart apartDegree (fun _ : Fin 70 ↦ none) = 0 := by decide +kernel
  have hone : Partial apart (update (fun _ ↦ none) 0 (some 0)) 1 69 :=
    hstart.update apart_comm apart_self rfl le_rfl (by decide +kernel)
  have hsecond :
      select apart apartDegree (update (fun _ : Fin 70 ↦ none) 0 (some 0)) = 1 := by
    decide +kernel
  have htwo : Partial apart
      (update (update (fun _ ↦ none) 0 (some 0)) 1 (some 1)) 2 68 :=
    hone.update apart_comm apart_self rfl le_rfl (by decide +kernel)
  have hfree : ∀ v, update (update (fun _ : Fin 70 ↦ (none : Option ℕ)) 0
      (some 0)) 1 (some 1) v = none → ∀ j, apart v j = false := by
    intro v hv j
    have hone : v ≠ 1 := by
      intro heq
      rw [heq, update_self] at hv
      exact nomatch hv
    have hzero : v ≠ 0 := by
      intro heq
      rw [heq, update_of_ne (by decide), update_self] at hv
      exact nomatch hv
    apply decide_eq_false
    rintro (⟨hval, -⟩ | ⟨hval, -⟩)
    · exact hzero (Fin.ext hval)
    · exact hone (Fin.ext hval)
  have hfreshFirst := branch_fresh hstart hfirst (fun _ h ↦ absurd h not_mem_nil)
    (by omega) hrun
  rw [hfreshFirst] at hrun ⊢
  have hfreshSecond := branch_fresh hone hsecond (by decide +kernel) (by exact hs) hrun
  rw [hfreshSecond] at hrun ⊢
  have hdouble := two_pow_le_explored apart_comm apart_self (fun _ ha ↦ two_le_count ha) 68 htwo
    hfree (by exact hs) hrun
  have hnodes : s.exploredNodes + 1 + 1 + 2 ^ 68 ≤
      (branch distance apart apartDegree nodeBudget 68 _ _).exploredNodes + 1 := hdouble
  omega

end TwoApart

end SoulSystem.Scirust.Solvers
