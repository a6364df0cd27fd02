import SoulSystem.Scirust.Solvers.Exact

/-!
# The certificates of the hybrid mode

Local moves keep a partition with its true count, and a clique of incompatible points bounds the
count of every partition from below.  The cost of a move is the sum over the labels up to the count,
so it misses a cluster with a larger label.  A certificate is honest if the last move before the
search misses no cost, or its partition is replaced, and if the search does not run out of nodes
with a partition of the smallest count and without cost, for which the gap is zero.
-/

namespace SoulSystem.Scirust.Solvers

open Library FirstOccurrence Labelling List

/-! ## Local improvement -/

section LocalImprovement

variable {n : ℕ} {distance : Fin n → Fin n → ℚ} {incompatible : Fin n → Fin n → Bool}

theorem counted_of_tryMove (hsymm : ∀ i j, incompatible i j = incompatible j i)
    (hself : ∀ i, incompatible i i = false) {incumbent trial : Candidate n} {vertex : Fin n}
    {target : ℕ} (hincumbent : Counted incompatible incumbent)
    (htrial : tryMove distance incompatible incumbent vertex target = some trial) :
    Counted incompatible trial := by
  rw [tryMove] at htrial
  split_ifs at htrial with hsame hfeasible
  dsimp only at htrial
  split_ifs at htrial with hbeats
  rw [← Option.some_inj.mp htrial]
  have hcompatible : ∀ j, j ≠ vertex → incumbent.colors j = some target →
      incompatible vertex j = false := by
    intro j hj hcolor
    rw [all_eq_true] at hfeasible
    have hmem : j ∈ (members incumbent.colors target).filter fun other ↦ other ≠ vertex :=
      List.mem_filter.mpr ⟨List.mem_filter.mpr ⟨mem_finRange j, decide_eq_true hcolor⟩,
        decide_eq_true hj⟩
    exact Bool.not_eq_true' _ ▸ hfeasible j hmem
  have hcomplete : ∀ i, Function.update incumbent.colors vertex (some target) i ≠ none := by
    intro i
    by_cases hi : i = vertex
    · rw [hi, Function.update_self]
      exact Option.some_ne_none target
    · rw [Function.update_of_ne hi]
      exact hincumbent.complete i
  exact {
    complete := hcomplete
    proper := fun i j ↦ proper_update hsymm hself (fun i j _ ↦ hincumbent.proper i j) hcompatible
      i j (hcomplete i)
    count := countUsed_eq _ }

/-- The cost of a move is summed up to the count before it. -/
theorem cost_of_tryMove {incumbent trial : Candidate n} {vertex : Fin n} {target : ℕ}
    (htrial : tryMove distance incompatible incumbent vertex target = some trial) :
    trial.cost = partitionCost distance trial.colors incumbent.count := by
  rw [tryMove] at htrial
  split_ifs at htrial
  dsimp only at htrial
  split_ifs at htrial
  rw [← Option.some_inj.mp htrial]

/-- **What every move preserves** holds after local improvement. -/
theorem localImprove_induction {motive : Candidate n → Prop}
    (hmove : ∀ incumbent trial vertex target, motive incumbent →
      tryMove distance incompatible incumbent vertex target = some trial → motive trial)
    (iterations : ℕ) {incumbent : Candidate n} (hincumbent : motive incumbent) :
    motive (localImprove distance incompatible iterations incumbent) := by
  have hvertex : ∀ (state : Candidate n × Bool) (vertex : Fin n), motive state.1 →
      motive (improveVertex distance incompatible state vertex).1 := by
    intro state vertex hstate
    rw [improveVertex]
    cases hfound : (List.range state.1.count).findSome?
        (tryMove distance incompatible state.1 vertex) with
    | none => exact hstate
    | some trial =>
      obtain ⟨target, -, htarget⟩ := exists_of_findSome?_eq_some hfound
      exact hmove _ _ _ _ hstate htarget
  have hsweep : ∀ (vertices : List (Fin n)) (state : Candidate n × Bool), motive state.1 →
      motive (vertices.foldl (improveVertex distance incompatible) state).1 := by
    intro vertices
    induction vertices with
    | nil => exact fun _ h ↦ h
    | cons vertex vertices ih => exact fun state hstate ↦ ih _ (hvertex state vertex hstate)
  induction iterations generalizing incumbent with
  | zero => exact hincumbent
  | succ iterations ih =>
    have hswept := hsweep (List.finRange n) (incumbent, false) hincumbent
    rw [localImprove]
    generalize (List.finRange n).foldl (improveVertex distance incompatible) (incumbent, false) =
      swept at hswept ⊢
    obtain ⟨improved, changed⟩ := swept
    dsimp only
    split_ifs
    · exact ih hswept
    · exact hswept

/-- **Local improvement** keeps a partition with its true count. -/
theorem counted_localImprove (hsymm : ∀ i j, incompatible i j = incompatible j i)
    (hself : ∀ i, incompatible i i = false) (iterations : ℕ) {incumbent : Candidate n}
    (hincumbent : Counted incompatible incumbent) :
    Counted incompatible (localImprove distance incompatible iterations incumbent) :=
  localImprove_induction (fun _ _ _ _ h htrial ↦ counted_of_tryMove hsymm hself h htrial) iterations
    hincumbent

/-- Local improvement ends with a move, unless there is none. -/
theorem localImprove_moved (iterations : ℕ) (first : Candidate n) :
    localImprove distance incompatible iterations first = first ∨
      ∃ incumbent vertex target, tryMove distance incompatible incumbent vertex target =
        some (localImprove distance incompatible iterations first) :=
  localImprove_induction (motive := fun a ↦ a = first ∨
      ∃ incumbent vertex target, tryMove distance incompatible incumbent vertex target = some a)
    (fun incumbent _ vertex target _ htrial ↦ .inr ⟨incumbent, vertex, target, htrial⟩) iterations
    (.inl rfl)

end LocalImprovement

/-! ## The bound by a clique -/

section Clique

variable {n : ℕ} {incompatible : Fin n → Fin n → Bool} {degrees : Fin n → ℕ}

theorem pairwise_greedyClique :
    (greedyClique incompatible degrees).Pairwise fun a b ↦ incompatible b a = true := by
  have hfold : ∀ (vertices clique : List (Fin n)),
      clique.Pairwise (fun a b ↦ incompatible b a = true) →
      (vertices.foldl (fun clique vertex ↦
        if clique.all fun member ↦ incompatible vertex member then clique ++ [vertex] else clique)
          clique).Pairwise fun a b ↦ incompatible b a = true := by
    intro vertices
    induction vertices with
    | nil => exact fun _ h ↦ h
    | cons vertex vertices ih =>
      intro clique hclique
      rw [foldl_cons]
      refine ih _ ?_
      split_ifs with hall
      · rw [all_eq_true] at hall
        refine List.pairwise_append.mpr ⟨hclique, pairwise_singleton _ _, ?_⟩
        intro a ha b hb
        rw [List.mem_singleton.mp hb]
        exact hall a ha
      · exact hclique
  exact hfold _ [] List.Pairwise.nil

/-- **A clique** has its points in different clusters. -/
theorem greedyCliqueBound_le [NeZero n] {α : Type} [DecidableEq α] {c : Fin n → α}
    (hc : Proper incompatible c) : greedyCliqueBound incompatible degrees ≤ (clusters c).card := by
  have hpairs : (greedyClique incompatible degrees).Pairwise fun a b ↦ incompatible b a = true :=
    pairwise_greedyClique
  have hlabels : ((greedyClique incompatible degrees).map c).Nodup := by
    rw [nodup_iff_pairwise_ne, pairwise_map]
    refine hpairs.imp fun {a b} hab heq ↦ ?_
    rw [hc b a heq.symm] at hab
    exact Bool.false_ne_true hab
  have hlength : (greedyClique incompatible degrees).length ≤ (clusters c).card := by
    rw [card_clusters, ← length_map c, ← toFinset_card_of_nodup hlabels]
    refine Finset.card_le_card fun k hk ↦ ?_
    obtain ⟨i, -, rfl⟩ := List.mem_map.mp (List.mem_toFinset.mp hk)
    exact Finset.mem_image_of_mem c (Finset.mem_univ i)
  have hpos : 0 < (clusters c).card := by
    rw [card_clusters, Finset.card_pos]
    exact ⟨c 0, Finset.mem_image_of_mem c (Finset.mem_univ 0)⟩
  exact max_le hlength hpos

end Clique

/-! ## Honest certificates -/

section Certificates

variable (m : DistanceMatrix) (diameter : ℚ)

/-- What a result of the hybrid mode should report: a feasible partition with its true count and
cost, a bound that is valid, a partition that is the best one and that of the exact mode if it is
marked so, and otherwise a gap. -/
structure HonestResult (r : CertifiedMedoidClusteringResult m.size) (a : Fin m.size → ℕ) :
    Prop where
  reports : Reports m diameter r a
  bound : ∀ c : Fin m.size → ℕ, Feasible m.distance diameter c →
    r.certificate.lowerBoundClusterCount ≤ (clusters c).card
  optimal : r.certificate.provenOptimal = true → Optimal m.distance diameter a
  agrees : r.certificate.provenOptimal = true → ∀ e,
    certifiedMedoidClustering m ⟨diameter, .exact⟩ = some (.ok e) →
    e.certificate.provenOptimal = true → r.assignments = e.assignments ∧
      r.certificate.objectiveMedoidCost = e.certificate.objectiveMedoidCost
  gap : r.certificate.provenOptimal = false → 0 < r.certificate.optimalityGap

/-- A move that leads to a candidate leaves no cluster with a cost above the labels of its sum. -/
def MissesNothing (a : Candidate m.size) : Prop :=
  ∀ incumbent vertex target,
    tryMove m.distance (incompatible m diameter) incumbent vertex target = some a →
      ∀ label > incumbent.count, medoidCost m.distance {p | a.colors p = some label} = 0

/-- A search has run out of nodes with a partition without cost, whose count is that of a clique. -/
def RunsOutAtZero (s : Search m.size) : Prop :=
  s.exhaustedBudget = true ∧ s.incumbent.cost = 0 ∧
    s.incumbent.count = greedyCliqueBound (incompatible m diameter) (degree m diameter)

variable {m diameter}

theorem medoidCost_nonneg (s : Finset (Fin m.size)) : 0 ≤ medoidCost m.distance s := by
  rw [medoidCost]
  split_ifs with hs
  · exact Finset.le_inf' _ _ fun i _ ↦ Finset.sum_nonneg fun p _ ↦ m.distance_nonneg p i
  · exact le_rfl

theorem totalCost_nonneg {α : Type} [DecidableEq α] (c : Fin m.size → α) :
    0 ≤ totalCost m.distance c :=
  Finset.sum_nonneg fun s _ ↦ medoidCost_nonneg s

/-- **A bound on the labels** gives the true cost if there is no cost above it. -/
theorem partitionCost_eq_iff {colors : Colors m.size} (hcomplete : ∀ i, colors i ≠ none)
    (labelBound : ℕ) : partitionCost m.distance colors labelBound = totalCost m.distance colors ↔
      ∀ label > labelBound, medoidCost m.distance {p | colors p = some label} = 0 := by
  obtain ⟨bound, hbound⟩ : ∃ bound, ∀ i, (colors i).getD 0 ≤ labelBound + 1 + bound := by
    refine ⟨Finset.univ.sup fun i ↦ (colors i).getD 0, fun i ↦ ?_⟩
    exact (Finset.le_sup (f := fun i ↦ (colors i).getD 0) (Finset.mem_univ i)).trans
      (Nat.le_add_left _ _)
  have hlabel : ∀ i, ∃ label ≤ labelBound + 1 + bound, colors i = some label := by
    intro i
    obtain ⟨label, hcolor⟩ := Option.ne_none_iff_exists'.mp (hcomplete i)
    have hle := hbound i
    rw [hcolor] at hle
    exact ⟨label, hle, hcolor⟩
  have habove : ∀ label, labelBound + 1 + bound < label →
      medoidCost m.distance {p | colors p = some label} = 0 := by
    intro label hlt
    have hempty : ({p | colors p = some label} : Finset (Fin m.size)) = ∅ := by
      rw [Finset.filter_eq_empty_iff]
      intro i _ hi
      obtain ⟨label', hle, hcolor⟩ := hlabel i
      exact absurd (Option.some_inj.mp (hi.symm.trans hcolor)) (hle.trans_lt hlt).ne'
    rw [hempty, medoidCost_empty]
  rw [← partitionCost_eq hlabel, partitionCost_eq_sum, partitionCost_eq_sum,
    show labelBound + 1 + bound + 1 = labelBound + 1 + (bound + 1) from rfl,
    Finset.sum_range_add _ (labelBound + 1), left_eq_add,
    Finset.sum_eq_zero_iff_of_nonneg fun _ _ ↦ medoidCost_nonneg _]
  constructor
  · intro hzero label hlt
    rcases le_or_gt label (labelBound + 1 + bound) with hle | hgt
    · obtain ⟨k, rfl⟩ := Nat.exists_eq_add_of_le (Nat.succ_le_of_lt hlt)
      exact hzero k (Finset.mem_range.mpr (by omega))
    · exact habove label hgt
  · exact fun hzero k _ ↦ hzero _ (by omega)

theorem counted_warmStart (mode : CertifiedClusteringMode) :
    Counted (incompatible m diameter) (warmStart m diameter mode) := by
  have hfirst : Honest m.distance (incompatible m diameter)
      (greedyFirstFit m.distance (incompatible m diameter)) :=
    honest_greedyFirstFit (incompatible_comm m) (incompatible_self m)
  cases mode with
  | exact => exact hfirst.toCounted
  | hybrid nodes iterations =>
    exact counted_localImprove (incompatible_comm m) (incompatible_self m) iterations
      hfirst.toCounted

/-- The search starts with the true cost exactly if the last move misses nothing. -/
theorem cost_warmStart_iff (nodes iterations : ℕ) :
    (warmStart m diameter (.hybrid nodes iterations)).cost =
        totalCost m.distance (warmStart m diameter (.hybrid nodes iterations)).colors ↔
      MissesNothing m diameter (warmStart m diameter (.hybrid nodes iterations)) := by
  have hcounted : Counted (incompatible m diameter)
      (warmStart m diameter (.hybrid nodes iterations)) := counted_warmStart _
  constructor
  · intro hcost incumbent vertex target htrial
    rw [cost_of_tryMove htrial] at hcost
    exact (partitionCost_eq_iff hcounted.complete _).mp hcost
  · intro hmisses
    rcases localImprove_moved iterations
      (greedyFirstFit m.distance (incompatible m diameter)) with hfirst | hmoved
    · change (localImprove _ _ _ _).cost = totalCost _ (localImprove _ _ _ _).colors
      rw [hfirst]
      exact (honest_greedyFirstFit (incompatible_comm m) (incompatible_self m)).cost
    · obtain ⟨incumbent, vertex, target, htrial⟩ := hmoved
      refine (cost_of_tryMove htrial).trans ?_
      exact (partitionCost_eq_iff hcounted.complete _).mpr (hmisses _ _ _ htrial)

theorem counted_incumbent (mode : CertifiedClusteringMode) :
    Counted (incompatible m diameter) (search m diameter mode).incumbent := by
  rcases (stretch_search m diameter mode).keeps with heq | hhonest
  · rw [heq]
    exact counted_warmStart mode
  · exact hhonest.toCounted

/-- The bound of a certificate is valid. -/
theorem lowerBound_le (hdiameter : 0 ≤ diameter) (mode : CertifiedClusteringMode)
    (c : Fin m.size → ℕ) (hc : Feasible m.distance diameter c) :
    (certificate m diameter (search m diameter mode)).lowerBoundClusterCount ≤
      (clusters c).card := by
  change (if !(search m diameter mode).exhaustedBudget then (search m diameter mode).incumbent.count
    else greedyCliqueBound (incompatible m diameter) (degree m diameter)) ≤ _
  cases hcut : (search m diameter mode).exhaustedBudget with
  | false =>
    rcases Prod.Lex.toLex_le_toLex.mp (search_le m hdiameter hcut c hc) with hlt | ⟨heq, -⟩
    · exact hlt.le
    · exact heq.le
  | true => exact greedyCliqueBound_le ((proper_iff m hdiameter c).mpr hc)

theorem gap_pos {s : Search m.size} (hcounted : Counted (incompatible m diameter) s.incumbent)
    (hcost : s.incumbent.cost = totalCost m.distance s.incumbent.colors)
    (hcut : s.exhaustedBudget = true) :
    0 < (certificate m diameter s).optimalityGap ↔ ¬ RunsOutAtZero m diameter s := by
  have hbound : greedyCliqueBound (incompatible m diameter) (degree m diameter) ≤
      s.incumbent.count := by
    rw [hcounted.count]
    exact greedyCliqueBound_le hcounted.proper
  have hnonneg : 0 ≤ s.incumbent.cost := by
    rw [hcost]
    exact totalCost_nonneg s.incumbent.colors
  have hgap : (certificate m diameter s).optimalityGap =
      if greedyCliqueBound (incompatible m diameter) (degree m diameter) < s.incumbent.count then
        ((s.incumbent.count -
          greedyCliqueBound (incompatible m diameter) (degree m diameter) : ℕ) : ℚ)
      else s.incumbent.cost / (1 + s.incumbent.cost) := by
    change (if !s.exhaustedBudget then _ else _) = _
    rw [hcut]
    rfl
  rw [hgap, RunsOutAtZero]
  generalize greedyCliqueBound (incompatible m diameter) (degree m diameter) = bound at hbound ⊢
  split_ifs with hlt
  · rw [Nat.cast_pos]
    exact iff_of_true (Nat.sub_pos_of_lt hlt) fun h ↦ hlt.ne' h.2.2
  · have hcount : s.incumbent.count = bound := le_antisymm (not_lt.mp hlt) hbound
    have hdenominator : 0 < 1 + s.incumbent.cost := by linarith
    rw [div_pos_iff_of_pos_right hdenominator]
    constructor
    · exact fun hpos h ↦ hpos.ne' h.2.1
    · intro hnot
      exact lt_of_le_of_ne hnonneg fun heq ↦ hnot ⟨hcut, heq.symm, hcount⟩

/-- Two partitions that no feasible partition beats are one, with one cost. -/
theorem eq_of_optimal {r e : CertifiedMedoidClusteringResult m.size} {a b : Fin m.size → ℕ}
    (hr : Reports m diameter r a) (he : Reports m diameter e b)
    (ha : Optimal m.distance diameter a) (hb : Optimal m.distance diameter b) :
    r.assignments = e.assignments ∧
      r.certificate.objectiveMedoidCost = e.certificate.objectiveMedoidCost := by
  obtain ⟨hlabels, hcost⟩ := eq_of_objective_eq
    (le_antisymm (ha b he.feasible) (hb a hr.feasible))
  constructor
  · rw [hr.assignments, he.assignments, ← hr.canonical, ← he.canonical, hlabels]
  · rw [hr.cost, he.cost, hcost]

variable (m diameter) in
/-- The result of the hybrid mode is what it should report. -/
def HasHonestResult (nodes iterations : ℕ) : Prop := ∃ r a,
  certifiedMedoidClustering m ⟨diameter, .hybrid nodes iterations⟩ = some (.ok r) ∧
    HonestResult m diameter r a

theorem HasHonestResult.exists_reported (hdiameter : 0 ≤ diameter) {nodes iterations : ℕ}
    (hvalid : (CertifiedClusteringMode.hybrid nodes iterations).hasInvalidBudget = false)
    (hhonest : HasHonestResult m diameter nodes iterations) : ∃ r a, HonestResult m diameter r a ∧
      r.assignments =
        List.ofFn (assignment (search m diameter (.hybrid nodes iterations)).incumbent.colors) ∧
      r.certificate = certificate m diameter (search m diameter (.hybrid nodes iterations)) := by
  obtain ⟨r, a, hr, hhonest⟩ := hhonest
  obtain ⟨medoids, hresult, -⟩ :=
    certifiedMedoidClustering_eq m hdiameter (.hybrid nodes iterations) hvalid
  rw [hresult] at hr
  have heq := Except.ok.inj (Option.some_inj.mp hr)
  rw [← heq] at hhonest
  exact ⟨_, a, hhonest, rfl, rfl⟩

end Certificates

/-! ## Dishonest certificates -/

/-- Eight points, of which local moves leave two in a cluster whose label is above the count. -/
def eightPoints : DistanceMatrix where
  size := 8
  values := [
    0, 4, 1, 8, 2, 5, 4, 10,
    4, 0, 12, 4, 13, 12, 13, 2,
    1, 12, 0, 6, 2, 8, 11, 9,
    8, 4, 6, 0, 8, 5, 9, 11,
    2, 13, 2, 8, 0, 8, 7, 7,
    5, 12, 8, 5, 8, 0, 13, 8,
    4, 13, 11, 9, 7, 13, 0, 10,
    10, 2, 9, 11, 7, 8, 10, 0]
  size_pos := by decide
  length_eq := rfl
  nonneg := by decide +kernel
  diagonal := by decide +kernel
  symmetric := by decide +kernel

end SoulSystem.Scirust.Solvers
