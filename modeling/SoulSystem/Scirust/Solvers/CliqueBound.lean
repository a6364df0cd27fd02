import SoulSystem.Scirust.Solvers.Certificates

/-!
# The clique bound

The greedy clique is improved by a pivoted enumeration of the cliques of the incompatible
pairs.  The enumeration keeps the size of the clique it is in and the size of the best one, and a
node whose candidates cannot beat the best one is cut off.

The number of explored nodes is a `usize`, whose overflow panics in a build with checks and wraps
around without.
-/

namespace SoulSystem.Scirust.Solvers

open Library Cliques Labelling Outcome List

/-! ## The enumeration -/

structure ClusterCountBound where
  lowerBound : ℕ
  cliqueIsMaximum : Bool
  exploredNodes : ℕ

/-- Why there is no bound.  The fuel never runs out. -/
inductive CountFailure where
  | error (error : MedoidClusteringError)
  | overflow
  | outOfFuel

/-- What an enumeration changes. -/
structure Enumeration where
  best : ℕ
  exploredNodes : ℕ

section Enumeration

variable {n : ℕ} (checks : Bool) (adjacency : Fin n → Fin n → Bool) (maximumNodes : ℕ)

/-- Every vertex that is branched on moves from the candidates to the excluded ones. -/
def extendLoop
    (recurse : List (Fin n) → List (Fin n) → Enumeration →
      Except CountFailure (Bool × Enumeration)) :
    List (Fin n) → List (Fin n) → List (Fin n) → Enumeration →
      Except CountFailure (Bool × Enumeration)
  | [], _, _, s => .ok (false, s)
  | vertex :: extend, candidates, excluded, s =>
    if vertex ∉ candidates then extendLoop recurse extend candidates excluded s
    else do
      let (exhausted, s) ←
        recurse (candidates.filter (adjacency vertex)) (excluded.filter (adjacency vertex)) s
      if exhausted = true then return (true, s)
      else
        extendLoop recurse extend (candidates.filter fun v ↦ v ≠ vertex) (excluded ++ [vertex]) s

/-- The candidates that are no neighbours of the pivot, which has the most neighbours among the
candidates, and of these is the first. -/
def extension (candidates excluded : List (Fin n)) : List (Fin n) :=
  let neighbours := fun v ↦ (candidates.filter (adjacency v)).length
  match maxBy (fun a b ↦ (compare (neighbours a) (neighbours b)).then (compare b a))
      (candidates ++ excluded) with
  | some pivot => candidates.filter fun v ↦ !adjacency pivot v
  | none => candidates

def bronKerbosch : ℕ → ℕ → List (Fin n) → List (Fin n) → Enumeration →
    Except CountFailure (Bool × Enumeration)
  | 0, _, _, _, _ => .error .outOfFuel
  | fuel + 1, depth, candidates, excluded, s =>
    if checks = true ∧ s.exploredNodes = usizeMax then .error .overflow
    else
      let entered := { s with exploredNodes := (s.exploredNodes + 1) % (usizeMax + 1) }
      if maximumNodes < entered.exploredNodes then .ok (true, entered)
      else if candidates = [] ∧ excluded = [] then
        .ok (false, { entered with best := max entered.best depth })
      else if depth + candidates.length ≤ entered.best then .ok (false, entered)
      else
        extendLoop adjacency (bronKerbosch fuel (depth + 1))
          (extension adjacency candidates excluded) candidates excluded entered

end Enumeration

/-- There is no diameter if it is not finite. -/
def certifiedClusterCountBound (checks : Bool) (m : DistanceMatrix)
    (maximumClusterDiameter : Option ℚ) (maximumNodes : ℕ) :
    Except CountFailure ClusterCountBound :=
  match maximumClusterDiameter with
  | none => .error (.error .invalidDiameter)
  | some diameter =>
    if diameter < 0 then .error (.error .invalidDiameter)
    else if m.size = 0 then .ok ⟨0, true, 0⟩
    else do
      let best := greedyCliqueBound (incompatible m diameter) (degree m diameter)
      let (exhausted, s) ←
        bronKerbosch checks (incompatible m diameter) maximumNodes (m.size + 1) 0
          (List.finRange m.size) [] ⟨best, 0⟩
      return ⟨max s.best 1, !exhausted, s.exploredNodes⟩

/-! ## What the enumeration finds -/

section Spec

variable {n : ℕ} {checks : Bool} {adjacency : Fin n → Fin n → Bool} {maximumNodes depth : ℕ}
  {G : SimpleGraph (Fin n)} {candidates excluded extend : List (Fin n)} {s t u : Enumeration}
  {exhausted : Bool} {wanted : Finset (Fin n) → Prop}

/-- The best size is that of a clique of candidates, if it changes.  Unless the enumeration is cut
short, it is not below that of any clique wanted. -/
structure Enumerated (G : SimpleGraph (Fin n)) (maximumNodes depth : ℕ)
    (candidates excluded : List (Fin n)) (wanted : Finset (Fin n) → Prop) (s : Enumeration)
    (exhausted : Bool) (t : Enumeration) : Prop where
  best_le : s.best ≤ t.best
  sound : t.best = s.best ∨
    ∃ C : Finset (Fin n), G.IsClique C ∧ (∀ c ∈ C, c ∈ candidates) ∧ t.best = depth + C.card
  complete : exhausted = false → ∀ C, Saturated G {v | v ∈ candidates} {v | v ∈ excluded} C →
    wanted C → depth + C.card ≤ t.best
  inBudget : exhausted = false → t.exploredNodes ≤ maximumNodes

/-- There is a result, unless the count of the nodes overflows. -/
def Enumerates (checks : Bool) (G : SimpleGraph (Fin n)) (maximumNodes depth : ℕ)
    (candidates excluded : List (Fin n)) (wanted : Finset (Fin n) → Prop) (s : Enumeration)
    (result : Except CountFailure (Bool × Enumeration)) : Prop :=
  (∃ exhausted t, result = .ok (exhausted, t) ∧
    Enumerated G maximumNodes depth candidates excluded wanted s exhausted t) ∨
  (result = .error .overflow ∧ checks = true ∧ usizeMax ≤ maximumNodes)

theorem card_le_length {C : Finset (Fin n)} (hsubset : ∀ c ∈ C, c ∈ candidates) :
    C.card ≤ candidates.length :=
  (Finset.card_le_card fun c hc ↦ List.mem_toFinset.mpr (hsubset c hc)).trans
    (toFinset_card_le candidates)

/-- The result depends on the best size at the start only. -/
theorem Enumerated.enter (hresult : Enumerated G maximumNodes depth candidates excluded wanted t
    exhausted u) (hbest : t.best = s.best) :
    Enumerated G maximumNodes depth candidates excluded wanted s exhausted u where
  best_le := hbest.symm.trans_le hresult.best_le
  sound := hresult.sound.imp_left fun hsame ↦ hsame.trans hbest
  complete := hresult.complete
  inBudget := hresult.inBudget

theorem Enumerated.imp {wanted' : Finset (Fin n) → Prop}
    (hresult : Enumerated G maximumNodes depth candidates excluded wanted s exhausted t)
    (hwanted : ∀ C, Saturated G {v | v ∈ candidates} {v | v ∈ excluded} C → wanted' C → wanted C) :
    Enumerated G maximumNodes depth candidates excluded wanted' s exhausted t where
  best_le := hresult.best_le
  sound := hresult.sound
  complete hexhausted C hC hwanted' := hresult.complete hexhausted C hC (hwanted C hC hwanted')
  inBudget := hresult.inBudget

theorem Enumerates.imp {wanted' : Finset (Fin n) → Prop}
    {result : Except CountFailure (Bool × Enumeration)}
    (hresult : Enumerates checks G maximumNodes depth candidates excluded wanted s result)
    (hwanted : ∀ C, Saturated G {v | v ∈ candidates} {v | v ∈ excluded} C → wanted' C → wanted C) :
    Enumerates checks G maximumNodes depth candidates excluded wanted' s result := by
  refine hresult.imp_left ?_
  rintro ⟨exhausted, t, hok, henumerated⟩
  exact ⟨exhausted, t, hok, henumerated.imp hwanted⟩

theorem Enumerates.enter {result : Except CountFailure (Bool × Enumeration)}
    (hresult : Enumerates checks G maximumNodes depth candidates excluded wanted t result)
    (hbest : t.best = s.best) :
    Enumerates checks G maximumNodes depth candidates excluded wanted s result := by
  refine hresult.imp_left ?_
  rintro ⟨exhausted, u, hok, henumerated⟩
  exact ⟨exhausted, u, hok, henumerated.enter hbest⟩

/-- An enumeration that is cut short. -/
theorem enumerated_cut :
    Enumerated G maximumNodes depth candidates excluded wanted s true s where
  best_le := le_rfl
  sound := .inl rfl
  complete hexhausted := absurd hexhausted Bool.true_eq_false.mp
  inBudget hexhausted := absurd hexhausted Bool.true_eq_false.mp

/-- One vertex is branched on and excluded. -/
theorem enumerated_branch (hG : ∀ i j, G.Adj i j ↔ adjacency i j = true) {vertex : Fin n}
    (hvertex : vertex ∈ candidates) {cut : Bool} (hcut : exhausted = false → cut = false)
    (hbranch : Enumerated G maximumNodes (depth + 1) (candidates.filter (adjacency vertex))
      (excluded.filter (adjacency vertex)) (fun _ ↦ True) s cut t)
    (hrest : Enumerated G maximumNodes depth (candidates.filter fun v ↦ v ≠ vertex)
      (excluded ++ [vertex]) (fun C ↦ ∃ v ∈ extend, v ∈ C) t exhausted u) :
    Enumerated G maximumNodes depth candidates excluded (fun C ↦ ∃ v ∈ vertex :: extend, v ∈ C) s
      exhausted u where
  best_le := hbranch.best_le.trans hrest.best_le
  sound := by
    cases hrest.sound with
    | inr hfound =>
      obtain ⟨C, hC, hsubset, hbest⟩ := hfound
      exact .inr ⟨C, hC, fun c hc ↦ (List.mem_filter.mp (hsubset c hc)).1, hbest⟩
    | inl hsame =>
      refine hbranch.sound.imp hsame.trans ?_
      rintro ⟨C, hC, hsubset, hbest⟩
      have hadj : ∀ c ∈ C, G.Adj vertex c := fun c hc ↦
        (hG vertex c).mpr (List.mem_filter.mp (hsubset c hc)).2
      obtain ⟨hclique, hcard⟩ := isClique_insert_of_adj hC hadj
      refine ⟨insert vertex C, hclique, fun c hc ↦ ?_, ?_⟩
      · cases Finset.mem_insert.mp hc with
        | inl hhead => exact hhead ▸ hvertex
        | inr hmem => exact (List.mem_filter.mp (hsubset c hmem)).1
      · rw [hsame, hbest, hcard]
        omega
  complete hexhausted C hC hwanted := by
    by_cases hmem : vertex ∈ C
    · have hcandidates : {w | w ∈ {v | v ∈ candidates} ∧ G.Adj vertex w} =
          {v | v ∈ candidates.filter (adjacency vertex)} := by
        ext w
        exact (and_congr_right fun _ ↦ hG vertex w).trans List.mem_filter.symm
      have hexcluded : {w | w ∈ {v | v ∈ excluded} ∧ G.Adj vertex w} =
          {v | v ∈ excluded.filter (adjacency vertex)} := by
        ext w
        exact (and_congr_right fun _ ↦ hG vertex w).trans List.mem_filter.symm
      have herased := hC.erase hmem
      rw [hcandidates, hexcluded] at herased
      have hle := hbranch.complete (hcut hexhausted) _ herased trivial
      have hcard := Finset.card_erase_add_one hmem
      have hmono := hrest.best_le
      omega
    · have hcandidates : {w | w ∈ {v | v ∈ candidates} ∧ w ≠ vertex} =
          {v | v ∈ candidates.filter fun v ↦ v ≠ vertex} := by
        ext w
        simp only [Set.mem_ofPred_eq, mem_filter, decide_eq_true_eq]
      have hexcluded : insert vertex {v | v ∈ excluded} = {v | v ∈ excluded ++ [vertex]} := by
        ext w
        exact (or_comm.trans (or_congr_right List.mem_singleton.symm)).trans List.mem_append.symm
      have hmoved := hC.exclude hvertex hmem
      rw [hcandidates, hexcluded] at hmoved
      refine hrest.complete hexhausted C hmoved ?_
      obtain ⟨v, hv, hvC⟩ := hwanted
      cases List.mem_cons.mp hv with
      | inl hhead => exact absurd (hhead ▸ hvC) hmem
      | inr hlater => exact ⟨v, hlater, hvC⟩
  inBudget := hrest.inBudget

theorem enumerates_extendLoop (hG : ∀ i j, G.Adj i j ↔ adjacency i j = true) {bound : ℕ}
    {recurse : List (Fin n) → List (Fin n) → Enumeration → Except CountFailure (Bool × Enumeration)}
    (hrecurse : ∀ P X s, P.length < bound → s.exploredNodes ≤ maximumNodes →
      Enumerates checks G maximumNodes (depth + 1) P X (fun _ ↦ True) s (recurse P X s))
    (hbound : candidates.length ≤ bound) (hs : s.exploredNodes ≤ maximumNodes)
    (extend excluded : List (Fin n)) :
    Enumerates checks G maximumNodes depth candidates excluded (fun C ↦ ∃ v ∈ extend, v ∈ C) s
      (extendLoop adjacency recurse extend candidates excluded s) := by
  induction extend generalizing candidates excluded s with
  | nil =>
    refine .inl ⟨false, s, rfl, ⟨le_rfl, .inl rfl, fun _ C _ hwanted ↦ ?_, fun _ ↦ hs⟩⟩
    obtain ⟨v, hv, -⟩ := hwanted
    exact absurd hv not_mem_nil
  | cons vertex extend ih =>
    by_cases hvertex : vertex ∈ candidates
    · rw [extendLoop, if_neg (not_not.mpr hvertex)]
      have hself : ¬ adjacency vertex vertex = true := fun hadj ↦ G.irrefl ((hG _ _).mpr hadj)
      have hsmaller : (candidates.filter (adjacency vertex)).length < candidates.length :=
        List.length_filter_lt_length_iff_exists.mpr ⟨vertex, hvertex, hself⟩
      cases hrecurse _ (excluded.filter (adjacency vertex)) s (hsmaller.trans_le hbound) hs with
      | inr hoverflow =>
        refine .inr ⟨?_, hoverflow.2⟩
        rw [hoverflow.1]
        rfl
      | inl hresult =>
        obtain ⟨cut, t, hok, hbranch⟩ := hresult
        rw [hok, ok_bind]
        cases cut with
        | true =>
          exact .inl ⟨true, t, rfl,
            enumerated_branch hG hvertex (fun h ↦ nomatch h) hbranch enumerated_cut⟩
        | false =>
          have hshorter : (candidates.filter fun v ↦ v ≠ vertex).length ≤ bound :=
            (length_filter_le _ _).trans hbound
          refine (ih hshorter (hbranch.inBudget rfl) _).imp_left ?_
          rintro ⟨exhausted, u, hok', hrest⟩
          exact ⟨exhausted, u, hok', enumerated_branch hG hvertex (fun _ ↦ rfl) hbranch hrest⟩
    · rw [extendLoop, if_pos hvertex]
      refine (ih hbound hs excluded).imp fun C hC hwanted ↦ ?_
      obtain ⟨v, hv, hvC⟩ := hwanted
      cases List.mem_cons.mp hv with
      | inl hhead => exact absurd (hC.subset v hvC) (hhead ▸ hvertex)
      | inr hlater => exact ⟨v, hlater, hvC⟩

/-- The pivot rule: a clique that nothing extends has a member to branch on. -/
theorem exists_mem_extension (hG : ∀ i j, G.Adj i j ↔ adjacency i j = true) {C : Finset (Fin n)}
    (hne : candidates ++ excluded ≠ [])
    (hC : Saturated G {v | v ∈ candidates} {v | v ∈ excluded} C) :
    ∃ v ∈ extension adjacency candidates excluded, v ∈ C := by
  unfold extension
  dsimp only
  obtain ⟨pivot, hpivot, hmax⟩ := maxBy_eq_some (fun a b ↦
    (compare (candidates.filter (adjacency a)).length
      (candidates.filter (adjacency b)).length).then (compare b a)) hne
  rw [hmax]
  obtain ⟨c, hc, hnot⟩ := hC.exists_not_adj pivot (List.mem_append.mp hpivot)
  refine ⟨c, List.mem_filter.mpr ⟨hC.subset c hc, ?_⟩, hc⟩
  rwa [hG, Bool.not_eq_true, ← Bool.not_eq_true'] at hnot

theorem enumerates_bronKerbosch (hG : ∀ i j, G.Adj i j ↔ adjacency i j = true) {fuel : ℕ}
    (hfuel : candidates.length < fuel) (hs : s.exploredNodes ≤ maximumNodes) :
    Enumerates checks G maximumNodes depth candidates excluded (fun _ ↦ True) s
      (bronKerbosch checks adjacency maximumNodes fuel depth candidates excluded s) := by
  induction fuel generalizing depth candidates excluded s with
  | zero => exact absurd hfuel (Nat.not_lt_zero _)
  | succ fuel ih =>
    rw [bronKerbosch]
    dsimp only
    split_ifs with hoverflow hbudget hleaf hcutoff
    · exact .inr ⟨rfl, hoverflow.1, hoverflow.2 ▸ hs⟩
    · exact .inl ⟨true, _, rfl, enumerated_cut.enter rfl⟩
    · obtain ⟨rfl, rfl⟩ := hleaf
      refine .inl ⟨false, _, rfl,
        ⟨le_max_left _ _, ?_, fun _ C hC _ ↦ ?_, fun _ ↦ not_lt.mp hbudget⟩⟩
      · refine (max_choice s.best depth).imp_right fun hdepth ↦ ⟨∅, ?_, ?_, hdepth⟩
        · simp
        · exact fun c hc ↦ absurd hc (Finset.notMem_empty c)
      · have hcard : C.card ≤ 0 := card_le_length hC.subset
        have hbest := le_max_right s.best depth
        dsimp only
        omega
    · refine .inl ⟨false, _, rfl,
        ⟨le_rfl, .inl rfl, fun _ C hC _ ↦ ?_, fun _ ↦ not_lt.mp hbudget⟩⟩
      exact (Nat.add_le_add_left (card_le_length hC.subset) depth).trans hcutoff
    · have hne : candidates ++ excluded ≠ [] := fun hnil ↦ hleaf (List.append_eq_nil_iff.mp hnil)
      have hentered :
          (Enumeration.mk s.best ((s.exploredNodes + 1) % (usizeMax + 1))).exploredNodes ≤
            maximumNodes := not_lt.mp hbudget
      have hrecurse : ∀ P X s, P.length < fuel → s.exploredNodes ≤ maximumNodes →
          Enumerates checks G maximumNodes (depth + 1) P X (fun _ ↦ True) s
            (bronKerbosch checks adjacency maximumNodes fuel (depth + 1) P X s) :=
        fun P X s hP hs ↦ ih hP hs
      have hloop := enumerates_extendLoop hG hrecurse (Nat.lt_succ_iff.mp hfuel) hentered
        (extension adjacency candidates excluded) excluded
      exact (hloop.imp fun C hC _ ↦ exists_mem_extension hG hne hC).enter rfl

end Spec

/-! ## The bound -/

section Bound

variable (m : DistanceMatrix) (diameter : ℚ)

/-- Points are joined if they may not share a cluster. -/
def incompatibilityGraph : SimpleGraph (Fin m.size) where
  Adj i j := incompatible m diameter i j = true
  symm := ⟨fun i j hadj ↦ (incompatible_comm m j i).trans hadj⟩
  loopless := ⟨fun i hadj ↦ Bool.false_ne_true ((incompatible_self m i).symm.trans hadj)⟩

variable {m diameter}

theorem card_le_clusters {C : Finset (Fin m.size)}
    (hC : (incompatibilityGraph m diameter).IsClique C) (hdiameter : 0 ≤ diameter)
    {c : Fin m.size → ℕ} (hc : Feasible m.distance diameter c) : C.card ≤ (clusters c).card := by
  have hproper := (proper_iff m hdiameter c).mpr hc
  have hinjective : Set.InjOn c C := by
    intro i hi j hj hsame
    by_contra hne
    have hadj : incompatible m diameter i j = true := hC hi hj hne
    rw [hproper i j hsame] at hadj
    exact Bool.false_ne_true hadj
  rw [card_clusters]
  exact Finset.card_le_card_of_injOn c (fun i _ ↦ Finset.mem_image_of_mem c (Finset.mem_univ i))
    hinjective

theorem exists_clique_one : ∃ C, (incompatibilityGraph m diameter).IsNClique 1 C :=
  ⟨{⟨0, m.size_pos⟩}, by simp [SimpleGraph.isNClique_iff]⟩

theorem exists_clique_greedy : ∃ C, (incompatibilityGraph m diameter).IsNClique
    (greedyCliqueBound (incompatible m diameter) (degree m diameter)) C := by
  have hpairs : (greedyClique (incompatible m diameter) (degree m diameter)).Pairwise
      fun a b ↦ incompatible m diameter b a = true := pairwise_greedyClique
  have hadj : (greedyClique (incompatible m diameter) (degree m diameter)).Pairwise
      (incompatibilityGraph m diameter).Adj :=
    hpairs.imp fun {a b} h ↦ (incompatible_comm m a b).trans h
  have hnodup : (greedyClique (incompatible m diameter) (degree m diameter)).Nodup :=
    hadj.imp fun {a b} h ↦ h.ne
  unfold greedyCliqueBound
  cases max_choice (greedyClique (incompatible m diameter) (degree m diameter)).length 1 with
  | inr hone =>
    rw [hone]
    exact exists_clique_one
  | inl hlength =>
    rw [hlength]
    refine ⟨(greedyClique (incompatible m diameter) (degree m diameter)).toFinset, ?_, ?_⟩
    · intro i hi j hj hne
      have := (incompatibilityGraph m diameter).symm
      exact hadj.forall (List.mem_toFinset.mp hi) (List.mem_toFinset.mp hj) hne
    · exact toFinset_card_of_nodup hnodup

/-- The enumeration of the whole graph. -/
theorem certified_of_enumerated {maximumNodes : ℕ} {exhausted : Bool} {s : Enumeration}
    (hresult : Enumerated (incompatibilityGraph m diameter) maximumNodes 0 (List.finRange m.size) []
      (fun _ ↦ True) ⟨greedyCliqueBound (incompatible m diameter) (degree m diameter), 0⟩
      exhausted s) :
    (∃ C, (incompatibilityGraph m diameter).IsNClique (max s.best 1) C) ∧
      (exhausted = false → max s.best 1 = (incompatibilityGraph m diameter).cliqueNum) := by
  have hclique : ∃ C, (incompatibilityGraph m diameter).IsNClique (max s.best 1) C := by
    cases max_choice s.best 1 with
    | inr hone =>
      rw [hone]
      exact exists_clique_one
    | inl hbest =>
      rw [hbest]
      cases hresult.sound with
      | inl hgreedy =>
        rw [hgreedy]
        exact exists_clique_greedy
      | inr hfound =>
        obtain ⟨C, hC, -, hcard⟩ := hfound
        exact ⟨C, hC, by omega⟩
  refine ⟨hclique, fun hexhausted ↦ le_antisymm ?_ ?_⟩
  · obtain ⟨C, hC⟩ := hclique
    rw [← hC.card_eq]
    exact hC.isClique.card_le_cliqueNum
  · obtain ⟨C, hC⟩ := (incompatibilityGraph m diameter).maximumClique_exists
    have hcandidates : {v | v ∈ List.finRange m.size} = Set.univ :=
      Set.eq_univ_of_forall mem_finRange
    have hexcluded : {v : Fin m.size | v ∈ []} = ∅ :=
      Set.eq_empty_of_forall_notMem fun _ hmem ↦ absurd hmem not_mem_nil
    have hsaturated := saturated_of_isMaximumClique hC
    rw [← hcandidates, ← hexcluded] at hsaturated
    have hle := hresult.complete hexhausted C hsaturated trivial
    rw [Nat.zero_add] at hle
    rw [← SimpleGraph.maximumClique_card_eq_cliqueNum C hC]
    exact hle.trans (le_max_left _ _)

/-- The bound is the size of a clique, so that every feasible partition has as many clusters, and it
is the size of a maximum clique if it is said to be one.  There is a bound for every budget, except
that without a limit a build with checks panics at the overflow of the count of the nodes. -/
theorem clusterCountBound_certified (checks : Bool) (maximumNodes : ℕ) (hdiameter : 0 ≤ diameter) :
    (∀ bound, certifiedClusterCountBound checks m (some diameter) maximumNodes = .ok bound →
      (∃ C, (incompatibilityGraph m diameter).IsNClique bound.lowerBound C) ∧
      (∀ c : Fin m.size → ℕ, Feasible m.distance diameter c →
        bound.lowerBound ≤ (clusters c).card) ∧
      (bound.cliqueIsMaximum = true →
        bound.lowerBound = (incompatibilityGraph m diameter).cliqueNum)) ∧
    ((∃ bound, certifiedClusterCountBound checks m (some diameter) maximumNodes = .ok bound) ∨
      (certifiedClusterCountBound checks m (some diameter) maximumNodes = .error .overflow ∧
        checks = true ∧ usizeMax ≤ maximumNodes)) := by
  have hbound : certifiedClusterCountBound checks m (some diameter) maximumNodes =
      bronKerbosch checks (incompatible m diameter) maximumNodes (m.size + 1) 0
        (List.finRange m.size) []
        ⟨greedyCliqueBound (incompatible m diameter) (degree m diameter), 0⟩ >>=
      fun result ↦ pure ⟨max result.2.best 1, !result.1, result.2.exploredNodes⟩ := by
    rw [certifiedClusterCountBound, if_neg (not_lt.mpr hdiameter), if_neg m.size_pos.ne']
  have hfuel : (List.finRange m.size).length < m.size + 1 := by
    rw [length_finRange]
    exact Nat.lt_succ_self _
  have hstart : (Enumeration.mk (greedyCliqueBound (incompatible m diameter) (degree m diameter))
      0).exploredNodes ≤ maximumNodes := Nat.zero_le _
  rw [hbound]
  cases enumerates_bronKerbosch (G := incompatibilityGraph m diameter) (fun _ _ ↦ Iff.rfl) hfuel
      hstart with
  | inr hoverflow =>
    rw [hoverflow.1]
    exact ⟨fun _ hok ↦ (nomatch hok), .inr ⟨rfl, hoverflow.2⟩⟩
  | inl hresult =>
    obtain ⟨exhausted, s, hok, henumerated⟩ := hresult
    obtain ⟨hclique, hmaximum⟩ := certified_of_enumerated henumerated
    rw [hok, ok_bind]
    refine ⟨fun bound hbound ↦ ?_, .inl ⟨_, rfl⟩⟩
    cases hbound
    refine ⟨hclique, fun c hc ↦ ?_, fun hflag ↦ hmaximum ((Bool.not_eq_true' exhausted).mp hflag)⟩
    obtain ⟨C, hC⟩ := hclique
    exact hC.card_eq.symm.trans_le (card_le_clusters hC.isClique hdiameter hc)

theorem clusterCountBound_certified_samePlace :
    ∃ bound, certifiedClusterCountBound true samePlace (some 0) 5 = .ok bound ∧
      ∃ C, (incompatibilityGraph samePlace 0).IsNClique bound.lowerBound C := by
  obtain ⟨hcertified, hexists⟩ := clusterCountBound_certified (m := samePlace) true 5 le_rfl
  obtain ⟨bound, hbound⟩ := hexists.resolve_right fun hoverflow ↦ absurd hoverflow.2.2 (by decide)
  exact ⟨bound, hbound, (hcertified bound hbound).1⟩

end Bound

end SoulSystem.Scirust.Solvers
