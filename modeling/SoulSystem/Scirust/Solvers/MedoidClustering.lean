import Mathlib.Data.List.Sort
import SoulSystem.Library.Labelling

/-!
# Diameter-constrained medoid clustering

Points are partitioned so that no two points of a cluster are further apart than the diameter.  The
number of clusters comes first, then the sum of the distances to the medoids, and then the canonical
assignment.  A greedy partition, perhaps improved by local moves, is the first incumbent of a branch
and bound that colours the graph of the incompatible pairs.

Distances are rationals, which are finite and whose sums are exact.
-/

namespace SoulSystem.Scirust.Solvers

open Library FirstOccurrence Function

/-! ## Matrices -/

inductive MedoidClusteringError where
  | emptyMatrix
  | sizeMismatch (expected found : ℕ)
  | nonFiniteDistance (row col : ℕ)
  | negativeDistance (row col : ℕ)
  | nonZeroDiagonal (index : ℕ)
  | asymmetricPair (row col : ℕ)
  | invalidDiameter
  | invalidBudget
  deriving DecidableEq

/-- A symmetric matrix without negative entries and with a diagonal of zeros, row after row. -/
structure DistanceMatrix where
  size : ℕ
  values : List ℚ
  size_pos : 0 < size
  length_eq : values.length = size * size
  nonneg : ∀ row < size, ∀ col < size, 0 ≤ values.getD (row * size + col) 0
  diagonal : ∀ index < size, values.getD (index * size + index) 0 = 0
  symmetric : ∀ row < size, ∀ col < size,
    values.getD (row * size + col) 0 = values.getD (col * size + row) 0

namespace DistanceMatrix

/-- The first pair of a list that is refused. -/
def firstPair (size : ℕ) (refused : ℕ → ℕ → Bool) : Option (ℕ × ℕ) :=
  ((List.range size).flatMap fun row ↦ (List.range size).map fun col ↦ (row, col)).find? fun p ↦
    refused p.1 p.2

theorem firstPair_eq_none {size : ℕ} {refused : ℕ → ℕ → Bool}
    (hnone : firstPair size refused = none) :
    ∀ row < size, ∀ col < size, refused row col = false := by
  intro row hrow col hcol
  have hmem : (row, col) ∈
      (List.range size).flatMap fun row ↦ (List.range size).map fun col ↦ (row, col) :=
    List.mem_flatMap.mpr ⟨row, List.mem_range.mpr hrow, List.mem_map.mpr
      ⟨col, List.mem_range.mpr hcol, rfl⟩⟩
  exact Bool.eq_false_iff.mpr (List.find?_eq_none.mp hnone (row, col) hmem)

/-- An entry may be wrong in several ways, of which the first is reported. -/
def new (size : ℕ) (values : List ℚ) : Except MedoidClusteringError DistanceMatrix :=
  let value := fun row col ↦ values.getD (row * size + col) 0
  if hsize : size = 0 then .error .emptyMatrix
  else if hlength : values.length = size * size then
    match hnegative : firstPair size fun row col ↦ decide (value row col < 0) with
    | some (row, col) => .error (.negativeDistance row col)
    | none =>
      match hdiagonal : (List.range size).find? fun index ↦ value index index != 0 with
      | some index => .error (.nonZeroDiagonal index)
      | none =>
        match hpair : firstPair size fun row col ↦
            decide (row < col) && value row col != value col row with
        | some (row, col) => .error (.asymmetricPair row col)
        | none =>
          .ok {
            size := size
            values := values
            size_pos := Nat.pos_of_ne_zero hsize
            length_eq := hlength
            nonneg := fun row hrow col hcol ↦ not_lt.mp
              (of_decide_eq_false (firstPair_eq_none hnegative row hrow col hcol))
            diagonal := fun index hindex ↦ by
              have hzero := List.find?_eq_none.mp hdiagonal index (List.mem_range.mpr hindex)
              exact bne_eq_false_iff_eq.mp (Bool.eq_false_iff.mpr hzero)
            symmetric := fun row hrow col hcol ↦ by
              have hupper := firstPair_eq_none hpair row hrow col hcol
              have hlower := firstPair_eq_none hpair col hcol row hrow
              rcases lt_trichotomy row col with hlt | heq | hlt
              · rw [decide_eq_true hlt, Bool.true_and] at hupper
                exact bne_eq_false_iff_eq.mp hupper
              · rw [heq]
              · rw [decide_eq_true hlt, Bool.true_and] at hlower
                exact (bne_eq_false_iff_eq.mp hlower).symm }
  else .error (.sizeMismatch (size * size) values.length)

variable (m : DistanceMatrix)

instance : NeZero m.size := ⟨m.size_pos.ne'⟩

def distance (i j : Fin m.size) : ℚ := m.values.getD (i * m.size + j) 0

theorem distance_nonneg (i j : Fin m.size) : 0 ≤ m.distance i j := m.nonneg i i.isLt j j.isLt

theorem distance_self (i : Fin m.size) : m.distance i i = 0 := m.diagonal i i.isLt

theorem distance_comm (i j : Fin m.size) : m.distance i j = m.distance j i :=
  m.symmetric i i.isLt j j.isLt

end DistanceMatrix

/-! ## Candidates -/

/-- The colours of the vertices; `usize::MAX`, which marks an uncoloured vertex, is `none`. -/
abbrev Colors (n : ℕ) := Fin n → Option ℕ

/-- A complete partition in raw colours. -/
structure Candidate (n : ℕ) where
  colors : Colors n
  count : ℕ
  cost : ℚ

section Candidates

variable {n : ℕ} (distance : Fin n → Fin n → ℚ)

def countUsed (colors : Colors n) : ℕ := ((List.ofFn colors).foldl note []).length

def members (colors : Colors n) (label : ℕ) : List (Fin n) :=
  (List.finRange n).filter fun p ↦ colors p = some label

def sumTo (points : List (Fin n)) (candidate : Fin n) : ℚ :=
  (points.map fun member ↦ distance member candidate).sum

/-- The medoid and the cost of a non-empty cluster.  The infinite cost that the loop starts with
gives way to that of the first member. -/
def clusterMedoidCost (first : Fin n) (rest : List (Fin n)) : Fin n × ℚ :=
  rest.foldl (fun best candidate ↦
    let cost := sumTo distance (first :: rest) candidate
    if cost < best.2 then (candidate, cost) else best) (first, sumTo distance (first :: rest) first)

/-- The labels up to the bound and the bound itself are counted. -/
def partitionCost (colors : Colors n) (labelBound : ℕ) : ℚ :=
  (List.range (labelBound + 1)).foldl (fun total label ↦
    match members colors label with
    | [] => total
    | first :: rest => total + (clusterMedoidCost distance first rest).2) 0

/-- Labels by first occurrence, from the labels that some colours already have. -/
def canonicalFrom {α : Type} [DecidableEq α] (mapping : List (α × ℕ)) (next : ℕ) : List α → List ℕ
  | [] => []
  | color :: colors =>
    match mapping.find? fun entry ↦ entry.1 = color with
    | some (_, label) => label :: canonicalFrom mapping next colors
    | none => next :: canonicalFrom (mapping ++ [(color, next)]) (next + 1) colors

def canonicalLabels (colors : Colors n) : List ℕ := canonicalFrom [] 0 (List.ofFn colors)

/-- The count decides, then the cost, and then the canonical labels. -/
def Candidate.beats (a b : Candidate n) : Bool :=
  if a.count ≠ b.count then decide (a.count < b.count)
  else
    match compare a.cost b.cost with
    | .lt => true
    | .gt => false
    | .eq => decide (canonicalLabels a.colors < canonicalLabels b.colors)

/-- There is no medoid without members. -/
def medoidOf : List (Fin n) → Option (Fin n)
  | [] => none
  | first :: rest => some (clusterMedoidCost distance first rest).1

/-- Canonical assignments and the medoid of each label. -/
def canonicalize (colors : Colors n) : Option (List ℕ × List (Fin n)) := do
  let assignments := canonicalLabels colors
  let labelCount := (assignments.max?.map (· + 1)).getD 0
  let medoids ← (List.range labelCount).mapM fun label ↦
    medoidOf distance ((List.finRange n).filter fun p ↦ assignments[p.val]? = some label)
  return (assignments, medoids)

end Candidates

/-! ## Bounds from below and above -/

section Bounds

variable {n : ℕ} (distance : Fin n → Fin n → ℚ) (incompatible : Fin n → Fin n → Bool)
  (degrees : Fin n → ℕ)

/-- A clique of incompatible vertices, from the highest degrees down. -/
def greedyClique : List (Fin n) :=
  ((List.finRange n).insertionSort fun a b ↦
      ((compare (degrees b) (degrees a)).then (compare a b)).isLE = true).foldl
    (fun clique vertex ↦
      if clique.all fun member ↦ incompatible vertex member then clique ++ [vertex] else clique) []

def greedyCliqueBound : ℕ := max (greedyClique incompatible degrees).length 1

/-- The vertex may take the colour, which nothing incompatible has. -/
def feasible (colors : Colors n) (vertex : Fin n) (color : ℕ) : Bool :=
  (members colors color).all fun other ↦ !incompatible vertex other

/-- Every vertex takes the first colour that nothing incompatible before it has. -/
def firstFit : Colors n × ℕ :=
  (List.finRange n).foldl (fun state vertex ↦
    let chosen := (List.range state.2).find? fun color ↦
      ((members state.1 color).filter fun other ↦ other < vertex).all fun other ↦
        !incompatible vertex other
    match chosen with
    | some color => (update state.1 vertex (some color), state.2)
    | none => (update state.1 vertex (some state.2), state.2 + 1)) (fun _ ↦ none, 0)

def greedyFirstFit : Candidate n :=
  let (colors, used) := firstFit incompatible
  ⟨colors, used, partitionCost distance colors used⟩

/-! ## Local improvement -/

/-- A move that is feasible and that beats the incumbent. -/
def tryMove (incumbent : Candidate n) (vertex : Fin n) (target : ℕ) : Option (Candidate n) :=
  if some target = incumbent.colors vertex then none
  else if ((members incumbent.colors target).filter fun other ↦ other ≠ vertex).all fun other ↦
      !incompatible vertex other then
    let trialColors := update incumbent.colors vertex (some target)
    let trial : Candidate n :=
      ⟨trialColors, countUsed trialColors, partitionCost distance trialColors incumbent.count⟩
    if trial.beats incumbent then some trial else none
  else none

/-- The first move of a vertex that improves, with a mark if there is one. -/
def improveVertex (state : Candidate n × Bool) (vertex : Fin n) : Candidate n × Bool :=
  match (List.range state.1.count).findSome? (tryMove distance incompatible state.1 vertex) with
  | some trial => (trial, true)
  | none => state

def localImprove : ℕ → Candidate n → Candidate n
  | 0, incumbent => incumbent
  | iterations + 1, incumbent =>
    let (improved, changed) :=
      (List.finRange n).foldl (improveVertex distance incompatible) (incumbent, false)
    if changed then localImprove iterations improved else improved

end Bounds

/-! ## Branch and bound -/

/-- What a search changes. -/
structure Search (n : ℕ) where
  exploredNodes : ℕ
  prunedNodes : ℕ
  exhaustedBudget : Bool
  incumbent : Candidate n

section Branch

variable {n : ℕ} [NeZero n] (distance : Fin n → Fin n → ℚ) (incompatible : Fin n → Fin n → Bool)
  (degrees : Fin n → ℕ) (nodeBudget : ℕ)

/-- The number of colours among the incompatible vertices. -/
def saturation (colors : Colors n) (vertex : Fin n) : ℕ :=
  ((List.finRange n).foldl (fun seen other ↦
    if incompatible vertex other ∧ colors other ≠ none ∧ colors other ∉ seen then
      seen ++ [colors other]
    else seen) []).length

/-- The last maximum of a list. -/
def maxBy {α : Type} (cmp : α → α → Ordering) : List α → Option α
  | [] => none
  | a :: as => some (as.foldl (fun best a ↦ if cmp best a = .gt then best else a) a)

/-- The uncoloured vertex of the highest saturation, of these the one of the highest degree, and of
these the first. -/
def select (colors : Colors n) : Fin n :=
  let cmp := fun a b ↦
    ((compare (saturation incompatible colors a) (saturation incompatible colors b)).then
      (compare (degrees a) (degrees b))).then (compare b a)
  (maxBy cmp ((List.finRange n).filter fun v ↦ colors v = none)).getD 0

/-- One more than the largest colour. -/
def usedColors (colors : Colors n) : ℕ :=
  ((List.ofFn colors).filterMap id).foldl (fun bound c ↦ max bound (c + 1)) 0

/-- A complete colouring becomes the incumbent if it beats it. -/
def visitLeaf (colors : Colors n) (s : Search n) : Search n :=
  let used := countUsed colors
  let candidate : Candidate n := ⟨colors, used, partitionCost distance colors used⟩
  if candidate.beats s.incumbent then { s with incumbent := candidate } else s

/-- The branches below a partial colouring that leaves some vertices uncoloured. -/
def branch : ℕ → Colors n → Search n → Search n
  | 0, colors, s => if s.exhaustedBudget then s else visitLeaf distance colors s
  | uncolored + 1, colors, s =>
    if s.exhaustedBudget then s
    else if nodeBudget ≤ s.exploredNodes then { s with exhaustedBudget := true }
    else
      let vertex := select incompatible degrees colors
      let used := usedColors colors
      let entered := { s with exploredNodes := s.exploredNodes + 1 }
      if entered.incumbent.count < used then
        { entered with prunedNodes := entered.prunedNodes + 1 }
      else
        let tried := (List.range (min used entered.incumbent.count)).foldl (fun s color ↦
          if s.exhaustedBudget then s
          else if feasible incompatible colors vertex color then
            branch uncolored (update colors vertex (some color)) s
          else s) entered
        if tried.exhaustedBudget then tried
        else if used < tried.incumbent.count then
          branch uncolored (update colors vertex (some used)) tried
        else { tried with prunedNodes := tried.prunedNodes + 1 }

end Branch

/-! ## The solver -/

inductive CertifiedClusteringMode where
  | exact
  | hybrid (maximumNodes maximumIterations : ℕ)

def CertifiedClusteringMode.hasInvalidBudget : CertifiedClusteringMode → Bool
  | .exact => false
  | .hybrid maximumNodes maximumIterations => maximumNodes == 0 || maximumIterations == 0

structure CertifiedMedoidClusteringConfig where
  maximumClusterDiameter : ℚ
  mode : CertifiedClusteringMode

structure ClusteringCertificate where
  objectiveClusterCount : ℕ
  objectiveMedoidCost : ℚ
  lowerBoundClusterCount : ℕ
  lowerBoundMedoidCost : Option ℚ
  provenOptimal : Bool
  optimalityGap : ℚ
  exploredNodes : ℕ
  prunedNodes : ℕ

structure CertifiedMedoidClusteringResult (n : ℕ) where
  assignments : List ℕ
  medoidIndices : List (Fin n)
  certificate : ClusteringCertificate

/-- `usize::MAX`. -/
def usizeMax : ℕ := 2 ^ 64 - 1

def incompatible (m : DistanceMatrix) (diameter : ℚ) (i j : Fin m.size) : Bool :=
  decide (i ≠ j ∧ diameter < m.distance i j)

def degree (m : DistanceMatrix) (diameter : ℚ) (i : Fin m.size) : ℕ :=
  ((List.finRange m.size).filter fun j ↦ incompatible m diameter i j).length

def nodeBudget : CertifiedClusteringMode → ℕ
  | .exact => usizeMax
  | .hybrid maximumNodes _ => maximumNodes

/-- The incumbent that the search starts with. -/
def warmStart (m : DistanceMatrix) (diameter : ℚ) : CertifiedClusteringMode → Candidate m.size
  | .exact => greedyFirstFit m.distance (incompatible m diameter)
  | .hybrid _ maximumIterations =>
    localImprove m.distance (incompatible m diameter) maximumIterations
      (greedyFirstFit m.distance (incompatible m diameter))

/-- The search from its first node. -/
def search (m : DistanceMatrix) (diameter : ℚ) (mode : CertifiedClusteringMode) : Search m.size :=
  branch m.distance (incompatible m diameter) (degree m diameter) (nodeBudget mode) m.size
    (fun _ ↦ none) ⟨0, 0, false, warmStart m diameter mode⟩

def certificate (m : DistanceMatrix) (diameter : ℚ) (s : Search m.size) : ClusteringCertificate :=
  let bound := greedyCliqueBound (incompatible m diameter) (degree m diameter)
  let provenOptimal := !s.exhaustedBudget
  { objectiveClusterCount := s.incumbent.count
    objectiveMedoidCost := s.incumbent.cost
    lowerBoundClusterCount := if provenOptimal then s.incumbent.count else bound
    lowerBoundMedoidCost := if provenOptimal then some s.incumbent.cost else none
    provenOptimal := provenOptimal
    optimalityGap :=
      if provenOptimal then 0
      else if bound < s.incumbent.count then ((s.incumbent.count - bound : ℕ) : ℚ)
      else s.incumbent.cost / (1 + s.incumbent.cost)
    exploredNodes := s.exploredNodes
    prunedNodes := s.prunedNodes }

/-- There is no result if the program panics. -/
def certifiedMedoidClustering (m : DistanceMatrix) (config : CertifiedMedoidClusteringConfig) :
    Option (Except MedoidClusteringError (CertifiedMedoidClusteringResult m.size)) :=
  if config.maximumClusterDiameter < 0 then some (.error .invalidDiameter)
  else if config.mode.hasInvalidBudget then some (.error .invalidBudget)
  else do
    let s := search m config.maximumClusterDiameter config.mode
    let (assignments, medoidIndices) ← canonicalize m.distance s.incumbent.colors
    return .ok ⟨assignments, medoidIndices, certificate m config.maximumClusterDiameter s⟩

end SoulSystem.Scirust.Solvers
