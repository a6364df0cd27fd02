import SoulSystem.Library.Greedy
import SoulSystem.Library.Machine
import SoulSystem.Ccos.Windows.Assembly

/-!
# The context scheduler

Every node is in one of three zones.  Two passes assign the zones anew under a token budget, one by
falling priority and one by falling priority per token, and a third one demotes HOT nodes until the
budget is kept.

Only the first pass counts the tokens of WARM nodes.  After the second one the HOT and WARM tokens
may exceed the extended budget.

The ratio of the extended budget is an exact rational, and no sum of tokens overflows.
-/

namespace SoulSystem.Ccos

open Library Std Memory

/-! ## Data model -/

inductive MemoryZone where
  | hot
  | warm
  | cold
  deriving DecidableEq

structure ScheduledNode where
  nodeId : Str
  tokenCost : ℕ
  accessFrequency : ℕ
  lastAccess : ℕ
  priorityScore : F64
  memoryZone : MemoryZone

structure AllocationStats where
  hot : ℕ
  warm : ℕ
  cold : ℕ
  hotTokens : ℕ
  budget : ℕ
  deriving DecidableEq

def AllocationStats.total (stats : AllocationStats) : ℕ := stats.hot + stats.warm + stats.cold

structure ContextScheduler where
  tokenBudget : ℕ
  warmRatio : ℚ
  nodes : ExtTreeMap Str ScheduledNode
  clock : ℕ

namespace ContextScheduler

def new (tokenBudget : ℕ) : ContextScheduler := ⟨max tokenBudget 1, 1, ∅, 0⟩

/-! ## Operations -/

def upsert (s : ContextScheduler) (nodeId : Str) (tokenCost : ℕ) (priorityScore : F64) :
    ContextScheduler :=
  let entry := (s.nodes[nodeId]?).getD ⟨nodeId, tokenCost, 0, s.clock, priorityScore, .cold⟩
  { s with
    nodes := s.nodes.insert nodeId
      { entry with tokenCost := tokenCost, priorityScore := priorityScore, lastAccess := s.clock } }

def touch (s : ContextScheduler) (nodeId : Str) : ContextScheduler :=
  let clock := s.clock + 1
  match s.nodes[nodeId]? with
  | none => { s with clock := clock }
  | some n =>
    let n := { n with accessFrequency := n.accessFrequency + 1, lastAccess := clock }
    { s with clock := clock, nodes := s.nodes.insert nodeId n }

/-- By falling score, and by id. -/
def falling (score : ScheduledNode → F64) (a b : Str × ScheduledNode) : Ordering :=
  ((Windows.partialCmp (score b.2) (score a.2)).getD .eq).then (compare a.1 b.1)

/-- By rising priority, and by id. -/
def risingPriority (a b : Str × ScheduledNode) : Ordering :=
  ((Windows.partialCmp a.2.priorityScore b.2.priorityScore).getD .eq).then (compare a.1 b.1)

/-- `sort_by`. -/
def sortIds (order : Str × ScheduledNode → Str × ScheduledNode → Ordering)
    (entries : List (Str × ScheduledNode)) : List Str :=
  (entries.insertionSort fun a b ↦ order a b ≠ .gt).map Prod.fst

def orderedByPriority (s : ContextScheduler) : List Str :=
  sortIds (falling ScheduledNode.priorityScore) s.nodes.toList

/-- The priority per token. -/
def density (n : ScheduledNode) : F64 :=
  n.priorityScore.div (Windows.ofUsize (max n.tokenCost 1))

def orderedByDensity (s : ContextScheduler) : List Str :=
  sortIds (falling density) s.nodes.toList

def warmBudget (s : ContextScheduler) : ℕ :=
  s.tokenBudget + ⌊(s.tokenBudget : ℚ) * max s.warmRatio 0⌋.toNat

/-- The counter of a pass, and its statistics so far. -/
structure Pass where
  used : ℕ
  stats : AllocationStats

/-- The zone of the next node.  `charged` says whether a WARM node is charged to the counter. -/
def place (charged : Bool) (budget warmBudget : ℕ) (pass : Pass) (cost : ℕ) : MemoryZone × Pass :=
  if pass.used + cost ≤ budget then
    let used := pass.used + cost
    (.hot, ⟨used, { pass.stats with hot := pass.stats.hot + 1, hotTokens := used }⟩)
  else if pass.used + cost ≤ warmBudget then
    let used := if charged then pass.used + cost else pass.used
    (.warm, ⟨used, { pass.stats with warm := pass.stats.warm + 1 }⟩)
  else (.cold, { pass with stats := { pass.stats with cold := pass.stats.cold + 1 } })

/-- The loop of both passes. -/
def placeAll (charged : Bool) (budget warmBudget : ℕ) :
    List Str → ExtTreeMap Str ScheduledNode → Pass → ExtTreeMap Str ScheduledNode × AllocationStats
  | [], nodes, pass => (nodes, pass.stats)
  | id :: ids, nodes, pass =>
    match nodes[id]? with
    | none => placeAll charged budget warmBudget ids nodes pass
    | some n =>
      let (zone, pass) := place charged budget warmBudget pass n.tokenCost
      placeAll charged budget warmBudget ids (nodes.insert id { n with memoryZone := zone })
        pass

/-- A pass from its beginning. -/
def assignZones (s : ContextScheduler) (charged : Bool) (ids : List Str) :
    ContextScheduler × AllocationStats :=
  let (nodes, stats) := placeAll charged s.tokenBudget s.warmBudget ids s.nodes
    ⟨0, ⟨0, 0, 0, 0, s.tokenBudget⟩⟩
  ({ s with nodes := nodes }, stats)

def allocateContext (s : ContextScheduler) : ContextScheduler × AllocationStats :=
  s.assignZones true s.orderedByPriority

def optimizeBudget (s : ContextScheduler) : ContextScheduler × AllocationStats :=
  s.assignZones false s.orderedByDensity

/-- The HOT nodes, lowest priority first. -/
def hotByPriority (s : ContextScheduler) : List Str :=
  sortIds risingPriority (s.nodes.toList.filter fun entry ↦ entry.2.memoryZone = .hot)

/-- The loop of `evict_context`, with the HOT tokens that are left and what was evicted so far. -/
def demote (budget : ℕ) :
    List Str → ExtTreeMap Str ScheduledNode → ℕ → ℕ → ExtTreeMap Str ScheduledNode × ℕ
  | [], nodes, _, evicted => (nodes, evicted)
  | id :: ids, nodes, hotTokens, evicted =>
    if hotTokens ≤ budget then (nodes, evicted)
    else
      match nodes[id]? with
      | none => demote budget ids nodes hotTokens evicted
      | some n =>
        demote budget ids (nodes.insert id { n with memoryZone := .warm })
          (hotTokens - n.tokenCost) (evicted + 1)

def evictContext (s : ContextScheduler) : ContextScheduler × ℕ :=
  let hot := s.hotByPriority
  let hotTokens := (hot.map fun id ↦ (s.nodes[id]?).elim 0 ScheduledNode.tokenCost).sum
  let (nodes, evicted) := demote s.tokenBudget hot s.nodes hotTokens 0
  ({ s with nodes := nodes }, evicted)

/-- The ids of the nodes in a zone. -/
def zone (s : ContextScheduler) (z : MemoryZone) : List Str :=
  (s.nodes.toList.filter fun entry ↦ entry.2.memoryZone = z).map Prod.fst

/-- The tokens of the nodes in a zone. -/
def tokenUsage (s : ContextScheduler) (z : MemoryZone) : ℕ :=
  ((s.nodes.toList.filter fun entry ↦ entry.2.memoryZone = z).map
    fun entry ↦ entry.2.tokenCost).sum

def hotContext (s : ContextScheduler) : List Str := s.zone .hot

def warmContext (s : ContextScheduler) : List Str := s.zone .warm

def coldContext (s : ContextScheduler) : List Str := s.zone .cold

def hotTokenUsage (s : ContextScheduler) : ℕ := s.tokenUsage .hot

/-! ## Runs -/

inductive Event where
  | upsert (nodeId : Str) (tokenCost : ℕ) (priorityScore : F64)
  | touch (nodeId : Str)
  | allocateContext
  | optimizeBudget
  | evictContext

def apply (s : ContextScheduler) : Event → ContextScheduler
  | .upsert nodeId tokenCost priorityScore => s.upsert nodeId tokenCost priorityScore
  | .touch nodeId => s.touch nodeId
  | .allocateContext => s.allocateContext.1
  | .optimizeBudget => s.optimizeBudget.1
  | .evictContext => s.evictContext.1

def machine : Machine ContextScheduler Event := ⟨fun s e ↦ some (s.apply e)⟩

/-- The budgets are kept, and the statistics are those of the zones. -/
structure WithinBudgets (s : ContextScheduler) (stats : AllocationStats) : Prop where
  hotTokens : s.hotTokenUsage = stats.hotTokens
  hot_le : stats.hotTokens ≤ s.tokenBudget
  warm_le : s.hotTokenUsage + s.tokenUsage .warm ≤
    s.tokenBudget + ⌊(s.tokenBudget : ℚ) * s.warmRatio⌋.toNat
  hot : stats.hot = s.hotContext.length
  warm : stats.warm = s.warmContext.length
  cold : stats.cold = s.coldContext.length
  total : stats.total = s.nodes.size

/-- What is promised right after an event. -/
def KeepsBudgets (s : ContextScheduler) : Event → Prop
  | .upsert _ _ _ | .touch _ => True
  | .allocateContext => WithinBudgets s.allocateContext.1 s.allocateContext.2
  | .optimizeBudget => WithinBudgets s.optimizeBudget.1 s.optimizeBudget.2
  | .evictContext =>
    s.evictContext.1.hotTokenUsage ≤ s.tokenBudget ∧
      ∀ id, id ∈ s.nodes → id ∈ s.evictContext.1.nodes

/-! ## A pass over a list of costs -/

section Costs

variable (charged : Bool) (budget warmBudget : ℕ)

/-- The costs with the zones that they are placed in. -/
def placements : Pass → List ℕ → List (MemoryZone × ℕ)
  | _, [] => []
  | pass, cost :: costs =>
    let (zone, next) := place charged budget warmBudget pass cost
    (zone, cost) :: placements next costs

/-- The pass after all costs. -/
def passAfter : Pass → List ℕ → Pass
  | pass, [] => pass
  | pass, cost :: costs => passAfter (place charged budget warmBudget pass cost).2 costs

/-- What a node of a zone adds to the count of another one. -/
def inZone (z placed : MemoryZone) (_cost : ℕ) : ℕ := if placed = z then 1 else 0

/-- What a node of a zone adds to the tokens of another one. -/
def tokensIn (z placed : MemoryZone) (cost : ℕ) : ℕ := if placed = z then cost else 0

/-- The sum of a number for every placement. -/
def sumOf (weight : MemoryZone → ℕ → ℕ) (placed : List (MemoryZone × ℕ)) : ℕ :=
  (placed.map fun p ↦ weight p.1 p.2).sum

variable {charged budget warmBudget} {pass : Pass} {cost : ℕ} {costs : List ℕ}
  {weight : MemoryZone → ℕ → ℕ}

theorem place_hot (hhot : pass.used + cost ≤ budget) :
    place charged budget warmBudget pass cost =
      (.hot, ⟨pass.used + cost,
        { pass.stats with hot := pass.stats.hot + 1, hotTokens := pass.used + cost }⟩) :=
  if_pos hhot

theorem place_warm (hhot : ¬ pass.used + cost ≤ budget) (hwarm : pass.used + cost ≤ warmBudget) :
    place charged budget warmBudget pass cost =
      (.warm, ⟨if charged then pass.used + cost else pass.used,
        { pass.stats with warm := pass.stats.warm + 1 }⟩) := by
  rw [place, if_neg hhot, if_pos hwarm]

theorem place_cold (hhot : ¬ pass.used + cost ≤ budget) (hwarm : ¬ pass.used + cost ≤ warmBudget) :
    place charged budget warmBudget pass cost =
      (.cold, { pass with stats := { pass.stats with cold := pass.stats.cold + 1 } }) := by
  rw [place, if_neg hhot, if_neg hwarm]

theorem sumOf_placements_cons : sumOf weight (placements charged budget warmBudget pass
    (cost :: costs)) = weight (place charged budget warmBudget pass cost).1 cost +
      sumOf weight (placements charged budget warmBudget (place charged budget warmBudget pass
        cost).2 costs) :=
  rfl

/-- The counts of a pass are those of its placements. -/
theorem stats_passAfter :
    (passAfter charged budget warmBudget pass costs).stats.hot = pass.stats.hot +
        sumOf (inZone .hot) (placements charged budget warmBudget pass costs) ∧
      (passAfter charged budget warmBudget pass costs).stats.warm = pass.stats.warm +
        sumOf (inZone .warm) (placements charged budget warmBudget pass costs) ∧
      (passAfter charged budget warmBudget pass costs).stats.cold = pass.stats.cold +
        sumOf (inZone .cold) (placements charged budget warmBudget pass costs) := by
  induction costs generalizing pass with
  | nil => exact ⟨rfl, rfl, rfl⟩
  | cons cost costs ih =>
    obtain ⟨hhot, hwarm, hcold⟩ := @ih (place charged budget warmBudget pass cost).2
    rw [sumOf_placements_cons, sumOf_placements_cons, sumOf_placements_cons, passAfter, hhot,
      hwarm, hcold]
    by_cases hfits : pass.used + cost ≤ budget
    · rw [place_hot hfits]
      simp only [inZone, reduceCtorEq, if_true, if_false]
      omega
    · by_cases hspill : pass.used + cost ≤ warmBudget
      · rw [place_warm hfits hspill]
        simp only [inZone, reduceCtorEq, if_true, if_false]
        omega
      · rw [place_cold hfits hspill]
        simp only [inZone, reduceCtorEq, if_true, if_false]
        omega

/-- `hot_tokens` follows the HOT placements: it is the counter as long as a node may become HOT. -/
theorem hotTokens_passAfter (hused : pass.used ≤ budget → pass.stats.hotTokens = pass.used) :
    (passAfter charged budget warmBudget pass costs).stats.hotTokens = pass.stats.hotTokens +
      sumOf (tokensIn .hot) (placements charged budget warmBudget pass costs) := by
  induction costs generalizing pass with
  | nil => rfl
  | cons cost costs ih =>
    rw [sumOf_placements_cons, passAfter]
    by_cases hfits : pass.used + cost ≤ budget
    · rw [place_hot hfits, ih fun _ ↦ rfl]
      simp only [tokensIn, if_true]
      have hcounter := hused (by omega)
      omega
    · by_cases hspill : pass.used + cost ≤ warmBudget
      · rw [place_warm hfits hspill, ih]
        · simp only [tokensIn, reduceCtorEq, if_false]
          omega
        · cases charged with
          | true => exact fun hle ↦ absurd hle hfits
          | false => exact hused
      · rw [place_cold hfits hspill, ih]
        · simp only [tokensIn, reduceCtorEq, if_false]
          omega
        · exact hused

theorem hot_placements_le : sumOf (tokensIn .hot) (placements charged budget warmBudget pass costs)
    ≤ budget - pass.used := by
  induction costs generalizing pass with
  | nil => exact Nat.zero_le _
  | cons cost costs ih =>
    have hrest := @ih (place charged budget warmBudget pass cost).2
    rw [sumOf_placements_cons]
    by_cases hfits : pass.used + cost ≤ budget
    · rw [place_hot hfits] at hrest ⊢
      simp only [tokensIn, if_true] at hrest ⊢
      omega
    · by_cases hspill : pass.used + cost ≤ warmBudget
      · rw [place_warm hfits hspill] at hrest ⊢
        simp only [tokensIn, reduceCtorEq, if_false] at hrest ⊢
        cases charged <;> simp only [if_true, if_false, Bool.false_eq_true] at hrest ⊢ <;> omega
      · rw [place_cold hfits hspill] at hrest ⊢
        simp only [tokensIn, reduceCtorEq, if_false] at hrest ⊢
        omega

/-- A pass that charges WARM nodes to its counter keeps the extended budget. -/
theorem charged_placements_le (hbudget : budget ≤ warmBudget) :
    sumOf (tokensIn .hot) (placements true budget warmBudget pass costs) +
      sumOf (tokensIn .warm) (placements true budget warmBudget pass costs) ≤
        warmBudget - pass.used := by
  induction costs generalizing pass with
  | nil => exact Nat.zero_le _
  | cons cost costs ih =>
    have hrest := @ih (place true budget warmBudget pass cost).2
    rw [sumOf_placements_cons, sumOf_placements_cons]
    by_cases hfits : pass.used + cost ≤ budget
    · rw [place_hot hfits] at hrest ⊢
      simp only [tokensIn, reduceCtorEq, if_true, if_false] at hrest ⊢
      omega
    · by_cases hspill : pass.used + cost ≤ warmBudget
      · rw [place_warm hfits hspill] at hrest ⊢
        simp only [tokensIn, reduceCtorEq, if_true, if_false] at hrest ⊢
        omega
      · rw [place_cold hfits hspill] at hrest ⊢
        simp only [tokensIn, reduceCtorEq, if_false] at hrest ⊢
        omega

/-- A pass that does not charge them packs by first fit and spills what is left out. -/
theorem uncharged_placements :
    pass.used + sumOf (tokensIn .hot) (placements false budget warmBudget pass costs) =
        Greedy.firstFit budget pass.used costs ∧
      sumOf (tokensIn .warm) (placements false budget warmBudget pass costs) =
        Greedy.spilled budget warmBudget pass.used costs := by
  induction costs generalizing pass with
  | nil => exact ⟨rfl, rfl⟩
  | cons cost costs ih =>
    obtain ⟨hhot, hwarm⟩ := @ih (place false budget warmBudget pass cost).2
    rw [sumOf_placements_cons, sumOf_placements_cons, Greedy.spilled]
    by_cases hfits : pass.used + cost ≤ budget
    · rw [place_hot hfits] at hhot hwarm ⊢
      rw [Greedy.firstFit_cons_of_le hfits, if_pos hfits, ← hhot, ← hwarm]
      simp only [tokensIn, reduceCtorEq, if_true, if_false]
      omega
    · rw [Greedy.firstFit_cons_of_lt (Nat.lt_of_not_le hfits), if_neg hfits]
      by_cases hspill : pass.used + cost ≤ warmBudget
      · rw [place_warm hfits hspill] at hhot hwarm ⊢
        simp only [Bool.false_eq_true, if_false] at hhot hwarm ⊢
        rw [if_pos hspill, ← hhot, ← hwarm]
        simp only [tokensIn, reduceCtorEq, if_true, if_false, zero_add, and_self]
      · rw [place_cold hfits hspill] at hhot hwarm ⊢
        rw [if_neg hspill, ← hhot, ← hwarm]
        simp only [tokensIn, reduceCtorEq, if_false]
        omega

end Costs

/-! ## A pass over the nodes -/

section Nodes

open SortedMap

variable {charged : Bool} {budget warmBudget : ℕ} {ids : List Str}
  {nodes : ExtTreeMap Str ScheduledNode} {pass : Pass} {weight : MemoryZone → ℕ → ℕ}

/-- The weight of a node by its zone and cost. -/
def weigh (weight : MemoryZone → ℕ → ℕ) (n : ScheduledNode) : ℕ := weight n.memoryZone n.tokenCost

/-- The costs of the nodes under some ids. -/
def costs (nodes : ExtTreeMap Str ScheduledNode) (ids : List Str) : List ℕ :=
  ids.map fun id ↦ (nodes[id]?).elim 0 ScheduledNode.tokenCost

theorem costs_insert_of_notMem {id : Str} {n : ScheduledNode} (hid : id ∉ ids) :
    costs (nodes.insert id n) ids = costs nodes ids := by
  apply List.map_congr_left
  intro other hother
  have hne : id ≠ other := by
    rintro rfl
    exact hid hother
  rw [getElem?_insert_ne n hne]

/-- A pass goes on with the zone and the counters that the next node gets. -/
theorem placeAll_cons {id : Str} {n : ScheduledNode} (hn : nodes[id]? = some n) :
    placeAll charged budget warmBudget (id :: ids) nodes pass =
      placeAll charged budget warmBudget ids
        (nodes.insert id
          { n with memoryZone := (place charged budget warmBudget pass n.tokenCost).1 })
        (place charged budget warmBudget pass n.tokenCost).2 := by
  rw [placeAll, hn]

/-- A pass over some nodes is one over their costs. -/
theorem placeAll_eq (hnodup : ids.Nodup) (hmem : ∀ id ∈ ids, id ∈ nodes) :
    (placeAll charged budget warmBudget ids nodes pass).2 =
        (passAfter charged budget warmBudget pass (costs nodes ids)).stats ∧
      total (weigh weight) (placeAll charged budget warmBudget ids nodes pass).1 +
          totalUnder (weigh weight) nodes ids =
        total (weigh weight) nodes +
          sumOf weight (placements charged budget warmBudget pass (costs nodes ids)) := by
  induction ids generalizing nodes pass with
  | nil => exact ⟨rfl, rfl⟩
  | cons id ids ih =>
    obtain ⟨hid, hids⟩ := List.nodup_cons.mp hnodup
    obtain ⟨n, hn⟩ := exists_getElem?_of_mem (hmem id List.mem_cons_self)
    have hcost : costs nodes (id :: ids) = n.tokenCost :: costs nodes ids := by
      rw [costs, List.map_cons, hn]
      rfl
    have hunder : totalUnder (weigh weight) nodes (id :: ids) =
        weigh weight n + totalUnder (weigh weight) nodes ids := by
      rw [totalUnder, List.map_cons, List.sum_cons, hn]
      rfl
    set placed := place charged budget warmBudget pass n.tokenCost with hplaced
    have hrest : ∀ other ∈ ids, other ∈ nodes.insert id { n with memoryZone := placed.1 } :=
      fun other hother ↦ mem_insert_iff.mpr (.inr (hmem other (List.mem_cons_of_mem id hother)))
    obtain ⟨hstats, htotal⟩ := @ih (nodes.insert id { n with memoryZone := placed.1 }) placed.2
      hids hrest
    rw [costs_insert_of_notMem hid] at hstats htotal
    rw [totalUnder_insert_of_notMem hid] at htotal
    have hinsert : total (weigh weight) (nodes.insert id { n with memoryZone := placed.1 }) +
        weigh weight n =
      total (weigh weight) nodes + weigh weight { n with memoryZone := placed.1 } :=
      total_insert hn
    have hweigh : weigh weight { n with memoryZone := placed.1 } = weight placed.1 n.tokenCost :=
      rfl
    rw [placeAll_cons hn, hcost, hunder, sumOf_placements_cons, passAfter, ← hplaced]
    refine ⟨hstats, ?_⟩
    omega

/-- After a pass over all nodes their weights are those of the placements. -/
theorem total_placeAll (hperm : ids.Perm nodes.keys) :
    total (weigh weight) (placeAll charged budget warmBudget ids nodes pass).1 =
      sumOf weight (placements charged budget warmBudget pass (costs nodes ids)) := by
  have hnodup : ids.Nodup := hperm.nodup_iff.mpr (nodup_keys nodes)
  have hmem : ∀ id ∈ ids, id ∈ nodes := fun id hid ↦ ExtTreeMap.mem_keys.mp (hperm.mem_iff.mp hid)
  have htotal := (@placeAll_eq charged budget warmBudget ids nodes pass weight hnodup hmem).2
  rw [totalUnder_of_perm hperm] at htotal
  omega

end Nodes

/-! ## The two passes -/

section Zones

open SortedMap

variable {s : ContextScheduler} {z : MemoryZone}

theorem sum_map_filter {α : Type*} (p : α → Prop) [DecidablePred p] (f : α → ℕ) (xs : List α) :
    ((xs.filter p).map f).sum = (xs.map fun x ↦ if p x then f x else 0).sum := by
  rw [List.sum_map_ite, List.map_const', List.sum_replicate, smul_zero, add_zero]

theorem sum_map_one {α : Type*} (xs : List α) : (xs.map fun _ ↦ 1).sum = xs.length := by
  rw [List.map_const', List.sum_replicate, smul_eq_mul, mul_one]

theorem tokenUsage_eq_total : s.tokenUsage z = total (weigh (tokensIn z)) s.nodes :=
  sum_map_filter (fun entry : Str × ScheduledNode ↦ entry.2.memoryZone = z) _ _

theorem length_zone_eq_total : (s.zone z).length = total (weigh (inZone z)) s.nodes := by
  rw [zone, List.length_map, ← sum_map_one]
  exact sum_map_filter (fun entry : Str × ScheduledNode ↦ entry.2.memoryZone = z) _ _

theorem total_one {nodes : ExtTreeMap Str ScheduledNode} :
    total (weigh fun _ _ ↦ 1) nodes = nodes.size := by
  rw [total, ← ExtTreeMap.length_toList]
  exact sum_map_one _

theorem sortIds_perm (order : Str × ScheduledNode → Str × ScheduledNode → Ordering)
    (entries : List (Str × ScheduledNode)) :
    (sortIds order entries).Perm (entries.map Prod.fst) :=
  (List.perm_insertionSort _ entries).map Prod.fst

theorem sortIds_perm_keys (order : Str × ScheduledNode → Str × ScheduledNode → Ordering) :
    (sortIds order s.nodes.toList).Perm s.nodes.keys := by
  rw [← ExtTreeMap.map_fst_toList_eq_keys]
  exact sortIds_perm order _

variable {charged : Bool} {ids : List Str}

/-- The placements of a pass over some nodes. -/
def placed (s : ContextScheduler) (charged : Bool) (ids : List Str) : List (MemoryZone × ℕ) :=
  placements charged s.tokenBudget s.warmBudget ⟨0, ⟨0, 0, 0, 0, s.tokenBudget⟩⟩
    (costs s.nodes ids)

theorem tokenUsage_assignZones (hperm : ids.Perm s.nodes.keys) :
    (s.assignZones charged ids).1.tokenUsage z = sumOf (tokensIn z) (s.placed charged ids) := by
  rw [tokenUsage_eq_total]
  exact total_placeAll hperm

theorem length_zone_assignZones (hperm : ids.Perm s.nodes.keys) :
    ((s.assignZones charged ids).1.zone z).length = sumOf (inZone z) (s.placed charged ids) := by
  rw [length_zone_eq_total]
  exact total_placeAll hperm

theorem stats_assignZones (hperm : ids.Perm s.nodes.keys) :
    (s.assignZones charged ids).2 = (passAfter charged s.tokenBudget s.warmBudget
      ⟨0, ⟨0, 0, 0, 0, s.tokenBudget⟩⟩ (costs s.nodes ids)).stats :=
  (@placeAll_eq charged s.tokenBudget s.warmBudget ids s.nodes _ (inZone .hot)
    (hperm.nodup_iff.mpr (nodup_keys s.nodes))
    fun _ hid ↦ ExtTreeMap.mem_keys.mp (hperm.mem_iff.mp hid)).1

/-- Every placement is in one of the zones. -/
theorem sumOf_one (placed : List (MemoryZone × ℕ)) :
    sumOf (fun _ _ ↦ 1) placed =
      sumOf (inZone .hot) placed + sumOf (inZone .warm) placed + sumOf (inZone .cold) placed := by
  induction placed with
  | nil => rfl
  | cons p rest ih =>
    have hcons (weight : MemoryZone → ℕ → ℕ) :
        sumOf weight (p :: rest) = weight p.1 p.2 + sumOf weight rest := rfl
    rw [hcons, hcons, hcons, hcons, ih]
    cases hzone : p.1 <;> simp only [inZone, reduceCtorEq, if_true, if_false] <;> omega

theorem warmBudget_eq (hratio : 0 ≤ s.warmRatio) :
    s.warmBudget = s.tokenBudget + ⌊(s.tokenBudget : ℚ) * s.warmRatio⌋.toNat := by
  rw [warmBudget, max_eq_left hratio]

/-- All that a pass may fail to keep is the extended budget. -/
theorem withinBudgets_assignZones_iff (hratio : 0 ≤ s.warmRatio) (hperm : ids.Perm s.nodes.keys) :
    WithinBudgets (s.assignZones charged ids).1 (s.assignZones charged ids).2 ↔
      sumOf (tokensIn .hot) (s.placed charged ids) + sumOf (tokensIn .warm) (s.placed charged ids) ≤
        s.warmBudget := by
  have hhot : (s.assignZones charged ids).1.hotTokenUsage =
      sumOf (tokensIn .hot) (s.placed charged ids) := tokenUsage_assignZones hperm
  have hwarm : (s.assignZones charged ids).1.tokenUsage .warm =
      sumOf (tokensIn .warm) (s.placed charged ids) := tokenUsage_assignZones hperm
  have hstats := @stats_assignZones s charged ids hperm
  have htokens : (s.assignZones charged ids).2.hotTokens =
      sumOf (tokensIn .hot) (s.placed charged ids) := by
    rw [hstats, hotTokens_passAfter fun _ ↦ rfl, Nat.zero_add, placed]
  rw [warmBudget_eq hratio]
  constructor
  · intro hwithin
    have hle := hwithin.warm_le
    rwa [hhot, hwarm] at hle
  · intro hle
    obtain ⟨hcount, hcount', hcount''⟩ := @stats_passAfter charged s.tokenBudget s.warmBudget
      ⟨0, ⟨0, 0, 0, 0, s.tokenBudget⟩⟩ (costs s.nodes ids)
    rw [← hstats, Nat.zero_add] at hcount hcount' hcount''
    refine ⟨hhot.trans htokens.symm, ?_, ?_, ?_, ?_, ?_, ?_⟩
    · rw [htokens]
      exact hot_placements_le
    · rw [hhot, hwarm]
      exact hle
    · exact hcount.trans (length_zone_assignZones hperm).symm
    · exact hcount'.trans (length_zone_assignZones hperm).symm
    · exact hcount''.trans (length_zone_assignZones hperm).symm
    · have hsize : (s.assignZones charged ids).1.nodes.size =
          sumOf (fun _ _ ↦ 1) (s.placed charged ids) := by
        rw [← total_one]
        exact total_placeAll hperm
      rw [hsize, sumOf_one, AllocationStats.total, hcount, hcount', hcount'']
      rfl

theorem withinBudgets_allocateContext (hratio : 0 ≤ s.warmRatio) :
    WithinBudgets s.allocateContext.1 s.allocateContext.2 :=
  (withinBudgets_assignZones_iff hratio (sortIds_perm_keys _)).mpr
    (charged_placements_le (Nat.le_add_right _ _))

/-- In density order, every node that fits the extended budget beside the first fit of the token
budget also fits it beside the first fit of the extended budget. -/
def SpillFits (s : ContextScheduler) : Prop :=
  Greedy.FitsBoth s.tokenBudget s.warmBudget 0 0 (costs s.nodes s.orderedByDensity)

theorem withinBudgets_optimizeBudget_iff (hratio : 0 ≤ s.warmRatio) :
    WithinBudgets s.optimizeBudget.1 s.optimizeBudget.2 ↔ s.SpillFits := by
  obtain ⟨hpacked, hspilled⟩ := @uncharged_placements s.tokenBudget s.warmBudget
    ⟨0, ⟨0, 0, 0, 0, s.tokenBudget⟩⟩ (costs s.nodes s.orderedByDensity)
  have hbudget : s.tokenBudget ≤ s.warmBudget := Nat.le_add_right _ _
  rw [Nat.zero_add] at hpacked
  rw [SpillFits, ← Greedy.packed_add_spilled_le_iff hbudget, ← hpacked, ← hspilled]
  exact withinBudgets_assignZones_iff hratio (sortIds_perm_keys _)

end Zones

/-! ## Eviction -/

section Eviction

open SortedMap

variable {s : ContextScheduler} {budget : ℕ} {ids : List Str}
  {nodes : ExtTreeMap Str ScheduledNode} {hotTokens evicted : ℕ}

theorem mem_demote {id : Str} (hid : id ∈ nodes) :
    id ∈ (demote budget ids nodes hotTokens evicted).1 := by
  induction ids generalizing nodes hotTokens evicted with
  | nil => exact hid
  | cons first ids ih =>
    rw [demote]
    split
    · exact hid
    · cases nodes[first]? with
      | none => exact ih hid
      | some n => exact ih (mem_insert_iff.mpr (.inr hid))

/-- The loop demotes HOT nodes until those that are left fit the budget. -/
theorem total_demote_le (hnodup : ids.Nodup)
    (hhot : ∀ id ∈ ids, ∃ n, nodes[id]? = some n ∧ n.memoryZone = .hot)
    (htotal : total (weigh (tokensIn .hot)) nodes = hotTokens)
    (hsum : (costs nodes ids).sum = hotTokens) :
    total (weigh (tokensIn .hot)) (demote budget ids nodes hotTokens evicted).1 ≤ budget := by
  induction ids generalizing nodes hotTokens evicted with
  | nil =>
    rw [demote, htotal, ← hsum]
    exact Nat.zero_le budget
  | cons id ids ih =>
    obtain ⟨hid, hids⟩ := List.nodup_cons.mp hnodup
    obtain ⟨n, hn, hzone⟩ := hhot id List.mem_cons_self
    have hcost : (costs nodes (id :: ids)).sum = n.tokenCost + (costs nodes ids).sum := by
      rw [costs, List.map_cons, hn, List.sum_cons]
      rfl
    rw [demote]
    split
    · next hfits => exact htotal.trans_le hfits
    · rw [hn]
      have hinsert :
          total (weigh (tokensIn .hot)) (nodes.insert id { n with memoryZone := .warm }) +
          weigh (tokensIn .hot) n = total (weigh (tokensIn .hot)) nodes +
            weigh (tokensIn .hot) { n with memoryZone := .warm } := total_insert hn
      have hold : weigh (tokensIn .hot) n = n.tokenCost := by rw [weigh, tokensIn, if_pos hzone]
      have hnew : weigh (tokensIn .hot) { n with memoryZone := .warm } = 0 := rfl
      apply ih hids
      · intro other hother
        have hne : id ≠ other := by
          rintro rfl
          exact hid hother
        rw [getElem?_insert_ne _ hne]
        exact hhot other (List.mem_cons_of_mem id hother)
      · omega
      · rw [costs_insert_of_notMem hid]
        omega

theorem hotTokenUsage_evictContext_le : s.evictContext.1.hotTokenUsage ≤ s.tokenBudget := by
  have hperm : s.hotByPriority.Perm
      ((s.nodes.toList.filter fun entry ↦ entry.2.memoryZone = .hot).map Prod.fst) :=
    sortIds_perm risingPriority _
  have hsum : (costs s.nodes s.hotByPriority).sum = s.hotTokenUsage := by
    rw [costs, (hperm.map _).sum_eq, List.map_map, hotTokenUsage, tokenUsage]
    apply congrArg List.sum
    apply List.map_congr_left
    intro entry hentry
    have hvalue := ExtTreeMap.mem_toList_iff_getElem?_eq_some.mp (List.mem_of_mem_filter hentry)
    rw [Function.comp_apply, hvalue, Option.elim_some]
  have hnodup : s.hotByPriority.Nodup := by
    have hkeys := nodup_keys s.nodes
    rw [← ExtTreeMap.map_fst_toList_eq_keys] at hkeys
    exact hperm.nodup_iff.mpr (hkeys.sublist (List.filter_sublist.map Prod.fst))
  have hhot : ∀ id ∈ s.hotByPriority, ∃ n, s.nodes[id]? = some n ∧ n.memoryZone = .hot := by
    intro id hid
    obtain ⟨entry, hentry, rfl⟩ := List.mem_map.mp (hperm.mem_iff.mp hid)
    obtain ⟨hmem, hzone⟩ := List.mem_filter.mp hentry
    exact ⟨entry.2, ExtTreeMap.mem_toList_iff_getElem?_eq_some.mp hmem, of_decide_eq_true hzone⟩
  have htotal : total (weigh (tokensIn .hot)) s.nodes = (costs s.nodes s.hotByPriority).sum :=
    tokenUsage_eq_total.symm.trans hsum.symm
  rw [hotTokenUsage, tokenUsage_eq_total]
  exact total_demote_le hnodup hhot htotal rfl

end Eviction

/-! ## Every run -/

/-- What an event needs for the budgets to be kept right after it. -/
def Admits (s : ContextScheduler) : Event → Prop
  | .optimizeBudget => s.SpillFits
  | .upsert _ _ _ | .touch _ | .allocateContext | .evictContext => True

theorem keepsBudgets_iff_admits {s : ContextScheduler} (hratio : 0 ≤ s.warmRatio) (e : Event) :
    s.KeepsBudgets e ↔ s.Admits e := by
  cases e with
  | upsert nodeId tokenCost priorityScore => exact Iff.rfl
  | touch nodeId => exact Iff.rfl
  | allocateContext => exact iff_of_true (withinBudgets_allocateContext hratio) trivial
  | optimizeBudget => exact withinBudgets_optimizeBudget_iff hratio
  | evictContext => exact iff_of_true ⟨hotTokenUsage_evictContext_le, fun _ ↦ mem_demote⟩ trivial

theorem warmRatio_apply (s : ContextScheduler) (e : Event) :
    (s.apply e).warmRatio = s.warmRatio := by
  cases e with
  | touch nodeId =>
    rw [apply, touch]
    dsimp only
    cases s.nodes[nodeId]? <;> rfl
  | upsert nodeId tokenCost priorityScore => rfl
  | allocateContext => rfl
  | optimizeBudget => rfl
  | evictContext => rfl

/-- **The tier budgets are kept right after every step of a run exactly if every `optimize_budget`
of the run finds nodes that spill within the extended budget.** -/
theorem meets_keepsBudgets_iff (s : ContextScheduler) (hratio : 0 ≤ s.warmRatio)
    (events : List Event) :
    machine.Meets KeepsBudgets s events ↔ machine.Meets Admits s events := by
  induction events generalizing s with
  | nil => exact Iff.rfl
  | cons e events ih =>
    apply and_congr (keepsBudgets_iff_admits hratio e)
    apply forall₂_congr
    intro next hnext
    cases hnext
    apply ih
    rwa [warmRatio_apply]

/-- A scheduler for 20 tokens, extended by half of them. -/
def half : ContextScheduler := { new 20 with warmRatio := 1 / 2 }

/-- Four nodes of 10 tokens, placed by density. -/
def fourNodes : List Event :=
  [.upsert "n0".toList 10 (.finite 1), .upsert "n1".toList 10 (.finite 2),
    .upsert "n2".toList 10 (.finite 3), .upsert "n3".toList 10 (.finite 4), .optimizeBudget]

theorem meets_keepsBudgets_iff_fourNodes :
    machine.Meets KeepsBudgets half fourNodes ↔ machine.Meets Admits half fourNodes :=
  meets_keepsBudgets_iff half (by decide +kernel) fourNodes

/-- Two nodes fill the budget, and each of the others fits the extended budget alone: 40 tokens are
HOT or WARM, and the extended budget is 30. -/
theorem not_keepsBudgets :
    1 ≤ half.tokenBudget ∧ 0 ≤ half.warmRatio ∧ ¬ machine.Meets KeepsBudgets half fourNodes := by
  refine ⟨by decide +kernel, by decide +kernel, ?_⟩
  rintro ⟨-, hmeets⟩
  obtain ⟨-, hmeets⟩ := hmeets _ rfl
  obtain ⟨-, hmeets⟩ := hmeets _ rfl
  obtain ⟨-, hmeets⟩ := hmeets _ rfl
  have hle := (hmeets _ rfl).1.warm_le
  revert hle
  decide +kernel

end ContextScheduler

end SoulSystem.Ccos
