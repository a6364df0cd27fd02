import SoulSystem.Ccos.Memory.InRange
import SoulSystem.Ccos.External.Ingest

/-!
# Failure pressure

A failure on a node relays pressure along its outgoing edges.  Every hop is weakened by the weight
of the edge, by a power of the decay and, at a node with many edges, by the share of one of them;
what is left no longer travels on once it is at most the paging threshold.

Under the weights of a new memory the pressure stays between zero and one, and it never travels
further than eight hops.
-/

namespace SoulSystem.Ccos.External

open Library Memory F64

inductive CentralityMode where
  | inDegree
  | eigenvector
  deriving DecidableEq

structure ScoringWeights where
  wBase : F64
  wFailure : F64
  wRecency : F64
  wAccess : F64
  wCentrality : F64
  centralityMode : CentralityMode
  wTrust : F64
  failureDecay : F64
  failureFanout : F64

def defaultFailureFanout : F64 := ofRat 6

def ScoringWeights.default : ScoringWeights where
  wBase := ofRat (15 / 100)
  wFailure := ofRat (50 / 100)
  wRecency := ofRat (30 / 100)
  wAccess := ofRat (5 / 100)
  wCentrality := ofRat 0
  wTrust := ofRat 0
  centralityMode := .inDegree
  failureDecay := ofRat (8 / 10)
  failureFanout := defaultFailureFanout

/-- The threshold of a new memory. -/
def defaultPagingThreshold : F64 := ofRat (2 / 10)

/-! ## Propagation -/

def setFailureRelevance (g : MemoryGraph) (id : Str) (relevance : F64) : MemoryGraph :=
  match g.nodes[id]? with
  | some node =>
    let pressed := CcosMemory.pressed g.clock node (some (clampUnit relevance))
    { g with nodes := g.nodes.insert id pressed }
  | none => g

/-- Pressure on top of what is on a node. -/
def relay (g : MemoryGraph) (target : Str) (propagation : F64) : MemoryGraph :=
  match g.nodes[target]? with
  | some node => setFailureRelevance g target (node.failureRelevance.add propagation)
  | none => g

/-- `depth as i32`. -/
def asI32 (depth : ℕ) : ℤ := Int.bmod depth (2 ^ 32)

/-- What an edge takes over of the pressure on its source. -/
def propagation (weights : ScoringWeights) (base weight : F64) (depth outDegree : ℕ) : F64 :=
  let fanout := weights.failureFanout.max (.finite 1)
  let damp := (fanout.div ((ofRat outDegree).max fanout)).min (.finite 1)
  ((base.mul weight).mul (weights.failureDecay.powi (asI32 depth))).mul damp

def outEdges (g : MemoryGraph) (origin : Str) : List (Str × F64) :=
  (g.edges.filter fun edge ↦ edge.source == origin).map fun edge ↦ (edge.target, edge.weight)

/-- `propagate_failure` at a depth, with the number of depths that are left. -/
def propagateLevels (weights : ScoringWeights) (floor : F64) :
    ℕ → MemoryGraph → Str → ℕ → MemoryGraph
  | 0, g, _, _ => g
  | levels + 1, g, origin, depth =>
    let base := (g.nodes[origin]?.map GraphNode.failureRelevance).getD (.finite 0)
    let targets := outEdges g origin
    targets.foldl (fun g target ↦
      let propagation := propagation weights base target.2 depth targets.length
      let relayed := relay g target.1 propagation
      if floor.lt propagation then
        propagateLevels weights floor levels relayed target.1 (depth + 1)
      else relayed) g

def propagateFailure (weights : ScoringWeights) (floor : F64) (g : MemoryGraph) (origin : Str)
    (maxDepth : UInt32) : MemoryGraph :=
  propagateLevels weights floor (maxDepth.toNat + 1) g origin 0

/-! ## Bounds on the pressure -/

theorem inUnit_clampUnit {x : F64} (hx : x ≠ .nan) : (clampUnit x).InUnit := by
  cases x with
  | nan => exact absurd rfl hx
  | infinite negative => cases negative <;> exact inUnit_finite (by norm_num) (by norm_num)
  | finite value => exact inUnit_finite (le_max_left 0 _) (max_le zero_le_one (min_le_right _ _))

/-- What the eighth power of a decay may be at most. -/
def lastPower : ℚ := (13 / 16) ^ 8

/-- Weights under which pressure stays in range and fades out. -/
structure ScoringWeights.Tame (weights : ScoringWeights) (floor : F64) : Prop where
  decay : weights.failureDecay.Within (13 / 16)
  fanout : ∃ width, 0 < width ∧ weights.failureFanout.max (.finite 1) = .finite width
  floor : ∀ pressure : F64, pressure.Within lastPower → floor.lt pressure = false

theorem sharp_power {k : ℕ} (hk : k ≤ 8) : Sharp ((13 / 16) ^ k) where
  representable := by
    have hcast : ((13 / 16 : ℚ)) ^ k = (13 ^ k : ℕ) / 2 ^ (4 * k) := by
      rw [div_pow, pow_mul]
      norm_num
    have hsmall : 13 ^ k < 2 ^ 53 :=
      (Nat.pow_le_pow_right (by norm_num) hk).trans_lt (by norm_num)
    rw [hcast]
    exact Binary64.representable_dyadic hsmall (by omega)
  le_one := pow_le_one₀ (by norm_num) (by norm_num)

theorem tame_default : ScoringWeights.default.Tame defaultPagingThreshold where
  decay := by
    have hsharp := sharp_power (show 1 ≤ 8 by norm_num)
    rw [pow_one] at hsharp
    exact within_ofRat hsharp (by norm_num) (by norm_num)
  fanout := ⟨6, by norm_num, by decide +kernel⟩
  floor := by
    have hvalue : defaultPagingThreshold = .finite (3602879701896397 / 2 ^ 54) := by
      decide +kernel
    intro pressure hpressure
    cases pressure with
    | nan => cases hpressure
    | infinite => cases hpressure
    | finite value =>
      have hhigh : value ≤ (13 / 16) ^ 8 := hpressure.2
      have hlast : ((13 : ℚ) / 16) ^ 8 ≤ 3602879701896397 / 2 ^ 54 := by norm_num
      rw [hvalue, lt]
      exact decide_eq_false (not_lt.mpr (hhigh.trans hlast))

namespace ScoringWeights.Tame

variable {weights : ScoringWeights} {floor : F64}

theorem decay_eight (htame : weights.Tame floor) :
    (weights.failureDecay.powi 8).Within lastPower := by
  have hone := htame.decay
  rw [← pow_one (13 / 16 : ℚ)] at hone
  have hdouble : ∀ {k : ℕ} {x : F64}, k + k ≤ 8 → x.Within ((13 / 16) ^ k) →
      (x.mul x).Within ((13 / 16) ^ (k + k)) := by
    intro k x hk hx
    rw [pow_add]
    apply hx.mul hx
    rw [← pow_add]
    exact sharp_power hk
  have htwo := hdouble (by norm_num) hone
  have hfour := hdouble (by norm_num) htwo
  have height := hdouble (by norm_num) hfour
  rw [powi_eight]
  exact inUnit_one.mul height (sharp_power le_rfl)

/-- The pressure on an edge is in range; at the eighth hop it fades out. -/
theorem propagation (htame : weights.Tame floor) {base weight : F64} {depth : ℕ}
    (hbase : base.InUnit) (hweight : weight.InUnit) (hdepth : depth ≤ 8) (outDegree : ℕ) :
    (External.propagation weights base weight depth outDegree).InUnit ∧
      (floor.lt (External.propagation weights base weight depth outDegree) = true →
        depth + 1 ≤ 8) := by
  obtain ⟨width, hwidth, hfanout⟩ := htame.fanout
  have hdegree : (ofRat outDegree).AtLeast 0 := atLeast_ofRat (Nat.cast_nonneg outDegree)
  have hdamp : (((F64.finite width).div ((ofRat outDegree).max (.finite width))).min
      (.finite 1)).InUnit :=
    inUnit_min_one ((hdegree.max width).inUnit_div hwidth)
  have hcast : asI32 depth = depth := by
    apply Int.bmod_eq_of_le <;> omega
  have hproduct : (base.mul weight).InUnit := hbase.mul hweight sharp_one
  have hunit : weights.failureDecay.InUnit := htame.decay.mono (by norm_num)
  simp only [External.propagation, hfanout, hcast]
  refine ⟨(InUnit.mul hproduct (inUnit_powi hunit) sharp_one).mul_unit hdamp sharp_one, ?_⟩
  intro hon
  by_contra hlast
  have height : depth = 8 := by omega
  have hfaded := (InUnit.mul hproduct htame.decay_eight (sharp_power le_rfl)).mul_unit hdamp
    (sharp_power le_rfl)
  rw [height, Nat.cast_ofNat, htame.floor _ hfaded] at hon
  cases hon

end ScoringWeights.Tame

/-! ## What a failure leaves in range -/

theorem inRange_pressed {node : GraphNode} (hnode : node.InRange) (now : ℕ) {relevance : F64}
    (hrelevance : relevance.InUnit) :
    (CcosMemory.pressed now node (some relevance)).InRange :=
  { hnode with failureRelevance := hrelevance, recency := inUnit_one }

theorem inRange_setFailureRelevance {g : MemoryGraph} (hrange : g.InRange) (id : Str)
    {relevance : F64} (hrelevance : relevance ≠ .nan) :
    (setFailureRelevance g id relevance).InRange := by
  unfold setFailureRelevance
  split
  · rename_i node hnode
    have hpressed := inRange_pressed (hrange.nodes id node hnode) g.clock
      (inUnit_clampUnit hrelevance)
    exact { hrange with nodes := hrange.nodes.insert hpressed }
  · exact hrange

theorem inRange_relay {g : MemoryGraph} (hrange : g.InRange) (target : Str) {propagation : F64}
    (hpropagation : propagation.InUnit) : (relay g target propagation).InRange := by
  unfold relay
  split
  · rename_i node hnode
    have hold := hrange.nodes target node hnode
    exact inRange_setFailureRelevance hrange target
      (hold.failureRelevance.add_ne_nan hpropagation)
  · exact hrange

/-- The weights that a failure travels over. -/
theorem inUnit_of_mem_outEdges {g : MemoryGraph} (hrange : g.InRange) {origin : Str}
    {target : Str × F64} (htarget : target ∈ outEdges g origin) : target.2.InUnit := by
  obtain ⟨edge, hedge, rfl⟩ := List.mem_map.mp htarget
  exact hrange.edges edge (List.mem_filter.mp hedge).1

theorem inRange_propagateLevels {weights : ScoringWeights} {floor : F64}
    (htame : weights.Tame floor) (levels : ℕ) {g : MemoryGraph} (hrange : g.InRange) (origin : Str)
    {depth : ℕ} (hdepth : depth ≤ 8) :
    (propagateLevels weights floor levels g origin depth).InRange := by
  induction levels generalizing g origin depth with
  | zero => exact hrange
  | succ levels ih =>
    have hbase : ((g.nodes[origin]?.map GraphNode.failureRelevance).getD (.finite 0)).InUnit := by
      cases hnode : g.nodes[origin]? with
      | none => exact inUnit_finite le_rfl zero_le_one
      | some node => exact (hrange.nodes origin node hnode).failureRelevance
    rw [propagateLevels]
    refine List.foldlRecOn (outEdges g origin) _ hrange ?_
    intro h hkept target htarget
    have hweight := inUnit_of_mem_outEdges hrange htarget
    obtain ⟨hunit, hfar⟩ := htame.propagation hbase hweight hdepth (outEdges g origin).length
    have hrelayed := inRange_relay hkept target.1 hunit
    simp only []
    split
    · rename_i hon
      exact ih hrelayed target.1 (hfar hon)
    · exact hrelayed

theorem inRange_propagateFailure {weights : ScoringWeights} {floor : F64}
    (htame : weights.Tame floor) {g : MemoryGraph} (hrange : g.InRange) (origin : Str)
    (maxDepth : UInt32) : (propagateFailure weights floor g origin maxDepth).InRange :=
  inRange_propagateLevels htame _ hrange origin (Nat.zero_le 8)

end SoulSystem.Ccos.External
