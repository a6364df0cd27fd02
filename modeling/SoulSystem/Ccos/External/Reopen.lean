import SoulSystem.Ccos.Memory.StoreExact
import SoulSystem.Ccos.External.RecallTransparent
import SoulSystem.Ccos.External.Snapshot
import SoulSystem.Ccos.External.Taint

/-!
# Saving and reopening a memory

The calls of a memory that change its graph, its logs or its sources, and what a snapshot of the
memory that they leave is worth.  The weight of an assertion is clamped, which leaves a NaN as it
is, so an assertion may put an edge in the graph that cannot be read back.  All other numbers stay
between zero and one.
-/

namespace SoulSystem.Ccos.External

open Library Memory

/-! ## Calls -/

/-- What is left open about the surroundings of a memory. -/
structure Surroundings where
  ingestor : Ingestor
  format : Trace.Format EventPayload
  linkDigest : Bytes → Str
  displayFloat : F64 → Str

/-- The fresh id and the times that an append to the two logs meets. -/
structure Stamp where
  eventId : Str
  eventTime : UInt64
  linkTime : UInt64

inductive MemoryError where
  | nodeNotFound (id : Str)

/-- The ids of the COLD tier, sorted. -/
def coldIds (g : MemoryGraph) : List Str :=
  (g.cold.keys ++ g.husks.keys).foldr MemoryGraph.insertSorted []

/-- Whether a full entry archives an edge between two ids. -/
def fullEntryLinks (g : MemoryGraph) (id other : Str) : Bool :=
  g.cold.toList.any fun entry ↦ entry.2.edges.any fun edge ↦
    edge.touches id && edge.other id == other

/-- The COLD ids at the other endpoints of the archived edges of an id, while there is no store. -/
def coldNeighbours (g : MemoryGraph) (id : Str) : List Str :=
  (coldIds g).filter fun other ↦ other != id && fullEntryLinks g id other

/-- Page in some ids one after the other, counting those that came. -/
def pageInAll (codec : Memory.Codec) (judges : Judges) (g : MemoryGraph) (ids : List Str) :
    MemoryGraph × ℕ :=
  ids.zipIdx.foldl (fun state entry ↦
    let paged := MemoryGraph.pageIn codec (judges entry.2) state.1 entry.1
    (paged.1, if paged.2 then state.2 + 1 else state.2)) (g, 0)

namespace PersistentMemory

variable (env : Surroundings) (m : PersistentMemory)

def withGraph (g : MemoryGraph) : PersistentMemory :=
  { m with memory := { m.memory with graph := g } }

def ingestSource (judges : Judges) (stamp : Stamp) (uri source : Str) :
    PersistentMemory × IngestReport :=
  let ingested := m.memory.ingestSource env.ingestor judges uri source
  let fileHash := env.ingestor.codec.sha256 (env.ingestor.defang source).1
  ({ m with
      memory := ingested.1
      eventLog := m.eventLog.append env.format stamp.eventId stamp.eventTime .parsing
        (.parsing (uriPath uri) fileHash 0 0 0)
      distLog := m.distLog.append env.linkDigest fileHash "external-memory".toList
        stamp.linkTime },
    ingested.2)

/-- The graph in which a failure finds its node: a demoted node is paged in. -/
def located (judge : Judge) (id : Str) : MemoryGraph × Bool :=
  if m.memory.graph.nodes.contains id then (m.memory.graph, true)
  else MemoryGraph.pageIn env.ingestor.codec judge m.memory.graph id

def signalFailure (judge : Judge) (node : Str) (depth : UInt32) :
    PersistentMemory × Except MemoryError ℕ :=
  let id := normalize node
  let found := m.located env judge id
  if found.2 then
    let pressed := propagateFailure m.scoringWeights m.pagingThreshold
      (setFailureRelevance found.1 id (F64.ofRat (95 / 100))) id depth
    let affected := pressed.nodes.toList.filter fun entry ↦
      entry.1 != id && F64.lt (.finite 0) entry.2.failureRelevance
    (m.withGraph pressed, .ok affected.length)
  else
    (m.withGraph found.1, .error (.nodeNotFound id))

def assertEvidence (judges : Judges) (now : UInt64) (evidence claim : Str) (supports : Bool)
    (weight : F64) : PersistentMemory × Bool :=
  let asserted := m.memory.assertEvidence env.ingestor judges evidence claim supports weight
  let tag := if supports then "support".toList else "contradict".toList
  let text := tag ++ ":".toList ++ evidence ++ "->".toList ++ claim ++ ":".toList ++
    env.displayFloat (clampUnit weight)
  ({ m with
      memory := asserted.1
      distLog := m.distLog.append env.linkDigest (env.ingestor.codec.sha256 text)
        "assertion".toList now },
    asserted.2)

/-- A recall with what the caches hold of the memory. -/
def recallWindow {kernels : Kernels} (cells : CachedMemory kernels) (query : Recall) (budget : ℕ) :
    PersistentMemory :=
  { m with
    memory := (CachedMemory.recallWindow { cells with memory := m.memory } query budget).2.memory }

def ensureResident (judges : Judges) (uri : Str) : PersistentMemory × ℕ :=
  let id := normalize uri
  let paged := pageInAll env.ingestor.codec judges m.memory.graph
    (id :: coldNeighbours m.memory.graph id)
  (m.withGraph paged.1, paged.2)

end PersistentMemory

inductive PersistentCall (kernels : Kernels) where
  | ingestSource (judges : Judges) (stamp : Stamp) (uri source : Str)
  | signalFailure (judge : Judge) (node : Str) (depth : UInt32)
  | assertSupport (judges : Judges) (now : UInt64) (evidence claim : Str) (weight : F64)
  | assertContradiction (judges : Judges) (now : UInt64) (evidence claim : Str) (weight : F64)
  | recallWindow (cells : CachedMemory kernels) (query : Recall) (budget : ℕ)
  | ensureResident (judges : Judges) (uri : Str)

namespace PersistentMemory

variable {kernels : Kernels} (env : Surroundings) (m : PersistentMemory)

def call : PersistentCall kernels → PersistentMemory
  | .ingestSource judges stamp uri source => (m.ingestSource env judges stamp uri source).1
  | .signalFailure judge node depth => (m.signalFailure env judge node depth).1
  | .assertSupport judges now evidence claim weight =>
    (m.assertEvidence env judges now evidence claim true weight).1
  | .assertContradiction judges now evidence claim weight =>
    (m.assertEvidence env judges now evidence claim false weight).1
  | .recallWindow cells query budget => m.recallWindow cells query budget
  | .ensureResident judges uri => (m.ensureResident env judges uri).1

def machine (kernels : Kernels) : Machine PersistentMemory (PersistentCall kernels) where
  step := fun m c ↦ some (m.call env c)

end PersistentMemory

/-! ## The condition -/

/-- Whether `add_edge` takes an edge. -/
def Admits (g : MemoryGraph) (triple : Triple) : Prop :=
  triple.1 ∈ g.nodes ∧ triple.2.1 ∈ g.nodes ∧ triple ∉ g.refreshedIndex

instance (g : MemoryGraph) (triple : Triple) : Decidable (Admits g triple) :=
  inferInstanceAs (Decidable (_ ∧ _ ∧ _))

namespace PersistentMemory

variable {kernels : Kernels} (env : Surroundings) (m : PersistentMemory)

/-- An assertion with a NaN for its weight finds its edge refused. -/
def SparesNan : PersistentCall kernels → Prop
  | .assertSupport judges _ evidence claim weight => weight = .nan →
      ¬ Admits (CcosMemory.ensured env.ingestor judges m.memory.graph evidence claim)
        (evidence, claim, .supports)
  | .assertContradiction judges _ evidence claim weight => weight = .nan →
      ¬ Admits (CcosMemory.ensured env.ingestor judges m.memory.graph evidence claim)
        (evidence, claim, .contradicts)
  | _ => True

instance (c : PersistentCall kernels) : Decidable (m.SparesNan env c) := by
  unfold SparesNan
  split <;> infer_instance

end PersistentMemory

/-! ## What the calls leave in range -/

section InRange

variable {ingestor : Ingestor} {judges : Judges} {g : MemoryGraph}

theorem inRange_evictFileNodes (hrange : g.InRange) (path : Str) :
    (evictFileNodes g path).InRange := by
  unfold evictFileNodes
  generalize g.nodes.keys.filter (ofFile path) = removed
  induction removed generalizing g with
  | nil => exact hrange
  | cons id removed ih => exact ih (hrange.removeNode id)

theorem inRange_delta {m : CcosMemory} (hrange : m.graph.InRange) (path clean : Str) :
    (m.delta ingestor judges path clean).1.InRange := by
  have hstart : (deltaStart ingestor m path clean).InRange := by
    unfold deltaStart
    split
    · exact inRange_evictFileNodes hrange path
    · exact hrange
    · exact hrange
  rw [delta_eq_run]
  exact hstart.run_updates (weighted_deltaSteps ingestor judges m path clean)

theorem inRange_taint (hrange : g.InRange) (path : Str) (stamp : Option ℚ) :
    (CcosMemory.taint g path stamp).InRange := by
  cases stamp with
  | none => exact hrange
  | some trust =>
    apply hrange.mapNodes
    intro id node hnode
    split
    · have htrust : (F64.finite (max 0 (min trust 1))).InUnit :=
        F64.inUnit_finite (le_max_left 0 _) (max_le zero_le_one (min_le_right trust 1))
      exact { hnode with trust := htrust }
    · exact hnode

theorem inRange_resolve {m : CcosMemory} (hrange : m.graph.InRange) :
    m.resolve.1.graph.InRange := by
  unfold CcosMemory.resolve
  split
  · simp only []
    exact hrange.resolveAll
  · exact hrange

theorem inRange_ingestSource {m : CcosMemory} (hrange : m.graph.InRange) (uri source : Str) :
    (m.ingestSource ingestor judges uri source).1.graph.InRange := by
  have hdelta := @inRange_delta ingestor judges m hrange (uriPath uri) (ingestor.defang source).1
  have hingested : (m.ingestDeferred ingestor judges uri source).1.graph.InRange := by
    rw [graph_ingestDeferred]
    exact inRange_taint hdelta _ _
  exact inRange_resolve hingested

theorem inRange_ensured (hrange : g.InRange) (evidence claim : Str) :
    (CcosMemory.ensured ingestor judges g evidence claim).InRange := by
  have hnode : ∀ {h : MemoryGraph} (judge : Judge) (id : Str), h.InRange →
      (CcosMemory.ensureNode ingestor judge h id).InRange := by
    intro h judge id hh
    unfold CcosMemory.ensureNode
    split
    · exact hh
    · exact hh.upsertNode id id [] .contextBlock
  exact hnode (judges 1) claim (hnode (judges 0) evidence hrange)

theorem inRange_pageInAll {codec : Memory.Codec} (hrange : g.InRange) (ids : List Str) :
    (pageInAll codec judges g ids).1.InRange := by
  refine List.foldlRecOn (motive := fun state : MemoryGraph × ℕ ↦ state.1.InRange) ids.zipIdx _
    hrange ?_
  intro state hstate entry _
  exact hstate.pageIn entry.1

end InRange

/-- An edge is added exactly if it is admitted. -/
theorem addEdge_snd (g : MemoryGraph) (source target : Str) (weight : F64) (edgeType : EdgeType) :
    (g.addEdge source target weight edgeType).2 = true ↔ Admits g (source, target, edgeType) := by
  simp only [MemoryGraph.addEdge, Admits, ← Std.ExtTreeMap.contains_iff_mem]
  cases g.nodes.contains source <;> cases g.nodes.contains target <;> simp [apply_ite Prod.snd]

/-- An admitted edge is in the graph afterwards, with its weight. -/
theorem mem_edges_addEdge {g : MemoryGraph} {source target : Str} {weight : F64}
    {edgeType : EdgeType} (hadmits : Admits g (source, target, edgeType)) :
    { source, target, weight, edgeType, createdAt := g.clock } ∈
      (g.addEdge source target weight edgeType).1.edges := by
  simp only [MemoryGraph.addEdge, Admits, ← Std.ExtTreeMap.contains_iff_mem] at hadmits ⊢
  obtain ⟨hsource, htarget, hfree⟩ := hadmits
  rw [hsource, htarget]
  simp [hfree]

/-- A recall fills caches only. -/
theorem CachedMemory.memory_recallWindow {kernels : Kernels} (m : CachedMemory kernels)
    (query : Recall) (budget : ℕ) : (m.recallWindow query budget).2.memory = m.memory := by
  have hmodel : ∀ (m : CachedMemory kernels) (rank : ℕ),
      (m.weightedLsaModel rank).2.memory = m.memory := by
    intro m rank
    unfold CachedMemory.weightedLsaModel
    split
    · rfl
    · split
      · rfl
      · rfl
  have hentry : ∀ (m : CachedMemory kernels) (store : Option kernels.CausalEmbeddings)
      (rank : Option ℕ) (entry : Option Str),
      (m.fromEntry query budget store rank entry).2.memory = m.memory := by
    intro m store rank entry
    cases entry with
    | none => rfl
    | some entry =>
      cases rank with
      | none => rfl
      | some rank => exact hmodel m.regions.2 rank
  cases query with
  | workingSet => rfl
  | around uri => exact hentry m none none (some uri)
  | task text => exact hentry m none none _
  | semantic text => exact hentry m.buildEmbeddings.2 _ _ _
  | hybrid text => exact hentry m.buildEmbeddings.2 _ _ _
  | causalFlash params => rfl

/-! ## The main result -/

namespace PersistentMemory

/-- The numbers of a memory are in range, and what no call changes is as in a new one. -/
structure Clean (m : PersistentMemory) : Prop where
  graph : m.memory.graph.InRange
  pagingThreshold : m.pagingThreshold = defaultPagingThreshold
  scoringWeights : m.scoringWeights = .default
  evictionPolicy : m.evictionPolicy = .new

theorem clean_new : new.Clean where
  graph := .new 5000
  pagingThreshold := rfl
  scoringWeights := rfl
  evictionPolicy := rfl

variable {env : Surroundings} {m : PersistentMemory}

theorem Clean.reopens (hclean : m.Clean) : m.Reopens := by
  have hthreshold : m.pagingThreshold.IsFinite := by
    rw [hclean.pagingThreshold]
    decide +kernel
  have hweights : ∀ x ∈ m.scoringWeights.floats, x.IsFinite := by
    rw [hclean.scoringWeights]
    decide +kernel
  have hpolicy : ∀ x ∈ m.evictionPolicy.floats, x.IsFinite := by
    rw [hclean.evictionPolicy]
    decide +kernel
  exact reopens_of_clean
    { nodes := hclean.graph.nodes
      edges := hclean.graph.edges
      cold := hclean.graph.cold
      pagingThreshold := hthreshold
      scoringWeights := hweights
      evictionPolicy := hpolicy }

theorem Clean.withGraph (hclean : m.Clean) {g : MemoryGraph} (hg : g.InRange) :
    (m.withGraph g).Clean :=
  { hclean with graph := hg }

theorem Clean.located (hclean : m.Clean) (judge : Judge) (id : Str) :
    (m.located env judge id).1.InRange := by
  unfold PersistentMemory.located
  split
  · exact hclean.graph
  · exact hclean.graph.pageIn id

theorem Clean.signalFailure (hclean : m.Clean) (judge : Judge) (node : Str) (depth : UInt32) :
    (m.signalFailure env judge node depth).1.Clean := by
  have hfound : (m.located env judge (normalize node)).1.InRange := hclean.located judge _
  have hseverity : F64.ofRat (95 / 100) ≠ .nan := by decide +kernel
  have htame : m.scoringWeights.Tame m.pagingThreshold := by
    rw [hclean.scoringWeights, hclean.pagingThreshold]
    exact tame_default
  unfold PersistentMemory.signalFailure
  simp only []
  split
  · exact hclean.withGraph (inRange_propagateFailure htame
      (inRange_setFailureRelevance hfound _ hseverity) _ depth)
  · exact hclean.withGraph hfound

theorem Clean.assertEvidence (hclean : m.Clean) (judges : Judges) (now : UInt64)
    (evidence claim : Str) (supports : Bool) {weight : F64}
    (hspares : weight = .nan →
      ¬ Admits (CcosMemory.ensured env.ingestor judges m.memory.graph evidence claim)
        (evidence, claim, CcosMemory.polarity supports)) :
    (m.assertEvidence env judges now evidence claim supports weight).1.Clean := by
  have hensured := @inRange_ensured env.ingestor judges _ hclean.graph evidence claim
  have hadded : ((CcosMemory.ensured env.ingestor judges m.memory.graph evidence claim).addEdge
      evidence claim (clampUnit weight) (CcosMemory.polarity supports)).1.InRange := by
    apply hensured.addEdge
    by_cases hnan : weight = .nan
    · right
      rw [← Bool.not_eq_true, addEdge_snd]
      exact hspares hnan
    · exact .inl (inUnit_clampUnit hnan)
  exact { hclean with graph := hadded }

theorem Clean.ingestSource (hclean : m.Clean) (judges : Judges) (stamp : Stamp)
    (uri source : Str) : (m.ingestSource env judges stamp uri source).1.Clean := by
  have hgraph := @inRange_ingestSource env.ingestor judges m.memory hclean.graph uri source
  unfold PersistentMemory.ingestSource
  exact { hclean with graph := hgraph }

theorem Clean.recallWindow {kernels : Kernels} (hclean : m.Clean) (cells : CachedMemory kernels)
    (query : Recall) (budget : ℕ) : (m.recallWindow cells query budget).Clean := by
  have hsame := CachedMemory.memory_recallWindow { cells with memory := m.memory } query budget
  unfold PersistentMemory.recallWindow
  rw [hsame]
  exact { hclean with }

theorem Clean.call {kernels : Kernels} (hclean : m.Clean) {c : PersistentCall kernels}
    (hspares : m.SparesNan env c) : (m.call env c).Clean := by
  cases c with
  | ingestSource judges stamp uri source => exact hclean.ingestSource judges stamp uri source
  | signalFailure judge node depth => exact hclean.signalFailure judge node depth
  | assertSupport judges now evidence claim weight =>
    exact hclean.assertEvidence judges now evidence claim true hspares
  | assertContradiction judges now evidence claim weight =>
    exact hclean.assertEvidence judges now evidence claim false hspares
  | recallWindow cells query budget => exact hclean.recallWindow cells query budget
  | ensureResident judges uri => exact hclean.withGraph (inRange_pageInAll hclean.graph _)

/-- An admitted edge with a NaN for its weight cannot be read back. -/
theorem not_reopens_of_admits {judges : Judges} {now : UInt64} {evidence claim : Str}
    {supports : Bool}
    (hadmits : Admits (CcosMemory.ensured env.ingestor judges m.memory.graph evidence claim)
      (evidence, claim, CcosMemory.polarity supports)) :
    ¬ (m.assertEvidence env judges now evidence claim supports .nan).1.Reopens := by
  have hedge := @mem_edges_addEdge _ evidence claim .nan (CcosMemory.polarity supports) hadmits
  exact not_reopens_of_mem_edges hedge id

/-- **A memory can be saved and reopened** in every state that a sequence of calls goes through
exactly when every assertion in it that has a NaN for its weight finds its edge refused. -/
theorem reopens_iff (env : Surroundings) (kernels : Kernels) (calls : List (PersistentCall kernels)) :
    (machine env kernels).Meets (fun m c ↦ m.SparesNan env c) .new calls ↔
      ∀ (before : List (PersistentCall kernels)) (m : PersistentMemory), before <+: calls →
        (machine env kernels).run .new before = some m → m.Reopens := by
  refine Machine.meets_iff_forall_prefix (fun m ↦ Clean.reopens) ?_ ?_ clean_new
  · intro m c m' hclean hspares hstep
    cases hstep
    exact hclean.call hspares
  · intro m c _ hnot
    refine ⟨_, rfl, ?_⟩
    cases c with
    | assertSupport judges now evidence claim weight =>
      obtain ⟨rfl, hadmits⟩ := Classical.not_imp.mp hnot
      exact not_reopens_of_admits (not_not.mp hadmits)
    | assertContradiction judges now evidence claim weight =>
      obtain ⟨rfl, hadmits⟩ := Classical.not_imp.mp hnot
      exact not_reopens_of_admits (not_not.mp hadmits)
    | ingestSource | signalFailure | recallWindow | ensureResident => exact absurd trivial hnot

/-! ## An assertion with a NaN -/

def plainSurroundings : Surroundings where
  ingestor := letterIngestor
  format := { sha256Hex := id, payloadJson := fun _ ↦ [] }
  linkDigest := fun _ ↦ []
  displayFloat := fun _ ↦ []

/-- A support of one new node for another. -/
def nanSupport : PersistentCall rankKernels :=
  .assertSupport evenJudges 0 ['e'] ['c'] .nan

/-- A new memory that takes the assertion cannot be reopened. -/
theorem not_reopens_nanSupport :
    ¬ ∀ (calls : List (PersistentCall rankKernels)) (m : PersistentMemory),
      (machine plainSurroundings rankKernels).run .new calls = some m → m.Reopens := by
  intro hall
  have hadmits : Admits (CcosMemory.ensured plainSurroundings.ingestor evenJudges
      PersistentMemory.new.memory.graph ['e'] ['c'])
      (['e'], ['c'], CcosMemory.polarity true) := by decide +kernel
  have hlost := @not_reopens_of_admits plainSurroundings new evenJudges 0 ['e'] ['c'] true hadmits
  have hrun : (machine plainSurroundings rankKernels).run .new [nanSupport] =
      some (PersistentMemory.new.call plainSurroundings nanSupport) := by
    rw [Machine.run, machine, Option.bind_some, Machine.run]
  have hreopens := hall [nanSupport] _ hrun
  rw [nanSupport, call] at hreopens
  exact hlost hreopens

end PersistentMemory

end SoulSystem.Ccos.External
