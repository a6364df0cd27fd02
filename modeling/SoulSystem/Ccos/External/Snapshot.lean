import SoulSystem.Library.Serde
import SoulSystem.Ccos.DistributedEventLog
import SoulSystem.Ccos.EventLog
import SoulSystem.Ccos.External.Failure

/-!
# Snapshots of a memory

`to_json` writes the graph, the two logs and the sources of a memory as one object, and `from_json`
reads them back.  What exists at run time only is not written: the spill store, the budgets, the
index over the edges and the references that wait for resolution.

A number is written as such if it is finite, and as null otherwise.  A null is not read as a number,
so a snapshot with one cannot be read back.  The text of a tree is left to the serializer.
-/

namespace SoulSystem.Ccos.External

open Library Library.Serde Memory

/-! ## Numbers and names -/

def f64 : Serde.Codec F64 where
  write
    | .finite value => .number value
    | .nan | .infinite _ => .null
  read
    | .number value => some (.finite value)
    | _ => none

theorem keeps_f64 {x : F64} (hx : x.IsFinite) : f64.Keeps x := by
  cases x with
  | nan => cases hx
  | infinite => cases hx
  | finite value => rfl

theorem loses_f64 {x : F64} (hx : ¬ x.IsFinite) : f64.Loses x := by
  cases x with
  | nan => rfl
  | infinite => rfl
  | finite value => exact absurd trivial hx

theorem isFinite_of_inUnit {x : F64} (hx : x.InUnit) : x.IsFinite := by
  cases x with
  | nan => cases hx
  | infinite => cases hx
  | finite value => trivial

/-- The sixty-four digits of a hash, read in either case. -/
def hexHash : Serde.Codec Str where
  write := .string
  read
    | .string digits =>
      if digits.length = 64 ∧ digits.all fun c ↦ c.isDigit || ('a' ≤ c.toLower && c.toLower ≤ 'f')
      then some (digits.map Char.toLower) else none
    | _ => none

def nodeTypes : List NodeType :=
  [.module, .symbol, .contextBlock, .analysisResult, .codeRegion, .unknown]

def nodeTypeName : NodeType → Str
  | .module => "Module".toList
  | .symbol => "Symbol".toList
  | .contextBlock => "ContextBlock".toList
  | .analysisResult => "AnalysisResult".toList
  | .codeRegion => "CodeRegion".toList
  | .unknown => "Unknown".toList

def edgeTypes : List EdgeType :=
  [.dependsOn, .contains, .references, .causes, .relatedTo, .calls, .dataFlow, .supports,
    .contradicts]

def edgeTypeName : EdgeType → Str
  | .dependsOn => "DependsOn".toList
  | .contains => "Contains".toList
  | .references => "References".toList
  | .causes => "Causes".toList
  | .relatedTo => "RelatedTo".toList
  | .calls => "Calls".toList
  | .dataFlow => "DataFlow".toList
  | .supports => "Supports".toList
  | .contradicts => "Contradicts".toList

def nodeStateName : NodeState → Str
  | .stable => "Stable".toList
  | .working => "Working".toList
  | .orphan => "Orphan".toList

def centralityModeName : CentralityMode → Str
  | .inDegree => "InDegree".toList
  | .eigenvector => "Eigenvector".toList

def eventTypes : List Trace.EventType :=
  [.llmCall, .llmResponse, .parsing, .graphMutation, .failureDetection, .failurePropagation,
    .guardCheck, .cycleStart, .cycleEnd, .replayStart, .replayEnd, .snapshot, .agentAction,
    .regionCreated, .regionActivated, .regionMerged, .regionEvicted, .contextWindowGenerated]

def nodeType : Serde.Codec NodeType := choice nodeTypes nodeTypeName

def edgeType : Serde.Codec EdgeType := choice edgeTypes edgeTypeName

def nodeState : Serde.Codec NodeState := choice [.stable, .working, .orphan] nodeStateName

def centralityMode : Serde.Codec CentralityMode :=
  choice [.inDegree, .eigenvector] centralityModeName

def eventType : Serde.Codec Trace.EventType := choice eventTypes Trace.EventType.debug

theorem keeps_nodeType (t : NodeType) : nodeType.Keeps t :=
  keeps_choice (by decide) (by cases t <;> decide)

theorem keeps_edgeType (t : EdgeType) : edgeType.Keeps t :=
  keeps_choice (by decide) (by cases t <;> decide)

theorem keeps_nodeState (s : NodeState) : nodeState.Keeps s :=
  keeps_choice (by decide) (by cases s <;> decide)

theorem keeps_centralityMode (mode : CentralityMode) : centralityMode.Keeps mode :=
  keeps_choice (by decide) (by cases mode <;> decide)

theorem keeps_eventType (t : Trace.EventType) : eventType.Keeps t :=
  keeps_choice (by decide) (by cases t <;> decide)

/-! ## Nodes, edges and archived entries -/

def graphNode : Serde.Codec GraphNode :=
  (((required "id".toList str).pair <| (required "label".toList str).pair <|
    (required "content".toList str).pair <| (required "node_type".toList nodeType).pair <|
    (required "base_importance".toList f64).pair <|
    (required "failure_relevance".toList f64).pair <| (required "recency".toList f64).pair <|
    (required "access_count".toList nat).pair <| (required "created_at".toList nat).pair <|
    (required "last_accessed".toList nat).pair <|
    (defaulted "state".toList nodeState (· == .stable) .stable).pair <|
    defaulted "trust".toList f64 (fun trust ↦ !trust.lt (.finite 1) && trust != .nan)
      (.finite 1)).as
    (fun (id, label, content, nodeType, baseImportance, failureRelevance, recency, accessCount,
        createdAt, lastAccessed, state, trust) ↦
      { id, label, content, nodeType, baseImportance, failureRelevance, recency, accessCount,
        createdAt, lastAccessed, state, trust })
    fun node ↦ (node.id, node.label, node.content, node.nodeType, node.baseImportance,
      node.failureRelevance, node.recency, node.accessCount, node.createdAt, node.lastAccessed,
      node.state, node.trust)).object

def graphEdge : Serde.Codec GraphEdge :=
  (((required "source".toList str).pair <| (required "target".toList str).pair <|
    (required "weight".toList f64).pair <| (required "edge_type".toList edgeType).pair <|
    required "created_at".toList nat).as
    (fun (source, target, weight, edgeType, createdAt) ↦
      { source, target, weight, edgeType, createdAt })
    fun edge ↦ (edge.source, edge.target, edge.weight, edge.edgeType, edge.createdAt)).object

def spillRef : Serde.Codec SpillRef :=
  (((required "hash".toList hexHash).pair <| required "len".toList nat).as
    (fun (hash, len) ↦ { hash, len }) fun ref ↦ (ref.hash, ref.len)).object

def coldNode : Serde.Codec ColdNode :=
  (((required "node".toList graphNode).pair <| (required "edges".toList (list graphEdge)).pair <|
    (optional "spill".toList spillRef).pair <|
    (defaulted "compacted".toList bool (!·) false).pair <|
    defaulted "at_floor".toList bool (!·) false).as
    (fun (node, edges, spill, compacted, atFloor) ↦ { node, edges, spill, compacted, atFloor })
    fun entry ↦ (entry.node, entry.edges, entry.spill, entry.compacted, entry.atFloor)).object

theorem keeps_required_f64 {name : Str} {x : F64} (hx : x.InUnit) : (required name f64).Keeps x :=
  keeps_required (keeps_f64 (isFinite_of_inUnit hx))

/-- A trust that is left out is full. -/
theorem eq_one_of_isFull {trust : F64} (hunit : trust.InUnit)
    (hfull : (!trust.lt (.finite 1) && trust != .nan) = true) : trust = .finite 1 := by
  cases trust with
  | nan => cases hunit
  | infinite => cases hunit
  | finite value =>
    have hhigh : value ≤ 1 := hunit.2
    have hlow : 1 ≤ value := by simpa [F64.lt] using hfull
    rw [le_antisymm hhigh hlow]

theorem keeps_graphNode {node : GraphNode} (hnode : node.InRange) : graphNode.Keeps node := by
  refine (Record.Keeps.as ?_ rfl).object (by decide)
  have hstate : (defaulted "state".toList nodeState (· == .stable) .stable).Keeps node.state :=
    keeps_defaulted (keeps_nodeState node.state) eq_of_beq
  have htrust : (defaulted "trust".toList f64 (fun trust ↦ !trust.lt (.finite 1) && trust != .nan)
      (.finite 1)).Keeps node.trust :=
    keeps_defaulted (keeps_f64 (isFinite_of_inUnit hnode.trust)) (eq_one_of_isFull hnode.trust)
  exact (keeps_required_str node.id).pair <| (keeps_required_str node.label).pair <|
    (keeps_required_str node.content).pair <|
    (keeps_required (keeps_nodeType node.nodeType)).pair <|
    (keeps_required_f64 hnode.baseImportance).pair <|
    (keeps_required_f64 hnode.failureRelevance).pair <|
    (keeps_required_f64 hnode.recency).pair <| (keeps_required_nat node.accessCount).pair <|
    (keeps_required_nat node.createdAt).pair <| (keeps_required_nat node.lastAccessed).pair <|
    hstate.pair htrust

theorem keeps_graphEdge {edge : GraphEdge} (hedge : edge.InRange) : graphEdge.Keeps edge := by
  refine (Record.Keeps.as ?_ rfl).object (by decide)
  exact (keeps_required_str edge.source).pair <| (keeps_required_str edge.target).pair <|
    (keeps_required_f64 hedge).pair <| (keeps_required (keeps_edgeType edge.edgeType)).pair <|
    keeps_required_nat edge.createdAt

theorem loses_graphEdge {edge : GraphEdge} (hweight : ¬ edge.weight.IsFinite) :
    graphEdge.Loses edge := by
  refine (Record.Loses.as ?_).object (by decide)
  have hfield : (required "weight".toList f64).Loses edge.weight :=
    loses_required (loses_f64 hweight)
  exact .pair <| .inr <| .pair <| .inr <| .pair <| .inl hfield

theorem keeps_flag {name : Str} (flag : Bool) : (defaulted name bool (!·) false).Keeps flag :=
  keeps_defaulted (keeps_bool flag) (by cases flag <;> decide)

theorem keeps_coldNode {entry : ColdNode} (hentry : entry.InRange) : coldNode.Keeps entry := by
  refine (Record.Keeps.as ?_ rfl).object (by decide)
  have hedges : (list graphEdge).Keeps entry.edges :=
    keeps_list fun edge hedge ↦ keeps_graphEdge (hentry.edges edge hedge)
  have hspill : (optional "spill".toList spillRef).Keeps entry.spill := by
    rw [hentry.spill]
    exact keeps_optional fun ref href ↦ by cases href
  exact (keeps_required (keeps_graphNode hentry.node)).pair <| (keeps_required hedges).pair <|
    hspill.pair <| (keeps_flag entry.compacted).pair <| keeps_flag entry.atFloor

/-! ## The graph -/

/-- What a policy is made of but for its table, which training alone fills. -/
structure EvictionPolicy where
  alpha : F64
  gamma : F64
  updates : ℕ

def EvictionPolicy.new : EvictionPolicy where
  alpha := F64.ofRat (1 / 10)
  gamma := F64.ofRat (9 / 10)
  updates := 0

/-- The table of an untrained policy; one with entries is not read, since its keys are no texts. -/
def emptyTable : Serde.Codec Unit where
  write _ := .object []
  read
    | .object [] => some ()
    | _ => none

def evictionPolicy : Serde.Codec EvictionPolicy :=
  (((required "q".toList emptyTable).pair <| (required "alpha".toList f64).pair <|
    (required "gamma".toList f64).pair <| required "updates".toList nat).as
    (fun (_, alpha, gamma, updates) ↦ { alpha, gamma, updates })
    fun policy ↦ ((), policy.alpha, policy.gamma, policy.updates)).object

def isZeroF64 (x : F64) : Bool := x == .finite 0

def scoringWeights : Serde.Codec ScoringWeights :=
  (((required "w_base".toList f64).pair <| (required "w_failure".toList f64).pair <|
    (required "w_recency".toList f64).pair <| (required "w_access".toList f64).pair <|
    (defaulted "w_centrality".toList f64 isZeroF64 (.finite 0)).pair <|
    (defaulted "centrality_mode".toList centralityMode (· == .inDegree) .inDegree).pair <|
    (defaulted "w_trust".toList f64 isZeroF64 (.finite 0)).pair <|
    (required "failure_decay".toList f64).pair <|
    defaulted "failure_fanout".toList f64 (fun _ ↦ false) defaultFailureFanout).as
    (fun (wBase, wFailure, wRecency, wAccess, wCentrality, centralityMode, wTrust, failureDecay,
        failureFanout) ↦
      { wBase, wFailure, wRecency, wAccess, wCentrality, centralityMode, wTrust, failureDecay,
        failureFanout })
    fun weights ↦ (weights.wBase, weights.wFailure, weights.wRecency, weights.wAccess,
      weights.wCentrality, weights.centralityMode, weights.wTrust, weights.failureDecay,
      weights.failureFanout)).object

/-- The fields of a graph that a snapshot has. -/
structure SavedGraph where
  nodes : Std.ExtTreeMap Str GraphNode
  edges : List GraphEdge
  pagingThreshold : F64
  maxInMemoryNodes : ℕ
  clock : ℕ
  scoringWeights : ScoringWeights
  evictionPolicy : EvictionPolicy
  cold : Std.ExtTreeMap Str ColdNode

def savedGraph : Serde.Codec SavedGraph :=
  (((required "nodes".toList (map graphNode)).pair <| (required "edges".toList (list graphEdge)).pair <|
    (required "paging_threshold".toList f64).pair <|
    (required "max_in_memory_nodes".toList nat).pair <| (required "clock".toList nat).pair <|
    (defaulted "scoring_weights".toList scoringWeights (fun _ ↦ false) .default).pair <|
    (defaulted "eviction_policy".toList evictionPolicy (fun _ ↦ false) .new).pair <|
    defaulted "cold".toList (map coldNode) (fun _ ↦ false) ∅).as
    (fun (nodes, edges, pagingThreshold, maxInMemoryNodes, clock, scoringWeights, evictionPolicy,
        cold) ↦
      { nodes, edges, pagingThreshold, maxInMemoryNodes, clock, scoringWeights, evictionPolicy,
        cold })
    fun graph ↦ (graph.nodes, graph.edges, graph.pagingThreshold, graph.maxInMemoryNodes,
      graph.clock, graph.scoringWeights, graph.evictionPolicy, graph.cold)).object

def EvictionPolicy.floats (policy : EvictionPolicy) : List F64 := [policy.alpha, policy.gamma]

def ScoringWeights.floats (weights : ScoringWeights) : List F64 :=
  [weights.wBase, weights.wFailure, weights.wRecency, weights.wAccess, weights.wCentrality,
    weights.wTrust, weights.failureDecay, weights.failureFanout]

theorem keeps_evictionPolicy {policy : EvictionPolicy} (hfinite : ∀ x ∈ policy.floats, x.IsFinite) :
    evictionPolicy.Keeps policy := by
  refine (Record.Keeps.as ?_ rfl).object (by decide)
  have hfloat : ∀ {name : Str}, ∀ x ∈ policy.floats, (required name f64).Keeps x :=
    fun x hx ↦ keeps_required (keeps_f64 (hfinite x hx))
  have htable : emptyTable.Keeps () := rfl
  exact (keeps_required htable).pair <| (hfloat policy.alpha (by simp [EvictionPolicy.floats])).pair <|
    (hfloat policy.gamma (by simp [EvictionPolicy.floats])).pair <|
    keeps_required_nat policy.updates

theorem keeps_scoringWeights {weights : ScoringWeights}
    (hfinite : ∀ x ∈ weights.floats, x.IsFinite) : scoringWeights.Keeps weights := by
  refine (Record.Keeps.as ?_ rfl).object (by decide)
  simp only [ScoringWeights.floats, List.forall_mem_cons] at hfinite
  obtain ⟨hbase, hfailure, hrecency, haccess, hcentrality, htrust, hdecay, hfanout, -⟩ := hfinite
  have hfloat : ∀ {name : Str} {x : F64}, x.IsFinite → (required name f64).Keeps x :=
    fun hx ↦ keeps_required (keeps_f64 hx)
  have helided : ∀ {name : Str} {x : F64}, x.IsFinite →
      (defaulted name f64 isZeroF64 (.finite 0)).Keeps x :=
    fun hx ↦ keeps_defaulted (keeps_f64 hx) eq_of_beq
  have hmode : (defaulted "centrality_mode".toList centralityMode (· == .inDegree) .inDegree).Keeps
      weights.centralityMode :=
    keeps_defaulted (keeps_centralityMode weights.centralityMode) eq_of_beq
  have hwidth : (defaulted "failure_fanout".toList f64 (fun _ ↦ false) defaultFailureFanout).Keeps
      weights.failureFanout :=
    keeps_defaulted (keeps_f64 hfanout) fun hskip ↦ by cases hskip
  exact (hfloat hbase).pair <| (hfloat hfailure).pair <| (hfloat hrecency).pair <|
    (hfloat haccess).pair <| (helided hcentrality).pair <| hmode.pair <| (helided htrust).pair <|
    (hfloat hdecay).pair hwidth

/-- All numbers of a saved graph are finite, and the clamped ones in range. -/
structure SavedGraph.Clean (graph : SavedGraph) : Prop where
  nodes : SortedMap.Every GraphNode.InRange graph.nodes
  edges : ∀ edge ∈ graph.edges, edge.InRange
  cold : SortedMap.Every ColdNode.InRange graph.cold
  pagingThreshold : graph.pagingThreshold.IsFinite
  scoringWeights : ∀ x ∈ graph.scoringWeights.floats, x.IsFinite
  evictionPolicy : ∀ x ∈ graph.evictionPolicy.floats, x.IsFinite

/-- A field that is always written. -/
theorem keeps_written {α : Type} {name : Str} {codec : Serde.Codec α} {default a : α}
    (ha : codec.Keeps a) : (defaulted name codec (fun _ ↦ false) default).Keeps a :=
  keeps_defaulted ha fun hskip ↦ by cases hskip

theorem keeps_savedGraph {graph : SavedGraph} (hclean : graph.Clean) : savedGraph.Keeps graph := by
  refine (Record.Keeps.as ?_ rfl).object (by decide)
  have hnodes : (map graphNode).Keeps graph.nodes :=
    keeps_map fun id node hnode ↦ keeps_graphNode (hclean.nodes id node hnode)
  have hedges : (list graphEdge).Keeps graph.edges :=
    keeps_list fun edge hedge ↦ keeps_graphEdge (hclean.edges edge hedge)
  have hcold : (map coldNode).Keeps graph.cold :=
    keeps_map fun id entry hentry ↦ keeps_coldNode (hclean.cold id entry hentry)
  exact (keeps_required hnodes).pair <| (keeps_required hedges).pair <|
    (keeps_required (keeps_f64 hclean.pagingThreshold)).pair <|
    (keeps_required_nat graph.maxInMemoryNodes).pair <| (keeps_required_nat graph.clock).pair <|
    (keeps_written (keeps_scoringWeights hclean.scoringWeights)).pair <|
    (keeps_written (keeps_evictionPolicy hclean.evictionPolicy)).pair <| keeps_written hcold

theorem loses_savedGraph {graph : SavedGraph} {edge : GraphEdge} (hedge : edge ∈ graph.edges)
    (hweight : ¬ edge.weight.IsFinite) : savedGraph.Loses graph := by
  refine (Record.Loses.as ?_).object (by decide)
  have hedges : (required "edges".toList (list graphEdge)).Loses graph.edges :=
    loses_required (loses_list hedge (loses_graphEdge hweight))
  exact .pair <| .inr <| .pair <| .inl hedges

/-! ## The logs -/

/-- The payloads that the calls of a memory append. -/
inductive EventPayload where
  | parsing (filePath fileHash : Str) (modulesFound usesFound symbolsFound : ℕ)

def EventPayload.parts : EventPayload → Str × Str × ℕ × ℕ × ℕ
  | .parsing filePath fileHash modulesFound usesFound symbolsFound =>
    (filePath, fileHash, modulesFound, usesFound, symbolsFound)

def eventPayload : Serde.Codec EventPayload :=
  tagged "Parsing".toList (((required "file_path".toList str).pair <|
    (required "file_hash".toList str).pair <| (required "modules_found".toList nat).pair <|
    (required "uses_found".toList nat).pair <| required "symbols_found".toList nat).as
    (fun (filePath, fileHash, modulesFound, usesFound, symbolsFound) ↦
      .parsing filePath fileHash modulesFound usesFound symbolsFound)
    EventPayload.parts).object

def traceEvent : Serde.Codec (Trace.TraceEvent EventPayload) :=
  (((required "id".toList str).pair <| (required "timestamp".toList uint64).pair <|
    (required "event_type".toList eventType).pair <| (required "payload".toList eventPayload).pair <|
    (required "sequence_number".toList uint64).pair <|
    (defaulted "prev_hash".toList str (fun _ ↦ false) []).pair <|
    defaulted "hash".toList str (fun _ ↦ false) []).as
    (fun (id, timestamp, eventType, payload, sequenceNumber, prevHash, hash) ↦
      { id, timestamp, eventType, payload, sequenceNumber, prevHash, hash })
    fun event ↦ (event.id, event.timestamp, event.eventType, event.payload, event.sequenceNumber,
      event.prevHash, event.hash)).object

def eventLog : Serde.Codec (Trace.EventLog EventPayload) :=
  (((required "session_id".toList str).pair <| required "events".toList (list traceEvent)).as
    (fun (sessionId, events) ↦ { sessionId, events })
    fun log ↦ (log.sessionId, log.events)).object

def distEvent : Serde.Codec Distributed.Event :=
  (((required "id".toList uint64).pair <| (required "payload".toList str).pair <|
    (required "timestamp".toList uint64).pair <| required "source".toList str).as
    (fun (id, payload, timestamp, source) ↦ { id, payload, timestamp, source })
    fun event ↦ (event.id, event.payload, event.timestamp, event.source)).object

def hashChainLink : Serde.Codec Distributed.HashChainLink :=
  (((required "event_id".toList uint64).pair <| (required "hash".toList str).pair <|
    required "previous_hash".toList str).as
    (fun (eventId, hash, previousHash) ↦ { eventId, hash, previousHash })
    fun link ↦ (link.eventId, link.hash, link.previousHash)).object

def distLog : Serde.Codec Distributed.DistributedEventLog :=
  (((required "events".toList (list distEvent)).pair <|
    (required "hash_chain".toList (list hashChainLink)).pair <|
    required "next_id".toList uint64).as
    (fun (events, hashChain, nextId) ↦ { events, hashChain, nextId })
    fun log ↦ (log.events, log.hashChain, log.nextId)).object

theorem keeps_eventPayload (payload : EventPayload) : eventPayload.Keeps payload := by
  cases payload with
  | parsing filePath fileHash modulesFound usesFound symbolsFound =>
    refine keeps_tagged ((Record.Keeps.as ?_ rfl).object (by decide))
    exact (keeps_required_str filePath).pair <| (keeps_required_str fileHash).pair <|
      (keeps_required_nat modulesFound).pair <| (keeps_required_nat usesFound).pair <|
      keeps_required_nat symbolsFound

theorem keeps_traceEvent (event : Trace.TraceEvent EventPayload) : traceEvent.Keeps event := by
  refine (Record.Keeps.as ?_ rfl).object (by decide)
  exact (keeps_required_str event.id).pair <| (keeps_required_uint64 event.timestamp).pair <|
    (keeps_required (keeps_eventType event.eventType)).pair <|
    (keeps_required (keeps_eventPayload event.payload)).pair <|
    (keeps_required_uint64 event.sequenceNumber).pair <|
    (keeps_written (keeps_str event.prevHash)).pair <| keeps_written (keeps_str event.hash)

theorem keeps_eventLog (log : Trace.EventLog EventPayload) : eventLog.Keeps log := by
  refine (Record.Keeps.as ?_ rfl).object (by decide)
  have hevents : (list traceEvent).Keeps log.events :=
    keeps_list fun event _ ↦ keeps_traceEvent event
  exact (keeps_required_str log.sessionId).pair (keeps_required hevents)

theorem keeps_distEvent (event : Distributed.Event) : distEvent.Keeps event := by
  refine (Record.Keeps.as ?_ rfl).object (by decide)
  exact (keeps_required_uint64 event.id).pair <| (keeps_required_str event.payload).pair <|
    (keeps_required_uint64 event.timestamp).pair <| keeps_required_str event.source

theorem keeps_hashChainLink (link : Distributed.HashChainLink) : hashChainLink.Keeps link := by
  refine (Record.Keeps.as ?_ rfl).object (by decide)
  exact (keeps_required_uint64 link.eventId).pair <| (keeps_required_str link.hash).pair <|
    keeps_required_str link.previousHash

theorem keeps_distLog (log : Distributed.DistributedEventLog) : distLog.Keeps log := by
  refine (Record.Keeps.as ?_ rfl).object (by decide)
  have hevents : (list distEvent).Keeps log.events :=
    keeps_list fun event _ ↦ keeps_distEvent event
  have hchain : (list hashChainLink).Keeps log.hashChain :=
    keeps_list fun link _ ↦ keeps_hashChainLink link
  exact (keeps_required hevents).pair <| (keeps_required hchain).pair <|
    keeps_required_uint64 log.nextId

/-! ## The whole memory -/

/-- What a snapshot has. -/
structure Persisted where
  graph : SavedGraph
  eventLog : Trace.EventLog EventPayload
  distLog : Distributed.DistributedEventLog
  sources : Std.ExtTreeMap Str Str

def persisted : Serde.Codec Persisted :=
  (((required "graph".toList savedGraph).pair <| (required "event_log".toList eventLog).pair <|
    (required "dist_log".toList distLog).pair <| required "sources".toList (map str)).as
    (fun (graph, eventLog, distLog, sources) ↦ { graph, eventLog, distLog, sources })
    fun saved ↦ (saved.graph, saved.eventLog, saved.distLog, saved.sources)).object

theorem keeps_persisted {saved : Persisted} (hclean : saved.graph.Clean) :
    persisted.Keeps saved := by
  refine (Record.Keeps.as ?_ rfl).object (by decide)
  have hsources : (map str).Keeps saved.sources := keeps_map fun _ text _ ↦ keeps_str text
  exact (keeps_required (keeps_savedGraph hclean)).pair <|
    (keeps_required (keeps_eventLog saved.eventLog)).pair <|
    (keeps_required (keeps_distLog saved.distLog)).pair <| keeps_required hsources

theorem loses_persisted {saved : Persisted} {edge : GraphEdge} (hedge : edge ∈ saved.graph.edges)
    (hweight : ¬ edge.weight.IsFinite) : persisted.Loses saved := by
  refine (Record.Loses.as ?_).object (by decide)
  exact .pair <| .inl <| loses_required (loses_savedGraph hedge hweight)

/-- A memory with all that a snapshot has of it. -/
structure PersistentMemory where
  memory : CcosMemory
  pagingThreshold : F64
  scoringWeights : ScoringWeights
  evictionPolicy : EvictionPolicy
  eventLog : Trace.EventLog EventPayload
  distLog : Distributed.DistributedEventLog

namespace PersistentMemory

def new : PersistentMemory where
  memory := CcosMemory.new 5000
  pagingThreshold := defaultPagingThreshold
  scoringWeights := .default
  evictionPolicy := .new
  eventLog := Trace.EventLog.new "ccos-external-memory".toList
  distLog := Distributed.DistributedEventLog.new

variable (m : PersistentMemory)

def saved : Persisted where
  graph := {
    nodes := m.memory.graph.nodes
    edges := m.memory.graph.edges
    pagingThreshold := m.pagingThreshold
    maxInMemoryNodes := m.memory.graph.maxInMemoryNodes
    clock := m.memory.graph.clock
    scoringWeights := m.scoringWeights
    evictionPolicy := m.evictionPolicy
    cold := m.memory.graph.cold }
  eventLog := m.eventLog
  distLog := m.distLog
  sources := m.memory.sources

def toJson : Value := persisted.write m.saved

/-- The memory of a snapshot: the fields that are not written have their defaults. -/
def ofSaved (saved : Persisted) : PersistentMemory where
  memory := {
    graph := { MemoryGraph.new saved.graph.maxInMemoryNodes with
      nodes := saved.graph.nodes
      edges := saved.graph.edges
      clock := saved.graph.clock
      cold := saved.graph.cold }
    sources := saved.sources
    needsResolution := false }
  pagingThreshold := saved.graph.pagingThreshold
  scoringWeights := saved.graph.scoringWeights
  evictionPolicy := saved.graph.evictionPolicy
  eventLog := saved.eventLog
  distLog := saved.distLog

def fromJson (value : Value) : Option PersistentMemory :=
  (persisted.read value).map ofSaved

/-- Two memories with the same nodes, edges, archived entries, sources and logs. -/
structure Same (m m' : PersistentMemory) : Prop where
  nodes : m'.memory.graph.nodes = m.memory.graph.nodes
  edges : m'.memory.graph.edges = m.memory.graph.edges
  cold : m'.memory.graph.cold = m.memory.graph.cold
  sources : m'.memory.sources = m.memory.sources
  eventLog : m'.eventLog = m.eventLog
  distLog : m'.distLog = m.distLog

/-- The snapshot of the memory is read back as the same memory. -/
def Reopens : Prop := ∃ m', fromJson m.toJson = some m' ∧ Same m m'

variable {m}

/-- A memory whose numbers are finite is read back, and what is read has the memory of a reload. -/
theorem fromJson_toJson (hclean : m.saved.graph.Clean) :
    fromJson m.toJson = some { m with memory := m.memory.reload } := by
  have hread : persisted.read m.toJson = some m.saved := keeps_persisted hclean
  rw [fromJson, hread, Option.map_some]
  rfl

theorem reopens_of_clean (hclean : m.saved.graph.Clean) : m.Reopens :=
  ⟨_, fromJson_toJson hclean, rfl, rfl, rfl, rfl, rfl, rfl⟩

theorem not_reopens_of_mem_edges {edge : GraphEdge} (hedge : edge ∈ m.memory.graph.edges)
    (hweight : ¬ edge.weight.IsFinite) : ¬ m.Reopens := by
  rintro ⟨m', hread, -⟩
  have hlost : persisted.read m.toJson = none :=
    loses_persisted (show edge ∈ m.saved.graph.edges from hedge) hweight
  rw [fromJson, hlost] at hread
  cases hread

end PersistentMemory

end SoulSystem.Ccos.External
