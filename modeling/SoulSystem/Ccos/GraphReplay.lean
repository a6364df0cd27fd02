import SoulSystem.Ccos.EventLog
import SoulSystem.Ccos.Memory.Membership

/-!
# A graph rebuilt from its log

`record_graph` appends one event for each node, in the order of the ids, and then one for each edge,
in the order of the ends.  A reconstructor replays the events into an empty graph that never pages.

Every node is recorded before the first edge, and the duplicate index starts in step with the empty
edge list, so no edge of a proper graph is refused.
-/

/-! ## A graph that never paged -/

namespace SoulSystem.Ccos.Memory.MemoryGraph

open Library

/-- Nothing was ever demoted. -/
structure NoCold (g : MemoryGraph) : Prop where
  cold : g.cold = ∅
  husks : g.husks = ∅

variable {g : MemoryGraph}

theorem NoCold.forgetColdShadow (hnone : g.NoCold) (id : Str) : g.forgetColdShadow id = g := by
  have hfull : forgetFull g id = g := by
    unfold forgetFull
    rw [hnone.cold]
    simp
  unfold MemoryGraph.forgetColdShadow forgetHusk
  rw [hfull, hnone.husks]
  simp

theorem NoCold.upsertNode (hnone : g.NoCold) {codec : Codec} {judge : Judge} {id label content : Str}
    {nodeType : NodeType}
    (hroom : (g.nodes.insert id
      (upserted g.nodes[id]? id label content nodeType g.clock)).size ≤ g.maxInMemoryNodes) :
    upsertNode codec judge g id label content nodeType = { g with
      nodes := g.nodes.insert id (upserted g.nodes[id]? id label content nodeType g.clock) } := by
  rw [MemoryGraph.upsertNode, hnone.forgetColdShadow]
  exact if_pos hroom

end SoulSystem.Ccos.Memory.MemoryGraph

namespace SoulSystem.Ccos.Trace

open Library SortedMap Memory MemoryGraph

/-! ## What is recorded -/

/-- A payload; of those that tell nothing about a graph the content is left open. -/
inductive EventPayload (Other : Type) where
  | nodeUpserted (id label content : Str) (nodeType : NodeType)
  | edgeAdded (source target : Str) (weight : F64) (edgeType : EdgeType)
  | other (payload : Other)

variable {Other : Type}

/-- The order in which edges are recorded: by their ends only. -/
def EndsLe (a b : GraphEdge) : Prop :=
  ((compare a.source b.source).then (compare a.target b.target)).isLE

instance : DecidableRel EndsLe := fun _ _ ↦ inferInstanceAs (Decidable (_ = true))

def nodeEvent (entry : Str × GraphNode) : EventPayload Other :=
  .nodeUpserted entry.1 entry.2.label entry.2.content entry.2.nodeType

def edgeEvent (edge : GraphEdge) : EventPayload Other :=
  .edgeAdded edge.source edge.target edge.weight edge.edgeType

namespace EventLog

variable {Payload S : Type}

section Record

variable (format : Format Payload) (stamps : ℕ → Str × UInt64)

/-- A change of the graph appended, with the fresh id and the time that its position meets. -/
def appendMutation (log : EventLog Payload) (payload : Payload) : EventLog Payload :=
  log.append format (stamps log.events.length).1 (stamps log.events.length).2 .graphMutation payload

end Record

def recordGraph (format : Format (EventPayload Other)) (stamps : ℕ → Str × UInt64)
    (log : EventLog (EventPayload Other)) (g : MemoryGraph) : EventLog (EventPayload Other) :=
  let log := g.nodes.toList.foldl (fun log entry ↦ log.appendMutation format stamps (nodeEvent entry))
    log
  (g.edges.insertionSort EndsLe).foldl
    (fun log edge ↦ log.appendMutation format stamps (edgeEvent edge)) log

/-- A handler fed with all events, and how many it has processed. -/
def replayDeterministic (handleEvent : S → TraceEvent Payload → Except Str S)
    (log : EventLog Payload) (handler : S) : Except Str (S × ℕ) :=
  log.events.foldlM
    (fun state event ↦ do
      let handler ← handleEvent state.1 event
      return (handler, state.2 + 1)) (handler, 0)

end EventLog

/-! ## The reconstructor -/

structure GraphReconstructor where
  graph : MemoryGraph
  nodesBuilt : ℕ
  edgesBuilt : ℕ

/-- `usize::MAX`. -/
def usizeMax : ℕ := 2 ^ 64 - 1

namespace GraphReconstructor

def new : GraphReconstructor where
  graph := MemoryGraph.new usizeMax
  nodesBuilt := 0
  edgesBuilt := 0

variable (codec : Codec) (judge : Judge)

def applyPayload (r : GraphReconstructor) : EventPayload Other → GraphReconstructor
  | .nodeUpserted id label content nodeType => { r with
      graph := upsertNode codec judge r.graph id label content nodeType
      nodesBuilt := r.nodesBuilt + 1 }
  | .edgeAdded source target weight edgeType =>
    let added := r.graph.addEdge source target weight edgeType
    { r with
      graph := added.1
      edgesBuilt := if added.2 then r.edgesBuilt + 1 else r.edgesBuilt }
  | .other _ => r

def handleEvent (r : GraphReconstructor) (event : TraceEvent (EventPayload Other)) :
    Except Str GraphReconstructor :=
  .ok (r.applyPayload codec judge event.payload)

end GraphReconstructor

/-! ## The recorded events -/

/-- The payloads of a graph, in the order in which they are recorded. -/
def graphPayloads (g : MemoryGraph) : List (EventPayload Other) :=
  g.nodes.toList.map nodeEvent ++ (g.edges.insertionSort EndsLe).map edgeEvent

theorem foldl_appendMutation {Payload α : Type} (format : Format Payload)
    (stamps : ℕ → Str × UInt64) (payload : α → Payload) (xs : List α) (log : EventLog Payload) :
    ∃ recorded, (xs.foldl (fun log x ↦ log.appendMutation format stamps (payload x)) log).events =
        log.events ++ recorded ∧ recorded.map TraceEvent.payload = xs.map payload := by
  induction xs generalizing log with
  | nil => exact ⟨[], (List.append_nil _).symm, rfl⟩
  | cons x xs ih =>
    obtain ⟨recorded, hevents, hpayloads⟩ := ih (log.appendMutation format stamps (payload x))
    have happend : (log.appendMutation format stamps (payload x)).events = log.events ++ [_] := rfl
    rw [happend, List.append_assoc, List.singleton_append] at hevents
    refine ⟨_, hevents, ?_⟩
    rw [List.map_cons, List.map_cons, hpayloads]

theorem exists_recordGraph (format : Format (EventPayload Other)) (stamps : ℕ → Str × UInt64)
    (log : EventLog (EventPayload Other)) (g : MemoryGraph) :
    ∃ recorded, (log.recordGraph format stamps g).events = log.events ++ recorded ∧
      recorded.map TraceEvent.payload = graphPayloads g := by
  obtain ⟨nodes, hnodes, hnodePayloads⟩ :=
    foldl_appendMutation format stamps nodeEvent g.nodes.toList log
  obtain ⟨edges, hedges, hedgePayloads⟩ :=
    foldl_appendMutation format stamps edgeEvent (g.edges.insertionSort EndsLe)
      (g.nodes.toList.foldl (fun log entry ↦ log.appendMutation format stamps (nodeEvent entry)) log)
  refine ⟨nodes ++ edges, ?_, ?_⟩
  · rw [← List.append_assoc, ← hnodes, ← hedges]
    rfl
  · rw [List.map_append, hnodePayloads, hedgePayloads, graphPayloads]

/-- A replay depends on the payloads only. -/
theorem replayDeterministic_eq (codec : Codec) (judge : Judge)
    (log : EventLog (EventPayload Other)) (r : GraphReconstructor) :
    log.replayDeterministic (GraphReconstructor.handleEvent codec judge) r =
      .ok ((log.events.map TraceEvent.payload).foldl (fun r ↦ r.applyPayload codec judge) r,
        log.events.length) := by
  have hloop : ∀ (events : List (TraceEvent (EventPayload Other))) (r : GraphReconstructor) (n : ℕ),
      (events.foldlM (fun state event ↦ do
        let handler ← GraphReconstructor.handleEvent codec judge state.1 event
        return (handler, state.2 + 1)) (r, n) : Except Str (GraphReconstructor × ℕ)) =
      .ok ((events.map TraceEvent.payload).foldl (fun r ↦ r.applyPayload codec judge) r,
        n + events.length) := by
    intro events
    induction events with
    | nil => exact fun r n ↦ rfl
    | cons event events ih =>
      intro r n
      refine (ih _ (n + 1)).trans ?_
      rw [List.length_cons, List.map_cons, List.foldl_cons, Nat.add_right_comm, Nat.add_assoc]
  have hall := hloop log.events r 0
  rwa [Nat.zero_add] at hall

/-! ## The nodes -/

variable {codec : Codec} {judge : Judge}

/-- The node that a recorded one becomes. -/
def renewed (entry : Str × GraphNode) : GraphNode :=
  freshNode entry.1 entry.2.label entry.2.content entry.2.nodeType 0

/-- The nodes after some new ones were put in place. -/
def placed (nodes : Std.ExtTreeMap Str GraphNode) (entries : List (Str × GraphNode)) :
    Std.ExtTreeMap Str GraphNode :=
  entries.foldl (fun nodes entry ↦ nodes.insert entry.1 (renewed entry)) nodes

theorem getElem?_placed_of_notMem {entries : List (Str × GraphNode)}
    {nodes : Std.ExtTreeMap Str GraphNode} {id : Str} (hid : id ∉ entries.map Prod.fst) :
    (placed nodes entries)[id]? = nodes[id]? := by
  induction entries generalizing nodes with
  | nil => rfl
  | cons entry entries ih =>
    rw [List.map_cons, List.mem_cons, not_or] at hid
    exact (ih hid.2).trans (getElem?_insert_ne _ (Ne.symm hid.1))

theorem getElem?_placed_of_mem {entries : List (Str × GraphNode)}
    {nodes : Std.ExtTreeMap Str GraphNode} {id : Str} {node : GraphNode}
    (hdistinct : (entries.map Prod.fst).Nodup) (hmem : (id, node) ∈ entries) :
    (placed nodes entries)[id]? = some (renewed (id, node)) := by
  induction entries generalizing nodes with
  | nil => cases hmem
  | cons entry entries ih =>
    rw [List.map_cons, List.nodup_cons] at hdistinct
    cases List.mem_cons.mp hmem with
    | inl hhead =>
      subst hhead
      exact (getElem?_placed_of_notMem hdistinct.1).trans Std.ExtTreeMap.getElem?_insert_self
    | inr htail => exact ih hdistinct.2 htail

/-- New nodes are put in place one after the other, and none is paged out. -/
theorem foldl_nodeEvent {entries : List (Str × GraphNode)} {r : GraphReconstructor}
    (hcold : r.graph.NoCold) (hclock : r.graph.clock = 0)
    (hdistinct : (entries.map Prod.fst).Nodup) (hnew : ∀ entry ∈ entries, entry.1 ∉ r.graph.nodes)
    (hroom : r.graph.nodes.size + entries.length ≤ r.graph.maxInMemoryNodes) :
    (entries.map (@nodeEvent Other)).foldl (fun r ↦ r.applyPayload codec judge) r = { r with
      graph := { r.graph with nodes := placed r.graph.nodes entries }
      nodesBuilt := r.nodesBuilt + entries.length } := by
  induction entries generalizing r with
  | nil => rfl
  | cons entry entries ih =>
    rw [List.map_cons, List.nodup_cons] at hdistinct
    rw [List.length_cons] at hroom
    have hid : entry.1 ∉ r.graph.nodes := hnew entry List.mem_cons_self
    have hnode : upserted r.graph.nodes[entry.1]? entry.1 entry.2.label entry.2.content
        entry.2.nodeType r.graph.clock = renewed entry := by
      rw [getElem?_eq_none_iff.mpr hid, hclock]
      rfl
    have hsize : ∀ node, (r.graph.nodes.insert entry.1 node).size = r.graph.nodes.size + 1 := by
      intro node
      exact Std.ExtTreeMap.size_insert.trans (if_neg hid)
    have hstep : upsertNode codec judge r.graph entry.1 entry.2.label entry.2.content
        entry.2.nodeType = { r.graph with
          nodes := r.graph.nodes.insert entry.1 (renewed entry) } := by
      rw [← hnode]
      apply hcold.upsertNode
      rw [hsize]
      omega
    rw [List.map_cons, List.foldl_cons, nodeEvent, GraphReconstructor.applyPayload, hstep, ih]
    · rw [List.length_cons, Nat.add_right_comm, Nat.add_assoc]
      rfl
    · exact ⟨hcold.cold, hcold.husks⟩
    · exact hclock
    · exact hdistinct.2
    · intro later hlater hmem
      cases mem_insert_iff.mp hmem with
      | inl hsame => exact hdistinct.1 (hsame ▸ List.mem_map_of_mem hlater)
      | inr hold => exact hnew later (List.mem_cons_of_mem entry hlater) hold
    · rw [hsize]
      have hroom' : r.graph.nodes.size + 1 + entries.length ≤ r.graph.maxInMemoryNodes := by omega
      exact hroom'

/-! ## The edges -/

/-- The graph with one more edge, and its index in step. -/
def withEdge (g : MemoryGraph) (edge : GraphEdge) : MemoryGraph :=
  { g with
    edgeSet := insert edge.triple (triples g.edges)
    edges := g.edges ++ [{ edge with createdAt := g.clock }] }

/-- The edges of a list are all added if their ends are there and no key comes twice. -/
theorem foldl_edgeEvent {edges : List GraphEdge} {r : GraphReconstructor} (hsync : r.graph.Synced)
    (hends : ∀ edge ∈ edges, edge.source ∈ r.graph.nodes ∧ edge.target ∈ r.graph.nodes)
    (hdistinct : ((r.graph.edges ++ edges).map GraphEdge.triple).Nodup) :
    ∃ edgeSet, (edges.map (@edgeEvent Other)).foldl (fun r ↦ r.applyPayload codec judge) r =
      { r with
        graph := { r.graph with
          edges := r.graph.edges ++ edges.map fun edge ↦ { edge with createdAt := r.graph.clock }
          edgeSet := edgeSet }
        edgesBuilt := r.edgesBuilt + edges.length } := by
  induction edges generalizing r with
  | nil => exact ⟨r.graph.edgeSet, by rw [List.map_nil, List.map_nil, List.append_nil]; rfl⟩
  | cons edge edges ih =>
    have hfree : edge.triple ∉ triples r.graph.edges := by
      rw [mem_triples]
      intro hold
      rw [List.map_append, List.map_cons, List.nodup_append] at hdistinct
      exact hdistinct.2.2 _ hold _ List.mem_cons_self rfl
    have hadd : r.graph.addEdge edge.source edge.target edge.weight edge.edgeType =
        (withEdge r.graph edge, true) := by
      rw [addEdge_eq hsync, if_pos (hends edge List.mem_cons_self)]
      exact if_neg hfree
    have hstep : r.applyPayload codec judge (@edgeEvent Other edge) =
        { r with graph := withEdge r.graph edge, edgesBuilt := r.edgesBuilt + 1 } := by
      rw [edgeEvent, GraphReconstructor.applyPayload, hadd]
      rfl
    have hsync' : (withEdge r.graph edge).Synced := fun _ ↦
      (triples_append r.graph.edges { edge with createdAt := r.graph.clock }).symm
    have hdistinct' : (((withEdge r.graph edge).edges ++ edges).map GraphEdge.triple).Nodup := by
      rw [withEdge, List.append_assoc, List.map_append, List.singleton_append, List.map_cons]
      rwa [List.map_append, List.map_cons] at hdistinct
    obtain ⟨edgeSet, hrest⟩ := @ih
      { r with graph := withEdge r.graph edge, edgesBuilt := r.edgesBuilt + 1 } hsync'
      (fun later hlater ↦ hends later (List.mem_cons_of_mem edge hlater)) hdistinct'
    refine ⟨edgeSet, ?_⟩
    rw [List.map_cons, List.foldl_cons, hstep, hrest, withEdge]
    simp only [List.append_assoc, List.singleton_append, List.length_cons, List.map_cons,
      Nat.add_right_comm _ 1, Nat.add_assoc]

/-! ## The rebuilt graph -/

/-- What the log keeps of a node. -/
def nodeView (node : GraphNode) : Str × Str × NodeType := (node.label, node.content, node.nodeType)

/-- What the log keeps of an edge. -/
def edgeView (edge : GraphEdge) : Str × Str × EdgeType × F64 :=
  (edge.source, edge.target, edge.edgeType, edge.weight)

/-- A reconstructor that has rebuilt a graph. -/
structure Rebuilt (g : MemoryGraph) (r : GraphReconstructor) : Prop where
  nodes : ∀ id : Str, r.graph.nodes[id]?.map nodeView = g.nodes[id]?.map nodeView
  edges : (r.graph.edges.map edgeView).Perm (g.edges.map edgeView)
  nodesBuilt : r.nodesBuilt = g.nodes.size
  edgesBuilt : r.edgesBuilt = g.edges.length

theorem rebuilt_graphPayloads (codec : Codec) (judge : Judge) {g : MemoryGraph}
    (hproper : g.ProperEdges) (hsize : g.nodes.size ≤ usizeMax) :
    Rebuilt g ((@graphPayloads Other g).foldl (fun r ↦ r.applyPayload codec judge) .new) := by
  have hsorted : (g.edges.insertionSort EndsLe).Perm g.edges := List.perm_insertionSort EndsLe g.edges
  have hentries : ∀ id node, (id, node) ∈ g.nodes.toList ↔ g.nodes[id]? = some node :=
    fun id node ↦ Std.ExtTreeMap.mem_toList_iff_getElem?_eq_some
  have hkeys : (g.nodes.toList.map Prod.fst).Nodup := by
    rw [Std.ExtTreeMap.map_fst_toList_eq_keys]
    exact nodup_keys g.nodes
  have hnodes : ∀ id, (placed ∅ g.nodes.toList)[id]? =
      g.nodes[id]?.map fun node ↦ renewed (id, node) := by
    intro id
    cases hnode : g.nodes[id]? with
    | some node => exact getElem?_placed_of_mem hkeys ((hentries id node).mpr hnode)
    | none =>
      have hid : id ∉ g.nodes.toList.map Prod.fst := by
        rw [Std.ExtTreeMap.map_fst_toList_eq_keys, Std.ExtTreeMap.mem_keys]
        exact getElem?_eq_none_iff.mp hnode
      rw [getElem?_placed_of_notMem hid]
      exact Std.ExtTreeMap.getElem?_empty
  have hresident : ∀ id ∈ g.nodes, id ∈ placed ∅ g.nodes.toList := by
    intro id hid
    obtain ⟨node, hnode⟩ := exists_getElem?_of_mem hid
    have hplaced : (placed ∅ g.nodes.toList)[id]? = some (renewed (id, node)) := by
      rw [hnodes, hnode]
      rfl
    exact mem_of_getElem?_eq_some hplaced
  have hplaced := @foldl_nodeEvent Other codec judge g.nodes.toList GraphReconstructor.new ⟨rfl, rfl⟩
    rfl hkeys (fun entry _ ↦ Std.ExtTreeMap.not_mem_empty) (by
      rw [Std.ExtTreeMap.length_toList]
      exact (Nat.zero_add _).trans_le hsize)
  obtain ⟨edgeSet, hedges⟩ := @foldl_edgeEvent Other codec judge (g.edges.insertionSort EndsLe)
    { GraphReconstructor.new with
      graph := { GraphReconstructor.new.graph with nodes := placed ∅ g.nodes.toList }
      nodesBuilt := 0 + g.nodes.toList.length } (fun _ ↦ rfl)
    (fun edge hedge ↦ (hproper.resident edge (hsorted.mem_iff.mp hedge)).imp
      (hresident _) (hresident _))
    ((hsorted.map GraphEdge.triple).nodup_iff.mpr hproper.distinct)
  rw [graphPayloads, List.foldl_append, hplaced]
  refine hedges ▸ ⟨fun id ↦ ?_, ?_, ?_, ?_⟩
  · refine (congrArg (Option.map nodeView) (hnodes id)).trans ?_
    rw [Option.map_map]
    rfl
  · refine List.Perm.trans ?_ (hsorted.map edgeView)
    rw [List.map_append, List.map_map]
    exact List.Perm.refl _
  · exact (Nat.zero_add _).trans Std.ExtTreeMap.length_toList
  · exact (Nat.zero_add _).trans hsorted.length_eq

/-- **The events of a graph rebuild it**, appended to whatever log and replayed into a fresh
reconstructor.  A map never has more than `usize::MAX` entries. -/
theorem recordGraph_rebuilt (codec : Codec) (judge : Judge) (format : Format (EventPayload Other))
    (stamps : ℕ → Str × UInt64) (log : EventLog (EventPayload Other)) {g : MemoryGraph}
    (hproper : g.ProperEdges) (hsize : g.nodes.size ≤ usizeMax) :
    ∃ recorded r, (log.recordGraph format stamps g).events = log.events ++ recorded ∧
      EventLog.replayDeterministic (GraphReconstructor.handleEvent codec judge)
        { log with events := recorded } .new = .ok (r, recorded.length) ∧ Rebuilt g r := by
  obtain ⟨recorded, hevents, hpayloads⟩ := exists_recordGraph format stamps log g
  refine ⟨recorded, _, hevents, replayDeterministic_eq codec judge _ _, ?_⟩
  rw [hpayloads]
  exact rebuilt_graphPayloads codec judge hproper hsize

/-- A node with a loop and two parallel edges of different types to another node. -/
def parallelEdges : MemoryGraph :=
  let b := freshNode ['b'] ['y'] ['z'] .symbol 3
  let edge (target : Str) (edgeType : EdgeType) : GraphEdge :=
    { source := ['b'], target, weight := .finite 1, edgeType, createdAt := 3 }
  { MemoryGraph.new 2 with
    nodes := (Std.ExtTreeMap.empty.insert ['b'] b).insert ['a'] (freshNode ['a'] [] ['x'] .module 3)
    edges := [edge ['b'] .causes, edge ['a'] .calls, edge ['a'] .references] }

theorem recordGraph_rebuilt_parallelEdges :
    let log : EventLog (EventPayload Unit) := EventLog.new ['s']
    ∃ recorded r, (log.recordGraph ⟨id, fun _ ↦ []⟩ (fun _ ↦ ([], 0)) parallelEdges).events =
        log.events ++ recorded ∧
      EventLog.replayDeterministic (GraphReconstructor.handleEvent unusedCodec evenJudge)
        { log with events := recorded } .new = .ok (r, recorded.length) ∧ Rebuilt parallelEdges r :=
  recordGraph_rebuilt unusedCodec evenJudge ⟨id, fun _ ↦ []⟩ (fun _ ↦ ([], 0)) (EventLog.new ['s'])
    ⟨by decide, by decide⟩ (by decide)

end SoulSystem.Ccos.Trace
