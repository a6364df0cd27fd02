import SoulSystem.Library.KeyedCache
import SoulSystem.Ccos.Memory.EdgeIndex

/-!
# The structural caches

The in-degrees of the centrality score and the adjacency of the causal window are kept in two cells
that a graph shares with its clones.  Both are keyed on the number of edges, and a change of a
node's lifecycle state clears the first.

Equal numbers of edges do not make equal edges.  An answer is right exactly when the graph that
filled the cell has another number of edges, or the same structure as the graph that is asked.
-/

namespace SoulSystem.Ccos.Memory

open Library List

/-! ## What is cached -/

def EdgeType.isDependency : EdgeType → Bool
  | .dependsOn | .contains | .references | .causes | .calls | .dataFlow => true
  | .relatedTo | .supports | .contradicts => false

structure CausalAdjacency where
  fwd : Std.ExtTreeMap Str (List (Str × F64))
  rev : Std.ExtTreeMap Str (List Str)

namespace MemoryGraph

def isOrphan (g : MemoryGraph) (id : Str) : Bool :=
  match g.nodes[id]? with
  | some node => node.state == .orphan
  | none => false

/-- Whether an edge counts for the in-degree of its target. -/
def bearsLoad (g : MemoryGraph) (edge : GraphEdge) : Bool :=
  !(g.isOrphan edge.source || g.isOrphan edge.target)

/-- The counts that `node_in_degree` builds. -/
def inDegrees (g : MemoryGraph) : Std.ExtTreeMap Str ℕ :=
  g.edges.foldl (fun degrees edge ↦
    if g.bearsLoad edge then degrees.insert edge.target (degrees[edge.target]?.getD 0 + 1)
    else degrees) ∅

def causalAdjacency (g : MemoryGraph) : CausalAdjacency :=
  let edges := g.edges.filter fun edge ↦ edge.edgeType.isDependency
  let fwd : Std.ExtTreeMap Str (List (Str × F64)) := edges.foldl (fun fwd edge ↦
    fwd.insert edge.source (fwd[edge.source]?.getD [] ++ [(edge.target, edge.weight)])) ∅
  let rev : Std.ExtTreeMap Str (List Str) := edges.foldl (fun rev edge ↦
    rev.insert edge.target (rev[edge.target]?.getD [] ++ [edge.source])) ∅
  { fwd := fwd.map fun _ targets ↦ targets.insertionSort fun a b ↦ (compare a.1 b.1).isLE
    rev := rev.map fun _ sources ↦ sources.insertionSort fun a b ↦ (compare a b).isLE }

/-- The graph after a change of state, and whether the state is another one now. -/
def setNodeState (g : MemoryGraph) (id : Str) (state : NodeState) : MemoryGraph × Bool :=
  match g.nodes[id]? with
  | some node => ({ g with nodes := g.nodes.insert id { node with state } }, node.state != state)
  | none => (g, false)

/-- The number of edges: the key of both cells. -/
def edgeCount (g : MemoryGraph) : ℕ :=
  g.edges.length

/-! ## The cells -/

abbrev DegreeCell := Option (ℕ × Std.ExtTreeMap Str ℕ)
abbrev AdjacencyCell := Option (ℕ × CausalAdjacency)

/-- The answer of `node_in_degree` and the cell that it leaves. -/
def nodeInDegree (g : MemoryGraph) (cell : DegreeCell) (id : Str) : ℕ × DegreeCell :=
  let found := KeyedCache.refreshed edgeCount inDegrees cell g
  (found.2[id]?.getD 0, some found)

/-- The adjacency that `causal_flash_window` works on and the cell that it leaves. -/
def withCausalAdjacency (g : MemoryGraph) (cell : AdjacencyCell) :
    CausalAdjacency × AdjacencyCell :=
  let found := KeyedCache.refreshed edgeCount causalAdjacency cell g
  (found.2, some found)

/-! ## Where an operation computes scores

A score reads the in-degrees if its weight for centrality is not zero.  The budget passes leave the
resident graph alone, so that one graph stands for all of them. -/

variable (codec : Codec) (judge : Judge)

def pagingStages (g : MemoryGraph) : List MemoryGraph :=
  if g.nodes.size ≤ g.maxInMemoryNodes then [] else [g, evicted judge g]

def swapStages (id : Str) : ℕ → MemoryGraph → List MemoryGraph
  | 0, g => [g]
  | fuel + 1, g =>
    g :: if g.nodes.size ≤ g.maxInMemoryNodes then []
      else
        match swapVictim judge g id with
        | some victim => swapStages id fuel (demote g victim)
        | none => []

def pageInStages (g : MemoryGraph) (id : Str) : List MemoryGraph :=
  match (faultHusk codec g id).bind fun g ↦ faultContent codec g id with
  | none => []
  | some g =>
    match g.cold[id]? with
    | none => []
    | some entry => swapStages judge id (g.restore id entry).nodes.size (g.restore id entry) ++
        [swapped judge g id entry]

def scoreStages (op : Op) (g : MemoryGraph) : List MemoryGraph :=
  match op with
  | .upsertNode id label content nodeType =>
    pagingStages judge (withUpserted g id label content nodeType)
  | .enforcePaging => pagingStages judge g
  | .pageIn id => pageInStages codec judge g id
  | .attachColdSpill _ | .setColdContentBudget _ | .setColdResidentBudget _ => [g]
  | _ => []

/-! ## A graph and its clones -/

/-- Graphs that share their cells. -/
structure Herd where
  graphs : List MemoryGraph
  degrees : DegreeCell
  adjacency : AdjacencyCell

/-- One call on one of the graphs.  An operation comes with its scores and with the stages at which
it reads the in-degrees; the files of a spill directory may also change by the hand of another graph
that works on it. -/
inductive HerdStep where
  | clone (i : ℕ)
  | apply (i : ℕ) (judge : Judge) (op : Op) (looks : List Bool)
  | setNodeState (i : ℕ) (id : Str) (state : NodeState)
  | changeFiles (i : ℕ) (spill : Option ColdSpill)
  | nodeInDegree (i : ℕ) (id : Str)
  | causalFlashWindow (i : ℕ)

/-- The stages that an operation looks at. -/
def lookedAt (stages : List MemoryGraph) (looks : List Bool) : List MemoryGraph :=
  ((stages.zip looks).filter Prod.snd).map Prod.fst

/-- The call on the graph at which it is made. -/
def stepAt (herd : Herd) (g : MemoryGraph) : HerdStep → Herd
  | .clone _ => { herd with graphs := herd.graphs ++ [g] }
  | .apply i judge op looks =>
    { herd with
      graphs := herd.graphs.set i (apply codec judge op g)
      degrees := (lookedAt (scoreStages codec judge op g) looks).foldl
        (fun cell stage ↦ some (KeyedCache.refreshed edgeCount inDegrees cell stage))
        herd.degrees }
  | .setNodeState i id state =>
    { herd with
      graphs := herd.graphs.set i (g.setNodeState id state).1
      degrees := if (g.setNodeState id state).2 then none else herd.degrees }
  | .changeFiles i spill => { herd with graphs := herd.graphs.set i { g with spill } }
  | .nodeInDegree _ id => { herd with degrees := (g.nodeInDegree herd.degrees id).2 }
  | .causalFlashWindow _ => { herd with adjacency := (g.withCausalAdjacency herd.adjacency).2 }

def HerdStep.index : HerdStep → ℕ
  | .clone i | .apply i _ _ _ | .setNodeState i _ _ | .changeFiles i _ | .nodeInDegree i _
  | .causalFlashWindow i => i

/-- A call on a graph that does not exist is none. -/
def herdStep (herd : Herd) (step : HerdStep) : Herd :=
  match herd.graphs[step.index]? with
  | some g => stepAt codec herd g step
  | none => herd

def herdRun (herd : Herd) (steps : List HerdStep) : Herd :=
  steps.foldl (herdStep codec) herd

def Herd.new (maxInMemoryNodes : ℕ) : Herd where
  graphs := [MemoryGraph.new maxInMemoryNodes]
  degrees := none
  adjacency := none

/-! ## Origins of the cells -/

/-- What a call does to the cell of the in-degrees. -/
def degreeEvents (g : MemoryGraph) : HerdStep → List (KeyedCache.Event MemoryGraph)
  | .apply _ judge op looks => (lookedAt (scoreStages codec judge op g) looks).map .read
  | .setNodeState _ id state => if (g.setNodeState id state).2 then [.clear] else []
  | .nodeInDegree _ _ => [.read g]
  | .clone _ | .changeFiles _ _ | .causalFlashWindow _ => []

/-- What a call does to the cell of the adjacency. -/
def adjacencyEvents (g : MemoryGraph) : HerdStep → List (KeyedCache.Event MemoryGraph)
  | .causalFlashWindow _ => [.read g]
  | _ => []

/-- The events of a whole run on one cell. -/
def cellEvents (events : MemoryGraph → HerdStep → List (KeyedCache.Event MemoryGraph)) :
    Herd → List HerdStep → List (KeyedCache.Event MemoryGraph)
  | _, [] => []
  | herd, step :: steps =>
    (match herd.graphs[step.index]? with
      | some g => events g step
      | none => []) ++ cellEvents events (herdStep codec herd step) steps

/-- The graph from which a run has filled the in-degrees, if any. -/
def degreeOrigin (maxInMemoryNodes : ℕ) (steps : List HerdStep) : Option MemoryGraph :=
  (cellEvents codec (degreeEvents codec) (Herd.new maxInMemoryNodes) steps).foldl
    (KeyedCache.origin edgeCount) none

/-- The graph from which a run has filled the adjacency, if any. -/
def adjacencyOrigin (maxInMemoryNodes : ℕ) (steps : List HerdStep) : Option MemoryGraph :=
  (cellEvents codec adjacencyEvents (Herd.new maxInMemoryNodes) steps).foldl
    (KeyedCache.origin edgeCount) none

/-! ## When the caches are right -/

/-- The targets of the edges that bear load, each as often as such an edge leads to it. -/
def loadTargets (g : MemoryGraph) : List Str :=
  (g.edges.filter g.bearsLoad).map GraphEdge.target

/-- The number of edges into a node neither of whose ends is an orphan. -/
def loadCount (g : MemoryGraph) (id : Str) : ℕ :=
  g.loadTargets.count id

theorem getD_foldl_degrees (bears : GraphEdge → Bool) (edges : List GraphEdge)
    (degrees : Std.ExtTreeMap Str ℕ) (id : Str) :
    (edges.foldl (fun degrees edge ↦
      if bears edge then degrees.insert edge.target (degrees[edge.target]?.getD 0 + 1)
      else degrees) degrees)[id]?.getD 0 =
      degrees[id]?.getD 0 + ((edges.filter bears).map GraphEdge.target).count id := by
  induction edges generalizing degrees with
  | nil => rfl
  | cons edge edges ih =>
    rw [foldl_cons, ih, filter_cons]
    by_cases hbears : bears edge
    · rw [if_pos hbears, if_pos hbears, map_cons, count_cons]
      by_cases hid : edge.target = id
      · rw [← hid, Std.ExtTreeMap.getElem?_insert_self, beq_self_eq_true, if_pos rfl,
          Option.getD_some]
        omega
      · rw [SortedMap.getElem?_insert_ne _ hid, beq_false_of_ne hid]
        rfl
    · rw [if_neg hbears, if_neg hbears]

theorem getD_inDegrees (g : MemoryGraph) (id : Str) : g.inDegrees[id]?.getD 0 = g.loadCount id := by
  unfold inDegrees
  rw [getD_foldl_degrees, Std.ExtTreeMap.getElem?_empty, Option.getD_none, Nat.zero_add]
  rfl

variable {codec} {herd : Herd}

theorem degrees_herdStep {step : HerdStep} {g : MemoryGraph}
    (hg : herd.graphs[step.index]? = some g) :
    (herdStep codec herd step).degrees =
      (degreeEvents codec g step).foldl (KeyedCache.after edgeCount inDegrees) herd.degrees := by
  rw [herdStep, hg]
  cases step with
  | apply i judge op looks =>
    unfold stepAt degreeEvents
    simp only []
    rw [foldl_map]
    rfl
  | setNodeState i id state =>
    unfold stepAt degreeEvents
    simp only []
    split
    · rfl
    · rfl
  | clone | changeFiles | nodeInDegree | causalFlashWindow => rfl

theorem adjacency_herdStep {step : HerdStep} {g : MemoryGraph}
    (hg : herd.graphs[step.index]? = some g) :
    (herdStep codec herd step).adjacency =
      (adjacencyEvents g step).foldl (KeyedCache.after edgeCount causalAdjacency)
        herd.adjacency := by
  rw [herdStep, hg]
  cases step with
  | clone | apply | setNodeState | changeFiles | nodeInDegree | causalFlashWindow => rfl

/-- A cell that every call changes by its events is changed by a run through the events of the
run. -/
theorem cell_herdRun {β : Type} {value : MemoryGraph → β} (cell : Herd → Option (ℕ × β))
    (events : MemoryGraph → HerdStep → List (KeyedCache.Event MemoryGraph))
    (hstep : ∀ (herd : Herd) (step : HerdStep) (g : MemoryGraph),
      herd.graphs[step.index]? = some g → cell (herdStep codec herd step) =
        (events g step).foldl (KeyedCache.after edgeCount value) (cell herd))
    (steps : List HerdStep) (herd : Herd) :
    cell (herdRun codec herd steps) =
      (cellEvents codec events herd steps).foldl (KeyedCache.after edgeCount value)
        (cell herd) := by
  induction steps generalizing herd with
  | nil => rfl
  | cons step steps ih =>
    have hrun : herdRun codec herd (step :: steps) =
        herdRun codec (herdStep codec herd step) steps := rfl
    rw [hrun, ih, cellEvents, foldl_append]
    cases hg : herd.graphs[step.index]? with
    | none =>
      have hsame : herdStep codec herd step = herd := by rw [herdStep, hg]
      rw [hsame]
      rfl
    | some g => rw [hstep herd step g hg]

theorem degrees_herdRun (codec : Codec) (maxInMemoryNodes : ℕ) (steps : List HerdStep) :
    (herdRun codec (Herd.new maxInMemoryNodes) steps).degrees =
      KeyedCache.cellOf edgeCount inDegrees (degreeOrigin codec maxInMemoryNodes steps) := by
  rw [cell_herdRun Herd.degrees _ (fun _ _ _ ↦ degrees_herdStep), degreeOrigin,
    ← KeyedCache.foldl_after_cellOf]
  rfl

theorem adjacency_herdRun (codec : Codec) (maxInMemoryNodes : ℕ) (steps : List HerdStep) :
    (herdRun codec (Herd.new maxInMemoryNodes) steps).adjacency =
      KeyedCache.cellOf edgeCount causalAdjacency
        (adjacencyOrigin codec maxInMemoryNodes steps) := by
  rw [cell_herdRun Herd.adjacency _ (fun _ _ _ ↦ adjacency_herdStep), adjacencyOrigin,
    ← KeyedCache.foldl_after_cellOf]
  rfl

theorem loadCount_eq_iff (filled g : MemoryGraph) :
    (∀ id, filled.inDegrees[id]?.getD 0 = g.loadCount id) ↔
      filled.loadTargets.Perm g.loadTargets := by
  rw [perm_iff_count]
  constructor
  · intro hcounts id
    rw [← loadCount, ← getD_inDegrees, hcounts, loadCount]
  · intro hcounts id
    rw [getD_inDegrees, loadCount, hcounts, loadCount]

/-- **When the structural caches are right.**  In every state that a run on a graph and its clones
reaches, the in-degrees of a graph are the counts of its edges exactly when the graph that filled
their cell has another number of edges or the same loads, and the causal window works on the
adjacency of the graph exactly when the graph that filled its cell has another number of edges or
the same adjacency. -/
theorem caches_fresh_iff (codec : Codec) (maxInMemoryNodes : ℕ) (steps : List HerdStep) :
    ∀ g ∈ (herdRun codec (Herd.new maxInMemoryNodes) steps).graphs,
      ((∀ id, (g.nodeInDegree (herdRun codec (Herd.new maxInMemoryNodes) steps).degrees id).1 =
          g.loadCount id) ↔
        ∀ filled, degreeOrigin codec maxInMemoryNodes steps = some filled →
          filled.edgeCount = g.edgeCount → filled.loadTargets.Perm g.loadTargets) ∧
      ((g.withCausalAdjacency (herdRun codec (Herd.new maxInMemoryNodes) steps).adjacency).1 =
          g.causalAdjacency ↔
        ∀ filled, adjacencyOrigin codec maxInMemoryNodes steps = some filled →
          filled.edgeCount = g.edgeCount → filled.causalAdjacency = g.causalAdjacency) := by
  intro g _
  constructor
  · have hpresent : ∀ id, g.inDegrees[id]?.getD 0 = g.loadCount id := getD_inDegrees g
    have hfresh : (∀ id,
        (g.nodeInDegree (herdRun codec (Herd.new maxInMemoryNodes) steps).degrees id).1 =
          g.loadCount id) ↔
        ∀ filled, degreeOrigin codec maxInMemoryNodes steps = some filled →
          filled.edgeCount = g.edgeCount →
            ∀ id, filled.inDegrees[id]?.getD 0 = g.loadCount id := by
      rw [degrees_herdRun]
      exact KeyedCache.refreshed_eq_iff _ g
        (fun degrees ↦ ∀ id, degrees[id]?.getD 0 = g.loadCount id) hpresent
    rw [hfresh]
    apply forall_congr'
    intro filled
    rw [loadCount_eq_iff]
  · rw [adjacency_herdRun]
    exact KeyedCache.refreshed_eq_iff _ g (fun adjacency ↦ adjacency = g.causalAdjacency) rfl

/-! ## A replaced edge -/

/-- Three nodes and an edge whose target is asked for its in-degree. -/
def askedEdge : List HerdStep :=
  [.apply 0 evenJudge (.upsertNode ['a'] [] [] .symbol) [],
    .apply 0 evenJudge (.upsertNode ['b'] [] [] .symbol) [],
    .apply 0 evenJudge (.upsertNode ['c'] [] [] .symbol) [],
    .apply 0 evenJudge (.addEdge ['a'] ['b'] (.finite 1) .calls) [],
    .nodeInDegree 0 ['b'], .causalFlashWindow 0]

/-- The asked graph and a clone of it. -/
def askedClone : List HerdStep :=
  askedEdge ++ [.clone 0]

/-- The edge replaced by another one. -/
def replacedEdge : List HerdStep :=
  askedEdge ++ [.apply 0 evenJudge (.removeNode ['b']) [],
    .apply 0 evenJudge (.addEdge ['a'] ['c'] (.finite 1) .calls) []]

theorem caches_fresh_askedEdge :
    (herdRun unusedCodec (Herd.new 3) askedClone).graphs ≠ [] ∧
      ∀ g ∈ (herdRun unusedCodec (Herd.new 3) askedClone).graphs, ∀ id,
        (g.nodeInDegree (herdRun unusedCodec (Herd.new 3) askedClone).degrees id).1 =
          g.loadCount id := by
  have hgraphs : (herdRun unusedCodec (Herd.new 3) askedClone).graphs.length ≠ 0 := by
    decide +kernel
  refine ⟨fun hnil ↦ hgraphs (congrArg List.length hnil), ?_⟩
  intro g hg
  apply (caches_fresh_iff unusedCodec 3 askedClone g hg).1.mpr
  have hall : ∀ g ∈ (herdRun unusedCodec (Herd.new 3) askedClone).graphs,
      ∀ filled ∈ degreeOrigin unusedCodec 3 askedClone,
        filled.loadTargets = g.loadTargets := by decide +kernel
  intro filled hfilled _
  rw [hall g hg filled hfilled]

/-- After the replacement both cells are keyed on one edge and describe the old one. -/
theorem not_all_runs_keep_caches_fresh :
    ¬ ∀ (steps : List HerdStep), ∀ g ∈ (herdRun unusedCodec (Herd.new 3) steps).graphs,
      (∀ id, (g.nodeInDegree (herdRun unusedCodec (Herd.new 3) steps).degrees id).1 =
        g.loadCount id) ∧
      (g.withCausalAdjacency (herdRun unusedCodec (Herd.new 3) steps).adjacency).1 =
        g.causalAdjacency := by
  intro hall
  have hfresh : ∀ g ∈ (herdRun unusedCodec (Herd.new 3) replacedEdge).graphs,
      (g.nodeInDegree (herdRun unusedCodec (Herd.new 3) replacedEdge).degrees ['c']).1 =
        g.loadCount ['c'] := fun g hg ↦ (hall replacedEdge g hg).1 ['c']
  revert hfresh
  decide +kernel

end MemoryGraph

end SoulSystem.Ccos.Memory
