import SoulSystem.Ccos.Memory.ColdMoves
import SoulSystem.Ccos.External.Parser

/-!
# The external memory

`CcosMemory` keeps the graph with the last source text of every file.  An ingest compares a text
with the last one, evicts the resident nodes of a file that has changed, applies the operations of
the new parse result, and stamps a low trust on the nodes of a source that looks
hostile.  Assertions add an edge between two nodes that are created where they are not resident.

The extraction of a text, the removal of hidden characters and the score of the injection classifier
are left open.
-/

namespace SoulSystem.Ccos.External

open Library Memory

/-! ## Trust -/

inductive AnomalyKind where
  | bidiControl
  | tagChar
  | zeroWidth
  | control
  | otherFormat
  | confusable
  deriving DecidableEq

/-- `score >= 0.5` as floats compare. -/
def flagged : F64 → Bool
  | .finite value => decide (1 / 2 ≤ value)
  | .infinite negative => !negative
  | .nan => false

/-- `(1.0 - score).clamp(0.0, 1.0)` of a flagged score. -/
def distrust : F64 → ℚ
  | .finite value => max 0 (min (1 - value) 1)
  | .infinite _ | .nan => 0

def hardAnomaly (findings : List AnomalyKind) : Bool :=
  findings.any fun kind ↦ kind == .bidiControl || kind == .tagChar

/-- The trust that an ingest stamps, if it stamps one. -/
def stampedTrust (score : F64) (findings : List AnomalyKind) : Option ℚ :=
  if flagged score || hardAnomaly findings then
    let trust := if flagged score then distrust score else 1
    some (if hardAnomaly findings then min trust (1 / 2) else trust)
  else
    none

/-- Stamp a trust on the resident nodes of a file. -/
def stampFileTrust (g : MemoryGraph) (path : Str) (trust : ℚ) : MemoryGraph :=
  { g with nodes := g.nodes.map fun id node ↦
      if ofFile path id then { node with trust := .finite (max 0 (min trust 1)) } else node }

/-! ## Incremental updates -/

/-- What is left open about the surroundings of an ingest. -/
structure Ingestor where
  codec : Codec
  extract : Str → Extracted
  defang : Str → Str × List AnomalyKind
  injectionProbability : Str → F64
  headerSymbolCap : ℕ

/-- The scores and sizes that the calls of one operation meet, one after the other. -/
abbrev Judges := ℕ → Judge

/-- Operations with the scores that they meet. -/
def judged (judges : Judges) (ops : List Op) : List MemoryGraph.Step :=
  ops.mapIdx fun i op ↦ (judges i, op)

inductive MutationOp where
  | fileAdded
  | fileModified
  | noChange
  deriving DecidableEq

structure DeltaMutation where
  operation : MutationOp
  nodesAdded : ℕ
  nodesRemoved : ℕ
  edgesAdded : ℕ
  edgesRemoved : ℕ

/-- Remove the resident nodes that have the form of nodes of a file. -/
def evictFileNodes (g : MemoryGraph) (path : Str) : MemoryGraph :=
  (g.nodes.keys.filter (ofFile path)).foldl MemoryGraph.removeNode g

namespace Ingestor

variable (ingestor : Ingestor)

def parseSource (path source : Str) : ParseResult :=
  { ingestor.extract source with filePath := path }

/-- The operations of a version of a file. -/
def versionOps (path source : Str) : List Op :=
  updateOps ingestor.headerSymbolCap (ingestor.parseSource path source) source

def updateMemoryGraph (judges : Judges) (g : MemoryGraph) (path source : Str) : MemoryGraph :=
  MemoryGraph.run ingestor.codec g (judged judges (ingestor.versionOps path source))

/-- How a text relates to the last one of its file. -/
def mutationOp (old : Option Str) (new : Str) : MutationOp :=
  match old with
  | none => .fileAdded
  | some old =>
    if ingestor.codec.sha256 old = ingestor.codec.sha256 new then .noChange else .fileModified

/-- The graph after a version of a file. -/
def applyDelta (judges : Judges) (g : MemoryGraph) (path : Str) (old : Option Str) (new : Str) :
    MemoryGraph :=
  match ingestor.mutationOp old new with
  | .fileAdded => ingestor.updateMemoryGraph judges g path new
  | .fileModified => ingestor.updateMemoryGraph judges (evictFileNodes g path) path new
  | .noChange => g

def processDelta (judges : Judges) (g : MemoryGraph) (path : Str) (old : Option Str) (new : Str) :
    MemoryGraph × DeltaMutation :=
  let after := ingestor.applyDelta judges g path old new
  (after,
    { operation := ingestor.mutationOp old new
      nodesAdded := after.nodes.size - g.nodes.size
      nodesRemoved := g.nodes.size - after.nodes.size
      edgesAdded := after.edges.length - g.edges.length
      edgesRemoved := g.edges.length - after.edges.length })

end Ingestor

/-! ## The memory -/

structure CcosMemory where
  graph : MemoryGraph
  sources : Std.ExtTreeMap Str Str
  needsResolution : Bool

structure IngestReport where
  uri : Str
  nodesAdded : ℕ
  nodesRemoved : ℕ
  edgesAdded : ℕ
  anomalies : List AnomalyKind
  injectionScore : F64
  injectionFlagged : Bool

/-- The path of a uri: a redundant `file:` in front is dropped. -/
def uriPath (uri : Str) : Str :=
  (Str.stripPrefix "file:".toList uri).getD uri

/-- `f64::clamp(0.0, 1.0)`. -/
def clampUnit : F64 → F64
  | .nan => .nan
  | .infinite negative => .finite (if negative then 0 else 1)
  | .finite value => .finite (max 0 (min value 1))

namespace CcosMemory

variable (ingestor : Ingestor)

def new (maxInMemoryNodes : ℕ) : CcosMemory where
  graph := MemoryGraph.new maxInMemoryNodes
  sources := ∅
  needsResolution := false

/-- The graph after the incremental update of an ingest, before its taint pass. -/
def delta (judges : Judges) (m : CcosMemory) (path source : Str) :
    MemoryGraph × DeltaMutation :=
  ingestor.processDelta judges m.graph path m.sources[fileId path]? source

/-- The taint pass of an ingest. -/
def taint (g : MemoryGraph) (path : Str) : Option ℚ → MemoryGraph
  | some trust => stampFileTrust g path trust
  | none => g

def ingestDeferred (judges : Judges) (m : CcosMemory) (uri source : Str) :
    CcosMemory × IngestReport :=
  let path := uriPath uri
  let clean := (ingestor.defang source).1
  let findings := (ingestor.defang source).2
  let score := ingestor.injectionProbability clean
  let result := m.delta ingestor judges path clean
  ({ graph := taint result.1 path (stampedTrust score findings)
     sources := m.sources.insert (fileId path) clean
     needsResolution := true },
    { uri := path
      nodesAdded := result.2.nodesAdded
      nodesRemoved := result.2.nodesRemoved
      edgesAdded := result.2.edgesAdded
      anomalies := findings
      injectionScore := score
      injectionFlagged := flagged score })

def resolve (m : CcosMemory) : CcosMemory × ℕ :=
  if m.needsResolution then
    ({ m with graph := m.graph.resolveAll.1, needsResolution := false }, m.graph.resolveAll.2)
  else
    (m, 0)

def ingestSource (judges : Judges) (m : CcosMemory) (uri source : Str) :
    CcosMemory × IngestReport :=
  let ingested := m.ingestDeferred ingestor judges uri source
  let resolved := ingested.1.resolve
  (resolved.1, { ingested.2 with edgesAdded := ingested.2.edgesAdded + resolved.2 })

/-- Insert an id as an empty block, unless it is resident. -/
def ensureNode (judge : Judge) (g : MemoryGraph) (id : Str) : MemoryGraph :=
  if g.nodes.contains id then g
  else MemoryGraph.upsertNode ingestor.codec judge g id id [] .contextBlock

/-- The edge type of an assertion. -/
def polarity (supports : Bool) : EdgeType :=
  if supports then .supports else .contradicts

/-- The graph in which an assertion adds its edge. -/
def ensured (judges : Judges) (g : MemoryGraph) (evidence claim : Str) : MemoryGraph :=
  ensureNode ingestor (judges 1) (ensureNode ingestor (judges 0) g evidence) claim

def assertEvidence (judges : Judges) (m : CcosMemory) (evidence claim : Str) (supports : Bool)
    (weight : F64) : CcosMemory × Bool :=
  let result := (ensured ingestor judges m.graph evidence claim).addEdge evidence claim
    (clampUnit weight) (polarity supports)
  ({ m with graph := result.1 }, result.2)

def assertSupport (judges : Judges) (m : CcosMemory) (evidence claim : Str) (weight : F64) :
    CcosMemory × Bool :=
  m.assertEvidence ingestor judges evidence claim true weight

def assertContradiction (judges : Judges) (m : CcosMemory) (evidence claim : Str) (weight : F64) :
    CcosMemory × Bool :=
  m.assertEvidence ingestor judges evidence claim false weight

def onGraph (m : CcosMemory) (f : MemoryGraph → MemoryGraph) : CcosMemory :=
  { m with graph := f m.graph }

def setMaxResident (judge : Judge) (m : CcosMemory) (cap : ℕ) : CcosMemory :=
  m.onGraph fun g ↦
    MemoryGraph.enforcePaging ingestor.codec judge { g with maxInMemoryNodes := max cap 1 }

/-- A node under new failure pressure, if there is any on it. -/
def pressed (now : ℕ) (node : GraphNode) : Option F64 → GraphNode
  | some relevance =>
    { node with failureRelevance := relevance, recency := .finite 1, lastAccessed := now }
  | none => node

/-- Give failure pressure to resident nodes. -/
def press (m : CcosMemory) (pressure : Str → Option F64) : CcosMemory :=
  m.onGraph fun g ↦
    { g with nodes := g.nodes.map fun id node ↦ pressed g.clock node (pressure id) }

/-- The memory as it is read back from its own snapshot: what exists at run time only is gone. -/
def reload (m : CcosMemory) : CcosMemory where
  graph := { m.graph with
    edgeSet := ∅
    spill := none
    husks := ∅
    coldContentBudget := none
    coldResidentBudget := none
    pendingCalls := ∅
    pendingDataRefs := ∅
    pendingAliases := ∅
    pendingMethods := ∅
    dataSymbols := ∅ }
  sources := m.sources
  needsResolution := false

end CcosMemory

/-! ## Runs -/

/-- One call on the memory. -/
inductive Call where
  | ingestDeferred (judges : Judges) (uri source : Str)
  | resolve
  | assertEvidence (judges : Judges) (evidence claim : Str) (supports : Bool) (weight : F64)
  | tick
  | pageIn (judge : Judge) (id : Str)
  | press (pressure : Str → Option F64)
  | setMaxResident (judge : Judge) (cap : ℕ)
  | attachColdSpill (judge : Judge) (inlineBudget : ℕ)
  | setColdContentBudget (judge : Judge) (budget : Option ℕ)
  | setColdResidentBudget (judge : Judge) (budget : Option ℕ)
  | reload

namespace CcosMemory

variable (ingestor : Ingestor)

def call (m : CcosMemory) : Call → CcosMemory
  | .ingestDeferred judges uri source => (m.ingestDeferred ingestor judges uri source).1
  | .resolve => m.resolve.1
  | .assertEvidence judges evidence claim supports weight =>
    (m.assertEvidence ingestor judges evidence claim supports weight).1
  | .tick => m.onGraph MemoryGraph.tick
  | .pageIn judge id => m.onGraph fun g ↦ (MemoryGraph.pageIn ingestor.codec judge g id).1
  | .press pressure => m.press pressure
  | .setMaxResident judge cap => m.setMaxResident ingestor judge cap
  | .attachColdSpill judge inlineBudget => m.onGraph fun g ↦
      MemoryGraph.attachColdSpill ingestor.codec judge g inlineBudget
  | .setColdContentBudget judge budget => m.onGraph fun g ↦
      MemoryGraph.setColdContentBudget ingestor.codec judge g budget
  | .setColdResidentBudget judge budget => m.onGraph fun g ↦
      MemoryGraph.setColdResidentBudget ingestor.codec judge g budget
  | .reload => m.reload

def calls (m : CcosMemory) (trace : List Call) : CcosMemory :=
  trace.foldl (CcosMemory.call ingestor) m

end CcosMemory

end SoulSystem.Ccos.External
