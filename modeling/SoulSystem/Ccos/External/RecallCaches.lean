import SoulSystem.Library.KeyedCache
import SoulSystem.Library.Machine
import SoulSystem.Ccos.External.Reingest

/-!
# The caches of a recall

A recall works on the region clustering of the resident graph, on an embedding store of its contents
and on a latent space weighted by causal importance.  Each of the three is kept in a cell with the
version of the graph that it was computed from.  Every call that changes the resident graph advances
the version first.  The store depends on the quantization scheme besides, and the latent space on
the rank that is asked for.

The numeric computations are left open: they are functions of what they read of the resident graph.
-/

namespace SoulSystem.Ccos.External

open Library Memory

/-! ## What is computed -/

/-- What the computations of a recall read of the graph. -/
structure Resident (ScoringWeights : Type) where
  nodes : Std.ExtTreeMap Str GraphNode
  edges : List GraphEdge
  clock : ℕ
  scoringWeights : ScoringWeights

structure CausalFlashRecall where
  horizon : ℕ
  decay : F64
  includeCallers : Bool
  includeLowTrustSeeds : Bool
  trustThreshold : F64

inductive Recall where
  | workingSet
  | around (uri : Str)
  | task (text : Str)
  | semantic (text : Str)
  | hybrid (text : Str)
  | causalFlash (params : CausalFlashRecall)

/-- What is left open about a recall. -/
structure Kernels where
  ScoringWeights : Type
  ContextRegionEngine : Type
  CausalEmbeddings : Type
  TfidfEmbedder : Type
  Row : Type
  RecallWindow : Type
  initializeRegions : Resident ScoringWeights → ContextRegionEngine
  /-- The members of the region of a node, if it belongs to one. -/
  regionMembers : ContextRegionEngine → Str → Option (List Str)
  /-- A node with its causes and its impact. -/
  neighbourhood : Resident ScoringWeights → Str → List Str
  fitAndEmbed : Bool → List (Str × Str) → CausalEmbeddings
  fit : List Str → TfidfEmbedder
  /-- The weighted projection of the documents at a rank. -/
  weightedLsaProjection : TfidfEmbedder → List (Str × Str) → Resident ScoringWeights → ℕ → List Row
  nodeScores : Resident ScoringWeights → List Str
  causalFlashWindow : Resident ScoringWeights → CausalFlashRecall → List Str
  lexicalEntry : Resident ScoringWeights → Str → Option Str
  semanticEntry : Resident ScoringWeights → Str → CausalEmbeddings → Option Str
  hybridEntry : Resident ScoringWeights → Str → CausalEmbeddings → Option Str
  /-- The window of some nodes, by their proximity to an anchor and by a latent space. -/
  assembleWindow : Resident ScoringWeights → Recall → ℕ → List Str → Option Str →
    Option (TfidfEmbedder × List Row) → RecallWindow

namespace Kernels

variable (kernels : Kernels)

abbrev WeightedLsaModel := kernels.TfidfEmbedder × List kernels.Row

/-- The contents of the resident nodes, in the order of the ids. -/
def corpus (nodes : Std.ExtTreeMap Str GraphNode) : List (Str × Str) :=
  nodes.toList.map fun entry ↦ (entry.2.id, entry.2.label ++ ' ' :: entry.2.content)

/-- The latent space of a graph at a rank. -/
def weightedLsa (resident : Resident kernels.ScoringWeights) (rank : ℕ) :
    Option kernels.WeightedLsaModel :=
  let documents := corpus resident.nodes
  if documents.isEmpty then none
  else
    let embedder := kernels.fit (documents.map Prod.snd)
    let projection := kernels.weightedLsaProjection embedder documents resident rank
    if projection.isEmpty then none else some (embedder, projection)

end Kernels

/-! ## The memory with its caches -/

structure CachedMemory (kernels : Kernels) where
  memory : CcosMemory
  scoringWeights : kernels.ScoringWeights
  version : ℕ
  regionCache : Option (ℕ × kernels.ContextRegionEngine)
  embedCache : Option (ℕ × kernels.CausalEmbeddings)
  lsaRerankRank : Option ℕ
  useSlhav2 : Bool
  weightedLsaCache : Option (ℕ × kernels.WeightedLsaModel)

/-- What a recall has worked on; of the latent space also that there is none. -/
structure Used (kernels : Kernels) where
  regions : Option kernels.ContextRegionEngine
  store : Option kernels.CausalEmbeddings
  model : Option (Option kernels.WeightedLsaModel)

/-- Prefix a bare path with `file:`. -/
def normalize (uri : Str) : Str :=
  if ["file:", "sym:", "mod:", "use:", "dep:"].any fun known ↦ known.toList.isPrefixOf uri then uri
  else "file:".toList ++ uri

namespace CachedMemory

variable {kernels : Kernels}

/-- A memory that was just made or read back. -/
def opened (memory : CcosMemory) (scoringWeights : kernels.ScoringWeights) :
    CachedMemory kernels where
  memory := memory
  scoringWeights := scoringWeights
  version := 0
  regionCache := none
  embedCache := none
  lsaRerankRank := none
  useSlhav2 := true
  weightedLsaCache := none

variable (m : CachedMemory kernels)

def resident : Resident kernels.ScoringWeights where
  nodes := m.memory.graph.nodes
  edges := m.memory.graph.edges
  clock := m.memory.graph.clock
  scoringWeights := m.scoringWeights

def bumpVersion : CachedMemory kernels :=
  { m with version := (m.version + 1) % 2 ^ 64 }

/-! ## Reading the caches -/

def freshRegions : kernels.ContextRegionEngine := kernels.initializeRegions m.resident

def freshStore : kernels.CausalEmbeddings :=
  kernels.fitAndEmbed m.useSlhav2 (Kernels.corpus m.resident.nodes)

def freshModel (rank : ℕ) : Option kernels.WeightedLsaModel := kernels.weightedLsa m.resident rank

/-- The clustering that `region_member_ids` works on. -/
def regions : kernels.ContextRegionEngine × CachedMemory kernels :=
  let found := KeyedCache.refreshed version freshRegions m.regionCache m
  (found.2, { m with regionCache := some found })

def buildEmbeddings : kernels.CausalEmbeddings × CachedMemory kernels :=
  let found := KeyedCache.refreshed version freshStore m.embedCache m
  (found.2, { m with embedCache := some found })

/-- A latent space of the present version is in the cell. -/
def modelCached : Bool := m.weightedLsaCache.any fun held ↦ held.1 = m.version

/-- The latent space for a rank: where there is none, nothing is kept. -/
def weightedLsaModel (rank : ℕ) : Option kernels.WeightedLsaModel × CachedMemory kernels :=
  if m.modelCached then (m.weightedLsaCache.map Prod.snd, m)
  else
    match m.freshModel rank with
    | some model => (some model, { m with weightedLsaCache := some (m.version, model) })
    | none => (none, m)

/-! ## Recalls -/

/-- The ids of the region of a node, or else of its neighbourhood. -/
def memberIds (engine : kernels.ContextRegionEngine) (uri : Str) : List Str :=
  (kernels.regionMembers engine (normalize uri)).getD
    (kernels.neighbourhood m.resident (normalize uri))

/-- A recall from an entry node, re-ranked where a rank is set. -/
def fromEntry (query : Recall) (budget : ℕ) (store : Option kernels.CausalEmbeddings)
    (rank : Option ℕ) : Option Str → (kernels.RecallWindow × Used kernels) × CachedMemory kernels
  | none =>
    ((kernels.assembleWindow m.resident query budget [] none none, ⟨none, store, none⟩), m)
  | some entry =>
    let engine := m.regions
    let ids := m.memberIds engine.1 entry
    match rank with
    | none =>
      ((kernels.assembleWindow m.resident query budget ids (some (normalize entry)) none,
        ⟨some engine.1, store, none⟩), engine.2)
    | some rank =>
      let model := engine.2.weightedLsaModel rank
      ((kernels.assembleWindow m.resident query budget ids (some (normalize entry)) model.1,
        ⟨some engine.1, store, some model.1⟩), model.2)

/-- The window of a recall, what it has worked on, and the memory with the cells that it leaves. -/
def recallWindow (query : Recall) (budget : ℕ) :
    (kernels.RecallWindow × Used kernels) × CachedMemory kernels :=
  match query with
  | .workingSet =>
    ((kernels.assembleWindow m.resident query budget (kernels.nodeScores m.resident) none none,
      ⟨none, none, none⟩), m)
  | .around uri => m.fromEntry query budget none none (some uri)
  | .task text => m.fromEntry query budget none none (kernels.lexicalEntry m.resident text)
  | .semantic text =>
    let store := m.buildEmbeddings
    store.2.fromEntry query budget (some store.1) m.lsaRerankRank
      (kernels.semanticEntry m.resident text store.1)
  | .hybrid text =>
    let store := m.buildEmbeddings
    store.2.fromEntry query budget (some store.1) m.lsaRerankRank
      (kernels.hybridEntry m.resident text store.1)
  | .causalFlash params =>
    ((kernels.assembleWindow m.resident query budget
      (kernels.causalFlashWindow m.resident params) none none, ⟨none, none, none⟩), m)

/-! ## Changing the memory -/

variable (ingestor : Ingestor)

def ingestDeferred (judges : Judges) (uri source : Str) : CachedMemory kernels :=
  { m.bumpVersion with memory := (m.memory.ingestDeferred ingestor judges uri source).1 }

def resolve : CachedMemory kernels :=
  if m.memory.needsResolution then
    CachedMemory.bumpVersion { m with memory := m.memory.resolve.1 }
  else m

def ingestSource (judges : Judges) (uri source : Str) : CachedMemory kernels :=
  (m.ingestDeferred ingestor judges uri source).resolve

/-- Failure pressure on a node and on what it reaches, after a page-in where the node is demoted.
`none` when the node is not known. -/
def signalFailure (judge : Judge) (node : Str) (pressure : Str → Option F64) :
    CachedMemory kernels :=
  let bumped := m.bumpVersion
  let id := normalize node
  if m.memory.graph.nodes.contains id then
    { bumped with memory := m.memory.press pressure }
  else
    let paged := MemoryGraph.pageIn ingestor.codec judge m.memory.graph id
    if paged.2 then
      { bumped with memory := CcosMemory.press { m.memory with graph := paged.1 } pressure }
    else
      { bumped with memory := { m.memory with graph := paged.1 } }

def assertEvidence (judges : Judges) (evidence claim : Str) (supports : Bool) (weight : F64) :
    CachedMemory kernels :=
  { m.bumpVersion with
    memory := (m.memory.assertEvidence ingestor judges evidence claim supports weight).1 }

/-- Page in a node and the COLD neighbours that were found for it. -/
def ensureResident (judge : Judge) (uri : Str) (neighbours : List Str) : CachedMemory kernels :=
  { m.bumpVersion with
    memory := m.memory.onGraph fun g ↦ (normalize uri :: neighbours).foldl
      (fun g id ↦ (MemoryGraph.pageIn ingestor.codec judge g id).1) g }

def tick : CachedMemory kernels :=
  { m.bumpVersion with memory := m.memory.onGraph MemoryGraph.tick }

def setMaxResident (judge : Judge) (max : ℕ) : CachedMemory kernels :=
  { m.bumpVersion with memory := m.memory.setMaxResident ingestor judge max }

def setScoringWeights (weights : kernels.ScoringWeights) : CachedMemory kernels :=
  { m.bumpVersion with scoringWeights := weights }

def setLsaRerank (rank : Option ℕ) : CachedMemory kernels :=
  { m with lsaRerankRank := rank }

def setSlhav2Embeddings (enabled : Bool) : CachedMemory kernels :=
  if m.useSlhav2 ≠ enabled then { m with useSlhav2 := enabled, embedCache := none } else m

/-- A spill store that cannot be created is not attached. -/
def attachColdSpill (judge : Judge) (inlineBudget : ℕ) (created : Bool) : CachedMemory kernels :=
  if created then
    { m with memory := m.memory.onGraph fun g ↦
        MemoryGraph.attachColdSpill ingestor.codec judge g inlineBudget }
  else m

def setColdContentBudget (judge : Judge) (budget : Option ℕ) : CachedMemory kernels :=
  { m with memory := m.memory.onGraph fun g ↦
      MemoryGraph.setColdContentBudget ingestor.codec judge g budget }

end CachedMemory

/-! ## Calls -/

inductive CachedCall (kernels : Kernels) where
  | ingestSource (judges : Judges) (uri source : Str)
  | ingestDeferred (judges : Judges) (uri source : Str)
  | resolve
  | signalFailure (judge : Judge) (node : Str) (pressure : Str → Option F64)
  | assertSupport (judges : Judges) (evidence claim : Str) (weight : F64)
  | assertContradiction (judges : Judges) (evidence claim : Str) (weight : F64)
  | ensureResident (judge : Judge) (uri : Str) (neighbours : List Str)
  | tick
  | setMaxResident (judge : Judge) (max : ℕ)
  | setScoringWeights (weights : kernels.ScoringWeights)
  | setLsaRerank (rank : Option ℕ)
  | setSlhav2Embeddings (enabled : Bool)
  | attachColdSpill (judge : Judge) (inlineBudget : ℕ) (created : Bool)
  | setColdContentBudget (judge : Judge) (budget : Option ℕ)
  | recallWindow (query : Recall) (budget : ℕ)

namespace CachedMemory

variable {kernels : Kernels} (ingestor : Ingestor) (m : CachedMemory kernels)

def call : CachedCall kernels → CachedMemory kernels
  | .ingestSource judges uri source => m.ingestSource ingestor judges uri source
  | .ingestDeferred judges uri source => m.ingestDeferred ingestor judges uri source
  | .resolve => m.resolve
  | .signalFailure judge node pressure => m.signalFailure ingestor judge node pressure
  | .assertSupport judges evidence claim weight =>
    m.assertEvidence ingestor judges evidence claim true weight
  | .assertContradiction judges evidence claim weight =>
    m.assertEvidence ingestor judges evidence claim false weight
  | .ensureResident judge uri neighbours => m.ensureResident ingestor judge uri neighbours
  | .tick => m.tick
  | .setMaxResident judge max => m.setMaxResident ingestor judge max
  | .setScoringWeights weights => m.setScoringWeights weights
  | .setLsaRerank rank => m.setLsaRerank rank
  | .setSlhav2Embeddings enabled => m.setSlhav2Embeddings enabled
  | .attachColdSpill judge inlineBudget created =>
    m.attachColdSpill ingestor judge inlineBudget created
  | .setColdContentBudget judge budget => m.setColdContentBudget ingestor judge budget
  | .recallWindow query budget => (m.recallWindow query budget).2

/-- How often a call advances the version. -/
def mutations : CachedCall kernels → ℕ
  | .ingestSource .. => 2
  | .resolve => if m.memory.needsResolution then 1 else 0
  | .setLsaRerank _ | .setSlhav2Embeddings _ | .attachColdSpill .. | .setColdContentBudget ..
  | .recallWindow .. => 0
  | _ => 1

end CachedMemory

end SoulSystem.Ccos.External
