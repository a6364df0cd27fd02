import SoulSystem.Library.Str
import SoulSystem.Ccos.Lzss
import Mathlib.Data.List.Sort

/-!
# The memory graph and its COLD tier

`MemoryGraph` of `memory.rs`: resident nodes and edges, the duplicate index over the edges, and the
COLD tier with its content-addressed spill store and its deep husks.

Hash maps and B-tree maps are both sorted maps here, because every iteration of the source either
sorts or does not depend on the order.  The on-disk husk index is the map that it refines.  What the
source computes in floating point is left open: a `Judge` gives the rank of a node's score, its
eviction priority, the memory layout and the footprint of the husk index, and a `Codec` gives the
hash, the JSON text of a cold entry and the lossy compaction of a content.
-/

namespace SoulSystem.Ccos.Memory

open Library

/-! ## Data model -/

/-- A 64-bit float as data.  Rounding is not modelled: nothing below depends on it. -/
inductive F64 where
  | nan
  | infinite (negative : Bool)
  | finite (value : ℚ)
  deriving DecidableEq

def F64.IsFinite : F64 → Prop
  | .finite _ => True
  | .nan | .infinite _ => False

instance (x : F64) : Decidable x.IsFinite :=
  match x with
  | .finite _ => isTrue trivial
  | .nan | .infinite _ => isFalse id

/-- `x * 0.95`, kept at least `0.01`. -/
def F64.decay : F64 → F64
  | .nan => .nan
  | .infinite false => .infinite false
  | .infinite true => .finite (1 / 100)
  | .finite value => .finite (max (value * (95 / 100)) (1 / 100))

inductive NodeState where
  | stable
  | working
  | orphan
  deriving DecidableEq

inductive NodeType where
  | module
  | symbol
  | contextBlock
  | analysisResult
  | codeRegion
  | unknown
  deriving DecidableEq

inductive EdgeType where
  | dependsOn
  | contains
  | references
  | causes
  | relatedTo
  | calls
  | dataFlow
  | supports
  | contradicts
  deriving DecidableEq

structure GraphNode where
  id : Str
  label : Str
  content : Str
  nodeType : NodeType
  baseImportance : F64
  failureRelevance : F64
  recency : F64
  accessCount : ℕ
  createdAt : ℕ
  lastAccessed : ℕ
  state : NodeState
  trust : F64
  deriving DecidableEq

structure GraphEdge where
  source : Str
  target : Str
  weight : F64
  edgeType : EdgeType
  createdAt : ℕ
  deriving DecidableEq

/-- The key under which edges are unique. -/
abbrev Triple := Str × Str × EdgeType

def GraphEdge.triple (edge : GraphEdge) : Triple :=
  (edge.source, edge.target, edge.edgeType)

/-- Whether an edge ends at a node. -/
def GraphEdge.touches (edge : GraphEdge) (id : Str) : Bool :=
  edge.source == id || edge.target == id

/-- The endpoint of an incident edge that is not `id`; of a loop, `id` itself. -/
def GraphEdge.other (edge : GraphEdge) (id : Str) : Str :=
  if edge.source = id then edge.target else edge.source

/-- The stub of a blob in the spill store. -/
structure SpillRef where
  hash : Str
  len : ℕ
  deriving DecidableEq

structure ColdNode where
  node : GraphNode
  edges : List GraphEdge
  spill : Option SpillRef
  compacted : Bool
  atFloor : Bool
  deriving DecidableEq

structure DeepHusk where
  body : SpillRef
  adj : List Str
  deriving DecidableEq

/-- The spill directory, by the hexadecimal names of its blobs, and the inline budget. -/
structure ColdSpill where
  files : Std.ExtTreeMap Str Bytes
  inlineBudget : ℕ

structure MemoryGraph where
  nodes : Std.ExtTreeMap Str GraphNode
  edges : List GraphEdge
  edgeSet : Finset Triple
  maxInMemoryNodes : ℕ
  clock : ℕ
  cold : Std.ExtTreeMap Str ColdNode
  spill : Option ColdSpill
  husks : Std.ExtTreeMap Str DeepHusk
  coldContentBudget : Option ℕ
  coldResidentBudget : Option ℕ
  pendingCalls : Std.ExtTreeMap Str (List (Str × Str × ℕ))
  pendingDataRefs : Std.ExtTreeMap Str (List (Str × Str × ℕ))
  pendingAliases : Std.ExtTreeMap Str (List (Str × Str))
  pendingMethods : Std.ExtTreeMap Str (List (Str × Str))
  dataSymbols : Std.ExtTreeMap Str Unit

def MemoryGraph.new (maxInMemoryNodes : ℕ) : MemoryGraph where
  nodes := ∅
  edges := []
  edgeSet := ∅
  maxInMemoryNodes := maxInMemoryNodes
  clock := 0
  cold := ∅
  spill := none
  husks := ∅
  coldContentBudget := none
  coldResidentBudget := none
  pendingCalls := ∅
  pendingDataRefs := ∅
  pendingAliases := ∅
  pendingMethods := ∅
  dataSymbols := ∅

/-- What is left open about scores and sizes.  A score enters only through its rank among the
floats. -/
structure Judge where
  score : MemoryGraph → GraphNode → ℕ
  priority : MemoryGraph → GraphNode → ℕ
  huskBytes : MemoryGraph → ℕ
  sizeColdNode : ℕ
  sizeNodeId : ℕ
  sizeGraphEdge : ℕ
  sizeDeepHusk : ℕ

/-- What is left open about hashing, serialisation and compaction. -/
structure Codec where
  sha256 : Str → Str
  toJson : ColdNode → Str
  fromJson : Str → Option ColdNode
  compactContent : NodeType → Str → Str

/-- The byte length of a string. -/
def byteLen (s : Str) : ℕ :=
  (Str.utf8 s).length

namespace MemoryGraph

variable (codec : Codec) (judge : Judge)

/-! ## Ranked orders -/

/-- Lower rank first, ties by id. -/
def RankLe (rank : GraphNode → ℕ) (a b : Str × GraphNode) : Prop :=
  rank a.2 < rank b.2 ∨ rank a.2 = rank b.2 ∧ (compare a.1 b.1).isLE

instance (rank : GraphNode → ℕ) : DecidableRel (RankLe rank) := fun _ _ ↦
  inferInstanceAs (Decidable (_ ∨ _ ∧ _))

/-- The ids of a list of nodes, lowest rank first. -/
def rankedIds (rank : GraphNode → ℕ) (entries : List (Str × GraphNode)) : List Str :=
  (entries.insertionSort (RankLe rank)).map Prod.fst

/-! ## The spill store -/

/-- The compressed bytes of a text.  The codec does not fault, so its default is never used. -/
def packText (content : Str) : Bytes :=
  match Lzss.compress (Str.utf8 content) with
  | .ok bytes => bytes
  | .error _ => []

def unpackText (bytes : Bytes) : Option Str :=
  match Lzss.decompress bytes with
  | .ok (some text) => Str.fromUtf8 text
  | .ok none | .error _ => none

def spillPut (store : ColdSpill) (content : Str) : ColdSpill × Str :=
  let hash := codec.sha256 content
  if (store.files[hash]?).isSome then
    (store, hash)
  else
    ({ store with files := store.files.insert hash (packText content) }, hash)

def spillGet (store : ColdSpill) (hash : Str) : Option Str := do
  let blob ← store.files[hash]?
  let text ← unpackText blob
  if codec.sha256 text = hash then some text else none

def spillRemove (store : ColdSpill) (hash : Str) : ColdSpill :=
  { store with files := store.files.erase hash }

/-- `self.spill.as_ref().and_then(|cfg| cfg.store.get(hash))`. -/
def fetch (g : MemoryGraph) (hash : Str) : Option Str :=
  g.spill.bind fun store ↦ spillGet codec store hash

/-- Whether a full COLD entry has its content in the blob of this hash. -/
def referencedByFull (g : MemoryGraph) (hash : Str) : Bool :=
  g.cold.toList.any fun entry ↦ (entry.2.spill.map SpillRef.hash) == some hash

def referencedByHusk (g : MemoryGraph) (hash : Str) : Bool :=
  g.husks.toList.any fun entry ↦ entry.2.body.hash == hash

def dropBlob (g : MemoryGraph) (hash : Str) : MemoryGraph :=
  { g with spill := g.spill.map fun store ↦ spillRemove store hash }

/-- `release_content_blob_if_orphan`: the husks are not consulted. -/
def releaseContentBlobIfOrphan (g : MemoryGraph) (hash : Str) : MemoryGraph :=
  if referencedByFull g hash then g else dropBlob g hash

def releaseBlobIfOrphan (g : MemoryGraph) (hash : Str) : MemoryGraph :=
  if referencedByFull g hash || referencedByHusk g hash then g else dropBlob g hash

/-- Release the content blob of an entry that is gone or no longer spilled. -/
def releaseSpill (g : MemoryGraph) : Option SpillRef → MemoryGraph
  | some ref => releaseContentBlobIfOrphan g ref.hash
  | none => g

/-- The full entry of an id forgotten. -/
def forgetFull (g : MemoryGraph) (id : Str) : MemoryGraph :=
  match g.cold[id]? with
  | some old => releaseSpill { g with cold := g.cold.erase id } old.spill
  | none => g

/-- The husk of an id forgotten. -/
def forgetHusk (g : MemoryGraph) (id : Str) : MemoryGraph :=
  match g.husks[id]? with
  | some husk => releaseBlobIfOrphan { g with husks := g.husks.erase id } husk.body.hash
  | none => g

def forgetColdShadow (g : MemoryGraph) (id : Str) : MemoryGraph :=
  forgetHusk (forgetFull g id) id

/-! ## The budgets of the COLD tier -/

/-- Bytes of COLD content held inline. -/
def coldInlineBytes (g : MemoryGraph) : ℕ :=
  (g.cold.toList.map fun entry ↦
    if entry.2.spill.isNone then byteLen entry.2.node.content else 0).sum

/-- Bytes of COLD content spilled to disk. -/
def coldSpilledBytes (g : MemoryGraph) : ℕ :=
  (g.cold.toList.map fun entry ↦ (entry.2.spill.map SpillRef.len).getD 0).sum

/-- The full COLD entries that pass a test, coldest first. -/
def coldCandidates (g : MemoryGraph) (test : ColdNode → Bool) : List Str :=
  rankedIds (judge.score g) ((g.cold.toList.filter fun entry ↦ test entry.2).map fun entry ↦
    (entry.1, entry.2.node))

/-- The entry to compact, its content and the length that it counts for. -/
def compactSource (g : MemoryGraph) (id : Str) : Option (ColdNode × Str × ℕ) :=
  match g.cold[id]? with
  | none => none
  | some entry =>
    if entry.compacted then none
    else
      match entry.spill with
      | some ref => (fetch codec g ref.hash).map fun text ↦ (entry, text, ref.len)
      | none => some (entry, entry.node.content, byteLen entry.node.content)

/-- A compacted entry in place, its old blob not yet released. -/
def withCompacted (g : MemoryGraph) (id : Str) (entry : ColdNode) (compact : Str) : MemoryGraph :=
  { g with cold := g.cold.insert id { entry with
      node := { entry.node with content := compact }
      spill := none
      compacted := true } }

/-- One candidate of the compaction loop, with the running total. -/
def compactEntry (state : MemoryGraph × ℕ) (id : Str) : MemoryGraph × ℕ :=
  match compactSource codec state.1 id with
  | none => state
  | some (entry, content, oldLen) =>
    let compact := codec.compactContent entry.node.nodeType content
    if byteLen content ≤ byteLen compact then
      ({ state.1 with cold := state.1.cold.insert id { entry with atFloor := true } }, state.2)
    else
      (releaseSpill (withCompacted state.1 id entry compact) entry.spill,
        state.2 - oldLen + byteLen compact)

/-- A loop over candidates that stops once the running size is within the budget. -/
def budgetLoop (step : MemoryGraph × ℕ → Str → MemoryGraph × ℕ) (budget : ℕ) :
    List Str → MemoryGraph × ℕ → MemoryGraph × ℕ
  | [], state => state
  | id :: ids, state =>
    if state.2 ≤ budget then state else budgetLoop step budget ids (step state id)

def enforceColdContentBudget (g : MemoryGraph) : MemoryGraph :=
  match g.coldContentBudget with
  | none => g
  | some budget =>
    let total := coldInlineBytes g + coldSpilledBytes g
    (budgetLoop (compactEntry codec) budget
      (coldCandidates judge g fun entry ↦ !entry.compacted && !entry.atFloor) (g, total)).1

/-- An entry with its content moved to the store. -/
def withSpilled (g : MemoryGraph) (store : ColdSpill) (id : Str) (entry : ColdNode) : MemoryGraph :=
  let put := spillPut codec store entry.node.content
  { g with
    spill := some put.1
    cold := g.cold.insert id { entry with
      node := { entry.node with content := [] }
      spill := some { hash := put.2, len := byteLen entry.node.content } } }

/-- One candidate of the spill loop, with the resident content bytes. -/
def spillEntry (state : MemoryGraph × ℕ) (id : Str) : MemoryGraph × ℕ :=
  match state.1.cold[id]?, state.1.spill with
  | some entry, some store =>
    if entry.spill.isSome then state
    else (withSpilled codec state.1 store id entry, state.2 - byteLen entry.node.content)
  | _, _ => state

def enforceColdBudget (g : MemoryGraph) : MemoryGraph :=
  match g.spill with
  | none => g
  | some store =>
    (budgetLoop (spillEntry codec) store.inlineBudget
      (coldCandidates judge g fun entry ↦ entry.spill.isNone && !entry.node.content.isEmpty)
      (g, coldInlineBytes g)).1

def entryResidentBytes (key : Str) (entry : ColdNode) : ℕ :=
  judge.sizeColdNode + judge.sizeNodeId + byteLen key + byteLen entry.node.id +
    byteLen entry.node.label + byteLen entry.node.content +
    (entry.edges.map fun edge ↦
      judge.sizeGraphEdge + byteLen edge.source + byteLen edge.target).sum

def coldResidentBytes (g : MemoryGraph) : ℕ :=
  (g.cold.toList.map fun entry ↦ entryResidentBytes judge entry.1 entry.2).sum + judge.huskBytes g

/-- Insert into a sorted list without duplicates. -/
def insertSorted (id : Str) (ids : List Str) : List Str :=
  ((ids.insert id).insertionSort fun a b ↦ (compare a b).isLE)

/-- The neighbour ids of an entry, sorted, without duplicates and without the entry itself. -/
def neighbourIds (entry : ColdNode) : List Str :=
  ((entry.edges.map fun edge ↦ edge.other entry.node.id).filter fun id ↦
    id != entry.node.id).foldr insertSorted []

/-- The entry with its content folded inline, if its blob can be read. -/
def foldInline (g : MemoryGraph) (entry : ColdNode) : Option ColdNode :=
  match entry.spill with
  | some ref => (fetch codec g ref.hash).map fun text ↦
      { entry with node := { entry.node with content := text }, spill := none }
  | none => some entry

/-- The estimated size of the husk of an entry. -/
def projectedBytes (entry : ColdNode) : ℕ :=
  judge.sizeDeepHusk + judge.sizeNodeId +
    ((neighbourIds entry).map fun other ↦ judge.sizeNodeId + byteLen other).sum

/-- The store, the entry to archive and its self-contained form. -/
def deepSpillSource (g : MemoryGraph) (id : Str) : Option (ColdSpill × ColdNode × ColdNode) :=
  match g.cold[id]?, g.spill with
  | some entry, some store =>
    if entryResidentBytes judge id entry ≤ projectedBytes judge entry then none
    else (foldInline codec g entry).map fun inline ↦ (store, entry, inline)
  | _, _ => none

/-- An entry archived whole as a husk, its old content blob not yet released. -/
def withHusk (g : MemoryGraph) (store : ColdSpill) (id : Str) (entry inline : ColdNode) :
    MemoryGraph :=
  let put := spillPut codec store (codec.toJson inline)
  { g with
    spill := some put.1
    husks := g.husks.insert id {
      body := { hash := put.2, len := byteLen (codec.toJson inline) }
      adj := neighbourIds entry }
    cold := g.cold.erase id }

/-- One candidate of the deep-spill loop, with the resident bytes. -/
def deepSpillEntry (state : MemoryGraph × ℕ) (id : Str) : MemoryGraph × ℕ :=
  match deepSpillSource codec judge state.1 id with
  | none => state
  | some (store, entry, inline) =>
    (releaseSpill (withHusk codec state.1 store id entry inline) entry.spill,
      state.2 - entryResidentBytes judge id entry)

def enforceColdResidentBudget (g : MemoryGraph) : MemoryGraph :=
  match g.coldResidentBudget with
  | none => g
  | some budget =>
    if g.spill.isNone then g
    else
      (budgetLoop (deepSpillEntry codec judge) budget (coldCandidates judge g fun _ ↦ true)
        (g, coldResidentBytes judge g)).1

/-- The three budget passes in the order in which the source runs them. -/
def enforceBudgets (g : MemoryGraph) : MemoryGraph :=
  enforceColdResidentBudget codec judge
    (enforceColdBudget codec judge (enforceColdContentBudget codec judge g))

/-! ## Demotion and paging -/

def demote (g : MemoryGraph) (id : Str) : MemoryGraph :=
  match g.nodes[id]? with
  | none => g
  | some node =>
    { g with
      nodes := g.nodes.erase id
      edges := g.edges.filter fun edge ↦ !edge.touches id
      cold := g.cold.insert id {
        node
        edges := g.edges.filter fun edge ↦ edge.touches id
        spill := none
        compacted := false
        atFloor := false } }

/-- Whether both endpoints of an edge are resident. -/
def endpointsResident (g : MemoryGraph) (edge : GraphEdge) : Bool :=
  g.nodes.contains edge.source && g.nodes.contains edge.target

def pruneDanglingEdges (g : MemoryGraph) : MemoryGraph :=
  { g with edges := g.edges.filter g.endpointsResident }

def enforcePaging (g : MemoryGraph) : MemoryGraph :=
  if g.nodes.size ≤ g.maxInMemoryNodes then
    g
  else
    let toRemove := (rankedIds (judge.priority g) g.nodes.toList).take
      (g.nodes.size - g.maxInMemoryNodes)
    enforceBudgets codec judge (pruneDanglingEdges (toRemove.foldl demote g))

/-- Fault the body of a deep husk back into the full COLD map. -/
def faultHusk (g : MemoryGraph) (id : Str) : Option MemoryGraph :=
  match g.husks[id]? with
  | none => some g
  | some husk =>
    match (fetch codec g husk.body.hash).bind codec.fromJson with
    | none => none
    | some entry =>
      some (releaseBlobIfOrphan
        { g with husks := g.husks.erase id, cold := g.cold.insert id entry } husk.body.hash)

/-- Fault the spilled content of a full COLD entry back. -/
def faultContent (g : MemoryGraph) (id : Str) : Option MemoryGraph :=
  match g.cold[id]? with
  | none => some g
  | some entry =>
    match entry.spill with
    | none => some g
    | some ref =>
      match fetch codec g ref.hash with
      | none => none
      | some text =>
        let inline := { entry with
          node := { entry.node with content := text }
          spill := none }
        some (releaseContentBlobIfOrphan { g with cold := g.cold.insert id inline } ref.hash)

/-- Re-link one archived edge if both its endpoints are resident and its key is free. -/
def relink (g : MemoryGraph) (edge : GraphEdge) : MemoryGraph :=
  if g.endpointsResident edge && !g.edges.any fun other ↦ other.triple == edge.triple then
    { g with edges := g.edges ++ [edge] }
  else
    g

/-- The node as it enters the resident graph again. -/
def pagedIn (node : GraphNode) (clock : ℕ) : GraphNode :=
  { node with recency := .finite 1, lastAccessed := clock, accessCount := node.accessCount + 1 }

/-- Move a full COLD entry into the resident graph with the edges that still have a place. -/
def restore (g : MemoryGraph) (id : Str) (entry : ColdNode) : MemoryGraph :=
  entry.edges.foldl relink { g with
    cold := g.cold.erase id
    nodes := g.nodes.insert id (pagedIn entry.node g.clock) }

/-- The lowest-scored resident node other than `id`. -/
def swapVictim (g : MemoryGraph) (id : Str) : Option Str :=
  (rankedIds (judge.score g) (g.nodes.toList.filter fun entry ↦ entry.1 != id)).head?

/-- Demote other nodes while the resident set is over capacity; every round demotes one. -/
def swapOut (id : Str) : ℕ → MemoryGraph → MemoryGraph
  | 0, g => g
  | fuel + 1, g =>
    if g.nodes.size ≤ g.maxInMemoryNodes then g
    else
      match swapVictim judge g id with
      | some victim => swapOut id fuel (demote g victim)
      | none => g

/-- The state after a page-in and its answer. -/
def pageIn (g : MemoryGraph) (id : Str) : MemoryGraph × Bool :=
  match faultHusk codec g id with
  | none => (g, false)
  | some g =>
    match faultContent codec g id with
    | none => (g, false)
    | some g =>
      match g.cold[id]? with
      | none => (g, false)
      | some entry =>
        let g := restore g id entry
        (enforceBudgets codec judge (pruneDanglingEdges (swapOut judge id g.nodes.size g)), true)

/-! ## Nodes and edges -/

def tick (g : MemoryGraph) : MemoryGraph :=
  { g with
    clock := g.clock + 1
    nodes := g.nodes.map fun _ node ↦ { node with recency := node.recency.decay } }

def freshNode (id label content : Str) (nodeType : NodeType) (now : ℕ) : GraphNode where
  id := id
  label := label
  content := content
  nodeType := nodeType
  baseImportance := .finite (1 / 2)
  failureRelevance := .finite 0
  recency := .finite 1
  accessCount := 1
  createdAt := now
  lastAccessed := now
  state := .stable
  trust := .finite 1

/-- The node that an upsert leaves under its id. -/
def upserted (existing : Option GraphNode) (id label content : Str) (nodeType : NodeType) (now : ℕ) :
    GraphNode :=
  match existing with
  | some node => { node with
      label
      content
      nodeType
      recency := .finite 1
      lastAccessed := now
      accessCount := node.accessCount + 1 }
  | none => freshNode id label content nodeType now

def upsertNode (g : MemoryGraph) (id label content : Str) (nodeType : NodeType) : MemoryGraph :=
  let g := forgetColdShadow g id
  enforcePaging codec judge { g with
    nodes := g.nodes.insert id (upserted g.nodes[id]? id label content nodeType g.clock) }

/-- The triples of an edge list. -/
def triples (edges : List GraphEdge) : Finset Triple :=
  (edges.map GraphEdge.triple).toFinset

/-- The duplicate index as `add_edge` uses it: rebuilt only when its size is off. -/
def refreshedIndex (g : MemoryGraph) : Finset Triple :=
  if g.edgeSet.card ≠ g.edges.length then triples g.edges else g.edgeSet

def addEdge (g : MemoryGraph) (source target : Str) (weight : F64) (edgeType : EdgeType) :
    MemoryGraph × Bool :=
  if !g.nodes.contains source || !g.nodes.contains target then
    (g, false)
  else
    let index := refreshedIndex g
    if (source, target, edgeType) ∈ index then
      ({ g with edgeSet := index }, false)
    else
      ({ g with
          edgeSet := insert (source, target, edgeType) index
          edges := g.edges ++ [{ source, target, weight, edgeType, createdAt := g.clock }] }, true)

def removeNode (g : MemoryGraph) (id : Str) : MemoryGraph :=
  let g := forgetColdShadow { g with nodes := g.nodes.erase id } id
  { g with edges := g.edges.filter fun edge ↦ !edge.touches id }

/-- The state after a touch and its answer. -/
def touch (g : MemoryGraph) (id : Str) : MemoryGraph × Bool :=
  match g.nodes[id]? with
  | some node =>
    ({ g with nodes := g.nodes.insert id { node with
        recency := .finite 1
        lastAccessed := g.clock
        accessCount := node.accessCount + 1 } }, true)
  | none => (g, false)

/-- Attach a spill store on an empty directory. -/
def attachColdSpill (g : MemoryGraph) (inlineBudget : ℕ) : MemoryGraph :=
  enforceColdResidentBudget codec judge
    (enforceColdBudget codec judge { g with
      spill := some { files := ∅, inlineBudget }
      husks := ∅ })

def setColdResidentBudget (g : MemoryGraph) (budget : Option ℕ) : MemoryGraph :=
  enforceColdResidentBudget codec judge { g with coldResidentBudget := budget }

def setColdContentBudget (g : MemoryGraph) (budget : Option ℕ) : MemoryGraph :=
  enforceColdContentBudget codec judge { g with coldContentBudget := budget }

end MemoryGraph

end SoulSystem.Ccos.Memory
