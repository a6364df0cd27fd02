import SoulSystem.Ccos.Memory.Arithmetic
import SoulSystem.Ccos.Memory.StructuralCache

/-!
# Causal Flash

A window on the dependencies around some seeds: a breadth-first cone bounded by a horizon, a ring of
direct callers, and a cap that drops callers only.  Sets of ids are sorted maps to nothing.
-/

namespace SoulSystem.Ccos.Memory

open Library

/-! ## Windows -/

namespace F64

/-- `f64::MIN_POSITIVE`. -/
def minPositive : F64 := .finite (1 / 2 ^ 1022)

/-- The place of a float in the total order, a NaN last. -/
def rank : F64 → ℕ
  | .infinite true => 0
  | .finite _ => 1
  | .infinite false => 2
  | .nan => 3

def totalCmp : F64 → F64 → Ordering
  | .finite a, .finite b => compare a b
  | a, b => compare a.rank b.rank

end F64

structure CausalFlashConfig where
  horizon : ℕ
  includeLowTrustSeeds : Bool
  trustThreshold : F64
  decay : F64
  includeCallers : Bool
  maxNodes : Option ℕ

/-- The decay of a hop, kept in its range. -/
def CausalFlashConfig.hopDecay (cfg : CausalFlashConfig) : F64 :=
  cfg.decay.clamp F64.minPositive (.finite 1)

inductive CausalRole where
  | seed
  | dependency
  | caller
  deriving DecidableEq

structure CausalWindowNode where
  id : Str
  state : NodeState
  trust : F64
  role : CausalRole
  depth : ℕ
  relevance : F64

structure CausalWindow where
  nodes : List CausalWindowNode
  complete : Bool
  omitted : ℕ
  seedCount : ℕ

abbrev IdSet := Std.ExtTreeMap Str Unit

namespace CausalRole

def rank : CausalRole → ℕ
  | seed => 0
  | dependency => 1
  | caller => 2

end CausalRole

namespace CausalWindowNode

/-- Roles in turn, then the nearest, then the most relevant. -/
def ReadsBefore (a b : CausalWindowNode) : Prop :=
  ((((compare a.role.rank b.role.rank).then (compare a.depth b.depth)).then
    (b.relevance.totalCmp a.relevance)).then (compare a.id b.id)).isLE

instance : DecidableRel ReadsBefore := fun _ _ ↦ inferInstanceAs (Decidable (_ = true))

/-- The least relevant first. -/
def DropsBefore (a b : CausalWindowNode × ℕ) : Prop :=
  ((a.1.relevance.totalCmp b.1.relevance).then (compare a.1.id b.1.id)).isLE

instance : DecidableRel DropsBefore := fun _ _ ↦ inferInstanceAs (Decidable (_ = true))

end CausalWindowNode

namespace MemoryGraph

variable (g : MemoryGraph) (adj : CausalAdjacency)

/-! ## The cone -/

/-- A cone under construction. -/
structure Cone where
  depth : Std.ExtTreeMap Str ℕ
  relevance : Std.ExtTreeMap Str F64
  next : IdSet

/-- The edges along which a node depends on others. -/
def dependencies (parent : Str) : List (Str × F64) := adj.fwd[parent]?.getD []

/-- One dependency of a parent with a relevance, at a depth. -/
def expandChild (decay : F64) (d : ℕ) (prel : F64) (cone : Cone) (child : Str × F64) : Cone :=
  if g.isOrphan child.1 then cone
  else
    let contrib := (prel.mul decay).mul child.2
    let relevance := cone.relevance.insert child.1
      ((cone.relevance[child.1]?.getD (.finite 0)).add contrib)
    if cone.depth.contains child.1 then { cone with relevance }
    else
      { depth := cone.depth.insert child.1 d
        relevance
        next := cone.next.insert child.1 () }

def expandParent (decay : F64) (d : ℕ) (cone : Cone) (parent : Str) : Cone :=
  let prel := cone.relevance[parent]?.getD (.finite 0)
  (dependencies adj parent).foldl (g.expandChild decay d prel) cone

/-- One layer, at a depth, over the frontier that the last one left. -/
def layer (decay : F64) (d : ℕ) (cone : Cone) : Cone :=
  cone.next.keys.foldl (g.expandParent adj decay d) { cone with next := ∅ }

/-- The layers up to the horizon, or until one is empty. -/
def layers (decay : F64) : ℕ → ℕ → Cone → Cone
  | 0, _, cone => cone
  | left + 1, d, cone =>
    let cone := g.layer adj decay d cone
    if cone.next.isEmpty then cone else layers decay left (d + 1) cone

def seedCone (seeds : IdSet) : Cone where
  depth := seeds.map fun _ _ ↦ 0
  relevance := seeds.map fun _ _ ↦ .finite 1
  next := seeds

/-- The dependencies of the frontier that the cone leaves out. -/
def cutDeps (cone : Cone) : IdSet :=
  cone.next.keys.foldl (fun cut parent ↦
    (dependencies adj parent).foldl (fun cut child ↦
      if g.isOrphan child.1 || cone.depth.contains child.1 then cut else cut.insert child.1 ()) cut) ∅

/-! ## The window -/

/-- The entry of a node of the cone, if it is resident. -/
def coneEntry (seeds : IdSet) (cone : Cone) (place : Str × ℕ) : Option CausalWindowNode :=
  g.nodes[place.1]?.map fun node ↦
    { id := place.1
      state := node.state
      trust := node.trust
      role := if seeds.contains place.1 then .seed else .dependency
      depth := place.2
      relevance := cone.relevance[place.1]?.getD (.finite 0) }

/-- One caller of a node of the cone, with the callers added so far. -/
def addCaller (decay : F64) (cone : Cone) (place : Str × ℕ) (ring : IdSet × List CausalWindowNode)
    (caller : Str) : IdSet × List CausalWindowNode :=
  if cone.depth.contains caller || ring.1.contains caller then ring
  else
    match g.nodes[caller]? with
    | none => ring
    | some node =>
      if node.state = .orphan then ring
      else
        (ring.1.insert caller (), ring.2 ++ [{
          id := caller
          state := node.state
          trust := node.trust
          role := .caller
          depth := place.2
          relevance := (cone.relevance[place.1]?.getD (.finite 0)).mul decay }])

/-- The direct callers of the cone. -/
def callerRing (decay : F64) (cone : Cone) : List CausalWindowNode :=
  (cone.depth.toList.foldl (fun ring place ↦
    (adj.rev[place.1]?.getD []).foldl (g.addCaller decay cone place) ring) (∅, [])).2

/-- The places of the callers that a cap drops. -/
def droppedCallers (maxNodes : Option ℕ) (out : List CausalWindowNode) : List ℕ :=
  match maxNodes with
  | none => []
  | some cap =>
    if out.length ≤ cap then []
    else
      (((out.zipIdx.filter fun place ↦ place.1.role = .caller).insertionSort
        CausalWindowNode.DropsBefore).take (out.length - cap)).map Prod.snd

/-- The cone when the layers have ended. -/
def coneOf (cfg : CausalFlashConfig) (seeds : IdSet) : Cone :=
  g.layers adj cfg.hopDecay cfg.horizon 1 (seedCone seeds)

/-- The entries of the cone. -/
def coneEntries (cfg : CausalFlashConfig) (seeds : IdSet) : List CausalWindowNode :=
  (g.coneOf adj cfg seeds).depth.toList.filterMap (g.coneEntry seeds (g.coneOf adj cfg seeds))

/-- The entries of the ring, if it is asked for. -/
def ringEntries (cfg : CausalFlashConfig) (seeds : IdSet) : List CausalWindowNode :=
  if cfg.includeCallers then g.callerRing adj cfg.hopDecay (g.coneOf adj cfg seeds) else []

def coneCore (cfg : CausalFlashConfig) (seeds : IdSet) : CausalWindow :=
  let cut : IdSet := if 0 < cfg.horizon then g.cutDeps adj (g.coneOf adj cfg seeds) else ∅
  let out := (g.coneEntries adj cfg seeds ++ g.ringEntries adj cfg seeds).insertionSort
    CausalWindowNode.ReadsBefore
  let dropped := droppedCallers cfg.maxNodes out
  { nodes := (out.zipIdx.filter fun place ↦ place.2 ∉ dropped).map Prod.fst
    complete := cut.isEmpty
    omitted := cut.size + dropped.length
    seedCount := seeds.size }

/-- A set of ids. -/
def idSet (ids : List Str) : IdSet := ids.foldl (fun ids id ↦ ids.insert id ()) ∅

/-- A resident node that is not dead. -/
def isLive (id : Str) : Bool :=
  match g.nodes[id]? with
  | some node => node.state != .orphan
  | none => false

def causalFlashWindowWith (cfg : CausalFlashConfig) (seedIds : List Str) : CausalWindow :=
  g.coneCore adj cfg (idSet (seedIds.filter g.isLive))

/-- Whether a node is a seed by itself. -/
def seedsItself (cfg : CausalFlashConfig) (node : GraphNode) : Bool :=
  node.state != .orphan && (node.state == .working ||
    cfg.includeLowTrustSeeds && node.trust.lt cfg.trustThreshold)

/-- The window around the nodes that are worked on, and the cell of the adjacency that it leaves. -/
def causalFlashWindow (cell : AdjacencyCell) (cfg : CausalFlashConfig) : CausalWindow × AdjacencyCell :=
  let found := g.withCausalAdjacency cell
  let seeds := (g.nodes.toList.filter fun entry ↦ seedsItself cfg entry.2).map Prod.fst
  (g.coneCore found.1 cfg (idSet seeds), found.2)

end MemoryGraph

end SoulSystem.Ccos.Memory
