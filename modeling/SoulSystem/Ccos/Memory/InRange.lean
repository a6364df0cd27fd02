import SoulSystem.Ccos.Memory.Arithmetic
import SoulSystem.Ccos.Memory.Membership

/-!
# Numbers in range

Every float of the nodes and edges of a graph without a spill store lies between zero and one, in
the resident graph and in the COLD tier.  The moves of the tier keep this, and so do the updates
whose edges have such a weight.
-/

namespace SoulSystem.Ccos.Memory

open Library SortedMap List

structure GraphNode.InRange (node : GraphNode) : Prop where
  baseImportance : node.baseImportance.InUnit
  failureRelevance : node.failureRelevance.InUnit
  recency : node.recency.InUnit
  trust : node.trust.InUnit

def GraphEdge.InRange (edge : GraphEdge) : Prop := edge.weight.InUnit

structure ColdNode.InRange (entry : ColdNode) : Prop where
  node : entry.node.InRange
  edges : ∀ edge ∈ entry.edges, edge.InRange
  spill : entry.spill = none

/-- All numbers are in range, and nothing lies outside of the two maps. -/
structure MemoryGraph.InRange (g : MemoryGraph) : Prop where
  nodes : Every GraphNode.InRange g.nodes
  edges : ∀ edge ∈ g.edges, edge.InRange
  cold : Every ColdNode.InRange g.cold
  spill : g.spill = none
  husks : g.husks = ∅

theorem F64.inUnit_finite {value : ℚ} (hlow : 0 ≤ value) (hhigh : value ≤ 1) :
    (F64.finite value).InUnit :=
  ⟨hlow, hhigh⟩

theorem F64.inUnit_one : (F64.finite 1).InUnit := F64.inUnit_finite zero_le_one le_rfl

namespace GraphNode.InRange

variable {node : GraphNode}

theorem touched (hnode : node.InRange) {label content : Str} {nodeType : NodeType}
    {accessCount lastAccessed : ℕ} : GraphNode.InRange { node with
      label, content, nodeType, recency := .finite 1, lastAccessed, accessCount } :=
  { hnode with recency := F64.inUnit_one }

theorem fresh (id label content : Str) (nodeType : NodeType) (now : ℕ) :
    (MemoryGraph.freshNode id label content nodeType now).InRange where
  baseImportance := F64.inUnit_finite (by norm_num) (by norm_num)
  failureRelevance := F64.inUnit_finite le_rfl zero_le_one
  recency := F64.inUnit_one
  trust := F64.inUnit_one

theorem upserted {existing : Option GraphNode} (hexisting : ∀ node ∈ existing, node.InRange)
    (id label content : Str) (nodeType : NodeType) (now : ℕ) :
    (MemoryGraph.upserted existing id label content nodeType now).InRange := by
  cases existing with
  | none => exact fresh id label content nodeType now
  | some node => exact (hexisting node rfl).touched

end GraphNode.InRange

namespace MemoryGraph.InRange

variable {codec : Codec} {judge : Judge} {g h : MemoryGraph} {id : Str}

theorem new (maxInMemoryNodes : ℕ) : (MemoryGraph.new maxInMemoryNodes).InRange where
  nodes := Every.empty
  edges := fun _ hedge ↦ absurd hedge not_mem_nil
  cold := Every.empty
  spill := rfl
  husks := rfl

theorem edges_subset (hrange : g.InRange) {kept : List GraphEdge} (hkept : kept ⊆ g.edges) :
    ∀ edge ∈ kept, edge.InRange :=
  fun edge hedge ↦ hrange.edges edge (hkept hedge)

/-- One more edge whose weight is in range. -/
theorem append (hrange : g.InRange) {edge : GraphEdge} (hedge : edge.InRange)
    {edgeSet : Finset Triple} :
    MemoryGraph.InRange { g with edgeSet := edgeSet, edges := g.edges ++ [edge] } := by
  refine { hrange with edges := ?_ }
  rw [forall_mem_append, forall_mem_singleton]
  exact ⟨hrange.edges, hedge⟩

/-! ## The moves of the tier -/

theorem demote (hrange : g.InRange) : (g.demote id).InRange := by
  unfold MemoryGraph.demote
  split
  · exact hrange
  · rename_i node hnode
    have hentry : ColdNode.InRange {
        node
        edges := g.edges.filter fun edge ↦ edge.touches id
        spill := none
        compacted := false
        atFloor := false } :=
      ⟨hrange.nodes id node hnode, hrange.edges_subset (filter_subset_self _), rfl⟩
    exact { hrange with
      nodes := hrange.nodes.erase
      edges := hrange.edges_subset (filter_subset_self _)
      cold := hrange.cold.insert hentry }

theorem prune (hrange : g.InRange) : g.pruneDanglingEdges.InRange :=
  { hrange with edges := hrange.edges_subset (filter_subset_self _) }

theorem compact {total : ℕ} (hrange : g.InRange) :
    (compactEntry codec (g, total) id).1.InRange := by
  unfold compactEntry
  split
  · exact hrange
  · rename_i entry content oldLen hsource
    have hentry := getElem?_of_compactSource hsource
    have hold := hrange.cold id entry hentry
    simp only []
    split
    · have hparked : ColdNode.InRange { entry with atFloor := true } := { hold with }
      exact { hrange with cold := hrange.cold.insert hparked }
    · have hcompact : ColdNode.InRange { entry with
          node := { entry.node with content := codec.compactContent entry.node.nodeType content }
          spill := none
          compacted := true } := ⟨{ hold.node with }, hold.edges, rfl⟩
      rw [hold.spill]
      exact { hrange with cold := hrange.cold.insert hcompact }

theorem spillEntry {total : ℕ} (hrange : g.InRange) :
    (MemoryGraph.spillEntry codec (g, total) id).1.InRange := by
  unfold MemoryGraph.spillEntry
  rw [hrange.spill]
  split
  · rename_i hnone
    cases hnone
  · exact hrange

theorem deepSpill {total : ℕ} (hrange : g.InRange) :
    (deepSpillEntry codec judge (g, total) id).1.InRange := by
  unfold deepSpillEntry
  split
  · exact hrange
  · rename_i store entry inline hsource
    have hstore := (of_deepSpillSource hsource).2.1
    rw [hrange.spill] at hstore
    cases hstore

theorem faultHusk (hrange : g.InRange) (hfault : faultHusk codec g id = some h) : h.InRange := by
  unfold MemoryGraph.faultHusk at hfault
  rw [hrange.husks, Std.ExtTreeMap.getElem?_empty] at hfault
  cases hfault
  exact hrange

theorem faultContent (hrange : g.InRange) (hfault : faultContent codec g id = some h) :
    h.InRange := by
  unfold MemoryGraph.faultContent at hfault
  split at hfault
  · cases hfault
    exact hrange
  · rename_i entry hentry
    rw [(hrange.cold id entry hentry).spill] at hfault
    cases hfault
    exact hrange

theorem foldl_relink (hrange : g.InRange) (edges : List GraphEdge)
    (hedges : ∀ edge ∈ edges, edge.InRange) : (edges.foldl relink g).InRange := by
  induction edges generalizing g with
  | nil => exact hrange
  | cons edge edges ih =>
    rw [forall_mem_cons] at hedges
    rw [foldl_cons]
    apply ih _ hedges.2
    unfold relink
    split
    · exact hrange.append hedges.1
    · exact hrange

theorem restore {entry : ColdNode} (hrange : g.InRange) (hentry : g.cold[id]? = some entry) :
    (g.restore id entry).InRange := by
  have hold := hrange.cold id entry hentry
  have hpaged : (pagedIn entry.node g.clock).InRange := hold.node.touched
  have hmoved : MemoryGraph.InRange { g with
      cold := g.cold.erase id
      nodes := g.nodes.insert id (pagedIn entry.node g.clock) } :=
    { hrange with cold := hrange.cold.erase, nodes := hrange.nodes.insert hpaged }
  exact hmoved.foldl_relink entry.edges hold.edges

theorem stable : Stable codec (fun _ ↦ True) InRange where
  demote := fun _ _ hrange ↦ hrange.demote
  prune := fun _ hrange ↦ hrange.prune
  compact := fun _ _ _ hrange _ _ ↦ hrange.compact
  spill := fun _ _ _ hrange ↦ hrange.spillEntry
  deepSpill := fun _ _ _ _ hrange _ ↦ hrange.deepSpill
  faultHusk := fun _ _ _ hrange hfault ↦ hrange.faultHusk hfault
  faultContent := fun _ _ _ hrange _ hfault ↦ hrange.faultContent hfault
  restore := fun _ _ _ hrange hentry _ ↦ hrange.restore hentry

theorem pageIn (hrange : g.InRange) (id : Str) : (pageIn codec judge g id).1.InRange :=
  stable.pageIn id hrange fun _ _ ↦ trivial

/-! ## Nodes and edges -/

theorem forgetColdShadow (hrange : g.InRange) (id : Str) :
    (MemoryGraph.forgetColdShadow g id).InRange := by
  have hfull : (forgetFull g id).InRange := by
    unfold forgetFull
    split
    · rename_i old hold
      rw [(hrange.cold id old hold).spill]
      exact { hrange with cold := hrange.cold.erase }
    · exact hrange
  rw [MemoryGraph.forgetColdShadow, forgetHusk, hfull.husks, Std.ExtTreeMap.getElem?_empty]
  exact hfull

theorem upsertNode (hrange : g.InRange) (id label content : Str) (nodeType : NodeType) :
    (upsertNode codec judge g id label content nodeType).InRange := by
  have hforgotten := hrange.forgetColdShadow id
  have hnode := GraphNode.InRange.upserted
    (fun node hnode ↦ hforgotten.nodes id node hnode) id label content nodeType
    (MemoryGraph.forgetColdShadow g id).clock
  have hupserted : (withUpserted g id label content nodeType).InRange :=
    { hforgotten with nodes := hforgotten.nodes.insert hnode }
  exact stable.enforcePaging hupserted fun _ _ ↦ trivial

theorem removeNode (hrange : g.InRange) (id : Str) : (g.removeNode id).InRange := by
  have herased : MemoryGraph.InRange { g with nodes := g.nodes.erase id } :=
    { hrange with nodes := hrange.nodes.erase }
  have hforgotten := herased.forgetColdShadow id
  exact { hforgotten with edges := hforgotten.edges_subset (filter_subset_self _) }

/-- A refused edge may have any weight. -/
theorem addEdge (hrange : g.InRange) {source target : Str} {weight : F64} {edgeType : EdgeType}
    (hweight : weight.InUnit ∨ (g.addEdge source target weight edgeType).2 = false) :
    (g.addEdge source target weight edgeType).1.InRange := by
  unfold MemoryGraph.addEdge at hweight ⊢
  simp only [] at hweight ⊢
  split
  · exact hrange
  · rename_i hends
    rw [if_neg hends] at hweight
    split
    · exact { hrange with }
    · rename_i hfree
      rw [if_neg hfree] at hweight
      have hedge : GraphEdge.InRange
          { source, target, weight, edgeType, createdAt := g.clock } :=
        hweight.resolve_right Bool.true_eq_false_eq_False
      exact hrange.append hedge

theorem addEdges (hrange : g.InRange) {weight : F64} (hweight : weight.InUnit)
    (wanted : List Triple) : (addEdges weight g wanted).1.InRange := by
  unfold MemoryGraph.addEdges
  generalize 0 = count
  induction wanted generalizing g count with
  | nil => exact hrange
  | cons key wanted ih => exact ih (hrange.addEdge (.inl hweight)) _

theorem linkModuleImports (hrange : g.InRange) : g.linkModuleImports.1.InRange := by
  unfold MemoryGraph.linkModuleImports
  exact hrange.addEdges (F64.inUnit_finite (by norm_num) (by norm_num)) _

theorem resolveSymbolCalls (hrange : g.InRange) : g.resolveSymbolCalls.1.InRange := by
  unfold MemoryGraph.resolveSymbolCalls
  exact hrange.addEdges (F64.inUnit_finite (by norm_num) (by norm_num)) _

theorem resolveDataFlow (hrange : g.InRange) : g.resolveDataFlow.1.InRange := by
  unfold MemoryGraph.resolveDataFlow
  exact hrange.addEdges (F64.inUnit_finite (by norm_num) (by norm_num)) _

theorem resolveAll (hrange : g.InRange) : g.resolveAll.1.InRange := by
  have hpruned : g.pruneResolutionEdges.InRange :=
    { hrange with edges := hrange.edges_subset (filter_subset_self _) }
  have himports := hpruned.linkModuleImports
  have hcalls := himports.resolveSymbolCalls
  have hdata := hcalls.resolveDataFlow
  simpa only [MemoryGraph.resolveAll] using hdata

/-- A map over the resident nodes that keeps their numbers in range. -/
theorem mapNodes (hrange : g.InRange) {f : Str → GraphNode → GraphNode}
    (hf : ∀ id node, node.InRange → (f id node).InRange) :
    MemoryGraph.InRange { g with nodes := g.nodes.map f } :=
  { hrange with nodes := hrange.nodes.map hf }

end MemoryGraph.InRange

/-! ## Updates -/

/-- The edges that an operation adds have a weight in range. -/
def Op.Weighted : Op → Prop
  | .addEdge _ _ weight _ => weight.InUnit
  | _ => True

namespace MemoryGraph.InRange

variable {codec : Codec} {judge : Judge} {g : MemoryGraph}

theorem apply_update {op : Op} (hrange : g.InRange) (hop : op.IsUpdate) (hweighted : op.Weighted) :
    (apply codec judge op g).InRange := by
  cases op with
  | upsertNode id label content nodeType => exact hrange.upsertNode id label content nodeType
  | addEdge source target weight edgeType => exact hrange.addEdge (.inl hweighted)
  | setPendingCalls | setPendingDataRefs | setPendingAliases | setPendingMethods
  | markDataSymbol => exact { hrange with }
  | tick | removeNode | touch | enforcePaging | pageIn | pruneDanglingEdges | resolveAll
  | attachColdSpill | setColdContentBudget | setColdResidentBudget => cases hop

theorem run_updates {steps : List Step} (hrange : g.InRange)
    (hsteps : ∀ step ∈ steps, step.2.IsUpdate ∧ step.2.Weighted) : (run codec g steps).InRange := by
  induction steps generalizing g with
  | nil => exact hrange
  | cons step steps ih =>
    rw [forall_mem_cons] at hsteps
    exact ih (hrange.apply_update hsteps.1.1 hsteps.1.2) hsteps.2

end MemoryGraph.InRange

end SoulSystem.Ccos.Memory
