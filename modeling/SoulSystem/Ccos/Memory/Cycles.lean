import SoulSystem.Library.DepthFirst
import SoulSystem.Ccos.Memory.Graph
import SoulSystem.Library.SortedMap

/-!
# Dependency cycles

`find_cycles` searches the resident edges depth first from every node, in the order of the ids.
-/

namespace SoulSystem.Ccos.Memory

open Library SortedMap DepthFirst Relation Std.ExtTreeMap

namespace MemoryGraph

variable {g : MemoryGraph}

/-! ## The search -/

/-- The targets of the edges from each resident node. -/
def targets (g : MemoryGraph) : Std.ExtTreeMap Str (List Str) :=
  g.edges.foldl
    (fun adj edge ↦
      if g.endpointsResident edge then adj.modify edge.source (· ++ [edge.target]) else adj)
    (g.nodes.map fun _ _ ↦ [])

/-- The targets in order, each of them once. -/
def adjacency (g : MemoryGraph) : Std.ExtTreeMap Str (List Str) :=
  g.targets.map fun _ ids ↦ (ids.insertionSort fun a b ↦ (compare a b).isLE).dedup

def children (g : MemoryGraph) (id : Str) : List Str := (g.adjacency[id]?).getD []

/-- The cycles; nothing if the fuel of a search runs out. -/
def findCycles (g : MemoryGraph) (fuel : ℕ) : Option (List (List Str)) :=
  DepthFirst.findCycles g.children fuel g.adjacency.keys

/-! ## The edges that it follows -/

/-- An edge between two resident nodes. -/
def ResidentEdge (g : MemoryGraph) (source target : Str) : Prop :=
  source ∈ g.nodes ∧ target ∈ g.nodes ∧ ∃ edge ∈ g.edges, edge.source = source ∧ edge.target = target

/-- What a run over the edges adds to the targets of a node. -/
theorem getElem?_foldl_modify (edges : List GraphEdge) (adj : Std.ExtTreeMap Str (List Str))
    (id : Str) :
    (edges.foldl
      (fun adj edge ↦
        if g.endpointsResident edge then adj.modify edge.source (· ++ [edge.target]) else adj)
      adj)[id]? =
    adj[id]?.map (· ++ (edges.filter fun edge ↦
      g.endpointsResident edge && edge.source == id).map GraphEdge.target) := by
  induction edges generalizing adj with
  | nil =>
    simp only [List.foldl_nil, List.filter_nil, List.map_nil, List.append_nil, Option.map_id']
  | cons edge edges ih =>
    rw [List.foldl_cons, ih]
    cases hends : g.endpointsResident edge with
    | false =>
      rw [List.filter_cons_of_neg (by rw [hends]; exact Bool.false_ne_true)]
      rfl
    | true =>
      rw [if_pos rfl, getElem?_modify]
      by_cases hsource : edge.source = id
      · have hkept : (g.endpointsResident edge && edge.source == id) = true := by
          rw [hends, hsource, Bool.true_and, beq_self_eq_true]
        rw [List.filter_cons, if_pos hkept, hsource, if_pos Std.ReflCmp.compare_self, Option.map_map,
          List.map_cons]
        congr 1
        funext ids
        exact List.append_assoc ids [edge.target] _
      · have hdropped : ¬ (g.endpointsResident edge && edge.source == id) = true := by
          rw [hends, Bool.true_and, beq_iff_eq]
          exact hsource
        rw [List.filter_cons, if_neg hdropped,
          if_neg (mt Std.LawfulEqCmp.compare_eq_iff_eq.mp hsource)]

theorem mem_children_iff {id target : Str} :
    target ∈ g.children id ↔ g.ResidentEdge id target := by
  have hkey : ∀ ids : List Str, target ∈ (ids.insertionSort fun a b ↦ (compare a b).isLE).dedup ↔
      target ∈ ids := fun ids ↦ by rw [List.mem_dedup, List.mem_insertionSort]
  have hmap : g.children id = (g.nodes[id]?.map fun _ ↦
      ((g.edges.filter fun edge ↦ g.endpointsResident edge && edge.source == id).map
        GraphEdge.target |>.insertionSort fun a b ↦ (compare a b).isLE).dedup).getD [] := by
    rw [children, adjacency, getElem?_map, targets, getElem?_foldl_modify,
      getElem?_map, Option.map_map, Option.map_map]
    rfl
  rw [hmap]
  cases hnode : g.nodes[id]? with
  | none =>
    refine ⟨fun hmem ↦ absurd hmem List.not_mem_nil, fun hedge ↦ ?_⟩
    exact absurd hedge.1 (getElem?_eq_none_iff.mp hnode)
  | some node =>
    have hid := mem_of_getElem?_eq_some hnode
    rw [Option.map_some, Option.getD_some, hkey, List.mem_map]
    constructor
    · rintro ⟨edge, hedge, rfl⟩
      obtain ⟨hmem, hboth⟩ := List.mem_filter.mp hedge
      rw [Bool.and_eq_true, beq_iff_eq, endpointsResident, Bool.and_eq_true] at hboth
      exact ⟨hid, hboth.1.2, edge, hmem, hboth.2, rfl⟩
    · rintro ⟨_, htarget, edge, hmem, rfl, rfl⟩
      refine ⟨edge, List.mem_filter.mpr ⟨hmem, ?_⟩, rfl⟩
      rw [Bool.and_eq_true, beq_iff_eq, endpointsResident, Bool.and_eq_true]
      exact ⟨⟨hid, htarget⟩, rfl⟩

theorem mem_adjacency_iff {id : Str} : id ∈ g.adjacency ↔ id ∈ g.nodes := by
  rw [adjacency, mem_map, mem_iff_isSome_getElem?, targets,
    getElem?_foldl_modify, Option.isSome_map, getElem?_map, Option.isSome_map,
    ← mem_iff_isSome_getElem?]

/-! ## Soundness and completeness -/

/-- The turns that a search of the graph takes at most. -/
def searchBound (g : MemoryGraph) : ℕ := turnsBound g.children g.adjacency.keys.toFinset

/-- **Cycles.**  The search ends, what it returns are cycles of resident edges, and it returns none
exactly if there is none. -/
theorem findCycles_sound_complete (g : MemoryGraph) : ∃ cycles,
    (∀ fuel ≥ g.searchBound, g.findCycles fuel = some cycles) ∧
    (∀ cycle ∈ cycles, IsCycle g.ResidentEdge cycle) ∧
    (cycles = [] ↔ ∀ id, ¬ TransGen g.ResidentEdge id id) := by
  have hrel : (fun id target ↦ target ∈ g.children id) = g.ResidentEdge := by
    funext id target
    exact propext mem_children_iff
  have hvertex : ∀ id, id ∈ g.adjacency.keys.toFinset ↔ id ∈ g.nodes := fun id ↦ by
    rw [List.mem_toFinset, mem_keys, mem_adjacency_iff]
  have hclosed : Closed g.children g.adjacency.keys.toFinset := fun id _ target htarget ↦
    (hvertex target).mpr (mem_children_iff.mp htarget).2.1
  obtain ⟨cycles, hsearch, hsound, hcomplete⟩ :=
    exists_findCycles hclosed fun id ↦ List.mem_toFinset.symm
  rw [hrel] at hsound hcomplete
  refine ⟨cycles, hsearch, hsound, fun hnone id hcycle ↦ ?_, fun hacyclic ↦ ?_⟩
  · obtain ⟨target, hedge, _⟩ := TransGen.head'_iff.mp hcycle
    exact hcomplete hnone id ((hvertex id).mpr hedge.1) hcycle
  · cases cycles with
    | nil => rfl
    | cons cycle cycles =>
      exact absurd (hsound cycle List.mem_cons_self).transGen (hacyclic _)

/-- A loop, two nodes that depend on each other, and an edge of no cycle. -/
example :
    let node (id : Str) : GraphNode := freshNode id [] [] .unknown 0
    let edge (source target : Str) : GraphEdge :=
      { source, target, weight := .finite 1, edgeType := .dependsOn, createdAt := 0 }
    let g : MemoryGraph := { MemoryGraph.new 3 with
      nodes := ((Std.ExtTreeMap.empty.insert ['a'] (node ['a'])).insert ['b'] (node ['b'])).insert ['c']
        (node ['c'])
      edges := [edge ['a'] ['b'], edge ['b'] ['b'], edge ['b'] ['c'], edge ['c'] ['b']] }
    g.findCycles 9 = some [[['b']], [['b'], ['c']]] := by
  decide +kernel

end MemoryGraph

end SoulSystem.Ccos.Memory
