import SoulSystem.Ccos.Memory.ColdMoves

/-!
# The edge list and its duplicate index

The edge list never dangles, and `add_edge` is the only place that trusts the duplicate index.  The
index is rebuilt when its size differs from the length of the edge list, so what `add_edge` does is
right in a state exactly when an index of the right size is the right index.
-/

namespace SoulSystem.Ccos.Memory

namespace MemoryGraph

open Library SortedMap

variable {codec : Codec} {judge : Judge}

theorem endpointsResident_iff {g : MemoryGraph} {edge : GraphEdge} :
    g.endpointsResident edge = true ↔ edge.source ∈ g.nodes ∧ edge.target ∈ g.nodes := by
  simp [endpointsResident]

theorem not_touches_iff {edge : GraphEdge} {id : Str} :
    (!edge.touches id) = true ↔ edge.source ≠ id ∧ edge.target ≠ id := by
  simp [GraphEdge.touches]

theorem mem_triples {edges : List GraphEdge} {key : Triple} :
    key ∈ triples edges ↔ key ∈ edges.map GraphEdge.triple :=
  List.mem_toFinset

/-! ## Edges never dangle -/

def NonDangling (g : MemoryGraph) : Prop :=
  ∀ edge ∈ g.edges, edge.source ∈ g.nodes ∧ edge.target ∈ g.nodes

instance (g : MemoryGraph) : Decidable g.NonDangling :=
  inferInstanceAs (Decidable (∀ edge ∈ g.edges, _))

namespace NonDangling

variable {g h : MemoryGraph}

theorem of_subset (hnon : NonDangling g) (hedges : ∀ edge ∈ h.edges, edge ∈ g.edges)
    (hnodes : ∀ id ∈ g.nodes, id ∈ h.nodes) : NonDangling h := by
  intro edge hedge
  have hends := hnon edge (hedges edge hedge)
  exact ⟨hnodes _ hends.1, hnodes _ hends.2⟩

theorem of_hot (hnon : NonDangling g) (hhot : h.hot = g.hot) : NonDangling h := by
  unfold NonDangling
  rw [edges_eq_of_hot hhot, nodes_eq_of_hot hhot]
  exact hnon

/-- The edges that avoid a node survive its removal. -/
theorem erase (hnon : NonDangling g) {id : Str} (hnodes : h.nodes = g.nodes.erase id)
    (hedges : h.edges = g.edges.filter fun edge ↦ !edge.touches id) : NonDangling h := by
  intro edge hedge
  rw [hedges, List.mem_filter, not_touches_iff] at hedge
  have hends := hnon edge hedge.1
  rw [hnodes]
  exact ⟨mem_erase_iff.mpr ⟨hedge.2.1, hends.1⟩, mem_erase_iff.mpr ⟨hedge.2.2, hends.2⟩⟩

theorem append (hnon : NonDangling g) {edge : GraphEdge}
    (hends : edge.source ∈ g.nodes ∧ edge.target ∈ g.nodes) {edgeSet : Finset Triple} :
    NonDangling { g with edgeSet := edgeSet, edges := g.edges ++ [edge] } := by
  intro other hother
  rcases List.mem_append.mp hother with hold | hnew
  · exact hnon other hold
  · rw [List.mem_singleton.mp hnew]
    exact hends

theorem demote (hnon : NonDangling g) (id : Str) : NonDangling (g.demote id) := by
  unfold MemoryGraph.demote
  split
  · exact hnon
  · exact hnon.erase rfl rfl

theorem prune (g : MemoryGraph) : NonDangling g.pruneDanglingEdges := by
  intro edge hedge
  exact endpointsResident_iff.mp (List.mem_filter.mp hedge).2

theorem foldl_relink (hnon : NonDangling g) (edges : List GraphEdge) :
    NonDangling (edges.foldl relink g) := by
  induction edges generalizing g with
  | nil => exact hnon
  | cons edge edges ih =>
    apply ih
    unfold relink
    split
    · rename_i hcond
      rw [Bool.and_eq_true, endpointsResident_iff] at hcond
      exact hnon.append hcond.1
    · exact hnon

theorem insertNode (hnon : NonDangling g) (id : Str) (node : GraphNode)
    (cold : Std.ExtTreeMap Str ColdNode) :
    NonDangling { g with cold := cold, nodes := g.nodes.insert id node } :=
  hnon.of_subset (fun _ hedge ↦ hedge) fun _ hid ↦ mem_insert_iff.mpr (.inr hid)

theorem stable : Stable codec (fun _ ↦ True) NonDangling :=
  Stable.of_hot (fun _ _ hnon hhot ↦ hnon.of_hot hhot) (fun _ id hnon ↦ hnon.demote id)
    (fun g _ ↦ prune g) fun _ id entry hnon ↦ (hnon.insertNode id _ _).foldl_relink entry.edges

theorem addEdge (hnon : NonDangling g) (source target : Str) (weight : F64)
    (edgeType : EdgeType) : NonDangling (g.addEdge source target weight edgeType).1 := by
  unfold MemoryGraph.addEdge
  simp only []
  split
  · exact hnon
  · rename_i hends
    split
    · exact hnon
    · apply hnon.append
      simpa using hends

theorem addEdges (hnon : NonDangling g) (weight : F64) (wanted : List Triple) :
    NonDangling (addEdges weight g wanted).1 := by
  unfold MemoryGraph.addEdges
  generalize 0 = count
  induction wanted generalizing g count with
  | nil => exact hnon
  | cons key wanted ih => exact ih (hnon.addEdge _ _ _ _) _

theorem pruneResolutionEdges (hnon : NonDangling g) : NonDangling g.pruneResolutionEdges :=
  hnon.of_subset (fun _ hedge ↦ List.mem_of_mem_filter hedge) fun _ hid ↦ hid

theorem resolveAll (hnon : NonDangling g) : NonDangling g.resolveAll.1 := by
  have himports : NonDangling g.pruneResolutionEdges.linkModuleImports.1 :=
    hnon.pruneResolutionEdges.addEdges _ _
  have hcalls : ∀ h : MemoryGraph, NonDangling h → NonDangling h.resolveSymbolCalls.1 :=
    fun _ hh ↦ hh.addEdges _ _
  have hdata : ∀ h : MemoryGraph, NonDangling h → NonDangling h.resolveDataFlow.1 :=
    fun _ hh ↦ hh.addEdges _ _
  simpa only [MemoryGraph.resolveAll] using hdata _ (hcalls _ himports)

theorem removeNode (hnon : NonDangling g) (id : Str) : NonDangling (g.removeNode id) := by
  have hhot := hot_forgetColdShadow { g with nodes := g.nodes.erase id } id
  refine hnon.erase (nodes_eq_of_hot hhot) ?_
  unfold MemoryGraph.removeNode
  simp only []
  rw [edges_eq_of_hot hhot]

theorem apply (hnon : NonDangling g) (op : Op) : NonDangling (apply codec judge op g) := by
  refine stable.apply ?_ fun _ _ ↦ trivial
  cases op with
  | tick => exact hnon.of_subset (fun _ hedge ↦ hedge) fun _ hid ↦ Std.ExtTreeMap.mem_map.mpr hid
  | upsertNode id => exact (hnon.of_hot (hot_forgetColdShadow g id)).insertNode id _ _
  | addEdge => exact hnon.addEdge _ _ _ _
  | removeNode id => exact hnon.removeNode id
  | touch id =>
    unfold started MemoryGraph.apply MemoryGraph.touch
    simp only []
    split
    · exact hnon.insertNode id _ _
    · exact hnon
  | pruneDanglingEdges => exact prune g
  | resolveAll => exact hnon.resolveAll
  | _ => exact hnon

theorem run (hnon : NonDangling g) (steps : List Step) : NonDangling (run codec g steps) := by
  induction steps generalizing g with
  | nil => exact hnon
  | cons step steps ih => exact ih (hnon.apply step.2)

end NonDangling

/-! ## Distinct keys -/

/-- An edge list without duplicate keys and without dangling edges. -/
structure ProperEdges (g : MemoryGraph) : Prop where
  distinct : (g.edges.map GraphEdge.triple).Nodup
  resident : NonDangling g

namespace ProperEdges

variable {g h : MemoryGraph}

theorem new (maxInMemoryNodes : ℕ) : ProperEdges (MemoryGraph.new maxInMemoryNodes) where
  distinct := List.nodup_nil
  resident := by
    intro edge hedge
    cases hedge

/-- Fewer edges have distinct keys too. -/
theorem of_sublist (hproper : ProperEdges g) (hsub : h.edges.Sublist g.edges)
    (hresident : NonDangling h) : ProperEdges h :=
  ⟨hproper.distinct.sublist (hsub.map GraphEdge.triple), hresident⟩

theorem of_hot (hproper : ProperEdges g) (hhot : h.hot = g.hot) : ProperEdges h :=
  hproper.of_sublist (by rw [edges_eq_of_hot hhot]) (hproper.resident.of_hot hhot)

theorem demote (hproper : ProperEdges g) (id : Str) : ProperEdges (g.demote id) := by
  refine hproper.of_sublist ?_ (hproper.resident.demote id)
  unfold MemoryGraph.demote
  split
  · exact List.Sublist.refl _
  · exact List.filter_sublist

theorem prune (hproper : ProperEdges g) : ProperEdges g.pruneDanglingEdges :=
  hproper.of_sublist List.filter_sublist (NonDangling.prune g)

theorem pruneResolutionEdges (hproper : ProperEdges g) : ProperEdges g.pruneResolutionEdges :=
  hproper.of_sublist List.filter_sublist hproper.resident.pruneResolutionEdges

/-- One more edge whose key is free and whose ends are resident. -/
theorem append (hproper : ProperEdges g) {edge : GraphEdge}
    (hfree : edge.triple ∉ g.edges.map GraphEdge.triple)
    (hends : edge.source ∈ g.nodes ∧ edge.target ∈ g.nodes) {edgeSet : Finset Triple} :
    ProperEdges { g with edgeSet := edgeSet, edges := g.edges ++ [edge] } where
  distinct := by
    rw [List.map_append, List.map_singleton, List.nodup_append]
    refine ⟨hproper.distinct, List.nodup_singleton _, ?_⟩
    intro key hkey other hother heq
    rw [List.mem_singleton] at hother
    rw [heq, hother] at hkey
    exact hfree hkey
  resident := hproper.resident.append hends

theorem relink (hproper : ProperEdges g) (edge : GraphEdge) : ProperEdges (g.relink edge) := by
  unfold MemoryGraph.relink
  split
  · rename_i hcond
    rw [Bool.and_eq_true, endpointsResident_iff] at hcond
    apply hproper.append _ hcond.1
    intro hmem
    rw [List.mem_map] at hmem
    obtain ⟨other, hother, hkey⟩ := hmem
    have hany : (g.edges.any fun other ↦ other.triple == edge.triple) = true :=
      List.any_eq_true.mpr ⟨other, hother, by rw [hkey]; exact beq_self_eq_true _⟩
    rw [hany] at hcond
    exact Bool.false_ne_true hcond.2
  · exact hproper

theorem restore (hproper : ProperEdges g) (id : Str) (entry : ColdNode) :
    ProperEdges (g.restore id entry) := by
  have hinsert : ProperEdges { g with
      cold := g.cold.erase id
      nodes := g.nodes.insert id (pagedIn entry.node g.clock) } :=
    ⟨hproper.distinct, hproper.resident.insertNode id _ _⟩
  unfold MemoryGraph.restore
  generalize entry.edges = edges
  revert hinsert
  generalize ({ g with
    cold := g.cold.erase id
    nodes := g.nodes.insert id (pagedIn entry.node g.clock) } : MemoryGraph) = start
  intro hstart
  induction edges generalizing start with
  | nil => exact hstart
  | cons edge edges ih => exact ih _ (hstart.relink edge)

theorem stable : Stable codec (fun _ ↦ True) ProperEdges :=
  Stable.of_hot (fun _ _ hproper hhot ↦ hproper.of_hot hhot) (fun _ id hproper ↦ hproper.demote id)
    (fun _ hproper ↦ hproper.prune) fun _ id entry hproper ↦ hproper.restore id entry

end ProperEdges

/-! ## The duplicate index -/

/-- An index of the size of the edge list is the set of its keys. -/
def Synced (g : MemoryGraph) : Prop :=
  g.edgeSet.card = g.edges.length → g.edgeSet = triples g.edges

instance (g : MemoryGraph) : Decidable g.Synced :=
  inferInstanceAs (Decidable (_ → _))

theorem refreshedIndex_eq {g : MemoryGraph} (hsync : g.Synced) :
    g.refreshedIndex = triples g.edges := by
  unfold refreshedIndex
  split
  · rfl
  · rename_i hcard
    exact hsync (not_not.mp hcard)

theorem card_triples {g : MemoryGraph} (hproper : ProperEdges g) :
    (triples g.edges).card = g.edges.length := by
  unfold triples
  rw [List.toFinset_card_of_nodup hproper.distinct, List.length_map]

/-- `add_edge` in a state whose index can be trusted. -/
theorem addEdge_eq {g : MemoryGraph} (hsync : g.Synced) (source target : Str) (weight : F64)
    (edgeType : EdgeType) :
    addEdge g source target weight edgeType =
      if source ∈ g.nodes ∧ target ∈ g.nodes then
        if (source, target, edgeType) ∈ triples g.edges then
          ({ g with edgeSet := triples g.edges }, false)
        else
          ({ g with
              edgeSet := insert (source, target, edgeType) (triples g.edges)
              edges := g.edges ++ [{ source, target, weight, edgeType, createdAt := g.clock }] },
            true)
      else
        (g, false) := by
  unfold addEdge
  simp only [refreshedIndex_eq hsync]
  by_cases hsource : source ∈ g.nodes <;> by_cases htarget : target ∈ g.nodes <;>
    simp [hsource, htarget]

theorem triples_append (edges : List GraphEdge) (edge : GraphEdge) :
    triples (edges ++ [edge]) = insert edge.triple (triples edges) := by
  ext key
  rw [mem_triples, Finset.mem_insert, mem_triples, List.map_append, List.map_singleton,
    List.mem_append, List.mem_singleton, or_comm]

theorem ProperEdges.addEdge {g : MemoryGraph} (hproper : ProperEdges g) (hsync : g.Synced)
    (source target : Str) (weight : F64) (edgeType : EdgeType) :
    ProperEdges (addEdge g source target weight edgeType).1 := by
  rw [addEdge_eq hsync]
  split
  · rename_i hends
    split
    · exact ⟨hproper.distinct, hproper.resident⟩
    · rename_i hfree
      rw [mem_triples] at hfree
      exact @ProperEdges.append g hproper
        { source, target, weight, edgeType, createdAt := g.clock } hfree hends _
  · exact hproper

theorem Synced.addEdge {g : MemoryGraph} (hsync : g.Synced) (source target : Str) (weight : F64)
    (edgeType : EdgeType) : (addEdge g source target weight edgeType).1.Synced := by
  rw [addEdge_eq hsync]
  split
  · split
    · exact fun _ ↦ rfl
    · intro _
      exact (triples_append g.edges ⟨source, target, weight, edgeType, g.clock⟩).symm
  · exact hsync

@[simp]
theorem nodes_addEdge (g : MemoryGraph) (source target : Str) (weight : F64)
    (edgeType : EdgeType) : (addEdge g source target weight edgeType).1.nodes = g.nodes := by
  unfold MemoryGraph.addEdge
  simp only []
  repeat' split
  all_goals rfl

/-- Offering edges in turn keeps the list proper and the index in step with it. -/
theorem ProperEdges.addEdges {g : MemoryGraph} (hproper : ProperEdges g) (wanted : List Triple)
    (weight : F64) (hsync : g.Synced) :
    ProperEdges (addEdges weight g wanted).1 ∧ (addEdges weight g wanted).1.Synced := by
  unfold MemoryGraph.addEdges
  generalize 0 = count
  induction wanted generalizing g count with
  | nil => exact ⟨hproper, hsync⟩
  | cons key wanted ih =>
    exact ih (hproper.addEdge hsync _ _ _ _) (hsync.addEdge _ _ _ _) _

theorem ProperEdges.linkModuleImports {g : MemoryGraph} (hproper : ProperEdges g)
    (hsync : g.Synced) :
    ProperEdges g.linkModuleImports.1 ∧ g.linkModuleImports.1.Synced := by
  unfold MemoryGraph.linkModuleImports
  exact hproper.addEdges _ _ hsync

theorem ProperEdges.resolveSymbolCalls {g : MemoryGraph} (hproper : ProperEdges g)
    (hsync : g.Synced) :
    ProperEdges g.resolveSymbolCalls.1 ∧ g.resolveSymbolCalls.1.Synced := by
  unfold MemoryGraph.resolveSymbolCalls
  exact hproper.addEdges _ _ hsync

theorem ProperEdges.resolveDataFlow {g : MemoryGraph} (hproper : ProperEdges g)
    (hsync : g.Synced) :
    ProperEdges g.resolveDataFlow.1 ∧ g.resolveDataFlow.1.Synced := by
  unfold MemoryGraph.resolveDataFlow
  exact hproper.addEdges _ _ hsync

theorem ProperEdges.resolveAll {g : MemoryGraph} (hproper : ProperEdges g)
    (hsync : g.pruneResolutionEdges.Synced) : ProperEdges g.resolveAll.1 := by
  have himports := hproper.pruneResolutionEdges.linkModuleImports hsync
  have hcalls := himports.1.resolveSymbolCalls himports.2
  have hdata := hcalls.1.resolveDataFlow hcalls.2
  simpa only [MemoryGraph.resolveAll] using hdata.1

/-! ## When `add_edge` is right -/

/-- What `add_edge` is for: it adds an edge exactly when both ends are resident and the key is
free. -/
def AddsExactly (g : MemoryGraph) (source target : Str) (weight : F64) (edgeType : EdgeType) :
    Prop :=
  let result := g.addEdge source target weight edgeType
  (result.2 = true ↔ source ∈ g.nodes ∧ target ∈ g.nodes ∧
      ∀ edge ∈ g.edges, edge.triple ≠ (source, target, edgeType)) ∧
    result.1.edges = if result.2 then
      g.edges ++ [{ source, target, weight, edgeType, createdAt := g.clock }]
    else
      g.edges

theorem addsExactly_of_synced {g : MemoryGraph} (hsync : g.Synced) (source target : Str)
    (weight : F64) (edgeType : EdgeType) : g.AddsExactly source target weight edgeType := by
  have hfree : (source, target, edgeType) ∉ triples g.edges ↔
      ∀ edge ∈ g.edges, edge.triple ≠ (source, target, edgeType) := by
    rw [mem_triples, List.mem_map]
    constructor
    · intro hnot edge hedge heq
      exact hnot ⟨edge, hedge, heq⟩
    · rintro hall ⟨edge, hedge, heq⟩
      exact hall edge hedge heq
  unfold AddsExactly
  simp only [addEdge_eq hsync]
  split
  · rename_i hends
    split
    · rename_i hmem
      simp [hends, ← hfree, hmem]
    · rename_i hmem
      simp [hends, ← hfree, hmem]
  · rename_i hends
    simp only [Bool.false_eq_true, if_false, and_true, false_iff]
    intro hall
    exact hends ⟨hall.1, hall.2.1⟩

/-- An index of the right size with the wrong keys misses the key of some edge. -/
theorem exists_missed_of_not_synced {g : MemoryGraph} (hproper : ProperEdges g)
    (hsync : ¬ g.Synced) : g.edgeSet.card = g.edges.length ∧
      ∃ edge ∈ g.edges, edge.triple ∉ g.edgeSet := by
  unfold Synced at hsync
  push Not at hsync
  refine ⟨hsync.1, ?_⟩
  by_contra hall
  push Not at hall
  have hsub : triples g.edges ⊆ g.edgeSet := by
    intro key hkey
    obtain ⟨edge, hedge, rfl⟩ := List.mem_map.mp (mem_triples.mp hkey)
    exact hall edge hedge
  have hcard : g.edgeSet.card ≤ (triples g.edges).card := by
    rw [card_triples hproper, hsync.1]
  exact hsync.2 (Finset.eq_of_subset_of_card_le hsub hcard).symm

/-- `add_edge` is right in a state exactly when its index can be trusted there. -/
theorem addsExactly_iff_synced {g : MemoryGraph} (hproper : ProperEdges g) :
    (∀ source target weight edgeType, g.AddsExactly source target weight edgeType) ↔ g.Synced := by
  constructor
  · intro hexact
    by_contra hsync
    obtain ⟨hcard, edge, hedge, hmissed⟩ := exists_missed_of_not_synced hproper hsync
    have hends := hproper.resident edge hedge
    have hindex : g.refreshedIndex = g.edgeSet := if_neg (not_not.mpr hcard)
    have hadded : (g.addEdge edge.source edge.target edge.weight edge.edgeType).2 = true := by
      unfold MemoryGraph.addEdge
      simp only [hindex]
      rw [if_neg (by simp [hends])]
      exact congrArg Prod.snd (if_neg hmissed)
    have hfree := ((hexact edge.source edge.target edge.weight edge.edgeType).1.mp hadded).2.2
    exact hfree edge hedge rfl
  · intro hsync source target weight edgeType
    exact addsExactly_of_synced hsync source target weight edgeType

/-! ## Whole runs -/

/-- The index can be trusted where the operation uses it. -/
def StepSynced (op : Op) (g : MemoryGraph) : Prop :=
  match op with
  | .addEdge _ _ _ _ => g.Synced
  | .resolveAll => g.pruneResolutionEdges.Synced
  | _ => True

instance (op : Op) (g : MemoryGraph) : Decidable (StepSynced op g) := by
  cases op <;> unfold StepSynced <;> infer_instance

def RunSynced (codec : Codec) : MemoryGraph → List Step → Prop
  | _, [] => True
  | g, step :: steps =>
    StepSynced step.2 g ∧ RunSynced codec (apply codec step.1 step.2 g) steps

instance decidableRunSynced (codec : Codec) :
    (g : MemoryGraph) → (steps : List Step) → Decidable (RunSynced codec g steps)
  | _, [] => isTrue trivial
  | g, step :: steps =>
    haveI := decidableRunSynced codec (apply codec step.1 step.2 g) steps
    inferInstanceAs (Decidable (StepSynced step.2 g ∧ _))

theorem ProperEdges.apply {g : MemoryGraph} (hproper : ProperEdges g) {op : Op}
    (hsync : StepSynced op g) : ProperEdges (apply codec judge op g) := by
  have hresident : NonDangling (MemoryGraph.apply codec judge op g) := hproper.resident.apply op
  refine stable.apply ?_ fun _ _ ↦ trivial
  cases op with
  | tick => exact ⟨hproper.distinct, hresident⟩
  | upsertNode id =>
    have hforget := hproper.of_hot (hot_forgetColdShadow g id)
    exact ⟨hforget.distinct, hforget.resident.insertNode id _ _⟩
  | addEdge => exact hproper.addEdge hsync _ _ _ _
  | removeNode id =>
    refine hproper.of_sublist ?_ hresident
    have hhot := hot_forgetColdShadow { g with nodes := g.nodes.erase id } id
    unfold started MemoryGraph.apply MemoryGraph.removeNode
    simp only []
    rw [edges_eq_of_hot hhot]
    exact List.filter_sublist
  | touch id =>
    refine hproper.of_sublist ?_ hresident
    unfold started MemoryGraph.apply MemoryGraph.touch
    simp only []
    split <;> exact List.Sublist.refl _
  | pruneDanglingEdges => exact hproper.prune
  | resolveAll => exact hproper.resolveAll hsync
  | _ => exact ⟨hproper.distinct, hproper.resident⟩

theorem ProperEdges.run {steps : List Step} {g : MemoryGraph} (hproper : ProperEdges g)
    (hsync : RunSynced codec g steps) : ProperEdges (run codec g steps) := by
  induction steps generalizing g with
  | nil => exact hproper
  | cons step steps ih => exact ih (hproper.apply hsync.1) hsync.2

/-- Along a run whose index can be trusted wherever it is used, no two edges share a key, no edge
dangles, and the next `add_edge` is right for all arguments exactly when its index can be trusted
too. -/
theorem run_addsExactly_iff (codec : Codec) (maxInMemoryNodes : ℕ) (steps : List Step)
    (hsync : RunSynced codec (MemoryGraph.new maxInMemoryNodes) steps) :
    ((run codec (MemoryGraph.new maxInMemoryNodes) steps).edges.map GraphEdge.triple).Nodup ∧
      (∀ edge ∈ (run codec (MemoryGraph.new maxInMemoryNodes) steps).edges,
        (run codec (MemoryGraph.new maxInMemoryNodes) steps).endpointsResident edge) ∧
      ((∀ source target weight edgeType,
          (run codec (MemoryGraph.new maxInMemoryNodes) steps).AddsExactly
            source target weight edgeType) ↔
        (run codec (MemoryGraph.new maxInMemoryNodes) steps).Synced) := by
  have hproper : ProperEdges (MemoryGraph.run codec (MemoryGraph.new maxInMemoryNodes) steps) :=
    (ProperEdges.new maxInMemoryNodes).run hsync
  refine ⟨hproper.distinct, ?_, addsExactly_iff_synced hproper⟩
  intro edge hedge
  exact endpointsResident_iff.mpr (hproper.resident edge hedge)

/-! ## A run that breaks it -/

/-- Equal scores everywhere, so that ties are broken by id. -/
def evenJudge : Judge where
  score := fun _ _ ↦ 0
  priority := fun _ _ ↦ 0
  huskBytes := fun _ ↦ 0
  sizeColdNode := 0
  sizeNodeId := 0
  sizeGraphEdge := 0
  sizeDeepHusk := 0

/-- A codec for runs without a spill store, which never use it. -/
def unusedCodec : Codec where
  sha256 := id
  toJson := fun _ ↦ []
  fromJson := fun _ ↦ none
  compactContent := fun _ content ↦ content

def evenSteps (ops : List Op) : List Step :=
  ops.map fun op ↦ (evenJudge, op)

/-- Two nodes with loops that take turns in a graph of one resident node. -/
def swappedLoops : List Op :=
  [.upsertNode ['a'] [] [] .unknown, .addEdge ['a'] ['a'] (.finite 1) .relatedTo,
    .upsertNode ['b'] [] [] .unknown, .addEdge ['b'] ['b'] (.finite 1) .relatedTo,
    .pageIn ['a']]

theorem run_addsExactly_swappedLoops :
    RunSynced unusedCodec (MemoryGraph.new 1) (evenSteps swappedLoops) ∧
      ((run unusedCodec (MemoryGraph.new 1) (evenSteps swappedLoops)).edges.map
        GraphEdge.triple).Nodup := by
  have hsync : RunSynced unusedCodec (MemoryGraph.new 1) (evenSteps swappedLoops) := by decide
  exact ⟨hsync, (run_addsExactly_iff unusedCodec 1 (evenSteps swappedLoops) hsync).1⟩

/-- After the swap the index still holds the key of the other loop, and its size is right. -/
theorem not_all_runs_keep_edges_distinct :
    ¬ ∀ (codec : Codec) (maxInMemoryNodes : ℕ) (steps : List Step),
      ((run codec (MemoryGraph.new maxInMemoryNodes) steps).edges.map GraphEdge.triple).Nodup := by
  intro hall
  have hdup := hall unusedCodec 1
    (evenSteps (swappedLoops ++ [.addEdge ['a'] ['a'] (.finite 1) .relatedTo]))
  revert hdup
  decide

end MemoryGraph

end SoulSystem.Ccos.Memory
