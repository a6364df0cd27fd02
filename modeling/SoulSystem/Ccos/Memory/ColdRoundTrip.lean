import SoulSystem.Ccos.Memory.EdgeIndex

/-!
# Demotion and page-in of causal structure

Without a spill store and without budgets, demotion moves every edge of a node into the node's COLD
entry, and a page-in brings back those whose other end is resident at that moment.  The others are
dropped with the entry.  The edges of the graph before the demotions are therefore, up to order,
the resident edges, the archived edges and the edges lost by page-ins, and all edges come back
exactly when the page-in order brings every archived neighbour before the node that holds the edge.
-/

namespace SoulSystem.Ccos.Memory

open List Std.ExtTreeMap SoulSystem.Library.SortedMap

namespace MemoryGraph

open Library

variable {codec : Codec} {judge : Judge}

/-! ## Graphs without a spill store -/

structure PlainCold (g : MemoryGraph) : Prop where
  spill : g.spill = none
  contentBudget : g.coldContentBudget = none
  residentBudget : g.coldResidentBudget = none
  husks : g.husks = ∅
  inline : ∀ (id : Str) (entry : ColdNode), g.cold[id]? = some entry → entry.spill = none

theorem enforceBudgets_of_plain {g : MemoryGraph} (hplain : PlainCold g) :
    enforceBudgets codec judge g = g := by
  have hcontent : enforceColdContentBudget codec judge g = g := by
    unfold enforceColdContentBudget
    rw [hplain.contentBudget]
  have hspill : enforceColdBudget codec judge g = g := by
    unfold enforceColdBudget
    rw [hplain.spill]
  have hresident : enforceColdResidentBudget codec judge g = g := by
    unfold enforceColdResidentBudget
    rw [hplain.residentBudget]
  rw [enforceBudgets, hcontent, hspill, hresident]

theorem pruneDanglingEdges_of_proper {g : MemoryGraph} (hproper : ProperEdges g) :
    g.pruneDanglingEdges = g := by
  have hedges : g.edges.filter g.endpointsResident = g.edges := by
    rw [filter_eq_self]
    intro edge hedge
    exact endpointsResident_iff.mpr (hproper.resident edge hedge)
  unfold pruneDanglingEdges
  rw [hedges]

/-! ## Where the edges are -/

/-- The edges in the COLD entries. -/
def archived (g : MemoryGraph) : List GraphEdge :=
  g.cold.toList.flatMap fun entry ↦ entry.2.edges

/-- The edges archived with one node. -/
def archivedWith (g : MemoryGraph) (id : Str) : List GraphEdge :=
  ((g.cold[id]?).map ColdNode.edges).getD []

/-- A graph that holds the nodes of `origin` in two tiers and its edges, except those lost. -/
structure Tracks (origin g : MemoryGraph) (lost : List GraphEdge) : Prop where
  plain : PlainCold g
  proper : ProperEdges g
  apart : ∀ id ∈ g.nodes, id ∉ g.cold
  ids : ∀ id, id ∈ origin.nodes ↔ id ∈ g.nodes ∨ id ∈ g.cold
  incident : ∀ (id : Str) (entry : ColdNode), g.cold[id]? = some entry →
    ∀ edge ∈ entry.edges, edge.touches id
  edges : (g.edges ++ g.archived ++ lost).Perm origin.edges

theorem archived_insert_perm {g h : MemoryGraph} {id : Str} {entry : ColdNode} (hid : id ∉ g.cold)
    (hcold : h.cold = g.cold.insert id entry) : h.archived.Perm (entry.edges ++ g.archived) := by
  unfold archived
  rw [hcold]
  have hperm := toList_insert_perm entry hid
  exact hperm.flatMap_right _

theorem archived_perm_erase {g h : MemoryGraph} {id : Str} {entry : ColdNode}
    (hentry : g.cold[id]? = some entry) (hcold : h.cold = g.cold.erase id) :
    g.archived.Perm (entry.edges ++ h.archived) := by
  unfold archived
  rw [hcold]
  have hperm := toList_perm_cons_erase hentry
  exact hperm.flatMap_right _

namespace Tracks

variable {origin g : MemoryGraph} {lost : List GraphEdge}

theorem refl (hplain : PlainCold origin) (hproper : ProperEdges origin) (hcold : origin.cold = ∅) :
    Tracks origin origin [] where
  plain := hplain
  proper := hproper
  apart := by
    intro id _
    rw [hcold]
    exact not_mem_empty
  ids := by
    intro id
    simp [hcold]
  incident := by
    intro id entry hentry
    simp [hcold] at hentry
  edges := by
    have hnone : origin.archived = [] := by simp [archived, hcold]
    rw [hnone, append_nil, append_nil]

theorem demote (htracks : Tracks origin g lost) (id : Str) : Tracks origin (g.demote id) lost := by
  have hproper := htracks.proper.demote id
  unfold MemoryGraph.demote at hproper ⊢
  split at hproper
  · exact htracks
  · rename_i node hnode
    have hid : id ∉ g.cold := htracks.apart id (mem_of_getElem?_eq_some hnode)
    constructor
    · refine ⟨htracks.plain.spill, htracks.plain.contentBudget, htracks.plain.residentBudget,
        htracks.plain.husks, ?_⟩
      intro other entry hentry
      by_cases hother : id = other
      · rw [← hother, getElem?_insert_self] at hentry
        cases hentry
        rfl
      · rw [getElem?_insert_ne _ hother] at hentry
        exact htracks.plain.inline other entry hentry
    · exact hproper
    · intro other hother
      rw [mem_erase_iff] at hother
      rw [SortedMap.mem_insert_iff]
      rintro (heq | hcold)
      · exact hother.1 heq
      · exact htracks.apart other hother.2 hcold
    · intro other
      rw [htracks.ids, mem_erase_iff, SortedMap.mem_insert_iff]
      have hresident : id ∈ g.nodes := mem_of_getElem?_eq_some hnode
      by_cases hother : other = id
      · simp [hother, hresident]
      · simp [hother]
    · intro other entry hentry edge hedge
      by_cases hother : id = other
      · rw [← hother, getElem?_insert_self] at hentry
        cases hentry
        rw [← hother]
        exact (List.mem_filter.mp hedge).2
      · rw [getElem?_insert_ne _ hother] at hentry
        exact htracks.incident other entry hentry edge hedge
    · have hsplit := filter_append_perm (fun edge ↦ edge.touches id) g.edges
      refine List.Perm.trans ?_ htracks.edges
      apply List.Perm.append_right
      refine ((archived_insert_perm hid rfl).append_left _).trans ?_
      rw [← append_assoc]
      exact (List.perm_append_comm.trans hsplit).append_right _

theorem foldl_demote (htracks : Tracks origin g lost) (ids : List Str) :
    Tracks origin (ids.foldl MemoryGraph.demote g) lost := by
  induction ids generalizing g with
  | nil => exact htracks
  | cons id ids ih => exact ih (htracks.demote id)

theorem setMax (htracks : Tracks origin g lost) (cap : ℕ) :
    Tracks origin { g with maxInMemoryNodes := cap } lost where
  plain := ⟨htracks.plain.spill, htracks.plain.contentBudget, htracks.plain.residentBudget,
    htracks.plain.husks, htracks.plain.inline⟩
  proper := ⟨htracks.proper.distinct, htracks.proper.resident⟩
  apart := htracks.apart
  ids := htracks.ids
  incident := htracks.incident
  edges := htracks.edges

theorem enforcePaging (htracks : Tracks origin g lost) :
    Tracks origin (enforcePaging codec judge g) lost := by
  unfold MemoryGraph.enforcePaging
  split
  · exact htracks
  · have hdemoted := htracks.foldl_demote
      ((rankedIds (judge.priority g) g.nodes.toList).take (g.nodes.size - g.maxInMemoryNodes))
    simp only []
    rw [pruneDanglingEdges_of_proper hdemoted.proper, enforceBudgets_of_plain hdemoted.plain]
    exact hdemoted

end Tracks

/-! ## One page-in -/

/-- The graph after a page-in that evicts nothing. -/
def pagedBack (g : MemoryGraph) (id : Str) (entry : ColdNode) : MemoryGraph :=
  let returned := { g with
    cold := g.cold.erase id
    nodes := g.nodes.insert id (pagedIn entry.node g.clock) }
  { returned with edges := g.edges ++ entry.edges.filter returned.endpointsResident }

/-- The archived edges that the page-in of a node drops. -/
def droppedBy (g : MemoryGraph) (id : Str) (entry : ColdNode) : List GraphEdge :=
  entry.edges.filter fun edge ↦ !(g.pagedBack id entry).endpointsResident edge

/-- Edges with new keys are re-linked as far as their ends are resident. -/
theorem foldl_relink_eq (edges : List GraphEdge) (g : MemoryGraph)
    (hkeys : ((g.edges ++ edges).map GraphEdge.triple).Nodup) :
    edges.foldl relink g = { g with edges := g.edges ++ edges.filter g.endpointsResident } := by
  induction edges generalizing g with
  | nil => simp
  | cons edge edges ih =>
    have hfree : (g.edges.any fun other ↦ other.triple == edge.triple) = false := by
      rw [any_eq_false]
      intro other hother heq
      rw [map_append, nodup_append] at hkeys
      refine hkeys.2.2 other.triple (mem_map_of_mem hother) edge.triple ?_ (by simpa using heq)
      exact mem_map_of_mem mem_cons_self
    rw [foldl_cons, relink]
    by_cases hends : g.endpointsResident edge = true
    · rw [hfree, hends]
      simp only [Bool.not_false, Bool.and_true, if_true]
      have hmore : ((g.edges ++ [edge] ++ edges).map GraphEdge.triple).Nodup := by
        rwa [append_assoc]
      rw [ih _ hmore, filter_cons_of_pos hends, append_assoc]
      rfl
    · rw [Bool.not_eq_true] at hends
      rw [hends]
      simp only [Bool.false_and, Bool.false_eq_true, if_false]
      have hfewer : ((g.edges ++ edges).map GraphEdge.triple).Nodup := by
        exact hkeys.sublist (((sublist_cons_self edge edges).append_left g.edges).map _)
      rw [ih _ hfewer, filter_cons_of_neg (by simp [hends])]

namespace Tracks

variable {origin g : MemoryGraph} {lost : List GraphEdge} {id : Str} {entry : ColdNode}

theorem nodup_edges_append (htracks : Tracks origin g lost) (horigin : ProperEdges origin)
    (hentry : g.cold[id]? = some entry) :
    ((g.edges ++ entry.edges).map GraphEdge.triple).Nodup := by
  have hall : ((g.edges ++ g.archived ++ lost).map GraphEdge.triple).Nodup :=
    ((htracks.edges.map GraphEdge.triple).nodup_iff).mpr horigin.distinct
  have hheld : ((g.edges ++ g.archived).map GraphEdge.triple).Nodup :=
    hall.sublist ((sublist_append_left _ lost).map _)
  have hperm : (g.edges ++ g.archived).Perm
      (g.edges ++ (entry.edges ++ ({ g with cold := g.cold.erase id } : MemoryGraph).archived)) :=
    (archived_perm_erase hentry rfl).append_left g.edges
  have hsplit := ((hperm.map GraphEdge.triple).nodup_iff).mp hheld
  rw [← append_assoc] at hsplit
  exact hsplit.sublist ((sublist_append_left _ _).map _)

theorem restore_eq (htracks : Tracks origin g lost) (horigin : ProperEdges origin)
    (hentry : g.cold[id]? = some entry) : g.restore id entry = g.pagedBack id entry := by
  unfold restore
  exact foldl_relink_eq entry.edges _ (htracks.nodup_edges_append horigin hentry)

theorem pagedBack (htracks : Tracks origin g lost) (horigin : ProperEdges origin)
    (hentry : g.cold[id]? = some entry) :
    Tracks origin (g.pagedBack id entry) (g.droppedBy id entry ++ lost) := by
  have hcold : id ∈ g.cold := mem_of_getElem?_eq_some hentry
  constructor
  · refine ⟨htracks.plain.spill, htracks.plain.contentBudget, htracks.plain.residentBudget,
      htracks.plain.husks, ?_⟩
    intro other rest hother
    have hne : id ≠ other := by
      rintro rfl
      rw [MemoryGraph.pagedBack, getElem?_erase_self] at hother
      cases hother
    rw [MemoryGraph.pagedBack, getElem?_erase_ne hne] at hother
    exact htracks.plain.inline other rest hother
  · rw [← htracks.restore_eq horigin hentry]
    exact htracks.proper.restore id entry
  · intro other hother
    rw [MemoryGraph.pagedBack, SortedMap.mem_insert_iff] at hother
    rw [MemoryGraph.pagedBack, mem_erase_iff]
    rintro ⟨hne, hstill⟩
    rcases hother with heq | hresident
    · exact hne heq
    · exact htracks.apart other hresident hstill
  · intro other
    rw [htracks.ids, MemoryGraph.pagedBack, SortedMap.mem_insert_iff, mem_erase_iff]
    by_cases hother : other = id
    · simp [hother, hcold]
    · simp [hother]
  · intro other rest hother
    have hne : id ≠ other := by
      rintro rfl
      rw [MemoryGraph.pagedBack, getElem?_erase_self] at hother
      cases hother
    rw [MemoryGraph.pagedBack, getElem?_erase_ne hne] at hother
    exact htracks.incident other rest hother
  · have harchived : g.archived.Perm (entry.edges ++ (g.pagedBack id entry).archived) :=
      archived_perm_erase hentry rfl
    have hsplit : (entry.edges.filter (g.pagedBack id entry).endpointsResident ++
        g.droppedBy id entry).Perm entry.edges :=
      filter_append_perm _ entry.edges
    have hedges : (g.pagedBack id entry).edges =
        g.edges ++ entry.edges.filter (g.pagedBack id entry).endpointsResident := rfl
    refine List.Perm.trans ?_ htracks.edges
    rw [perm_iff_count]
    intro edge
    have harchivedCount := harchived.count_eq edge
    have hsplitCount := hsplit.count_eq edge
    rw [count_append] at harchivedCount hsplitCount
    rw [hedges]
    simp only [count_append]
    omega

/-- With room for one more node, a page-in of a COLD node only brings back. -/
theorem pageIn_eq (htracks : Tracks origin g lost) (horigin : ProperEdges origin)
    (hentry : g.cold[id]? = some entry) (hroom : g.nodes.size < g.maxInMemoryNodes) :
    (pageIn codec judge g id).1 = g.pagedBack id entry := by
  have hback := htracks.pagedBack horigin hentry
  have hhusk : faultHusk codec g id = some g := by
    unfold faultHusk
    rw [htracks.plain.husks]
    simp
  have hcontent : faultContent codec g id = some g := by
    unfold faultContent
    simp only [hentry, htracks.plain.inline id entry hentry]
  have hsize : (g.pagedBack id entry).nodes.size ≤ (g.pagedBack id entry).maxInMemoryNodes :=
    le_trans size_insert_le hroom
  have hswap : ∀ fuel, swapOut judge id fuel (g.pagedBack id entry) = g.pagedBack id entry := by
    intro fuel
    cases fuel with
    | zero => rfl
    | succ fuel => exact if_pos hsize
  unfold MemoryGraph.pageIn
  simp only [hhusk, hcontent, hentry, htracks.restore_eq horigin hentry, hswap]
  rw [pruneDanglingEdges_of_proper hback.proper, enforceBudgets_of_plain hback.plain]

/-- Nothing is dropped exactly when the other end of every archived edge is resident. -/
theorem droppedBy_eq_nil_iff (htracks : Tracks origin g lost) (hentry : g.cold[id]? = some entry) :
    g.droppedBy id entry = [] ↔
      ∀ edge ∈ entry.edges, edge.other id = id ∨ edge.other id ∈ g.nodes := by
  unfold droppedBy
  rw [filter_eq_nil_iff]
  apply forall₂_congr
  intro edge hedge
  have htouches := htracks.incident id entry hentry edge hedge
  rw [Bool.not_eq_true', Bool.not_eq_false, endpointsResident_iff, MemoryGraph.pagedBack,
    SortedMap.mem_insert_iff, SortedMap.mem_insert_iff]
  unfold GraphEdge.other
  simp only [GraphEdge.touches, Bool.or_eq_true, beq_iff_eq] at htouches
  split
  · rename_i hsource
    simp [hsource]
  · rename_i hsource
    have htarget := htouches.resolve_left hsource
    simp [hsource, htarget]

end Tracks

/-! ## Page-ins in any order -/

/-- Demotions under a sequence of caps. -/
def demoteUnder (codec : Codec) (g : MemoryGraph) (caps : List (Judge × ℕ)) : MemoryGraph :=
  caps.foldl (fun g cap ↦ enforcePaging codec cap.1 { g with maxInMemoryNodes := cap.2 }) g

def pageInAll (codec : Codec) (g : MemoryGraph) (order : List (Judge × Str)) : MemoryGraph :=
  order.foldl (fun g page ↦ (pageIn codec page.1 g page.2).1) g

/-- Every archived edge has its other end resident, or paged in before its holder. -/
def NeighboursFirst (g : MemoryGraph) (before : List Str) : List Str → Prop
  | [] => True
  | id :: order =>
    (∀ edge ∈ g.archivedWith id,
      edge.other id = id ∨ edge.other id ∈ g.nodes ∨ edge.other id ∈ before) ∧
    NeighboursFirst g (id :: before) order

instance decidableNeighboursFirst (g : MemoryGraph) :
    (before order : List Str) → Decidable (g.NeighboursFirst before order)
  | _, [] => isTrue trivial
  | before, id :: order =>
    haveI := decidableNeighboursFirst g (id :: before) order
    inferInstanceAs (Decidable ((∀ edge ∈ g.archivedWith id, _) ∧ _))

/-- Only the edges archived with the nodes of the order and the nodes present matter. -/
theorem neighboursFirst_congr {g h : MemoryGraph} (order : List Str) :
    ∀ before others : List Str,
      (∀ id ∈ order, h.archivedWith id = g.archivedWith id) →
      (∀ id, id ∈ h.nodes ∨ id ∈ before ↔ id ∈ g.nodes ∨ id ∈ others) →
      (h.NeighboursFirst before order ↔ g.NeighboursFirst others order) := by
  induction order with
  | nil =>
    intro before others _ _
    exact Iff.rfl
  | cons id order ih =>
    intro before others hedges hpresent
    unfold NeighboursFirst
    rw [hedges id mem_cons_self]
    apply and_congr
    · apply forall₂_congr
      intro edge _
      rw [hpresent]
    · apply ih
      · intro other hother
        exact hedges other (mem_cons_of_mem id hother)
      · intro other
        have hother := hpresent other
        simp only [mem_cons]
        tauto

theorem archivedWith_pagedBack {g : MemoryGraph} {id other : Str} (entry : ColdNode)
    (hne : other ≠ id) : (g.pagedBack id entry).archivedWith other = g.archivedWith other := by
  unfold archivedWith MemoryGraph.pagedBack
  rw [getElem?_erase_ne hne.symm]

namespace Tracks

variable {origin g : MemoryGraph} {lost : List GraphEdge}

theorem demoteUnder (htracks : Tracks origin g lost) (caps : List (Judge × ℕ)) :
    Tracks origin (demoteUnder codec g caps) lost := by
  induction caps generalizing g with
  | nil => exact htracks
  | cons cap caps ih => exact ih (htracks.setMax cap.2).enforcePaging

/-- The page-ins of distinct COLD nodes into a graph with room for all of them. -/
theorem pageInAll (htracks : Tracks origin g lost) (horigin : ProperEdges origin)
    (order : List (Judge × Str)) (hnodup : (order.map Prod.snd).Nodup)
    (hcold : ∀ id ∈ order.map Prod.snd, id ∈ g.cold)
    (hroom : g.nodes.size + g.cold.size ≤ g.maxInMemoryNodes) :
    ∃ dropped, Tracks origin (pageInAll codec g order) dropped ∧
      (dropped = [] ↔ lost = [] ∧ g.NeighboursFirst [] (order.map Prod.snd)) ∧
      ∀ id, id ∈ (MemoryGraph.pageInAll codec g order).cold ↔
        id ∈ g.cold ∧ id ∉ order.map Prod.snd := by
  induction order generalizing g lost with
  | nil => exact ⟨lost, htracks, by simp [NeighboursFirst], by simp [MemoryGraph.pageInAll]⟩
  | cons page order ih =>
    obtain ⟨judge, id⟩ := page
    rw [map_cons, nodup_cons] at hnodup
    simp only [map_cons, mem_cons] at hcold
    have hid : id ∈ g.cold := hcold id (.inl rfl)
    obtain ⟨entry, hentry⟩ := exists_getElem?_of_mem hid
    have hpos : 0 < g.cold.size := size_pos_of_mem hid
    have hstep : (pageIn codec judge g id).1 = g.pagedBack id entry :=
      htracks.pageIn_eq horigin hentry (by omega)
    have hback := htracks.pagedBack horigin hentry
    have hrest : ∀ other ∈ order.map Prod.snd, other ∈ (g.pagedBack id entry).cold := by
      intro other hother
      have hne : other ≠ id := by
        rintro rfl
        exact hnodup.1 hother
      exact SortedMap.mem_erase_iff.mpr ⟨hne, hcold other (.inr hother)⟩
    have hresident : id ∉ g.nodes := fun hmem ↦ htracks.apart id hmem hid
    have hsizes : (g.pagedBack id entry).nodes.size + (g.pagedBack id entry).cold.size ≤
        (g.pagedBack id entry).maxInMemoryNodes := by
      have hnodes : (g.pagedBack id entry).nodes.size = g.nodes.size + 1 := by
        unfold MemoryGraph.pagedBack
        rw [size_insert, if_neg (by simpa using hresident)]
      have hentries : (g.pagedBack id entry).cold.size = g.cold.size - 1 := by
        unfold MemoryGraph.pagedBack
        rw [size_erase, if_pos (by simpa using hid)]
      have hcap : (g.pagedBack id entry).maxInMemoryNodes = g.maxInMemoryNodes := rfl
      omega
    obtain ⟨dropped, hend, hdropped, hleft⟩ := ih hback hnodup.2 hrest hsizes
    have hwhole : MemoryGraph.pageInAll codec g ((judge, id) :: order) =
        MemoryGraph.pageInAll codec (g.pagedBack id entry) order := by
      rw [← hstep]
      rfl
    rw [hwhole]
    refine ⟨dropped, hend, ?_, ?_⟩
    · have hwith : g.archivedWith id = entry.edges := by
        simp [archivedWith, hentry]
      have hcongr : (g.pagedBack id entry).NeighboursFirst [] (order.map Prod.snd) ↔
          g.NeighboursFirst [id] (order.map Prod.snd) := by
        apply neighboursFirst_congr
        · intro other hother
          apply archivedWith_pagedBack
          rintro rfl
          exact hnodup.1 hother
        · intro other
          unfold MemoryGraph.pagedBack
          simp only [SortedMap.mem_insert_iff, mem_singleton, not_mem_nil, or_false]
          exact or_comm
      rw [hdropped, append_eq_nil_iff, htracks.droppedBy_eq_nil_iff hentry, hcongr]
      simp only [map_cons, NeighboursFirst, hwith, not_mem_nil, or_false]
      tauto
    · intro other
      rw [hleft]
      simp only [map_cons, mem_cons, not_or]
      unfold MemoryGraph.pagedBack
      simp only [mem_erase_iff]
      tauto

end Tracks

/-! ## The round trip -/

/-- What the round trip should keep of an edge. -/
def weighted (edge : GraphEdge) : Str × Str × EdgeType × F64 :=
  (edge.source, edge.target, edge.edgeType, edge.weight)

/-- Of edges with distinct keys, some were lost exactly when the set of edges has changed. -/
theorem weighted_eq_iff_lost_eq_nil {edges lost whole : List GraphEdge}
    (hperm : (edges ++ lost).Perm whole) (hkeys : (whole.map GraphEdge.triple).Nodup) :
    (∀ key, key ∈ edges.map weighted ↔ key ∈ whole.map weighted) ↔ lost = [] := by
  constructor
  · intro hsame
    rw [eq_nil_iff_forall_not_mem]
    intro edge hedge
    have hwhole : edge ∈ whole := hperm.subset (mem_append_right edges hedge)
    obtain ⟨other, hother, heq⟩ := List.mem_map.mp ((hsame _).mpr (mem_map_of_mem hwhole))
    have htriple : other.triple = edge.triple := by
      simp only [weighted, Prod.mk.injEq] at heq
      simp [GraphEdge.triple, heq]
    have hnodup : ((edges ++ lost).map GraphEdge.triple).Nodup :=
      ((hperm.map GraphEdge.triple).nodup_iff).mpr hkeys
    rw [map_append, nodup_append] at hnodup
    exact hnodup.2.2 _ (mem_map_of_mem hother) _ (mem_map_of_mem hedge) htriple
  · rintro rfl key
    rw [append_nil] at hperm
    exact (hperm.map weighted).mem_iff

/-- After demotions under any caps and page-ins of all COLD nodes with room for everything, the
resident nodes are those of the beginning, and the edges are exactly when every archived edge had
its other end back before its holder. -/
theorem pageInAll_restores_iff (codec : Codec) (g : MemoryGraph) (hplain : PlainCold g)
    (hproper : ProperEdges g) (hcold : g.cold = ∅) (caps : List (Judge × ℕ)) (cap : ℕ)
    (order : List (Judge × Str))
    (horder : (order.map Prod.snd).Perm (demoteUnder codec g caps).cold.keys)
    (hroom : (demoteUnder codec g caps).nodes.size + (demoteUnder codec g caps).cold.size ≤ cap) :
    (∀ id, id ∈ (pageInAll codec { demoteUnder codec g caps with maxInMemoryNodes := cap }
        order).nodes ↔ id ∈ g.nodes) ∧
      ((∀ key, key ∈ (pageInAll codec { demoteUnder codec g caps with maxInMemoryNodes := cap }
          order).edges.map weighted ↔ key ∈ g.edges.map weighted) ↔
        (demoteUnder codec g caps).NeighboursFirst [] (order.map Prod.snd)) := by
  have hdemoted : Tracks g (demoteUnder codec g caps) [] :=
    (Tracks.refl hplain hproper hcold).demoteUnder caps
  have hnodup : (order.map Prod.snd).Nodup :=
    horder.nodup_iff.mpr (SortedMap.nodup_keys _)
  have hids : ∀ id ∈ order.map Prod.snd, id ∈ (demoteUnder codec g caps).cold := by
    intro id hid
    exact Std.ExtTreeMap.mem_keys.mp (horder.subset hid)
  obtain ⟨dropped, hend, hdropped, hleft⟩ :=
    @Tracks.pageInAll codec _ _ _ (hdemoted.setMax cap) hproper order hnodup hids hroom
  set final := pageInAll codec { demoteUnder codec g caps with maxInMemoryNodes := cap } order
  have hempty : ∀ id, id ∉ final.cold := by
    intro id hid
    rw [hleft] at hid
    exact hid.2 (horder.mem_iff.mpr (Std.ExtTreeMap.mem_keys.mpr hid.1))
  have harchived : final.archived = [] := by
    have hnone : final.cold = ∅ := by
      apply Std.ExtTreeMap.ext_getElem?
      intro id
      rw [SortedMap.getElem?_eq_none_iff.mpr (hempty id)]
      simp
    simp [archived, hnone]
  constructor
  · intro id
    rw [hend.ids]
    simp [hempty id]
  · have hedges := hend.edges
    rw [harchived, append_nil] at hedges
    rw [weighted_eq_iff_lost_eq_nil hedges hproper.distinct, hdropped]
    have hcongr : MemoryGraph.NeighboursFirst
        { demoteUnder codec g caps with maxInMemoryNodes := cap } [] (order.map Prod.snd) ↔
          (demoteUnder codec g caps).NeighboursFirst [] (order.map Prod.snd) :=
      neighboursFirst_congr _ [] [] (fun _ _ ↦ rfl) fun _ ↦ Iff.rfl
    simpa using hcongr

/-! ## Two linked nodes -/

/-- Two resident nodes with an edge between them. -/
def linkedPair : MemoryGraph :=
  { MemoryGraph.new 2 with
    nodes := ((∅ : Std.ExtTreeMap Str GraphNode).insert ['a']
      (freshNode ['a'] [] [] .unknown 0)).insert ['b'] (freshNode ['b'] [] [] .unknown 0)
    edges := [⟨['a'], ['b'], .finite 1, .dependsOn, 0⟩] }

theorem linkedPair_plain : PlainCold linkedPair where
  spill := rfl
  contentBudget := rfl
  residentBudget := rfl
  husks := rfl
  inline := by
    intro id entry hentry
    have hnone : linkedPair.cold = ∅ := rfl
    simp [hnone] at hentry

theorem linkedPair_proper : ProperEdges linkedPair where
  distinct := by decide
  resident := by decide

/-- Paged in after its neighbour, the holder of the edge links it again. -/
theorem pageInAll_restores_linkedPair :
    (demoteUnder unusedCodec linkedPair [(evenJudge, 0)]).NeighboursFirst [] [['b'], ['a']] ∧
      ∀ key, key ∈ (pageInAll unusedCodec { demoteUnder unusedCodec linkedPair [(evenJudge, 0)] with
          maxInMemoryNodes := 2 } [(evenJudge, ['b']), (evenJudge, ['a'])]).edges.map weighted ↔
        key ∈ linkedPair.edges.map weighted := by
  have hfirst : (demoteUnder unusedCodec linkedPair [(evenJudge, 0)]).NeighboursFirst []
      [['b'], ['a']] := by decide
  have hiff := (pageInAll_restores_iff unusedCodec linkedPair linkedPair_plain linkedPair_proper rfl
    [(evenJudge, 0)] 2 [(evenJudge, ['b']), (evenJudge, ['a'])] (by decide) (by decide)).2
  exact ⟨hfirst, hiff.mpr hfirst⟩

/-- Paged in first, it drops the edge. -/
theorem not_all_pageIn_orders_restore :
    ¬ ∀ (codec : Codec) (g : MemoryGraph), PlainCold g → ProperEdges g → g.cold = ∅ →
      ∀ (caps : List (Judge × ℕ)) (cap : ℕ) (order : List (Judge × Str)),
        (order.map Prod.snd).Perm (demoteUnder codec g caps).cold.keys →
        (demoteUnder codec g caps).nodes.size + (demoteUnder codec g caps).cold.size ≤ cap →
        ∀ key, key ∈ (pageInAll codec { demoteUnder codec g caps with maxInMemoryNodes := cap }
          order).edges.map weighted ↔ key ∈ g.edges.map weighted := by
  intro hall
  have hsame := hall unusedCodec linkedPair linkedPair_plain linkedPair_proper rfl
    [(evenJudge, 0)] 2 [(evenJudge, ['a']), (evenJudge, ['b'])] (by decide) (by decide)
    (['a'], ['b'], .dependsOn, .finite 1)
  revert hsame
  decide

end MemoryGraph

end SoulSystem.Ccos.Memory
