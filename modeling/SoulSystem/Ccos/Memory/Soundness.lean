import SoulSystem.Ccos.Memory.NoLoss

/-!
# What the memory shows

What a memory shows of an id is what its node says after a page-in.  In a sound state this is what
the last upsert of the id said, whatever tier the id is in.  The edges that it knows are the
resident edges and the edges archived in the entries and husks of the COLD tier.

Paging moves nodes and edges between the tiers and changes neither.
-/

namespace SoulSystem.Ccos.Memory

open Library SortedMap

/-- A serialised entry comes back with its edges too. -/
structure Codec.KeepsEdges (codec : Codec) : Prop extends codec.Faithful where
  edges : ∀ entry parsed : ColdNode, entry.spill = none →
    codec.fromJson (codec.toJson entry) = some parsed →
    parsed.edges.map GraphEdge.triple = entry.edges.map GraphEdge.triple

/-- No husk loses its body, and every archived entry has a JSON form. -/
def Event.Spares (event : Event) : Prop :=
  event.SparesHusks ∧ event.ArchivesFinite

instance (event : Event) : Decidable event.Spares :=
  inferInstanceAs (Decidable (_ ∧ _))

namespace MemoryGraph

variable {codec : Codec} {judge : Judge}

/-! ## Sound states -/

/-- What is seen of an id after a page-in. -/
def seen (codec : Codec) (judge : Judge) (g : MemoryGraph) (id : Str) : Option Upsert :=
  ((pageIn codec judge g id).1.nodes[id]?).map GraphNode.told

/-- The tiers hold the known ids, each in one tier and with what was said about it, and the store
holds what they refer to. -/
structure Sound (codec : Codec) (known : Std.ExtTreeMap Str Upsert) (g : MemoryGraph) : Prop where
  tiers : TierInvariant (fun id ↦ id ∈ known) g
  kept : Kept codec known g
  exact : StoreExact codec g
  nonDangling : NonDangling g

namespace Sound

variable {known : Std.ExtTreeMap Str Upsert} {g h : MemoryGraph} {id : Str}

theorem inTier_iff (hsound : Sound codec known g) : g.InTier id ↔ id ∈ known :=
  (hsound.tiers.tiered.covers id).symm

theorem new (maxInMemoryNodes : ℕ) : Sound codec ∅ (MemoryGraph.new maxInMemoryNodes) where
  tiers := TierInvariant.new maxInMemoryNodes
  kept := Kept.new maxInMemoryNodes
  exact := StoreExact.new maxInMemoryNodes
  nonDangling := by
    intro edge hedge
    cases hedge

theorem apply (hcodec : codec.Faithful) (hsound : Sound codec known g) (op : Op)
    (hattach : AttachesOnce op g) (hcontent : op.KeepsContent)
    (hgood : ∀ event ∈ events codec judge op g, event.Spares) :
    Sound codec (latest known op) (apply codec judge op g) where
  tiers := hsound.tiers.apply hattach
  kept := hsound.kept.apply hcodec hcontent fun event hevent ↦ (hgood event hevent).2
  exact := hsound.exact.apply hcodec.toSeparates hsound.tiers hattach fun event hevent ↦
    (hgood event hevent).1
  nonDangling := hsound.nonDangling.apply op

theorem run {steps : List Step} (hcodec : codec.Faithful) (hsound : Sound codec known g)
    (hattached : StaysAttached codec g steps) (hcontent : ∀ step ∈ steps, step.2.KeepsContent)
    (hgood : ∀ event ∈ runEvents codec g steps, event.Spares) :
    Sound codec (knownAfter known steps) (run codec g steps) where
  tiers := hsound.tiers.run hattached
  kept := hsound.kept.run hcodec hcontent fun event hevent ↦ (hgood event hevent).2
  exact := hsound.exact.run hcodec.toSeparates hsound.tiers hattached fun event hevent ↦
    (hgood event hevent).1
  nonDangling := hsound.nonDangling.run steps

/-- Soundness reads the tiers, the edges and the content budget; of a node it reads what it says. -/
theorem map_nodes (hsound : Sound codec known g) {f : Str → GraphNode → GraphNode}
    (hnodes : h.nodes = g.nodes.map f) (hf : ∀ id node, (f id node).told = node.told)
    (hcold : h.cold = g.cold) (hhusks : h.husks = g.husks) (hspill : h.spill = g.spill)
    (hbudget : h.coldContentBudget = g.coldContentBudget) (hedges : h.edges = g.edges) :
    Sound codec known h where
  tiers := by
    refine hsound.tiers.same ?_ hcold hhusks hspill
    intro id
    rw [hnodes]
    exact Std.ExtTreeMap.mem_map
  kept := by
    refine hsound.kept.congr ?_ hcold hhusks hspill hbudget
    rw [hnodes]
    apply hsound.kept.nodes.map
    intro id node up htold
    exact (hf id node).trans htold
  exact := hsound.exact.congr hcold hhusks hspill
  nonDangling := by
    refine hsound.nonDangling.of_subset (fun edge hedge ↦ by rwa [hedges] at hedge) ?_
    intro id hid
    rw [hnodes]
    exact Std.ExtTreeMap.mem_map.mpr hid

/-- In a sound state every page-in shows what is known. -/
theorem seen_eq (hcodec : codec.Faithful) (hsound : Sound codec known g) (judge : Judge)
    (id : Str) : seen codec judge g id = known[id]? := by
  have hapart := hsound.tiers.tiered.apart
  by_cases hcold : id ∈ g.cold ∨ id ∈ g.husks
  · obtain ⟨node, hnode, htold, _⟩ := hsound.kept.pageIn hcodec hsound.exact hapart hcold
    rw [seen, hnode, htold]
    rfl
  · have hhusk : g.husks[id]? = none := getElem?_eq_none_iff.mpr fun hid ↦ hcold (.inr hid)
    have hfull : g.cold[id]? = none := getElem?_eq_none_iff.mpr fun hid ↦ hcold (.inl hid)
    have hsame : (pageIn codec judge g id).1 = g := by
      simp only [MemoryGraph.pageIn, MemoryGraph.faultHusk, MemoryGraph.faultContent, hhusk, hfull]
    rw [seen, hsame]
    cases hnode : g.nodes[id]? with
    | some node =>
      obtain ⟨up, hup, htold⟩ := hsound.kept.nodes id node hnode
      rw [hup, Option.map_some, htold]
    | none =>
      have hunknown : id ∉ known := by
        rw [← hsound.inTier_iff]
        rintro (hid | hid)
        · exact getElem?_eq_none_iff.mp hnode hid
        · exact hcold hid
      rw [getElem?_eq_none_iff.mpr hunknown]
      rfl

end Sound

/-! ## Known edges -/

/-- An entry with an edge of this key. -/
def Archives (key : Triple) (entry : ColdNode) : Prop :=
  key ∈ entry.edges.map GraphEdge.triple

/-- A text with the hash of the body of a husk describes an entry with an edge of this key. -/
def HuskArchives (codec : Codec) (key : Triple) (husk : DeepHusk) : Prop :=
  ∃ (text : Str) (entry : ColdNode), codec.sha256 text = husk.body.hash ∧
    codec.fromJson text = some entry ∧ Archives key entry

/-- The memory has an edge of this key in some tier. -/
def Knows (codec : Codec) (g : MemoryGraph) (key : Triple) : Prop :=
  key ∈ g.edges.map GraphEdge.triple ∨ AnyValue g.cold (Archives key) ∨
    AnyValue g.husks (HuskArchives codec key)

/-- The tiers are apart and the memory knows a given set of edges. -/
structure KnowsExactly (codec : Codec) (keys : Triple → Prop) (g : MemoryGraph) : Prop where
  apart : Apart g
  nonDangling : NonDangling g
  knows : ∀ key, g.Knows codec key ↔ keys key

namespace KnowsExactly

variable {keys : Triple → Prop} {g h : MemoryGraph} {id : Str}

/-- A demotion archives the edges that it takes from the resident graph. -/
theorem demote (hknows : KnowsExactly codec keys g) : KnowsExactly codec keys (g.demote id) where
  apart := (Apart.stable codec).demote g id hknows.apart
  nonDangling := hknows.nonDangling.demote id
  knows := by
    intro key
    rw [← hknows.knows key]
    unfold MemoryGraph.demote
    split
    · rfl
    · rename_i node hnode
      have hfresh : id ∉ g.cold := hknows.apart.nodes_cold id (mem_of_getElem?_eq_some hnode)
      have hsplit : key ∈ g.edges.map GraphEdge.triple ↔
          key ∈ (g.edges.filter fun edge ↦ !edge.touches id).map GraphEdge.triple ∨
          key ∈ (g.edges.filter fun edge ↦ edge.touches id).map GraphEdge.triple := by
        simp only [List.mem_map, List.mem_filter]
        constructor
        · rintro ⟨edge, hedge, rfl⟩
          cases htouches : edge.touches id with
          | true => exact .inr ⟨edge, ⟨hedge, htouches⟩, rfl⟩
          | false => exact .inl ⟨edge, ⟨hedge, by rw [htouches]; rfl⟩, rfl⟩
        · rintro (⟨edge, hedge, rfl⟩ | ⟨edge, hedge, rfl⟩)
          · exact ⟨edge, hedge.1, rfl⟩
          · exact ⟨edge, hedge.1, rfl⟩
      rw [Knows, Knows, hsplit, anyValue_insert_of_notMem hfresh]
      simp only [Archives, or_assoc]

theorem foldl_demote (hknows : KnowsExactly codec keys g) (ids : List Str) :
    KnowsExactly codec keys (ids.foldl MemoryGraph.demote g) := by
  induction ids generalizing g with
  | nil => exact hknows
  | cons id ids ih => exact ih hknows.demote

/-- There is nothing to prune. -/
theorem prune (hknows : KnowsExactly codec keys g) :
    KnowsExactly codec keys g.pruneDanglingEdges := by
  have hsame : g.pruneDanglingEdges = g := by
    unfold pruneDanglingEdges
    congr
    rw [List.filter_eq_self]
    intro edge hedge
    exact endpointsResident_iff.mpr (hknows.nonDangling edge hedge)
  rwa [hsame]

/-- The husk of an entry archives the edges of the entry. -/
theorem huskArchives_iff {entry : ColdNode} {husk : DeepHusk} {key : Triple}
    (hcodec : codec.KeepsEdges) (hspill : entry.spill = none) (hfinite : entry.IsFinite)
    (hhash : husk.body.hash = codec.sha256 (codec.toJson entry)) :
    HuskArchives codec key husk ↔ Archives key entry := by
  obtain ⟨parsed, hparsed, _⟩ := hcodec.reads entry hspill hfinite
  constructor
  · rintro ⟨text, found, hsha, hjson, hkey⟩
    rw [hhash] at hsha
    rw [hcodec.injective hsha] at hjson
    rwa [Archives, ← hcodec.edges entry found hspill hjson]
  · intro hkey
    refine ⟨codec.toJson entry, parsed, hhash.symm, hparsed, ?_⟩
    rwa [Archives, hcodec.edges entry parsed hspill hparsed]

/-- The budget passes archive what they find archived. -/
theorem settles (hcodec : codec.KeepsEdges) (keys : Triple → Prop) :
    Settles codec Event.ArchivesFinite (KnowsExactly codec keys) := by
  apply Settles.of_shapes
  · intro g h id entry other hknows hmove
    refine ⟨((Tiered.of_apart hknows.apart).rewrites hmove).apart,
      hknows.nonDangling.of_hot hmove.hot, ?_⟩
    intro key
    have hsame : Archives key other ↔ Archives key entry := by
      rw [Archives, Archives, hmove.edges]
    rw [Knows, edges_eq_of_hot hmove.hot, hmove.cold, hmove.husks,
      anyValue_replace hmove.found hsame]
    exact hknows.knows key
  · intro g h id entry inline husk hknows hgood hmove
    refine ⟨((Tiered.of_apart hknows.apart).toHusk hmove).apart,
      hknows.nonDangling.of_hot hmove.hot, ?_⟩
    intro key
    have hfresh : id ∉ g.husks :=
      hknows.apart.cold_husks id (mem_of_getElem?_eq_some hmove.found)
    have hhusk : HuskArchives codec key husk ↔ Archives key entry := by
      obtain ⟨content, _, hedges⟩ := fields_of_foldInline hmove.folded
      rw [huskArchives_iff hcodec (spill_of_foldInline hmove.folded) hgood hmove.hash, Archives,
        Archives, hedges]
    rw [← hknows.knows key, Knows, edges_eq_of_hot hmove.hot, hmove.cold, hmove.husks,
      anyValue_insert_of_notMem hfresh, hhusk, Knows, anyValue_iff_of_getElem? hmove.found]
    simp only [or_assoc, or_left_comm]

theorem enforcePaging (hcodec : codec.KeepsEdges) (hknows : KnowsExactly codec keys g)
    (hgood : ∀ event ∈ pagingEvents codec judge g, event.ArchivesFinite) :
    KnowsExactly codec keys (enforcePaging codec judge g) := by
  unfold MemoryGraph.enforcePaging
  unfold pagingEvents at hgood
  split
  · exact hknows
  · rename_i hsize
    rw [if_neg hsize] at hgood
    exact (settles hcodec keys).enforceBudgets (hknows.foldl_demote _).prune hgood

/-- An upsert of an id without shadow in the COLD tier loses no edge. -/
theorem upsertNode (hcodec : codec.KeepsEdges) (hknows : KnowsExactly codec keys g)
    (hcold : id ∉ g.cold) (hhusks : id ∉ g.husks) (label content : Str) (nodeType : NodeType)
    (hgood : ∀ event ∈ events codec judge (.upsertNode id label content nodeType) g,
      event.ArchivesFinite) :
    KnowsExactly codec keys (upsertNode codec judge g id label content nodeType) := by
  rw [events, List.forall_mem_append] at hgood
  have hforget : forgetColdShadow g id = g := by
    rw [forgetColdShadow, forgetFull, getElem?_eq_none_iff.mpr hcold]
    simp only []
    rw [forgetHusk, getElem?_eq_none_iff.mpr hhusks]
  have hcoldSame : (withUpserted g id label content nodeType).cold = g.cold := by
    rw [withUpserted, hforget]
  have hhusksSame : (withUpserted g id label content nodeType).husks = g.husks := by
    rw [withUpserted, hforget]
  have hupserted : KnowsExactly codec keys (withUpserted g id label content nodeType) := by
    refine ⟨?_, ?_, ?_⟩
    · exact ((Tiered.of_apart hknows.apart).withUpserted id label content nodeType).apart
    · exact (hknows.nonDangling.of_hot (hot_forgetColdShadow g id)).insertNode id _ _
    · intro key
      rw [← hknows.knows key, Knows, hcoldSame, hhusksSame, withUpserted, hforget]
      rfl
  exact hupserted.enforcePaging hcodec hgood.2

/-- An added edge is known from then on, and no other. -/
theorem addEdge (hknows : KnowsExactly codec keys g) (source target : Str) (weight : F64)
    (edgeType : EdgeType) (key : Triple) :
    (g.addEdge source target weight edgeType).1.Knows codec key ↔
      keys key ∨ (g.addEdge source target weight edgeType).2 = true ∧
        key = (source, target, edgeType) := by
  rw [← hknows.knows key]
  unfold MemoryGraph.addEdge
  simp only []
  split
  · simp
  · split
    · simp [Knows]
    · simp only [Knows, List.map_append, List.map_cons, List.map_nil, List.mem_append,
        List.mem_singleton, true_and]
      exact or_right_comm

end KnowsExactly

end MemoryGraph

end SoulSystem.Ccos.Memory
