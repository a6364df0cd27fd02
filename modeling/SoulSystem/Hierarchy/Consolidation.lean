import SoulSystem.Library.Greedy
import SoulSystem.Library.Machine
import SoulSystem.Library.Words
import SoulSystem.Hierarchy.Stores

/-!
# Consolidation

A cycle decays the episodic store, groups its important entries by likeness of their texts and
promotes every group that is large enough: one merged entry goes to the semantic store and the
members leave the episodic one.  The order in which a map is iterated is part of the event, since
the code promises none.

A merged entry is stored under the id of its most important member.  When that id was promoted
before, the earlier memory is overwritten, and this is the only loss.

The clusters of a cycle have no member in common, so the merged entries of one cycle never overwrite
each other.  A cycle in which decay drops nothing loses no memory if and only if no merged entry
takes the id of a semantic entry that says something else.
-/

namespace SoulSystem.Hierarchy

open Library Std List

section Engine

/-! ## The engine -/

structure ConsolidationConfig where
  minPromotionImportance : ℚ
  minClusterSize : ℕ
  similarityThreshold : ℚ

structure ConsolidationResult where
  reviewed : ℕ
  promoted : ℕ
  decayed : ℕ
  clusters : ℕ
  deriving DecidableEq, Repr

/-- The configuration of an engine and the likeness of texts it goes by. -/
structure ConsolidationEngine where
  config : ConsolidationConfig
  textSimilarity : Str → Str → ℚ

structure HierarchicalMemory where
  episodic : EpisodicStore
  semantic : SemanticStore

/-- The ratio of shared words to words. -/
def wordOverlap (a b : Str) : ℚ :=
  let wordsA := (Str.splitWhitespace a).dedup
  let wordsB := (Str.splitWhitespace b).dedup
  if wordsA.isEmpty || wordsB.isEmpty then 0
  else (wordsA.filter fun word ↦ word ∈ wordsB).length / max wordsA.length wordsB.length

/-- The members of a cluster: the entry that started it and those it took. -/
abbrev Cluster := MemoryEntry × List MemoryEntry

namespace Cluster

def members (c : Cluster) : List MemoryEntry := c.1 :: c.2

def ids (c : Cluster) : List Str := c.members.map MemoryEntry.id

/-- The most important member, and the last one of several. -/
def base (c : Cluster) : MemoryEntry := (c.members.reverse.argmax MemoryEntry.importance).getD c.1

/-- The member with the longest text, and the last one of several. -/
def representative (c : Cluster) : MemoryEntry :=
  (c.members.reverse.argmax fun e ↦ (Str.utf8 e.text).length).getD c.1

def mergedId (c : Cluster) : Str := "sem_".toList ++ c.base.id

def allTags (c : Cluster) : List Str :=
  c.members.foldl (fun tags e ↦
    e.tags.foldl (fun tags tag ↦ if tag ∈ tags then tags else tags ++ [tag]) tags) []

/-- One semantic entry for a cluster of similar entries. -/
def merge (moment : Moment) (c : Cluster) : MemoryEntry where
  id := c.mergedId
  text := c.representative.text
  createdAt := c.base.createdAt
  lastAccessed := moment.now
  accessCount := (c.members.map MemoryEntry.accessCount).sum
  importance := min (c.base.importance + min (c.members.length / 20) (3 / 10)) 1
  layer := .semantic
  tags := c.allTags
  embedding := none
  associations := c.ids
  metadata := (ExtTreeMap.empty.insert "source".toList (.string "consolidation".toList)).insert
    "cluster_size".toList (.number c.members.length)
  trust := .floorOf (c.members.map MemoryEntry.trust)

end Cluster

namespace ConsolidationEngine

variable (engine : ConsolidationEngine)

def clusterEntries (entries : List MemoryEntry) : List Cluster :=
  Greedy.groups (fun seed e ↦
    decide (engine.config.similarityThreshold ≤ engine.textSimilarity seed.text e.text)) entries

/-- The entries above the threshold, in the order in which the map is iterated. -/
def candidates (visit : List Str) (store : EpisodicStore) : List MemoryEntry :=
  (visit.filterMap store.entries.get?).filter fun e ↦
    decide (engine.config.minPromotionImportance ≤ e.importance)

/-- The clusters that meet the minimum size. -/
def promotedClusters (clusters : List Cluster) : List Cluster :=
  clusters.filter fun c ↦ decide (engine.config.minClusterSize ≤ c.members.length)

/-- A cluster moves to the semantic store. -/
def promote (moment : Moment) (m : HierarchicalMemory) (c : Cluster) : HierarchicalMemory where
  episodic := { m.episodic with entries := c.ids.foldl Entries.remove m.episodic.entries }
  semantic := m.semantic.store moment (c.merge moment) .fact

/-- The clusters of a cycle. -/
def cycleClusters (moment : Moment) (order visit : List Str) (m : HierarchicalMemory) :
    List Cluster :=
  engine.clusterEntries (engine.candidates visit (m.episodic.decay moment order).1)

/-- A cycle up to the promotions. -/
def promoteAll (moment : Moment) (order visit : List Str) (m : HierarchicalMemory) :
    HierarchicalMemory :=
  (engine.promotedClusters (engine.cycleClusters moment order visit m)).foldl (promote moment)
    { m with episodic := (m.episodic.decay moment order).1 }

/-- One cycle.  `order` and `visit` are the orders in which the episodic entries are iterated for
the forced eviction and for the candidates. -/
def consolidate (moment : Moment) (order visit : List Str) (m : HierarchicalMemory) :
    HierarchicalMemory × ConsolidationResult :=
  let clusters := engine.cycleClusters moment order visit m
  let promoted := engine.promoteAll moment order visit m
  ({ promoted with semantic := (promoted.semantic.decay moment).1 },
    { reviewed := (engine.candidates visit (m.episodic.decay moment order).1).length
      promoted := ((engine.promotedClusters clusters).map fun c ↦ c.members.length).sum
      decayed := (m.episodic.decay moment order).2
      clusters := clusters.length })

end ConsolidationEngine

end Engine

/-! ## Clusters -/

namespace Cluster

variable {c : Cluster}

theorem base_mem (c : Cluster) : c.base ∈ c.members := by
  cases hbest : c.members.reverse.argmax MemoryEntry.importance with
  | none => rw [base, hbest]; exact mem_cons_self
  | some best =>
    rw [base, hbest]
    exact List.mem_reverse.mp (argmax_mem hbest)

theorem base_id_mem (c : Cluster) : c.base.id ∈ c.ids := mem_map_of_mem c.base_mem

/-- A merged entry is as trustworthy as its least trusted member. -/
theorem trust_merge (moment : Moment) (c : Cluster) :
    (∃ e ∈ c.members, (c.merge moment).trust = e.trust) ∧
      ∀ e ∈ c.members, (c.merge moment).trust.rank ≤ e.trust.rank := by
  have hne : c.members.map MemoryEntry.trust ≠ [] := by
    rw [members, map_cons]
    exact cons_ne_nil _ _
  obtain ⟨e, he, htrust⟩ := List.mem_map.mp (MemoryTrust.floorOf_mem hne)
  exact ⟨⟨e, he, htrust.symm⟩, fun e he ↦ MemoryTrust.rank_floorOf_le (mem_map_of_mem he)⟩

end Cluster

namespace Entries

variable {entries : Entries} {id : Str} {ids : List Str}

theorem get?_foldl_remove :
    (ids.foldl Entries.remove entries).get? id = if id ∈ ids then none else entries.get? id := by
  induction ids generalizing entries with
  | nil => simp
  | cons other ids ih =>
    rw [foldl_cons, ih, get?_remove]
    by_cases hmem : id ∈ ids
    · simp [hmem]
    · by_cases heq : other = id
      · simp [heq]
      · simp [hmem, heq, Ne.symm heq]

/-- An update that drops nothing by its count keeps every entry. -/
theorem exists_of_size_update {f : MemoryEntry → Option MemoryEntry}
    {hid : ∀ e e', f e = some e' → e'.id = e.id}
    (hsize : entries.size - (entries.update f hid).size = 0) {e : MemoryEntry}
    (he : entries.get? id = some e) : ∃ e', f e = some e' ∧
      (entries.update f hid).get? id = some e' := by
  have hle : (entries.update f hid).size ≤ entries.size := ExtTreeMap.size_filterMap_le_size
  have heq : (entries.update f hid).size = entries.size := by omega
  have hall := ExtTreeMap.size_filterMap_eq_size_iff.mp heq
  have hmem : id ∈ entries.map := SortedMap.mem_of_getElem?_eq_some he
  have hsome := hall id hmem
  have hget : entries.map[id] = e := by
    have := ExtTreeMap.getElem?_eq_some_getElem hmem
    exact Option.some.inj (this.symm.trans he)
  rw [hget] at hsome
  obtain ⟨e', hf⟩ := Option.isSome_iff_exists.mp hsome
  refine ⟨e', hf, ?_⟩
  rw [get?_update, he]
  exact hf

end Entries

namespace ConsolidationEngine

variable {engine : ConsolidationEngine} {moment : Moment} {order visit : List Str}
  {m : HierarchicalMemory} {clusters : List Cluster} {id : Str}

/-! ## The clusters of a cycle -/

theorem nodup_candidates {store : EpisodicStore} (hvisit : visit.Nodup) :
    ((engine.candidates visit store).map MemoryEntry.id).Nodup := by
  have hall : ((visit.filterMap store.entries.get?).map MemoryEntry.id).Nodup := by
    rw [map_filterMap]
    apply List.Nodup.filterMap _ hvisit
    intro id other x hx hother
    obtain ⟨e, he, hid⟩ := Option.map_eq_some_iff.mp hx
    obtain ⟨e', he', hid'⟩ := Option.map_eq_some_iff.mp hother
    rw [← Entries.id_of_get? he, ← Entries.id_of_get? he', hid, hid']
  exact hall.sublist (List.filter_sublist.map MemoryEntry.id)

/-- The clusters of distinct entries have no id in common. -/
theorem pairwise_disjoint_clusters {entries : List MemoryEntry}
    (hnodup : (entries.map MemoryEntry.id).Nodup) :
    (engine.clusterEntries entries).Pairwise fun c d ↦ List.Disjoint c.ids d.ids := by
  have hperm := (Greedy.members_groups_perm (fun seed e ↦ decide
    (engine.config.similarityThreshold ≤ engine.textSimilarity seed.text e.text)) entries).map
    MemoryEntry.id
  have hflat := hperm.nodup_iff.mpr hnodup
  rw [Greedy.members, map_flatMap] at hflat
  exact (List.nodup_flatMap.mp hflat).2

theorem mergedId_injective {c d : Cluster} (hids : c.mergedId = d.mergedId) :
    c.base.id = d.base.id :=
  append_cancel_left hids

theorem nodup_mergedIds (hvisit : visit.Nodup) :
    ((engine.promotedClusters (engine.cycleClusters moment order visit m)).map
      Cluster.mergedId).Nodup := by
  have hpairwise : (engine.promotedClusters (engine.cycleClusters moment order visit m)).Pairwise
      fun c d ↦ List.Disjoint c.ids d.ids :=
    (pairwise_disjoint_clusters (nodup_candidates hvisit)).sublist filter_sublist
  apply List.pairwise_map.mpr
  apply hpairwise.imp
  intro c d hdisjoint hids
  exact hdisjoint c.base_id_mem (mergedId_injective hids ▸ d.base_id_mem)

/-! ## Promotion -/

theorem semantic_foldl_promote (hnodup : (clusters.map Cluster.mergedId).Nodup) :
    (∀ c ∈ clusters, (clusters.foldl (promote moment) m).semantic.entries.get? c.mergedId =
      some (SemanticStore.typed moment (c.merge moment) .fact)) ∧
    ∀ id, id ∉ clusters.map Cluster.mergedId →
      (clusters.foldl (promote moment) m).semantic.entries.get? id =
        m.semantic.entries.get? id := by
  induction clusters generalizing m with
  | nil => exact ⟨fun _ hmem ↦ absurd hmem not_mem_nil, fun _ _ ↦ rfl⟩
  | cons c clusters ih =>
    obtain ⟨hfresh, hrest⟩ := List.nodup_cons.mp hnodup
    obtain ⟨hstored, hframe⟩ := @ih (promote moment m c) hrest
    have hid : (SemanticStore.typed moment (c.merge moment) .fact).id = c.mergedId := rfl
    rw [foldl_cons]
    constructor
    · intro d hd
      cases List.mem_cons.mp hd with
      | inl hhead =>
        rw [hhead, hframe c.mergedId hfresh]
        exact Entries.get?_insert_self _
      | inr htail => exact hstored d htail
    · intro id hnot
      rw [map_cons, mem_cons, not_or] at hnot
      rw [hframe id hnot.2]
      exact Entries.get?_insert_ne _ (hid ▸ Ne.symm hnot.1)

theorem episodic_foldl_promote :
    (clusters.foldl (promote moment) m).episodic.entries.get? id =
      if id ∈ clusters.flatMap Cluster.ids then none else m.episodic.entries.get? id := by
  induction clusters generalizing m with
  | nil => simp
  | cons c clusters ih =>
    rw [foldl_cons, ih, promote, Entries.get?_foldl_remove, flatMap_cons]
    by_cases hmem : id ∈ clusters.flatMap Cluster.ids
    · simp [hmem]
    · by_cases hid : id ∈ c.ids
      · simp [hid]
      · simp [hmem, hid]

/-! ## One cycle -/

/-- Decay drops no entry in a cycle, neither of the episodic store nor of the semantic one. -/
def DropsNothing (engine : ConsolidationEngine) (moment : Moment) (order visit : List Str)
    (m : HierarchicalMemory) : Prop :=
  (m.episodic.decay moment order).2 = 0 ∧
    ((engine.promoteAll moment order visit m).semantic.decay moment).2 = 0

/-- What a cycle from `m` to `m'` owes to the memories: what promotion removes is recorded, what was
known is still known, and a merged entry has the trust of its least trusted member. -/
structure LosesNothing (engine : ConsolidationEngine) (moment : Moment) (order visit : List Str)
    (m m' : HierarchicalMemory) : Prop where
  recorded : ∀ id e, m.episodic.entries.get? id = some e → m'.episodic.entries.get? id = none →
    ∃ merged ∈ m'.semantic.entries.values, id ∈ merged.associations
  kept : ∀ id known, m.semantic.entries.get? id = some known →
    ∃ now, m'.semantic.entries.get? id = some now ∧ now.text = known.text ∧
      now.associations = known.associations
  trust : ∀ c ∈ engine.promotedClusters (engine.cycleClusters moment order visit m),
    ∃ merged, m'.semantic.entries.get? c.mergedId = some merged ∧ merged.associations = c.ids ∧
      (∃ e ∈ c.members, merged.trust = e.trust) ∧ ∀ e ∈ c.members, merged.trust.rank ≤ e.trust.rank

/-- No cluster is promoted to the id of a semantic entry with another text or other associations. -/
def ClashFree (engine : ConsolidationEngine) (moment : Moment) (order visit : List Str)
    (m : HierarchicalMemory) : Prop :=
  ∀ c ∈ engine.promotedClusters (engine.cycleClusters moment order visit m),
    ∀ known ∈ m.semantic.entries.get? c.mergedId,
      known.text = c.representative.text ∧ known.associations = c.ids

instance : Decidable (engine.DropsNothing moment order visit m) :=
  inferInstanceAs (Decidable (_ ∧ _))

instance : Decidable (engine.ClashFree moment order visit m) :=
  have (c : Cluster) : Decidable (∀ known ∈ m.semantic.entries.get? c.mergedId,
      known.text = c.representative.text ∧ known.associations = c.ids) :=
    Option.decidableForallMem _
  inferInstanceAs (Decidable (∀ c ∈ _, _))

/-- What a cycle leaves of the semantic entries before its last decay. -/
theorem exists_consolidate_semantic (hdrops : engine.DropsNothing moment order visit m)
    {e : MemoryEntry}
    (he : (engine.promoteAll moment order visit m).semantic.entries.get? id = some e) :
    ∃ now, (engine.consolidate moment order visit m).1.semantic.entries.get? id = some now ∧
      now.text = e.text ∧ now.associations = e.associations ∧ now.trust = e.trust := by
  obtain ⟨now, haged, hget⟩ := Entries.exists_of_size_update hdrops.2 he
  have heq := SemanticStore.eq_of_aged haged
  exact ⟨now, hget, by rw [heq], by rw [heq], by rw [heq]⟩

/-- The merged entry of a promoted cluster is there after the cycle. -/
theorem exists_merged (hvisit : visit.Nodup) (hdrops : engine.DropsNothing moment order visit m)
    {c : Cluster} (hc : c ∈ engine.promotedClusters (engine.cycleClusters moment order visit m)) :
    ∃ merged, (engine.consolidate moment order visit m).1.semantic.entries.get? c.mergedId =
      some merged ∧ merged.text = c.representative.text ∧ merged.associations = c.ids ∧
        merged.trust = (c.merge moment).trust :=
  exists_consolidate_semantic hdrops ((semantic_foldl_promote (nodup_mergedIds hvisit)).1 c hc)

theorem exists_decay_episodic (hdrops : engine.DropsNothing moment order visit m) {e : MemoryEntry}
    (he : m.episodic.entries.get? id = some e) :
    ∃ e', (m.episodic.decay moment order).1.entries.get? id = some e' := by
  have hsum : (m.episodic.decay moment order).2 = 0 := hdrops.1
  rw [EpisodicStore.decay] at hsum
  obtain ⟨hsize, hevicted⟩ := Nat.add_eq_zero_iff.mp hsum
  obtain ⟨e', _, hget⟩ := Entries.exists_of_size_update hsize he
  refine ⟨e', ?_⟩
  rw [EpisodicStore.decay]
  dsimp only
  rw [eq_nil_of_length_eq_zero hevicted]
  exact hget

theorem losesNothing_of_clashFree (hvisit : visit.Nodup)
    (hdrops : engine.DropsNothing moment order visit m)
    (hclash : engine.ClashFree moment order visit m) :
    engine.LosesNothing moment order visit m (engine.consolidate moment order visit m).1 where
  recorded id e he hgone := by
    obtain ⟨e', he'⟩ := exists_decay_episodic hdrops he
    have hpromoted : (engine.promoteAll moment order visit m).episodic.entries.get? id = none := hgone
    rw [promoteAll, episodic_foldl_promote] at hpromoted
    split at hpromoted
    · next hmem =>
        obtain ⟨c, hc, hid⟩ := List.mem_flatMap.mp hmem
        obtain ⟨merged, hmerged, _, hassociations, _⟩ := exists_merged hvisit hdrops hc
        refine ⟨merged, Entries.mem_values.mpr ?_, hassociations ▸ hid⟩
        rwa [Entries.id_of_get? hmerged]
    · rw [he'] at hpromoted
      exact absurd hpromoted (by simp)
  kept id known hknown := by
    by_cases htaken : id ∈ (engine.promotedClusters
        (engine.cycleClusters moment order visit m)).map Cluster.mergedId
    · obtain ⟨c, hc, rfl⟩ := List.mem_map.mp htaken
      obtain ⟨merged, hmerged, htext, hassociations, _⟩ := exists_merged hvisit hdrops hc
      obtain ⟨hsame, hsame'⟩ := hclash c hc known hknown
      exact ⟨merged, hmerged, htext.trans hsame.symm, hassociations.trans hsame'.symm⟩
    · have hframe : (engine.promoteAll moment order visit m).semantic.entries.get? id =
          m.semantic.entries.get? id :=
        (semantic_foldl_promote (nodup_mergedIds hvisit)).2 id htaken
      obtain ⟨now, hnow, htext, hassociations, _⟩ :=
        exists_consolidate_semantic hdrops (hframe.trans hknown)
      exact ⟨now, hnow, htext, hassociations⟩
  trust c hc := by
    obtain ⟨merged, hmerged, _, hassociations, htrust⟩ := exists_merged hvisit hdrops hc
    refine ⟨merged, hmerged, hassociations, ?_⟩
    rw [htrust]
    exact c.trust_merge moment

theorem clashFree_of_losesNothing (hvisit : visit.Nodup)
    (hdrops : engine.DropsNothing moment order visit m)
    (hloses : engine.LosesNothing moment order visit m
      (engine.consolidate moment order visit m).1) : engine.ClashFree moment order visit m := by
  intro c hc known hknown
  obtain ⟨now, hnow, htext, hassociations⟩ := hloses.kept c.mergedId known hknown
  obtain ⟨merged, hmerged, htext', hassociations', _⟩ := exists_merged hvisit hdrops hc
  have hsame : now = merged := Option.some.inj (hnow.symm.trans hmerged)
  exact ⟨htext.symm.trans (hsame ▸ htext'), hassociations.symm.trans (hsame ▸ hassociations')⟩

/-! ## Runs -/

inductive Event where
  | storeEpisodic (moment : Moment) (e : MemoryEntry)
  | storeSemantic (moment : Moment) (e : MemoryEntry) (conceptType : ConceptType)
  | consolidate (moment : Moment) (order visit : List Str)

/-- A list of the ids in a map is an order in which it can be iterated. -/
abbrev Visits (visit : List Str) (entries : Entries) : Prop := visit.Perm entries.map.keys

/-- Stores and cycles; a cycle visits the decayed entries in any order. -/
def machine (engine : ConsolidationEngine) : Machine HierarchicalMemory Event where
  step m
    | .storeEpisodic moment e => some { m with episodic := m.episodic.store moment e }
    | .storeSemantic moment e conceptType =>
      some { m with semantic := m.semantic.store moment e conceptType }
    | .consolidate moment order visit =>
      if Visits order (m.episodic.entries.update (EpisodicStore.aged moment m.episodic.config)
          (EpisodicStore.id_of_aged moment m.episodic.config)) ∧
        Visits visit (m.episodic.decay moment order).1.entries then
        some (engine.consolidate moment order visit m).1
      else none

/-- Decay drops nothing, if the event is a cycle. -/
def Event.dropsNothing (engine : ConsolidationEngine) (m : HierarchicalMemory) : Event → Prop
  | .consolidate moment order visit => engine.DropsNothing moment order visit m
  | _ => True

def Event.losesNothing (engine : ConsolidationEngine) (m : HierarchicalMemory) (event : Event) :
    Prop :=
  match event with
  | .consolidate moment order visit =>
    ∀ m', engine.machine.step m event = some m' → engine.LosesNothing moment order visit m m'
  | _ => True

def Event.clashFree (engine : ConsolidationEngine) (m : HierarchicalMemory) : Event → Prop
  | .consolidate moment order visit => engine.ClashFree moment order visit m
  | _ => True

instance decidableDropsNothing : ∀ event : Event, Decidable (event.dropsNothing engine m)
  | .consolidate moment order visit =>
    inferInstanceAs (Decidable (engine.DropsNothing moment order visit m))
  | .storeEpisodic _ _ => isTrue trivial
  | .storeSemantic _ _ _ => isTrue trivial

instance decidableClashFree : ∀ event : Event, Decidable (event.clashFree engine m)
  | .consolidate moment order visit =>
    inferInstanceAs (Decidable (engine.ClashFree moment order visit m))
  | .storeEpisodic _ _ => isTrue trivial
  | .storeSemantic _ _ _ => isTrue trivial

theorem losesNothing_iff_clashFree {event : Event} {m' : HierarchicalMemory}
    (hdrops : event.dropsNothing engine m) (hstep : engine.machine.step m event = some m') :
    event.losesNothing engine m ↔ event.clashFree engine m := by
  cases event with
  | storeEpisodic moment e => exact Iff.rfl
  | storeSemantic moment e conceptType => exact Iff.rfl
  | consolidate moment order visit =>
    have hvalid := hstep
    simp only [machine, Option.ite_none_right_eq_some, Option.some.injEq] at hvalid
    have hvisit : visit.Nodup := hvalid.1.2.nodup_iff.mpr (SortedMap.nodup_keys _)
    constructor
    · intro hloses
      have hcycle := hloses m' hstep
      rw [← hvalid.2] at hcycle
      exact clashFree_of_losesNothing hvisit hdrops hcycle
    · intro hclash next hnext
      rw [hstep] at hnext
      rw [← Option.some.inj hnext, ← hvalid.2]
      exact losesNothing_of_clashFree hvisit hdrops hclash

/-- **Consolidation loses nothing.**  The cycles of a run in which decay drops no entry lose no
memory if and only if none of them promotes to a taken id. -/
theorem meets_losesNothing_iff {events : List Event} {m' : HierarchicalMemory}
    (hdrops : engine.machine.Meets (fun m event ↦ event.dropsNothing engine m) m events)
    (hrun : engine.machine.run m events = some m') :
    engine.machine.Meets (fun m event ↦ event.losesNothing engine m) m events ↔
      engine.machine.Meets (fun m event ↦ event.clashFree engine m) m events :=
  Machine.meets_iff_of_run (fun _ _ _ hok hstep ↦ losesNothing_iff_clashFree hok hstep) hdrops hrun

/-! ## An id that is promoted twice -/

/-- An engine that promotes every entry of importance at least one half. -/
def eager : ConsolidationEngine where
  config := ⟨1 / 2, 1, 7 / 10⟩
  textSimilarity := wordOverlap

/-- A moment at which no recorded time parses, so that nothing decays. -/
def undated : Moment := ⟨"now".toList, fun _ ↦ none, fun _ _ ↦ 1⟩

def emptyMemory : HierarchicalMemory where
  episodic := ⟨.empty, ⟨86400, 1 / 10, 10000⟩⟩
  semantic := .new ⟨2592000, 1 / 20⟩

def note (text : Str) : MemoryEntry :=
  ⟨"e1".toList, text, [], [], 0, 4 / 5, .episodic, [], none, [], ∅, .internal⟩

/-- A note is promoted, stored again with another text and promoted again. -/
def restored : List Event :=
  [.storeEpisodic undated (note "rust".toList), .consolidate undated ["e1".toList] ["e1".toList],
    .storeEpisodic undated (note "tokio".toList), .consolidate undated ["e1".toList] ["e1".toList]]

theorem not_losesNothing_restored :
    (∃ m', eager.machine.run emptyMemory restored = some m') ∧
      eager.machine.Meets (fun m event ↦ event.dropsNothing eager m) emptyMemory restored ∧
      ¬ eager.machine.Meets (fun m event ↦ event.losesNothing eager m) emptyMemory restored := by
  have hruns : (eager.machine.run emptyMemory restored).isSome := by decide +kernel
  have hdrops : eager.machine.Meets (fun m event ↦ event.dropsNothing eager m) emptyMemory
      restored := by decide +kernel
  obtain ⟨m', hrun⟩ := Option.isSome_iff_exists.mp hruns
  refine ⟨⟨m', hrun⟩, hdrops, fun hloses ↦ ?_⟩
  have hclash := (Machine.meets_iff_of_run
    (fun _ _ _ hok hstep ↦ losesNothing_iff_clashFree hok hstep) hdrops hrun).mp hloses
  exact absurd hclash (by decide +kernel)

theorem losesNothing_once : eager.machine.Meets (fun m event ↦ event.losesNothing eager m) emptyMemory
    (restored.take 2) := by
  have hruns : (eager.machine.run emptyMemory (restored.take 2)).isSome := by decide +kernel
  obtain ⟨m', hrun⟩ := Option.isSome_iff_exists.mp hruns
  exact (meets_losesNothing_iff (by decide +kernel) hrun).mpr (by decide +kernel)

end ConsolidationEngine

end SoulSystem.Hierarchy
