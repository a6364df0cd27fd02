import SoulSystem.Ccos.Memory.EdgeIndex

/-!
# The three tiers

An id is resident, or has a full COLD entry, or is a husk.  Every move takes an id from one tier to
another or leaves the tiers alone, so the tiers stay apart and hold together exactly the ids that
were upserted and not removed.  The edges never dangle, and the resident tier keeps to its cap.
-/

namespace SoulSystem.Ccos.Memory

open Library SortedMap

/-- What an upsert says about an id. -/
structure Upsert where
  label : Str
  content : Str
  nodeType : NodeType

namespace MemoryGraph

variable {codec : Codec} {judge : Judge}

/-- No id is in two tiers. -/
structure Apart (g : MemoryGraph) : Prop where
  nodes_cold : ∀ id ∈ g.nodes, id ∉ g.cold
  nodes_husks : ∀ id ∈ g.nodes, id ∉ g.husks
  cold_husks : ∀ id ∈ g.cold, id ∉ g.husks

def InTier (g : MemoryGraph) (id : Str) : Prop :=
  id ∈ g.nodes ∨ id ∈ g.cold ∨ id ∈ g.husks

/-- The tiers are apart and hold exactly these ids. -/
structure Tiered (ids : Str → Prop) (g : MemoryGraph) : Prop where
  apart : Apart g
  covers : ∀ id, ids id ↔ g.InTier id

/-! ## Moves between tiers -/

/-- Other ids stay where they are. -/
structure Elsewhere (id : Str) (g h : MemoryGraph) : Prop where
  nodes : ∀ other ≠ id, other ∈ h.nodes ↔ other ∈ g.nodes
  cold : ∀ other ≠ id, other ∈ h.cold ↔ other ∈ g.cold
  husks : ∀ other ≠ id, other ∈ h.husks ↔ other ∈ g.husks

section Moves

variable {g h : MemoryGraph} {id : Str}

theorem Elsewhere.inTier (helse : Elsewhere id g h) {other : Str} (hother : other ≠ id) :
    h.InTier other ↔ g.InTier other := by
  rw [InTier, InTier, helse.nodes other hother, helse.cold other hother, helse.husks other hother]

/-- A replaced entry changes no tier. -/
theorem Rewrites.tiers {entry other : ColdNode} (hmove : Rewrites g h id entry other) :
    h.nodes = g.nodes ∧ (∀ key, key ∈ h.cold ↔ key ∈ g.cold) ∧ h.husks = g.husks := by
  refine ⟨nodes_eq_of_hot hmove.hot, ?_, hmove.husks⟩
  intro key
  rw [hmove.cold]
  exact mem_insert_of_mem (mem_of_getElem?_eq_some hmove.found) other key

theorem ToHusk.elsewhere {entry inline : ColdNode} {husk : DeepHusk}
    (hmove : ToHusk codec g h id entry inline husk) : Elsewhere id g h := by
  constructor
  · rw [nodes_eq_of_hot hmove.hot]
    exact fun _ _ ↦ Iff.rfl
  · rw [hmove.cold]
    exact mem_erase_of_ne
  · rw [hmove.husks]
    exact mem_insert_of_ne husk

theorem ToEntry.elsewhere {husk : DeepHusk} {entry : ColdNode}
    (hmove : ToEntry codec g h id husk entry) : Elsewhere id g h := by
  constructor
  · rw [nodes_eq_of_hot hmove.hot]
    exact fun _ _ ↦ Iff.rfl
  · rw [hmove.cold]
    exact mem_insert_of_ne entry
  · rw [hmove.husks]
    exact mem_erase_of_ne

theorem elsewhere_demote {node : GraphNode} (hnode : g.nodes[id]? = some node) :
    Elsewhere id g (g.demote id) ∧ id ∉ (g.demote id).nodes ∧ id ∈ (g.demote id).cold ∧
      (g.demote id).husks = g.husks := by
  unfold demote
  rw [hnode]
  exact ⟨⟨mem_erase_of_ne, mem_insert_of_ne _, fun _ _ ↦ Iff.rfl⟩, not_mem_erase_self,
    mem_insert_iff.mpr (.inl rfl), rfl⟩

theorem elsewhere_restore (g : MemoryGraph) (id : Str) (entry : ColdNode) :
    Elsewhere id g (g.restore id entry) ∧ id ∈ (g.restore id entry).nodes ∧
      id ∉ (g.restore id entry).cold ∧ (g.restore id entry).husks = g.husks := by
  obtain ⟨linked, hrestore⟩ := restore_fields g id entry
  rw [hrestore]
  exact ⟨⟨mem_insert_of_ne _, mem_erase_of_ne, fun _ _ ↦ Iff.rfl⟩, mem_insert_iff.mpr (.inl rfl),
    not_mem_erase_self, rfl⟩

end Moves

namespace Tiered

variable {ids after : Str → Prop} {g h : MemoryGraph} {id : Str}

theorem same (htiered : Tiered ids g) (hnodes : ∀ other, other ∈ h.nodes ↔ other ∈ g.nodes)
    (hcold : ∀ other, other ∈ h.cold ↔ other ∈ g.cold)
    (hhusks : ∀ other, other ∈ h.husks ↔ other ∈ g.husks) : Tiered ids h where
  apart := by
    constructor <;> intro other <;> simp only [hnodes, hcold, hhusks]
    · exact htiered.apart.nodes_cold other
    · exact htiered.apart.nodes_husks other
    · exact htiered.apart.cold_husks other
  covers := by
    intro other
    rw [htiered.covers, InTier, InTier, hnodes, hcold, hhusks]

/-- One id changes its tier, comes to the tiers or leaves them. -/
theorem moved (htiered : Tiered ids g) (helse : Elsewhere id g h)
    (hids : ∀ other ≠ id, after other ↔ ids other) (hid : after id ↔ h.InTier id)
    (hnodes : id ∈ h.nodes → id ∉ h.cold ∧ id ∉ h.husks) (hcold : id ∈ h.cold → id ∉ h.husks) :
    Tiered after h where
  apart := by
    constructor <;> intro other <;> by_cases hother : other = id
    · rw [hother]
      exact fun hin ↦ (hnodes hin).1
    · rw [helse.nodes other hother, helse.cold other hother]
      exact htiered.apart.nodes_cold other
    · rw [hother]
      exact fun hin ↦ (hnodes hin).2
    · rw [helse.nodes other hother, helse.husks other hother]
      exact htiered.apart.nodes_husks other
    · rw [hother]
      exact hcold
    · rw [helse.cold other hother, helse.husks other hother]
      exact htiered.apart.cold_husks other
  covers := by
    intro other
    by_cases hother : other = id
    · rw [hother, hid]
    · rw [hids other hother, htiered.covers, helse.inTier hother]

/-- One id changes its tier. -/
theorem shifted (htiered : Tiered ids g) (helse : Elsewhere id g h) (hbefore : g.InTier id)
    (hafter : h.InTier id) (hnodes : id ∈ h.nodes → id ∉ h.cold ∧ id ∉ h.husks)
    (hcold : id ∈ h.cold → id ∉ h.husks) : Tiered ids h :=
  htiered.moved helse (fun _ _ ↦ Iff.rfl)
    ⟨fun _ ↦ hafter, fun _ ↦ (htiered.covers id).mpr hbefore⟩ hnodes hcold

theorem demote (htiered : Tiered ids g) : Tiered ids (g.demote id) := by
  cases hnode : g.nodes[id]? with
  | none =>
    have hsame : g.demote id = g := by
      unfold MemoryGraph.demote
      rw [hnode]
    rwa [hsame]
  | some node =>
    have hresident : id ∈ g.nodes := mem_of_getElem?_eq_some hnode
    obtain ⟨helse, hleft, hcold, hhusks⟩ := elsewhere_demote hnode
    apply htiered.shifted helse (.inl hresident) (.inr (.inl hcold))
    · exact fun hin ↦ absurd hin hleft
    · rw [hhusks]
      exact fun _ ↦ htiered.apart.nodes_husks id hresident

theorem rewrites {entry other : ColdNode} (htiered : Tiered ids g)
    (hmove : Rewrites g h id entry other) : Tiered ids h := by
  obtain ⟨hnodes, hcold, hhusks⟩ := hmove.tiers
  exact htiered.same (fun _ ↦ by rw [hnodes]) hcold fun _ ↦ by rw [hhusks]

theorem toHusk {entry inline : ColdNode} {husk : DeepHusk} (htiered : Tiered ids g)
    (hmove : ToHusk codec g h id entry inline husk) : Tiered ids h := by
  have hid : id ∈ g.cold := mem_of_getElem?_eq_some hmove.found
  have hleft : id ∉ h.cold := by
    rw [hmove.cold]
    exact not_mem_erase_self
  apply htiered.shifted hmove.elsewhere (.inr (.inl hid))
  · rw [InTier, hmove.husks]
    exact .inr (.inr (mem_insert_iff.mpr (.inl rfl)))
  · rw [nodes_eq_of_hot hmove.hot]
    exact fun hin ↦ absurd hid (htiered.apart.nodes_cold id hin)
  · exact fun hin ↦ absurd hin hleft

theorem toEntry {husk : DeepHusk} {entry : ColdNode} (htiered : Tiered ids g)
    (hmove : ToEntry codec g h id husk entry) : Tiered ids h := by
  have hid : id ∈ g.husks := mem_of_getElem?_eq_some hmove.found
  have hleft : id ∉ h.husks := by
    rw [hmove.husks]
    exact not_mem_erase_self
  apply htiered.shifted hmove.elsewhere (.inr (.inr hid))
  · rw [InTier, hmove.cold]
    exact .inr (.inl (mem_insert_iff.mpr (.inl rfl)))
  · rw [nodes_eq_of_hot hmove.hot]
    exact fun hin ↦ absurd hid (htiered.apart.nodes_husks id hin)
  · exact fun _ ↦ hleft

theorem restore {entry : ColdNode} (htiered : Tiered ids g) (hentry : g.cold[id]? = some entry) :
    Tiered ids (g.restore id entry) := by
  have hid : id ∈ g.cold := mem_of_getElem?_eq_some hentry
  obtain ⟨helse, hnodes, hleft, hhusks⟩ := elsewhere_restore g id entry
  apply htiered.shifted helse (.inr (.inl hid)) (.inl hnodes)
  · rw [hhusks]
    exact fun _ ↦ ⟨hleft, htiered.apart.cold_husks id hid⟩
  · exact fun hin ↦ absurd hin hleft

theorem of_apart (hapart : Apart g) : Tiered g.InTier g :=
  ⟨hapart, fun _ ↦ Iff.rfl⟩

theorem withUpserted (htiered : Tiered ids g) (id label content : Str) (nodeType : NodeType) :
    Tiered (fun other ↦ other = id ∨ ids other) (withUpserted g id label content nodeType) := by
  have hcold : (MemoryGraph.withUpserted g id label content nodeType).cold = g.cold.erase id :=
    cold_forgetColdShadow g id
  have hhusks : (MemoryGraph.withUpserted g id label content nodeType).husks = g.husks.erase id :=
    husks_forgetColdShadow g id
  have hnodes : id ∈ (MemoryGraph.withUpserted g id label content nodeType).nodes :=
    mem_insert_iff.mpr (.inl rfl)
  have helse : Elsewhere id g (MemoryGraph.withUpserted g id label content nodeType) := by
    refine ⟨?_, ?_, ?_⟩
    · rw [MemoryGraph.withUpserted, nodes_forgetColdShadow]
      exact mem_insert_of_ne _
    · rw [hcold]
      exact mem_erase_of_ne
    · rw [hhusks]
      exact mem_erase_of_ne
  refine htiered.moved helse (fun _ hother ↦ or_iff_right hother) ?_ ?_ ?_
  · exact ⟨fun _ ↦ .inl hnodes, fun _ ↦ .inl rfl⟩
  · rw [hcold, hhusks]
    exact fun _ ↦ ⟨not_mem_erase_self, not_mem_erase_self⟩
  · rw [hhusks]
    exact fun _ ↦ not_mem_erase_self

theorem removeNode (htiered : Tiered ids g) (id : Str) :
    Tiered (fun other ↦ other ≠ id ∧ ids other) (g.removeNode id) := by
  have hnodes : (g.removeNode id).nodes = g.nodes.erase id := nodes_forgetColdShadow _ id
  have hcold : (g.removeNode id).cold = g.cold.erase id := cold_forgetColdShadow _ id
  have hhusks : (g.removeNode id).husks = g.husks.erase id := husks_forgetColdShadow _ id
  have hgone : ¬ (g.removeNode id).InTier id := by
    rw [InTier, hnodes, hcold, hhusks]
    simp
  have helse : Elsewhere id g (g.removeNode id) := by
    refine ⟨?_, ?_, ?_⟩
    · rw [hnodes]
      exact mem_erase_of_ne
    · rw [hcold]
      exact mem_erase_of_ne
    · rw [hhusks]
      exact mem_erase_of_ne
  refine htiered.moved helse (fun _ hother ↦ and_iff_right hother) ?_ ?_ ?_
  · exact ⟨fun hid ↦ absurd rfl hid.1, fun hid ↦ absurd hid hgone⟩
  · exact fun hid ↦ absurd (.inl hid) hgone
  · exact fun hid ↦ absurd (.inr (.inl hid)) hgone

end Tiered

/-- The tiers stay apart under every move. -/
theorem Apart.stable (codec : Codec) : Stable codec (fun _ ↦ True) Apart :=
  Stable.of_shapes (fun _ _ hapart ↦ (Tiered.of_apart hapart).demote.apart)
    (fun g hapart ↦ ((Tiered.of_apart hapart).same (h := g.pruneDanglingEdges)
      (fun _ ↦ Iff.rfl) (fun _ ↦ Iff.rfl) fun _ ↦ Iff.rfl).apart)
    (fun hapart hmove ↦ ((Tiered.of_apart hapart).rewrites hmove).apart)
    (fun hapart _ hmove ↦ ((Tiered.of_apart hapart).toHusk hmove).apart)
    (fun hapart hmove ↦ ((Tiered.of_apart hapart).toEntry hmove).apart)
    fun hapart hentry ↦ ((Tiered.of_apart hapart).restore hentry).apart

/-! ## Husks need a store -/

/-- Without a store there is no husk. -/
def HusksStored (g : MemoryGraph) : Prop :=
  g.spill = none → ∀ id, id ∉ g.husks

namespace HusksStored

variable {g h : MemoryGraph} {id : Str}

/-- Husks may go, and the store stays. -/
theorem of_subset (hstored : HusksStored g) (hspill : h.spill = none → g.spill = none)
    (hhusks : ∀ other ∈ h.husks, other ∈ g.husks) : HusksStored h :=
  fun hnone other hother ↦ hstored (hspill hnone) other (hhusks other hother)

theorem forgetColdShadow (hstored : HusksStored g) : HusksStored (forgetColdShadow g id) := by
  have hfull : HusksStored (forgetFull g id) := by
    refine hstored.of_subset ?_ fun other hother ↦ by rwa [husks_forgetFull] at hother
    unfold forgetFull
    split
    · exact spill_of_releaseSpill (g := { g with cold := g.cold.erase id })
    · exact fun hnone ↦ hnone
  refine hfull.of_subset ?_ ?_
  · unfold MemoryGraph.forgetColdShadow forgetHusk
    split
    · exact spill_of_releaseBlobIfOrphan (g := { forgetFull g id with
        husks := (forgetFull g id).husks.erase id })
    · exact fun hnone ↦ hnone
  · intro other hother
    rw [husks_forgetColdShadow] at hother
    rw [husks_forgetFull]
    exact (mem_erase_iff.mp hother).2

end HusksStored

/-- A store is attached only where there is none. -/
def AttachesOnce (op : Op) (g : MemoryGraph) : Prop :=
  match op with
  | .attachColdSpill _ => g.spill.isNone = true
  | _ => True

instance (op : Op) (g : MemoryGraph) : Decidable (AttachesOnce op g) :=
  match op with
  | .attachColdSpill _ => inferInstanceAs (Decidable (g.spill.isNone = true))
  | .tick | .upsertNode .. | .addEdge .. | .removeNode _ | .touch _ | .enforcePaging | .pageIn _
  | .pruneDanglingEdges | .setPendingCalls .. | .setPendingDataRefs .. | .setPendingAliases ..
  | .setPendingMethods .. | .markDataSymbol _ | .resolveAll | .setColdContentBudget _
  | .setColdResidentBudget _ => isTrue trivial

/-- The store of a run stays attached. -/
def StaysAttached (codec : Codec) : MemoryGraph → List Step → Prop
  | _, [] => True
  | g, step :: steps =>
    AttachesOnce step.2 g ∧ StaysAttached codec (apply codec step.1 step.2 g) steps

instance decidableStaysAttached (codec : Codec) :
    (g : MemoryGraph) → (steps : List Step) → Decidable (StaysAttached codec g steps)
  | _, [] => isTrue trivial
  | g, step :: steps =>
    haveI := decidableStaysAttached codec (apply codec step.1 step.2 g) steps
    inferInstanceAs (Decidable (AttachesOnce step.2 g ∧ _))

/-! ## The ids of a run -/

/-- The latest upserts of ids that were not removed since. -/
def latest (known : Std.ExtTreeMap Str Upsert) : Op → Std.ExtTreeMap Str Upsert
  | .upsertNode id label content nodeType => known.insert id ⟨label, content, nodeType⟩
  | .removeNode id => known.erase id
  | _ => known

/-- What is known after some more steps. -/
def knownAfter (before : Std.ExtTreeMap Str Upsert) (steps : List Step) :
    Std.ExtTreeMap Str Upsert :=
  steps.foldl (fun known step ↦ latest known step.2) before

def known (steps : List Step) : Std.ExtTreeMap Str Upsert :=
  knownAfter ∅ steps

/-- What holds of the tiers after every operation, whatever the store loses. -/
structure TierInvariant (ids : Str → Prop) (g : MemoryGraph) : Prop where
  tiered : Tiered ids g
  stored : HusksStored g

namespace TierInvariant

variable {ids : Str → Prop} {g h : MemoryGraph}

theorem stable (ids : Str → Prop) : Stable codec (fun _ ↦ True) (TierInvariant ids) := by
  apply Stable.of_shapes
  · intro g id htier
    refine ⟨htier.tiered.demote, ?_⟩
    unfold demote
    split
    · exact htier.stored
    · exact htier.stored
  · exact fun _ htier ↦
      ⟨htier.tiered.same (fun _ ↦ Iff.rfl) (fun _ ↦ Iff.rfl) fun _ ↦ Iff.rfl, htier.stored⟩
  · intro g h id entry other htier hmove
    exact ⟨htier.tiered.rewrites hmove,
      htier.stored.of_subset hmove.spill fun key hkey ↦ by rwa [hmove.husks] at hkey⟩
  · intro g h id entry inline husk htier _ hmove
    exact ⟨htier.tiered.toHusk hmove, fun hnone ↦ absurd hnone hmove.spill⟩
  · intro g h id husk entry htier hmove
    refine ⟨htier.tiered.toEntry hmove, htier.stored.of_subset hmove.spill ?_⟩
    intro key hkey
    rw [hmove.husks] at hkey
    exact (mem_erase_iff.mp hkey).2
  · intro g id entry htier hentry
    refine ⟨htier.tiered.restore hentry, ?_⟩
    obtain ⟨linked, hrestore⟩ := restore_fields g id entry
    rw [hrestore]
    exact htier.stored

/-- The invariant reads the ids of the three tiers and whether there is a store. -/
theorem same (htier : TierInvariant ids g) (hnodes : ∀ id, id ∈ h.nodes ↔ id ∈ g.nodes)
    (hcold : h.cold = g.cold) (hhusks : h.husks = g.husks) (hspill : h.spill = g.spill) :
    TierInvariant ids h where
  tiered := htier.tiered.same hnodes (by simp [hcold]) (by simp [hhusks])
  stored := by
    unfold HusksStored
    rw [hspill, hhusks]
    exact htier.stored

theorem new (maxInMemoryNodes : ℕ) :
    TierInvariant (fun id ↦ id ∈ known []) (MemoryGraph.new maxInMemoryNodes) where
  tiered := by
    constructor
    · constructor <;> intro id hid <;> exact absurd hid Std.ExtTreeMap.not_mem_empty
    · intro id
      simp [known, knownAfter, InTier, MemoryGraph.new]
  stored := by
    intro _ id
    exact Std.ExtTreeMap.not_mem_empty

theorem withStore (htier : TierInvariant ids g) (hnone : g.spill = none) (inlineBudget : ℕ) :
    TierInvariant ids (withStore g inlineBudget) where
  tiered := by
    refine htier.tiered.same (fun _ ↦ Iff.rfl) (fun _ ↦ Iff.rfl) ?_
    intro id
    simp [MemoryGraph.withStore, htier.stored hnone id]
  stored := by
    intro hspill
    cases hspill

theorem stays (htier : TierInvariant ids g) (hstays : Stays g h) : TierInvariant ids h :=
  htier.same hstays.mem hstays.cold hstays.husks hstays.spill

theorem apply {before : Std.ExtTreeMap Str Upsert} {op : Op}
    (htier : TierInvariant (fun id ↦ id ∈ before) g) (hattach : AttachesOnce op g) :
    TierInvariant (fun id ↦ id ∈ latest before op) (apply codec judge op g) := by
  refine (stable _).apply ?_ fun _ _ ↦ trivial
  have hstays := @stays_started codec judge op g
  cases op with
  | upsertNode id label content nodeType =>
    have hmoved := htier.tiered.withUpserted id label content nodeType
    refine ⟨⟨hmoved.apart, fun other ↦ ?_⟩, htier.stored.forgetColdShadow⟩
    exact mem_insert_iff.trans (hmoved.covers other)
  | removeNode id =>
    have hgone := htier.tiered.removeNode id
    have herased : HusksStored { g with nodes := g.nodes.erase id } := htier.stored
    refine ⟨⟨hgone.apart, fun other ↦ ?_⟩, herased.forgetColdShadow⟩
    exact mem_erase_iff.trans (hgone.covers other)
  | attachColdSpill inlineBudget =>
    exact htier.withStore (Option.isNone_iff_eq_none.mp hattach) inlineBudget
  | setColdContentBudget => exact htier.same (fun _ ↦ Iff.rfl) rfl rfl rfl
  | _ => exact htier.stays (hstays id)

theorem run {before : Std.ExtTreeMap Str Upsert} {steps : List Step}
    (htier : TierInvariant (fun id ↦ id ∈ before) g) (hattached : StaysAttached codec g steps) :
    TierInvariant (fun id ↦ id ∈ knownAfter before steps) (run codec g steps) := by
  induction steps generalizing g before with
  | nil => exact htier
  | cons step steps ih => exact ih (htier.apply hattached.1) hattached.2

end TierInvariant

/-! ## The cap on the resident tier -/

@[simp]
theorem nodes_demote (g : MemoryGraph) (id : Str) : (g.demote id).nodes = g.nodes.erase id := by
  unfold demote
  split
  · rename_i hnone
    exact (erase_eq_self (getElem?_eq_none_iff.mp hnone)).symm
  · rfl

@[simp]
theorem maxInMemoryNodes_demote (g : MemoryGraph) (id : Str) :
    (g.demote id).maxInMemoryNodes = g.maxInMemoryNodes := by
  unfold demote
  split <;> rfl

@[simp]
theorem maxInMemoryNodes_forgetColdShadow (g : MemoryGraph) (id : Str) :
    (forgetColdShadow g id).maxInMemoryNodes = g.maxInMemoryNodes :=
  maxInMemoryNodes_eq_of_hot (hot_forgetColdShadow g id)

@[simp]
theorem maxInMemoryNodes_restore (g : MemoryGraph) (id : Str) (entry : ColdNode) :
    (g.restore id entry).maxInMemoryNodes = g.maxInMemoryNodes := by
  obtain ⟨linked, hrestore⟩ := restore_fields g id entry
  rw [hrestore]

theorem nodes_foldl_demote (ids : List Str) (g : MemoryGraph) :
    (ids.foldl demote g).nodes = ids.foldl (fun nodes id ↦ nodes.erase id) g.nodes := by
  induction ids generalizing g with
  | nil => rfl
  | cons id ids ih => rw [List.foldl_cons, ih, nodes_demote, List.foldl_cons]

theorem rankedIds_perm (rank : GraphNode → ℕ) (entries : List (Str × GraphNode)) :
    (rankedIds rank entries).Perm (entries.map Prod.fst) :=
  (List.perm_insertionSort (RankLe rank) entries).map Prod.fst

theorem rankedIds_nodes_perm (rank : GraphNode → ℕ) (g : MemoryGraph) :
    (rankedIds rank g.nodes.toList).Perm g.nodes.keys := by
  rw [← Std.ExtTreeMap.map_fst_toList_eq_keys]
  exact rankedIds_perm rank g.nodes.toList

/-- Paging leaves at most as many resident nodes as the cap allows. -/
theorem size_nodes_enforcePaging (g : MemoryGraph) :
    (enforcePaging codec judge g).nodes.size ≤ g.maxInMemoryNodes := by
  unfold enforcePaging
  split
  · rename_i hfits
    exact hfits
  · set ranked := rankedIds (judge.priority g) g.nodes.toList with hranked
    have hperm : ranked.Perm g.nodes.keys := rankedIds_nodes_perm _ g
    have hnodup : (ranked.take (g.nodes.size - g.maxInMemoryNodes)).Nodup :=
      (hperm.nodup_iff.mpr (nodup_keys _)).sublist (List.take_sublist _ _)
    have hmem : ∀ id ∈ ranked.take (g.nodes.size - g.maxInMemoryNodes), id ∈ g.nodes := by
      intro id hid
      exact Std.ExtTreeMap.mem_keys.mp (hperm.subset (List.mem_of_mem_take hid))
    have hcount : (ranked.take (g.nodes.size - g.maxInMemoryNodes)).length =
        g.nodes.size - g.maxInMemoryNodes := by
      rw [List.length_take, hperm.length_eq, Std.ExtTreeMap.length_keys]
      omega
    have hsize := size_foldl_erase _ g.nodes hnodup hmem
    rw [← nodes_foldl_demote, hcount] at hsize
    simp only []
    rw [nodes_eq_of_hot (hot_enforceBudgets _)]
    simp only [pruneDanglingEdges]
    omega

/-- A victim of a swap is resident and is not the node that was asked for. -/
theorem mem_of_swapVictim {g : MemoryGraph} {id victim : Str}
    (hvictim : swapVictim judge g id = some victim) : victim ≠ id ∧ victim ∈ g.nodes := by
  unfold swapVictim at hvictim
  have hmem : victim ∈ rankedIds (judge.score g) (g.nodes.toList.filter fun entry ↦ entry.1 != id) :=
    List.mem_of_mem_head? hvictim
  rw [(rankedIds_perm _ _).mem_iff, List.mem_map] at hmem
  obtain ⟨⟨other, node⟩, hentry, rfl⟩ := hmem
  rw [List.mem_filter, Std.ExtTreeMap.mem_toList_iff_getElem?_eq_some] at hentry
  exact ⟨by simpa using hentry.2, mem_of_getElem?_eq_some hentry.1⟩

/-- Without a victim no other node is resident. -/
theorem size_le_one_of_swapVictim {g : MemoryGraph} {id : Str}
    (hnone : swapVictim judge g id = none) : g.nodes.size ≤ 1 := by
  unfold swapVictim at hnone
  rw [List.head?_eq_none_iff] at hnone
  have hempty : (g.nodes.toList.filter fun entry ↦ entry.1 != id) = [] := by
    have hlength := (rankedIds_perm (judge.score g)
      (g.nodes.toList.filter fun entry ↦ entry.1 != id)).length_eq
    rw [hnone, List.length_map] at hlength
    exact List.eq_nil_of_length_eq_zero hlength.symm
  have hall : ∀ key ∈ g.nodes.keys, key = id := by
    intro key hkey
    obtain ⟨node, hnode⟩ := exists_getElem?_of_mem (Std.ExtTreeMap.mem_keys.mp hkey)
    rw [List.filter_eq_nil_iff] at hempty
    have hentry := hempty (key, node) (Std.ExtTreeMap.mem_toList_iff_getElem?_eq_some.mpr hnode)
    simpa using hentry
  rw [← Std.ExtTreeMap.length_keys]
  have hsub : g.nodes.keys ⊆ [id] := fun key hkey ↦ List.mem_singleton.mpr (hall key hkey)
  exact (nodup_keys g.nodes).length_le_of_subset hsub

/-- The swap loop comes down to the cap. -/
theorem size_nodes_swapOut (id : Str) (fuel : ℕ) (g : MemoryGraph) (hfuel : g.nodes.size ≤ fuel)
    (hcap : 1 ≤ g.maxInMemoryNodes) :
    (swapOut judge id fuel g).nodes.size ≤ g.maxInMemoryNodes := by
  induction fuel generalizing g with
  | zero =>
    unfold swapOut
    omega
  | succ fuel ih =>
    unfold swapOut
    split
    · rename_i hfits
      exact hfits
    · split
      · rename_i victim hvictim
        have hmem := (mem_of_swapVictim hvictim).2
        have hsize : (g.demote victim).nodes.size = g.nodes.size - 1 := by
          rw [nodes_demote, Std.ExtTreeMap.size_erase, if_pos (by simpa using hmem)]
        have hrest := ih (g.demote victim) (by omega) (by simpa using hcap)
        rwa [maxInMemoryNodes_demote] at hrest
      · rename_i hnone
        exact le_trans (size_le_one_of_swapVictim hnone) hcap

/-- The cap of a graph is respected, unless it is zero. -/
def WithinCap (g : MemoryGraph) : Prop :=
  1 ≤ g.maxInMemoryNodes → g.nodes.size ≤ g.maxInMemoryNodes

/-- A page-in answers no and leaves the resident tier alone, or brings back an entry. -/
theorem pageIn_cases (codec : Codec) (judge : Judge) (g : MemoryGraph) (id : Str) :
    (pageIn codec judge g id).1.hot = g.hot ∧ (pageIn codec judge g id).2 = false ∨
      ∃ inline entry, inline.hot = g.hot ∧
        pageIn codec judge g id = (enforceBudgets codec judge (swapped judge inline id entry), true) := by
  unfold pageIn
  split
  · exact .inl ⟨rfl, rfl⟩
  · rename_i faulted hhusk
    have hfaulted := hot_of_faultHusk hhusk
    split
    · exact .inl ⟨hfaulted, rfl⟩
    · rename_i inline hcontent
      have hinline := (hot_of_faultContent hcontent).trans hfaulted
      split
      · exact .inl ⟨hinline, rfl⟩
      · rename_i entry _
        exact .inr ⟨inline, entry, hinline, rfl⟩

theorem capStable (cap : ℕ) :
    Stable codec (fun _ ↦ True) (fun g ↦ g.maxInMemoryNodes = cap) := by
  apply Stable.of_hot
  · intro g h hcap hhot
    rw [maxInMemoryNodes_eq_of_hot hhot, hcap]
  · intro g id hcap
    rw [maxInMemoryNodes_demote, hcap]
  · exact fun _ hcap ↦ hcap
  · intro g id entry hcap
    rw [maxInMemoryNodes_restore, hcap]

/-- No operation changes the cap. -/
theorem maxInMemoryNodes_apply (codec : Codec) (judge : Judge) (op : Op) (g : MemoryGraph) :
    (apply codec judge op g).maxInMemoryNodes = g.maxInMemoryNodes := by
  refine (capStable g.maxInMemoryNodes).apply ?_ fun _ _ ↦ trivial
  have hrewired : ∀ {h : MemoryGraph}, Rewired g h → h.maxInMemoryNodes = g.maxInMemoryNodes := by
    rintro _ ⟨_, _, rfl⟩
    rfl
  cases op with
  | upsertNode id => exact maxInMemoryNodes_forgetColdShadow g id
  | addEdge => exact hrewired (rewired_addEdge g _ _ _ _)
  | removeNode id => exact maxInMemoryNodes_forgetColdShadow _ id
  | touch id =>
    unfold started apply touch
    simp only []
    split <;> rfl
  | resolveAll => exact hrewired (rewired_resolveAll g)
  | _ => rfl

theorem maxInMemoryNodes_run (codec : Codec) (g : MemoryGraph) (steps : List Step) :
    (run codec g steps).maxInMemoryNodes = g.maxInMemoryNodes := by
  induction steps generalizing g with
  | nil => rfl
  | cons step steps ih => rw [run_cons, ih, maxInMemoryNodes_apply]

namespace WithinCap

variable {g h : MemoryGraph}

theorem of_size_le (hwithin : WithinCap g) (hcap : h.maxInMemoryNodes = g.maxInMemoryNodes)
    (hsize : h.nodes.size ≤ g.nodes.size) : WithinCap h := by
  intro hone
  rw [hcap] at hone ⊢
  exact le_trans hsize (hwithin hone)

theorem pageIn (hwithin : WithinCap g) (id : Str) : WithinCap (pageIn codec judge g id).1 := by
  rcases pageIn_cases codec judge g id with ⟨hhot, _⟩ | ⟨inline, entry, hhot, hresult⟩
  · exact hwithin.of_size_le (maxInMemoryNodes_eq_of_hot hhot) (by rw [nodes_eq_of_hot hhot])
  · have hcap : (MemoryGraph.restore inline id entry).maxInMemoryNodes = g.maxInMemoryNodes := by
      rw [maxInMemoryNodes_restore, maxInMemoryNodes_eq_of_hot hhot]
    have hend : (MemoryGraph.pageIn codec judge g id).1.maxInMemoryNodes = g.maxInMemoryNodes :=
      maxInMemoryNodes_apply codec judge (.pageIn id) g
    intro hone
    rw [hend] at hone ⊢
    rw [hresult]
    simp only []
    rw [nodes_eq_of_hot (hot_enforceBudgets _), ← hcap]
    exact size_nodes_swapOut id _ _ le_rfl (by rwa [hcap])

theorem apply (hwithin : WithinCap g) (op : Op) : WithinCap (apply codec judge op g) := by
  have hcap := maxInMemoryNodes_apply codec judge op g
  cases op with
  | tick => exact hwithin.of_size_le hcap (le_of_eq Std.ExtTreeMap.size_map)
  | upsertNode id label content nodeType =>
    intro _
    rw [hcap, ← maxInMemoryNodes_eq_of_hot (hot_forgetColdShadow g id)]
    exact size_nodes_enforcePaging _
  | addEdge source target weight edgeType =>
    refine hwithin.of_size_le hcap ?_
    rw [MemoryGraph.apply, nodes_addEdge]
  | removeNode id =>
    refine hwithin.of_size_le hcap ?_
    rw [MemoryGraph.apply, removeNode, nodes_forgetColdShadow]
    exact Std.ExtTreeMap.size_erase_le
  | touch id =>
    refine hwithin.of_size_le hcap ?_
    unfold MemoryGraph.apply touch
    simp only []
    split
    · rename_i node hnode
      rw [Std.ExtTreeMap.size_insert, if_pos]
      rw [Std.ExtTreeMap.contains_iff_mem]
      exact mem_of_getElem?_eq_some hnode
    · exact le_rfl
  | enforcePaging =>
    intro _
    rw [hcap]
    exact size_nodes_enforcePaging g
  | pageIn id => exact hwithin.pageIn id
  | pruneDanglingEdges | setPendingCalls | setPendingDataRefs | setPendingAliases
  | setPendingMethods | markDataSymbol => exact hwithin
  | resolveAll =>
    obtain ⟨edges, edgeSet, hsame⟩ := rewired_resolveAll g
    rw [MemoryGraph.apply, hsame]
    exact hwithin
  | attachColdSpill inlineBudget =>
    refine hwithin.of_size_le hcap ?_
    have hhot : (MemoryGraph.apply codec judge (.attachColdSpill inlineBudget) g).hot =
        (withStore g inlineBudget).hot := by
      unfold MemoryGraph.apply attachColdSpill
      simp only [hot_enforceColdResidentBudget, hot_enforceColdBudget]
      rfl
    rw [nodes_eq_of_hot hhot]
    exact le_rfl
  | setColdContentBudget budget =>
    refine hwithin.of_size_le hcap ?_
    rw [MemoryGraph.apply, setColdContentBudget,
      nodes_eq_of_hot (hot_enforceColdContentBudget _)]
  | setColdResidentBudget budget =>
    refine hwithin.of_size_le hcap ?_
    rw [MemoryGraph.apply, setColdResidentBudget,
      nodes_eq_of_hot (hot_enforceColdResidentBudget _)]

theorem run (hwithin : WithinCap g) (steps : List Step) : WithinCap (run codec g steps) := by
  induction steps generalizing g with
  | nil => exact hwithin
  | cons step steps ih => exact ih (hwithin.apply step.2)

end WithinCap

end MemoryGraph

end SoulSystem.Ccos.Memory
