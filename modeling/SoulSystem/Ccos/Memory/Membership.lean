import SoulSystem.Ccos.Memory.Tiers

/-!
# The ids that a graph knows

An id is known if it is in some tier.  No move of the COLD tier changes which ids are known, whether
or not the tiers are apart: an upsert adds its id, a removal takes its id out of every tier, and all
other updates leave the known ids alone.
-/

namespace SoulSystem.Ccos.Memory

open Library SortedMap

namespace MemoryGraph

variable {codec : Codec} {judge : Judge}

/-- The tiers hold together exactly these ids. -/
def Holds (ids : Str → Prop) (g : MemoryGraph) : Prop :=
  ∀ id, g.InTier id ↔ ids id

namespace Holds

variable {ids : Str → Prop} {g h : MemoryGraph} {id : Str}

theorem same (hholds : Holds ids g) (hnodes : ∀ other, other ∈ h.nodes ↔ other ∈ g.nodes)
    (hcold : ∀ other, other ∈ h.cold ↔ other ∈ g.cold)
    (hhusks : ∀ other, other ∈ h.husks ↔ other ∈ g.husks) : Holds ids h := by
  intro other
  rw [← hholds, InTier, InTier, hnodes, hcold, hhusks]

/-- One known id changes its tier. -/
theorem moved (hholds : Holds ids g) (hbefore : g.InTier id) (hafter : h.InTier id)
    (hothers : ∀ other ≠ id, h.InTier other ↔ g.InTier other) : Holds ids h := by
  intro other
  rw [← hholds]
  by_cases hother : other = id
  · rw [hother]
    exact ⟨fun _ ↦ hbefore, fun _ ↦ hafter⟩
  · exact hothers other hother

theorem demote (hholds : Holds ids g) : Holds ids (g.demote id) := by
  cases hnode : g.nodes[id]? with
  | none =>
    have hsame : g.demote id = g := by
      unfold MemoryGraph.demote
      rw [hnode]
    rwa [hsame]
  | some node =>
    obtain ⟨helse, _, hcold, _⟩ := elsewhere_demote hnode
    exact hholds.moved (.inl (mem_of_getElem?_eq_some hnode)) (.inr (.inl hcold))
      fun _ ↦ helse.inTier

theorem stable (ids : Str → Prop) : Stable codec (fun _ ↦ True) (Holds ids) := by
  apply Stable.of_shapes
  · exact fun _ _ hholds ↦ hholds.demote
  · exact fun _ hholds ↦ hholds.same (fun _ ↦ Iff.rfl) (fun _ ↦ Iff.rfl) fun _ ↦ Iff.rfl
  · intro g h id entry other hholds hmove
    obtain ⟨hnodes, hcold, hhusks⟩ := hmove.tiers
    exact hholds.same (fun _ ↦ by rw [hnodes]) hcold fun _ ↦ by rw [hhusks]
  · intro g h id entry inline husk hholds _ hmove
    apply hholds.moved (.inr (.inl (mem_of_getElem?_eq_some hmove.found)))
    · rw [InTier, hmove.husks]
      exact .inr (.inr (mem_insert_iff.mpr (.inl rfl)))
    · exact fun _ ↦ hmove.elsewhere.inTier
  · intro g h id husk entry hholds hmove
    apply hholds.moved (.inr (.inr (mem_of_getElem?_eq_some hmove.found)))
    · rw [InTier, hmove.cold]
      exact .inr (.inl (mem_insert_iff.mpr (.inl rfl)))
    · exact fun _ ↦ hmove.elsewhere.inTier
  · intro g id entry hholds hentry
    obtain ⟨helse, hnodes, _, _⟩ := elsewhere_restore g id entry
    exact hholds.moved (.inr (.inl (mem_of_getElem?_eq_some hentry))) (.inl hnodes)
      fun _ ↦ helse.inTier

theorem enforcePaging (hholds : Holds ids g) : Holds ids (enforcePaging codec judge g) :=
  (stable ids).enforcePaging hholds fun _ _ ↦ trivial

theorem upsertNode (hholds : Holds ids g) (id label content : Str) (nodeType : NodeType) :
    Holds (fun other ↦ other = id ∨ ids other)
      (upsertNode codec judge g id label content nodeType) := by
  apply enforcePaging
  intro other
  beta_reduce
  rw [InTier, mem_insert_iff, nodes_forgetColdShadow, cold_forgetColdShadow,
    husks_forgetColdShadow, mem_erase_iff, mem_erase_iff, ← hholds, InTier]
  tauto

theorem removeNode (hholds : Holds ids g) (id : Str) :
    Holds (fun other ↦ ids other ∧ other ≠ id) (g.removeNode id) := by
  intro other
  have hcold : (g.removeNode id).cold = g.cold.erase id := cold_forgetColdShadow _ id
  have hhusks : (g.removeNode id).husks = g.husks.erase id := husks_forgetColdShadow _ id
  have hnodes : (g.removeNode id).nodes = g.nodes.erase id := nodes_forgetColdShadow _ id
  beta_reduce
  rw [InTier, hnodes, hcold, hhusks, mem_erase_iff, mem_erase_iff, mem_erase_iff, ← hholds, InTier]
  tauto

theorem foldl_removeNode (hholds : Holds ids g) (removed : List Str) :
    Holds (fun other ↦ ids other ∧ other ∉ removed) (removed.foldl MemoryGraph.removeNode g) := by
  induction removed generalizing g ids with
  | nil =>
    intro other
    rw [List.foldl_nil, hholds]
    simp
  | cons id removed ih =>
    intro other
    rw [List.foldl_cons, ih (hholds.removeNode id)]
    simp only [List.mem_cons]
    tauto

theorem of_rewired (hholds : Holds ids g) (hrewired : Rewired g h) : Holds ids h := by
  obtain ⟨edges, edgeSet, rfl⟩ := hrewired
  exact hholds

end Holds

end MemoryGraph

/-! ## Updates -/

/-- The id that an operation upserts, if it does. -/
def Op.upserts : Op → Option Str
  | .upsertNode id _ _ _ => some id
  | _ => none

/-- The operations of an update: nothing is removed and no store is attached. -/
def Op.IsUpdate : Op → Prop
  | .upsertNode _ _ _ _ | .addEdge _ _ _ _ | .setPendingCalls _ _ | .setPendingDataRefs _ _
  | .setPendingAliases _ _ | .setPendingMethods _ _ | .markDataSymbol _ => True
  | _ => False

namespace MemoryGraph

variable {codec : Codec} {judge : Judge} {ids : Str → Prop} {g : MemoryGraph}

theorem Holds.apply_update {op : Op} (hholds : Holds ids g) (hop : op.IsUpdate) :
    Holds (fun other ↦ op.upserts = some other ∨ ids other) (apply codec judge op g) := by
  cases op with
  | upsertNode id label content nodeType =>
    intro other
    rw [apply, hholds.upsertNode]
    simp only [Op.upserts, Option.some.injEq, eq_comm]
  | addEdge source target weight edgeType =>
    intro other
    rw [apply, hholds.of_rewired (rewired_addEdge g _ _ _ _)]
    simp only [Op.upserts, reduceCtorEq, false_or]
  | setPendingCalls | setPendingDataRefs | setPendingAliases | setPendingMethods
  | markDataSymbol =>
    intro other
    simp only [Op.upserts, reduceCtorEq, false_or]
    exact hholds other
  | tick | removeNode | touch | enforcePaging | pageIn | pruneDanglingEdges | resolveAll
  | attachColdSpill | setColdContentBudget | setColdResidentBudget => cases hop

/-- A run of updates adds the ids that it upserts. -/
theorem Holds.run_updates {steps : List Step} (hholds : Holds ids g)
    (hsteps : ∀ step ∈ steps, step.2.IsUpdate) :
    Holds (fun other ↦ other ∈ steps.filterMap (fun step ↦ step.2.upserts) ∨ ids other)
      (run codec g steps) := by
  induction steps generalizing g ids with
  | nil =>
    intro other
    rw [run_nil, hholds]
    simp
  | cons step steps ih =>
    rw [List.forall_mem_cons] at hsteps
    intro other
    rw [run_cons, ih (hholds.apply_update hsteps.1) hsteps.2]
    cases hupserts : step.2.upserts with
    | none => simp [hupserts]
    | some id =>
      simp only [List.filterMap_cons, hupserts, Option.some.injEq, List.mem_cons]
      tauto

end MemoryGraph

end SoulSystem.Ccos.Memory
