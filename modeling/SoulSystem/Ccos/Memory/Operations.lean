import SoulSystem.Ccos.Memory.Resolve

/-!
# Runs of the memory graph

The operations of the graph as data, their runs, and what the COLD tier leaves alone: the budget
passes and the release of blobs change only the full entries, the spill store and the husks.
-/

namespace SoulSystem.Ccos.Memory

open Library

/-! ## Operations -/

inductive Op where
  | tick
  | upsertNode (id label content : Str) (nodeType : NodeType)
  | addEdge (source target : Str) (weight : F64) (edgeType : EdgeType)
  | removeNode (id : Str)
  | touch (id : Str)
  | enforcePaging
  | pageIn (id : Str)
  | pruneDanglingEdges
  | setPendingCalls (file : Str) (calls : List (Str × Str × ℕ))
  | setPendingDataRefs (file : Str) (refs : List (Str × Str × ℕ))
  | setPendingAliases (file : Str) (aliases : List (Str × Str))
  | setPendingMethods (file : Str) (methods : List (Str × Str))
  | markDataSymbol (id : Str)
  | resolveAll
  | attachColdSpill (inlineBudget : ℕ)
  | setColdContentBudget (budget : Option ℕ)
  | setColdResidentBudget (budget : Option ℕ)

namespace MemoryGraph

variable (codec : Codec) (judge : Judge)

/-- The state after an operation; what the operation answers is left out. -/
def apply (op : Op) (g : MemoryGraph) : MemoryGraph :=
  match op with
  | .tick => g.tick
  | .upsertNode id label content nodeType => upsertNode codec judge g id label content nodeType
  | .addEdge source target weight edgeType => (g.addEdge source target weight edgeType).1
  | .removeNode id => g.removeNode id
  | .touch id => (g.touch id).1
  | .enforcePaging => enforcePaging codec judge g
  | .pageIn id => (pageIn codec judge g id).1
  | .pruneDanglingEdges => g.pruneDanglingEdges
  | .setPendingCalls file calls => g.setPendingCalls file calls
  | .setPendingDataRefs file refs => g.setPendingDataRefs file refs
  | .setPendingAliases file aliases => g.setPendingAliases file aliases
  | .setPendingMethods file methods => g.setPendingMethods file methods
  | .markDataSymbol id => g.markDataSymbol id
  | .resolveAll => g.resolveAll.1
  | .attachColdSpill inlineBudget => attachColdSpill codec judge g inlineBudget
  | .setColdContentBudget budget => setColdContentBudget codec judge g budget
  | .setColdResidentBudget budget => setColdResidentBudget codec judge g budget

/-- An operation with the scores and sizes that it meets: these change with time. -/
abbrev Step := Judge × Op

def run (g : MemoryGraph) (steps : List Step) : MemoryGraph :=
  steps.foldl (fun g step ↦ apply codec step.1 step.2 g) g

@[simp]
theorem run_nil (g : MemoryGraph) : run codec g [] = g := rfl

@[simp]
theorem run_cons (g : MemoryGraph) (step : Step) (steps : List Step) :
    run codec g (step :: steps) = run codec (apply codec step.1 step.2 g) steps := rfl

theorem run_append (g : MemoryGraph) (steps rest : List Step) :
    run codec g (steps ++ rest) = run codec (run codec g steps) rest :=
  List.foldl_append

/-! ## What the COLD tier leaves alone -/

/-- The graph without its COLD tier. -/
def hot (g : MemoryGraph) : MemoryGraph :=
  { g with cold := ∅, spill := none, husks := ∅ }

variable {codec judge}

theorem nodes_eq_of_hot {g h : MemoryGraph} (hhot : h.hot = g.hot) : h.nodes = g.nodes := by
  have hfield := congrArg MemoryGraph.nodes hhot
  exact hfield

theorem edges_eq_of_hot {g h : MemoryGraph} (hhot : h.hot = g.hot) : h.edges = g.edges := by
  have hfield := congrArg MemoryGraph.edges hhot
  exact hfield

theorem maxInMemoryNodes_eq_of_hot {g h : MemoryGraph} (hhot : h.hot = g.hot) :
    h.maxInMemoryNodes = g.maxInMemoryNodes := by
  have hfield := congrArg MemoryGraph.maxInMemoryNodes hhot
  exact hfield

theorem coldContentBudget_eq_of_hot {g h : MemoryGraph} (hhot : h.hot = g.hot) :
    h.coldContentBudget = g.coldContentBudget := by
  have hfield := congrArg MemoryGraph.coldContentBudget hhot
  exact hfield

@[simp]
theorem hot_releaseContentBlobIfOrphan (g : MemoryGraph) (hash : Str) :
    (releaseContentBlobIfOrphan g hash).hot = g.hot := by
  unfold releaseContentBlobIfOrphan
  split <;> rfl

@[simp]
theorem hot_releaseBlobIfOrphan (g : MemoryGraph) (hash : Str) :
    (releaseBlobIfOrphan g hash).hot = g.hot := by
  unfold releaseBlobIfOrphan
  split <;> rfl

@[simp]
theorem hot_releaseSpill (g : MemoryGraph) (spill : Option SpillRef) :
    (releaseSpill g spill).hot = g.hot := by
  cases spill with
  | none => rfl
  | some ref => exact hot_releaseContentBlobIfOrphan g ref.hash

@[simp]
theorem hot_forgetFull (g : MemoryGraph) (id : Str) : (forgetFull g id).hot = g.hot := by
  unfold forgetFull
  split
  · exact hot_releaseSpill _ _
  · rfl

@[simp]
theorem hot_forgetHusk (g : MemoryGraph) (id : Str) : (forgetHusk g id).hot = g.hot := by
  unfold forgetHusk
  split
  · exact hot_releaseBlobIfOrphan _ _
  · rfl

@[simp]
theorem hot_forgetColdShadow (g : MemoryGraph) (id : Str) :
    (forgetColdShadow g id).hot = g.hot := by
  rw [forgetColdShadow, hot_forgetHusk, hot_forgetFull]

/-! ## What resolution leaves alone -/

/-- Two graphs that differ in their edges and the index over them only. -/
def Rewired (g h : MemoryGraph) : Prop :=
  ∃ edges edgeSet, h = { g with edges := edges, edgeSet := edgeSet }

theorem Rewired.refl (g : MemoryGraph) : Rewired g g :=
  ⟨g.edges, g.edgeSet, rfl⟩

theorem Rewired.trans {g h k : MemoryGraph} (hgh : Rewired g h) (hhk : Rewired h k) :
    Rewired g k := by
  obtain ⟨_, _, rfl⟩ := hgh
  obtain ⟨edges, edgeSet, rfl⟩ := hhk
  exact ⟨edges, edgeSet, rfl⟩

theorem rewired_addEdge (g : MemoryGraph) (source target : Str) (weight : F64)
    (edgeType : EdgeType) : Rewired g (addEdge g source target weight edgeType).1 := by
  unfold addEdge
  simp only []
  split
  · exact Rewired.refl g
  · split
    · exact ⟨g.edges, _, rfl⟩
    · exact ⟨_, _, rfl⟩

theorem rewired_addEdges (weight : F64) (wanted : List Triple) (g : MemoryGraph) :
    Rewired g (addEdges weight g wanted).1 := by
  unfold addEdges
  generalize 0 = count
  induction wanted generalizing g count with
  | nil => exact Rewired.refl g
  | cons key wanted ih => exact (rewired_addEdge g _ _ _ _).trans (ih _ _)

theorem rewired_resolveAll (g : MemoryGraph) : Rewired g g.resolveAll.1 := by
  have hprune : Rewired g g.pruneResolutionEdges := ⟨_, g.edgeSet, rfl⟩
  have himports : Rewired g.pruneResolutionEdges g.pruneResolutionEdges.linkModuleImports.1 :=
    rewired_addEdges _ _ _
  have hcalls : ∀ h : MemoryGraph, Rewired h h.resolveSymbolCalls.1 :=
    fun h ↦ rewired_addEdges _ _ h
  have hdata : ∀ h : MemoryGraph, Rewired h h.resolveDataFlow.1 := fun h ↦ rewired_addEdges _ _ h
  simpa only [resolveAll] using
    ((hprune.trans himports).trans (hcalls _)).trans (hdata _)

/-! ## The budget passes -/

/-- What every candidate keeps, the whole loop keeps. -/
theorem budgetLoop_keeps {P : MemoryGraph → Prop}
    {step : MemoryGraph × ℕ → Str → MemoryGraph × ℕ} {budget : ℕ}
    (hstep : ∀ state id, P state.1 → P (step state id).1) (ids : List Str) :
    ∀ state : MemoryGraph × ℕ, P state.1 → P (budgetLoop step budget ids state).1 := by
  induction ids with
  | nil =>
    intro state hstate
    exact hstate
  | cons id ids ih =>
    intro state hstate
    unfold budgetLoop
    split
    · exact hstate
    · exact ih (step state id) (hstep state id hstate)

theorem hot_compactEntry (state : MemoryGraph × ℕ) (id : Str) :
    (compactEntry codec state id).1.hot = state.1.hot := by
  unfold compactEntry
  simp only []
  repeat' split
  all_goals first | rfl | exact hot_releaseSpill _ _

theorem hot_spillEntry (state : MemoryGraph × ℕ) (id : Str) :
    (spillEntry codec state id).1.hot = state.1.hot := by
  unfold spillEntry
  repeat' split
  all_goals rfl

theorem hot_deepSpillEntry (state : MemoryGraph × ℕ) (id : Str) :
    (deepSpillEntry codec judge state id).1.hot = state.1.hot := by
  unfold deepSpillEntry
  repeat' split
  all_goals first | rfl | exact hot_releaseSpill _ _

@[simp]
theorem hot_enforceColdContentBudget (g : MemoryGraph) :
    (enforceColdContentBudget codec judge g).hot = g.hot := by
  unfold enforceColdContentBudget
  split
  · rfl
  · refine @budgetLoop_keeps (fun h ↦ h.hot = g.hot) _ _ ?_ _ _ rfl
    intro state id hstate
    rw [hot_compactEntry, hstate]

@[simp]
theorem hot_enforceColdBudget (g : MemoryGraph) :
    (enforceColdBudget codec judge g).hot = g.hot := by
  unfold enforceColdBudget
  split
  · rfl
  · refine @budgetLoop_keeps (fun h ↦ h.hot = g.hot) _ _ ?_ _ _ rfl
    intro state id hstate
    rw [hot_spillEntry, hstate]

@[simp]
theorem hot_enforceColdResidentBudget (g : MemoryGraph) :
    (enforceColdResidentBudget codec judge g).hot = g.hot := by
  unfold enforceColdResidentBudget
  split
  · rfl
  · split
    · rfl
    · refine @budgetLoop_keeps (fun h ↦ h.hot = g.hot) _ _ ?_ _ _ rfl
      intro state id hstate
      rw [hot_deepSpillEntry, hstate]

@[simp]
theorem hot_enforceBudgets (g : MemoryGraph) : (enforceBudgets codec judge g).hot = g.hot := by
  unfold enforceBudgets
  rw [hot_enforceColdResidentBudget, hot_enforceColdBudget, hot_enforceColdContentBudget]

end MemoryGraph

end SoulSystem.Ccos.Memory
