import SoulSystem.Ccos.Memory.StoreExact
import SoulSystem.Ccos.External.Reingest

/-!
# Provenance taint

A source that looks hostile gets a low trust on the nodes of its file.  The taint pass runs after
the update and stamps the resident nodes only; the paging inside the update may have demoted nodes
of the same file, which keep the trust they have.

Right after the ingest every node of the file in every tier is tainted exactly when the nodes of the
file that are COLD before the pass are.  From then on the taint stays through paging, archival and
page-in, as long as nothing creates a node of the file anew or stamps a higher trust on it.
-/

namespace SoulSystem.Ccos.External

open Library SortedMap Memory List SoulSystem.Ccos.Memory.MemoryGraph

/-! ## Bounds on trust -/

def AtMost (bound : ℚ) : F64 → Prop
  | .finite value => value ≤ bound
  | .infinite negative => negative = true
  | .nan => False

/-- Every value that a map has under an id of the file meets a condition. -/
def OnFile {β : Type} (path : Str) (Q : β → Prop) (m : Std.ExtTreeMap Str β) : Prop :=
  ∀ (id : Str) (value : β), m[id]? = some value → ofFile path id → Q value

namespace OnFile

variable {β : Type} {path : Str} {Q : β → Prop} {m : Std.ExtTreeMap Str β} {id : Str} {value : β}

theorem empty : OnFile path Q ∅ := by
  intro id value hvalue
  simp at hvalue

theorem erase (hall : OnFile path Q m) : OnFile path Q (m.erase id) :=
  fun other found hfound ↦ hall other found (getElem?_of_getElem?_erase hfound)

theorem insert (hall : OnFile path Q m) (hvalue : ofFile path id → Q value) :
    OnFile path Q (m.insert id value) := by
  intro other found hfound hother
  by_cases hsame : id = other
  · subst hsame
    rw [Std.ExtTreeMap.getElem?_insert_self] at hfound
    cases hfound
    exact hvalue hother
  · rw [getElem?_insert_ne value hsame] at hfound
    exact hall other found hfound hother

theorem map {f : Str → β → β} (hall : OnFile path Q m)
    (hf : ∀ id value, ofFile path id → Q value → Q (f id value)) : OnFile path Q (m.map f) := by
  intro id value hvalue hid
  rw [Std.ExtTreeMap.getElem?_map, Option.map_eq_some_iff] at hvalue
  obtain ⟨found, hfound, rfl⟩ := hvalue
  exact hf id found hid (hall id found hfound hid)

end OnFile

/-- Whatever text has the hash of the body of a husk, the entry that it describes is tainted. -/
def HuskAtMost (codec : Codec) (bound : ℚ) (husk : DeepHusk) : Prop :=
  ∀ (text : Str) (entry : ColdNode), codec.sha256 text = husk.body.hash →
    codec.fromJson text = some entry → AtMost bound entry.node.trust

/-- The nodes of a file in the COLD tier have at most a given trust. -/
structure ColdTainted (codec : Codec) (path : Str) (bound : ℚ) (g : MemoryGraph) : Prop where
  cold : OnFile path (fun entry ↦ AtMost bound entry.node.trust) g.cold
  husks : OnFile path (HuskAtMost codec bound) g.husks

/-- The nodes of a file in every tier have at most a given trust. -/
structure Tainted (codec : Codec) (path : Str) (bound : ℚ) (g : MemoryGraph) : Prop
    extends ColdTainted codec path bound g where
  nodes : OnFile path (fun node ↦ AtMost bound node.trust) g.nodes

/-- What is needed of the hash and of the serialisation: no collisions, and an entry that can be
read back has the trust that it was written with. -/
structure KeepsTrust (codec : Codec) : Prop where
  injective : codec.sha256.Injective
  trust : ∀ entry parsed : ColdNode, codec.fromJson (codec.toJson entry) = some parsed →
    parsed.node.trust = entry.node.trust

namespace ColdTainted

variable {codec : Codec} {judge : Judge} {path : Str} {bound : ℚ} {g h : MemoryGraph} {id : Str}

theorem congr (htainted : ColdTainted codec path bound g) (hcold : h.cold = g.cold)
    (hhusks : h.husks = g.husks) : ColdTainted codec path bound h := by
  constructor
  · rw [hcold]
    exact htainted.cold
  · rw [hhusks]
    exact htainted.husks

/-- An entry may be replaced by one that has its trust. -/
theorem rewrites {entry other : ColdNode} (htainted : ColdTainted codec path bound g)
    (hmove : MemoryGraph.Rewrites g h id entry other) : ColdTainted codec path bound h := by
  obtain ⟨content, hnode⟩ := hmove.node
  constructor
  · rw [hmove.cold]
    apply htainted.cold.insert
    intro hid
    rw [hnode]
    exact htainted.cold id entry hmove.found hid
  · rw [hmove.husks]
    exact htainted.husks

/-- A husk has the trust of the entry in its body. -/
theorem toHusk {entry inline : ColdNode} {husk : DeepHusk} (hkeeps : KeepsTrust codec)
    (htainted : ColdTainted codec path bound g)
    (hmove : MemoryGraph.ToHusk codec g h id entry inline husk) :
    ColdTainted codec path bound h := by
  obtain ⟨content, hnode, _⟩ := fields_of_foldInline hmove.folded
  constructor
  · rw [hmove.cold]
    exact htainted.cold.erase
  · rw [hmove.husks]
    apply htainted.husks.insert
    intro hid text parsed hhash hparse
    have htext : text = codec.toJson inline := hkeeps.injective (hhash.trans hmove.hash)
    rw [htext] at hparse
    rw [hkeeps.trust inline parsed hparse, hnode]
    exact htainted.cold id entry hmove.found hid

/-- The budget passes move the nodes of the COLD tier with their trust. -/
theorem settles (hkeeps : KeepsTrust codec) (path : Str) (bound : ℚ) :
    MemoryGraph.Settles codec (fun _ ↦ True) (ColdTainted codec path bound) :=
  MemoryGraph.Settles.of_shapes (fun htainted hmove ↦ htainted.rewrites hmove)
    fun htainted _ hmove ↦ htainted.toHusk hkeeps hmove

theorem forgetColdShadow (htainted : ColdTainted codec path bound g) (id : Str) :
    ColdTainted codec path bound (MemoryGraph.forgetColdShadow g id) := by
  constructor
  · rw [cold_forgetColdShadow]
    exact htainted.cold.erase
  · rw [husks_forgetColdShadow]
    exact htainted.husks.erase

theorem removeNode (htainted : ColdTainted codec path bound g) (id : Str) :
    ColdTainted codec path bound (g.removeNode id) := by
  have hempty : ColdTainted codec path bound { g with nodes := g.nodes.erase id } :=
    htainted.congr rfl rfl
  exact (hempty.forgetColdShadow id).congr rfl rfl

theorem evictFileNodes (htainted : ColdTainted codec path bound g) (other : Str) :
    ColdTainted codec path bound (evictFileNodes g other) := by
  unfold External.evictFileNodes
  generalize g.nodes.keys.filter (ofFile other) = removed
  induction removed generalizing g with
  | nil => exact htainted
  | cons id removed ih => exact ih (htainted.removeNode id)

theorem of_rewired (htainted : ColdTainted codec path bound g)
    (hrewired : MemoryGraph.Rewired g h) : ColdTainted codec path bound h := by
  obtain ⟨edges, edgeSet, rfl⟩ := hrewired
  exact htainted.congr rfl rfl

theorem withUpserted (htainted : ColdTainted codec path bound g) (id label content : Str)
    (nodeType : NodeType) :
    ColdTainted codec path bound (MemoryGraph.withUpserted g id label content nodeType) :=
  (htainted.forgetColdShadow id).congr rfl rfl

theorem demote (htainted : ColdTainted codec path bound g) (hid : ¬ ofFile path id) :
    ColdTainted codec path bound (g.demote id) := by
  unfold MemoryGraph.demote
  split
  · exact htainted
  · exact ⟨htainted.cold.insert fun hfile ↦ absurd hfile hid, htainted.husks⟩

theorem foldl_demote {ids : List Str} (htainted : ColdTainted codec path bound g)
    (hids : ∀ id ∈ ids, ¬ ofFile path id) :
    ColdTainted codec path bound (ids.foldl MemoryGraph.demote g) := by
  induction ids generalizing g with
  | nil => exact htainted
  | cons id ids ih =>
    rw [forall_mem_cons] at hids
    exact ih (htainted.demote hids.1) hids.2

end ColdTainted

namespace Tainted

variable {codec : Codec} {judge : Judge} {path : Str} {bound : ℚ} {g h : MemoryGraph} {id : Str}

theorem congr (htainted : Tainted codec path bound g) (hnodes : h.nodes = g.nodes)
    (hcold : h.cold = g.cold) (hhusks : h.husks = g.husks) : Tainted codec path bound h := by
  refine ⟨htainted.toColdTainted.congr hcold hhusks, ?_⟩
  rw [hnodes]
  exact htainted.nodes

/-- What leaves the resident graph alone has the COLD tier to look after only. -/
theorem of_hot (htainted : Tainted codec path bound g) (hhot : h.hot = g.hot)
    (hcold : ColdTainted codec path bound h) : Tainted codec path bound h := by
  refine ⟨hcold, ?_⟩
  rw [nodes_eq_of_hot hhot]
  exact htainted.nodes

theorem demote (htainted : Tainted codec path bound g) :
    Tainted codec path bound (g.demote id) := by
  unfold MemoryGraph.demote
  split
  · exact htainted
  · rename_i node hnode
    refine ⟨⟨?_, htainted.husks⟩, htainted.nodes.erase⟩
    exact htainted.cold.insert fun hid ↦ htainted.nodes id node hnode hid

theorem stable (hkeeps : KeepsTrust codec) (path : Str) (bound : ℚ) :
    MemoryGraph.Stable codec (fun _ ↦ True) (Tainted codec path bound) := by
  apply MemoryGraph.Stable.of_shapes
  · exact fun _ _ htainted ↦ htainted.demote
  · exact fun _ htainted ↦ htainted.congr rfl rfl rfl
  · exact fun htainted hmove ↦ htainted.of_hot hmove.hot (htainted.toColdTainted.rewrites hmove)
  · exact fun htainted _ hmove ↦
      htainted.of_hot hmove.hot (htainted.toColdTainted.toHusk hkeeps hmove)
  · intro g h id husk entry htainted hmove
    refine htainted.of_hot hmove.hot ⟨?_, ?_⟩
    · rw [hmove.cold]
      apply htainted.cold.insert
      intro hid
      obtain ⟨text, hhash, hjson⟩ := hmove.body
      exact htainted.husks id husk hmove.found hid text entry hhash hjson
    · rw [hmove.husks]
      exact htainted.husks.erase
  · intro g id entry htainted hentry
    obtain ⟨linked, hrestore⟩ := restore_fields g id entry
    rw [hrestore]
    refine ⟨⟨htainted.cold.erase, htainted.husks⟩, ?_⟩
    exact htainted.nodes.insert fun hid ↦ htainted.cold id entry hentry hid

theorem removeNode (htainted : Tainted codec path bound g) (id : Str) :
    Tainted codec path bound (g.removeNode id) := by
  have hnodes : (g.removeNode id).nodes = g.nodes.erase id :=
    nodes_forgetColdShadow _ id
  refine ⟨htainted.toColdTainted.removeNode id, ?_⟩
  rw [hnodes]
  exact htainted.nodes.erase

theorem evictFileNodes (htainted : Tainted codec path bound g) (other : Str) :
    Tainted codec path bound (evictFileNodes g other) := by
  unfold External.evictFileNodes
  generalize g.nodes.keys.filter (ofFile other) = removed
  induction removed generalizing g with
  | nil => exact htainted
  | cons id removed ih => exact ih (htainted.removeNode id)

theorem of_rewired (htainted : Tainted codec path bound g) (hrewired : MemoryGraph.Rewired g h) :
    Tainted codec path bound h := by
  obtain ⟨edges, edgeSet, rfl⟩ := hrewired
  exact htainted.congr rfl rfl rfl

/-- An upsert keeps the trust of a node that is resident. -/
theorem withUpserted (htainted : Tainted codec path bound g) (id label content : Str)
    (nodeType : NodeType) (hresident : ofFile path id → id ∈ g.nodes) :
    Tainted codec path bound (MemoryGraph.withUpserted g id label content nodeType) := by
  refine ⟨htainted.toColdTainted.withUpserted id label content nodeType, ?_⟩
  rw [MemoryGraph.withUpserted, nodes_forgetColdShadow]
  apply htainted.nodes.insert
  intro hid
  obtain ⟨node, hnode⟩ := exists_getElem?_of_mem (hresident hid)
  rw [hnode]
  exact htainted.nodes id node hnode hid

theorem upsertNode (hkeeps : KeepsTrust codec) (htainted : Tainted codec path bound g)
    (id label content : Str) (nodeType : NodeType) (hresident : ofFile path id → id ∈ g.nodes) :
    Tainted codec path bound (MemoryGraph.upsertNode codec judge g id label content nodeType) :=
  (stable hkeeps path bound).enforcePaging
    (htainted.withUpserted id label content nodeType hresident) fun _ _ ↦ trivial

end Tainted

/-! ## Updates that create nothing -/

/-- An operation that creates no node of the file. -/
def CreatesNone (path : Str) (op : Op) (g : MemoryGraph) : Prop :=
  match op with
  | .upsertNode id _ _ _ => ofFile path id → id ∈ g.nodes
  | _ => True

/-- Every operation of a run creates no node of the file in the state it meets. -/
def RunCreatesNone (codec : Codec) (path : Str) : MemoryGraph → List MemoryGraph.Step → Prop
  | _, [] => True
  | g, step :: steps =>
    CreatesNone path step.2 g ∧
      RunCreatesNone codec path (MemoryGraph.apply codec step.1 step.2 g) steps

namespace Tainted

variable {codec : Codec} {path : Str} {bound : ℚ} {g : MemoryGraph}

theorem apply_update {judge : Judge} {op : Op} (hkeeps : KeepsTrust codec)
    (htainted : Tainted codec path bound g) (hop : op.IsUpdate) (hnone : CreatesNone path op g) :
    Tainted codec path bound (MemoryGraph.apply codec judge op g) := by
  cases op with
  | upsertNode id label content nodeType =>
    exact htainted.upsertNode hkeeps id label content nodeType hnone
  | addEdge source target weight edgeType =>
    exact htainted.of_rewired (rewired_addEdge g _ _ _ _)
  | setPendingCalls | setPendingDataRefs | setPendingAliases | setPendingMethods
  | markDataSymbol => exact htainted.congr rfl rfl rfl
  | tick | removeNode | touch | enforcePaging | pageIn | pruneDanglingEdges | resolveAll
  | attachColdSpill | setColdContentBudget | setColdResidentBudget => cases hop

theorem run_updates {steps : List MemoryGraph.Step} (hkeeps : KeepsTrust codec)
    (htainted : Tainted codec path bound g) (hsteps : ∀ step ∈ steps, step.2.IsUpdate)
    (hnone : RunCreatesNone codec path g steps) :
    Tainted codec path bound (MemoryGraph.run codec g steps) := by
  induction steps generalizing g with
  | nil => exact htainted
  | cons step steps ih =>
    rw [forall_mem_cons] at hsteps
    exact ih (htainted.apply_update hkeeps hsteps.1 hnone.1) hsteps.2 hnone.2

end Tainted

/-! ## Later calls -/

/-- The graph on which the update of an ingest starts. -/
def deltaStart (ingestor : Ingestor) (m : CcosMemory) (path clean : Str) : MemoryGraph :=
  match ingestor.mutationOp m.sources[fileId path]? clean with
  | .fileModified => evictFileNodes m.graph path
  | .fileAdded | .noChange => m.graph

/-- The operations of the update of an ingest. -/
def deltaSteps (ingestor : Ingestor) (judges : Judges) (m : CcosMemory) (path clean : Str) :
    List MemoryGraph.Step :=
  match ingestor.mutationOp m.sources[fileId path]? clean with
  | .fileAdded | .fileModified => judged judges (ingestor.versionOps path clean)
  | .noChange => []

theorem delta_eq_run (ingestor : Ingestor) (judges : Judges) (m : CcosMemory) (path clean : Str) :
    (m.delta ingestor judges path clean).1 = MemoryGraph.run ingestor.codec
      (deltaStart ingestor m path clean) (deltaSteps ingestor judges m path clean) := by
  rw [CcosMemory.delta, Ingestor.processDelta, Ingestor.applyDelta, deltaStart, deltaSteps]
  cases ingestor.mutationOp m.sources[fileId path]? clean with
  | fileAdded => rfl
  | fileModified => rfl
  | noChange => rfl

theorem forall_judged {judges : Judges} {ops : List Op} {P : Op → Prop}
    (hops : ∀ op ∈ ops, P op) : ∀ step ∈ judged judges ops, P step.2 := by
  intro step hstep
  apply hops
  have hmem : step.2 ∈ (judged judges ops).map Prod.snd := mem_map_of_mem hstep
  rwa [map_snd_judged] at hmem

theorem weighted_deltaSteps (ingestor : Ingestor) (judges : Judges) (m : CcosMemory)
    (path clean : Str) :
    ∀ step ∈ deltaSteps ingestor judges m path clean, Op.IsWeighted step.2 := by
  have hversion : ∀ step ∈ judged judges (ingestor.versionOps path clean), Op.IsWeighted step.2 :=
    forall_judged (weighted_updateOps ingestor.headerSymbolCap _ clean)
  unfold deltaSteps
  split
  · exact hversion
  · exact hversion
  · exact fun step hstep ↦ absurd hstep not_mem_nil

theorem isUpdate_deltaSteps (ingestor : Ingestor) (judges : Judges) (m : CcosMemory)
    (path clean : Str) : ∀ step ∈ deltaSteps ingestor judges m path clean, step.2.IsUpdate :=
  fun step hstep ↦ (weighted_deltaSteps ingestor judges m path clean step hstep).1

/-- A call that leaves the taint of a file alone: it does not ingest the file again, creates no node
of the form of the file, and stamps no higher trust on one. -/
def SparesTaint (ingestor : Ingestor) (path : Str) (bound : ℚ) (m : CcosMemory) : Call → Prop
  | .ingestDeferred judges uri source =>
    uriPath uri ≠ path ∧
    RunCreatesNone ingestor.codec path
      (deltaStart ingestor m (uriPath uri) (ingestor.defang source).1)
      (deltaSteps ingestor judges m (uriPath uri) (ingestor.defang source).1) ∧
    ∀ trust, stampedTrust (ingestor.injectionProbability (ingestor.defang source).1)
        (ingestor.defang source).2 = some trust → trust ≤ bound ∨
      ∀ id ∈ (m.delta ingestor judges (uriPath uri) (ingestor.defang source).1).1.nodes,
        ofFile path id → ¬ ofFile (uriPath uri) id
  | .assertEvidence judges evidence claim _ _ =>
    (ofFile path evidence → evidence ∈ m.graph.nodes) ∧
    (ofFile path claim →
      claim ∈ (CcosMemory.ensureNode ingestor (judges 0) m.graph evidence).nodes)
  | _ => True

/-- Every call of a run leaves the taint of a file alone. -/
def RunSparesTaint (ingestor : Ingestor) (path : Str) (bound : ℚ) : CcosMemory → List Call → Prop
  | _, [] => True
  | m, call :: calls =>
    SparesTaint ingestor path bound m call ∧
    RunSparesTaint ingestor path bound (m.call ingestor call) calls

theorem stampedTrust_bounds {score : F64} {findings : List AnomalyKind} {trust : ℚ}
    (hstamped : stampedTrust score findings = some trust) : 0 ≤ trust ∧ trust ≤ 1 / 2 := by
  have hscore : flagged score = true → 0 ≤ distrust score ∧ distrust score ≤ 1 / 2 := by
    intro hflagged
    cases score with
    | nan => cases hflagged
    | infinite negative => norm_num [distrust]
    | finite value =>
      have hhalf : 1 / 2 ≤ value := of_decide_eq_true hflagged
      refine ⟨le_max_left 0 _, max_le (by norm_num) ?_⟩
      calc min (1 - value) 1 ≤ 1 - value := min_le_left _ _
        _ ≤ 1 / 2 := by linarith
  unfold stampedTrust at hstamped
  cases hflagged : flagged score with
  | false =>
    rw [hflagged] at hstamped
    cases hhard : hardAnomaly findings with
    | false => simp [hhard] at hstamped
    | true =>
      simp [hhard] at hstamped
      rw [← hstamped]
      norm_num
  | true =>
    rw [hflagged] at hstamped
    obtain ⟨hlow, hhigh⟩ := hscore hflagged
    cases hhard : hardAnomaly findings with
    | false =>
      simp [hhard] at hstamped
      rw [← hstamped]
      exact ⟨hlow, hhigh⟩
    | true =>
      simp [hhard] at hstamped
      rw [← hstamped]
      exact ⟨le_min hlow (by norm_num), min_le_of_left_le hhigh⟩

theorem graph_ingestDeferred (ingestor : Ingestor) (judges : Judges) (m : CcosMemory)
    (uri source : Str) :
    (m.ingestDeferred ingestor judges uri source).1.graph =
      CcosMemory.taint (m.delta ingestor judges (uriPath uri) (ingestor.defang source).1).1
        (uriPath uri) (stampedTrust (ingestor.injectionProbability (ingestor.defang source).1)
          (ingestor.defang source).2) := rfl

theorem rewired_resolve (m : CcosMemory) : MemoryGraph.Rewired m.graph m.resolve.1.graph := by
  unfold CcosMemory.resolve
  split
  · simp only []
    exact rewired_resolveAll m.graph
  · exact MemoryGraph.Rewired.refl m.graph

namespace Tainted

variable {ingestor : Ingestor} {path : Str} {bound : ℚ} {g : MemoryGraph}

/-- A stamp keeps the taint of a file if it is as low, or meets no node of the file. -/
theorem taint {codec : Codec} (hbound : 0 ≤ bound) (htainted : Tainted codec path bound g)
    (other : Str) (stamp : Option ℚ)
    (hstamp : ∀ trust, stamp = some trust → trust ≤ bound ∨
      ∀ id ∈ g.nodes, ofFile path id → ¬ ofFile other id) :
    Tainted codec path bound (CcosMemory.taint g other stamp) := by
  cases stamp with
  | none => exact htainted
  | some trust =>
    refine ⟨htainted.toColdTainted.congr rfl rfl, ?_⟩
    intro id node hnode hid
    simp only [CcosMemory.taint, stampFileTrust, Std.ExtTreeMap.getElem?_map] at hnode
    obtain ⟨old, hold, rfl⟩ := Option.map_eq_some_iff.mp hnode
    split
    · rename_i hother
      have hlow : trust ≤ bound := by
        apply (hstamp trust rfl).resolve_right
        intro hnone
        exact hnone id (mem_of_getElem?_eq_some hold) hid hother
      exact max_le hbound (min_le_of_left_le hlow)
    · exact htainted.nodes id old hold hid

theorem ensureNode (judge : Judge) {id : Str} (hkeeps : KeepsTrust ingestor.codec)
    (htainted : Tainted ingestor.codec path bound g) (hresident : ofFile path id → id ∈ g.nodes) :
    Tainted ingestor.codec path bound (CcosMemory.ensureNode ingestor judge g id) := by
  unfold CcosMemory.ensureNode
  split
  · exact htainted
  · exact htainted.upsertNode hkeeps id id [] .contextBlock hresident

theorem deltaStart {m : CcosMemory} (htainted : Tainted ingestor.codec path bound m.graph)
    (other clean : Str) :
    Tainted ingestor.codec path bound (deltaStart ingestor m other clean) := by
  unfold External.deltaStart
  split
  · exact htainted.evictFileNodes other
  · exact htainted
  · exact htainted

/-- A map over the resident nodes that changes no trust. -/
theorem map_nodes {codec : Codec} {f : Str → GraphNode → GraphNode}
    (htainted : Tainted codec path bound g) (hf : ∀ id node, (f id node).trust = node.trust) :
    OnFile path (fun node ↦ AtMost bound node.trust) (g.nodes.map f) := by
  apply htainted.nodes.map
  intro id node _ hnode
  rw [hf]
  exact hnode

/-- One call that spares the taint keeps it. -/
theorem call {m : CcosMemory} {call : Call} (hkeeps : KeepsTrust ingestor.codec)
    (hbound : 0 ≤ bound) (htainted : Tainted ingestor.codec path bound m.graph)
    (hspares : SparesTaint ingestor path bound m call) :
    Tainted ingestor.codec path bound (m.call ingestor call).graph := by
  have hstable := stable hkeeps path bound
  cases call with
  | ingestDeferred judges uri source =>
    obtain ⟨_, hnone, hstamp⟩ := hspares
    have hdelta : Tainted ingestor.codec path bound
        (m.delta ingestor judges (uriPath uri) (ingestor.defang source).1).1 := by
      rw [delta_eq_run]
      exact (htainted.deltaStart (uriPath uri) _).run_updates hkeeps
        (isUpdate_deltaSteps ingestor judges m (uriPath uri) _) hnone
    rw [CcosMemory.call, graph_ingestDeferred]
    exact hdelta.taint hbound (uriPath uri) _ hstamp
  | resolve => exact htainted.of_rewired (rewired_resolve m)
  | assertEvidence judges evidence claim supports weight =>
    have hevidence := htainted.ensureNode (judges 0) hkeeps hspares.1
    have hclaim := hevidence.ensureNode (judges 1) hkeeps hspares.2
    exact hclaim.of_rewired (rewired_addEdge _ _ _ _ _)
  | tick => exact ⟨htainted.toColdTainted.congr rfl rfl, htainted.map_nodes fun _ _ ↦ rfl⟩
  | pageIn judge id => exact hstable.pageIn id htainted fun _ _ ↦ trivial
  | press pressure =>
    refine ⟨htainted.toColdTainted.congr rfl rfl, htainted.map_nodes ?_⟩
    intro id node
    unfold CcosMemory.pressed
    split
    · rfl
    · rfl
  | setMaxResident judge cap =>
    have hcap : Tainted ingestor.codec path bound
        { m.graph with maxInMemoryNodes := max cap 1 } := htainted.congr rfl rfl rfl
    exact hstable.enforcePaging hcap fun _ _ ↦ trivial
  | attachColdSpill judge inlineBudget =>
    have hstore : Tainted ingestor.codec path bound (m.graph.withStore inlineBudget) :=
      ⟨⟨htainted.cold, OnFile.empty⟩, htainted.nodes⟩
    exact hstable.settles.enforceColdResidentBudget (hstable.settles.enforceColdBudget hstore)
      fun _ _ ↦ trivial
  | setColdContentBudget judge budget =>
    have hbudget : Tainted ingestor.codec path bound
        { m.graph with coldContentBudget := budget } := htainted.congr rfl rfl rfl
    exact hstable.settles.enforceColdContentBudget hbudget fun _ _ ↦ trivial
  | setColdResidentBudget judge budget =>
    have hbudget : Tainted ingestor.codec path bound
        { m.graph with coldResidentBudget := budget } := htainted.congr rfl rfl rfl
    exact hstable.settles.enforceColdResidentBudget hbudget fun _ _ ↦ trivial
  | reload => exact ⟨⟨htainted.cold, OnFile.empty⟩, htainted.nodes⟩

/-- A whole run of calls that spare the taint keeps it. -/
theorem calls {m : CcosMemory} {trace : List Call} (hkeeps : KeepsTrust ingestor.codec)
    (hbound : 0 ≤ bound) (htainted : Tainted ingestor.codec path bound m.graph)
    (hspares : RunSparesTaint ingestor path bound m trace) :
    Tainted ingestor.codec path bound (m.calls ingestor trace).graph := by
  induction trace generalizing m with
  | nil => exact htainted
  | cons call trace ih =>
    exact ih (htainted.call hkeeps hbound hspares.1) hspares.2

end Tainted

/-! ## The ingest itself -/

/-- The nodes that `enforce_paging` demotes. -/
def victims (judge : Judge) (g : MemoryGraph) : List Str :=
  (MemoryGraph.rankedIds (judge.priority g) g.nodes.toList).take
    (g.nodes.size - g.maxInMemoryNodes)

/-- The nodes that the paging of an update demotes. -/
def demotedBy (judge : Judge) (op : Op) (g : MemoryGraph) : List Str :=
  match op with
  | .upsertNode id label content nodeType =>
    victims judge (MemoryGraph.withUpserted g id label content nodeType)
  | _ => []

/-- No paging of a run demotes a node of the file. -/
def RunDemotesNone (codec : Codec) (path : Str) : MemoryGraph → List MemoryGraph.Step → Prop
  | _, [] => True
  | g, step :: steps =>
    (∀ victim ∈ demotedBy step.1 step.2 g, ¬ ofFile path victim) ∧
      RunDemotesNone codec path (MemoryGraph.apply codec step.1 step.2 g) steps

instance decidableRunDemotesNone (codec : Codec) (path : Str) :
    ∀ (g : MemoryGraph) (steps : List MemoryGraph.Step), Decidable (RunDemotesNone codec path g steps)
  | _, [] => isTrue trivial
  | g, step :: steps =>
    have := decidableRunDemotesNone codec path (MemoryGraph.apply codec step.1 step.2 g) steps
    inferInstanceAs (Decidable (_ ∧ _))

namespace ColdTainted

variable {codec : Codec} {path : Str} {bound : ℚ} {g : MemoryGraph}

theorem enforcePaging {judge : Judge} (hkeeps : KeepsTrust codec)
    (htainted : ColdTainted codec path bound g)
    (hnone : ∀ victim ∈ victims judge g, ¬ ofFile path victim) :
    ColdTainted codec path bound (MemoryGraph.enforcePaging codec judge g) := by
  unfold MemoryGraph.enforcePaging
  split
  · exact htainted
  · have hevicted : ColdTainted codec path bound (MemoryGraph.evicted judge g) :=
      (htainted.foldl_demote hnone).congr rfl rfl
    exact (settles hkeeps path bound).enforceBudgets hevicted fun _ _ ↦ trivial

theorem apply_update {judge : Judge} {op : Op} (hkeeps : KeepsTrust codec)
    (htainted : ColdTainted codec path bound g) (hop : op.IsUpdate)
    (hnone : ∀ victim ∈ demotedBy judge op g, ¬ ofFile path victim) :
    ColdTainted codec path bound (MemoryGraph.apply codec judge op g) := by
  cases op with
  | upsertNode id label content nodeType =>
    exact (htainted.withUpserted id label content nodeType).enforcePaging hkeeps hnone
  | addEdge source target weight edgeType =>
    exact htainted.of_rewired (rewired_addEdge g _ _ _ _)
  | setPendingCalls | setPendingDataRefs | setPendingAliases | setPendingMethods
  | markDataSymbol => exact htainted.congr rfl rfl
  | tick | removeNode | touch | enforcePaging | pageIn | pruneDanglingEdges | resolveAll
  | attachColdSpill | setColdContentBudget | setColdResidentBudget => cases hop

theorem run_updates {steps : List MemoryGraph.Step} (hkeeps : KeepsTrust codec)
    (htainted : ColdTainted codec path bound g) (hsteps : ∀ step ∈ steps, step.2.IsUpdate)
    (hnone : RunDemotesNone codec path g steps) :
    ColdTainted codec path bound (MemoryGraph.run codec g steps) := by
  induction steps generalizing g with
  | nil => exact htainted
  | cons step steps ih =>
    rw [forall_mem_cons] at hsteps
    exact ih (htainted.apply_update hkeeps hsteps.1 hnone.1) hsteps.2 hnone.2

/-- The taint pass brings the resident nodes of the file in line with its COLD nodes. -/
theorem stampFileTrust (hbound : 0 ≤ bound) (htainted : ColdTainted codec path bound g) :
    Tainted codec path bound (stampFileTrust g path bound) := by
  refine ⟨htainted.congr rfl rfl, ?_⟩
  intro id node hnode hid
  simp only [External.stampFileTrust, Std.ExtTreeMap.getElem?_map] at hnode
  obtain ⟨old, _, rfl⟩ := Option.map_eq_some_iff.mp hnode
  rw [if_pos hid]
  exact max_le hbound (min_le_left bound 1)

end ColdTainted

theorem coldTainted_delta {ingestor : Ingestor} {judges : Judges} {m : CcosMemory}
    {path clean : Str} {bound : ℚ} (hkeeps : KeepsTrust ingestor.codec)
    (hcold : ColdTainted ingestor.codec path bound m.graph)
    (hnone : RunDemotesNone ingestor.codec path (deltaStart ingestor m path clean)
      (deltaSteps ingestor judges m path clean)) :
    ColdTainted ingestor.codec path bound (m.delta ingestor judges path clean).1 := by
  have hstart : ColdTainted ingestor.codec path bound (deltaStart ingestor m path clean) := by
    unfold deltaStart
    split
    · exact hcold.evictFileNodes path
    · exact hcold
    · exact hcold
  rw [delta_eq_run]
  exact hstart.run_updates hkeeps (isUpdate_deltaSteps ingestor judges m path clean) hnone

/-! ## The main result -/

/-- **The taint of a flagged source is complete** in every state that later calls reach, if the
nodes of the file that are COLD before the ingest have no higher trust, the paging inside the ingest
demotes no node of the file, and no later call makes one anew. -/
theorem taint_complete (ingestor : Ingestor) (hkeeps : KeepsTrust ingestor.codec) (judges : Judges)
    (m : CcosMemory) (uri source : Str) (trust : ℚ)
    (hstamped : stampedTrust (ingestor.injectionProbability (ingestor.defang source).1)
      (ingestor.defang source).2 = some trust)
    (hcold : ColdTainted ingestor.codec (uriPath uri) trust m.graph)
    (hnone : RunDemotesNone ingestor.codec (uriPath uri)
      (deltaStart ingestor m (uriPath uri) (ingestor.defang source).1)
      (deltaSteps ingestor judges m (uriPath uri) (ingestor.defang source).1))
    (trace : List Call)
    (hspares : RunSparesTaint ingestor (uriPath uri) trust
      (m.ingestSource ingestor judges uri source).1 trace) :
    trust ≤ 1 / 2 ∧ Tainted ingestor.codec (uriPath uri) trust
      ((m.ingestSource ingestor judges uri source).1.calls ingestor trace).graph := by
  obtain ⟨hlow, hhigh⟩ := stampedTrust_bounds hstamped
  refine ⟨hhigh, ?_⟩
  have hstamp := (coldTainted_delta hkeeps hcold hnone).stampFileTrust hlow
  apply Tainted.calls hkeeps hlow _ hspares
  rw [graph_ingestSource, hstamped]
  exact hstamp.of_rewired (rewired_resolveAll _)

/-! ## A hostile file of two functions -/

/-- An ingest of letters whose classifier distrusts every source. -/
def wary : Ingestor :=
  { letterIngestor with injectionProbability := fun _ ↦ .finite (9 / 10) }

theorem keepsTrust_wary : KeepsTrust wary.codec where
  injective := fun _ _ heq ↦ heq
  trust := fun _ _ hparsed ↦ by cases hparsed

/-- With room for all nodes, the functions come back from the COLD tier as tainted as they went. -/
theorem taint_complete_twoLetters :
    Tainted wary.codec ['a'] (1 / 10)
      (((CcosMemory.new 3).ingestSource wary evenJudges ['a'] ['x', 'y']).1.calls wary
        [.setMaxResident MemoryGraph.evenJudge 1,
          .pageIn MemoryGraph.evenJudge (symId ['a'] ['x'])]).graph :=
  (taint_complete wary keepsTrust_wary evenJudges (CcosMemory.new 3) ['a'] ['x', 'y'] (1 / 10)
    (by decide +kernel) ⟨OnFile.empty, OnFile.empty⟩ (by decide +kernel)
    [.setMaxResident MemoryGraph.evenJudge 1, .pageIn MemoryGraph.evenJudge (symId ['a'] ['x'])]
    ⟨trivial, trivial, trivial⟩).2

/-- With room for one node, the first function is demoted before the taint pass. -/
theorem not_every_taint_complete :
    ¬ ∀ (cap : ℕ) (uri source : Str) (trust : ℚ),
      stampedTrust (wary.injectionProbability (wary.defang source).1) (wary.defang source).2 =
        some trust →
      Tainted wary.codec (uriPath uri) trust
        ((CcosMemory.new cap).ingestSource wary evenJudges uri source).1.graph := by
  intro hall
  have htainted := hall 1 ['a'] ['x', 'y'] (1 / 10) (by decide +kernel)
  have hentry : ((((CcosMemory.new 1).ingestSource wary evenJudges ['a'] ['x', 'y']).1.graph.cold[
      symId ['a'] ['x']]?).map fun entry ↦ entry.node.trust) = some (.finite 1) := by
    decide +kernel
  obtain ⟨entry, hcold, htrust⟩ := Option.map_eq_some_iff.mp hentry
  have hlow : AtMost (1 / 10) entry.node.trust := htainted.cold _ entry hcold (by decide)
  rw [htrust] at hlow
  revert hlow
  norm_num [AtMost]

end SoulSystem.Ccos.External
