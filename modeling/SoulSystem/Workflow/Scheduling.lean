import SoulSystem.Workflow.Engine

/-!
# The schedule of a workflow

A run executes the nodes in a topological order up to the first node with a dependency whose output
counts as the message of a failure.  Failures have such outputs, so no node is executed after a
failed dependency. An output of a node that did not fail may look the same, and then a run that
executes all nodes without a failure ends as failed.  A cycle is reported unless a definition
without a kind is found before.
-/

namespace SoulSystem.Workflow

open Library Std List WorkflowConfig

variable {exec : Executions} {sorted done : List Node} {node : Node} {outputs : Outputs}
  {executed : Executed} {dep : Str}

/-! ## What a run reports -/

/-- The executions of a run that returned. -/
def executedOf : Except EngineError (WorkflowResult × Executed) → Executed
  | .ok (_, executed) => executed
  | .error _ => []

def Succeeded (outcome : Except EngineError (WorkflowResult × Executed)) : Prop :=
  ∃ result executed, outcome = .ok (result, executed) ∧ result.status = .success

/-- How the execution of a definition ends. -/
def resultOf (exec : Executions) (d : NodeDef) : NodeResult := execute exec d.id d.loop

/-- Every node is executed at most once, after its dependencies, and only if none of them failed;
and the run succeeds if and only if all nodes were executed and none failed. -/
structure Scheduled (config : WorkflowConfig) (exec : Executions)
    (outcome : Except EngineError (WorkflowResult × Executed)) : Prop where
  ran : ∀ p ∈ executedOf outcome, ∃ d ∈ config.nodes, p = (d.id, resultOf exec d)
  once : ((executedOf outcome).map Prod.fst).Nodup
  after : ∀ pre id result post, executedOf outcome = pre ++ (id, result) :: post →
    ∀ dep, config.Dependency dep id → ∃ found, (dep, found) ∈ pre ∧ ∀ err, found ≠ .failed err
  succeeds : Succeeded outcome ↔
    (∀ d ∈ config.nodes, d.id ∈ (executedOf outcome).map Prod.fst) ∧
      ∀ p ∈ executedOf outcome, ∀ err, p.2 ≠ .failed err

/-- The run reports a cycle exactly when there is one, and schedules the nodes otherwise. -/
def RunsCorrectly (config : WorkflowConfig) (exec : Executions)
    (outcome : Except EngineError (WorkflowResult × Executed)) : Prop :=
  (outcome = .error .cycle ↔ config.Cyclic) ∧ (¬ config.Cyclic → Scheduled config exec outcome)

/-- No node fails, but the output of some node looks like a failure, and no node depends on such a
one. -/
structure Mistaken (config : WorkflowConfig) (exec : Executions) : Prop where
  fine : ∀ d ∈ config.nodes, ∀ err, resultOf exec d ≠ .failed err
  looks : ∃ d ∈ config.nodes, isError (resultOf exec d).text = true
  last : ∀ d ∈ config.nodes, isError (resultOf exec d).text = true →
    ∀ d' ∈ config.nodes, d.id ∉ d'.dependsOn

/-- A cycle comes with definitions that all have a kind, and no output is mistaken for a failure. -/
def Unmistaken (config : WorkflowConfig) (exec : Executions) : Prop :=
  (config.Cyclic → ∀ d ∈ config.nodes, WorkflowConfig.Typed d) ∧
    (¬ config.Cyclic → (∀ d ∈ config.nodes, WorkflowConfig.Typed d) → ¬ Mistaken config exec)

section Run

variable {config : WorkflowConfig} {nodes left : List Node} {ended : Option WorkflowStatus}
  {toposort : DiGraph → Option (List ℕ)}

/-- An outcome without executions is scheduled if there are nodes. -/
theorem scheduled_error {error : EngineError} (hnodes : config.nodes ≠ []) :
    Scheduled config exec (.error error) where
  ran p hp := absurd hp not_mem_nil
  once := nodup_nil
  after pre id result post hsplit := by
    rw [executedOf] at hsplit
    exact absurd hsplit.symm (append_ne_nil_of_right_ne_nil pre (cons_ne_nil _ _))
  succeeds := by
    obtain ⟨d, hd⟩ := exists_mem_of_ne_nil _ hnodes
    refine iff_of_false ?_ fun hall ↦ absurd (hall.1 d hd) not_mem_nil
    rintro ⟨result, executed, houtcome, _⟩
    cases houtcome

/-- The nodes of a valid config in a topological order. -/
structure SortedNodes (config : WorkflowConfig) (nodes sorted : List Node) : Prop where
  valid : config.Valid
  built : config.buildNodes = .ok nodes
  perm : sorted.Perm nodes
  topological : IsTopological (nodes.map Node.id) config.Dependency (sorted.map Node.id)

namespace SortedNodes

theorem nodup (hsorted : SortedNodes config nodes sorted) : (sorted.map Node.id).Nodup :=
  hsorted.topological.perm.nodup_iff.mpr (nodup_of_valid hsorted.valid hsorted.built)

theorem exists_def (hsorted : SortedNodes config nodes sorted) (exec : Executions)
    (hnode : node ∈ sorted) :
    ∃ d ∈ config.nodes, d.id = node.id ∧ d.dependsOn = node.dependsOn ∧
      resultOf exec d = executeWithLoop exec node := by
  obtain ⟨d, hd, hid, hdeps, hloop⟩ :=
    exists_def_of_mem hsorted.built (hsorted.perm.mem_iff.mp hnode)
  exact ⟨d, hd, hid, hdeps, by rw [resultOf, executeWithLoop, hid, hloop]⟩

theorem exists_node (hsorted : SortedNodes config nodes sorted) (exec : Executions) {d : NodeDef}
    (hd : d ∈ config.nodes) : ∃ node ∈ sorted, d.id = node.id ∧ d.dependsOn = node.dependsOn ∧
      resultOf exec d = executeWithLoop exec node := by
  obtain ⟨node, hnode, hid, hdeps, hloop⟩ := exists_node_of_mem hsorted.built hd
  exact ⟨node, hsorted.perm.mem_iff.mpr hnode, hid, hdeps,
    by rw [resultOf, executeWithLoop, hid, hloop]⟩

/-- The dependencies of a node come before it. -/
theorem exists_before (hsorted : SortedNodes config nodes sorted) {pre post : List Node}
    (hsplit : sorted = pre ++ node :: post) (hdep : dep ∈ node.dependsOn) :
    ∃ m ∈ pre, m.id = dep := by
  have hnode : node ∈ nodes := by
    rw [← hsorted.perm.mem_iff, hsplit]
    exact mem_append_right pre mem_cons_self
  have hdependency := (dependency_iff hsorted.valid hsorted.built hnode dep).mpr hdep
  have hids : sorted.map Node.id = pre.map Node.id ++ node.id :: post.map Node.id := by
    rw [hsplit, map_append, map_cons]
  exact List.mem_map.mp (hsorted.topological.forward _ _ _ hids dep hdependency)

end SortedNodes

/-- A run executes all nodes if and only if no node depends on one that looks failed. -/
theorem Ends.left_eq_nil_iff (hends : Ends exec sorted done left outputs executed ended)
    (hsorted : SortedNodes config nodes sorted) :
    left = [] ↔ ∀ m ∈ sorted, LooksFailed exec m → ∀ node ∈ sorted, m.id ∉ node.dependsOn := by
  constructor
  · intro hleft m hm hfailed node hnode hdep
    obtain ⟨pre, post, hsplit⟩ := append_of_mem hnode
    obtain ⟨other, hother, hid⟩ := hsorted.exists_before hsplit hdep
    have hmem : other ∈ sorted := by
      rw [hsplit]
      exact mem_append_left _ hother
    rw [inj_on_of_nodup_map hsorted.nodup hmem hm hid] at hother
    have hdone : done = sorted := by rw [hends.split, hleft, append_nil]
    exact hends.undisturbed pre node post (hdone.trans hsplit) m hother hdep hfailed
  · intro hall
    have hsplit := hends.split
    cases hends.stops with
    | all => rfl
    | @early node m rest msg hm hdep hfailed =>
      have hm' : m ∈ sorted := by
        rw [hsplit]
        exact mem_append_left _ hm
      have hnode : node ∈ sorted := by
        rw [hsplit]
        exact mem_append_right done mem_cons_self
      exact absurd hdep (hall m hm' hfailed node hnode)

/-- A run succeeds if and only if it executes all nodes and none looks failed. -/
theorem Ends.status_eq_success_iff (hends : Ends exec sorted done left outputs executed ended) :
    ended.getD (finalStatus outputs) = .success ↔
      left = [] ∧ ∀ node ∈ sorted, ¬ LooksFailed exec node := by
  have hsplit := hends.split
  cases hends.stops with
  | all =>
    rw [append_nil] at hsplit
    rw [Option.getD_none, finalStatus_eq_success_iff hends.ran, hsplit]
    exact (and_iff_right rfl).symm
  | early rest msg => exact iff_of_false (fun hstatus ↦ nomatch hstatus) fun hall ↦ nomatch hall.1

theorem Ends.forall_mem_executed_iff (hends : Ends exec sorted done left outputs executed ended)
    (hsorted : SortedNodes config nodes sorted) :
    (∀ d ∈ config.nodes, d.id ∈ executed.map Prod.fst) ↔ left = [] := by
  have hids : executed.map Prod.fst = done.map Node.id := by
    rw [hends.ran.executed, map_map]
    rfl
  rw [hids]
  constructor
  · intro hall
    by_contra hleft
    obtain ⟨node, hnode⟩ := exists_mem_of_ne_nil left hleft
    have hmem : node ∈ sorted := by
      rw [hends.split]
      exact mem_append_right done hnode
    obtain ⟨d, hd, hid, _⟩ := hsorted.exists_def exec hmem
    have hnodup := hsorted.nodup
    rw [hends.split, map_append] at hnodup
    exact disjoint_of_nodup_append hnodup (hid ▸ hall d hd) (mem_map_of_mem hnode)
  · intro hleft d hd
    obtain ⟨node, hnode, hid, _⟩ := hsorted.exists_node exec hd
    rw [hends.split, hleft, append_nil] at hnode
    rw [hid]
    exact mem_map_of_mem hnode

theorem Ends.isPrefix (hends : Ends exec sorted done left outputs executed ended)
    (hnode : node ∈ done) : node ∈ sorted := by
  rw [hends.split]
  exact mem_append_left left hnode

/-- What a run executes, and when. -/
theorem Ends.after (hends : Ends exec sorted done left outputs executed ended)
    (hsorted : SortedNodes config nodes sorted) {pre post : Executed} {id : Str} {result : NodeResult}
    (hsplit : executed = pre ++ (id, result) :: post) (hdep : config.Dependency dep id) :
    ∃ found, (dep, found) ∈ pre ∧ ∀ err, found ≠ .failed err := by
  rw [hends.ran.executed] at hsplit
  obtain ⟨front, back, hdone, rfl, hback⟩ := List.map_eq_append_iff.mp hsplit
  obtain ⟨node, last, rfl, hnode, _⟩ := List.map_eq_cons_iff.mp hback
  cases hnode
  have hmem : node ∈ nodes := by
    rw [← hsorted.perm.mem_iff, hends.split, hdone]
    exact mem_append_left left (mem_append_right front mem_cons_self)
  have hdep' := (dependency_iff hsorted.valid hsorted.built hmem dep).mp hdep
  have hwhole : sorted = front ++ node :: (last ++ left) := by
    rw [hends.split, hdone, append_assoc, cons_append]
  obtain ⟨m, hm, rfl⟩ := hsorted.exists_before hwhole hdep'
  refine ⟨_, mem_map_of_mem hm, fun err herr ↦ ?_⟩
  apply hends.undisturbed front node last hdone m hm hdep'
  rw [LooksFailed, herr]
  exact isError_text_failed err

theorem looksFailed_of_failed {err : Str} (herr : executeWithLoop exec node = .failed err) :
    LooksFailed exec node := by
  rw [LooksFailed, herr]
  exact isError_text_failed err

theorem SortedNodes.mistaken_iff (hsorted : SortedNodes config nodes sorted) :
    Mistaken config exec ↔ (∀ node ∈ sorted, ∀ err, executeWithLoop exec node ≠ .failed err) ∧
      (∃ node ∈ sorted, LooksFailed exec node) ∧
      ∀ m ∈ sorted, LooksFailed exec m → ∀ node ∈ sorted, m.id ∉ node.dependsOn := by
  constructor
  · intro hmistaken
    refine ⟨fun node hnode ↦ ?_, ?_, fun m hm hfailed node hnode ↦ ?_⟩
    · obtain ⟨d, hd, _, _, hresult⟩ := hsorted.exists_def exec hnode
      exact hresult ▸ hmistaken.fine d hd
    · obtain ⟨d, hd, herror⟩ := hmistaken.looks
      obtain ⟨node, hnode, _, _, hresult⟩ := hsorted.exists_node exec hd
      rw [hresult] at herror
      exact ⟨node, hnode, herror⟩
    · obtain ⟨d, hd, hid, _, hresult⟩ := hsorted.exists_def exec hm
      obtain ⟨d', hd', _, hdeps, _⟩ := hsorted.exists_def exec hnode
      rw [← hid, ← hdeps]
      exact hmistaken.last d hd (hresult ▸ hfailed) d' hd'
  · rintro ⟨hfine, ⟨node, hnode, hfailed⟩, hlast⟩
    constructor
    · intro d hd
      obtain ⟨node, hnode, _, _, hresult⟩ := hsorted.exists_node exec hd
      exact hresult ▸ hfine node hnode
    · obtain ⟨d, hd, _, _, hresult⟩ := hsorted.exists_def exec hnode
      exact ⟨d, hd, hresult ▸ hfailed⟩
    · intro d hd herror d' hd'
      obtain ⟨m, hm, hid, _, hresult⟩ := hsorted.exists_node exec hd
      obtain ⟨node, hnode, _, hdeps, _⟩ := hsorted.exists_node exec hd'
      rw [hid, hdeps]
      rw [hresult] at herror
      exact hlast m hm herror node hnode

/-- A run schedules the nodes unless an output is mistaken for a failure. -/
theorem Ends.scheduled_iff (hends : Ends exec sorted done left outputs executed ended)
    (hsorted : SortedNodes config nodes sorted) (name : Str) :
    Scheduled config exec (.ok (⟨name, outputs, ended.getD (finalStatus outputs)⟩, executed)) ↔
      ¬ Mistaken config exec := by
  have hsucceeded : Succeeded
      (.ok (⟨name, outputs, ended.getD (finalStatus outputs)⟩, executed)) ↔
        left = [] ∧ ∀ node ∈ sorted, ¬ LooksFailed exec node := by
    rw [← hends.status_eq_success_iff]
    constructor
    · rintro ⟨result, _, houtcome, hstatus⟩
      cases houtcome
      exact hstatus
    · exact fun hstatus ↦ ⟨_, _, rfl, hstatus⟩
  have hfine : left = [] → ((∀ p ∈ executed, ∀ err, p.2 ≠ .failed err) ↔
      ∀ node ∈ sorted, ∀ err, executeWithLoop exec node ≠ .failed err) := by
    intro hleft
    rw [hends.ran.executed, hends.split, hleft, append_nil, forall_mem_map]
  rw [hsorted.mistaken_iff]
  constructor
  · rintro hscheduled ⟨hall, ⟨node, hnode, hfailed⟩, hlast⟩
    have hleft := (hends.left_eq_nil_iff hsorted).mpr hlast
    have hsuccess := hscheduled.succeeds.mpr
      ⟨(hends.forall_mem_executed_iff hsorted).mpr hleft, (hfine hleft).mpr hall⟩
    exact (hsucceeded.mp hsuccess).2 node hnode hfailed
  · intro hunmistaken
    constructor
    · intro p hp
      rw [executedOf, hends.ran.executed] at hp
      obtain ⟨node, hnode, rfl⟩ := List.mem_map.mp hp
      obtain ⟨d, hd, hid, _, hresult⟩ := hsorted.exists_def exec (hends.isPrefix hnode)
      exact ⟨d, hd, by rw [hid, hresult]⟩
    · have hnodup := hsorted.nodup
      rw [hends.split, map_append] at hnodup
      rw [executedOf, hends.ran.executed, map_map]
      exact hnodup.of_append_left
    · exact fun pre id result post hsplit dep hdep ↦ hends.after hsorted hsplit hdep
    · rw [hsucceeded, executedOf, hends.forall_mem_executed_iff hsorted]
      apply and_congr_right
      intro hleft
      rw [hfine hleft]
      constructor
      · exact fun hlooks node hnode err herr ↦ hlooks node hnode (looksFailed_of_failed herr)
      · intro hall node hnode hfailed
        exact hunmistaken
          ⟨hall, ⟨node, hnode, hfailed⟩, (hends.left_eq_nil_iff hsorted).mp hleft⟩

/-! ## All runs -/

/-- The nodes in the order that the topological sort gives for their graph. -/
theorem sortedNodes_of_order {graph : DiGraph} {order : List ℕ} (hvalid : config.Valid)
    (hnodes : config.buildNodes = .ok nodes) (hgraph : buildGraph nodes = .ok graph)
    (horder : IsTopological (List.range nodes.length) (fun i j ↦ (i, j) ∈ graph.edges) order) :
    SortedNodes config nodes (order.filterMap fun idx ↦ nodes[idx]?) where
  valid := hvalid
  built := hnodes
  perm := by
    have hperm := horder.perm.filterMap fun idx ↦ nodes[idx]?
    rwa [filterMap_range_getElem?] at hperm
  topological := isTopological_ids hvalid hnodes hgraph horder

theorem SortedNodes.not_cyclic (hsorted : SortedNodes config nodes sorted) : ¬ config.Cyclic := by
  have hnodup := nodup_of_valid hsorted.valid hsorted.built
  rintro ⟨id, hcycle⟩
  apply hsorted.topological.acyclic hnodup _ id hcycle
  rintro dep id ⟨d, hd, rfl, _⟩
  rw [map_id_of_buildNodes hsorted.built]
  exact mem_map_of_mem hd

/-- What a run gives for a config whose nodes and graph can be built. -/
theorem run_eq {engine : WorkflowEngine} {name : Str} {graph : DiGraph}
    (hconfig : engine.configs[name]? = some config) (hnodes : config.buildNodes = .ok nodes)
    (hgraph : buildGraph nodes = .ok graph) :
    engine.run toposort exec name = match toposort graph with
      | none => .error .cycle
      | some order =>
        let ran := runNodes exec (order.filterMap fun idx ↦ nodes[idx]?) ∅ []
        .ok (⟨name, ran.1, ran.2.2.getD (finalStatus ran.1)⟩, ran.2.1) := by
  rw [WorkflowEngine.run, hconfig]
  dsimp only
  rw [hnodes, Except.mapError, Outcome.ok_bind, buildDag, hgraph, Outcome.ok_bind]
  cases toposort graph with
  | none => rfl
  | some order => rfl

theorem run_eq_error {engine : WorkflowEngine} {name : Str} {error : ConfigError}
    (hconfig : engine.configs[name]? = some config) (herror : config.buildNodes = .error error) :
    engine.run toposort exec name = .error (.config error) := by
  rw [WorkflowEngine.run, hconfig]
  dsimp only
  rw [herror]
  rfl

/-- **The schedule of a workflow.**  For every config that the validation accepts and every outcome
of the executions, a run reports exactly the cycles and schedules the nodes if and only if no cycle
comes with a definition without a kind, and no output is mistaken for a failure. -/
theorem run_correct_iff {engine : WorkflowEngine} {name : Str}
    (hconfig : engine.configs[name]? = some config) (hvalidate : config.validate = .ok ())
    (hsorts : ∀ nodes graph, config.buildNodes = .ok nodes → buildGraph nodes = .ok graph →
      Sorts graph (toposort graph))
    (happroval : ∀ id iteration info, exec.result id iteration ≠ .needsApproval info) :
    RunsCorrectly config exec (engine.run toposort exec name) ↔ Unmistaken config exec := by
  have hvalid := WorkflowConfig.validate_eq_ok_iff.mp hvalidate
  by_cases htyped : ∀ d ∈ config.nodes, WorkflowConfig.Typed d
  · obtain ⟨nodes, hnodes⟩ := exists_buildNodes htyped
    obtain ⟨graph, hgraph, hcount⟩ :=
      exists_buildGraph (nodup_of_valid hvalid hnodes) (known_of_valid hvalid hnodes)
    have hsort := hsorts nodes graph hnodes hgraph
    rw [run_eq hconfig hnodes hgraph]
    cases horder : toposort graph with
    | none =>
      have hcyclic := cyclic_of_cycle hvalid hnodes hgraph (hsort.cycle horder)
      exact iff_of_true ⟨iff_of_true rfl hcyclic, absurd hcyclic⟩
        ⟨fun _ ↦ htyped, absurd hcyclic⟩
    | some order =>
      have htopological := hsort.order order horder
      rw [hcount] at htopological
      have hsorted := sortedNodes_of_order hvalid hnodes hgraph htopological
      obtain ⟨done, left, hends⟩ :=
        exists_ends_runNodes happroval hsorted.nodup ran_empty (by
          intro pre node post hsplit
          cases pre <;> cases hsplit)
      have hscheduled := hends.scheduled_iff hsorted name
      have hacyclic := hsorted.not_cyclic
      constructor
      · intro hcorrect
        exact ⟨fun hcyclic ↦ absurd hcyclic hacyclic,
          fun _ _ ↦ hscheduled.mp (hcorrect.2 hacyclic)⟩
      · intro hunmistaken
        exact ⟨iff_of_false (fun herror ↦ nomatch herror) hacyclic,
          fun _ ↦ hscheduled.mpr (hunmistaken.2 hacyclic htyped)⟩
  · obtain ⟨error, herror⟩ := exists_noType htyped
    have hnodes : config.nodes ≠ [] := by
      rintro hempty
      apply htyped
      rw [hempty]
      exact forall_mem_nil _
    rw [run_eq_error hconfig herror]
    constructor
    · intro hcorrect
      exact ⟨fun hcyclic ↦ (nomatch hcorrect.1.mpr hcyclic), fun _ hall ↦ absurd hall htyped⟩
    · intro hunmistaken
      exact ⟨iff_of_false (fun hcycle ↦ nomatch hcycle) fun hcyclic ↦ htyped (hunmistaken.1 hcyclic),
        fun _ ↦ scheduled_error hnodes⟩

end Run

/-! ## A chain of two nodes -/

/-- A definition of a node that runs a command. -/
def bashDef (id : Str) (dependsOn : List Str) (cmd : Str) : NodeDef where
  id := id
  dependsOn := dependsOn
  prompt := none
  model := none
  context := false
  bash := some cmd
  exitCode := 0
  timeout := none
  interactive := false
  parallel := []
  loop := none
  role := none
  goal := none
  backstory := none
  task := none

def chain : WorkflowConfig where
  name := "chain".toList
  description := []
  nodes := [bashDef "build".toList [] "make".toList,
    bashDef "scan".toList ["build".toList] "grep -c ERROR: log".toList]

def chainEngine : WorkflowEngine := ⟨(∅ : ExtTreeMap Str WorkflowConfig).insert "chain".toList chain⟩

/-- The numbers of the nodes in their order. -/
def inOrder (graph : DiGraph) : Option (List ℕ) := some (List.range graph.nodeCount)

theorem sorts_inOrder {graph : DiGraph} (hup : ∀ i j, (i, j) ∈ graph.edges → i < j) :
    Sorts graph (inOrder graph) where
  order order horder := by
    cases horder
    refine ⟨List.Perm.refl _, fun pre j post hsplit i hedge ↦ ?_⟩
    have hsorted : (pre ++ j :: post).Pairwise (· < ·) := by
      rw [← hsplit]
      exact pairwise_lt_range
    have hi : i ∈ pre ++ j :: post := by
      have hj : j ∈ List.range graph.nodeCount := by
        rw [hsplit]
        exact mem_append_right pre mem_cons_self
      rw [← hsplit, mem_range]
      exact (hup i j hedge).trans (List.mem_range.mp hj)
    rcases List.mem_append.mp hi with hmem | hmem
    · exact hmem
    · have hle : j ≤ i := by
        rcases List.mem_cons.mp hmem with heq | hlater
        · exact heq.ge
        · exact (rel_of_pairwise_cons (List.pairwise_append.mp hsorted).2.1 hlater).le
      exact absurd (hup i j hedge) (Nat.not_lt.mpr hle)
  cycle hnone := nomatch hnone

theorem sorts_chain {nodes : List Node} {graph : DiGraph} (hnodes : chain.buildNodes = .ok nodes)
    (hgraph : buildGraph nodes = .ok graph) : Sorts graph (inOrder graph) := by
  have hedges : (chain.buildNodes.mapError EngineError.config >>= buildGraph) = .ok ⟨2, [(0, 1)]⟩ := by
    decide +kernel
  rw [hnodes, Except.mapError, Outcome.ok_bind, hgraph] at hedges
  cases hedges
  apply sorts_inOrder
  intro i j hedge
  rw [mem_singleton, Prod.mk.injEq] at hedge
  omega

/-- The first node fails. -/
def buildFails : Executions where
  result _ _ := .failed "exit Some(2)".toList
  testsPass _ _ _ := false

theorem typed_chain : ∀ d ∈ chain.nodes, WorkflowConfig.Typed d := by
  intro d hd
  rcases List.mem_pair.mp hd with rfl | rfl
  · exact .inr (.inr (.inl rfl))
  · exact .inr (.inr (.inl rfl))

theorem run_correct_chain_buildFails :
    RunsCorrectly chain buildFails (chainEngine.run inOrder buildFails "chain".toList) := by
  have hfound : chainEngine.configs["chain".toList]? = some chain := ExtTreeMap.getElem?_insert_self
  have happroval : ∀ id iteration info,
      buildFails.result id iteration ≠ .needsApproval info := fun _ _ _ ↦ nofun
  apply (run_correct_iff hfound rfl (fun _ _ ↦ sorts_chain) happroval).mpr
  exact ⟨fun _ ↦ typed_chain, fun _ _ hmistaken ↦ hmistaken.fine _ mem_cons_self _ rfl⟩

/-- Both commands succeed, and the second one prints the pattern that it looked for. -/
def scanPrints : Executions where
  result id _ := .success (if id = "scan".toList then "ERROR: 0 lines".toList else "done".toList)
  testsPass _ _ _ := false

/-- A run in which both nodes succeed ends as failed. -/
theorem not_all_run_correct : ¬ ∀ (engine : WorkflowEngine) (toposort : DiGraph → Option (List ℕ))
    (exec : Executions) (name : Str) (config : WorkflowConfig),
    engine.configs[name]? = some config → config.validate = .ok () →
    (∀ nodes graph, config.buildNodes = .ok nodes → buildGraph nodes = .ok graph →
      Sorts graph (toposort graph)) →
    (∀ id iteration info, exec.result id iteration ≠ .needsApproval info) →
    RunsCorrectly config exec (engine.run toposort exec name) := by
  intro hall
  have hfound : chainEngine.configs["chain".toList]? = some chain := ExtTreeMap.getElem?_insert_self
  have happroval : ∀ id iteration info,
      scanPrints.result id iteration ≠ .needsApproval info := fun _ _ _ ↦ nofun
  have hcorrect := hall chainEngine inOrder scanPrints "chain".toList chain hfound rfl
    (fun _ _ ↦ sorts_chain) happroval
  have hrun : (chainEngine.run inOrder scanPrints "chain".toList).map
      (fun outcome ↦ (outcome.1.status, outcome.2)) =
        .ok (.failed "one or more nodes failed".toList,
          [("build".toList, .success "done".toList), ("scan".toList, .success "ERROR: 0 lines".toList)]) := by
    decide +kernel
  cases houtcome : chainEngine.run inOrder scanPrints "chain".toList with
  | error error =>
    rw [houtcome] at hrun
    cases hrun
  | ok outcome =>
    obtain ⟨result, executed⟩ := outcome
    rw [houtcome] at hcorrect hrun
    obtain ⟨hstatus, hexecuted⟩ := Prod.mk.inj (Except.ok.inj hrun)
    dsimp only at hstatus hexecuted
    have hids : ∀ d ∈ chain.nodes, d.id ∈ executed.map Prod.fst := by
      rw [hexecuted]
      intro d hd
      rcases List.mem_pair.mp hd with rfl | rfl
      · exact mem_cons_self
      · exact mem_cons_of_mem _ mem_cons_self
    have hfine : ∀ p ∈ executed, ∀ err, p.2 ≠ .failed err := by
      rw [hexecuted]
      intro p hp err
      rcases List.mem_pair.mp hp with rfl | rfl
      · exact nofun
      · exact nofun
    have hscheduled := hcorrect.2 fun hcyclic ↦ nomatch hcorrect.1.mpr hcyclic
    obtain ⟨_, _, heq, hsuccess⟩ := hscheduled.succeeds.mpr ⟨hids, hfine⟩
    cases heq
    rw [hsuccess] at hstatus
    cases hstatus

end SoulSystem.Workflow
