import SoulSystem.Library.DepthFirst
import SoulSystem.Workflow.Config

/-!
# The workflow engine

A run builds the nodes and the graph of their dependencies, sorts the graph topologically and
executes the nodes in that order.  Outputs and failures go into one map of strings, in which a
failure is what starts with a prefix.  The run ends early before the first node with a failed
dependency, or when a node needs approval.

The topological sort is a parameter, and so is what each execution of a node gives.  The run also
tells which executions it made, in their order.

An edge of the graph leads from a node to one that depends on it, so the graph has a cycle if and
only if the dependencies of the config have, and a topological order of the graph is one of the ids.

The map of outputs holds a text for every node that was executed.  The run over the nodes in their
order ends after the last one, or before the first one with a dependency whose text counts as the
message of a failure.
-/

namespace SoulSystem.Workflow

open Library Std List

inductive NodeResult where
  | success (output : Str)
  | failed (err : Str)
  | needsApproval (info : Str)
  | looping (iteration : ℕ) (output : Str)
  deriving DecidableEq, Repr

inductive WorkflowStatus where
  | success
  | failed (msg : Str)
  | needsApproval (info : Str)
  deriving DecidableEq, Repr

inductive EngineError where
  | notFound (name : Str)
  | config (error : ConfigError)
  | cycle
  | nodeFailed (dep : Str)
  deriving DecidableEq, Repr

/-- What the executions of the nodes give: the result of a node in an iteration, and whether a
command exits with 0 in the sandbox after it. -/
structure Executions where
  result : Str → ℕ → NodeResult
  testsPass : Str → ℕ → Str → Bool

/-! ## Loops -/

/-- The rounds of a loop after `iteration` of them. -/
def loopFrom (exec : Executions) (id : Str) (loop : LoopConfig) (iteration : ℕ) : NodeResult :=
  let iteration := iteration + 1
  let result := exec.result id iteration
  if loop.condition.isSatisfied (exec.testsPass id iteration) iteration then result
  else if loop.maxIterations ≤ iteration then
    match result with
    | .success output => .success output
    | .looping _ output => .success output
    | other => other
  else loopFrom exec id loop iteration
termination_by loop.maxIterations - iteration

/-- Execute a node with an id, handling its loop if there is one. -/
def execute (exec : Executions) (id : Str) : Option LoopConfig → NodeResult
  | none => exec.result id 1
  | some loop => loopFrom exec id loop 0

def executeWithLoop (exec : Executions) (node : Node) : NodeResult :=
  execute exec node.id node.loopConfig

/-! ## The graph -/

/-- A graph on the numbers below a bound, with its edges as they were added. -/
structure DiGraph where
  nodeCount : ℕ
  edges : List (ℕ × ℕ)
  deriving DecidableEq, Repr

def indexIds (nodes : List Node) : ExtTreeMap Str ℕ :=
  (nodes.map Node.id).zipIdx.foldl (fun ids p ↦ ids.insert p.1 p.2) ∅

/-- The edges to a node from its dependencies. -/
def edgesTo (ids : ExtTreeMap Str ℕ) (node : Node) : Except EngineError (List (ℕ × ℕ)) :=
  node.dependsOn.mapM fun dep ↦
    match ids[dep]? with
    | some src => .ok (src, ids.getD node.id 0)
    | none => .error (.nodeFailed dep)

def buildGraph (nodes : List Node) : Except EngineError DiGraph := do
  let edges ← nodes.mapM (edgesTo (indexIds nodes))
  return ⟨nodes.length, edges.flatten⟩

/-- Build a DAG from node dependencies and return the topologically sorted nodes. -/
def buildDag (toposort : DiGraph → Option (List ℕ)) (nodes : List Node) :
    Except EngineError (List ℕ) := do
  let graph ← buildGraph nodes
  match toposort graph with
  | some sorted => .ok sorted
  | none => .error .cycle

/-! ## Runs -/

abbrev Outputs := ExtTreeMap Str Str

structure WorkflowResult where
  workflowName : Str
  outputs : Outputs
  status : WorkflowStatus

/-- The executions of a run, in their order. -/
abbrev Executed := List (Str × NodeResult)

/-- An output that counts as the message of a failure. -/
def isError (output : Str) : Bool := "ERROR:".toList.isPrefixOf output

/-- What the map of outputs holds for a result. -/
def NodeResult.text : NodeResult → Str
  | .success output => output
  | .failed err => "ERROR: ".toList ++ err
  | .needsApproval info => info
  | .looping _ output => output

/-- The message about the first dependency that failed. -/
def failedDependency (outputs : Outputs) (deps : List Str) : Option Str :=
  deps.findSome? fun dep ↦
    match outputs[dep]? with
    | some err =>
      if isError err then some ("dependency ".toList ++ dep ++ " failed: ".toList ++ err) else none
    | none => none

/-- Execute the nodes in their order, until the run ends early with a status. -/
def runNodes (exec : Executions) :
    List Node → Outputs → Executed → Outputs × Executed × Option WorkflowStatus
  | [], outputs, executed => (outputs, executed, none)
  | node :: rest, outputs, executed =>
    match failedDependency outputs node.dependsOn with
    | some msg => (outputs, executed, some (.failed msg))
    | none =>
      let result := executeWithLoop exec node
      let executed := executed ++ [(node.id, result)]
      match result with
      | .needsApproval info => (outputs, executed, some (.needsApproval info))
      | result => runNodes exec rest (outputs.insert node.id result.text) executed

def finalStatus (outputs : Outputs) : WorkflowStatus :=
  if outputs.toList.any (fun p ↦ isError p.2) then .failed "one or more nodes failed".toList
  else .success

/-- The workflows that an engine has. -/
structure WorkflowEngine where
  configs : ExtTreeMap Str WorkflowConfig

/-- Run a workflow by name. -/
def WorkflowEngine.run (engine : WorkflowEngine) (toposort : DiGraph → Option (List ℕ))
    (exec : Executions) (workflowName : Str) : Except EngineError (WorkflowResult × Executed) :=
  match engine.configs[workflowName]? with
  | none => .error (.notFound workflowName)
  | some config => do
      let nodes ← config.buildNodes.mapError EngineError.config
      let order ← buildDag toposort nodes
      let (outputs, executed, ended) :=
        runNodes exec (order.filterMap fun idx ↦ nodes[idx]?) ∅ []
      return (⟨workflowName, outputs, ended.getD (finalStatus outputs)⟩, executed)

/-! ## The graph of a workflow -/

section Graph

/-- What the topological sort gives for a graph: an order of its nodes, or nothing if there
is a cycle. -/
structure Sorts (graph : DiGraph) (sorted : Option (List ℕ)) : Prop where
  order : ∀ order, sorted = some order →
    IsTopological (List.range graph.nodeCount) (fun i j ↦ (i, j) ∈ graph.edges) order
  cycle : sorted = none → ∃ i, Relation.TransGen (fun i j ↦ (i, j) ∈ graph.edges) i i

variable {config : WorkflowConfig} {nodes : List Node} {graph : DiGraph} {i j : ℕ} {id : Str}

/-! ## Indices -/

theorem getElem?_indexIds (hnodup : (nodes.map Node.id).Nodup) :
    (indexIds nodes)[id]? = some i ↔ (nodes.map Node.id)[i]? = some id := by
  have hfst : (nodes.map Node.id).zipIdx.map Prod.fst = nodes.map Node.id := zipIdx_map_fst _ _
  have hfound : ∀ k, (nodes.map Node.id)[k]? = some id → (indexIds nodes)[id]? = some k := by
    intro k hk
    apply SortedMap.getElem?_foldl_insert_of_mem (fun k ↦ k)
    · rw [hfst]
      exact hnodup
    · exact List.mem_zipIdx_iff_getElem?.mpr hk
  constructor
  · intro hi
    by_cases hmem : id ∈ nodes.map Node.id
    · obtain ⟨k, hk⟩ := mem_iff_getElem?.mp hmem
      rw [hfound k hk] at hi
      rwa [← Option.some.inj hi]
    · rw [← hfst] at hmem
      have hnone := SortedMap.getElem?_foldl_insert_of_notMem (fun k : ℕ ↦ k)
        (∅ : ExtTreeMap Str ℕ) hmem
      rw [indexIds, hnone, ExtTreeMap.getElem?_empty] at hi
      cases hi
  · exact hfound i

/-! ## Edges -/

theorem mem_edgesTo_iff {ids : ExtTreeMap Str ℕ} {node : Node} {row : List (ℕ × ℕ)}
    (hok : edgesTo ids node = .ok row) :
    (i, j) ∈ row ↔ ∃ dep ∈ node.dependsOn, ids[dep]? = some i ∧ ids.getD node.id 0 = j := by
  rw [Outcome.mem_mapM_iff hok]
  apply exists_congr
  intro dep
  apply and_congr_right
  intro _
  cases ids[dep]? with
  | none => simp
  | some src => simp

theorem mem_edges_iff (hnodup : (nodes.map Node.id).Nodup) (hgraph : buildGraph nodes = .ok graph) :
    (i, j) ∈ graph.edges ↔ ∃ node dep, nodes[j]? = some node ∧ dep ∈ node.dependsOn ∧
      (nodes.map Node.id)[i]? = some dep := by
  obtain ⟨rows, hrows, hreturn⟩ := Outcome.bind_eq_ok.mp hgraph
  cases hreturn
  have hindex : ∀ k node, nodes[k]? = some node → (indexIds nodes).getD node.id 0 = k := by
    intro k node hk
    have hid : (nodes.map Node.id)[k]? = some node.id := by
      rw [getElem?_map, hk, Option.map_some]
    rw [ExtTreeMap.getD_eq_getD_getElem?, (getElem?_indexIds hnodup).mpr hid, Option.getD_some]
  rw [mem_flatten]
  constructor
  · rintro ⟨row, hrow, hedge⟩
    obtain ⟨node, hnode, hedges⟩ := (Outcome.mem_mapM_iff hrows).mp hrow
    obtain ⟨dep, hdep, hi, hj⟩ := (mem_edgesTo_iff hedges).mp hedge
    obtain ⟨k, hk⟩ := mem_iff_getElem?.mp hnode
    rw [hindex k node hk] at hj
    exact ⟨node, dep, hj ▸ hk, hdep, (getElem?_indexIds hnodup).mp hi⟩
  · rintro ⟨node, dep, hj, hdep, hi⟩
    obtain ⟨row, hrow, hedges⟩ := Outcome.exists_of_mem_mapM hrows (mem_of_getElem? hj)
    exact ⟨row, hrow, (mem_edgesTo_iff hedges).mpr
      ⟨dep, hdep, (getElem?_indexIds hnodup).mpr hi, hindex j node hj⟩⟩

/-- The graph is built if all dependencies are nodes. -/
theorem exists_buildGraph (hnodup : (nodes.map Node.id).Nodup)
    (hknown : ∀ node ∈ nodes, ∀ dep ∈ node.dependsOn, dep ∈ nodes.map Node.id) :
    ∃ graph, buildGraph nodes = .ok graph ∧ graph.nodeCount = nodes.length := by
  cases hrows : nodes.mapM (edgesTo (indexIds nodes)) with
  | ok rows =>
    refine ⟨⟨nodes.length, rows.flatten⟩, ?_, rfl⟩
    rw [buildGraph, hrows]
    rfl
  | error error =>
    obtain ⟨before, node, after, hsplit, _, hfail⟩ := Outcome.mapM_eq_error.mp hrows
    obtain ⟨first, dep, last, hdeps, _, hmissing⟩ := Outcome.mapM_eq_error.mp hfail
    have hnode : node ∈ nodes := by
      rw [hsplit]
      exact mem_append_right before mem_cons_self
    have hdep : dep ∈ node.dependsOn := by
      rw [hdeps]
      exact mem_append_right first mem_cons_self
    obtain ⟨k, hk⟩ := mem_iff_getElem?.mp (hknown node hnode dep hdep)
    rw [(getElem?_indexIds hnodup).mpr hk] at hmissing
    cases hmissing

/-! ## Cycles and orders of the ids -/

theorem filterMap_range_getElem? {α : Type*} (xs : List α) :
    (List.range xs.length).filterMap (fun i ↦ xs[i]?) = xs := by
  induction xs using List.reverseRecOn with
  | nil => rfl
  | append_singleton xs x ih =>
    have hsame : (List.range xs.length).filterMap (fun i ↦ (xs ++ [x])[i]?) =
        (List.range xs.length).filterMap (fun i ↦ xs[i]?) := by
      apply filterMap_congr
      intro i hi
      exact getElem?_append_left (List.mem_range.mp hi)
    rw [length_append, length_singleton, range_succ, filterMap_append, hsame, ih,
      filterMap_cons, getElem?_concat_length]
    rfl

/-- A cycle of the graph is one of the ids, whatever the dependencies are read from. -/
theorem transGen_of_cycle {R : Str → Str → Prop} (hnodup : (nodes.map Node.id).Nodup)
    (hdep : ∀ node ∈ nodes, ∀ dep ∈ node.dependsOn, R dep node.id)
    (hgraph : buildGraph nodes = .ok graph)
    (hcycle : ∃ i, Relation.TransGen (fun i j ↦ (i, j) ∈ graph.edges) i i) :
    ∃ id, Relation.TransGen R id id := by
  obtain ⟨i, hpath⟩ := hcycle
  let idOf : ℕ → Str := fun i ↦ ((nodes.map Node.id)[i]?).getD []
  refine ⟨idOf i, hpath.lift idOf ?_⟩
  intro a b hedge
  obtain ⟨node, dep, hb, hmem, ha⟩ := (mem_edges_iff hnodup hgraph).mp hedge
  have hsource : idOf a = dep := by rw [← Option.getD_some (a := dep), ← ha]
  have htarget : idOf b = node.id := by
    rw [← Option.getD_some (a := node.id), ← Option.map_some, ← hb, ← getElem?_map]
  rw [Function.onFun, hsource, htarget]
  exact hdep node (mem_of_getElem? hb) dep hmem

/-- An order of the graph is one of the ids. -/
theorem isTopological_of_order {R : Str → Str → Prop} (hnodup : (nodes.map Node.id).Nodup)
    (hknown : ∀ node ∈ nodes, ∀ dep ∈ node.dependsOn, dep ∈ nodes.map Node.id)
    (hdep : ∀ node ∈ nodes, ∀ dep, R dep node.id → dep ∈ node.dependsOn)
    (hgraph : buildGraph nodes = .ok graph) {order : List ℕ}
    (horder : IsTopological (List.range nodes.length) (fun i j ↦ (i, j) ∈ graph.edges) order) :
    IsTopological (nodes.map Node.id) R ((order.filterMap fun idx ↦ nodes[idx]?).map Node.id) := by
  have hids : (List.range nodes.length).filterMap (fun idx ↦ (nodes.map Node.id)[idx]?) =
      nodes.map Node.id := by
    rw [← length_map (f := Node.id)]
    exact filterMap_range_getElem? _
  have hsorted : (order.filterMap fun idx ↦ nodes[idx]?).map Node.id =
      order.filterMap fun idx ↦ (nodes.map Node.id)[idx]? := by
    rw [map_filterMap]
    simp only [getElem?_map]
  have hlift : ∀ j id, (nodes.map Node.id)[j]? = some id → ∀ dep, R dep id →
      ∃ i, (i, j) ∈ graph.edges ∧ (nodes.map Node.id)[i]? = some dep := by
    intro j id hj dep hrelated
    rw [getElem?_map] at hj
    obtain ⟨node, hnode, rfl⟩ := Option.map_eq_some_iff.mp hj
    have hmem := mem_of_getElem? hnode
    have hdep := hdep node hmem dep hrelated
    obtain ⟨i, hi⟩ := mem_iff_getElem?.mp (hknown node hmem dep hdep)
    exact ⟨i, (mem_edges_iff hnodup hgraph).mpr ⟨node, dep, hnode, hdep, hi⟩, hi⟩
  have htopological := horder.filterMap hlift
  rw [hids] at htopological
  rw [hsorted]
  exact htopological

section Valid

variable {node : Node}

theorem nodup_of_valid (hvalid : config.Valid) (hnodes : config.buildNodes = .ok nodes) :
    (nodes.map Node.id).Nodup := by
  rw [WorkflowConfig.map_id_of_buildNodes hnodes]
  exact hvalid.nodup

theorem known_of_valid (hvalid : config.Valid) (hnodes : config.buildNodes = .ok nodes) :
    ∀ node ∈ nodes, ∀ dep ∈ node.dependsOn, dep ∈ nodes.map Node.id := by
  intro node hnode dep hdep
  obtain ⟨d, hd, _, hdeps, _⟩ := WorkflowConfig.exists_def_of_mem hnodes hnode
  rw [WorkflowConfig.map_id_of_buildNodes hnodes]
  exact hvalid.known d hd dep (hdeps ▸ hdep)

/-- The dependencies of a node are those of its id. -/
theorem dependency_iff (hvalid : config.Valid) (hnodes : config.buildNodes = .ok nodes)
    (hnode : node ∈ nodes) (dep : Str) : config.Dependency dep node.id ↔ dep ∈ node.dependsOn := by
  obtain ⟨d, hd, hid, hdeps, _⟩ := WorkflowConfig.exists_def_of_mem hnodes hnode
  constructor
  · rintro ⟨d', hd', hid', hdep⟩
    rw [inj_on_of_nodup_map hvalid.nodup hd' hd (hid'.trans hid.symm), hdeps] at hdep
    exact hdep
  · intro hdep
    exact ⟨d, hd, hid, hdeps ▸ hdep⟩

theorem cyclic_of_cycle (hvalid : config.Valid) (hnodes : config.buildNodes = .ok nodes)
    (hgraph : buildGraph nodes = .ok graph)
    (hcycle : ∃ i, Relation.TransGen (fun i j ↦ (i, j) ∈ graph.edges) i i) : config.Cyclic := by
  apply transGen_of_cycle (nodup_of_valid hvalid hnodes) _ hgraph hcycle
  exact fun node hnode dep hdep ↦ (dependency_iff hvalid hnodes hnode dep).mpr hdep

theorem isTopological_ids (hvalid : config.Valid) (hnodes : config.buildNodes = .ok nodes)
    (hgraph : buildGraph nodes = .ok graph) {order : List ℕ}
    (horder : IsTopological (List.range nodes.length) (fun i j ↦ (i, j) ∈ graph.edges) order) :
    IsTopological (nodes.map Node.id) config.Dependency
      ((order.filterMap fun idx ↦ nodes[idx]?).map Node.id) := by
  apply isTopological_of_order (nodup_of_valid hvalid hnodes) (known_of_valid hvalid hnodes) _ hgraph
    horder
  exact fun node hnode dep hdependency ↦ (dependency_iff hvalid hnodes hnode dep).mp hdependency

end Valid

end Graph

/-! ## Runs over sorted nodes -/

variable {exec : Executions} {sorted done rest : List Node} {node : Node} {outputs : Outputs}
  {executed : Executed} {dep : Str}

/-! ## One execution -/

theorem isError_text_failed (err : Str) : isError (NodeResult.failed err).text = true := by
  rw [isError, isPrefixOf_iff_prefix]
  exact ⟨' ' :: err, rfl⟩

theorem loopFrom_ne_needsApproval {loop : LoopConfig} {id : Str}
    (happroval : ∀ id iteration info, exec.result id iteration ≠ .needsApproval info)
    (iteration : ℕ) (info : Str) : loopFrom exec id loop iteration ≠ .needsApproval info := by
  fun_induction loopFrom exec id loop iteration with
  | case1 iteration => exact happroval id _ info
  | case2 => exact nofun
  | case3 => exact nofun
  | case4 iteration => exact happroval id _ info
  | case5 iteration _ _ _ ih => exact ih

theorem executeWithLoop_ne_needsApproval
    (happroval : ∀ id iteration info, exec.result id iteration ≠ .needsApproval info) (info : Str) :
    executeWithLoop exec node ≠ .needsApproval info := by
  rw [executeWithLoop]
  cases node.loopConfig with
  | none => exact happroval _ _ info
  | some loop => exact loopFrom_ne_needsApproval happroval 0 info

/-! ## The map of outputs -/

/-- The output of the node counts as the message of a failure. -/
def LooksFailed (exec : Executions) (node : Node) : Prop :=
  isError (executeWithLoop exec node).text = true

/-- What a run has after it has executed some nodes. -/
structure Ran (exec : Executions) (done : List Node) (outputs : Outputs) (executed : Executed) :
    Prop where
  executed : executed = done.map fun node ↦ (node.id, executeWithLoop exec node)
  outputs : ∀ id text, outputs[id]? = some text ↔
    ∃ node ∈ done, node.id = id ∧ (executeWithLoop exec node).text = text

theorem ran_empty : Ran exec [] ∅ [] where
  executed := rfl
  outputs id text := by simp

theorem Ran.snoc (hran : Ran exec done outputs executed) (hnew : node.id ∉ done.map Node.id) :
    Ran exec (done ++ [node]) (outputs.insert node.id (executeWithLoop exec node).text)
      (executed ++ [(node.id, executeWithLoop exec node)]) where
  executed := by rw [hran.executed, map_append, map_singleton]
  outputs id text := by
    simp only [mem_append, mem_singleton]
    by_cases hid : node.id = id
    · rw [← hid, ExtTreeMap.getElem?_insert_self]
      constructor
      · exact fun htext ↦ ⟨node, .inr rfl, rfl, Option.some.inj htext⟩
      · rintro ⟨other, hother | rfl, hsame, rfl⟩
        · exact absurd (hsame ▸ mem_map_of_mem hother) hnew
        · rfl
    · rw [SortedMap.getElem?_insert_ne _ hid, hran.outputs]
      constructor
      · rintro ⟨other, hother, hrest⟩
        exact ⟨other, .inl hother, hrest⟩
      · rintro ⟨other, hother | rfl, hsame, htext⟩
        · exact ⟨other, hother, hsame, htext⟩
        · exact absurd hsame hid

/-- A dependency whose output counts as a failure. -/
theorem isSome_failedDependency_iff (hran : Ran exec done outputs executed) :
    (failedDependency outputs node.dependsOn).isSome ↔
      ∃ m ∈ done, m.id ∈ node.dependsOn ∧ LooksFailed exec m := by
  rw [failedDependency, findSome?_isSome_iff]
  constructor
  · rintro ⟨dep, hdep, hfound⟩
    cases houtput : outputs[dep]? with
    | none =>
      rw [houtput] at hfound
      cases hfound
    | some text =>
      obtain ⟨m, hm, rfl, rfl⟩ := (hran.outputs dep text).mp houtput
      rw [houtput] at hfound
      refine ⟨m, hm, hdep, ?_⟩
      by_contra hfine
      rw [LooksFailed] at hfine
      simp only [if_neg hfine] at hfound
      cases hfound
  · rintro ⟨m, hm, hdep, hfailed⟩
    have houtput := (hran.outputs m.id _).mpr ⟨m, hm, rfl, rfl⟩
    refine ⟨m.id, hdep, ?_⟩
    rw [LooksFailed] at hfailed
    simp only [houtput, if_pos hfailed, Option.isSome_some]

theorem finalStatus_eq_success_iff (hran : Ran exec done outputs executed) :
    finalStatus outputs = .success ↔ ∀ node ∈ done, ¬ LooksFailed exec node := by
  have hany : outputs.toList.any (fun p ↦ isError p.2) = true ↔
      ∃ node ∈ done, LooksFailed exec node := by
    rw [any_eq_true]
    constructor
    · rintro ⟨⟨id, text⟩, hmem, herror⟩
      have houtput := ExtTreeMap.mem_toList_iff_getElem?_eq_some.mp hmem
      obtain ⟨node, hnode, _, rfl⟩ := (hran.outputs id text).mp houtput
      exact ⟨node, hnode, herror⟩
    · rintro ⟨node, hnode, herror⟩
      have houtput := (hran.outputs node.id _).mpr ⟨node, hnode, rfl, rfl⟩
      exact ⟨(node.id, _), ExtTreeMap.mem_toList_iff_getElem?_eq_some.mpr houtput, herror⟩
  rw [finalStatus]
  split
  · next herror =>
      obtain ⟨node, hnode, hfailed⟩ := hany.mp herror
      exact iff_of_false (fun hstatus ↦ nomatch hstatus) fun hfine ↦ hfine node hnode hfailed
  · next hfine =>
      refine iff_of_true rfl fun node hnode hfailed ↦ hfine (hany.mpr ⟨node, hnode, hfailed⟩)

/-! ## A run over the sorted nodes -/

/-- No node was executed after a dependency that looks failed. -/
def Undisturbed (exec : Executions) (done : List Node) : Prop :=
  ∀ pre node post, done = pre ++ node :: post → ∀ m ∈ pre, m.id ∈ node.dependsOn →
    ¬ LooksFailed exec m

theorem Undisturbed.snoc (hdone : Undisturbed exec done)
    (hnode : ∀ m ∈ done, m.id ∈ node.dependsOn → ¬ LooksFailed exec m) :
    Undisturbed exec (done ++ [node]) := by
  intro pre other post hsplit
  cases eq_nil_or_concat post with
  | inl hpost =>
    rw [hpost] at hsplit
    obtain ⟨rfl, hlast⟩ := append_inj' hsplit rfl
    cases hlast
    exact hnode
  | inr hpost =>
    obtain ⟨front, last, rfl⟩ := hpost
    rw [concat_eq_append, ← cons_append, ← append_assoc] at hsplit
    exact hdone pre other front (append_inj' hsplit rfl).1

/-- A run has come to its end, or to a node with a dependency that looks failed. -/
inductive Stops (exec : Executions) (done : List Node) : List Node → Option WorkflowStatus → Prop
  | all : Stops exec done [] none
  | early {node m : Node} (rest : List Node) (msg : Str) (hm : m ∈ done)
      (hdep : m.id ∈ node.dependsOn) (hfailed : LooksFailed exec m) :
      Stops exec done (node :: rest) (some (.failed msg))

/-- What a run over the sorted nodes gives: the nodes that it executed and those that it left. -/
structure Ends (exec : Executions) (sorted done left : List Node) (outputs : Outputs)
    (executed : Executed) (ended : Option WorkflowStatus) : Prop where
  split : sorted = done ++ left
  ran : Ran exec done outputs executed
  undisturbed : Undisturbed exec done
  stops : Stops exec done left ended

theorem exists_ends_runNodes
    (happroval : ∀ id iteration info, exec.result id iteration ≠ .needsApproval info)
    (hnodup : ((done ++ rest).map Node.id).Nodup) (hran : Ran exec done outputs executed)
    (hdone : Undisturbed exec done) :
    ∃ done' left, Ends exec (done ++ rest) done' left (runNodes exec rest outputs executed).1
      (runNodes exec rest outputs executed).2.1 (runNodes exec rest outputs executed).2.2 := by
  induction rest generalizing done outputs executed with
  | nil => exact ⟨done, [], rfl, hran, hdone, .all⟩
  | cons node rest ih =>
    rw [runNodes]
    cases hfailed : failedDependency outputs node.dependsOn with
    | some msg =>
      have hsome := Option.isSome_of_eq_some hfailed
      obtain ⟨m, hm, hdep, hm'⟩ := (isSome_failedDependency_iff hran).mp hsome
      exact ⟨done, node :: rest, rfl, hran, hdone, .early rest msg hm hdep hm'⟩
    | none =>
      have hfine : ∀ m ∈ done, m.id ∈ node.dependsOn → ¬ LooksFailed exec m := by
        intro m hm hdep hm'
        have hsome := (isSome_failedDependency_iff hran).mpr ⟨m, hm, hdep, hm'⟩
        rw [hfailed] at hsome
        cases hsome
      have hnew : node.id ∉ done.map Node.id := by
        rw [map_append, map_cons] at hnodup
        exact fun hmem ↦ disjoint_of_nodup_append hnodup hmem mem_cons_self
      have happend : done ++ node :: rest = (done ++ [node]) ++ rest := by
        rw [append_assoc, singleton_append]
      have hrest := ih (happend ▸ hnodup) (hran.snoc hnew) (hdone.snoc hfine)
      rw [happend]
      have hresult := @executeWithLoop_ne_needsApproval exec node happroval
      dsimp only
      split
      · next info hinfo => exact absurd hinfo (hresult info)
      · exact hrest

end SoulSystem.Workflow
