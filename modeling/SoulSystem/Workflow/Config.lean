import SoulSystem.Library.Str
import SoulSystem.Library.SortedMap
import SoulSystem.Library.Outcome

/-!
# Workflow configurations

A workflow is a list of node definitions with the ids that each one depends on.  The validation
accepts it if the ids are distinct and every dependency is one of them.  The definitions are
converted to nodes of one of five kinds, if each of them has a kind.
-/

namespace SoulSystem.Workflow

open Library Std List ExtTreeMap Outcome

/-! ## Loop conditions -/

inductive LoopCondition where
  | allTasksComplete
  | approved
  | testsPass (cmd : Str)
  | maxIterations (max : ℕ)
  | custom (expr : Str)
  deriving DecidableEq, Repr

/-- Whether the loop should exit, where `passes` tells whether a command exits with 0 in
the sandbox. -/
def LoopCondition.isSatisfied (passes : Str → Bool) (iteration : ℕ) : LoopCondition → Bool
  | .maxIterations max => max ≤ iteration
  | .allTasksComplete => false
  | .approved => false
  | .testsPass cmd => passes cmd
  | .custom _ => false

structure LoopConfig where
  prompt : Str
  condition : LoopCondition
  maxIterations : ℕ
  freshContext : Bool
  interactive : Bool
  deriving DecidableEq, Repr

/-! ## Nodes -/

structure AiNode where
  prompt : Str
  model : Option Str
  context : Bool

structure BashNode where
  command : Str
  expectedExitCode : ℤ
  timeout : Option ℕ

structure ApprovalNode where
  prompt : Str

structure AgentNode where
  role : Str
  goal : Str
  backstory : Str
  task : Str
  context : Bool
  model : Option Str

/-- A sub-node of a parallel node, which is always an AI node. -/
structure SubNode where
  id : Str
  dependsOn : List Str
  nodeType : AiNode
  loopConfig : Option LoopConfig

structure ParallelNode where
  nodes : List SubNode

inductive NodeType where
  | ai (node : AiNode)
  | agent (node : AgentNode)
  | bash (node : BashNode)
  | approval (node : ApprovalNode)
  | parallel (node : ParallelNode)

structure Node where
  id : Str
  dependsOn : List Str
  nodeType : NodeType
  loopConfig : Option LoopConfig

/-! ## Definitions of nodes -/

structure NodeDef where
  id : Str
  dependsOn : List Str
  prompt : Option Str
  model : Option Str
  context : Bool
  bash : Option Str
  exitCode : ℤ
  timeout : Option ℕ
  interactive : Bool
  parallel : List NodeDef
  loop : Option LoopConfig
  role : Option Str
  goal : Option Str
  backstory : Option Str
  task : Option Str

structure WorkflowConfig where
  name : Str
  description : Str
  nodes : List NodeDef

inductive ConfigError where
  | duplicateNodeId (id : Str)
  | unknownDependency (node dep : Str)
  | noType (id : Str)
  deriving DecidableEq, Repr

namespace NodeDef

/-- The AI node that a sub-node is converted to, whatever kind it defines. -/
def toSubNode (sub : NodeDef) : SubNode where
  id := sub.id
  dependsOn := sub.dependsOn
  nodeType := ⟨sub.prompt.getD [], sub.model, sub.context⟩
  loopConfig := sub.loop

/-- The first kind that the definition has the fields of. -/
def nodeType? (d : NodeDef) : Option NodeType :=
  match d.prompt with
  | some prompt => some (.ai ⟨prompt, d.model, d.context⟩)
  | none =>
    if d.role.isSome ∧ d.task.isSome then
      some (.agent ⟨d.role.getD [], d.goal.getD [], d.backstory.getD [], d.task.getD [], d.context,
        d.model⟩)
    else
      match d.bash with
      | some cmd => some (.bash ⟨cmd, d.exitCode, d.timeout⟩)
      | none =>
        if d.interactive then
          some (.approval ⟨(d.loop.map LoopConfig.prompt).getD []⟩)
        else if ¬ d.parallel.isEmpty then
          some (.parallel ⟨d.parallel.map toSubNode⟩)
        else none

def toNode (d : NodeDef) : Except ConfigError Node :=
  match d.nodeType? with
  | some nodeType => .ok ⟨d.id, d.dependsOn, nodeType, d.loop⟩
  | none => .error (.noType d.id)

end NodeDef

namespace WorkflowConfig

theorem toNode_eq_ok_iff {d : NodeDef} {node : Node} : d.toNode = .ok node ↔
    ∃ nodeType, d.nodeType? = some nodeType ∧ node = ⟨d.id, d.dependsOn, nodeType, d.loop⟩ := by
  rw [NodeDef.toNode]
  cases d.nodeType? with
  | none => simp
  | some nodeType => simp [eq_comm]

/-- One more node with an id, which must be the first with it. -/
def countId (ids : ExtTreeMap Str ℕ) (node : NodeDef) : Except ConfigError (ExtTreeMap Str ℕ) :=
  let ids := ids.insert node.id (ids.getD node.id 0 + 1)
  if 1 < ids.getD node.id 0 then .error (.duplicateNodeId node.id) else .ok ids

def checkDependencies (ids : ExtTreeMap Str ℕ) (node : NodeDef) : Except ConfigError Unit :=
  forM node.dependsOn fun dep ↦
    if ids.contains dep then .ok () else .error (.unknownDependency node.id dep)

/-- Validate the config: check for duplicates and unknown dependencies. -/
def validate (config : WorkflowConfig) : Except ConfigError Unit := do
  let ids ← config.nodes.foldlM countId ∅
  forM config.nodes (checkDependencies ids)

def buildNodes (config : WorkflowConfig) : Except ConfigError (List Node) :=
  config.nodes.mapM NodeDef.toNode

/-! ## What the validation accepts -/

/-- The node with the second id waits for the one with the first. -/
def Dependency (config : WorkflowConfig) (dep id : Str) : Prop :=
  ∃ d ∈ config.nodes, d.id = id ∧ dep ∈ d.dependsOn

def Cyclic (config : WorkflowConfig) : Prop := ∃ id, Relation.TransGen config.Dependency id id

/-- Distinct ids, and dependencies among them. -/
structure Valid (config : WorkflowConfig) : Prop where
  nodup : (config.nodes.map NodeDef.id).Nodup
  known : ∀ d ∈ config.nodes, ∀ dep ∈ d.dependsOn, dep ∈ config.nodes.map NodeDef.id

/-- The ids counted so far, once each. -/
def Counted (ids : ExtTreeMap Str ℕ) (seen : List Str) : Prop :=
  ∀ id, ids[id]? = if id ∈ seen then some 1 else none

section Validate

variable {config : WorkflowConfig} {ids ids' : ExtTreeMap Str ℕ} {seen : List Str} {node : NodeDef}

theorem counted_empty : Counted ∅ [] := fun _ ↦ getElem?_empty

theorem Counted.contains_iff (hcounted : Counted ids seen) {id : Str} :
    ids.contains id = true ↔ id ∈ seen := by
  rw [contains_eq_isSome_getElem?, hcounted id]
  split
  · next hseen => exact iff_of_true rfl hseen
  · next hseen => exact iff_of_false Bool.false_ne_true hseen

theorem countId_eq_ok_iff (hcounted : Counted ids seen) : countId ids node = .ok ids' ↔
    node.id ∉ seen ∧ ids' = ids.insert node.id 1 := by
  rw [countId, getD_insert_self, getD_eq_getD_getElem?, hcounted node.id]
  by_cases hseen : node.id ∈ seen
  · simp [hseen]
  · simp [hseen, eq_comm]

theorem Counted.insert (hcounted : Counted ids seen) (id : Str) :
    Counted (ids.insert id 1) (id :: seen) := by
  intro other
  rw [ExtTreeMap.getElem?_insert, hcounted other]
  simp only [LawfulEqCmp.compare_eq_iff_eq, mem_cons, @eq_comm Str other id]
  by_cases hother : id = other
  · rw [if_pos hother, if_pos (.inl hother)]
  · simp only [hother, if_false, false_or]

/-- A loop over the nodes that succeeds has counted all ids, and none of them twice. -/
theorem counted_of_foldlM {nodes : List NodeDef} (hcounted : Counted ids seen) (hseen : seen.Nodup)
    (hok : nodes.foldlM countId ids = .ok ids') :
    ((nodes.map NodeDef.id).reverse ++ seen).Nodup ∧
      Counted ids' ((nodes.map NodeDef.id).reverse ++ seen) := by
  induction nodes generalizing ids seen with
  | nil =>
    rw [foldlM_nil, pure_eq_ok] at hok
    rw [hok]
    exact ⟨hseen, hcounted⟩
  | cons node nodes ih =>
    rw [foldlM_cons, bind_eq_ok] at hok
    obtain ⟨next, hnext, hrest⟩ := hok
    obtain ⟨hnew, rfl⟩ := (countId_eq_ok_iff hcounted).mp hnext
    rw [map_cons, reverse_cons, append_assoc, singleton_append]
    exact ih (hcounted.insert node.id) (List.nodup_cons.mpr ⟨hnew, hseen⟩) hrest

theorem exists_foldlM_countId {nodes : List NodeDef} (hcounted : Counted ids seen)
    (hnodup : ((nodes.map NodeDef.id).reverse ++ seen).Nodup) :
    ∃ ids', nodes.foldlM countId ids = .ok ids' := by
  induction nodes generalizing ids seen with
  | nil => exact ⟨ids, rfl⟩
  | cons node nodes ih =>
    rw [map_cons, reverse_cons, append_assoc, singleton_append] at hnodup
    have hnew : node.id ∉ seen := (List.nodup_cons.mp hnodup.of_append_right).1
    obtain ⟨ids', hrest⟩ := ih (hcounted.insert node.id) hnodup
    refine ⟨ids', ?_⟩
    rw [foldlM_cons, bind_eq_ok]
    exact ⟨_, (countId_eq_ok_iff hcounted).mpr ⟨hnew, rfl⟩, hrest⟩

theorem checkDependencies_eq_ok_iff : checkDependencies ids node = .ok () ↔
    ∀ dep ∈ node.dependsOn, ids.contains dep = true := by
  rw [checkDependencies, forM_eq_ok]
  apply forall₂_congr
  intro dep _
  split
  · next hcontains => exact iff_of_true rfl hcontains
  · next hmissing => exact iff_of_false (fun herror ↦ nomatch herror) hmissing

/-- The validation accepts the valid configurations. -/
theorem validate_eq_ok_iff : config.validate = .ok () ↔ config.Valid := by
  have hids : ∀ ids, config.nodes.foldlM countId ∅ = .ok ids →
      (config.nodes.map NodeDef.id).Nodup ∧
        ∀ id, ids.contains id = true ↔ id ∈ config.nodes.map NodeDef.id := by
    intro ids hok
    obtain ⟨hnodup, hcounted⟩ := counted_of_foldlM counted_empty nodup_nil hok
    rw [append_nil] at hnodup hcounted
    exact ⟨List.nodup_reverse.mp hnodup, fun id ↦ hcounted.contains_iff.trans mem_reverse⟩
  simp only [validate, bind_eq_ok, forM_eq_ok, checkDependencies_eq_ok_iff]
  constructor
  · rintro ⟨ids, hok, hknown⟩
    obtain ⟨hnodup, hmem⟩ := hids ids hok
    exact ⟨hnodup, fun d hd dep hdep ↦ (hmem dep).mp (hknown d hd dep hdep)⟩
  · intro hvalid
    have hnodup : ((config.nodes.map NodeDef.id).reverse ++ []).Nodup := by
      rw [append_nil]
      exact List.nodup_reverse.mpr hvalid.nodup
    obtain ⟨ids, hok⟩ := exists_foldlM_countId counted_empty hnodup
    exact ⟨ids, hok, fun d hd dep hdep ↦ ((hids ids hok).2 dep).mpr (hvalid.known d hd dep hdep)⟩

end Validate

/-! ## What the nodes are built from -/

section Build

variable {config : WorkflowConfig} {d : NodeDef} {nodes : List Node}

/-- The definition has the fields of some kind of node. -/
def Typed (d : NodeDef) : Prop :=
  d.prompt.isSome ∨ (d.role.isSome ∧ d.task.isSome) ∨ d.bash.isSome ∨ d.interactive = true ∨
    d.parallel.isEmpty = false

theorem isSome_nodeType?_iff : d.nodeType?.isSome ↔ Typed d := by
  rw [NodeDef.nodeType?, Typed]
  cases d.prompt with
  | some prompt => simp
  | none =>
    cases d.bash with
    | some cmd =>
      dsimp only
      split <;> simp
    | none =>
      dsimp only
      split
      · next hagent => simp [hagent]
      · next hagent =>
          simp only [hagent]
          cases d.interactive <;> cases d.parallel.isEmpty <;> simp

theorem typed_of_toNode {node : Node} (hnode : d.toNode = .ok node) : Typed d := by
  obtain ⟨nodeType, htype, _⟩ := toNode_eq_ok_iff.mp hnode
  exact isSome_nodeType?_iff.mp (Option.isSome_of_eq_some htype)

/-- The nodes of a config are built if every definition has a kind. -/
theorem exists_buildNodes (htyped : ∀ d ∈ config.nodes, Typed d) :
    ∃ nodes, config.buildNodes = .ok nodes := by
  cases hbuild : config.buildNodes with
  | ok nodes => exact ⟨nodes, rfl⟩
  | error error =>
    obtain ⟨before, d, after, hsplit, _, hfail⟩ := Outcome.mapM_eq_error.mp hbuild
    have hd : d ∈ config.nodes := by
      rw [hsplit]
      exact mem_append_right before mem_cons_self
    obtain ⟨nodeType, htype⟩ := Option.isSome_iff_exists.mp (isSome_nodeType?_iff.mpr (htyped d hd))
    rw [NodeDef.toNode, htype] at hfail
    cases hfail

theorem typed_of_buildNodes (hok : config.buildNodes = .ok nodes) :
    ∀ d ∈ config.nodes, Typed d := by
  intro d hd
  obtain ⟨node, _, hnode⟩ := exists_of_mem_mapM hok hd
  exact typed_of_toNode hnode

/-- A definition without a kind is an error of its own. -/
theorem exists_noType (huntyped : ¬ ∀ d ∈ config.nodes, Typed d) :
    ∃ error, config.buildNodes = .error error := by
  cases hbuild : config.buildNodes with
  | ok nodes => exact absurd (typed_of_buildNodes hbuild) huntyped
  | error error => exact ⟨error, rfl⟩

theorem map_id_of_buildNodes (hok : config.buildNodes = .ok nodes) :
    nodes.map Node.id = config.nodes.map NodeDef.id := by
  apply map_eq_of_mapM hok
  intro d node hnode
  obtain ⟨_, _, rfl⟩ := toNode_eq_ok_iff.mp hnode
  rfl

/-- A node has the id, the dependencies and the loop of its definition. -/
theorem exists_def_of_mem {node : Node} (hok : config.buildNodes = .ok nodes) (hnode : node ∈ nodes) :
    ∃ d ∈ config.nodes, d.id = node.id ∧ d.dependsOn = node.dependsOn ∧ d.loop = node.loopConfig := by
  obtain ⟨d, hd, htoNode⟩ := exists_of_mem_result hok hnode
  obtain ⟨_, _, rfl⟩ := toNode_eq_ok_iff.mp htoNode
  exact ⟨d, hd, rfl, rfl, rfl⟩

theorem exists_node_of_mem (hok : config.buildNodes = .ok nodes) (hd : d ∈ config.nodes) :
    ∃ node ∈ nodes, d.id = node.id ∧ d.dependsOn = node.dependsOn ∧ d.loop = node.loopConfig := by
  obtain ⟨node, hnode, htoNode⟩ := exists_of_mem_mapM hok hd
  obtain ⟨_, _, rfl⟩ := toNode_eq_ok_iff.mp htoNode
  exact ⟨_, hnode, rfl, rfl, rfl⟩

end Build

end WorkflowConfig

end SoulSystem.Workflow
