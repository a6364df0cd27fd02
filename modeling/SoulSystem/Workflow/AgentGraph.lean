import SoulSystem.Workflow.Scheduling

/-!
# Agent graphs

A model designs a graph of agents: each has inputs, and each of its outputs has links, which are
maps from the name of an agent to the name of one of its inputs.  The graph becomes a list of nodes
that the workflow engine sorts.

An agent becomes a dependency of a node when any of its links names an input of the node, whichever
agent the link names.  The dependencies are those of the links as long as no input name is shared in
a way that makes a link look like one to another agent.

The format of a list of names for debugging is left open.
-/

namespace SoulSystem.Workflow

open Library Std List

/-! ## Data model -/

structure GraphParam where
  name : Str
  description : Str

structure GraphOutput where
  name : Str
  description : Str
  links : List (ExtTreeMap Str Str)

structure AgentGraphNode where
  node : Str
  inputs : List GraphParam
  outputs : List GraphOutput

structure UserInputNode where
  node : Str
  description : Str
  links : List (ExtTreeMap Str Str)

structure AgentGraphOutput where
  feasibility : Str
  agentGraph : List AgentGraphNode
  agentChain : List Str
  userInputGraph : List UserInputNode
  reasoning : Str

/-! ## From a graph to nodes -/

/-- The agent that a node of the graph runs. -/
def agentOf (debug : List Str → Str) (graphNode : AgentGraphNode) : AgentNode where
  role := graphNode.node
  goal := "Execute ".toList ++ graphNode.node ++ " node".toList
  backstory := "Agent inputs:\n".toList ++ graphNode.inputs.flatMap fun input ↦
    "- ".toList ++ input.name ++ ": ".toList ++ input.description ++ "\n".toList
  task := "Process inputs and produce outputs: ".toList ++
    debug (graphNode.outputs.map GraphOutput.name)
  context := true
  model := none

/-- Some value of the link is the name of an input of the node. -/
def namesInput (graphNode : AgentGraphNode) (link : ExtTreeMap Str Str) : Bool :=
  link.toList.any fun entry ↦ graphNode.inputs.any fun input ↦ input.name = entry.2

/-- The dependencies after one more link of an agent. -/
def addLink (graphNode : AgentGraphNode) (other : Str) (dependsOn : List Str)
    (link : ExtTreeMap Str Str) : List Str :=
  if namesInput graphNode link ∧ other ∉ dependsOn then dependsOn ++ [other] else dependsOn

/-- The dependencies after all links of an agent. -/
def addLinks (graphNode : AgentGraphNode) (dependsOn : List Str) (otherNode : AgentGraphNode) :
    List Str :=
  otherNode.outputs.foldl
    (fun dependsOn output ↦ output.links.foldl (addLink graphNode otherNode.node) dependsOn)
    dependsOn

def toNode (debug : List Str → Str) (graph : AgentGraphOutput) (graphNode : AgentGraphNode) :
    Node where
  id := graphNode.node
  dependsOn := graph.agentGraph.foldl (addLinks graphNode) []
  nodeType := .agent (agentOf debug graphNode)
  loopConfig := none

def graphToNodes (debug : List Str → Str) (graph : AgentGraphOutput) : List Node :=
  graph.agentGraph.map (toNode debug graph)

/-! ## Links -/

/-- Some output of an agent has a link that names another one, and one of its inputs. -/
def Feeds (m n : AgentGraphNode) : Prop :=
  ∃ output ∈ m.outputs, ∃ link ∈ output.links, ∃ input,
    link[n.node]? = some input ∧ input ∈ n.inputs.map GraphParam.name

/-- Some output of an agent has a link to an input with a name that another one has too. -/
def SharesInput (m n : AgentGraphNode) : Prop :=
  ∃ output ∈ m.outputs, ∃ link ∈ output.links, ∃ (target : Str) (input : Str),
    link[target]? = some input ∧ input ∈ n.inputs.map GraphParam.name

/-- The link relation, between the names of agents. -/
def Links (graph : AgentGraphOutput) (a b : Str) : Prop :=
  ∃ m ∈ graph.agentGraph, ∃ n ∈ graph.agentGraph, m.node = a ∧ n.node = b ∧ Feeds m n

variable {debug : List Str → Str} {toposort : DiGraph → Option (List ℕ)} {graph : AgentGraphOutput}
  {m n : AgentGraphNode} {other x : Str} {dependsOn : List Str}

theorem SharesInput.of_feeds (hfeeds : Feeds m n) : SharesInput m n := by
  obtain ⟨output, houtput, link, hlink, input, htarget, hinput⟩ := hfeeds
  exact ⟨output, houtput, link, hlink, n.node, input, htarget, hinput⟩

theorem namesInput_iff {link : ExtTreeMap Str Str} :
    namesInput n link = true ↔ ∃ (target : Str) (input : Str), link[target]? = some input ∧
      input ∈ n.inputs.map GraphParam.name := by
  simp only [namesInput, any_eq_true, decide_eq_true_eq, mem_map, Prod.exists,
    ExtTreeMap.mem_toList_iff_getElem?_eq_some]

/-- What a loop adds to a list that each of its steps may add to. -/
theorem mem_foldl_iff {α β : Type*} {step : List α → β → List α} {x : α} {P : β → Prop}
    (hstep : ∀ acc b, x ∈ step acc b ↔ x ∈ acc ∨ P b) (bs : List β) (acc : List α) :
    x ∈ bs.foldl step acc ↔ x ∈ acc ∨ ∃ b ∈ bs, P b := by
  induction bs generalizing acc with
  | nil => simp
  | cons b bs ih =>
    simp only [foldl_cons, ih, hstep, or_assoc, mem_cons, exists_eq_or_imp]

theorem mem_addLink_iff {link : ExtTreeMap Str Str} :
    x ∈ addLink n other dependsOn link ↔ x ∈ dependsOn ∨ namesInput n link = true ∧ x = other := by
  rw [addLink]
  split
  · next hnew => rw [mem_append, mem_singleton, and_iff_right hnew.1]
  · next hold =>
      refine (or_iff_left_of_imp ?_).symm
      rintro ⟨hnames, rfl⟩
      by_contra hmem
      exact hold ⟨hnames, hmem⟩

theorem mem_addLinks_iff :
    x ∈ addLinks n dependsOn m ↔ x ∈ dependsOn ∨ SharesInput m n ∧ x = m.node := by
  have hlink (acc : List Str) (link : ExtTreeMap Str Str) :
      x ∈ addLink n m.node acc link ↔ x ∈ acc ∨ namesInput n link = true ∧ x = m.node :=
    mem_addLink_iff
  have houtput (acc : List Str) (output : GraphOutput) :
      x ∈ output.links.foldl (addLink n m.node) acc ↔
        x ∈ acc ∨ ∃ link ∈ output.links, namesInput n link = true ∧ x = m.node :=
    mem_foldl_iff hlink output.links acc
  rw [addLinks, mem_foldl_iff houtput]
  simp only [SharesInput, namesInput_iff]
  tauto

/-- **The dependencies of a node are the agents with a link to an input of its name.** -/
theorem mem_dependsOn_iff : x ∈ (toNode debug graph n).dependsOn ↔
    ∃ m ∈ graph.agentGraph, SharesInput m n ∧ x = m.node := by
  have hlinks (acc : List Str) (m : AgentGraphNode) :
      x ∈ addLinks n acc m ↔ x ∈ acc ∨ SharesInput m n ∧ x = m.node := mem_addLinks_iff
  have hfold := mem_foldl_iff hlinks graph.agentGraph []
  rwa [or_iff_right not_mem_nil] at hfold

/-! ## When the translation is exact -/

theorem ids_graphToNodes :
    (graphToNodes debug graph).map Node.id = graph.agentGraph.map AgentGraphNode.node := by
  rw [graphToNodes, map_map]
  rfl

/-- The nodes depend on each other as the links say, and without a cycle of links they are sorted
with each producer before its consumers. -/
structure TranslatesExactly (debug : List Str → Str) (toposort : DiGraph → Option (List ℕ))
    (graph : AgentGraphOutput) : Prop where
  dependencies : ∀ m ∈ graph.agentGraph, ∀ n ∈ graph.agentGraph, ∀ node ∈ graphToNodes debug graph,
    node.id = n.node → (m.node ∈ node.dependsOn ↔ Feeds m n)
  order : (∀ x, ¬ Relation.TransGen (Links graph) x x) →
    ∃ order, buildDag toposort (graphToNodes debug graph) = .ok order ∧
      IsTopological (graph.agentGraph.map AgentGraphNode.node) (Links graph)
        ((order.filterMap fun idx ↦ (graphToNodes debug graph)[idx]?).map Node.id)

/-- Where an agent has a link to an input with a name that another agent has too, it also has one
that names this agent and one of its inputs. -/
def LinksNameTargets (graph : AgentGraphOutput) : Prop :=
  ∀ m ∈ graph.agentGraph, ∀ n ∈ graph.agentGraph, SharesInput m n → Feeds m n

section Exact

variable (hnames : (graph.agentGraph.map AgentGraphNode.node).Nodup)
include hnames

/-- The dependencies of the node of an agent, by the agents. -/
theorem mem_dependsOn_iff_sharesInput (hm : m ∈ graph.agentGraph) :
    m.node ∈ (toNode debug graph n).dependsOn ↔ SharesInput m n := by
  rw [mem_dependsOn_iff]
  constructor
  · rintro ⟨m', hm', hshares, hname⟩
    rwa [inj_on_of_nodup_map hnames hm hm' hname]
  · exact fun hshares ↦ ⟨m, hm, hshares, rfl⟩

theorem links_iff (hn : n ∈ graph.agentGraph) (hnamed : LinksNameTargets graph) :
    Links graph x n.node ↔ x ∈ (toNode debug graph n).dependsOn := by
  rw [mem_dependsOn_iff]
  constructor
  · rintro ⟨m, hm, n', hn', rfl, hname, hfeeds⟩
    rw [inj_on_of_nodup_map hnames hn' hn hname] at hfeeds
    exact ⟨m, hm, .of_feeds hfeeds, rfl⟩
  · rintro ⟨m, hm, hshares, rfl⟩
    exact ⟨m, hm, n, hn, rfl, rfl, hnamed m hm n hn hshares⟩

/-- The engine sorts the nodes of a graph whose links have no cycle. -/
theorem exists_order (hnamed : LinksNameTargets graph)
    (hsorts : ∀ dag, buildGraph (graphToNodes debug graph) = .ok dag → Sorts dag (toposort dag))
    (hacyclic : ∀ x, ¬ Relation.TransGen (Links graph) x x) :
    ∃ order, buildDag toposort (graphToNodes debug graph) = .ok order ∧
      IsTopological (graph.agentGraph.map AgentGraphNode.node) (Links graph)
        ((order.filterMap fun idx ↦ (graphToNodes debug graph)[idx]?).map Node.id) := by
  have hdep : ∀ node ∈ graphToNodes debug graph, ∀ dep,
      Links graph dep node.id ↔ dep ∈ node.dependsOn := by
    intro node hnode dep
    obtain ⟨n, hn, rfl⟩ := List.mem_map.mp hnode
    exact links_iff hnames hn hnamed
  have hnodup : ((graphToNodes debug graph).map Node.id).Nodup := by rwa [ids_graphToNodes]
  have hknown : ∀ node ∈ graphToNodes debug graph, ∀ dep ∈ node.dependsOn,
      dep ∈ (graphToNodes debug graph).map Node.id := by
    intro node hnode dep hmem
    obtain ⟨m, hm, _, _, rfl, _⟩ := (hdep node hnode dep).mpr hmem
    rw [ids_graphToNodes]
    exact mem_map_of_mem hm
  obtain ⟨dag, hdag, hcount⟩ := exists_buildGraph hnodup hknown
  have hsort := hsorts dag hdag
  cases horder : toposort dag with
  | none =>
    obtain ⟨x, hcycle⟩ := transGen_of_cycle hnodup
      (fun node hnode dep hmem ↦ (hdep node hnode dep).mpr hmem) hdag (hsort.cycle horder)
    exact absurd hcycle (hacyclic x)
  | some order =>
    have htopological := hsort.order order horder
    rw [hcount] at htopological
    refine ⟨order, ?_, ?_⟩
    · rw [buildDag, hdag, Outcome.ok_bind, horder]
    · rw [← ids_graphToNodes]
      exact isTopological_of_order hnodup hknown
        (fun node hnode dep hlinks ↦ (hdep node hnode dep).mp hlinks) hdag htopological

/-- **Links become dependencies exactly if no link only looks like one to another agent.** -/
theorem translatesExactly_iff
    (hsorts : ∀ dag, buildGraph (graphToNodes debug graph) = .ok dag → Sorts dag (toposort dag)) :
    TranslatesExactly debug toposort graph ↔ LinksNameTargets graph := by
  constructor
  · intro hexact m hm n hn hshares
    exact (hexact.dependencies m hm n hn (toNode debug graph n) (mem_map_of_mem hn) rfl).mp
      ((mem_dependsOn_iff_sharesInput hnames hm).mpr hshares)
  · intro hnamed
    refine ⟨fun m hm n hn node hnode hid ↦ ?_, exists_order hnames hnamed hsorts⟩
    obtain ⟨n', hn', rfl⟩ := List.mem_map.mp hnode
    rw [inj_on_of_nodup_map hnames hn' hn hid, mem_dependsOn_iff_sharesInput hnames hm]
    exact ⟨hnamed m hm n hn, SharesInput.of_feeds⟩

end Exact

/-! ## Two agents -/

/-- `{:?}` of names that need no escapes. -/
def quoteNames (names : List Str) : Str :=
  "[".toList ++
    ", ".toList.intercalate (names.map fun name ↦ "\"".toList ++ name ++ "\"".toList) ++ "]".toList

/-- One agent with a link to an input of another one. -/
def twoAgents (input : Str) : AgentGraphOutput where
  feasibility := "Feasible".toList
  agentGraph := [
    ⟨"code_reviewer".toList, [⟨input, "Path".toList⟩], [⟨"report".toList, "Report".toList,
      [(∅ : ExtTreeMap Str Str).insert "lint_checker".toList "review_report".toList]⟩]⟩,
    ⟨"lint_checker".toList, [⟨"review_report".toList, "Report".toList⟩],
      [⟨"lint_results".toList, "Lint".toList, []⟩]⟩]
  agentChain := ["code_reviewer".toList, "lint_checker".toList]
  userInputGraph := []
  reasoning := "Two-step".toList

/-- The agent has an input of its own. -/
def ownInput : AgentGraphOutput := twoAgents "repo_path".toList

/-- The input of the agent has the name of the one that it links to. -/
def sameInput : AgentGraphOutput := twoAgents "review_report".toList

theorem translatesExactly_iff_ownInput :
    TranslatesExactly quoteNames inOrder ownInput ↔ LinksNameTargets ownInput := by
  refine translatesExactly_iff (by decide +kernel) fun dag hdag ↦ ?_
  have hedges : buildGraph (graphToNodes quoteNames ownInput) = .ok ⟨2, [(0, 1)]⟩ := by
    decide +kernel
  rw [hedges] at hdag
  cases hdag
  apply sorts_inOrder
  intro i j hedge
  rw [mem_singleton, Prod.mk.injEq] at hedge
  omega

/-- The first agent depends on itself, and the engine finds a cycle. -/
theorem not_translatesExactly :
    (sameInput.agentGraph.map AgentGraphNode.node).Nodup ∧
      (∀ dag, buildGraph (graphToNodes quoteNames sameInput) = .ok dag → Sorts dag none) ∧
      ¬ TranslatesExactly quoteNames (fun _ ↦ none) sameInput := by
  refine ⟨by decide +kernel, fun dag hdag ↦ ?_, fun hexact ↦ ?_⟩
  · have hedges : buildGraph (graphToNodes quoteNames sameInput) = .ok ⟨2, [(0, 0), (0, 1)]⟩ := by
      decide +kernel
    rw [hedges] at hdag
    cases hdag
    exact ⟨nofun, fun _ ↦ ⟨0, .single mem_cons_self⟩⟩
  · have hself := (hexact.dependencies _ mem_cons_self _ mem_cons_self _
      mem_cons_self rfl).mp (by decide +kernel)
    obtain ⟨output, houtput, link, hlink, input, htarget, -⟩ := hself
    rw [List.mem_singleton.mp houtput] at hlink
    rw [List.mem_singleton.mp hlink] at htarget
    have hnone : ((∅ : ExtTreeMap Str Str).insert "lint_checker".toList
        "review_report".toList)["code_reviewer".toList]? = none := by
      decide +kernel
    exact nomatch hnone.symm.trans htarget

end SoulSystem.Workflow
