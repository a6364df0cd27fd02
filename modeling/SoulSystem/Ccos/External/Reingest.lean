import SoulSystem.Ccos.Memory.InRange
import SoulSystem.Ccos.External.Ingest

/-!
# What a new version of a file leaves behind

A version of a file produces its file node, its modules, its imports and its symbols.  A new version
evicts the nodes of the file by the form of their ids, but among the resident nodes only, and a form
is a prefix that nodes of another file may share.

After a new version, every known id of the form of the file is one that the version produces exactly
when this holds of the ids that were COLD before; and no node of another file is lost exactly when
no such node was resident under the form of the file, unless the version produces it.
-/

namespace SoulSystem.Ccos.External

open Library SortedMap Memory List

/-! ## The ids of a version -/

mutual

/-- The names of a module and of all modules below it. -/
def ModuleDecl.names : ModuleDecl → List Str
  | .mk name _ children => name :: moduleNames children

/-- The names of all modules of a list of trees. -/
def moduleNames : List ModuleDecl → List Str
  | [] => []
  | decl :: rest => decl.names ++ moduleNames rest

end

/-- The ids of the nodes that a version of a file is made of. -/
def produced (path : Str) (extracted : Extracted) : List Str :=
  fileId path :: ((moduleNames extracted.modules).map (modId path) ++
    (extracted.useStatements.map fun stmt ↦ useId path stmt.fullPath) ++
    extracted.symbols.map fun symbol ↦ symId path symbol.name)

/-- The ids of the external dependencies that a version names. -/
def dependencies (extracted : Extracted) : List Str :=
  extracted.useStatements.filterMap fun stmt ↦ stmt.components.head?.map depId

/-- An update whose edges, if it adds one, have a weight in range. -/
abbrev Op.IsWeighted (op : Op) : Prop := op.IsUpdate ∧ op.Weighted

theorem weighted_hang {parent id label content : Str} {nodeType : NodeType} {weight : ℚ}
    {edgeType : EdgeType} (hlow : 0 ≤ weight) (hhigh : weight ≤ 1) :
    ∀ op ∈ hang parent id label content nodeType weight edgeType, Op.IsWeighted op := by
  intro op hop
  simp only [hang, mem_cons, not_mem_nil, or_false] at hop
  rcases hop with rfl | rfl
  · exact ⟨trivial, trivial⟩
  · exact ⟨trivial, F64.inUnit_finite hlow hhigh⟩

mutual

theorem weighted_moduleNode (path : Str) (text : List Str) (parent : Str) :
    ∀ (decl : ModuleDecl), ∀ op ∈ moduleNode path text parent decl, Op.IsWeighted op
  | .mk name line children => by
      rw [moduleNode, forall_mem_append]
      exact ⟨weighted_hang (by norm_num) (by norm_num), weighted_moduleTree path text _ children⟩

theorem weighted_moduleTree (path : Str) (text : List Str) (parent : Str) :
    ∀ (modules : List ModuleDecl), ∀ op ∈ moduleTree path text parent modules, Op.IsWeighted op
  | [] => by simp [moduleTree]
  | child :: rest => by
      rw [moduleTree, forall_mem_append]
      exact ⟨weighted_moduleNode path text parent child, weighted_moduleTree path text parent rest⟩

end

theorem weighted_useOps (path : Str) (text : List Str) (stmt : UseStatement) :
    ∀ op ∈ useOps path text stmt, Op.IsWeighted op := by
  rw [useOps, forall_mem_append]
  refine ⟨weighted_hang (by norm_num) (by norm_num), ?_⟩
  split
  · rw [forall_mem_cons, forall_mem_singleton]
    exact ⟨⟨trivial, trivial⟩, trivial, F64.inUnit_finite (by norm_num) (by norm_num)⟩
  · exact fun _ hop ↦ absurd hop not_mem_nil

theorem weighted_symbolOps (path : Str) (text : List Str) (symbol : Symbol) :
    ∀ op ∈ symbolOps path text symbol, Op.IsWeighted op := by
  rw [symbolOps, forall_mem_append]
  refine ⟨weighted_hang (by norm_num) (by norm_num), ?_⟩
  split
  · rw [forall_mem_singleton]
    exact ⟨trivial, trivial⟩
  · exact fun _ hop ↦ absurd hop not_mem_nil

theorem weighted_updateOps (cap : ℕ) (result : ParseResult) (source : Str) :
    ∀ op ∈ updateOps cap result source, Op.IsWeighted op := by
  intro op hop
  simp only [updateOps, mem_cons, mem_append, mem_flatMap, or_assoc] at hop
  rcases hop with rfl | ⟨⟨name, line, children⟩, _, hop⟩ | ⟨stmt, _, hop⟩ | ⟨symbol, _, hop⟩ | hop
  · exact ⟨trivial, trivial⟩
  · rw [moduleOps, mem_append] at hop
    rcases hop with hmodule | hchild
    · exact weighted_hang (by norm_num) (by norm_num) op hmodule
    · exact weighted_moduleTree _ _ _ _ op hchild
  · exact weighted_useOps _ _ stmt op hop
  · exact weighted_symbolOps _ _ symbol op hop
  · simp only [pendingOps, mem_cons, not_mem_nil, or_false] at hop
    rcases hop with rfl | rfl | rfl | rfl
    · exact ⟨trivial, trivial⟩
    · exact ⟨trivial, trivial⟩
    · exact ⟨trivial, trivial⟩
    · exact ⟨trivial, trivial⟩

theorem isUpdate_updateOps (cap : ℕ) (result : ParseResult) (source : Str) :
    ∀ op ∈ updateOps cap result source, op.IsUpdate :=
  fun op hop ↦ (weighted_updateOps cap result source op hop).1

mutual

theorem upserts_moduleNode (path : Str) (text : List Str) (parent : Str) :
    ∀ decl : ModuleDecl, (moduleNode path text parent decl).filterMap Op.upserts =
      decl.names.map (modId path)
  | .mk name line children => by
      rw [moduleNode, ModuleDecl.names, filterMap_append, upserts_moduleTree path text _ children,
        map_cons]
      rfl

theorem upserts_moduleTree (path : Str) (text : List Str) (parent : Str) :
    ∀ modules : List ModuleDecl, (moduleTree path text parent modules).filterMap Op.upserts =
      (moduleNames modules).map (modId path)
  | [] => rfl
  | child :: rest => by
      rw [moduleTree, moduleNames, filterMap_append, map_append,
        upserts_moduleNode path text parent child, upserts_moduleTree path text parent rest]

end

theorem upserts_moduleOps (path : Str) (text : List Str) (modules : List ModuleDecl) :
    (modules.flatMap (moduleOps path text)).filterMap Op.upserts =
      (moduleNames modules).map (modId path) := by
  induction modules with
  | nil => rfl
  | cons decl modules ih =>
    obtain ⟨name, line, children⟩ := decl
    rw [flatMap_cons, filterMap_append, ih, moduleOps, filterMap_append,
      upserts_moduleTree, moduleNames, map_append, ModuleDecl.names, map_cons]
    rfl

theorem mem_upserts_useOps (path : Str) (text : List Str) (stmts : List UseStatement) (id : Str) :
    id ∈ (stmts.flatMap (useOps path text)).filterMap Op.upserts ↔
      (∃ stmt ∈ stmts, id = useId path stmt.fullPath) ∨
        id ∈ stmts.filterMap fun stmt ↦ stmt.components.head?.map depId := by
  induction stmts with
  | nil => simp
  | cons stmt stmts ih =>
    rw [flatMap_cons, filterMap_append, mem_append, ih, useOps]
    cases hroot : stmt.components.head? with
    | none =>
      simp only [hang, Op.upserts, hroot, append_nil, filterMap_cons,
        filterMap_nil, mem_cons, not_mem_nil, or_false, exists_eq_or_imp,
        Option.map_none, or_assoc]
    | some root =>
      simp only [hang, Op.upserts, hroot, cons_append, nil_append,
        filterMap_cons, filterMap_nil, mem_cons, not_mem_nil, or_false,
        exists_eq_or_imp, Option.map_some, or_assoc]
      rw [or_left_comm (a := id = depId root)]

theorem mem_upserts_symbolOps (path : Str) (text : List Str) (symbols : List Symbol) (id : Str) :
    id ∈ (symbols.flatMap (symbolOps path text)).filterMap Op.upserts ↔
      id ∈ symbols.map fun symbol ↦ symId path symbol.name := by
  induction symbols with
  | nil => simp
  | cons symbol symbols ih =>
    rw [flatMap_cons, filterMap_append, mem_append, ih, symbolOps]
    cases symbol.isData with
    | false => simp [hang, Op.upserts]
    | true => simp [hang, Op.upserts]

/-- An update upserts the nodes of its version and the dependencies that it names. -/
theorem mem_upserts_updateOps (cap : ℕ) (result : ParseResult) (source id : Str) :
    id ∈ (updateOps cap result source).filterMap Op.upserts ↔
      id ∈ produced result.filePath result.toExtracted ∨ id ∈ dependencies result.toExtracted := by
  have hpending : (pendingOps result).filterMap Op.upserts = [] := rfl
  rw [updateOps, filterMap_cons, filterMap_append, filterMap_append,
    filterMap_append, hpending, append_nil]
  simp only [Op.upserts, mem_cons, mem_append]
  rw [upserts_moduleOps, mem_upserts_useOps, mem_upserts_symbolOps, produced, dependencies]
  simp only [mem_cons, mem_append, mem_map, or_assoc]
  have huse : (∃ stmt ∈ result.useStatements, id = useId result.filePath stmt.fullPath) ↔
      ∃ stmt ∈ result.useStatements, useId result.filePath stmt.fullPath = id := by
    simp only [eq_comm]
  rw [huse, or_comm (a := id ∈ List.filterMap _ _)]

theorem not_ofFile_depId (path root : Str) : ofFile path (depId root) = false := by
  have hfile : (depId root == fileId path) = false := rfl
  have hmod : (modId path []).isPrefixOf (depId root) = false := rfl
  have huse : (useId path []).isPrefixOf (depId root) = false := rfl
  have hsym : (symId path []).isPrefixOf (depId root) = false := rfl
  rw [ofFile, hfile, hmod, huse, hsym]
  rfl

theorem not_ofFile_of_mem_dependencies {path id : Str} {extracted : Extracted}
    (hid : id ∈ dependencies extracted) : ofFile path id = false := by
  obtain ⟨stmt, _, hroot⟩ := List.mem_filterMap.mp hid
  obtain ⟨root, _, rfl⟩ := Option.map_eq_some_iff.mp hroot
  exact not_ofFile_depId path root

/-! ## The ids after an ingest -/

theorem map_snd_judged (judges : Judges) (ops : List Op) : (judged judges ops).map Prod.snd = ops := by
  apply ext_getElem?
  intro i
  rw [judged, getElem?_map, getElem?_mapIdx, Option.map_map]
  exact Option.map_id'

variable {g : MemoryGraph} {ids : Str → Prop}

theorem holds_updateMemoryGraph (ingestor : Ingestor) (judges : Judges) (hholds : g.Holds ids)
    (path source : Str) :
    (ingestor.updateMemoryGraph judges g path source).Holds fun id ↦
      (id ∈ produced path (ingestor.extract source) ∨
        id ∈ dependencies (ingestor.extract source)) ∨ ids id := by
  have hops := map_snd_judged judges (ingestor.versionOps path source)
  have hupdates : ∀ step ∈ judged judges (ingestor.versionOps path source), step.2.IsUpdate := by
    intro step hstep
    apply isUpdate_updateOps ingestor.headerSymbolCap (ingestor.parseSource path source) source
    have hmem : step.2 ∈ (judged judges (ingestor.versionOps path source)).map Prod.snd :=
      mem_map_of_mem hstep
    rwa [hops] at hmem
  have hupserts : (judged judges (ingestor.versionOps path source)).filterMap
      (fun step ↦ step.2.upserts) = (ingestor.versionOps path source).filterMap Op.upserts := by
    conv_rhs => rw [← hops]
    rw [filterMap_map]
    rfl
  intro id
  rw [Ingestor.updateMemoryGraph, hholds.run_updates hupdates, hupserts]
  exact or_congr_left (mem_upserts_updateOps _ _ _ _)

theorem holds_evictFileNodes (hholds : g.Holds ids) (path : Str) :
    (evictFileNodes g path).Holds fun id ↦ ids id ∧ ¬ (id ∈ g.nodes ∧ ofFile path id) := by
  intro id
  rw [evictFileNodes, hholds.foldl_removeNode]
  simp only [mem_filter, Std.ExtTreeMap.mem_keys]

theorem holds_taint (hholds : g.Holds ids) (path : Str) (trust : Option ℚ) :
    (CcosMemory.taint g path trust).Holds ids := by
  cases trust with
  | none => exact hholds
  | some trust =>
    apply hholds.same
    · exact fun _ ↦ Std.ExtTreeMap.mem_map
    · exact fun _ ↦ Iff.rfl
    · exact fun _ ↦ Iff.rfl

theorem graph_ingestSource (ingestor : Ingestor) (judges : Judges) (m : CcosMemory)
    (uri source : Str) :
    (m.ingestSource ingestor judges uri source).1.graph =
      (CcosMemory.taint (m.delta ingestor judges (uriPath uri) (ingestor.defang source).1).1
        (uriPath uri) (stampedTrust (ingestor.injectionProbability (ingestor.defang source).1)
          (ingestor.defang source).2)).resolveAll.1 := by
  have hpending : (m.ingestDeferred ingestor judges uri source).1.needsResolution = true := rfl
  simp only [CcosMemory.ingestSource, CcosMemory.resolve, if_pos hpending]
  simp only [CcosMemory.ingestDeferred]

/-- What a new version of a known file leaves in the tiers. -/
theorem holds_reingest (ingestor : Ingestor) (judges : Judges) (m : CcosMemory)
    (uri source prev : Str)
    (hprev : m.sources[fileId (uriPath uri)]? = some prev)
    (hnew : ingestor.codec.sha256 prev ≠ ingestor.codec.sha256 (ingestor.defang source).1) :
    (m.ingestSource ingestor judges uri source).1.graph.Holds fun id ↦
      (id ∈ produced (uriPath uri) (ingestor.extract (ingestor.defang source).1) ∨
        id ∈ dependencies (ingestor.extract (ingestor.defang source).1)) ∨
      m.graph.InTier id ∧ ¬ (id ∈ m.graph.nodes ∧ ofFile (uriPath uri) id) := by
  have hop : ingestor.mutationOp m.sources[fileId (uriPath uri)]? (ingestor.defang source).1 =
      .fileModified := by
    rw [hprev]
    exact if_neg hnew
  have hdelta : (m.delta ingestor judges (uriPath uri) (ingestor.defang source).1).1 =
      ingestor.updateMemoryGraph judges (evictFileNodes m.graph (uriPath uri)) (uriPath uri)
        (ingestor.defang source).1 := by
    rw [CcosMemory.delta, Ingestor.processDelta, Ingestor.applyDelta, hop]
  have hstart : m.graph.Holds m.graph.InTier := fun _ ↦ Iff.rfl
  have hupdated := holds_updateMemoryGraph ingestor judges (holds_evictFileNodes hstart (uriPath uri))
    (uriPath uri) (ingestor.defang source).1
  rw [← hdelta] at hupdated
  rw [graph_ingestSource]
  exact (holds_taint hupdated (uriPath uri) _).of_rewired (MemoryGraph.rewired_resolveAll _)

/-! ## The main result -/

/-- A node of another file that the memory has ingested. -/
def CcosMemory.OfOther (ingestor : Ingestor) (m : CcosMemory) (path id : Str) : Prop :=
  ∃ other source, other ≠ path ∧ m.sources[fileId other]? = some source ∧
    id ∈ produced other (ingestor.extract source)

/-- **A new version replaces its file** in all tiers exactly when every COLD id of the form of the
file is one that it produces, and it removes no node of another file exactly when every resident
node of another file under that form is one that it produces. -/
theorem reingest_replaces_iff (ingestor : Ingestor) (judges : Judges) (m : CcosMemory)
    (uri source prev : Str) (hprev : m.sources[fileId (uriPath uri)]? = some prev)
    (hnew : ingestor.codec.sha256 prev ≠ ingestor.codec.sha256 (ingestor.defang source).1) :
    ((∀ id, (m.ingestSource ingestor judges uri source).1.graph.InTier id →
        ofFile (uriPath uri) id →
        id ∈ produced (uriPath uri) (ingestor.extract (ingestor.defang source).1)) ↔
      ∀ id, id ∈ m.graph.cold ∨ id ∈ m.graph.husks → id ∉ m.graph.nodes →
        ofFile (uriPath uri) id →
        id ∈ produced (uriPath uri) (ingestor.extract (ingestor.defang source).1)) ∧
    ((∀ id, m.OfOther ingestor (uriPath uri) id → m.graph.InTier id →
        (m.ingestSource ingestor judges uri source).1.graph.InTier id) ↔
      ∀ id, m.OfOther ingestor (uriPath uri) id → id ∈ m.graph.nodes → ofFile (uriPath uri) id →
        id ∈ produced (uriPath uri) (ingestor.extract (ingestor.defang source).1)) := by
  have hafter := holds_reingest ingestor judges m uri source prev hprev hnew
  generalize (m.ingestSource ingestor judges uri source).1.graph = after at *
  generalize ingestor.extract (ingestor.defang source).1 = version at *
  constructor
  · constructor
    · intro hall id hcold hresident hform
      apply hall id _ hform
      rw [hafter]
      exact .inr ⟨.inr hcold, fun hevicted ↦ hresident hevicted.1⟩
    · intro hcold id hid hform
      rw [hafter] at hid
      rcases hid with (hproduced | hdep) | ⟨htier, hkept⟩
      · exact hproduced
      · rw [not_ofFile_of_mem_dependencies hdep] at hform
        cases hform
      · have hresident : id ∉ m.graph.nodes := fun hnode ↦ hkept ⟨hnode, hform⟩
        exact hcold id (htier.resolve_left hresident) hresident hform
  · constructor
    · intro hall id hother hresident hform
      have hid := hall id hother (.inl hresident)
      rw [hafter] at hid
      rcases hid with (hproduced | hdep) | ⟨_, hkept⟩
      · exact hproduced
      · rw [not_ofFile_of_mem_dependencies hdep] at hform
        cases hform
      · exact absurd ⟨hresident, hform⟩ hkept
    · intro hresident id hother hid
      rw [hafter]
      by_cases hevicted : id ∈ m.graph.nodes ∧ ofFile (uriPath uri) id
      · exact .inl (.inl (hresident id hother hevicted.1 hevicted.2))
      · exact .inr ⟨hid, hevicted⟩

/-! ## A file that loses two symbols -/

/-- Every letter of a text is a function. -/
def letters (source : Str) : Extracted where
  modules := []
  useStatements := []
  symbols := source.map fun letter ↦ { name := [letter], line := 1, kind := .function }
  callSites := []
  dataRefs := []
  importAliases := []
  methodDefs := []

/-- An ingest of letters, without anomalies and without a score. -/
def letterIngestor : Ingestor where
  codec := MemoryGraph.unusedCodec
  extract := letters
  defang := fun source ↦ (source, [])
  injectionProbability := fun _ ↦ .finite 0
  headerSymbolCap := 24

def evenJudges : Judges :=
  fun _ ↦ MemoryGraph.evenJudge

/-- A file of two functions in a memory with a given number of resident nodes. -/
def twoLetters (cap : ℕ) : CcosMemory :=
  ((CcosMemory.new cap).ingestSource letterIngestor evenJudges ['a'] ['x', 'y']).1

/-- With room for all nodes, the next version takes the place of the first. -/
theorem reingest_replaces_twoLetters :
    (twoLetters 3).sources[fileId (uriPath ['a'])]? = some ['x', 'y'] ∧
      ∀ id, ((twoLetters 3).ingestSource letterIngestor evenJudges ['a'] ['z']).1.graph.InTier id →
        ofFile ['a'] id → id ∈ produced ['a'] (letters ['z']) := by
  have hprev : (twoLetters 3).sources[fileId (uriPath ['a'])]? = some ['x', 'y'] := by
    decide +kernel
  have hcold : (twoLetters 3).graph.cold.keys = [] ∧ (twoLetters 3).graph.husks.keys = [] := by
    decide +kernel
  refine ⟨hprev, ?_⟩
  apply (reingest_replaces_iff letterIngestor evenJudges (twoLetters 3) ['a'] ['z'] ['x', 'y']
    hprev (by decide)).1.mpr
  intro id hid
  rw [← Std.ExtTreeMap.mem_keys, ← Std.ExtTreeMap.mem_keys, hcold.1, hcold.2, or_self] at hid
  exact absurd hid not_mem_nil

/-- With room for one node, a function of the first version is left in the COLD tier. -/
theorem not_all_reingests_replace :
    ¬ ∀ (m : CcosMemory) (uri source prev : Str), m.sources[fileId (uriPath uri)]? = some prev →
      prev ≠ source →
      ∀ id, (m.ingestSource letterIngestor evenJudges uri source).1.graph.InTier id →
        ofFile (uriPath uri) id → id ∈ produced (uriPath uri) (letters source) := by
  intro hall
  have hleft := hall (twoLetters 1) ['a'] ['z'] ['x', 'y'] (by decide +kernel) (by decide)
    (symId ['a'] ['x']) (by unfold MemoryGraph.InTier; decide +kernel) (by decide)
  revert hleft
  decide

end SoulSystem.Ccos.External
