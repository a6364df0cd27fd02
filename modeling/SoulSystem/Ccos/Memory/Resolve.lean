import SoulSystem.Ccos.Memory.Graph

/-!
# Resolution of imports, calls and data references

The three whole-graph passes of `resolve_all` and the pruning that precedes them.  Every pass first
collects the edges it wants, which depends on the resident ids and on the recorded call sites only,
and then offers them to `add_edge` in turn.

An index keyed by a pair or a triple of strings is a map keyed by a list of strings: lists of one
length are ordered as the tuples are.
-/

namespace SoulSystem.Ccos.Memory

open Library

/-! ## Module paths -/

/-- The module path of a source file below its root. -/
def moduleOf (after : Str) : Option Str := do
  let path ← Str.stripSuffix ".rs".toList after
  let segs := (Str.split "/".toList path).filter fun seg ↦ !seg.isEmpty
  let last ← segs.getLast?
  if last ∈ ["mod".toList, "lib".toList, "main".toList] then
    some (Str.join "::".toList segs.dropLast)
  else
    some (Str.join "::".toList segs)

/-- The file of a `sym:<file>:<name>` id. -/
def symFile (id : Str) : Option Str :=
  ((Str.stripPrefix "sym:".toList id).bind (Str.rsplitOnce ":".toList)).map Prod.fst

def crateAndModule (filePath : Str) : Option (Str × Str) :=
  let (krate, after) := match Str.splitOnce "/src/".toList filePath with
    | some (before, after) =>
      ((Str.lastPart "/".toList before).map fun c ↦ if c = '-' then '_' else c, after)
    | none => ([], (Str.stripPrefix "src/".toList filePath).getD filePath)
  (moduleOf after).map fun module ↦ (krate, module)

/-- The crate and the module segments that an import or call path names. -/
def parseModpath (importerCrate usepath : Str) : Str × List Str :=
  let local? := (Str.stripPrefix "crate::".toList usepath).orElse fun _ ↦
    (Str.stripPrefix "self::".toList usepath).orElse fun _ ↦
      Str.stripPrefix "super::".toList usepath
  let (targetCrate, rest) := match local? with
    | some rest => (importerCrate, rest)
    | none =>
      if usepath ∈ ["crate".toList, "self".toList, "super".toList] then
        (importerCrate, [])
      else
        (Str.splitOnce "::".toList usepath).getD (usepath, [])
  (targetCrate, (Str.split "::".toList rest).filter fun seg ↦ !seg.isEmpty)

/-- From `(crate, module)` to the id of the file node that defines it. -/
abbrev FileIndex := Std.ExtTreeMap (List Str) Str

/-- From `(crate, module, name)` to the id of a symbol node. -/
abbrev Defs := Std.ExtTreeMap (List Str) Str

/-- The defining file of an import: the longest module path with a file. -/
def resolveUse (importerCrate usepath : Str) (index : FileIndex) : Option Str :=
  let (targetCrate, segs) := parseModpath importerCrate usepath
  let minLen := if targetCrate = importerCrate then 1 else 0
  (List.range' minLen (segs.length + 1 - minLen)).reverse.findSome? fun len ↦
    index[[targetCrate, Str.join "::".toList (segs.take len)]]?

/-- The file whose module is exactly the path. -/
def resolveModuleExact (importerCrate path : Str) (index : FileIndex) : Option Str :=
  let (targetCrate, segs) := parseModpath importerCrate path
  index[[targetCrate, Str.join "::".toList segs]]?

/-- What both resolvers look names up in. -/
structure NameIndex where
  scope : Std.ExtTreeMap Str (List Str)
  fileIndex : FileIndex
  defs : Defs
  nameCount : Std.ExtTreeMap Str ℕ
  nameFirst : Std.ExtTreeMap Str Str

namespace NameIndex

variable (index : NameIndex)

def resolveBareModpath (before name fcrate : Str) : Option Str :=
  (index.fileIndex[[fcrate, before]]?).bind fun _ ↦ index.defs[[fcrate, before, name]]?

/-- The symbol `name` of the module that a file node defines. -/
def symbolOf (name : Str) (fileNode : Str) : Option Str := do
  let file ← Str.stripPrefix "file:".toList fileNode
  let (krate, module) ← crateAndModule file
  index.defs[[krate, module, name]]?

def resolveQualified (file path fcrate : Str) : Option Str :=
  match Str.rsplitOnce "::".toList path with
  | none => none
  | some (before, name) =>
    if before = "crate".toList ∨ "crate::".toList.isPrefixOf before then
      (resolveModuleExact fcrate before index.fileIndex).bind (index.symbolOf name)
    else
      let first := Str.firstPart "::".toList before
      let rest := (Str.stripPrefix first before).getD []
      match (index.scope.getD file []).filter fun use ↦ Str.lastPart "::".toList use == first with
      | [use] =>
        (resolveModuleExact fcrate (use ++ rest) index.fileIndex).bind (index.symbolOf name)
      | [] => index.resolveBareModpath before name fcrate
      | _ :: _ :: _ => none

/-- The symbols that the imports of a file give a bare name. -/
def importCandidates (name file fcrate : Str) : List Str :=
  ((index.scope.getD file []).filterMap fun usepath ↦
    if Str.lastPart "::".toList usepath = name then do
      let (modulePath, _) ← Str.rsplitOnce "::".toList usepath
      let deffile ← resolveUse fcrate modulePath index.fileIndex
      index.symbolOf name deffile
    else
      none).dedup

/-- The ladder for a bare name: imports, then the own module, then the whole graph. -/
def resolveBare (name file fcrate fmodule : Str) : Option Str :=
  match index.importCandidates name file fcrate with
  | [sym] => some sym
  | _ :: _ :: _ => none
  | [] =>
    match index.defs[[fcrate, fmodule, name]]? with
    | some sym => some sym
    | none => if index.nameCount[name]? = some 1 then index.nameFirst[name]? else none

/-- The bare ladder over an index of data symbols only. -/
def resolveBareData (name file fcrate fmodule : Str) : Option Str :=
  index.resolveBare name file fcrate fmodule

/-- From `(type, method)` to a method symbol, with the number of definitions. -/
structure MethodIndex where
  typeMethod : Std.ExtTreeMap (List Str) Str
  tmCount : Std.ExtTreeMap (List Str) ℕ

/-- The reading of `A::b` as a method of a type. -/
def MethodIndex.hit (methods : MethodIndex) (callee : Str) : Option Str :=
  match Str.rsplitOnce "::".toList callee with
  | some (ty, method) =>
    if (Str.splitOnce "::".toList ty).isNone ∧ methods.tmCount[[ty, method]]? = some 1 then
      methods.typeMethod[[ty, method]]?
    else
      none
  | none => none

/-- A path with its leading segment replaced by what an alias binds it to. -/
def rewriteAlias (aliases : List (Str × Str)) (path : Str) : Str :=
  match aliases.lookup (Str.firstPart "::".toList path) with
  | some target =>
    match Str.splitOnce "::".toList path with
    | some (_, rest) => target ++ "::".toList ++ rest
    | none => target
  | none => path

/-- `resolve_call` once its alias has been applied. -/
def resolveCallLiteral (methods : MethodIndex) (file callee fcrate fmodule : Str) : Option Str :=
  match Str.stripPrefix "Self::".toList callee with
  | some method => index.defs[[fcrate, fmodule, method]]?
  | none =>
    if (Str.splitOnce "::".toList callee).isSome then
      match index.resolveQualified file callee fcrate, methods.hit callee with
      | some m, some t => if m = t then some m else none
      | some m, none => some m
      | none, hit => hit
    else
      index.resolveBare callee file fcrate fmodule

def resolveCall (methods : MethodIndex) (aliases : List (Str × Str))
    (file callee fcrate fmodule : Str) : Option Str :=
  index.resolveCallLiteral methods file (rewriteAlias aliases callee) fcrate fmodule

end NameIndex

/-! ## What the passes read -/

/-- The resident ids in order and the recorded references. -/
structure Sites where
  ids : List Str
  pendingCalls : Std.ExtTreeMap Str (List (Str × Str × ℕ))
  pendingDataRefs : Std.ExtTreeMap Str (List (Str × Str × ℕ))
  pendingAliases : Std.ExtTreeMap Str (List (Str × Str))
  pendingMethods : Std.ExtTreeMap Str (List (Str × Str))
  dataSymbols : Std.ExtTreeMap Str Unit

def MemoryGraph.sites (g : MemoryGraph) : Sites where
  ids := g.nodes.keys
  pendingCalls := g.pendingCalls
  pendingDataRefs := g.pendingDataRefs
  pendingAliases := g.pendingAliases
  pendingMethods := g.pendingMethods
  dataSymbols := g.dataSymbols

/-- The file nodes by crate and module; of two files with one key the later id stays. -/
def fileIndex (ids : List Str) : FileIndex :=
  ids.foldl (fun index id ↦
    match (Str.stripPrefix "file:".toList id).bind crateAndModule with
    | some (krate, module) => index.insert [krate, module] id
    | none => index) ∅

/-- A `use:<file>:<path>` id as its file and its path. -/
def splitUse (id : Str) : Option (Str × Str) :=
  (Str.stripPrefix "use:".toList id).bind (Str.splitOnce ":".toList)

/-- A `sym:<file>:<name>` id as its file and its name. -/
def splitSym (id : Str) : Option (Str × Str) :=
  (Str.stripPrefix "sym:".toList id).bind (Str.rsplitOnce ":".toList)

/-- The import paths of every file. -/
def useScope (ids : List Str) : Std.ExtTreeMap Str (List Str) :=
  ids.foldl (fun scope id ↦
    match splitUse id with
    | some (file, usepath) => scope.insert file (scope.getD file [] ++ [usepath])
    | none => scope) ∅

/-- The symbols by crate, module and name; of two with one key the later id stays. -/
def symbolDefs (ids : List Str) : Defs :=
  ids.foldl (fun defs id ↦
    match splitSym id with
    | some (file, name) =>
      match crateAndModule file with
      | some (krate, module) => defs.insert [krate, module, name] id
      | none => defs
    | none => defs) ∅

/-- How many ids have each name. -/
def countNames (nameOf : Str → Option Str) (ids : List Str) : Std.ExtTreeMap Str ℕ :=
  ids.foldl (fun counts id ↦
    match nameOf id with
    | some name => counts.insert name (counts.getD name 0 + 1)
    | none => counts) ∅

/-- The first id of each name. -/
def firstNames (nameOf : Str → Option Str) (ids : List Str) : Std.ExtTreeMap Str Str :=
  ids.foldl (fun firsts id ↦
    match nameOf id with
    | some name => firsts.insertIfNew name id
    | none => firsts) ∅

def symName (id : Str) : Option Str :=
  (splitSym id).map Prod.snd

def dataName (id : Str) : Option Str :=
  (Str.rsplitOnce ":".toList id).map Prod.snd

namespace Sites

variable (sites : Sites)

/-- The index that calls are resolved against. -/
def callIndex : NameIndex where
  scope := useScope sites.ids
  fileIndex := fileIndex sites.ids
  defs := symbolDefs sites.ids
  nameCount := countNames symName sites.ids
  nameFirst := firstNames symName sites.ids

def residentData : List Str :=
  sites.dataSymbols.keys.filter fun id ↦ sites.ids.contains id

/-- The index that data references are resolved against: static and const items only. -/
def dataIndex : NameIndex where
  scope := useScope sites.ids
  fileIndex := fileIndex sites.ids
  defs := symbolDefs sites.residentData
  nameCount := countNames dataName sites.residentData
  nameFirst := firstNames dataName sites.residentData

/-- Every recorded method with its file, in order. -/
def methodEntries : List (Str × Str × Str) :=
  sites.pendingMethods.toList.flatMap fun entry ↦ entry.2.map fun method ↦ (entry.1, method)

def symId (file name : Str) : Str :=
  "sym:".toList ++ file ++ ":".toList ++ name

def fileId (file : Str) : Str :=
  "file:".toList ++ file

def methodIndex : NameIndex.MethodIndex where
  typeMethod := sites.methodEntries.foldl (fun index entry ↦
    let sym := symId entry.1 entry.2.2
    if sites.ids.contains sym then index.insertIfNew [entry.2.1, entry.2.2] sym else index) ∅
  tmCount := sites.methodEntries.foldl (fun counts entry ↦
    counts.insert [entry.2.1, entry.2.2] (counts.getD [entry.2.1, entry.2.2] 0 + 1)) ∅

/-! ## The edges that the passes want -/

/-- From an importer to the file that defines what it imports. -/
def importEdges : List Triple :=
  sites.ids.filterMap fun id ↦ do
    let (file, usepath) ← splitUse id
    let importer := fileId file
    if sites.ids.contains importer then
      let target ← resolveUse (((crateAndModule file).map Prod.fst).getD []) usepath
        (fileIndex sites.ids)
      if target ≠ importer then some (importer, target, .dependsOn) else none
    else
      none

/-- From the file of a module to the files of its submodules. -/
def hierarchyEdges : List Triple :=
  (fileIndex sites.ids).toList.filterMap fun entry ↦
    match entry with
    | ([krate, module], child) =>
      if module.isEmpty then
        none
      else
        let parentModule := ((Str.rsplitOnce "::".toList module).map Prod.fst).getD []
        ((fileIndex sites.ids)[[krate, parentModule]]?).bind fun parent ↦
          if parent ≠ child then some (parent, child, .contains) else none
    | _ => none

def PairLe (a b : Str × Str) : Prop :=
  compare a.1 b.1 = .lt ∨ compare a.1 b.1 = .eq ∧ (compare a.2 b.2).isLE

instance : DecidableRel PairLe := fun _ _ ↦ inferInstanceAs (Decidable (_ ∨ _ ∧ _))

/-- Sorted and without duplicates, each pair made an edge of one type. -/
def sortDedup (edgeType : EdgeType) (pairs : List (Str × Str)) : List Triple :=
  (pairs.insertionSort PairLe).dedup.map fun pair ↦ (pair.1, pair.2, edgeType)

/-- The edges from the resident holders of some references to what these resolve to. -/
def referencePairs (pending : Std.ExtTreeMap Str (List (Str × Str × ℕ)))
    (resolve : Str → Str → Option Str) : List (Str × Str) :=
  pending.toList.flatMap fun entry ↦ entry.2.filterMap fun ref ↦
    let holder := symId entry.1 ref.1
    if sites.ids.contains holder then
      (resolve entry.1 ref.2.1).bind fun target ↦
        if target ≠ holder then some (holder, target) else none
    else
      none

/-- The target of a call from a file. -/
def callTarget (file callee : Str) : Option Str :=
  let (fcrate, fmodule) := (crateAndModule file).getD ([], [])
  sites.callIndex.resolveCall sites.methodIndex (sites.pendingAliases.getD file [])
    file callee fcrate fmodule

/-- The target of a data reference from a file. -/
def dataTarget (file name : Str) : Option Str :=
  let (fcrate, fmodule) := (crateAndModule file).getD ([], [])
  let rewritten := NameIndex.rewriteAlias (sites.pendingAliases.getD file []) name
  if (Str.splitOnce "::".toList rewritten).isSome then
    sites.dataIndex.resolveQualified file rewritten fcrate
  else
    sites.dataIndex.resolveBareData rewritten file fcrate fmodule

def callEdges : List Triple :=
  sortDedup .calls (sites.referencePairs sites.pendingCalls sites.callTarget)

def dataEdges : List Triple :=
  sortDedup .dataFlow (sites.referencePairs sites.pendingDataRefs sites.dataTarget)

end Sites

/-! ## The passes -/

namespace MemoryGraph

/-- Offer edges of one weight to `add_edge` in turn, counting those that were added. -/
def addEdges (weight : F64) (g : MemoryGraph) (wanted : List Triple) : MemoryGraph × ℕ :=
  wanted.foldl (fun state triple ↦
    let result := addEdge state.1 triple.1 triple.2.1 weight triple.2.2
    (result.1, if result.2 then state.2 + 1 else state.2)) (g, 0)

def linkModuleImports (g : MemoryGraph) : MemoryGraph × ℕ :=
  addEdges (.finite (85 / 100)) g (g.sites.importEdges ++ g.sites.hierarchyEdges)

def resolveSymbolCalls (g : MemoryGraph) : MemoryGraph × ℕ :=
  addEdges (.finite (75 / 100)) g g.sites.callEdges

def resolveDataFlow (g : MemoryGraph) : MemoryGraph × ℕ :=
  addEdges (.finite (6 / 10)) g g.sites.dataEdges

/-- Whether `resolve_all` is about to rebuild an edge. -/
def resolutionOwned (g : MemoryGraph) (edge : GraphEdge) : Bool :=
  match edge.edgeType with
  | .dependsOn | .contains =>
    "file:".toList.isPrefixOf edge.source && "file:".toList.isPrefixOf edge.target
  | .calls => (symFile edge.source).any fun file ↦ g.pendingCalls.contains file
  | .dataFlow => (symFile edge.source).any fun file ↦ g.pendingDataRefs.contains file
  | _ => false

def pruneResolutionEdges (g : MemoryGraph) : MemoryGraph :=
  { g with edges := g.edges.filter fun edge ↦ !g.resolutionOwned edge }

/-- The graph after a full resolution and the number of import edges added. -/
def resolveAll (g : MemoryGraph) : MemoryGraph × ℕ :=
  let linked := linkModuleImports (pruneResolutionEdges g)
  ((resolveDataFlow (resolveSymbolCalls linked.1).1).1, linked.2)

/-- Replace what is recorded for a file; nothing is recorded by an empty list. -/
def setPending {α : Type} (pending : Std.ExtTreeMap Str (List α)) (file : Str) (refs : List α) :
    Std.ExtTreeMap Str (List α) :=
  if refs.isEmpty then pending.erase file else pending.insert file refs

def setPendingCalls (g : MemoryGraph) (file : Str) (calls : List (Str × Str × ℕ)) : MemoryGraph :=
  { g with pendingCalls := setPending g.pendingCalls file calls }

def setPendingDataRefs (g : MemoryGraph) (file : Str) (refs : List (Str × Str × ℕ)) :
    MemoryGraph :=
  { g with pendingDataRefs := setPending g.pendingDataRefs file refs }

def setPendingAliases (g : MemoryGraph) (file : Str) (aliases : List (Str × Str)) : MemoryGraph :=
  { g with pendingAliases := setPending g.pendingAliases file aliases }

def setPendingMethods (g : MemoryGraph) (file : Str) (methods : List (Str × Str)) : MemoryGraph :=
  { g with pendingMethods := setPending g.pendingMethods file methods }

def markDataSymbol (g : MemoryGraph) (id : Str) : MemoryGraph :=
  { g with dataSymbols := g.dataSymbols.insert id () }

end MemoryGraph

end SoulSystem.Ccos.Memory
