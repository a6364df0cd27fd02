import SoulSystem.Ccos.Memory.Operations

/-!
# From a parsed source to operations on the graph

`update_memory_graph` of the parser: what a parse result of a file does to the graph.  It is a list
of operations that depends on the result and on the text alone, so that an update is a run of
them.  The contents that it gives to the nodes are lines of the text: the span of a symbol is found
by matching braces outside comments.

What is extracted from a text is left open; a `ParseResult` is any value of its type.
-/

namespace SoulSystem.Ccos.External

open Library Memory

/-! ## Parse results -/

inductive SymbolKind where
  | function
  | struct
  | enum
  | trait
  | impl
  | const
  | static
  | type
  | macroRule
  | other
  deriving DecidableEq

inductive ModuleDecl where
  | mk (name : Str) (line : ℕ) (children : List ModuleDecl)

structure UseStatement where
  fullPath : Str
  line : ℕ
  components : List Str

structure Symbol where
  name : Str
  line : ℕ
  kind : SymbolKind

structure CallSite where
  caller : Str
  callee : Str
  line : ℕ

structure DataRef where
  reader : Str
  name : Str
  line : ℕ

structure ImportAlias where
  «local» : Str
  target : Str

structure MethodDef where
  typeName : Str
  method : Str

/-- What is extracted from a source text. -/
structure Extracted where
  modules : List ModuleDecl
  useStatements : List UseStatement
  symbols : List Symbol
  callSites : List CallSite
  dataRefs : List DataRef
  importAliases : List ImportAlias
  methodDefs : List MethodDef

structure ParseResult extends Extracted where
  filePath : Str

/-! ## Texts -/

/-- A line without the carriage return before its end, from its reversed characters. -/
def closeLine : Str → Str
  | '\r' :: chars => chars.reverse
  | chars => chars.reverse

def linesFrom (reversed : Str) : Str → List Str
  | [] => if reversed.isEmpty then [] else [reversed.reverse]
  | c :: rest =>
    if c = '\n' then closeLine reversed :: linesFrom [] rest else linesFrom (c :: reversed) rest

/-- `str::lines`. -/
def lines (text : Str) : List Str :=
  linesFrom [] text

/-- The property `White_Space` of Unicode. -/
def isWhitespace (c : Char) : Bool :=
  let n := c.toNat
  (9 ≤ n && n ≤ 13) || n == 32 || n == 133 || n == 160 || n == 5760 ||
    (8192 ≤ n && n ≤ 8202) || n == 8232 || n == 8233 || n == 8239 || n == 8287 || n == 12288

/-- `str::trim`. -/
def trim (text : Str) : Str :=
  ((text.dropWhile isWhitespace).reverse.dropWhile isWhitespace).reverse

def quoteChar : Char :=
  Char.ofNat 34

def backslash : Char :=
  Char.ofNat 92

/-- Where the scan of a line stands. -/
inductive Scan where
  | code
  | string (escaped : Bool)
  | block (prev : Char)

/-- The characters of a line outside comments. -/
def uncommented : Scan → Str → Str
  | _, [] => []
  | .string escaped, c :: rest =>
    c :: uncommented
      (if escaped then .string false
      else if c = backslash then .string true
      else if c = quoteChar then .code
      else .string false) rest
  | .block prev, c :: rest =>
    uncommented (if prev = '*' ∧ c = '/' then .code else .block c) rest
  | .code, [c] => [c]
  | .code, c :: d :: rest =>
    if c = quoteChar then c :: uncommented (.string false) (d :: rest)
    else if c = '/' ∧ d = '/' then []
    else if c = '/' ∧ d = '*' then uncommented (.block (Char.ofNat 0)) rest
    else c :: uncommented .code (d :: rest)

def stripComments (line : Str) : Str :=
  trim (uncommented .code line)

/-- How a short window of lines starts an item: with a body, or with a semicolon that ends it. -/
inductive Opening where
  | body (line : ℕ)
  | semicolon (line : ℕ)
  | neither

def findOpening : ℕ → List Str → Opening
  | _, [] => .neither
  | i, line :: rest =>
    let stripped := stripComments line
    if stripped.contains '{' then .body i
    else if stripped.getLast? = some ';' then .semicolon i
    else findOpening (i + 1) rest

/-- The depth after a line, or nothing once it came back to zero. -/
def depthAfter : ℤ → Str → Option ℤ
  | depth, [] => some depth
  | depth, c :: rest =>
    if c = '{' then depthAfter (depth + 1) rest
    else if c = '}' then
      if depth - 1 = 0 then none else depthAfter (depth - 1) rest
    else depthAfter depth rest

/-- The line that closes what is open. -/
def closingLine : ℤ → ℕ → List Str → Option ℕ
  | _, _, [] => none
  | depth, i, line :: rest =>
    match depthAfter depth (stripComments line) with
    | none => some i
    | some depth => closingLine depth (i + 1) rest

/-- The first and the last line of an item, counted from one. -/
def symbolSpan (lines : List Str) (startLine : ℕ) : ℕ × ℕ :=
  let n := lines.length
  if startLine = 0 ∨ n < startLine then
    let line := min (max startLine 1) (max n 1)
    (line, line)
  else
    match findOpening (startLine - 1) ((lines.drop (startLine - 1)).take 8) with
    | .neither => (startLine, startLine)
    | .semicolon i => (startLine, i + 1)
    | .body i =>
      match closingLine 0 i (lines.drop i) with
      | some last => (startLine, last + 1)
      | none => (startLine, n)

/-- The trimmed line of a number, if there is one. -/
def lineAt (lines : List Str) (line : ℕ) : Str :=
  (lines[line - 1]?.map trim).getD []

/-- The source span of a symbol. -/
def symbolBody (lines : List Str) (line : ℕ) : Str :=
  if lines.isEmpty then
    []
  else
    let span := symbolSpan lines line
    let first := min (max span.1 1) lines.length
    let last := min (max span.2 first) lines.length
    Str.join "\n".toList ((lines.drop (first - 1)).take (last - (first - 1)))

/-- The signature lines of the header: at most `cap` of the symbols whose line is not blank. -/
def headerLines (cap : ℕ) (lines : List Str) (symbols : List Symbol) : List Str :=
  ((symbols.map fun symbol ↦ lineAt lines symbol.line).filter fun line ↦ !line.isEmpty).take cap

def header (cap : ℕ) (result : ParseResult) (lines : List Str) : Str :=
  let shown := headerLines cap lines result.symbols
  "// ".toList ++ result.filePath ++ " — ".toList ++ Nat.toDigits 10 result.symbols.length ++
    " symbols\n".toList ++ (shown.map fun line ↦ line ++ "\n".toList).flatten ++
    if shown.length < result.symbols.length then
      "// … (+".toList ++ Nat.toDigits 10 (result.symbols.length - shown.length) ++
        " more)\n".toList
    else
      []

/-! ## Node ids -/

def fileId (path : Str) : Str :=
  Sites.fileId path

def modId (path name : Str) : Str :=
  "mod:".toList ++ path ++ ":".toList ++ name

def useId (path fullPath : Str) : Str :=
  "use:".toList ++ path ++ ":".toList ++ fullPath

def symId (path name : Str) : Str :=
  Sites.symId path name

def depId (root : Str) : Str :=
  "dep:".toList ++ root

/-- Whether an id has the form of a node of a file: its file node, or a module, import or symbol. -/
def ofFile (path id : Str) : Bool :=
  id == fileId path || (modId path []).isPrefixOf id || (useId path []).isPrefixOf id ||
    (symId path []).isPrefixOf id

/-! ## The operations of an update -/

/-- A node with an edge from the node that it hangs on. -/
def hang (parent id label content : Str) (nodeType : NodeType) (weight : ℚ) (edgeType : EdgeType) :
    List Op :=
  [.upsertNode id label content nodeType, .addEdge parent id (.finite weight) edgeType]

mutual

/-- A submodule with what is below it. -/
def moduleNode (path : Str) (lines : List Str) (parent : Str) : ModuleDecl → List Op
  | .mk name line children =>
    hang parent (modId path name) name (lineAt lines line) .module (85 / 100) .contains ++
      moduleTree path lines (modId path name) children

/-- The submodules of a module. -/
def moduleTree (path : Str) (lines : List Str) (parent : Str) : List ModuleDecl → List Op
  | [] => []
  | child :: rest => moduleNode path lines parent child ++ moduleTree path lines parent rest

end

def moduleOps (path : Str) (lines : List Str) : ModuleDecl → List Op
  | .mk name line children =>
    hang (fileId path) (modId path name) name (lineAt lines line) .module (9 / 10) .contains ++
      moduleTree path lines (modId path name) children

def useOps (path : Str) (lines : List Str) (stmt : UseStatement) : List Op :=
  hang (fileId path) (useId path stmt.fullPath) ("use ".toList ++ stmt.fullPath)
      (lineAt lines stmt.line) .symbol (1 / 2) .dependsOn ++
    match stmt.components.head? with
    | some root =>
      [.upsertNode (depId root) root ("External dependency: ".toList ++ root) .symbol,
        .addEdge (useId path stmt.fullPath) (depId root) (.finite (7 / 10)) .dependsOn]
    | none => []

def Symbol.isData (symbol : Symbol) : Bool :=
  symbol.kind == .static || symbol.kind == .const

def symbolOps (path : Str) (lines : List Str) (symbol : Symbol) : List Op :=
  hang (fileId path) (symId path symbol.name) symbol.name (symbolBody lines symbol.line) .symbol
      (6 / 10) .contains ++
    if symbol.isData then [.markDataSymbol (symId path symbol.name)] else []

def pendingOps (result : ParseResult) : List Op :=
  [.setPendingCalls result.filePath
      (result.callSites.map fun site ↦ (site.caller, site.callee, site.line)),
    .setPendingDataRefs result.filePath
      (result.dataRefs.map fun ref ↦ (ref.reader, ref.name, ref.line)),
    .setPendingAliases result.filePath
      (result.importAliases.map fun binding ↦ (binding.«local», binding.target)),
    .setPendingMethods result.filePath
      (result.methodDefs.map fun fact ↦ (fact.typeName, fact.method))]

/-- `update_memory_graph`: the operations of a parse result, with at most `cap` lines in the
header. -/
def updateOps (cap : ℕ) (result : ParseResult) (source : Str) : List Op :=
  let text := lines source
  .upsertNode (fileId result.filePath) result.filePath (header cap result text) .module ::
    (result.modules.flatMap (moduleOps result.filePath text) ++
      result.useStatements.flatMap (useOps result.filePath text) ++
      result.symbols.flatMap (symbolOps result.filePath text) ++ pendingOps result)

end SoulSystem.Ccos.External
