import Std.Data.ExtTreeMap
import SoulSystem.Library.TextSlices
import SoulSystem.Library.Words
import SoulSystem.Scirust.Safetensors.Tensors

/-!
# The tensor file

The header is JSON text, written and read by hand.  Reading goes over the bytes of the text by
position and slices the text at the positions it finds.

A position is at most one past the end of its buffer, and no buffer has more than `2 ^ 63 - 1`
bytes; so sums of positions are plain numbers.  A loop gets as many turns as its buffer has bytes
and one more, and it is a fault when they do not suffice.

A file is the size of the header in eight bytes, the header, and the data that the header's offsets
point into.  The header maps each name to an entry with a type, a shape and a range of the data, and
`__metadata__` to strings.

The loops for matrices and for tensors of any rank only differ in how an entry is read.

Saving writes the metadata in the order of its map, which may be any, and then the tensors in the
order of their names.  The writers for matrices and for tensors of any rank differ in what follows
the metadata when there is no tensor.
-/

namespace SoulSystem.Scirust.Safetensors

open Library Std

/-! ## Characters of the syntax -/

def backslash : Char := '\\'
def quote : Char := '"'
def openBrace : Char := Char.ofNat 123
def closeBrace : Char := Char.ofNat 125

abbrev byte (c : Char) : UInt8 := Str.asciiByte c

def metadataKey : Str := "__metadata__".toList

/-! ## Escaping -/

def replaceChar (old : Char) (new text : Str) : Str :=
  text.flatMap fun c ↦ if c = old then new else [c]

def escapeJson (text : Str) : Str :=
  replaceChar quote [backslash, quote] (replaceChar backslash [backslash, backslash] text)

/-- What a backslash and the character after it stand for. -/
def unescaped (c : Char) : Str :=
  if c = quote then [quote]
  else if c = backslash then [backslash]
  else if c = 'n' then ['\n']
  else if c = 't' then ['\t']
  else if c = 'r' then ['\r']
  else [backslash, c]

def unescapeJson : Str → Str
  | [] => []
  | [c] => [c]
  | c :: next :: rest =>
    if c = backslash then unescaped next ++ unescapeJson rest
    else c :: unescapeJson (next :: rest)

/-! ## Slices -/

def sliceText (text : Str) (start stop : ℕ) : Except Failure Str :=
  orFault (Str.slice text start stop)

/-- `bytes[start..stop]`. -/
def sliceBytes (bytes : Bytes) (start stop : ℕ) : Except Failure Bytes :=
  if start ≤ stop ∧ stop ≤ bytes.length then .ok ((bytes.drop start).take (stop - start))
  else .error .fault

/-- `bytes[start..]`. -/
def sliceBytesFrom (bytes : Bytes) (start : ℕ) : Except Failure Bytes :=
  if start ≤ bytes.length then .ok (bytes.drop start) else .error .fault

/-! ## Scanning -/

def findUnescapedQuote : Bytes → Option ℕ
  | [] => none
  | b :: rest =>
    if b = byte backslash then
      match rest with
      | [] => none
      | _ :: rest => (findUnescapedQuote rest).map (· + 2)
    else if b = byte quote then some 0
    else (findUnescapedQuote rest).map (· + 1)

/-- The depth of nesting is an `i32`. -/
def checkedI32 (depth : ℤ) : Except Failure ℤ :=
  if -2 ^ 31 ≤ depth ∧ depth < 2 ^ 31 then .ok depth else .error .fault

def skipBalancedFrom (bytes : Bytes) (opening closing : UInt8) : ℕ → ℤ → ℕ → Except Failure ℕ
  | 0, _, _ => .error .fault
  | fuel + 1, depth, i =>
    match bytes[i]? with
    | none => .ok i
    | some b =>
      if b = byte quote then do
        let rest ← sliceBytesFrom bytes (i + 1)
        let p := (findUnescapedQuote rest).getD (bytes.length - i - 1)
        skipBalancedFrom bytes opening closing fuel depth (min (i + 1 + p + 1) bytes.length)
      else if b = opening then do
        let depth ← checkedI32 (depth + 1)
        skipBalancedFrom bytes opening closing fuel depth (i + 1)
      else if b = closing then do
        let depth ← checkedI32 (depth - 1)
        if depth = 0 then .ok (i + 1)
        else skipBalancedFrom bytes opening closing fuel depth (i + 1)
      else
        skipBalancedFrom bytes opening closing fuel depth (i + 1)

def skipBalanced (bytes : Bytes) (start : ℕ) (opening closing : UInt8) : Except Failure ℕ :=
  skipBalancedFrom bytes opening closing (bytes.length + 1) 0 start

/-- The first position from `i` on with neither a space nor a colon. -/
def skipSeparators (bytes : Bytes) (i : ℕ) : ℕ :=
  i + ((bytes.drop i).takeWhile fun b ↦ b = byte ' ' ∨ b = byte ':').length

/-! ## Fields of an entry -/

/-- The text of a field, between the character behind its name and the one that ends it. -/
def fieldText (obj : Str) (name : String) (opening closing : Char) (message : String) :
    Except Failure Str := do
  let pat := quote :: name.toList ++ [quote, ':', opening]
  let found ← orInvalid s!"champ {name} absent" (Str.find pat obj)
  let start := found + (Str.utf8 pat).length
  let rest ← orFault (Str.sliceFrom obj start)
  let p ← orInvalid message (Str.find [closing] rest)
  sliceText obj start (start + p)

def extractStrField (obj : Str) (name : String) : Except Failure Str :=
  fieldText obj name quote quote "string non terminée"

def digitsValue (digits : Str) : Option ℕ :=
  if digits ≠ [] ∧ digits.all Char.isDigit then some (Nat.ofDigitChars 10 digits 0) else none

/-- `parse::<i64>`. -/
def parseI64 : Str → Option ℤ
  | '-' :: digits =>
    (digitsValue digits).bind fun n ↦ if n ≤ 2 ^ 63 then some (-(n : ℤ)) else none
  | '+' :: digits => (digitsValue digits).bind fun n ↦ if n < 2 ^ 63 then some (n : ℤ) else none
  | digits => (digitsValue digits).bind fun n ↦ if n < 2 ^ 63 then some (n : ℤ) else none

def parseNumber (text : Str) : Except Failure ℤ :=
  match parseI64 (Str.trim text) with
  | some value => .ok value
  | none => .error .parseIntError

def extractArrayField (obj : Str) (name : String) : Except Failure (List ℤ) := do
  let inner ← fieldText obj name '[' ']' "array non terminé"
  if Str.trim inner = [] then return []
  else (inner.splitOn ',').mapM parseNumber

section Load

/-! ## Values of an entry -/

/-- A shape and a range of the data, which passed the checks on an entry. -/
structure Layout where
  dims : List ℕ
  start : ℕ
  stop : ℕ
  deriving DecidableEq, Repr

/-- The checks that an entry goes through before the product of its shape is taken. -/
def readFields (obj : Str) : Except Failure (List ℤ × List ℤ) := do
  let dtype ← extractStrField obj "dtype"
  if dtype ≠ "F32".toList then
    .error (.invalidData ("dtype non supporté : " ++ String.ofList dtype))
  else
    let shape ← extractArrayField obj "shape"
    let offsets ← extractArrayField obj "data_offsets"
    return (shape, offsets)

/-- The check of the offsets against the data and the number of values. -/
def checkSpan (data : Bytes) (numel start stop : ℕ) : Except Failure Unit :=
  if stop > data.length ∨ start > stop then .error (.invalidData "offsets hors bornes")
  else if (stop - start) % 4 ≠ 0 then
    .error (.invalidData "span data_offsets non multiple de 4 octets (f32)")
  else if (stop - start) / 4 ≠ numel then
    .error (.invalidData s!"taille data inattendue : {(stop - start) / 4} vs {numel}")
  else .ok ()

def layout2D (obj : Str) (data : Bytes) : Except Failure Layout := do
  let (shape, offsets) ← readFields obj
  match shape, offsets with
  | [rows, cols], [start, stop] =>
    if (shape ++ offsets).any (· < 0) then
      .error (.invalidData "valeur négative dans shape / data_offsets")
    else
      let numel ← orInvalid "débordement de rows * cols" (checkedMul rows.toNat cols.toNat)
      checkSpan data numel start.toNat stop.toNat
      return { dims := [rows.toNat, cols.toNat], start := start.toNat, stop := stop.toNat }
  | [_, _], _ => .error (.invalidData "data_offsets doit être [s, e]")
  | _, _ =>
    .error (.invalidData s!"seuls les tenseurs 2D sont supportés, got shape len {shape.length}")

def layoutND (obj : Str) (data : Bytes) : Except Failure Layout := do
  let (shape, offsets) ← readFields obj
  match offsets with
  | [start, stop] =>
    if (shape ++ offsets).any (· < 0) then
      .error (.invalidData "valeur négative dans shape / data_offsets")
    else
      let dims := shape.map Int.toNat
      let numel ← orInvalid "débordement du produit de shape" (checkedProduct dims)
      checkSpan data numel start.toNat stop.toNat
      return { dims, start := start.toNat, stop := stop.toNat }
  | _ => .error (.invalidData "data_offsets doit être [s, e]")

/-- The values in a range of the data, four bytes each. -/
def readFloats (data : Bytes) (start stop : ℕ) : Except Failure (List F32) :=
  (List.range ((stop - start) / 4)).mapM fun k ↦ do
    let floatBytes ← sliceBytes data (start + k * 4) (start + k * 4 + 4)
    return F32.fromLeBytes floatBytes

def read2D (obj : Str) (data : Bytes) : Except Failure Tensor := do
  let layout ← layout2D obj data
  let floats ← readFloats data layout.start layout.stop
  Tensor.fromVec floats (layout.dims.headD 0) (layout.dims.tail.headD 0)

def readND (obj : Str) (data : Bytes) : Except Failure TensorND := do
  let layout ← layoutND obj data
  let floats ← readFloats data layout.start layout.stop
  TensorND.new floats layout.dims

/-! ## The loop over the header -/

variable {τ : Type}

def parseEntriesFrom (read : Str → Bytes → Except Failure τ) (header : Str) (data : Bytes) :
    ℕ → ℕ → ExtTreeMap Str τ → Except Failure (ExtTreeMap Str τ)
  | 0, _, _ => .error .fault
  | fuel + 1, i, out =>
    let bytes := Str.utf8 header
    match bytes[i]? with
    | none => .ok out
    | some b =>
      if b ≠ byte quote then parseEntriesFrom read header data fuel (i + 1) out
      else do
        let keyStart := i + 1
        let rest ← sliceBytesFrom bytes keyStart
        let p ← orInvalid "string non terminée" (findUnescapedQuote rest)
        let keyEnd := keyStart + p
        let key ← sliceText header keyStart keyEnd
        let i := skipSeparators bytes (keyEnd + 1)
        if key = metadataKey then
          let i ← skipBalanced bytes i (byte openBrace) (byte closeBrace)
          parseEntriesFrom read header data fuel i out
        else if bytes[i]? ≠ some (byte openBrace) then
          .error (.invalidData ("attendu '\x7b' après " ++ String.ofList key))
        else
          let objEnd ← skipBalanced bytes i (byte openBrace) (byte closeBrace)
          let obj ← sliceText header i objEnd
          let value ← read obj data
          parseEntriesFrom read header data fuel objEnd (out.insert key value)

def parseEntries (read : Str → Bytes → Except Failure τ) (header : Str) (data : Bytes) :
    Except Failure (ExtTreeMap Str τ) :=
  parseEntriesFrom read header data ((Str.utf8 header).length + 1) 0 ∅

def parseHeader (header : Str) (data : Bytes) : Except Failure (ExtTreeMap Str Tensor) :=
  parseEntries read2D header data

def parseHeaderND (header : Str) (data : Bytes) : Except Failure (ExtTreeMap Str TensorND) :=
  parseEntries readND header data

/-! ## Metadata -/

def metadataFrom (obj : Str) : ℕ → ℕ → ExtTreeMap Str Str → Except Failure (ExtTreeMap Str Str)
  | 0, _, _ => .error .fault
  | fuel + 1, j, metadata =>
    let b := Str.utf8 obj
    match b[j]? with
    | none => .ok metadata
    | some c =>
      if c ≠ byte quote then metadataFrom obj fuel (j + 1) metadata
      else do
        let ks := j + 1
        let rest ← sliceBytesFrom b ks
        match findUnescapedQuote rest with
        | none => .ok metadata
        | some p =>
          let k ← sliceText obj ks (ks + p)
          let j := skipSeparators b (ks + p + 1)
          if b[j]? ≠ some (byte quote) then .ok metadata
          else
            let vs := j + 1
            let rest ← sliceBytesFrom b vs
            match findUnescapedQuote rest with
            | none => .ok metadata
            | some p =>
              let v ← sliceText obj vs (vs + p)
              metadataFrom obj fuel (vs + p + 1)
                (metadata.insert (unescapeJson k) (unescapeJson v))

def metadataNeedle : Str := quote :: metadataKey ++ [quote, ':']

/-- The `__metadata__` section of a header. -/
def extractMetadata (header : Str) : Except Failure (ExtTreeMap Str Str) := do
  match Str.find metadataNeedle header with
  | none => return ∅
  | some start =>
    let braceStart := start + (Str.utf8 metadataNeedle).length
    let objEnd ← skipBalanced (Str.utf8 header) braceStart (byte openBrace) (byte closeBrace)
    let obj ← sliceText header braceStart objEnd
    metadataFrom obj ((Str.utf8 obj).length + 1) 0 ∅

/-! ## The file -/

def maxHeaderSize : ℕ := 16 * 1024 * 1024

/-- The header and the data. -/
def splitHeader (bytes : Bytes) : Except Failure (Str × Bytes) := do
  if bytes.length < 8 then .error (.invalidData "fichier trop court")
  else
    let sizeBytes ← sliceBytes bytes 0 8
    let headerSize := ByteCursor.fromLeBytes sizeBytes
    if headerSize > maxHeaderSize then
      .error (.invalidData s!"header trop grand : {headerSize} bytes (max {maxHeaderSize})")
    else if 8 + headerSize > bytes.length then .error (.invalidData "header_size invalide")
    else
      let headerBytes ← sliceBytes bytes 8 (8 + headerSize)
      match Str.fromUtf8 headerBytes with
      | none => .error .utf8Error
      | some header =>
        let data ← sliceBytesFrom bytes (8 + headerSize)
        return (header, data)

def deserialize (bytes : Bytes) : Except Failure (ExtTreeMap Str Tensor) := do
  let (header, data) ← splitHeader bytes
  parseHeader header data

def deserializeWithMetadata (bytes : Bytes) :
    Except Failure (ExtTreeMap Str Tensor × ExtTreeMap Str Str) := do
  let (header, data) ← splitHeader bytes
  let tensors ← parseHeader header data
  let metadata ← extractMetadata header
  return (tensors, metadata)

def deserializeStateDict (bytes : Bytes) :
    Except Failure (ExtTreeMap Str Tensor × ExtTreeMap Str Str) := do
  let (header, data) ← splitHeader bytes
  let metadata ← extractMetadata header
  let tensors ← parseHeader header data
  return (tensors, metadata)

def deserializeStateDictND (bytes : Bytes) :
    Except Failure (ExtTreeMap Str TensorND × ExtTreeMap Str Str) := do
  let (header, data) ← splitHeader bytes
  let metadata ← extractMetadata header
  let tensors ← parseHeaderND header data
  return (tensors, metadata)

end Load

/-! ## Saving a state dict -/

/-- A map of strings with the order that it iterates in. -/
structure Metadata where
  entries : List (Str × Str)
  nodup : (entries.map Prod.fst).Nodup

/-- The map itself. -/
def Metadata.toMap (metadata : Metadata) : ExtTreeMap Str Str :=
  metadata.entries.foldl (fun map pair ↦ map.insert pair.1 pair.2) ∅

/-! ## The header -/

def metaEntry (pair : Str × Str) : Str :=
  quote :: escapeJson pair.1 ++ [quote, ':', quote] ++ escapeJson pair.2 ++ [quote]

def metaJson (metadata : Metadata) : Str :=
  quote :: metadataKey ++ [quote, ':', openBrace] ++ Str.join [','] (metadata.entries.map metaEntry) ++
    [closeBrace]

/-- The object of a tensor. -/
def objectJson (shape : List ℕ) (start stop : ℕ) : Str :=
  openBrace :: "\"dtype\":\"F32\",\"shape\":[".toList ++ Str.join [','] (shape.map Str.decimal) ++
    "],\"data_offsets\":[".toList ++ Str.decimal start ++ [','] ++ Str.decimal stop ++
      [']', closeBrace]

def entryJson (name : Str) (shape : List ℕ) (start stop : ℕ) : Str :=
  quote :: escapeJson name ++ [quote, ':'] ++ objectJson shape start stop

/-! ## The loop over the tensors -/

/-- What the loop has written. -/
structure Writer where
  offset : ℕ
  entries : List Str
  rawData : Bytes

section

variable {τ : Type} (shape : τ → List ℕ) (values : τ → List F32)

def Writer.put (writer : Writer) (tensor : Str × τ) : Writer :=
  let nBytes := (values tensor.2).length * 4
  { offset := writer.offset + nBytes
    entries := writer.entries ++
      [entryJson tensor.1 (shape tensor.2) writer.offset (writer.offset + nBytes)]
    rawData := writer.rawData ++ (values tensor.2).flatMap F32.toLeBytes }

def writeTensors (state : ExtTreeMap Str τ) : Writer :=
  state.toList.foldl (Writer.put shape values) { offset := 0, entries := [], rawData := [] }

end

/-- The size of the header, the header and the data. -/
def assemble (header : Str) (rawData : Bytes) : Bytes :=
  ByteCursor.leBytes 8 (Str.utf8 header).length ++ Str.utf8 header ++ rawData

/-! ## The two writers -/

def Tensor.shape (t : Tensor) : List ℕ := [t.rows, t.cols]

def headerJson (state : ExtTreeMap Str Tensor) (metadata : Metadata) : Str :=
  openBrace :: metaJson metadata ++ [','] ++
    Str.join [','] (writeTensors Tensor.shape Tensor.data state).entries ++ [closeBrace]

def serializeStateDict (state : ExtTreeMap Str Tensor) (metadata : Metadata) : Bytes :=
  assemble (headerJson state metadata) (writeTensors Tensor.shape Tensor.data state).rawData

def headerJsonND (state : ExtTreeMap Str TensorND) (metadata : Metadata) : Str :=
  let entries := (writeTensors TensorND.shape TensorND.data state).entries
  if entries = [] then openBrace :: metaJson metadata ++ [closeBrace]
  else openBrace :: metaJson metadata ++ [','] ++ Str.join [','] entries ++ [closeBrace]

/-- The tensors are contiguous as they are. -/
def serializeStateDictND (state : ExtTreeMap Str TensorND) (metadata : Metadata) : Bytes :=
  assemble (headerJsonND state metadata)
    (writeTensors TensorND.shape TensorND.data state).rawData

end SoulSystem.Scirust.Safetensors
