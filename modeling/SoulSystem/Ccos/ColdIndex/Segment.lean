import SoulSystem.Library.ByteCursor

/-!
# On-disk segments of the COLD index

`write_segment` and `Segment` of `cold_index.rs`.  A segment file holds records in ascending key
order, then one sparse entry per `stride` records, then a footer that points at the sparse entries.
A file is its bytes, a directory maps file names to files, and seeking in a file drops bytes.

The three scans of the source (`read_at`, `records` and `scan_prefix`) share one loop: read a
record, advance the position by its size and hand it to a visitor, which goes on or stops.
-/

namespace SoulSystem.Ccos.ColdIndex

open Library Library.ByteCursor

abbrev Files := Std.ExtTreeMap Str Bytes
abbrev Record := Str × Bytes

def magic : ℕ := 0xC01D1DEC00000001
def stride : ℕ := 64

/-! ## Writing -/

/-- The writer's loop state: the record counter, the buffer and the sparse entries so far. -/
structure Writer where
  count : ℕ := 0
  buf : Bytes := []
  sparse : List (Str × ℕ) := []

def Writer.push (writer : Writer) (record : Record) : Writer where
  count := writer.count + 1
  buf := writer.buf ++ putBytes (Str.utf8 record.1) ++ putBytes record.2
  sparse :=
    if writer.count % stride = 0 then
      writer.sparse ++ [(record.1, writer.buf.length)]
    else
      writer.sparse

def writeRecords (records : List Record) : Writer :=
  records.foldl Writer.push {}

def sparseEntry (entry : Str × ℕ) : Bytes :=
  putBytes (Str.utf8 entry.1) ++ leBytes 8 entry.2

/-- The bytes of a segment file. -/
def encodeSegment (records : List Record) : Bytes :=
  let writer := writeRecords records
  writer.buf ++ leBytes 4 writer.sparse.length ++ writer.sparse.flatMap sparseEntry ++
    leBytes 8 writer.buf.length ++ leBytes 8 magic

/-- Keys strictly ascending. -/
def Ascending {α : Type} (records : List (Str × α)) : Prop :=
  records.IsChain fun a b ↦ compare a.1 b.1 = .lt

instance {α : Type} (records : List (Str × α)) : Decidable (Ascending records) :=
  inferInstanceAs (Decidable (records.IsChain _))

def writeSegment (files : Files) (path : Str) (records : List Record) : Except IoError Files :=
  if Ascending records then
    .ok (files.insert path (encodeSegment records))
  else
    .error (.invalidInput "segment records must be strictly ascending by key")

/-! ## Reading -/

/-- A read handle: the sparse index is resident, the records stay in the file. -/
structure Segment where
  path : Str
  sparse : List (Str × ℕ)
  recordsEnd : ℕ
  deriving DecidableEq, Repr

def openFile (files : Files) (path : Str) : Except IoError Bytes :=
  match files[path]? with
  | some bytes => .ok bytes
  | none => .error .notFound

def readSparse : ℕ → Reader (List (Str × ℕ))
  | 0, rest => .ok ([], rest)
  | count + 1, rest => do
      let (key, rest) ← readString rest
      let (offset, rest) ← readU64 rest
      let (entries, rest) ← readSparse count rest
      return ((key, offset) :: entries, rest)

def Segment.open (files : Files) (path : Str) : Except IoError Segment := do
  let bytes ← openFile files path
  let len := bytes.length
  if len < 16 then
    .error (.invalidData "segment shorter than its footer")
  else
    let (sparseOffset, rest) ← readU64 (bytes.drop (len - 16))
    let (footer, _) ← readU64 rest
    if footer ≠ magic then
      .error (.invalidData "bad segment magic")
    else if len - 16 < sparseOffset then
      .error (.invalidData "sparse offset past end")
    else
      let (count, rest) ← readU32 (bytes.drop sparseOffset)
      let (sparse, _) ← readSparse count rest
      return { path, sparse, recordsEnd := sparseOffset }

/-- The loop of every scan: `pos` counts the bytes consumed up to `recordsEnd`. -/
def scanRecords {σ : Type} (recordsEnd : ℕ) (visit : σ → Str → Bytes → ForInStep σ) (pos : ℕ)
    (rest : Bytes) (acc : σ) : Except IoError σ :=
  if pos < recordsEnd then
    match readString rest with
    | .error e => .error e
    | .ok (key, rest) =>
      match readBytes rest with
      | .error e => .error e
      | .ok (value, rest) =>
        match visit acc key value with
        | .done acc => .ok acc
        | .yield acc =>
          scanRecords recordsEnd visit (pos + (8 + (Str.utf8 key).length + value.length))
            rest acc
  else
    .ok acc
termination_by recordsEnd - pos

/-- `binary_search_by` on the sorted sparse entries: the index of the entry with this key, or the
index where it would stand. -/
def binarySearch (sparse : List (Str × ℕ)) (key : Str) : Except ℕ ℕ :=
  let i := (sparse.takeWhile fun entry ↦ compare entry.1 key == .lt).length
  match sparse[i]? with
  | some (found, _) => if compare found key = .eq then .ok i else .error i
  | none => .error i

/-- `self.sparse[i].1` at an index in range. -/
def Segment.offset (segment : Segment) (i : ℕ) : ℕ :=
  (segment.sparse[i]?.map Prod.snd).getD 0

def seekKey (key : Str) : Option Bytes → Str → Bytes → ForInStep (Option Bytes) := fun _ k v ↦
  match compare k key with
  | .eq => .done (some v)
  | .gt => .done none
  | .lt => .yield none

def Segment.readAt (segment : Segment) (files : Files) (start : ℕ) (key : Str) :
    Except IoError (Option Bytes) := do
  let bytes ← openFile files segment.path
  scanRecords segment.recordsEnd (seekKey key) start (bytes.drop start) none

def Segment.get (segment : Segment) (files : Files) (key : Str) :
    Except IoError (Option Bytes) :=
  if segment.sparse.isEmpty then
    .ok none
  else
    match binarySearch segment.sparse key with
    | .ok i => segment.readAt files (segment.offset i) key
    | .error 0 => .ok none
    | .error (i + 1) => segment.readAt files (segment.offset i) key

def Segment.records (segment : Segment) (files : Files) : Except IoError (List Record) := do
  let bytes ← openFile files segment.path
  scanRecords segment.recordsEnd (fun out k v ↦ .yield (out ++ [(k, v)])) 0 bytes []

def collectPrefix (start : Str) : List Record → Str → Bytes → ForInStep (List Record) :=
  fun out k v ↦
    if compare k start = .lt then .yield out
    else if start <+: k then .yield (out ++ [(k, v)])
    else .done out

def Segment.scanPrefix (segment : Segment) (files : Files) (start : Str) :
    Except IoError (List Record) :=
  if segment.sparse.isEmpty then
    .ok []
  else do
    let offset := match binarySearch segment.sparse start with
      | .ok i => segment.offset i
      | .error 0 => 0
      | .error (i + 1) => segment.offset i
    let bytes ← openFile files segment.path
    scanRecords segment.recordsEnd (collectPrefix start) offset (bytes.drop offset) []

end SoulSystem.Ccos.ColdIndex
