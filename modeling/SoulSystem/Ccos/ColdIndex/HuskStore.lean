import SoulSystem.Ccos.ColdIndex.Segment
import Mathlib.Data.List.MinMax

/-!
# The staged key-value store of the COLD index

`HuskStore` of `cold_index.rs`: a write buffer flushed to immutable segments, reads layered from the
newest to the oldest, tombstones for deletes, and a bounded read cache.

The directory and the read cache are shared by every handle that a clone makes, so a state is the
shared part together with one handle.  An operation returns the state that it leaves, also when it
fails.  `compact` takes the answers of the file system to its `remove_file` calls, because the
source ignores them.
-/

namespace SoulSystem.Ccos.ColdIndex

open Library

abbrev SlotMap := Std.ExtTreeMap Str (Option Bytes)

/-! ## The read cache -/

/-- A bounded cache of values with the clock of their last access. -/
structure Lru where
  cap : ℕ
  clock : ℕ
  map : Std.ExtTreeMap Str (Bytes × ℕ)

def Lru.new (cap : ℕ) : Lru where
  cap := cap
  clock := 0
  map := ∅

def Lru.get (lru : Lru) (key : Str) : Lru × Option Bytes :=
  let now := lru.clock + 1
  match lru.map[key]? with
  | some (value, _) => ({ lru with clock := now, map := lru.map.insert key (value, now) }, some value)
  | none => ({ lru with clock := now }, none)

/-- The key with the smallest clock. -/
def Lru.victim (lru : Lru) : Option Str :=
  (lru.map.toList.argmin fun entry ↦ entry.2.2).map Prod.fst

def Lru.insert (lru : Lru) (key : Str) (value : Bytes) : Lru :=
  if lru.cap = 0 then
    lru
  else
    let now := lru.clock + 1
    let map :=
      if lru.map[key]?.isNone ∧ lru.cap ≤ lru.map.size then
        match lru.victim with
        | some victim => lru.map.erase victim
        | none => lru.map
      else
        lru.map
    { lru with clock := now, map := map.insert key (value, now) }

def Lru.remove (lru : Lru) (key : Str) : Lru :=
  { lru with map := lru.map.erase key }

/-! ## Tagged values -/

def tagPresent : UInt8 := 1
def tagTombstone : UInt8 := 0

def encodeValue : Option Bytes → Bytes
  | some value => tagPresent :: value
  | none => [tagTombstone]

def decodeValue : Bytes → Option (Option Bytes)
  | [] => none
  | tag :: rest =>
    if tag = tagPresent then some (some rest)
    else if tag = tagTombstone then some none
    else none

/-- The records that a buffer is flushed to. -/
def slotRecords (slots : SlotMap) : List Record :=
  slots.toList.map fun entry ↦ (entry.1, encodeValue entry.2)

/-! ## File names -/

/-- The file name `seg-{:020}`. -/
def segName (seq : ℕ) : Str :=
  "seg-".toList ++ Str.padDecimal 20 seq

/-- The sequence number in a file name, if it names a segment. -/
def segSeq (name : Str) : Option ℕ :=
  if "seg-".toList <+: name then Str.parseU64 (name.drop 4) else none

/-! ## The store -/

/-- What a handle holds itself. -/
structure HuskStore where
  buffer : SlotMap
  bufferLimit : ℕ
  segments : List Segment
  nextSeq : ℕ

/-- A handle with the directory and the cache that it shares with its clones. -/
structure State where
  files : Files
  cache : Lru
  store : HuskStore

abbrev Outcome := State × Except IoError Unit

def openAll (files : Files) : List (ℕ × Str) → Except IoError (List Segment)
  | [] => .ok []
  | (_, name) :: found => do
      let segment ← Segment.open files name
      let segments ← openAll files found
      return segment :: segments

/-- The segment files of a directory in the order of their sequence numbers. -/
def findSegments (files : Files) : List (ℕ × Str) :=
  (files.toList.filterMap fun entry ↦ (segSeq entry.1).map fun seq ↦ (seq, entry.1)).mergeSort
    fun a b ↦ a.1 ≤ b.1

def HuskStore.open (files : Files) (bufferLimit cacheCap : ℕ) : Except IoError State := do
  let found := findSegments files
  let nextSeq := match found.getLast? with
    | some (seq, _) => seq + 1
    | none => 0
  let segments ← openAll files found
  return {
    files
    cache := Lru.new cacheCap
    store := { buffer := ∅, bufferLimit := max bufferLimit 1, segments, nextSeq } }

def flush (state : State) : Outcome :=
  if state.store.buffer.isEmpty then
    (state, .ok ())
  else
    let path := segName state.store.nextSeq
    match writeSegment state.files path (slotRecords state.store.buffer) with
    | .error e => (state, .error e)
    | .ok files =>
      match Segment.open files path with
      | .error e => ({ state with files }, .error e)
      | .ok segment =>
        ({ state with
            files
            store := { state.store with
              segments := state.store.segments ++ [segment]
              nextSeq := state.store.nextSeq + 1
              buffer := ∅ } }, .ok ())

def maybeFlush (state : State) : Outcome :=
  if state.store.bufferLimit ≤ state.store.buffer.size then flush state else (state, .ok ())

/-- `put` for `some value`, `delete` for `none`. -/
def writeSlot (state : State) (key : Str) (slot : Option Bytes) : Outcome :=
  maybeFlush { state with
    cache := state.cache.remove key
    store := { state.store with buffer := state.store.buffer.insert key slot } }

def put (state : State) (key : Str) (value : Bytes) : Outcome :=
  writeSlot state key (some value)

def delete (state : State) (key : Str) : Outcome :=
  writeSlot state key none

/-- The newest segment that has the key, from a list that starts with the newest. -/
def getSegments (files : Files) (key : Str) : List Segment → Except IoError (Option Bytes)
  | [] => .ok none
  | segment :: segments =>
    match segment.get files key with
    | .error e => .error e
    | .ok (some raw) => .ok (decodeValue raw).join
    | .ok none => getSegments files key segments

def get (state : State) (key : Str) : State × Except IoError (Option Bytes) :=
  match state.store.buffer[key]? with
  | some slot => (state, .ok slot)
  | none =>
    match state.cache.get key with
    | (cache, some value) => ({ state with cache }, .ok (some value))
    | (cache, none) =>
      match getSegments state.files key state.store.segments.reverse with
      | .ok (some value) => ({ state with cache := cache.insert key value }, .ok (some value))
      | result => ({ state with cache }, result)

/-! ## Merging -/

/-- Apply the decoded records of one segment to an accumulator. -/
def applyRecords {σ : Type} (apply : σ → Str → Option Bytes → σ) (acc : σ) (records : List Record) :
    σ :=
  records.foldl (fun acc record ↦
    match decodeValue record.2 with
    | some slot => apply acc record.1 slot
    | none => acc) acc

/-- Replay what is read of each segment, oldest first. -/
def replay {σ : Type} (read : Segment → Except IoError (List Record))
    (apply : σ → Str → Option Bytes → σ) : List Segment → σ → Except IoError σ
  | [], acc => .ok acc
  | segment :: segments, acc =>
    match read segment with
    | .error e => .error e
    | .ok records => replay read apply segments (applyRecords apply acc records)

/-- How compaction replays a record: a tombstone removes the key outright. -/
def applyLive (live : Std.ExtTreeMap Str Bytes) (key : Str) :
    Option Bytes → Std.ExtTreeMap Str Bytes
  | some value => live.insert key value
  | none => live.erase key

def mergedLive (files : Files) (segments : List Segment) :
    Except IoError (Std.ExtTreeMap Str Bytes) :=
  replay (fun segment ↦ segment.records files) applyLive segments ∅

/-- The `remove_file` calls on a list of paths, each with the file system's answer. -/
def removeFiles (removes : Str → Bool) (paths : List Str) (files : Files) : Files :=
  paths.foldl (fun files path ↦ if removes path then files.erase path else files) files

/-- A map of live values as slots without tombstones. -/
def liveSlots (live : Std.ExtTreeMap Str Bytes) : SlotMap :=
  live.map fun _ value ↦ some value

/-- The merged segment of the live entries, under the next sequence number. -/
def writeMerged (state : State) (live : Std.ExtTreeMap Str Bytes) :
    Files × Except IoError (List Segment × ℕ) :=
  if live.isEmpty then
    (state.files, .ok ([], state.store.nextSeq))
  else
    let path := segName state.store.nextSeq
    match writeSegment state.files path (slotRecords (liveSlots live)) with
    | .error e => (state.files, .error e)
    | .ok files =>
      match Segment.open files path with
      | .error e => (files, .error e)
      | .ok segment => (files, .ok ([segment], state.store.nextSeq + 1))

/-- `compact` after its flush. -/
def mergeSegments (removes : Str → Bool) (state : State) : Outcome :=
  if state.store.segments.length < 2 then
    (state, .ok ())
  else
    match mergedLive state.files state.store.segments with
    | .error e => (state, .error e)
    | .ok live =>
      match writeMerged state live with
      | (files, .error e) => ({ state with files }, .error e)
      | (files, .ok (segments, nextSeq)) =>
        ({ state with
            files := removeFiles removes (state.store.segments.map Segment.path) files
            store := { state.store with segments, nextSeq } }, .ok ())

def compact (removes : Str → Bool) (state : State) : Outcome :=
  match flush state with
  | (state, .error e) => (state, .error e)
  | (state, .ok ()) => mergeSegments removes state

/-! ## Enumeration -/

/-- The live pairs of a merged map, in key order. -/
def livePairs (merged : SlotMap) : List (Str × Bytes) :=
  merged.toList.filterMap fun entry ↦ entry.2.map fun value ↦ (entry.1, value)

def liveEntries (state : State) : Except IoError (List (Str × Bytes)) := do
  let merged ← replay (fun segment ↦ segment.records state.files) (fun merged key slot ↦
    merged.insert key slot) state.store.segments (∅ : SlotMap)
  return livePairs (state.store.buffer.toList.foldl (fun merged entry ↦
    merged.insert entry.1 entry.2) merged)

def scanPrefix (state : State) (start : Str) : Except IoError (List (Str × Bytes)) := do
  let merged ← replay (fun segment ↦ segment.scanPrefix state.files start) (fun merged key slot ↦
    merged.insert key slot) state.store.segments (∅ : SlotMap)
  let range := (state.store.buffer.toList.dropWhile fun entry ↦
    compare entry.1 start == .lt).takeWhile fun entry ↦ start.isPrefixOf entry.1
  return livePairs (range.foldl (fun merged entry ↦ merged.insert entry.1 entry.2) merged)

end SoulSystem.Ccos.ColdIndex
