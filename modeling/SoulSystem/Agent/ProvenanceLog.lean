import SoulSystem.Library.Loop
import SoulSystem.Library.Str
import SoulSystem.Library.SortedMap

/-!
# The provenance log

`ProvenanceLog` keeps what is known about persisted memory records: the full latest decision for
each key, the trust level alone for keys whose detail was evicted, and a count of the keys that were
forgotten altogether.  `persist` writes the index to a file and `open` reads it back.

The order in which a hash map is iterated is left open: an `Iteration` gives one for every map.
-/

namespace SoulSystem.Agent

open Library Std

/-! ## Data model -/

inductive TrustLevel where
  | trusted
  | screened
  | spotlighted
  | quarantined
  deriving DecidableEq, Repr

inductive MemorySource where
  | toolOutput (tool : Str)
  | modelOutput
  | system
  deriving DecidableEq, Repr

inductive MemoryStore where
  | causalGraph
  | plannerHistory
  | semantic
  deriving DecidableEq, Repr

def MemoryStore.label : MemoryStore → Str
  | causalGraph => "causal".toList
  | plannerHistory => "planner".toList
  | semantic => "semantic".toList

/-- What is known about one persisted memory record. -/
structure MemoryProvenance where
  source : MemorySource
  trust : TrustLevel
  store : MemoryStore
  uri : Str
  screeningScore : ℕ
  persisted : Bool
  recordedAt : ℤ
  deriving DecidableEq, Repr

structure ProvenanceLog where
  entries : List MemoryProvenance
  latest : ExtTreeMap Str MemoryProvenance
  capacity : ℕ
  demoted : ExtTreeMap Str TrustLevel
  indexOrder : List Str
  forgotten : ℕ
  path : Option Str

/-- Maximum keys retained in the latest-per-record index. -/
def indexCapacity : ℕ := 65536

inductive ProvenanceLookup where
  | known (p : MemoryProvenance)
  | trustOnly (trust : TrustLevel)
  | unknown
  deriving DecidableEq, Repr

def ProvenanceLookup.trust : ProvenanceLookup → Option TrustLevel
  | known p => some p.trust
  | trustOnly trust => some trust
  | unknown => none

/-- The on-disk form of the index. -/
structure DurableIndex where
  formatVersion : ℕ
  entries : List MemoryProvenance
  demoted : List (Str × TrustLevel)
  forgotten : ℕ

def durableFormatVersion : ℕ := 1

/-- An order in which each hash map is iterated. -/
structure Iteration where
  keys : ∀ {β : Type}, ExtTreeMap Str β → List Str
  perm : ∀ {β : Type} (m : ExtTreeMap Str β), (keys m).Perm m.keys

instance : Inhabited Iteration := ⟨⟨fun m ↦ m.keys, fun m ↦ List.Perm.refl m.keys⟩⟩

/-- A text of an index, which reads back as that index. -/
structure IndexJson (Text : Type) where
  toString : DurableIndex → Text
  fromStr : Text → Except Str DurableIndex
  lossless : ∀ index, fromStr (toString index) = .ok index

instance : Inhabited (IndexJson DurableIndex) := ⟨⟨id, .ok, fun _ ↦ rfl⟩⟩

inductive IoError where
  | invalidInput (message : Str)
  | invalidData (message : Str)

namespace ProvenanceLog

variable {Text : Type}

/-! ## Recording -/

def withCapacity (capacity : ℕ) : ProvenanceLog where
  entries := []
  latest := ∅
  capacity := max capacity 1
  demoted := ∅
  indexOrder := []
  forgotten := 0
  path := none

/-- The key of a record of a store. -/
def keyOf (store : MemoryStore) (uri : Str) : Str := store.label ++ Char.ofNat 0 :: uri

def key (p : MemoryProvenance) : Str := keyOf p.store p.uri

/-- A decision enters the index, and its key leaves the demoted ones. -/
def index (s : ProvenanceLog) (p : MemoryProvenance) : ProvenanceLog :=
  { s with
    latest := s.latest.insert (key p) p
    indexOrder := if key p ∈ s.latest then s.indexOrder else s.indexOrder ++ [key p]
    demoted := s.demoted.erase (key p) }

/-- The oldest key of the index keeps only its trust level. -/
def demoteOldest (s : ProvenanceLog) : ProvenanceLog :=
  match s.indexOrder with
  | [] => s
  | old :: rest =>
    match s.latest[old]? with
    | none => { s with indexOrder := rest }
    | some p =>
      { s with
        indexOrder := rest
        latest := s.latest.erase old
        demoted := s.demoted.insert old p.trust }

/-- The first demoted key is forgotten. -/
def forgetFirst (iteration : Iteration) (s : ProvenanceLog) : ProvenanceLog :=
  match (iteration.keys s.demoted).head? with
  | none => s
  | some k => { s with demoted := s.demoted.erase k, forgotten := s.forgotten + 1 }

/-- Record one persistence decision. -/
def record (iteration : Iteration) (s : ProvenanceLog) (p : MemoryProvenance) : ProvenanceLog :=
  let indexed := s.index p
  let demoted := loopWhile (fun s : ProvenanceLog ↦ indexCapacity < s.indexOrder.length) demoteOldest
    indexed.indexOrder.length indexed
  let kept := loopWhile (fun s : ProvenanceLog ↦ indexCapacity < s.demoted.size)
    (forgetFirst iteration) demoted.demoted.size demoted
  let entries := kept.entries ++ [p]
  { kept with entries := entries.drop (entries.length - kept.capacity) }

/-! ## Looking up -/

def lookup (s : ProvenanceLog) (store : MemoryStore) (uri : Str) : ProvenanceLookup :=
  match s.latest[keyOf store uri]? with
  | some p => .known p
  | none =>
    match s.demoted[keyOf store uri]? with
    | some trust => .trustOnly trust
    | none => .unknown

def forgottenCount (s : ProvenanceLog) : ℕ := s.forgotten

def demotedCount (s : ProvenanceLog) : ℕ := s.demoted.size

/-! ## Durability -/

/-- An entry of the file enters the index of a log that is being opened. -/
def loadEntry (s : ProvenanceLog) (p : MemoryProvenance) : ProvenanceLog :=
  { s with
    latest := s.latest.insert (key p) p
    indexOrder := if key p ∈ s.latest then s.indexOrder else s.indexOrder ++ [key p] }

/-- Open a log against a path, with the text found there. -/
def «open» (json : IndexJson Text) (path : Str) (raw : Option Text) (capacity : ℕ) :
    Except IoError ProvenanceLog :=
  let log := { withCapacity capacity with path := some path }
  match raw with
  | none => .ok log
  | some raw =>
    match json.fromStr raw with
    | .error e =>
      .error (.invalidData ("provenance index at ".toList ++ path ++ " is unreadable: ".toList
        ++ e))
    | .ok index =>
      if index.formatVersion ≠ durableFormatVersion then
        .error (.invalidData ("provenance index at ".toList ++ path ++
          " is format version ".toList ++ Str.decimal index.formatVersion ++ ", expected ".toList
          ++ Str.decimal durableFormatVersion))
      else
        let loaded := index.entries.foldl loadEntry log
        .ok { loaded with
          demoted := index.demoted.foldl (fun m pair ↦ m.insert pair.1 pair.2) ∅
          forgotten := index.forgotten }

/-- The index as it is written, in the order in which the maps are iterated. -/
def durable (iteration : Iteration) (s : ProvenanceLog) : DurableIndex where
  formatVersion := durableFormatVersion
  entries := (iteration.keys s.latest).filterMap fun k ↦ s.latest[k]?
  demoted := (iteration.keys s.demoted).filterMap fun k ↦ s.demoted[k]?.map fun trust ↦ (k, trust)
  forgotten := s.forgotten

/-- The path and the text that are written. -/
def persist (json : IndexJson Text) (iteration : Iteration) (s : ProvenanceLog) :
    Except IoError (Str × Text) :=
  match s.path with
  | none =>
    .error (.invalidInput
      "provenance log has no path; construct it with ProvenanceLog::open".toList)
  | some path => .ok (path, json.toString (s.durable iteration))

/-- `persist` directly followed by `open` of that file. -/
def restart (json : IndexJson Text) (iteration : Iteration) (capacity : ℕ) (s : ProvenanceLog) :
    Except IoError ProvenanceLog := do
  let (path, raw) ← s.persist json iteration
  «open» json path (some raw) capacity

end ProvenanceLog

end SoulSystem.Agent
