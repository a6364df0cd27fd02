import SoulSystem.Library.Str
import SoulSystem.Library.SortedMap

/-!
# The episodic and the semantic store

Both stores keep their entries in a map under the entry's own id.  The semantic store also has an
index of ids by concept type, which a store only ever appends to.

Times are taken from a `Moment`: the present as text, how old a recorded time is, and the decay
factor of an age.  Scores are rational numbers.
-/

namespace SoulSystem.Hierarchy

open Library Std

/-! ## Data model -/

/-- A level of trust, carried on the record itself. -/
inductive MemoryTrust where
  | internal
  | screened
  | spotlighted
  | derived
  | unrecorded
  deriving DecidableEq, Repr

namespace MemoryTrust

/-- Where a level sits; higher is more trusted. -/
def rank : MemoryTrust → ℕ
  | unrecorded => 0
  | spotlighted => 1
  | derived => 2
  | screened => 3
  | internal => 4

/-- The least trusted level. -/
def floorOf (levels : List MemoryTrust) : MemoryTrust :=
  (levels.argmin rank).getD unrecorded

theorem floorOf_mem {levels : List MemoryTrust} (hne : levels ≠ []) : floorOf levels ∈ levels := by
  cases hleast : levels.argmin rank with
  | none => exact absurd (List.argmin_eq_none.mp hleast) hne
  | some least =>
    have hmem : least ∈ levels := List.argmin_mem hleast
    rwa [floorOf, hleast]

theorem rank_floorOf_le {levels : List MemoryTrust} {level : MemoryTrust} (hmem : level ∈ levels) :
    (floorOf levels).rank ≤ level.rank := by
  cases hleast : levels.argmin rank with
  | none => exact absurd (List.argmin_eq_none.mp hleast ▸ hmem) List.not_mem_nil
  | some least =>
    rw [floorOf, hleast]
    exact List.le_of_mem_argmin hmem hleast

end MemoryTrust

inductive MemoryLayer where
  | working
  | episodic
  | semantic
  deriving DecidableEq, Repr

inductive ConceptType where
  | fact
  | skill
  | person
  | project
  | event
  | neural
  deriving DecidableEq, Repr

/-- A value of the metadata. -/
inductive Json where
  | null
  | bool (value : Bool)
  | number (value : ℚ)
  | string (value : Str)
  | array (items : List Json)
  | object (fields : List (Str × Json))

/-- A concept type serializes to its name. -/
def ConceptType.json : ConceptType → Json
  | fact => .string "Fact".toList
  | skill => .string "Skill".toList
  | person => .string "Person".toList
  | project => .string "Project".toList
  | event => .string "Event".toList
  | neural => .string "Neural".toList

structure MemoryEntry where
  id : Str
  text : Str
  createdAt : Str
  lastAccessed : Str
  accessCount : ℕ
  importance : ℚ
  layer : MemoryLayer
  tags : List Str
  embedding : Option (List ℚ)
  associations : List Str
  metadata : ExtTreeMap Str Json
  trust : MemoryTrust

/-- What the stores take from the clock. -/
structure Moment where
  now : Str
  ageSecs : Str → Option ℕ
  halving : ℕ → ℕ → ℚ

/-! ## Entries under their own ids -/

/-- A map of entries in which every entry stands under its own id. -/
structure Entries where
  map : ExtTreeMap Str MemoryEntry
  keyed : ∀ (id : Str) (e : MemoryEntry), map[id]? = some e → e.id = id

namespace Entries

def empty : Entries where
  map := ∅
  keyed := by
    intro id e he
    rw [ExtTreeMap.getElem?_empty] at he
    exact absurd he (by simp)

def get? (entries : Entries) (id : Str) : Option MemoryEntry :=
  entries.map[id]?

def values (entries : Entries) : List MemoryEntry :=
  entries.map.toList.map Prod.snd

def insert (entries : Entries) (e : MemoryEntry) : Entries where
  map := entries.map.insert e.id e
  keyed := by
    intro id x hx
    rw [ExtTreeMap.getElem?_insert] at hx
    split at hx
    · next heq => rw [← Option.some.inj hx, LawfulEqCmp.eq_of_compare heq]
    · exact entries.keyed id x hx

def remove (entries : Entries) (id : Str) : Entries where
  map := entries.map.erase id
  keyed := by
    intro other x hx
    exact entries.keyed other x (SortedMap.getElem?_of_getElem?_erase hx)

/-- Each entry is replaced or dropped, and a replacement keeps the id. -/
def update (entries : Entries) (f : MemoryEntry → Option MemoryEntry)
    (hid : ∀ e e', f e = some e' → e'.id = e.id) : Entries where
  map := entries.map.filterMap fun _ e ↦ f e
  keyed := by
    intro id e' he'
    rw [ExtTreeMap.getElem?_filterMap'] at he'
    obtain ⟨e, he, hf⟩ := Option.bind_eq_some_iff.mp he'
    rw [hid e e' hf, entries.keyed id e he]

/-- One entry is replaced, if it is there. -/
def modify (entries : Entries) (id : Str) (f : MemoryEntry → MemoryEntry)
    (hid : ∀ e, (f e).id = e.id) : Entries where
  map := entries.map.modify id f
  keyed := by
    intro other e' he'
    rw [ExtTreeMap.getElem?_modify] at he'
    split at he'
    · next heq =>
        obtain ⟨e, he, hf⟩ := Option.map_eq_some_iff.mp he'
        rw [← hf, hid, entries.keyed id e he, LawfulEqCmp.eq_of_compare heq]
    · exact entries.keyed other e' he'

variable (entries : Entries) {id : Str} {e : MemoryEntry}

@[simp] theorem get?_empty : empty.get? id = none := ExtTreeMap.getElem?_empty

theorem get?_insert : (entries.insert e).get? id = if e.id = id then some e else entries.get? id := by
  rw [get?, insert, ExtTreeMap.getElem?_insert]
  simp only [LawfulEqCmp.compare_eq_iff_eq, get?]

@[simp] theorem get?_insert_self : (entries.insert e).get? e.id = some e := by
  rw [get?_insert, if_pos rfl]

theorem get?_insert_ne (hne : e.id ≠ id) : (entries.insert e).get? id = entries.get? id := by
  rw [get?_insert, if_neg hne]

theorem get?_remove {other : Str} :
    (entries.remove other).get? id = if other = id then none else entries.get? id := by
  rw [get?, remove, ExtTreeMap.getElem?_erase]
  simp only [LawfulEqCmp.compare_eq_iff_eq, get?]

theorem get?_update {f : MemoryEntry → Option MemoryEntry}
    (hid : ∀ e e', f e = some e' → e'.id = e.id) :
    (entries.update f hid).get? id = (entries.get? id).bind f :=
  ExtTreeMap.getElem?_filterMap'

theorem get?_modify {other : Str} {f : MemoryEntry → MemoryEntry} (hid : ∀ e, (f e).id = e.id) :
    (entries.modify other f hid).get? id =
      if other = id then (entries.get? id).map f else entries.get? id := by
  rw [get?, modify, ExtTreeMap.getElem?_modify]
  simp only [LawfulEqCmp.compare_eq_iff_eq]
  split
  · next heq => rw [heq, get?]
  · rfl

variable {entries}

theorem id_of_get? (he : entries.get? id = some e) : e.id = id := entries.keyed id e he

theorem mem_values : e ∈ entries.values ↔ entries.get? e.id = some e := by
  rw [values, List.mem_map]
  constructor
  · rintro ⟨⟨id, x⟩, hmem, rfl⟩
    have hget : entries.get? id = some x := ExtTreeMap.mem_toList_iff_getElem?_eq_some.mp hmem
    rwa [id_of_get? hget]
  · exact fun hget ↦ ⟨(e.id, e), ExtTreeMap.mem_toList_iff_getElem?_eq_some.mpr hget, rfl⟩

def size (entries : Entries) : ℕ := entries.map.size

end Entries

/-! ## The two stores -/

/-- An entry as a store keeps it: in the store's layer, with a time of creation. -/
def MemoryEntry.stamped (moment : Moment) (layer : MemoryLayer) (e : MemoryEntry) : MemoryEntry :=
  let createdAt := if e.createdAt.isEmpty then moment.now else e.createdAt
  { e with layer, createdAt, lastAccessed := createdAt }

structure EpisodicConfig where
  halfLifeSecs : ℕ
  minImportance : ℚ
  maxEntries : ℕ

structure EpisodicStore where
  entries : Entries
  config : EpisodicConfig

namespace EpisodicStore

def store (moment : Moment) (s : EpisodicStore) (e : MemoryEntry) : EpisodicStore :=
  { s with entries := s.entries.insert (e.stamped moment .episodic) }

/-- The decay of one entry, which is dropped when its importance falls too low. -/
def aged (moment : Moment) (config : EpisodicConfig) (e : MemoryEntry) : Option MemoryEntry :=
  match moment.ageSecs e.createdAt with
  | none => some e
  | some age =>
    let importance := e.importance * moment.halving age config.halfLifeSecs
    if importance < config.minImportance then none else some { e with importance }

theorem id_of_aged (moment : Moment) (config : EpisodicConfig) (e e' : MemoryEntry)
    (haged : aged moment config e = some e') : e'.id = e.id := by
  unfold aged at haged
  split at haged
  · rw [Option.some.inj haged]
  · dsimp only at haged
    split at haged
    · exact absurd haged (by simp)
    · rw [← Option.some.inj haged]

/-- The ids to evict when the map is over its bound, the least important first.  `order` is the
order in which the map is iterated. -/
def toEvict (config : EpisodicConfig) (order : List Str) (entries : Entries) : List Str :=
  let scored := order.filterMap fun id ↦ (entries.get? id).map fun e ↦ (id, e.importance)
  ((scored.mergeSort fun a b ↦ decide (a.2 ≤ b.2)).take (entries.size - config.maxEntries)).map
    Prod.fst

/-- Time-based decay and forced eviction, with the number of entries removed. -/
def decay (moment : Moment) (order : List Str) (s : EpisodicStore) : EpisodicStore × ℕ :=
  let kept := s.entries.update (aged moment s.config) (id_of_aged moment s.config)
  let evicted := toEvict s.config order kept
  ({ s with entries := evicted.foldl Entries.remove kept },
    (s.entries.size - kept.size) + evicted.length)

end EpisodicStore

structure SemanticConfig where
  halfLifeSecs : ℕ
  minImportance : ℚ

/-- The index of a concept type that was never stored is empty. -/
structure SemanticStore where
  entries : Entries
  typeIndex : ConceptType → List Str
  config : SemanticConfig

namespace SemanticStore

def new (config : SemanticConfig) : SemanticStore where
  entries := .empty
  typeIndex := fun _ ↦ []
  config := config

/-- An entry as the semantic store keeps it, with its concept type in the metadata. -/
def typed (moment : Moment) (e : MemoryEntry) (conceptType : ConceptType) : MemoryEntry :=
  let stamped := e.stamped moment .semantic
  { stamped with metadata := stamped.metadata.insert "concept_type".toList conceptType.json }

def store (moment : Moment) (s : SemanticStore) (e : MemoryEntry) (conceptType : ConceptType) :
    SemanticStore :=
  { s with
    entries := s.entries.insert (typed moment e conceptType)
    typeIndex := Function.update s.typeIndex conceptType (s.typeIndex conceptType ++ [e.id]) }

/-- Get entries by concept type. -/
def byType (s : SemanticStore) (conceptType : ConceptType) : List MemoryEntry :=
  (s.typeIndex conceptType).filterMap s.entries.get?

def accessed (moment : Moment) (e : MemoryEntry) : MemoryEntry :=
  { e with
    accessCount := e.accessCount + 1
    lastAccessed := moment.now
    importance := min (e.importance + 1 / 20) 1 }

theorem id_accessed (moment : Moment) (e : MemoryEntry) : (accessed moment e).id = e.id := rfl

def access (moment : Moment) (s : SemanticStore) (id : Str) : SemanticStore :=
  { s with entries := s.entries.modify id (accessed moment) (id_accessed moment) }

/-- The decay of one entry, slower for one that is accessed often. -/
def aged (moment : Moment) (config : SemanticConfig) (e : MemoryEntry) : Option MemoryEntry :=
  match moment.ageSecs e.createdAt with
  | none => some e
  | some age =>
    let importance := e.importance * moment.halving age config.halfLifeSecs +
      min (e.accessCount / 100) (3 / 10)
    if importance < config.minImportance then none else some { e with importance }

/-- Decay changes the importance of an entry and nothing else. -/
theorem eq_of_aged {moment : Moment} {config : SemanticConfig} {e e' : MemoryEntry}
    (haged : aged moment config e = some e') : e' = { e with importance := e'.importance } := by
  unfold aged at haged
  split at haged
  · rw [Option.some.inj haged]
  · dsimp only at haged
    split at haged
    · exact absurd haged (by simp)
    · rw [← Option.some.inj haged]

theorem id_of_aged (moment : Moment) (config : SemanticConfig) (e e' : MemoryEntry)
    (haged : aged moment config e = some e') : e'.id = e.id := by
  rw [eq_of_aged haged]

/-- Time-based decay, with the number of entries removed. -/
def decay (moment : Moment) (s : SemanticStore) : SemanticStore × ℕ :=
  let kept := s.entries.update (aged moment s.config) (id_of_aged moment s.config)
  ({ s with entries := kept }, s.entries.size - kept.size)

end SemanticStore

end SoulSystem.Hierarchy
