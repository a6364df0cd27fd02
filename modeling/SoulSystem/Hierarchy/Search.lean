import Mathlib.Data.List.Infix
import SoulSystem.Library.Ranking
import SoulSystem.Hierarchy.Consolidation

/-!
# Search across the layers

The working memory answers every entry whose text contains the query, and each of the two stores its
most important ones up to the limit.  The answers are ranked by importance, neighbours of equal text
are merged and the rest is cut at the limit.

Only neighbours are merged, so a text is returned twice when another one of the same rank comes
between, and a store that spends its answer on one text can hide another.  The result is the best of
each text if and only if neither happens above the limit.
-/

namespace SoulSystem.Hierarchy

open Library Library.Ranking

/-! ## Working memory -/

/-- Bounded buffer of the active context, the most recent entry last. -/
structure WorkingMemory where
  entries : List MemoryEntry
  capacity : ℕ

namespace WorkingMemory

def new (capacity : ℕ) : WorkingMemory where
  entries := []
  capacity := capacity

/-- A full memory loses its oldest entry, and one of no capacity has none to lose. -/
def push (w : WorkingMemory) (e : MemoryEntry) : Option WorkingMemory :=
  if w.capacity ≤ w.entries.length then
    match w.entries with
    | [] => none
    | _ :: rest => some { w with entries := rest ++ [e] }
  else some { w with entries := w.entries ++ [e] }

end WorkingMemory

/-! ## The search -/

/-- An order in which a map of entries may be iterated. -/
def Entries.Iteration (entries : Entries) : Type :=
  { order : List MemoryEntry // order.Perm entries.values }

/-- The three layers. -/
structure LayeredMemory extends HierarchicalMemory where
  working : WorkingMemory

section Search

variable {ι : Type*} [LinearOrder ι] (importance : MemoryEntry → ι) (toLowercase : Str → Str)

/-- The text contains the query, whatever the case of the letters. -/
def MemoryEntry.containsQuery (query : Str) (e : MemoryEntry) : Bool :=
  decide (toLowercase query <:+: toLowercase e.text)

/-- The most important entry first, in a stable order. -/
def byImportance (entries : List MemoryEntry) : List MemoryEntry :=
  entries.insertionSort fun a b ↦ importance b ≤ importance a

def WorkingMemory.search (w : WorkingMemory) (query : Str) : List MemoryEntry :=
  w.entries.filter (MemoryEntry.containsQuery toLowercase query)

/-- The most important entries of a map that contain the query. -/
def Entries.search {entries : Entries} (order : entries.Iteration) (query : Str) (limit : ℕ) :
    List MemoryEntry :=
  (byImportance importance
    (order.val.filter (MemoryEntry.containsQuery toLowercase query))).take limit

/-- Search episodic memory by text. -/
def EpisodicStore.search (s : EpisodicStore) (order : s.entries.Iteration) (query : Str)
    (limit : ℕ) : List MemoryEntry :=
  Entries.search importance toLowercase order query limit

/-- Search semantic memory by text. -/
def SemanticStore.search (s : SemanticStore) (order : s.entries.Iteration) (query : Str)
    (limit : ℕ) : List MemoryEntry :=
  Entries.search importance toLowercase order query limit

namespace LayeredMemory

variable (m : LayeredMemory) (episodes : m.episodic.entries.Iteration)
  (concepts : m.semantic.entries.Iteration) (query : Str) (limit : ℕ)

/-- The answers of the layers. -/
def answers : List MemoryEntry :=
  m.working.search toLowercase query ++
    m.episodic.search importance toLowercase episodes query limit ++
    m.semantic.search importance toLowercase concepts query limit

/-- Search across all layers. -/
def search : List MemoryEntry :=
  ((byImportance importance
    (m.answers importance toLowercase episodes concepts query limit)).destutter
      fun a b ↦ a.text ≠ b.text).take limit

/-- An entry of some layer that contains the query. -/
def Matching (x : MemoryEntry) : Prop :=
  (x ∈ m.working.entries ∨ x ∈ m.episodic.entries.values ∨ x ∈ m.semantic.entries.values) ∧
    x.containsQuery toLowercase query = true

end LayeredMemory

/-- Each text once, best first: distinct texts in the order of importance, up to the limit, and no
matching entry missing for less. -/
structure EachTextOnce (matching : MemoryEntry → Prop) (limit : ℕ) (result : List MemoryEntry) :
    Prop where
  distinct : (result.map MemoryEntry.text).Nodup
  bestFirst : result.Pairwise fun a b ↦ importance b ≤ importance a
  length_le : result.length ≤ limit
  covers : ∀ x, matching x → x ∉ result →
    (∃ r ∈ result, r.text = x.text ∧ importance x ≤ importance r) ∨
      limit ≤ (result.filter fun r ↦ decide (importance x ≤ importance r)).length

/-! ## When each text comes once -/

theorem descending_byImportance (entries : List MemoryEntry) :
    Descending importance (byImportance importance entries) := by
  have htotal : Std.Total fun a b : MemoryEntry ↦ importance b ≤ importance a :=
    ⟨fun a b ↦ le_total (importance b) (importance a)⟩
  have htrans : IsTrans MemoryEntry fun a b ↦ importance b ≤ importance a :=
    ⟨fun _ _ _ hab hbc ↦ hbc.trans hab⟩
  exact List.pairwise_insertionSort _ entries

variable {importance} in
theorem mem_byImportance {entries : List MemoryEntry} {e : MemoryEntry} :
    e ∈ byImportance importance entries ↔ e ∈ entries :=
  List.mem_insertionSort _

/-- The heavy keys of a list do not depend on its order. -/
theorem keys_atLeast_byImportance (w : ι) (entries : List MemoryEntry) :
    keys MemoryEntry.text (atLeast importance w (byImportance importance entries)) =
      keys MemoryEntry.text (atLeast importance w entries) := by
  ext text
  simp only [keys, List.mem_toFinset, List.mem_map, mem_atLeast, mem_byImportance]

namespace LayeredMemory

variable (m : LayeredMemory) (episodes : m.episodic.entries.Iteration)
  (concepts : m.semantic.entries.Iteration) (query : Str) (limit : ℕ)

/-- The result is the first heads of the ranked answers. -/
theorem search_eq :
    m.search importance toLowercase episodes concepts query limit =
      (heads MemoryEntry.text (byImportance importance
        (m.answers importance toLowercase episodes concepts query limit))).take limit := rfl

theorem search_sublist :
    (m.search importance toLowercase episodes concepts query limit).Sublist
      (byImportance importance
        (m.answers importance toLowercase episodes concepts query limit)) :=
  (List.take_sublist limit _).trans (heads_sublist MemoryEntry.text _)

end LayeredMemory

end Search

/-! ## A text that returns -/

section Returns

/-- An item of the working memory as the tests write it. -/
def workingItem (id text : String) : MemoryEntry where
  id := id.toList
  text := text.toList
  createdAt := []
  lastAccessed := []
  accessCount := 0
  importance := 1 / 2
  layer := .working
  tags := []
  embedding := none
  associations := []
  metadata := ∅
  trust := .internal

/-- Three items of one importance, the last with the text of the first, and empty stores. -/
def interleaved : LayeredMemory where
  working := { entries := [workingItem "w0" "tea", workingItem "w1" "rice", workingItem "w2" "tea"]
               capacity := 32 }
  episodic := { entries := .empty
                config := { halfLifeSecs := 86400, minImportance := 1 / 10, maxEntries := 10000 } }
  semantic := .new { halfLifeSecs := 2592000, minImportance := 1 / 20 }

/-- The iteration of an empty map. -/
def Entries.noEntries : Entries.empty.Iteration :=
  ⟨[], by
    have hvalues : Entries.empty.values = [] := by
      rw [Entries.values, Entries.empty]
      rfl
    rw [hvalues]⟩

end Returns

end SoulSystem.Hierarchy
