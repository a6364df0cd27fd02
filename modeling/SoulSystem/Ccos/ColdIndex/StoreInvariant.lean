import SoulSystem.Ccos.ColdIndex.Layers

/-!
# The invariant of a store handle

A handle stands over a directory that holds two lists of segments: the held ones, which the handle
reads, and stale ones with smaller sequence numbers, which an earlier compaction could not remove.
What the handle shows is the view of the held layers under its write buffer, and the read cache
agrees with it.  Each operation keeps the invariant, and this module says what it does to the
shown values.
-/

namespace SoulSystem.Ccos.ColdIndex

open Library Library.LayeredMap Library.ByteCursor List

/-- The value that a handle over the held segments shows under a key. -/
def shown (store : HuskStore) (held : List Entry) (key : Str) : Option Bytes :=
  view (layersOf held ++ [slotLayer store.buffer]) key

theorem shown_of_buffer_eq_some {store : HuskStore} {held : List Entry} {key : Str}
    {slot : Option Bytes} (hslot : store.buffer[key]? = some slot) : shown store held key = slot :=
  view_concat_of_eq_some hslot

theorem shown_of_buffer_eq_none {store : HuskStore} {held : List Entry} {key : Str}
    (hslot : store.buffer[key]? = none) : shown store held key = view (layersOf held) key :=
  view_concat_of_eq_none hslot

structure HandleInv (files : Files) (store : HuskStore) (stale held : List Entry) : Prop where
  directory : DirectoryHolds files (stale ++ held)
  below : ∀ entry ∈ stale ++ held, entry.1 < store.nextSeq
  segments : store.segments = held.map segmentOf
  buffer : Fits (slotRecords store.buffer)

/-- Every cached value is the shown one. -/
def CacheAgrees (cache : Lru) (store : HuskStore) (held : List Entry) : Prop :=
  ∀ key : Str, ∀ cached : Bytes × ℕ, cache.map[key]? = some cached →
    shown store held key = some cached.1

theorem slotRecords_empty : slotRecords ∅ = [] := by
  simp [slotRecords]

theorem fits_empty : Fits (slotRecords ∅) where
  key := by simp [slotRecords_empty]
  value := by simp [slotRecords_empty]
  count := by simp [slotRecords_empty]
  offset := by simp [slotRecords_empty]

theorem HandleInv.holds {files : Files} {store : HuskStore} {stale held : List Entry}
    (hinv : HandleInv files store stale held) : ∀ entry ∈ held, Holds files entry :=
  fun _ hentry ↦ hinv.directory.holds (mem_append_right _ hentry)

/-! ## The cache -/

theorem Lru.get_map {lru : Lru} {key other : Str} {cached : Bytes × ℕ}
    (hcached : (lru.get key).1.map[other]? = some cached) :
    ∃ clock, lru.map[other]? = some (cached.1, clock) := by
  unfold Lru.get at hcached
  split at hcached
  · rename_i value clock hvalue
    simp only [Std.ExtTreeMap.getElem?_insert] at hcached
    split at hcached
    · rename_i heq
      rw [Option.some.injEq] at hcached
      rw [← Std.LawfulEqCmp.eq_of_compare heq, hvalue, ← hcached]
      exact ⟨clock, rfl⟩
    · exact ⟨cached.2, hcached⟩
  · exact ⟨cached.2, hcached⟩

theorem Lru.get_eq_some_iff {lru : Lru} {key : Str} {value : Bytes} :
    (lru.get key).2 = some value ↔ ∃ clock, lru.map[key]? = some (value, clock) := by
  unfold Lru.get
  cases hcached : lru.map[key]? with
  | none => simp
  | some cached => simp [Prod.ext_iff]

theorem Lru.insert_map {lru : Lru} {key other : Str} {value : Bytes} {cached : Bytes × ℕ}
    (hcached : (lru.insert key value).map[other]? = some cached) :
    lru.cap ≠ 0 ∧ key = other ∧ cached.1 = value ∨ lru.map[other]? = some cached := by
  unfold Lru.insert at hcached
  split at hcached
  · exact .inr hcached
  · rename_i hcap
    simp only [Std.ExtTreeMap.getElem?_insert] at hcached
    split at hcached
    · rename_i heq
      rw [Option.some.injEq] at hcached
      exact .inl ⟨hcap, Std.LawfulEqCmp.eq_of_compare heq, by rw [← hcached]⟩
    · right
      split at hcached
      · split at hcached
        · rw [Std.ExtTreeMap.getElem?_erase] at hcached
          split at hcached
          · exact absurd hcached (by simp)
          · exact hcached
        · exact hcached
      · exact hcached

theorem Lru.remove_map {lru : Lru} {key other : Str} {cached : Bytes × ℕ}
    (hcached : (lru.remove key).map[other]? = some cached) :
    key ≠ other ∧ lru.map[other]? = some cached := by
  unfold Lru.remove at hcached
  simp only [Std.ExtTreeMap.getElem?_erase] at hcached
  split at hcached
  · exact absurd hcached (by simp)
  · rename_i hne
    refine ⟨?_, hcached⟩
    intro heq
    rw [heq] at hne
    exact hne Std.ReflCmp.compare_self

theorem Lru.get_fst_cap (lru : Lru) (key : Str) : (lru.get key).1.cap = lru.cap := by
  unfold Lru.get
  split
  · rfl
  · rfl

theorem Lru.insert_self {lru : Lru} {key : Str} {value : Bytes} (hcap : lru.cap ≠ 0) :
    (lru.insert key value).map[key]? = some (value, lru.clock + 1) := by
  unfold Lru.insert
  rw [if_neg hcap]
  exact Std.ExtTreeMap.getElem?_insert_self

/-! ## Opening -/

theorem open_spec {files : Files} {disk : List Entry} (hdir : DirectoryHolds files disk)
    (bufferLimit cacheCap : ℕ) :
    ∃ state, HuskStore.open files bufferLimit cacheCap = .ok state ∧ state.files = files ∧
      state.store.buffer = ∅ ∧ HandleInv state.files state.store [] disk ∧
      CacheAgrees state.cache state.store disk := by
  rw [HuskStore.open, hdir.findSegments_eq, openAll_eq fun entry ↦ hdir.holds, ok_bind]
  refine ⟨_, rfl, rfl, rfl, ⟨?_, ?_, rfl, fits_empty⟩, ?_⟩
  · exact hdir
  · intro entry hentry
    rw [nil_append] at hentry
    dsimp only
    obtain ⟨init, last, rfl⟩ : ∃ init last, disk = init ++ [last] :=
      ⟨disk.dropLast, disk.getLast (ne_nil_of_mem hentry),
        (dropLast_append_getLast (ne_nil_of_mem hentry)).symm⟩
    rw [map_append, map_singleton, getLast?_concat]
    rcases List.mem_append.mp hentry with hinit | hlast
    · have hlt : entry.1 < last.1 :=
        (List.pairwise_append.mp hdir.ascending).2.2 entry hinit last mem_cons_self
      exact hlt.trans (Nat.lt_succ_self _)
    · rw [List.mem_singleton.mp hlast]
      exact Nat.lt_succ_self _
  · intro key cached hcached
    simp [Lru.new] at hcached

/-! ## Flushing and writing -/

/-- The segment that a flush adds. -/
def flushedEntries (store : HuskStore) : List Entry :=
  if store.buffer.isEmpty then [] else [(store.nextSeq, store.buffer)]

theorem shown_flushed {store store' : HuskStore} {held : List Entry} (hbuffer : store'.buffer = ∅)
    (key : Str) : shown store' (held ++ flushedEntries store) key = shown store held key := by
  have hempty : store'.buffer[key]? = none := by simp [hbuffer]
  rw [shown_of_buffer_eq_none hempty, flushedEntries]
  split
  · rename_i hisEmpty
    have hnone : store.buffer[key]? = none := by
      rw [Std.ExtTreeMap.isEmpty_iff.mp hisEmpty]
      simp
    rw [append_nil, shown_of_buffer_eq_none hnone]
  · rw [layersOf_append, layersOf_cons, layersOf_nil, shown]

/-- What a flush leaves, for a handle whose next number is in range. -/
structure Flushed (state state' : State) (stale held : List Entry) : Prop where
  cache : state'.cache = state.cache
  inv : HandleInv state'.files state'.store stale (held ++ flushedEntries state.store)
  buffer : state'.store.buffer = ∅
  grows : state.store.nextSeq ≤ state'.store.nextSeq
  nextSeq : state'.store.nextSeq ≤ state.store.nextSeq + 1
  frame : ∀ name : Str, name ≠ segName state.store.nextSeq → state'.files[name]? = state.files[name]?

theorem Flushed.shown_eq {state state' : State} {stale held : List Entry}
    (hflushed : Flushed state state' stale held) (key : Str) :
    shown state'.store (held ++ flushedEntries state.store) key = shown state.store held key :=
  shown_flushed hflushed.buffer key

theorem flush_spec {state : State} {stale held : List Entry}
    (hinv : HandleInv state.files state.store stale held) (hseq : state.store.nextSeq < 2 ^ 64) :
    ∃ state', flush state = (state', .ok ()) ∧ Flushed state state' stale held := by
  rw [flush]
  by_cases hempty : state.store.buffer.isEmpty
  · have hentries : flushedEntries state.store = [] := by rw [flushedEntries, if_pos hempty]
    refine ⟨state, by rw [if_pos hempty], rfl, ?_, ?_, le_refl _, Nat.le_succ _, fun _ _ ↦ rfl⟩
    · rw [hentries, append_nil]
      exact hinv
    · exact Std.ExtTreeMap.isEmpty_iff.mp hempty
  · have hentries : flushedEntries state.store = [(state.store.nextSeq, state.store.buffer)] := by
      rw [flushedEntries, if_neg hempty]
    have hdir := hinv.directory.insert hseq hinv.below hinv.buffer
    simp only [if_neg hempty, writeSegment, if_pos (ascending_slotRecords state.store.buffer),
      open_insert state.files state.store.nextSeq hinv.buffer]
    refine ⟨_, rfl, rfl, ⟨?_, ?_, ?_, fits_empty⟩, rfl, Nat.le_succ _, le_refl _, ?_⟩
    · rw [hentries, ← append_assoc]
      exact hdir
    · intro other hother
      rw [hentries, ← append_assoc] at hother
      rcases List.mem_append.mp hother with hold | hnew
      · exact (hinv.below other hold).trans (Nat.lt_succ_self _)
      · rw [List.mem_singleton.mp hnew]
        exact Nat.lt_succ_self _
    · rw [hentries, map_append, map_singleton, hinv.segments]
    · intro name hname
      change (state.files.insert _ _)[name]? = _
      rw [Std.ExtTreeMap.getElem?_insert, if_neg]
      intro heq
      exact hname (Std.LawfulEqCmp.eq_of_compare heq).symm

theorem CacheAgrees.flushed {state state' : State} {stale held : List Entry}
    (hcache : CacheAgrees state.cache state.store held) (hflushed : Flushed state state' stale held) :
    CacheAgrees state'.cache state'.store (held ++ flushedEntries state.store) := by
  intro key cached hcached
  rw [hflushed.cache] at hcached
  rw [hflushed.shown_eq]
  exact hcache key cached hcached

/-- The state of a write before its possible flush. -/
def buffered (state : State) (key : Str) (slot : Option Bytes) : State :=
  { state with
    cache := state.cache.remove key
    store := { state.store with buffer := state.store.buffer.insert key slot } }

theorem shown_buffered (state : State) (held : List Entry) (key : Str) (slot : Option Bytes)
    (other : Str) :
    shown (buffered state key slot).store held other =
      if key = other then slot else shown state.store held other := by
  have hbuffer : (buffered state key slot).store.buffer[other]? =
      if compare key other = .eq then some slot else state.store.buffer[other]? :=
    Std.ExtTreeMap.getElem?_insert
  by_cases hkey : key = other
  · rw [hkey, if_pos Std.ReflCmp.compare_self] at hbuffer
    rw [if_pos hkey, hkey]
    exact shown_of_buffer_eq_some hbuffer
  · have hne : compare key other ≠ .eq := fun heq ↦ hkey (Std.LawfulEqCmp.eq_of_compare heq)
    rw [if_neg hne] at hbuffer
    rw [if_neg hkey]
    cases hslot : state.store.buffer[other]? with
    | none =>
      rw [hslot] at hbuffer
      rw [shown_of_buffer_eq_none hbuffer, shown_of_buffer_eq_none hslot]
    | some old =>
      rw [hslot] at hbuffer
      rw [shown_of_buffer_eq_some hbuffer, shown_of_buffer_eq_some hslot]

theorem CacheAgrees.buffered {state : State} {held : List Entry}
    (hcache : CacheAgrees state.cache state.store held) (key : Str) (slot : Option Bytes) :
    CacheAgrees (buffered state key slot).cache (buffered state key slot).store held := by
  intro other cached hcached
  have hold := Lru.remove_map hcached
  rw [shown_buffered, if_neg hold.1]
  exact hcache other cached hold.2

/-- A write keeps the handle's invariant and buffers or flushes its slot. -/
theorem writeSlot_spec {state : State} {stale held : List Entry} {key : Str} {slot : Option Bytes}
    (hinv : HandleInv state.files state.store stale held) (hseq : state.store.nextSeq < 2 ^ 64)
    (hfits : Fits (slotRecords (state.store.buffer.insert key slot))) :
    writeSlot state key slot = (buffered state key slot, .ok ()) ∧
        HandleInv state.files (buffered state key slot).store stale held ∨
      ∃ state', writeSlot state key slot = (state', .ok ()) ∧
        Flushed (buffered state key slot) state' stale held := by
  have hbuffered : HandleInv (buffered state key slot).files (buffered state key slot).store stale
      held :=
    ⟨hinv.directory, hinv.below, hinv.segments, hfits⟩
  have hwrite : writeSlot state key slot = maybeFlush (buffered state key slot) := rfl
  rw [hwrite, maybeFlush]
  by_cases hfull : (buffered state key slot).store.bufferLimit ≤
      (buffered state key slot).store.buffer.size
  · rw [if_pos hfull]
    exact .inr (flush_spec hbuffered hseq)
  · rw [if_neg hfull]
    exact .inl ⟨rfl, hbuffered⟩

/-! ## Reading -/

/-- Without a cached value a handle reads what it shows. -/
theorem getSegments_shown {files : Files} {store : HuskStore} {held : List Entry}
    (hsegments : store.segments = held.map segmentOf) (hholds : ∀ entry ∈ held, Holds files entry)
    {key : Str} (hbuffer : store.buffer[key]? = none) :
    getSegments files key store.segments.reverse = .ok (shown store held key) := by
  rw [hsegments, getSegments_eq_view hholds, shown_of_buffer_eq_none hbuffer]

theorem CacheAgrees.get {cache : Lru} {store : HuskStore} {held : List Entry}
    (hcache : CacheAgrees cache store held) (key : Str) :
    CacheAgrees (cache.get key).1 store held := by
  intro other cached hcached
  obtain ⟨clock, hold⟩ := Lru.get_map hcached
  exact hcache other (cached.1, clock) hold

theorem CacheAgrees.insert {cache : Lru} {store : HuskStore} {held : List Entry}
    (hcache : CacheAgrees cache store held) {key : Str} {value : Bytes}
    (hvalue : shown store held key = some value) :
    CacheAgrees (cache.insert key value) store held := by
  intro other cached hcached
  rcases Lru.insert_map hcached with hnew | hold
  · rw [← hnew.2.1, hnew.2.2]
    exact hvalue
  · exact hcache other cached hold

/-- The three ways of a read: from the buffer, from the cache, or from the segments. -/
theorem get_of_buffer {state : State} {key : Str} {slot : Option Bytes}
    (hbuffer : state.store.buffer[key]? = some slot) : get state key = (state, .ok slot) := by
  simp only [get, hbuffer]

theorem get_of_cached {state : State} {key : Str} {value : Bytes}
    (hbuffer : state.store.buffer[key]? = none) (hcached : (state.cache.get key).2 = some value) :
    get state key = ({ state with cache := (state.cache.get key).1 }, .ok (some value)) := by
  rcases hlru : state.cache.get key with ⟨cache, found⟩
  rw [hlru] at hcached
  change found = some value at hcached
  subst hcached
  simp only [get, hbuffer, hlru]

/-- The cache after a read from the segments. -/
def fillCache (cache : Lru) (key : Str) : Option Bytes → Lru
  | some value => cache.insert key value
  | none => cache

theorem get_of_segments {state : State} {key : Str} {found : Option Bytes}
    (hbuffer : state.store.buffer[key]? = none) (hcached : (state.cache.get key).2 = none)
    (hread : getSegments state.files key state.store.segments.reverse = .ok found) :
    get state key =
      ({ state with cache := fillCache (state.cache.get key).1 key found }, .ok found) := by
  rcases hlru : state.cache.get key with ⟨cache, cached⟩
  rw [hlru] at hcached
  change cached = none at hcached
  subst hcached
  simp only [get, hbuffer, hlru, hread]
  cases found with
  | none => rfl
  | some value => rfl

theorem get_spec {state : State} {held : List Entry}
    (hsegments : state.store.segments = held.map segmentOf)
    (hholds : ∀ entry ∈ held, Holds state.files entry)
    (hcache : CacheAgrees state.cache state.store held) (key : Str) :
    ∃ cache, get state key = ({ state with cache }, .ok (shown state.store held key)) ∧
      CacheAgrees cache state.store held := by
  cases hbuffer : state.store.buffer[key]? with
  | some slot =>
    refine ⟨state.cache, ?_, hcache⟩
    rw [get_of_buffer hbuffer, shown_of_buffer_eq_some hbuffer]
  | none =>
    have hget := hcache.get key
    cases hcached : (state.cache.get key).2 with
    | some value =>
      obtain ⟨clock, hmap⟩ := Lru.get_eq_some_iff.mp hcached
      refine ⟨(state.cache.get key).1, ?_, hget⟩
      rw [get_of_cached hbuffer hcached, hcache key _ hmap]
    | none =>
      have hread := getSegments_shown hsegments hholds hbuffer
      rw [get_of_segments hbuffer hcached hread]
      cases hshown : shown state.store held key with
      | none => exact ⟨_, rfl, hget⟩
      | some value => exact ⟨_, rfl, hget.insert hshown⟩

end SoulSystem.Ccos.ColdIndex
