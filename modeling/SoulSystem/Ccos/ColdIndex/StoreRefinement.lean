import SoulSystem.Ccos.ColdIndex.StoreMerge

/-!
# The store refines a map

A run of operations on one handle is compared with the same run on a sorted map of live values.  The
store shows the map after every run whose writes fit the file format.

The format stores a length in 32 bits, and a stored value carries one tag byte.  A value of
`2 ^ 32 - 1` bytes therefore wraps its length field to zero and reads back as absent, although its
own length is in range.
-/

namespace SoulSystem.Ccos.ColdIndex

open Library Library.LayeredMap Library.ByteCursor List

abbrev Contents := Std.ExtTreeMap Str Bytes

/-- The operations on one handle. -/
inductive Op where
  | put (key : Str) (value : Bytes)
  | delete (key : Str)
  | flush
  | compact
  | get (key : Str)

/-- Every `remove_file` succeeds. -/
def removeAll : Str → Bool := fun _ ↦ true

def runOp (state : State) : Op → Outcome
  | .put key value => put state key value
  | .delete key => delete state key
  | .flush => flush state
  | .compact => compact removeAll state
  | .get key => ((get state key).1, (get state key).2.map fun _ ↦ ())

/-- A run stops at its first error. -/
def run : State → List Op → Outcome
  | state, [] => (state, .ok ())
  | state, op :: ops =>
    match runOp state op with
    | (state, .ok ()) => run state ops
    | (state, .error e) => (state, .error e)

/-- The last-write-wins map. -/
def applyOp (contents : Contents) : Op → Contents
  | .put key value => contents.insert key value
  | .delete key => contents.erase key
  | .flush | .compact | .get _ => contents

/-- The records that an operation may write. -/
def writtenBy (state : State) (contents : Contents) : Op → List Record
  | .put key value => slotRecords (state.store.buffer.insert key (some value))
  | .delete key => slotRecords (state.store.buffer.insert key none)
  | .flush => slotRecords state.store.buffer
  | .compact => slotRecords (liveSlots contents)
  | .get _ => []

/-- What an operation may write fits the file format, and sequence numbers are left for it. -/
def OpFits (state : State) (contents : Contents) (op : Op) : Prop :=
  state.store.nextSeq + 2 < 2 ^ 64 ∧ Fits (writtenBy state contents op)

/-- Every operation of a run fits in the state before it. -/
def RunFits : State → Contents → List Op → Prop
  | _, _, [] => True
  | state, contents, op :: ops =>
    OpFits state contents op ∧ RunFits (runOp state op).1 (applyOp contents op) ops

/-- Reading a state gives a map: by key, all of it in key order, and by the start of the keys. -/
structure Reads (state : State) (contents : Contents) : Prop where
  get : ∀ key : Str, (get state key).2 = .ok contents[key]?
  liveEntries : liveEntries state = .ok contents.toList
  scanPrefix : ∀ start : Str,
    scanPrefix state start = .ok (contents.toList.filter fun pair ↦ start.isPrefixOf pair.1)

/-- A state reads as a map, and so does the directory when it is opened again after a flush. -/
structure Shows (state : State) (contents : Contents) : Prop where
  reads : Reads state contents
  reopened : ∀ bufferLimit cacheCap : ℕ, ∃ reopened,
    (flush state).2 = .ok () ∧
      HuskStore.open (flush state).1.files bufferLimit cacheCap = .ok reopened ∧
      Reads reopened contents

/-- The state that opening an empty directory gives. -/
def initial (bufferLimit cacheCap : ℕ) : State where
  files := ∅
  cache := Lru.new cacheCap
  store := { buffer := ∅, bufferLimit := max bufferLimit 1, segments := [], nextSeq := 0 }

theorem open_empty (bufferLimit cacheCap : ℕ) :
    HuskStore.open ∅ bufferLimit cacheCap = .ok (initial bufferLimit cacheCap) := by
  rw [HuskStore.open, DirectoryHolds.empty.findSegments_eq]
  rfl

/-! ## The invariant of a run -/

/-- A state without stale files stands for a map. -/
structure StandsFor (state : State) (contents : Contents) (held : List Entry) : Prop where
  inv : HandleInv state.files state.store [] held
  cache : CacheAgrees state.cache state.store held
  represents : Represents contents state.store held
  seq : state.store.nextSeq < 2 ^ 64

theorem initial_standsFor (bufferLimit cacheCap : ℕ) :
    StandsFor (initial bufferLimit cacheCap) ∅ [] where
  inv := ⟨DirectoryHolds.empty, by simp, rfl, fits_empty⟩
  cache := by
    intro key cached hcached
    simp [initial, Lru.new] at hcached
  represents := by
    intro key
    have hbuffer : (initial bufferLimit cacheCap).store.buffer[key]? = none := by simp [initial]
    rw [shown_of_buffer_eq_none hbuffer]
    simp
  seq := by simp [initial]

theorem StandsFor.flushed {state state' : State} {contents : Contents} {held : List Entry}
    (hstands : StandsFor state contents held) (hflushed : Flushed state state' [] held)
    (hseq : state.store.nextSeq + 1 < 2 ^ 64) :
    StandsFor state' contents (held ++ flushedEntries state.store) where
  inv := hflushed.inv
  cache := hstands.cache.flushed hflushed
  represents := fun key ↦ (hstands.represents key).trans (hflushed.shown_eq key).symm
  seq := hflushed.nextSeq.trans_lt hseq

/-- A slot written to a map of live values. -/
def writeContents (contents : Contents) (key : Str) : Option Bytes → Contents
  | some value => contents.insert key value
  | none => contents.erase key

theorem getElem?_writeContents (contents : Contents) (key : Str) (slot : Option Bytes) (other : Str) :
    (writeContents contents key slot)[other]? = if key = other then slot else contents[other]? := by
  have hcompare : compare key other = .eq ↔ key = other := Std.LawfulEqCmp.compare_eq_iff_eq
  cases slot with
  | none => simp [writeContents, Std.ExtTreeMap.getElem?_erase, hcompare]
  | some value => simp [writeContents, Std.ExtTreeMap.getElem?_insert, hcompare]

theorem StandsFor.buffered {state : State} {contents : Contents} {held : List Entry}
    (hstands : StandsFor state contents held) {key : Str} {slot : Option Bytes}
    (hfits : Fits (slotRecords (state.store.buffer.insert key slot))) :
    StandsFor (ColdIndex.buffered state key slot) (writeContents contents key slot) held where
  inv := ⟨hstands.inv.directory, hstands.inv.below, hstands.inv.segments, hfits⟩
  cache := hstands.cache.buffered key slot
  represents := by
    intro other
    rw [getElem?_writeContents, shown_buffered, hstands.represents other]
  seq := hstands.seq

theorem StandsFor.writeSlot {state : State} {contents : Contents} {held : List Entry}
    (hstands : StandsFor state contents held) {key : Str} {slot : Option Bytes}
    (hseq : state.store.nextSeq + 1 < 2 ^ 64)
    (hfits : Fits (slotRecords (state.store.buffer.insert key slot))) :
    ∃ state' held', writeSlot state key slot = (state', .ok ()) ∧
      StandsFor state' (writeContents contents key slot) held' := by
  have hbuffered := hstands.buffered hfits
  rcases writeSlot_spec hstands.inv hstands.seq hfits with hkept | hflushed
  · exact ⟨_, held, hkept.1, hbuffered⟩
  · obtain ⟨state', hwrite, hflushed⟩ := hflushed
    exact ⟨state', _, hwrite, hbuffered.flushed hflushed hseq⟩

/-- One operation keeps the correspondence. -/
theorem StandsFor.runOp {state : State} {contents : Contents} {held : List Entry}
    (hstands : StandsFor state contents held) {op : Op} (hfits : OpFits state contents op) :
    ∃ state' held', runOp state op = (state', .ok ()) ∧
      StandsFor state' (applyOp contents op) held' := by
  have hseq : state.store.nextSeq + 1 < 2 ^ 64 := Nat.lt_of_succ_lt hfits.1
  cases op with
  | put key value => exact hstands.writeSlot hseq hfits.2
  | delete key => exact hstands.writeSlot hseq hfits.2
  | flush =>
    obtain ⟨state', hflush, hflushed⟩ := flush_spec hstands.inv hstands.seq
    exact ⟨state', _, hflush, hstands.flushed hflushed hseq⟩
  | compact =>
    obtain ⟨state', stale', held', hcompact, hinv, hcache, hrepresents, -, hnext, hstale⟩ :=
      compact_spec hstands.inv hstands.cache hseq hstands.represents hfits.2 removeAll
    rw [hstale fun _ ↦ rfl] at hinv
    exact ⟨state', held', hcompact, hinv, hcache, hrepresents, hnext.trans_lt hfits.1⟩
  | get key =>
    obtain ⟨cache, hget, hcache⟩ :=
      get_spec hstands.inv.segments hstands.inv.holds hstands.cache key
    refine ⟨{ state with cache }, held, ?_, hstands.inv, hcache, hstands.represents, hstands.seq⟩
    rw [ColdIndex.runOp, hget]
    rfl

/-- A run whose operations fit returns without error and keeps the correspondence. -/
theorem StandsFor.run {state : State} {contents : Contents} {held : List Entry}
    (hstands : StandsFor state contents held) {ops : List Op} (hfits : RunFits state contents ops) :
    ∃ state' held', run state ops = (state', .ok ()) ∧
      StandsFor state' (ops.foldl applyOp contents) held' := by
  induction ops generalizing state contents held with
  | nil => exact ⟨state, held, rfl, hstands⟩
  | cons op ops ih =>
    obtain ⟨next, heldNext, hop, hnext⟩ := hstands.runOp hfits.1
    have hrest := hfits.2
    rw [hop] at hrest
    rw [ColdIndex.run, hop]
    exact ih hnext hrest

theorem reads_of_represents {state : State} {contents : Contents} {stale held : List Entry}
    (hinv : HandleInv state.files state.store stale held)
    (hcache : CacheAgrees state.cache state.store held)
    (hrepresents : Represents contents state.store held) : Reads state contents where
  get := by
    intro key
    obtain ⟨cache, hget, -⟩ := get_spec hinv.segments hinv.holds hcache key
    rw [hget, hrepresents]
  liveEntries := liveEntries_spec hinv hrepresents
  scanPrefix := scanPrefix_spec hinv hrepresents

/-- Opening a directory shows the view of its layers. -/
theorem open_reads {files : Files} {disk : List Entry} (hdir : DirectoryHolds files disk)
    {contents : Contents} (hcontents : ∀ key : Str, contents[key]? = view (layersOf disk) key)
    (bufferLimit cacheCap : ℕ) :
    ∃ state, HuskStore.open files bufferLimit cacheCap = .ok state ∧ Reads state contents := by
  obtain ⟨state, hopen, -, hbuffer, hinv, hcache⟩ := open_spec hdir bufferLimit cacheCap
  refine ⟨state, hopen, reads_of_represents hinv hcache ?_⟩
  intro key
  have hnone : state.store.buffer[key]? = none := by simp [hbuffer]
  rw [shown_of_buffer_eq_none hnone, hcontents]

theorem StandsFor.shows {state : State} {contents : Contents} {held : List Entry}
    (hstands : StandsFor state contents held) : Shows state contents where
  reads := reads_of_represents hstands.inv hstands.cache hstands.represents
  reopened := by
    intro bufferLimit cacheCap
    obtain ⟨state', hflush, hflushed⟩ := flush_spec hstands.inv hstands.seq
    have hcontents (key : Str) :
        contents[key]? = view (layersOf (held ++ flushedEntries state.store)) key := by
      have hnone : state'.store.buffer[key]? = none := by simp [hflushed.buffer]
      rw [hstands.represents, ← hflushed.shown_eq, shown_of_buffer_eq_none hnone]
    obtain ⟨reopened, hopen, hreads⟩ :=
      open_reads hflushed.inv.directory hcontents bufferLimit cacheCap
    rw [hflush]
    exact ⟨reopened, rfl, hopen, hreads⟩

/-! ## The refinement -/

/-- The store opened on an empty directory runs without error and then shows the map. -/
def RunShows (bufferLimit cacheCap : ℕ) (ops : List Op) : Prop :=
  ∃ start state, HuskStore.open ∅ bufferLimit cacheCap = .ok start ∧
    run start ops = (state, .ok ()) ∧ Shows state (ops.foldl applyOp ∅)

theorem RunFits.of_append {state : State} {contents : Contents} {ops more : List Op}
    (hfits : RunFits state contents (ops ++ more)) : RunFits state contents ops := by
  induction ops generalizing state contents with
  | nil => trivial
  | cons op ops ih => exact ⟨hfits.1, ih hfits.2⟩

/-- After every step of a run whose writes fit the format, the store shows the last-write-wins
map. -/
theorem run_shows_of_runFits (bufferLimit cacheCap : ℕ) (ops : List Op)
    (hfits : RunFits (initial bufferLimit cacheCap) ∅ ops) :
    ∀ done, done <+: ops → RunShows bufferLimit cacheCap done := by
  intro done hdone
  obtain ⟨more, rfl⟩ := hdone
  obtain ⟨state, held, hrun, hstands⟩ :=
    (initial_standsFor bufferLimit cacheCap).run hfits.of_append
  exact ⟨_, state, open_empty bufferLimit cacheCap, hrun, hstands.shows⟩

theorem run_shows_put_delete_compact :
    RunShows 8 4 [.put ['a'] [7], .delete ['b'], .get ['a'], .compact] := by
  apply run_shows_of_runFits 8 4 [.put ['a'] [7], .delete ['b'], .get ['a'], .compact] _ _
    (prefix_refl _)
  refine ⟨?_, ?_, ?_, ?_, trivial⟩
  all_goals
    refine ⟨by decide, ?_⟩
    exact ⟨by decide, by decide, by decide, by decide⟩

/-! ## The length that wraps -/

/-- The sizes that the interface of the store asks for: keys and values below `2 ^ 32` bytes. -/
def Op.Short : Op → Prop
  | .put key value => (Str.utf8 key).length < 2 ^ 32 ∧ value.length < 2 ^ 32
  | .delete key | .get key => (Str.utf8 key).length < 2 ^ 32
  | .flush | .compact => True

/-- A raw value of `2 ^ 32` bytes reads back empty: its length field holds zero. -/
theorem get_opened_wrapped {files : Files} {path key : Str} {raw : Bytes}
    (hkey : (Str.utf8 key).length < 2 ^ 32) (hraw : raw.length = 2 ^ 32)
    (hfile : files[path]? = some (encodeSegment [(key, raw)])) :
    (opened path [(key, raw)]).get files key = .ok (some []) := by
  have hself : compare key key = .eq := Std.ReflCmp.compare_self
  have hsearch : binarySearch [(key, 0)] key = .ok 0 := by
    simp [binarySearch]
  have hbytes : encodeSegment [(key, raw)] =
      putBytes (Str.utf8 key) ++ (putBytes raw ++ trailer [(key, raw)]) := by
    rw [encodeSegment_eq, recordsBytes_cons, recordsBytes_nil, append_nil, recordBytes,
      append_assoc]
  have hvalue : readBytes (putBytes raw ++ trailer [(key, raw)]) =
      .ok ([], raw ++ trailer [(key, raw)]) := by
    rw [readBytes_putBytes_mod, hraw, Nat.mod_self]
    rfl
  have hend : 0 < (recordsBytes [(key, raw)]).length := by
    rw [recordsBytes_cons, length_append, length_recordBytes]
    omega
  have hsparse : (opened path [(key, raw)]).sparse = [(key, 0)] := rfl
  rw [Segment.get, hsparse, hsearch]
  change (openFile files path >>= fun bytes ↦
    scanRecords (recordsBytes [(key, raw)]).length (seekKey key) 0 (bytes.drop 0) none) = _
  rw [openFile_eq hfile, ok_bind, drop_zero, scanRecords, if_pos hend, hbytes,
    readString_putBytes hkey]
  simp only [hvalue, seekKey, hself]

/-- A flush whose segment opens again. -/
theorem flush_eq {state : State} {segment : Segment} (hbuffer : ¬ state.store.buffer.isEmpty)
    (hopen : Segment.open (state.files.insert (segName state.store.nextSeq)
      (encodeSegment (slotRecords state.store.buffer))) (segName state.store.nextSeq) = .ok segment) :
    flush state =
      ({ state with
          files := state.files.insert (segName state.store.nextSeq)
            (encodeSegment (slotRecords state.store.buffer))
          store := { state.store with
            segments := state.store.segments ++ [segment]
            nextSeq := state.store.nextSeq + 1
            buffer := ∅ } }, .ok ()) := by
  simp only [flush, if_neg hbuffer, writeSegment,
    if_pos (ascending_slotRecords state.store.buffer), hopen]

/-- A value of `2 ^ 32 - 1` bytes that was flushed reads back as absent. -/
theorem get_after_wrapped_put (cacheCap : ℕ) (value : Bytes) (hlength : value.length + 1 = 2 ^ 32) :
    (get (run (initial 1 cacheCap) [.put ['k'] value]).1 ['k']).2 = .ok none := by
  set state := buffered (initial 1 cacheCap) ['k'] (some value) with hstate
  set raw : Bytes := encodeValue (some value) with hraw
  have hrawLength : raw.length = 2 ^ 32 := by
    rw [hraw, encodeValue, length_cons, hlength]
  have hkey : (Str.utf8 ['k']).length < 2 ^ 32 := by decide
  have hrecords : slotRecords state.store.buffer = [(['k'], raw)] := rfl
  have hfile : (state.files.insert (segName 0) (encodeSegment [(['k'], raw)]))[segName 0]? =
      some (encodeSegment [(['k'], raw)]) :=
    Std.ExtTreeMap.getElem?_insert_self
  have hopen : Segment.open (state.files.insert (segName 0) (encodeSegment [(['k'], raw)]))
      (segName 0) = .ok (opened (segName 0) [(['k'], raw)]) := by
    apply open_encodeSegment _ _ _ hfile
    · intro record hrecord
      rw [List.mem_singleton.mp hrecord]
      exact hkey
    · rw [length_singleton]
      decide
    · rw [recordsBytes_cons, recordsBytes_nil, append_nil, length_recordBytes, hrawLength]
      change 8 + (Str.utf8 ['k']).length + 2 ^ 32 < 2 ^ 64
      decide
  have hfull : state.store.bufferLimit ≤ state.store.buffer.size := by
    change max 1 1 ≤ ((∅ : SlotMap).insert ['k'] (some value)).size
    rw [Std.ExtTreeMap.size_insert]
    simp
  have hbuffer : ¬ state.store.buffer.isEmpty := by
    change ¬ ((∅ : SlotMap).insert ['k'] (some value)).isEmpty
    simp
  have hput : put (initial 1 cacheCap) ['k'] value = flush state := by
    change maybeFlush state = flush state
    rw [maybeFlush, if_pos hfull]
  have hflush := @flush_eq state (opened (segName 0) [(['k'], raw)]) hbuffer hopen
  have hrun : (run (initial 1 cacheCap) [.put ['k'] value]).1 = (flush state).1 := by
    rw [run, runOp, hput, hflush]
    rfl
  have hsegment := get_opened_wrapped hkey hrawLength hfile
  have hcached : (state.cache.get ['k']).2 = none := by
    rw [Option.eq_none_iff_forall_ne_some]
    intro found hfound
    obtain ⟨clock, hmap⟩ := Lru.get_eq_some_iff.mp hfound
    simp [hstate, buffered, initial, Lru.new, Lru.remove] at hmap
  have hread : getSegments (state.files.insert (segName 0) (encodeSegment [(['k'], raw)])) ['k']
      [opened (segName 0) [(['k'], raw)]] = .ok none := by
    rw [getSegments, hsegment]
    rfl
  have hget := @get_of_segments (flush state).1 ['k'] none
  rw [hflush] at hget
  rw [hrun, hflush, hget (by simp) hcached hread]

/-- Short keys and values are not enough: the tag byte makes the length of a value wrap. -/
theorem not_all_short_runs_show : ¬ ∀ (bufferLimit cacheCap : ℕ) (ops : List Op),
    1 ≤ bufferLimit → (∀ op ∈ ops, op.Short) → RunShows bufferLimit cacheCap ops := by
  intro hall
  set value : Bytes := List.replicate (2 ^ 32 - 1) 0 with hvalue
  have hlength : value.length = 2 ^ 32 - 1 := length_replicate
  have hshort : ∀ op ∈ [Op.put ['k'] value], op.Short := by
    intro op hop
    rw [List.mem_singleton.mp hop]
    refine ⟨by decide, ?_⟩
    rw [hlength]
    decide
  obtain ⟨start, state, hopen, hrun, hshows⟩ := hall 1 0 [.put ['k'] value] (le_refl 1) hshort
  rw [open_empty] at hopen
  rw [← Except.ok.inj hopen] at hrun
  have hget := hshows.reads.get ['k']
  have hlost := get_after_wrapped_put 0 value (by rw [hlength]; decide)
  rw [hrun] at hlost
  rw [hlost] at hget
  have hpresent : ([Op.put ['k'] value].foldl applyOp ∅)[['k']]? = some value :=
    Std.ExtTreeMap.getElem?_insert_self
  rw [hpresent] at hget
  exact absurd hget (by simp)

end SoulSystem.Ccos.ColdIndex
