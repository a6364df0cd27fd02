import SoulSystem.Ccos.ColdIndex.StoreRefinement

/-!
# Stopping in the middle of a compaction

A compaction can stop before its flush, after it, or after the merged segment with any part of the
old files removed, and a stop during a write leaves the temporary file of that write.  Opening the
directory again recovers the store exactly when the segments that are left show nothing else.

The merged segment carries no tombstones.  When the file with a tombstone is removed and an older
file with a live value for the same key stays, the deleted key comes back.
-/

namespace SoulSystem.Ccos.ColdIndex

open Library Library.LayeredMap Library.ByteCursor

/-! ## Stopping points -/

/-- Where a compaction stops.  A stop during a write leaves arbitrary bytes in its
temporary file. -/
inductive CompactStop where
  | start
  | flushing (written : Bytes)
  | flushed
  | merging (written : Bytes)
  | merged (removes : Str → Bool)

/-- The temporary sibling that `write_durable` fills before it renames it. -/
def tmpName (seq : ℕ) : Str :=
  segName seq ++ ".tmp".toList

/-- The directory that a stopped compaction leaves. -/
def stopFiles (state : State) : CompactStop → Files
  | .start => state.files
  | .flushing written => state.files.insert (tmpName state.store.nextSeq) written
  | .flushed => (flush state).1.files
  | .merging written =>
    (flush state).1.files.insert (tmpName (flush state).1.store.nextSeq) written
  | .merged removes => (compact removes state).1.files

/-- Opening a directory gives the same reads as a state. -/
def Recovers (state : State) (files : Files) : Prop :=
  ∀ bufferLimit cacheCap : ℕ, ∃ reopened,
    HuskStore.open files bufferLimit cacheCap = .ok reopened ∧
      (∀ key : Str, (get reopened key).2 = (get state key).2) ∧
      liveEntries reopened = liveEntries state

/-! ## When a stop is harmless -/

/-- Every live value for the key has a record for it in a newer segment. -/
def Shadowed (entries : List Entry) (key : Str) : Prop :=
  ∀ older entry newer value, entries = older ++ entry :: newer →
    entry.2[key]? = some (some value) → ∃ above ∈ newer, above.2[key]? ≠ none

theorem view_eq_none_iff_shadowed {entries : List Entry} {key : Str} :
    view (layersOf entries) key = none ↔ Shadowed entries key := by
  rw [view_eq_none_iff]
  constructor
  · intro hdead older entry newer value hsplit hlive
    obtain ⟨above, habove, hrecord⟩ := hdead (layersOf older) (slotLayer entry.2) (layersOf newer)
      value (by rw [hsplit, layersOf_append, layersOf_cons]) hlive
    obtain ⟨aboveEntry, hmem, rfl⟩ := List.mem_map.mp habove
    exact ⟨aboveEntry, hmem, hrecord⟩
  · intro hshadowed older layer newer value hsplit hlive
    obtain ⟨olderEntries, rest, hentries, holder, hrest⟩ := List.map_eq_append_iff.mp hsplit
    obtain ⟨entry, newerEntries, hrestEq, hlayer, hnewer⟩ := List.map_eq_cons_iff.mp hrest
    rw [← hlayer] at hlive
    obtain ⟨above, habove, hrecord⟩ := hshadowed olderEntries entry newerEntries value
      (by rw [hentries, hrestEq]) hlive
    exact ⟨slotLayer above.2, hnewer ▸ List.mem_map_of_mem habove, hrecord⟩

/-- Stale files show nothing for a key that the handle has no record for. -/
def StaleHidden (store : HuskStore) (stale held : List Entry) : Prop :=
  ∀ key : Str, store.buffer[key]? = none → (∀ entry ∈ held, entry.2[key]? = none) →
    Shadowed stale key

/-- The segments of a handle after the flush of a compaction. -/
def flushedHeld (store : HuskStore) (held : List Entry) : List Entry :=
  held ++ flushedEntries store

/-- When a stopping point loses nothing.  Before the flush the memtable must not matter; before the
merge the stale files must be hidden; after it every dead key must be shadowed in what is left. -/
def SafeStop (store : HuskStore) (stale held : List Entry) : CompactStop → Prop
  | .start | .flushing _ =>
    (∀ key : Str, ∀ slot, store.buffer[key]? = some slot →
      view (layersOf (stale ++ held)) key = slot) ∧ StaleHidden store stale held
  | .flushed | .merging _ => StaleHidden store stale held
  | .merged removes =>
    if (flushedHeld store held).length < 2 then
      StaleHidden store stale held
    else
      ∀ key : Str, shown store held key = none →
        Shadowed (stale ++ survivors removes (heldPaths (flushedHeld store held))
          (flushedHeld store held)) key

/-! ## The segments that a stop leaves -/

/-- The segments on disk at a stopping point. -/
def stopDisk (state : State) (stale held : List Entry) (contents : Contents) :
    CompactStop → List Entry
  | .start | .flushing _ => stale ++ held
  | .flushed | .merging _ => stale ++ flushedHeld state.store held
  | .merged removes =>
    if (flushedHeld state.store held).length < 2 then
      stale ++ flushedHeld state.store held
    else
      stale ++ survivors removes (heldPaths (flushedHeld state.store held))
          (flushedHeld state.store held) ++
        mergedEntries (flush state).1.store.nextSeq contents

section Stop

variable {state : State} {stale held : List Entry} {contents : Contents}

theorem directoryHolds_stopDisk (hinv : HandleInv state.files state.store stale held)
    (hseq : state.store.nextSeq + 1 < 2 ^ 64)
    (hrepresents : Represents contents state.store held)
    (hfits : Fits (slotRecords (liveSlots contents))) (stop : CompactStop) :
    DirectoryHolds (stopFiles state stop) (stopDisk state stale held contents stop) := by
  obtain ⟨flushed, hflush, hflushed⟩ := flush_spec hinv (by omega)
  have hfiles : (flush state).1 = flushed := by rw [hflush]
  cases stop with
  | start => exact hinv.directory
  | flushing written => exact hinv.directory.insert_other (segSeq_tmp _) written
  | flushed =>
    rw [stopFiles, hfiles]
    exact hflushed.inv.directory
  | merging written =>
    rw [stopFiles, hfiles]
    exact hflushed.inv.directory.insert_other (segSeq_tmp _) written
  | merged removes =>
    rw [stopFiles, stopDisk, hfiles, compact, hflush]
    by_cases hfew : (flushedHeld state.store held).length < 2
    · simp only [if_pos hfew, mergeSegments_few hflushed.inv hfew]
      exact hflushed.inv.directory
    · have hrep : Represents contents flushed.store (flushedHeld state.store held) :=
        fun key ↦ (hrepresents key).trans (hflushed.shown_eq key).symm
      obtain ⟨state', hmerge, -, -, -, hmerged⟩ := mergeSegments_spec hflushed.inv
        (hflushed.nextSeq.trans_lt hseq) hflushed.buffer hrep hfits (Nat.le_of_not_lt hfew) removes
      simp only [if_neg hfew, hmerge]
      exact hmerged.directory

theorem lookup_layersOf_eq_none_iff {entries : List Entry} {key : Str} :
    lookup (layersOf entries) key = none ↔ ∀ entry ∈ entries, entry.2[key]? = none := by
  rw [← not_iff_not, ← ne_eq, lookup_ne_none_iff, layersOf]
  simp only [List.mem_map, exists_exists_and_eq_and, not_forall, exists_prop]
  rfl

/-- A handle's records win over the stale ones. -/
theorem view_append_eq_iff (key : Str) :
    view (layersOf (stale ++ held)) key = view (layersOf held) key ↔
      ((∀ entry ∈ held, entry.2[key]? = none) → Shadowed stale key) := by
  rw [← lookup_layersOf_eq_none_iff, ← view_eq_none_iff_shadowed, layersOf_append, view,
    lookup_append, view, view]
  cases lookup (layersOf held) key with
  | some slot => simp
  | none => simp

theorem shown_eq_view_flushedHeld (store : HuskStore) (held : List Entry) (key : Str) :
    shown store held key = view (layersOf (flushedHeld store held)) key := by
  have hflushed := @shown_flushed store { store with buffer := ∅ } held rfl key
  rw [← hflushed, shown_of_buffer_eq_none (by simp)]
  rfl

theorem no_record_flushedHeld (store : HuskStore) (held : List Entry) (key : Str) :
    (∀ entry ∈ flushedHeld store held, entry.2[key]? = none) ↔
      store.buffer[key]? = none ∧ ∀ entry ∈ held, entry.2[key]? = none := by
  rw [flushedHeld, List.forall_mem_append, and_comm, flushedEntries]
  split
  · rename_i hempty
    rw [Std.ExtTreeMap.isEmpty_iff.mp hempty]
    simp
  · simp

theorem staleHidden_iff (store : HuskStore) (stale held : List Entry) :
    StaleHidden store stale held ↔
      ∀ key, view (layersOf (stale ++ flushedHeld store held)) key = shown store held key := by
  apply forall_congr'
  intro key
  rw [shown_eq_view_flushedHeld, view_append_eq_iff, no_record_flushedHeld]
  exact and_imp.symm

/-- A stop is safe exactly when the segments that it leaves show what the handle showed. -/
theorem safeStop_iff (hrepresents : Represents contents state.store held) (stop : CompactStop) :
    SafeStop state.store stale held stop ↔
      ∀ key, view (layersOf (stopDisk state stale held contents stop)) key =
        shown state.store held key := by
  have hstart : ((∀ key : Str, ∀ slot, state.store.buffer[key]? = some slot →
      view (layersOf (stale ++ held)) key = slot) ∧ StaleHidden state.store stale held) ↔
      ∀ key, view (layersOf (stale ++ held)) key = shown state.store held key := by
    constructor
    · intro hsafe key
      cases hslot : state.store.buffer[key]? with
      | some slot => rw [shown_of_buffer_eq_some hslot, hsafe.1 key slot hslot]
      | none =>
        rw [shown_of_buffer_eq_none hslot, view_append_eq_iff]
        exact hsafe.2 key hslot
    · intro hview
      refine ⟨?_, ?_⟩
      · intro key slot hslot
        rw [hview, shown_of_buffer_eq_some hslot]
      · intro key hslot
        have hkey := hview key
        rw [shown_of_buffer_eq_none hslot, view_append_eq_iff] at hkey
        exact hkey
  cases stop with
  | start => exact hstart
  | flushing written => exact hstart
  | flushed => exact staleHidden_iff state.store stale held
  | merging written => exact staleHidden_iff state.store stale held
  | merged removes =>
    rw [SafeStop, stopDisk]
    by_cases hfew : (flushedHeld state.store held).length < 2
    · rw [if_pos hfew, if_pos hfew]
      exact staleHidden_iff state.store stale held
    · rw [if_neg hfew, if_neg hfew]
      apply forall_congr'
      intro key
      have htop : lookup (layersOf (mergedEntries (flush state).1.store.nextSeq contents)) key =
          (shown state.store held key).map some := by
        rw [lookup_mergedEntries, hrepresents key]
      rw [← view_eq_none_iff_shadowed, layersOf_append _ (mergedEntries _ _),
        view_append_compacted_eq_iff htop]

/-- Opening what a stop leaves gives the reads of the state exactly when the stop is safe. -/
theorem recovers_iff_safeStop (hinv : HandleInv state.files state.store stale held)
    (hcache : CacheAgrees state.cache state.store held) (hseq : state.store.nextSeq + 1 < 2 ^ 64)
    (hrepresents : Represents contents state.store held)
    (hfits : Fits (slotRecords (liveSlots contents))) (stop : CompactStop) :
    Recovers state (stopFiles state stop) ↔ SafeStop state.store stale held stop := by
  have hdir := directoryHolds_stopDisk hinv hseq hrepresents hfits stop
  have hreads := reads_of_represents hinv hcache hrepresents
  rw [safeStop_iff hrepresents]
  constructor
  · intro hrecovers key
    obtain ⟨reopened, hopen, hget, -⟩ := hrecovers 0 0
    obtain ⟨reopened', hopen', hreads'⟩ := open_reads hdir (getElem?_liveOf _) 0 0
    rw [hopen, Except.ok.injEq] at hopen'
    subst hopen'
    have hkey := hget key
    rw [hreads'.get, hreads.get, Except.ok.injEq, getElem?_liveOf, hrepresents] at hkey
    exact hkey
  · intro hview bufferLimit cacheCap
    have hcontents (key : Str) : contents[key]? =
        view (layersOf (stopDisk state stale held contents stop)) key := by
      rw [hview, hrepresents]
    obtain ⟨reopened, hopen, hreads'⟩ := open_reads hdir hcontents bufferLimit cacheCap
    refine ⟨reopened, hopen, ?_, ?_⟩
    · intro key
      rw [hreads'.get, hreads.get]
    · rw [hreads'.liveEntries, hreads.liveEntries]

end Stop

/-! ## Histories -/

/-- What can happen to a store: operations, compactions whose removals fail at will, and stops that
are followed by opening the directory again. -/
inductive Event where
  | write (key : Str) (slot : Option Bytes)
  | flush
  | get (key : Str)
  | compact (removes : Str → Bool)
  | reopen (bufferLimit cacheCap : ℕ)
  | crash (stop : CompactStop) (bufferLimit cacheCap : ℕ)

/-- A store opened on a directory, in place of a handle that is gone. -/
def openOutcome (state : State) (files : Files) (bufferLimit cacheCap : ℕ) : Outcome :=
  match HuskStore.open files bufferLimit cacheCap with
  | .ok reopened => (reopened, .ok ())
  | .error e => (state, .error e)

def runEvent (state : State) : Event → Outcome
  | .write key slot => writeSlot state key slot
  | .flush => flush state
  | .get key => ((get state key).1, (get state key).2.map fun _ ↦ ())
  | .compact removes => compact removes state
  | .reopen bufferLimit cacheCap => openOutcome state state.files bufferLimit cacheCap
  | .crash stop bufferLimit cacheCap =>
    openOutcome state (stopFiles state stop) bufferLimit cacheCap

def runHistory : State → List Event → Outcome
  | state, [] => (state, .ok ())
  | state, event :: events =>
    match runEvent state event with
    | (state, .ok ()) => runHistory state events
    | (state, .error e) => (state, .error e)

/-- The records of the merged segment fit the file format. -/
def MergeFits (state : State) : Prop :=
  ∀ contents : Contents, liveEntries state = .ok contents.toList →
    Fits (slotRecords (liveSlots contents))

/-- What an event may write fits the file format, and sequence numbers are left for it. -/
def EventFits (state : State) (event : Event) : Prop :=
  state.store.nextSeq + 1 < 2 ^ 64 ∧
    match event with
    | .write key slot => Fits (slotRecords (state.store.buffer.insert key slot))
    | .compact _ | .crash _ _ _ => MergeFits state
    | .flush | .get _ | .reopen _ _ => True

def HistoryFits : State → List Event → Prop
  | _, [] => True
  | state, event :: events => EventFits state event ∧ HistoryFits (runEvent state event).1 events

/-- A state with the segments of its directory. -/
structure Describes (state : State) (stale held : List Entry) : Prop where
  inv : HandleInv state.files state.store stale held
  cache : CacheAgrees state.cache state.store held

/-- What a handle shows, as a map. -/
def contentsOf (store : HuskStore) (held : List Entry) : Contents :=
  liveOf (flushedHeld store held)

theorem represents_contentsOf (store : HuskStore) (held : List Entry) :
    Represents (contentsOf store held) store held := by
  intro key
  rw [contentsOf, getElem?_liveOf, shown_eq_view_flushedHeld]

theorem Describes.fits_contentsOf {state : State} {stale held : List Entry}
    (hstate : Describes state stale held) (hfits : MergeFits state) :
    Fits (slotRecords (liveSlots (contentsOf state.store held))) :=
  hfits _ (liveEntries_spec hstate.inv (represents_contentsOf state.store held))

theorem describes_openOutcome (state : State) {files : Files} {disk : List Entry}
    (hdir : DirectoryHolds files disk) (bufferLimit cacheCap : ℕ) :
    ∃ reopened, openOutcome state files bufferLimit cacheCap = (reopened, .ok ()) ∧
      Describes reopened [] disk := by
  obtain ⟨reopened, hopen, -, -, hinv, hcache⟩ := open_spec hdir bufferLimit cacheCap
  refine ⟨reopened, ?_, hinv, hcache⟩
  rw [openOutcome, hopen]

/-- An event whose writes fit succeeds and leaves a described state. -/
theorem Describes.runEvent {state : State} {stale held : List Entry}
    (hstate : Describes state stale held) {event : Event} (hfits : EventFits state event) :
    ∃ state' stale' held', runEvent state event = (state', .ok ()) ∧
      Describes state' stale' held' := by
  have hseq : state.store.nextSeq < 2 ^ 64 := Nat.lt_of_succ_lt hfits.1
  cases event with
  | write key slot =>
    rcases writeSlot_spec hstate.inv hseq hfits.2 with hkept | hflushed
    · exact ⟨_, stale, held, hkept.1, hkept.2, hstate.cache.buffered key slot⟩
    · obtain ⟨state', hwrite, hflushed⟩ := hflushed
      exact ⟨state', stale, _, hwrite, hflushed.inv,
        (hstate.cache.buffered key slot).flushed hflushed⟩
  | flush =>
    obtain ⟨state', hflush, hflushed⟩ := flush_spec hstate.inv hseq
    exact ⟨state', stale, _, hflush, hflushed.inv, hstate.cache.flushed hflushed⟩
  | get key =>
    obtain ⟨cache, hget, hcache⟩ :=
      get_spec hstate.inv.segments hstate.inv.holds hstate.cache key
    refine ⟨{ state with cache }, stale, held, ?_, hstate.inv, hcache⟩
    rw [ColdIndex.runEvent, hget]
    rfl
  | compact removes =>
    obtain ⟨state', stale', held', hcompact, hinv, hcache, -⟩ :=
      compact_spec hstate.inv hstate.cache hfits.1 (represents_contentsOf state.store held)
        (hstate.fits_contentsOf hfits.2) removes
    exact ⟨state', stale', held', hcompact, hinv, hcache⟩
  | reopen bufferLimit cacheCap =>
    obtain ⟨reopened, hopen, hdescribes⟩ :=
      describes_openOutcome state hstate.inv.directory bufferLimit cacheCap
    exact ⟨reopened, [], _, hopen, hdescribes⟩
  | crash stop bufferLimit cacheCap =>
    have hdir := directoryHolds_stopDisk hstate.inv hfits.1
      (represents_contentsOf state.store held) (hstate.fits_contentsOf hfits.2) stop
    obtain ⟨reopened, hopen, hdescribes⟩ :=
      describes_openOutcome state hdir bufferLimit cacheCap
    exact ⟨reopened, [], _, hopen, hdescribes⟩

/-- A history whose writes fit succeeds and leaves a described state, in which what follows fits. -/
theorem Describes.runHistory {state : State} {stale held : List Entry}
    (hstate : Describes state stale held) {events more : List Event}
    (hfits : HistoryFits state (events ++ more)) :
    ∃ state' stale' held', runHistory state events = (state', .ok ()) ∧
      Describes state' stale' held' ∧ HistoryFits state' more := by
  induction events generalizing state stale held with
  | nil => exact ⟨state, stale, held, rfl, hstate, hfits⟩
  | cons event events ih =>
    obtain ⟨next, staleNext, heldNext, hevent, hnext⟩ := hstate.runEvent hfits.1
    have hrest := hfits.2
    rw [hevent] at hrest
    rw [ColdIndex.runHistory, hevent]
    exact ih hnext hrest

/-- In every state that a store can reach, opening what a stopped compaction leaves recovers the
store exactly when the stop is safe. -/
theorem compact_stop_recovers_iff (bufferLimit cacheCap : ℕ) (history : List Event)
    (hfits : HistoryFits (initial bufferLimit cacheCap) (history ++ [.compact removeAll])) :
    ∃ state stale held, runHistory (initial bufferLimit cacheCap) history = (state, .ok ()) ∧
      Describes state stale held ∧
      ∀ stop, Recovers state (stopFiles state stop) ↔ SafeStop state.store stale held stop := by
  have hinitial := initial_standsFor bufferLimit cacheCap
  obtain ⟨state, stale, held, hrun, hstate, hmore⟩ :=
    Describes.runHistory ⟨hinitial.inv, hinitial.cache⟩ hfits
  refine ⟨state, stale, held, hrun, hstate, ?_⟩
  intro stop
  exact recovers_iff_safeStop hstate.inv hstate.cache hmore.1.1
    (represents_contentsOf state.store held) (hstate.fits_contentsOf hmore.1.2) stop

theorem slotRecords_liveSlots (contents : Contents) :
    slotRecords (liveSlots contents) =
      contents.toList.map fun pair ↦ (pair.1, encodeValue (some pair.2)) := by
  rw [slotRecords, liveSlots, Std.ExtTreeMap.toList_map, List.map_map]
  rfl

theorem compact_stop_recovers_iff_one_write :
    ∃ state stale held,
      runHistory (initial 8 4) [.write ['a'] (some [7])] = (state, .ok ()) ∧
      Describes state stale held ∧
      ∀ stop, Recovers state (stopFiles state stop) ↔ SafeStop state.store stale held stop := by
  apply compact_stop_recovers_iff 8 4 [.write ['a'] (some [7])]
  refine ⟨⟨by decide, by decide, by decide, by decide, by decide⟩, ⟨by decide, ?_⟩, trivial⟩
  intro contents hlive
  have hpairs : contents.toList = [(['a'], [7])] := (Except.ok.inj hlive).symm
  rw [slotRecords_liveSlots, hpairs]
  exact ⟨by decide, by decide, by decide, by decide⟩

/-! ## A deleted key that comes back -/

/-- The file system refuses to remove the oldest segment only. -/
def keepsOldest : Str → Bool := fun path ↦ path != segName 0

def liveSlot : SlotMap := (∅ : SlotMap).insert ['k'] (some [1])
def deadSlot : SlotMap := (∅ : SlotMap).insert ['k'] none

/-- The store after one write that was flushed at once. -/
def writtenOnce : State where
  files := (∅ : Files).insert (segName 0) (encodeSegment (slotRecords liveSlot))
  cache := (Lru.new 0).remove ['k']
  store := { buffer := ∅, bufferLimit := 1, segments := [segmentOf (0, liveSlot)], nextSeq := 1 }

/-- The store after a write and a delete of one key, each flushed at once. -/
def writtenThenDeleted : State where
  files := writtenOnce.files.insert (segName 1) (encodeSegment (slotRecords deadSlot))
  cache := writtenOnce.cache.remove ['k']
  store := {
    buffer := ∅
    bufferLimit := 1
    segments := [segmentOf (0, liveSlot), segmentOf (1, deadSlot)]
    nextSeq := 2 }

theorem fits_liveSlot : Fits (slotRecords liveSlot) :=
  ⟨by decide, by decide, by decide, by decide⟩

theorem fits_deadSlot : Fits (slotRecords deadSlot) :=
  ⟨by decide, by decide, by decide, by decide⟩

theorem runHistory_writtenThenDeleted :
    runHistory (initial 1 0) [.write ['k'] (some [1]), .write ['k'] none] =
      (writtenThenDeleted, .ok ()) := by
  have hfirst : runEvent (initial 1 0) (.write ['k'] (some [1])) = (writtenOnce, .ok ()) :=
    @flush_eq (buffered (initial 1 0) ['k'] (some [1])) _ (by decide) (open_insert _ _ fits_liveSlot)
  have hsecond : runEvent writtenOnce (.write ['k'] none) = (writtenThenDeleted, .ok ()) :=
    @flush_eq (buffered writtenOnce ['k'] none) _ (by decide) (open_insert _ _ fits_deadSlot)
  rw [runHistory, hfirst]
  change (match runEvent writtenOnce (.write ['k'] none) with
    | (state, .ok ()) => runHistory state []
    | (state, .error e) => (state, .error e)) = _
  rw [hsecond]
  rfl

theorem writtenThenDeleted_describes :
    Describes writtenThenDeleted [] [(0, liveSlot), (1, deadSlot)] where
  inv := by
    refine ⟨?_, ?_, rfl, fits_empty⟩
    · have hfirst : DirectoryHolds writtenOnce.files [(0, liveSlot)] :=
        DirectoryHolds.empty.insert (by decide) (by simp) fits_liveSlot
      exact hfirst.insert (by decide) (by simp) fits_deadSlot
    · intro entry hentry
      rcases List.mem_cons.mp hentry with rfl | hsecond
      · decide
      · rw [List.mem_singleton.mp hsecond]
        decide
  cache := by
    intro key cached hcached
    have hold := (Lru.remove_map (Lru.remove_map hcached).2).2
    simp [Lru.new] at hold

/-- A compaction that keeps the oldest file and loses the tombstone's file brings the deleted key
back. -/
theorem not_all_stops_recover : ¬ ∀ (history : List Event) (state : State) (stop : CompactStop),
    runHistory (initial 1 0) history = (state, .ok ()) → Recovers state (stopFiles state stop) := by
  intro hall
  have hstate := writtenThenDeleted_describes
  have hrecovers := hall _ _ (.merged keepsOldest) runHistory_writtenThenDeleted
  have hcontents : contentsOf writtenThenDeleted.store [(0, liveSlot), (1, deadSlot)] = ∅ := by
    decide
  rw [recovers_iff_safeStop hstate.inv hstate.cache (by decide) (represents_contentsOf _ _)
    (by rw [hcontents]; exact ⟨by decide, by decide, by decide, by decide⟩)] at hrecovers
  have hshadowed := hrecovers ['k'] rfl
  obtain ⟨above, habove, -⟩ := hshadowed [] (0, liveSlot) [] [1] rfl rfl
  exact absurd habove (by simp)

end SoulSystem.Ccos.ColdIndex
