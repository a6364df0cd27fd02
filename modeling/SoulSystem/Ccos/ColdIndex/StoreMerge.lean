import SoulSystem.Ccos.ColdIndex.StoreInvariant

/-!
# Compaction and enumeration

`compact` replaces the held segments by one segment of their live entries, `live_entries` and
`scan_prefix` enumerate what the handle shows.  Both are stated against a map whose entries are the
shown values.
-/

namespace SoulSystem.Ccos.ColdIndex

open Library Library.LayeredMap Library.ByteCursor Std.ExtTreeMap

theorem getElem?_liveSlots (live : Std.ExtTreeMap Str Bytes) (key : Str) :
    (liveSlots live)[key]? = live[key]?.map some :=
  getElem?_map

/-- The segment that a compaction adds for the live entries. -/
def mergedEntries (nextSeq : ℕ) (live : Std.ExtTreeMap Str Bytes) : List Entry :=
  if live.isEmpty then [] else [(nextSeq, liveSlots live)]

theorem lookup_mergedEntries (nextSeq : ℕ) (live : Std.ExtTreeMap Str Bytes) (key : Str) :
    lookup (layersOf (mergedEntries nextSeq live)) key = live[key]?.map some := by
  rw [mergedEntries]
  split
  · rename_i hempty
    rw [Std.ExtTreeMap.isEmpty_iff.mp hempty]
    simp
  · rw [layersOf_cons, layersOf_nil, lookup, lookup_nil, Option.none_or, slotLayer,
      getElem?_liveSlots]

theorem view_mergedEntries (nextSeq : ℕ) (live : Std.ExtTreeMap Str Bytes) (key : Str) :
    view (layersOf (mergedEntries nextSeq live)) key = live[key]? := by
  rw [view, lookup_mergedEntries]
  cases live[key]? with
  | none => rfl
  | some value => rfl

/-- `shown` as a map. -/
def Represents (contents : Std.ExtTreeMap Str Bytes) (store : HuskStore) (held : List Entry) : Prop :=
  ∀ key : Str, contents[key]? = shown store held key

/-! ## Compaction -/

section Merge

variable {state : State} {stale held : List Entry} {live : Std.ExtTreeMap Str Bytes}

/-- The paths that a compaction removes. -/
def heldPaths (held : List Entry) : List Str :=
  held.map fun entry ↦ segName entry.1

theorem path_segmentOf (held : List Entry) : (held.map segmentOf).map Segment.path = heldPaths held := by
  rw [List.map_map]
  rfl

theorem writeMerged_spec (hinv : HandleInv state.files state.store stale held)
    (hseq : state.store.nextSeq < 2 ^ 64) (hfits : Fits (slotRecords (liveSlots live))) :
    ∃ files nextSeq, writeMerged state live =
        (files, .ok ((mergedEntries state.store.nextSeq live).map segmentOf, nextSeq)) ∧
      nextSeq ≤ state.store.nextSeq + 1 ∧
      DirectoryHolds files (stale ++ held ++ mergedEntries state.store.nextSeq live) ∧
      ∀ entry ∈ stale ++ held ++ mergedEntries state.store.nextSeq live, entry.1 < nextSeq := by
  rw [writeMerged, mergedEntries]
  by_cases hempty : live.isEmpty
  · rw [if_pos hempty, if_pos hempty, List.append_nil]
    exact ⟨_, _, rfl, Nat.le_succ _, hinv.directory, hinv.below⟩
  · have hdir := hinv.directory.insert hseq hinv.below hfits
    simp only [if_neg hempty, writeSegment, if_pos (ascending_slotRecords (liveSlots live)),
      open_insert state.files state.store.nextSeq hfits]
    refine ⟨_, _, rfl, le_refl _, hdir, ?_⟩
    intro entry hentry
    rcases List.mem_append.mp hentry with hold | hnew
    · exact (hinv.below entry hold).trans (Nat.lt_succ_self _)
    · rw [List.mem_singleton.mp hnew]
      exact Nat.lt_succ_self _

/-- The merged segment is none of the files that a compaction removes. -/
theorem survivors_mergedEntries (hinv : HandleInv state.files state.store stale held)
    (hseq : state.store.nextSeq < 2 ^ 64) (removes : Str → Bool) :
    survivors removes (heldPaths held) (mergedEntries state.store.nextSeq live) =
      mergedEntries state.store.nextSeq live := by
  apply List.filter_eq_self.mpr
  intro entry hentry
  have hnew : entry.1 = state.store.nextSeq := by
    rw [mergedEntries] at hentry
    split at hentry
    · simp at hentry
    · rw [List.mem_singleton.mp hentry]
  have hfresh : segName entry.1 ∉ heldPaths held := by
    intro hmem
    obtain ⟨old, hold, hname⟩ := List.mem_map.mp hmem
    have hbelow := hinv.below old (List.mem_append_right _ hold)
    have hsame := segName_injOn (hinv.directory.bound old (List.mem_append_right _ hold))
      (by omega) hname
    omega
  simp [hfresh]

/-- Stale files are none of the files that a compaction removes. -/
theorem survivors_stale (hinv : HandleInv state.files state.store stale held)
    (removes : Str → Bool) : survivors removes (heldPaths held) stale = stale := by
  apply List.filter_eq_self.mpr
  intro entry hentry
  have hfresh : segName entry.1 ∉ heldPaths held := by
    intro hmem
    obtain ⟨old, hold, hname⟩ := List.mem_map.mp hmem
    have hbelow := (List.pairwise_append.mp hinv.directory.ascending).2.2 entry hentry old hold
    have hsame := segName_injOn (hinv.directory.bound old (List.mem_append_right _ hold))
      (hinv.directory.bound entry (List.mem_append_left _ hentry)) hname
    omega
  simp [hfresh]

theorem survivors_append (removes : Str → Bool) (paths : List Str) (older newer : List Entry) :
    survivors removes paths (older ++ newer) =
      survivors removes paths older ++ survivors removes paths newer :=
  List.filter_append _ _

/-- What a merge leaves: the survivors of the old segments become stale, and the handle reads the
merged one. -/
theorem mergeSegments_spec (hinv : HandleInv state.files state.store stale held)
    (hseq : state.store.nextSeq < 2 ^ 64) (hbuffer : state.store.buffer = ∅)
    (hrepresents : Represents live state.store held) (hfits : Fits (slotRecords (liveSlots live)))
    (hmany : 2 ≤ held.length) (removes : Str → Bool) :
    ∃ state', mergeSegments removes state = (state', .ok ()) ∧ state'.cache = state.cache ∧
      state'.store.buffer = ∅ ∧ state'.store.nextSeq ≤ state.store.nextSeq + 1 ∧
      HandleInv state'.files state'.store (stale ++ survivors removes (heldPaths held) held)
        (mergedEntries state.store.nextSeq live) := by
  have hlength : ¬ state.store.segments.length < 2 := by
    rw [hinv.segments, List.length_map]
    omega
  have hlive : liveOf held = live := by
    apply ext_getElem?
    intro key
    have hnone : state.store.buffer[key]? = none := by simp [hbuffer]
    rw [getElem?_liveOf, hrepresents, shown_of_buffer_eq_none hnone]
  obtain ⟨files, nextSeq, hwrite, hnext, hdir, hbelow⟩ := writeMerged_spec hinv hseq hfits
  have hremoved := hdir.removeFiles removes (heldPaths held)
  rw [survivors_append, survivors_append, survivors_stale hinv,
    survivors_mergedEntries hinv hseq] at hremoved
  rw [mergeSegments, if_neg hlength, hinv.segments, mergedLive_eq hinv.holds, hlive]
  simp only [hwrite, path_segmentOf]
  refine ⟨_, rfl, rfl, hbuffer, hnext, hremoved, ?_, rfl, ?_⟩
  · intro entry hentry
    apply hbelow
    rcases List.mem_append.mp hentry with hold | hnew
    · rcases List.mem_append.mp hold with hstale | hkept
      · exact List.mem_append_left _ (List.mem_append_left _ hstale)
      · exact List.mem_append_left _ (List.mem_append_right _ (List.mem_filter.mp hkept).1)
    · exact List.mem_append_right _ hnew
  · change Fits (slotRecords state.store.buffer)
    rw [hbuffer]
    exact fits_empty

theorem mergeSegments_few (hinv : HandleInv state.files state.store stale held)
    (hfew : held.length < 2) (removes : Str → Bool) :
    mergeSegments removes state = (state, .ok ()) := by
  rw [mergeSegments, if_pos]
  rw [hinv.segments, List.length_map]
  exact hfew

end Merge

/-- A compaction keeps what the handle shows; when every removal succeeds it leaves no
file stale. -/
theorem compact_spec {state : State} {stale held : List Entry}
    {contents : Std.ExtTreeMap Str Bytes} (hinv : HandleInv state.files state.store stale held)
    (hcache : CacheAgrees state.cache state.store held) (hseq : state.store.nextSeq + 1 < 2 ^ 64)
    (hrepresents : Represents contents state.store held)
    (hfits : Fits (slotRecords (liveSlots contents))) (removes : Str → Bool) :
    ∃ state' stale' held', compact removes state = (state', .ok ()) ∧
      HandleInv state'.files state'.store stale' held' ∧
      CacheAgrees state'.cache state'.store held' ∧ Represents contents state'.store held' ∧
      state'.store.buffer = ∅ ∧ state'.store.nextSeq ≤ state.store.nextSeq + 2 ∧
      ((∀ path, removes path) → stale' = stale) := by
  obtain ⟨flushed, hflush, hflushed⟩ := flush_spec hinv (by omega)
  have hshown := hflushed.shown_eq
  have hflushedRep : Represents contents flushed.store (held ++ flushedEntries state.store) :=
    fun key ↦ (hrepresents key).trans (hshown key).symm
  rw [compact, hflush]
  by_cases hfew : (held ++ flushedEntries state.store).length < 2
  · refine ⟨flushed, stale, _, mergeSegments_few hflushed.inv hfew removes, hflushed.inv,
      hcache.flushed hflushed, hflushedRep, hflushed.buffer, hflushed.nextSeq.trans (Nat.le_succ _),
      fun _ ↦ rfl⟩
  · have hnext : flushed.store.nextSeq < 2 ^ 64 := hflushed.nextSeq.trans_lt hseq
    obtain ⟨state', hmerge, hcacheEq, hbuffer, hnext', hinv'⟩ :=
      mergeSegments_spec hflushed.inv hnext hflushed.buffer hflushedRep hfits (by omega) removes
    have hrep' : Represents contents state'.store (mergedEntries flushed.store.nextSeq contents) := by
      intro key
      have hnone : state'.store.buffer[key]? = none := by simp [hbuffer]
      rw [shown_of_buffer_eq_none hnone, view_mergedEntries]
    have hbound : state'.store.nextSeq ≤ state.store.nextSeq + 2 :=
      hnext'.trans (Nat.succ_le_succ hflushed.nextSeq)
    refine ⟨state', _, _, hmerge, hinv', ?_, hrep', hbuffer, hbound, ?_⟩
    · intro key cached hcached
      rw [← hrep' key, hrepresents key]
      rw [hcacheEq, hflushed.cache] at hcached
      exact hcache key cached hcached
    · intro hall
      have hnone : survivors removes (heldPaths (held ++ flushedEntries state.store))
          (held ++ flushedEntries state.store) = [] := by
        apply List.filter_eq_nil_iff.mpr
        intro entry hentry
        have hmem : segName entry.1 ∈ heldPaths (held ++ flushedEntries state.store) :=
          List.mem_map_of_mem hentry
        simp [hmem, hall]
      rw [hnone, List.append_nil]

/-! ## Enumeration -/

theorem livePairs_eq_toList {merged : SlotMap} {contents : Std.ExtTreeMap Str Bytes}
    (hmerged : ∀ key : Str, contents[key]? = merged[key]?.join) :
    livePairs merged = contents.toList := by
  have hcontents : merged.filterMap (fun _ slot ↦ slot) = contents := by
    apply ext_getElem?
    intro key
    rw [getElem?_filterMap', hmerged]
    cases merged[key]? with
    | none => rfl
    | some slot => rfl
  rw [← hcontents, toList_filterMap, livePairs]

/-- The merge of a replay with the buffer on top. -/
theorem getElem?_merged (pairsOf : SlotMap → List (Str × Option Bytes))
    (hsorted : ∀ slots, Ascending (pairsOf slots)) (entries : List Entry) (buffer : SlotMap)
    (key : Str) :
    ((pairsOf buffer).foldl (fun merged pair ↦ merged.insert pair.1 pair.2)
        (entries.foldl (fun acc entry ↦ (pairsOf entry.2).foldl (fun acc pair ↦
          acc.insert pair.1 pair.2) acc) (∅ : SlotMap)))[key]? =
      lookup ((entries.map fun entry key ↦ (pairsOf entry.2).lookup key) ++
        [fun key ↦ (pairsOf buffer).lookup key]) key := by
  rw [getElem?_foldl_insert (hsorted buffer),
    getElem?_foldl_layers (fun entry ↦ pairsOf entry.2) (fun entry ↦ hsorted entry.2), lookup_concat]
  simp

theorem liveEntries_spec {state : State} {stale held : List Entry}
    {contents : Std.ExtTreeMap Str Bytes} (hinv : HandleInv state.files state.store stale held)
    (hrepresents : Represents contents state.store held) :
    liveEntries state = .ok contents.toList := by
  have hreplay := replay_eq_foldl (fun segment ↦ segment.records state.files)
    (fun (merged : SlotMap) key slot ↦ merged.insert key slot) (fun entry ↦ entry.2.toList) held ∅
    fun entry hentry ↦ records_segmentOf (hinv.holds entry hentry)
  rw [liveEntries, hinv.segments, hreplay, ok_bind]
  refine congrArg Except.ok ?_
  apply livePairs_eq_toList
  intro key
  rw [getElem?_merged (fun slots ↦ slots.toList) fun slots ↦ ascending_toList slots]
  simp only [lookup_toList]
  exact hrepresents key

/-- A sorted list cut to the keys that start with a string. -/
theorem takeWhile_dropWhile_prefix {α : Type} {pairs : List (Str × α)} (hsorted : Ascending pairs)
    (start : Str) :
    ((pairs.dropWhile fun pair ↦ compare pair.1 start == .lt).takeWhile fun pair ↦
      start.isPrefixOf pair.1) = pairs.filter fun pair ↦ start.isPrefixOf pair.1 := by
  have hnone {rest : List (Str × α)} (hall : ∀ pair ∈ rest, ¬ start <+: pair.1) :
      rest.filter (fun pair ↦ start.isPrefixOf pair.1) = [] := by
    apply List.filter_eq_nil_iff.mpr
    intro pair hpair hstart
    exact hall pair hpair (List.isPrefixOf_iff_prefix.mp hstart)
  have htake {rest : List (Str × α)} (hrest : Ascending rest)
      (hreached : ∀ pair ∈ rest, compare pair.1 start ≠ .lt) :
      rest.takeWhile (fun pair ↦ start.isPrefixOf pair.1) =
        rest.filter fun pair ↦ start.isPrefixOf pair.1 := by
    induction rest with
    | nil => rfl
    | cons pair rest ih =>
      have htail := ih (hrest.drop 1) fun p hp ↦ hreached p (List.mem_cons_of_mem _ hp)
      by_cases hstart : start <+: pair.1
      · have htrue : start.isPrefixOf pair.1 := List.isPrefixOf_iff_prefix.mpr hstart
        rw [List.takeWhile_cons, List.filter_cons, if_pos htrue, if_pos htrue, htail]
      · have hfalse : ¬ start.isPrefixOf pair.1 :=
          fun h ↦ hstart (List.isPrefixOf_iff_prefix.mp h)
        rw [List.takeWhile_cons, List.filter_cons, if_neg hfalse, if_neg hfalse, hnone]
        intro later hlater
        exact Str.not_prefix_of_compare_lt (hreached pair List.mem_cons_self) hstart
          (List.rel_of_pairwise_cons hrest.pairwise hlater)
  induction pairs with
  | nil => rfl
  | cons pair pairs ih =>
    by_cases hlt : compare pair.1 start = .lt
    · have hfalse : ¬ start.isPrefixOf pair.1 :=
        fun h ↦ not_prefix_of_lt hlt (List.isPrefixOf_iff_prefix.mp h)
      rw [List.dropWhile_cons_of_pos (by simp [hlt]), List.filter_cons, if_neg hfalse]
      exact ih (hsorted.drop 1)
    · rw [List.dropWhile_cons_of_neg (by simp [hlt])]
      apply htake hsorted
      intro later hlater hlaterLt
      rcases List.mem_cons.mp hlater with rfl | htail
      · exact hlt hlaterLt
      · exact hlt (Std.TransCmp.lt_trans (List.rel_of_pairwise_cons hsorted.pairwise htail) hlaterLt)

theorem lookup_filter_key {α : Type} (test : Str → Bool) (pairs : List (Str × α)) (key : Str) :
    (pairs.filter fun pair ↦ test pair.1).lookup key = if test key then pairs.lookup key else none := by
  induction pairs with
  | nil => simp
  | cons pair pairs ih =>
    obtain ⟨first, value⟩ := pair
    rw [List.filter_cons, List.lookup_cons]
    by_cases hkey : key = first
    · subst hkey
      cases htest : test key with
      | true => simp
      | false => simp [ih, htest]
    · cases htest : test first with
      | true => simp [List.lookup_cons, beq_false_of_ne hkey, ih]
      | false => simp [beq_false_of_ne hkey, ih]

theorem ascending_filter {α : Type} {pairs : List (Str × α)} (hsorted : Ascending pairs)
    (test : Str × α → Bool) : Ascending (pairs.filter test) :=
  (hsorted.pairwise.filter test).isChain

theorem lookup_guard {K V : Type} (test : K → Bool) (layers : List (Layer K V)) (key : K) :
    lookup (layers.map fun layer key ↦ if test key then layer key else none) key =
      if test key then lookup layers key else none := by
  induction layers with
  | nil => simp
  | cons layer layers ih =>
    rw [List.map_cons, lookup, lookup, ih]
    cases test key with
    | true => rfl
    | false => rfl

theorem scanPrefix_spec {state : State} {stale held : List Entry}
    {contents : Std.ExtTreeMap Str Bytes} (hinv : HandleInv state.files state.store stale held)
    (hrepresents : Represents contents state.store held) (start : Str) :
    scanPrefix state start = .ok (contents.toList.filter fun pair ↦ start.isPrefixOf pair.1) := by
  have hread (entry : Entry) (hentry : entry ∈ held) :
      (segmentOf entry).scanPrefix state.files start =
        .ok ((entry.2.toList.filter fun pair ↦ start.isPrefixOf pair.1).map fun pair ↦
          (pair.1, encodeValue pair.2)) := by
    rw [scanPrefix_segmentOf (hinv.holds entry hentry)]
    simp only [← List.isPrefixOf_iff_prefix, Bool.decide_eq_true]
  have hreplay := replay_eq_foldl (fun segment ↦ segment.scanPrefix state.files start)
    (fun (merged : SlotMap) key slot ↦ merged.insert key slot)
    (fun entry ↦ entry.2.toList.filter fun pair ↦ start.isPrefixOf pair.1) held ∅ hread
  have hpairs : contents.toList.filter (fun pair ↦ start.isPrefixOf pair.1) =
      (contents.filter fun key _ ↦ start.isPrefixOf key).toList := by
    rw [toList_filter]
  rw [scanPrefix, hinv.segments, hreplay, ok_bind,
    takeWhile_dropWhile_prefix (ascending_toList state.store.buffer), hpairs]
  refine congrArg Except.ok ?_
  apply livePairs_eq_toList
  intro key
  rw [getElem?_merged (fun slots ↦ slots.toList.filter fun pair ↦ start.isPrefixOf pair.1)
    fun slots ↦ ascending_filter (ascending_toList slots) _]
  simp only [lookup_filter_key, lookup_toList]
  have hguard := lookup_guard (fun key ↦ start.isPrefixOf key)
    (layersOf held ++ [slotLayer state.store.buffer]) key
  rw [List.map_append, List.map_singleton, layersOf, List.map_map] at hguard
  rw [getElem?_filter', hrepresents, shown, view]
  refine Eq.trans ?_ (congrArg Option.join hguard).symm
  change _ = (if start.isPrefixOf key then
    lookup (layersOf held ++ [slotLayer state.store.buffer]) key else none).join
  cases hstart : start.isPrefixOf key with
  | true =>
    rw [if_pos rfl]
    cases (lookup (layersOf held ++ [slotLayer state.store.buffer]) key).join with
    | none => rfl
    | some value => rfl
  | false => simp

end SoulSystem.Ccos.ColdIndex
