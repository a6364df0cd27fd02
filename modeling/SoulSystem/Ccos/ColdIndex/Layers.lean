import SoulSystem.Library.LayeredMap
import SoulSystem.Ccos.ColdIndex.SegmentSpec
import SoulSystem.Ccos.ColdIndex.HuskStore

/-!
# Segments as layers and the directory of a store

Every segment file of a store comes from a sorted map of slots, so a list of segments is a stack of
layers.  Reading a key through the segments is the lookup in that stack, and the replays behind
`compact`, `live_entries` and `scan_prefix` compute its merge.

A directory holds a list of segments when its segment files are exactly the files of that list.
Names that carry no sequence number, such as the temporary file of an interrupted write, do not
count.  Writing under a fresh number extends the list, removing files filters it, and opening the
directory finds the list again in the order of the sequence numbers.
-/

namespace SoulSystem.Ccos.ColdIndex

open Library Library.LayeredMap Std.ExtTreeMap

/-! ## Slot maps as records -/

theorem decodeValue_encodeValue (slot : Option Bytes) : decodeValue (encodeValue slot) = some slot := by
  cases slot with
  | none => rfl
  | some value => rfl

theorem ascending_toList {α : Type} (slots : Std.ExtTreeMap Str α) : Ascending slots.toList :=
  slots.ordered_keys_toList.isChain

theorem ascending_slotRecords (slots : SlotMap) : Ascending (slotRecords slots) := by
  apply List.Pairwise.isChain
  apply List.pairwise_map.mpr
  exact slots.ordered_keys_toList

/-- In a list with ascending keys a pair is found under its key. -/
theorem lookup_eq_some_iff_mem {α : Type} {pairs : List (Str × α)} (hsorted : Ascending pairs)
    {key : Str} {value : α} : pairs.lookup key = some value ↔ (key, value) ∈ pairs := by
  induction pairs with
  | nil => simp
  | cons pair pairs ih =>
    have htail := ih (hsorted.drop 1)
    have hlater : (key, value) ∈ pairs → key ≠ pair.1 := by
      intro hmem heq
      have hlt : compare pair.1 key = .lt := List.rel_of_pairwise_cons hsorted.pairwise hmem
      exact Str.ne_of_compare_lt hlt heq.symm
    rw [List.lookup_cons, List.mem_cons]
    by_cases hkey : key = pair.1
    · subst hkey
      simp only [beq_self_eq_true, Option.some.injEq]
      refine ⟨fun heq ↦ .inl (by rw [← heq]), ?_⟩
      intro hmem
      rcases hmem with heq | hpairs
      · rw [← heq]
      · exact absurd rfl (hlater hpairs)
    · simp only [beq_false_of_ne hkey, htail]
      refine ⟨.inr, ?_⟩
      intro hmem
      rcases hmem with heq | hpairs
      · exact absurd (congrArg Prod.fst heq) hkey
      · exact hpairs

theorem lookup_toList {α : Type} (slots : Std.ExtTreeMap Str α) (key : Str) :
    slots.toList.lookup key = slots[key]? := by
  apply Option.ext
  intro value
  rw [lookup_eq_some_iff_mem (ascending_toList slots),
    mem_toList_iff_getElem?_eq_some]

theorem lookup_map_snd {α β : Type} (f : α → β) (pairs : List (Str × α)) (key : Str) :
    (pairs.map fun pair ↦ (pair.1, f pair.2)).lookup key = (pairs.lookup key).map f := by
  induction pairs with
  | nil => rfl
  | cons pair pairs ih =>
    rw [List.map_cons, List.lookup_cons, List.lookup_cons, ih]
    cases key == pair.1 with
    | true => rfl
    | false => rfl

theorem lookup_slotRecords (slots : SlotMap) (key : Str) :
    (slotRecords slots).lookup key = slots[key]?.map encodeValue := by
  rw [slotRecords, lookup_map_snd, lookup_toList]

theorem applyRecords_encode {σ : Type} (apply : σ → Str → Option Bytes → σ) (acc : σ)
    (pairs : List (Str × Option Bytes)) :
    applyRecords apply acc (pairs.map fun pair ↦ (pair.1, encodeValue pair.2)) =
      pairs.foldl (fun acc pair ↦ apply acc pair.1 pair.2) acc := by
  rw [applyRecords, List.foldl_map]
  simp only [decodeValue_encodeValue]

/-! ## Merging pairs into a map -/

theorem getElem?_foldl_insert {α : Type} {pairs : List (Str × α)} (hsorted : Ascending pairs)
    (acc : Std.ExtTreeMap Str α) (key : Str) :
    (pairs.foldl (fun acc pair ↦ acc.insert pair.1 pair.2) acc)[key]? =
      (pairs.lookup key).or acc[key]? := by
  induction pairs generalizing acc with
  | nil => simp
  | cons pair pairs ih =>
    have htail := ih (hsorted.drop 1) (acc.insert pair.1 pair.2)
    rw [List.foldl_cons, htail, getElem?_insert, List.lookup_cons]
    by_cases hkey : key = pair.1
    · subst hkey
      have habsent : pairs.lookup pair.1 = none := by
        apply List.lookup_eq_none_iff.mpr
        intro later hlater
        have hlt : compare pair.1 later.1 = .lt :=
          List.rel_of_pairwise_cons hsorted.pairwise hlater
        exact bne_iff_ne.mpr (Str.ne_of_compare_lt hlt)
      simp [habsent]
    · have hne : compare pair.1 key ≠ .eq := by
        intro heq
        exact hkey (Std.LawfulEqCmp.eq_of_compare heq).symm
      rw [if_neg hne, beq_false_of_ne hkey]

/-- Replaying slots with tombstones that remove: what stays is the slot of the newest layer. -/
theorem getElem?_foldl_applyLive {pairs : List (Str × Option Bytes)} (hsorted : Ascending pairs)
    (acc : Std.ExtTreeMap Str Bytes) (key : Str) :
    (pairs.foldl (fun acc pair ↦ applyLive acc pair.1 pair.2) acc)[key]? =
      ((pairs.lookup key).or (acc[key]?.map some)).join := by
  induction pairs generalizing acc with
  | nil =>
    cases hacc : acc[key]? with
    | none => simp [hacc]
    | some value => simp [hacc]
  | cons pair pairs ih =>
    have htail := ih (hsorted.drop 1) (applyLive acc pair.1 pair.2)
    rw [List.foldl_cons, htail, List.lookup_cons]
    by_cases hkey : key = pair.1
    · have habsent : pairs.lookup key = none := by
        apply List.lookup_eq_none_iff.mpr
        intro later hlater
        have hlt : compare pair.1 later.1 = .lt :=
          List.rel_of_pairwise_cons hsorted.pairwise hlater
        rw [hkey]
        exact bne_iff_ne.mpr (Str.ne_of_compare_lt hlt)
      rw [habsent, hkey, beq_self_eq_true]
      cases hslot : pair.2 with
      | none => simp [applyLive]
      | some value => simp [applyLive]
    · have hne : compare pair.1 key ≠ .eq := by
        intro heq
        exact hkey (Std.LawfulEqCmp.eq_of_compare heq).symm
      have hsame : (applyLive acc pair.1 pair.2)[key]? = acc[key]? := by
        cases pair.2 with
        | none => rw [applyLive, getElem?_erase, if_neg hne]
        | some value => rw [applyLive, getElem?_insert, if_neg hne]
      rw [hsame, beq_false_of_ne hkey]

/-! ## Segments of a directory -/

/-- A segment by its sequence number and its slots. -/
abbrev Entry := ℕ × SlotMap

def segmentOf (entry : Entry) : Segment :=
  opened (segName entry.1) (slotRecords entry.2)

/-- The directory holds the file of a segment, and its records fit the format. -/
structure Holds (files : Files) (entry : Entry) : Prop where
  file : files[segName entry.1]? = some (encodeSegment (slotRecords entry.2))
  fits : Fits (slotRecords entry.2)

def slotLayer (slots : SlotMap) : Layer Str Bytes := fun key ↦ slots[key]?

def layersOf (entries : List Entry) : List (Layer Str Bytes) :=
  entries.map fun entry ↦ slotLayer entry.2

@[simp] theorem layersOf_nil : layersOf [] = [] := rfl

@[simp] theorem layersOf_cons (entry : Entry) (entries : List Entry) :
    layersOf (entry :: entries) = slotLayer entry.2 :: layersOf entries := rfl

@[simp] theorem layersOf_append (older newer : List Entry) :
    layersOf (older ++ newer) = layersOf older ++ layersOf newer :=
  List.map_append

theorem open_segmentOf {files : Files} {entry : Entry} (hholds : Holds files entry) :
    Segment.open files (segName entry.1) = .ok (segmentOf entry) :=
  open_encodeSegment hholds.fits.key hholds.fits.count hholds.fits.offset hholds.file

/-- Reading a key through the segments, newest first, is the view of their layers. -/
theorem getSegments_eq_view {files : Files} {entries : List Entry}
    (hholds : ∀ entry ∈ entries, Holds files entry) (key : Str) :
    getSegments files key (entries.map segmentOf).reverse = .ok (view (layersOf entries) key) := by
  induction entries using List.reverseRecOn with
  | nil => rfl
  | append_singleton entries entry ih =>
    have holder := ih fun e he ↦ hholds e (List.mem_append_left _ he)
    have hentry := hholds entry (List.mem_append_right _ List.mem_cons_self)
    have hget : (segmentOf entry).get files key = .ok (entry.2[key]?.map encodeValue) := by
      rw [segmentOf, get_opened (ascending_slotRecords entry.2) hentry.fits hentry.file,
        lookup_slotRecords]
    rw [List.map_append, List.map_singleton, List.reverse_concat, getSegments, hget,
      layersOf_append]
    cases hslot : entry.2[key]? with
    | none =>
      have hview : view (layersOf entries ++ [slotLayer entry.2]) key =
          view (layersOf entries) key :=
        view_concat_of_eq_none hslot
      simp only [Option.map_none]
      rw [layersOf_cons, layersOf_nil, hview]
      exact holder
    | some slot =>
      have hview : view (layersOf entries ++ [slotLayer entry.2]) key = slot :=
        view_concat_of_eq_some hslot
      simp only [Option.map_some, decodeValue_encodeValue, Option.join_some]
      rw [layersOf_cons, layersOf_nil, hview]

/-! ## Replays -/

/-- A replay folds over the pairs that are read of each segment. -/
theorem replay_eq_foldl {σ : Type} (read : Segment → Except IoError (List Record))
    (apply : σ → Str → Option Bytes → σ) (pairsOf : Entry → List (Str × Option Bytes))
    (entries : List Entry) (acc : σ)
    (hread : ∀ entry ∈ entries, read (segmentOf entry) =
      .ok ((pairsOf entry).map fun pair ↦ (pair.1, encodeValue pair.2))) :
    replay read apply (entries.map segmentOf) acc = .ok (entries.foldl (fun acc entry ↦
      (pairsOf entry).foldl (fun acc pair ↦ apply acc pair.1 pair.2) acc) acc) := by
  induction entries generalizing acc with
  | nil => rfl
  | cons entry entries ih =>
    have htail := ih ((pairsOf entry).foldl (fun acc pair ↦ apply acc pair.1 pair.2) acc)
      fun e he ↦ hread e (List.mem_cons_of_mem _ he)
    rw [List.map_cons, replay, hread entry List.mem_cons_self]
    simp only [applyRecords_encode]
    exact htail

theorem records_segmentOf {files : Files} {entry : Entry} (hholds : Holds files entry) :
    (segmentOf entry).records files =
      .ok (entry.2.toList.map fun pair ↦ (pair.1, encodeValue pair.2)) :=
  records_opened hholds.fits hholds.file

theorem scanPrefix_segmentOf {files : Files} {entry : Entry} (hholds : Holds files entry)
    (start : Str) :
    (segmentOf entry).scanPrefix files start =
      .ok ((entry.2.toList.filter fun pair ↦ start <+: pair.1).map fun pair ↦
        (pair.1, encodeValue pair.2)) := by
  rw [segmentOf, scanPrefix_opened (ascending_slotRecords entry.2) hholds.fits hholds.file,
    slotRecords, List.filter_map]
  rfl

/-- Merging layers by insertion gives the lookup in the stack. -/
theorem getElem?_foldl_layers (pairsOf : Entry → List (Str × Option Bytes))
    (hsorted : ∀ entry, Ascending (pairsOf entry)) (entries : List Entry) (acc : SlotMap) (key : Str) :
    (entries.foldl (fun acc entry ↦
        (pairsOf entry).foldl (fun acc pair ↦ acc.insert pair.1 pair.2) acc) acc)[key]? =
      (lookup (entries.map fun entry key ↦ (pairsOf entry).lookup key) key).or acc[key]? := by
  induction entries generalizing acc with
  | nil => simp
  | cons entry entries ih =>
    rw [List.foldl_cons, ih, getElem?_foldl_insert (hsorted entry), List.map_cons, lookup,
      Option.or_assoc]

/-- Replaying layers with tombstones that remove gives the view of the stack. -/
theorem getElem?_foldl_live (entries : List Entry) (acc : Std.ExtTreeMap Str Bytes) (key : Str) :
    (entries.foldl (fun acc entry ↦
        entry.2.toList.foldl (fun acc pair ↦ applyLive acc pair.1 pair.2) acc) acc)[key]? =
      ((lookup (layersOf entries) key).or (acc[key]?.map some)).join := by
  induction entries generalizing acc with
  | nil =>
    cases hacc : acc[key]? with
    | none => simp [hacc]
    | some value => simp [hacc]
  | cons entry entries ih =>
    have htail := ih (entry.2.toList.foldl (fun acc pair ↦ applyLive acc pair.1 pair.2) acc)
    rw [List.foldl_cons, htail, getElem?_foldl_applyLive (ascending_toList entry.2),
      lookup_toList, layersOf_cons, lookup]
    cases lookup (layersOf entries) key with
    | some slot => simp
    | none =>
      change (_ : Option Bytes) = ((entry.2[key]?).or (acc[key]?.map some)).join
      cases hjoin : ((entry.2[key]?).or (acc[key]?.map some)).join with
      | none => simp
      | some value => simp

/-- The view of a stack as a map. -/
def liveOf (entries : List Entry) : Std.ExtTreeMap Str Bytes :=
  entries.foldl (fun acc entry ↦
    entry.2.toList.foldl (fun acc pair ↦ applyLive acc pair.1 pair.2) acc) ∅

theorem getElem?_liveOf (entries : List Entry) (key : Str) :
    (liveOf entries)[key]? = view (layersOf entries) key := by
  rw [liveOf, getElem?_foldl_live, view]
  simp

theorem mergedLive_eq {files : Files} {entries : List Entry}
    (hholds : ∀ entry ∈ entries, Holds files entry) :
    mergedLive files (entries.map segmentOf) = .ok (liveOf entries) :=
  replay_eq_foldl _ applyLive (fun entry ↦ entry.2.toList) entries ∅
    fun entry hentry ↦ records_segmentOf (hholds entry hentry)

open Library.ByteCursor

/-! ## Names -/

theorem segSeq_segName {seq : ℕ} (hseq : seq < 2 ^ 64) : segSeq (segName seq) = some seq := by
  have hdrop : (segName seq).drop 4 = Str.padDecimal 20 seq := rfl
  have hstart : "seg-".toList <+: segName seq := List.prefix_append _ _
  rw [segSeq, if_pos hstart, hdrop, Str.parseU64_padDecimal hseq]

theorem segName_injOn {a b : ℕ} (ha : a < 2 ^ 64) (hb : b < 2 ^ 64) (hname : segName a = segName b) :
    a = b := by
  have hsome : some a = some b := by
    rw [← segSeq_segName ha, ← segSeq_segName hb, hname]
  exact Option.some.inj hsome

/-- The temporary sibling of a segment file is no segment. -/
theorem segSeq_tmp (seq : ℕ) : segSeq (segName seq ++ ".tmp".toList) = none := by
  have hdrop : (segName seq ++ ".tmp".toList).drop 4 = Str.padDecimal 20 seq ++ ".tmp".toList := rfl
  have hne : Str.padDecimal 20 seq ≠ [] := by
    simp [Str.padDecimal, Nat.toDigits_ne_nil]
  have hmem : '.' ∈ (Str.padDecimal 20 seq ++ ".tmp".toList).tail := by
    rw [List.tail_append_of_ne_nil hne]
    exact List.mem_append_right _ (by decide)
  rw [segSeq, hdrop, Str.parseU64_eq_none hmem (by decide), ite_self]

/-! ## What a directory holds -/

structure DirectoryHolds (files : Files) (disk : List Entry) : Prop where
  names : ∀ name : Str, ∀ bytes : Bytes, (segSeq name).isSome →
    (files[name]? = some bytes ↔
      ∃ entry ∈ disk, name = segName entry.1 ∧ bytes = encodeSegment (slotRecords entry.2))
  fits : ∀ entry ∈ disk, Fits (slotRecords entry.2)
  ascending : disk.Pairwise fun a b ↦ a.1 < b.1
  bound : ∀ entry ∈ disk, entry.1 < 2 ^ 64

namespace DirectoryHolds

variable {files : Files} {disk : List Entry}

theorem holds (hdir : DirectoryHolds files disk) {entry : Entry} (hentry : entry ∈ disk) :
    Holds files entry := by
  refine ⟨?_, hdir.fits entry hentry⟩
  apply (hdir.names _ _ ?_).mpr
  · exact ⟨entry, hentry, rfl, rfl⟩
  · rw [segSeq_segName (hdir.bound entry hentry)]
    rfl

theorem empty : DirectoryHolds ∅ [] where
  names := by simp
  fits := by simp
  ascending := List.Pairwise.nil
  bound := by simp

/-- Writing a file that is no segment changes nothing. -/
theorem insert_other (hdir : DirectoryHolds files disk) {other : Str} (hother : segSeq other = none)
    (content : Bytes) : DirectoryHolds (files.insert other content) disk where
  names := by
    intro name bytes hname
    have hne : compare other name ≠ .eq := by
      intro heq
      rw [← Std.LawfulEqCmp.eq_of_compare heq, hother] at hname
      exact absurd hname (by simp)
    rw [getElem?_insert, if_neg hne]
    exact hdir.names name bytes hname
  fits := hdir.fits
  ascending := hdir.ascending
  bound := hdir.bound

/-- Writing a segment under a number above all the others. -/
theorem insert (hdir : DirectoryHolds files disk) {seq : ℕ} {slots : SlotMap} (hseq : seq < 2 ^ 64)
    (habove : ∀ entry ∈ disk, entry.1 < seq) (hfits : Fits (slotRecords slots)) :
    DirectoryHolds (files.insert (segName seq) (encodeSegment (slotRecords slots)))
      (disk ++ [(seq, slots)]) where
  names := by
    intro name bytes hname
    rw [getElem?_insert]
    by_cases heq : compare (segName seq) name = .eq
    · have hsame : segName seq = name := Std.LawfulEqCmp.eq_of_compare heq
      rw [if_pos heq, Option.some.injEq]
      constructor
      · intro hbytes
        exact ⟨(seq, slots), List.mem_append_right _ List.mem_cons_self, hsame.symm, hbytes.symm⟩
      · intro hentry
        obtain ⟨entry, hentry, hentryName, hbytes⟩ := hentry
        rcases List.mem_append.mp hentry with hdisk | hnew
        · have hcollide : entry.1 = seq := by
            apply segName_injOn (hdir.bound entry hdisk) hseq
            rw [← hentryName, hsame]
          exact absurd (habove entry hdisk) (by omega)
        · rw [List.mem_singleton.mp hnew] at hbytes
          exact hbytes.symm
    · rw [if_neg heq, hdir.names name bytes hname]
      constructor
      · intro hentry
        obtain ⟨entry, hentry, hrest⟩ := hentry
        exact ⟨entry, List.mem_append_left _ hentry, hrest⟩
      · intro hentry
        obtain ⟨entry, hentry, hentryName, hbytes⟩ := hentry
        rcases List.mem_append.mp hentry with hdisk | hnew
        · exact ⟨entry, hdisk, hentryName, hbytes⟩
        · rw [List.mem_singleton.mp hnew] at hentryName
          rw [hentryName] at heq
          exact absurd Std.ReflCmp.compare_self heq
  fits := by
    intro entry hentry
    rcases List.mem_append.mp hentry with hdisk | hnew
    · exact hdir.fits entry hdisk
    · rw [List.mem_singleton.mp hnew]
      exact hfits
  ascending := by
    apply List.pairwise_append.mpr
    refine ⟨hdir.ascending, List.pairwise_singleton _ _, ?_⟩
    intro entry hentry new hnew
    rw [List.mem_singleton.mp hnew]
    exact habove entry hentry
  bound := by
    intro entry hentry
    rcases List.mem_append.mp hentry with hdisk | hnew
    · exact hdir.bound entry hdisk
    · rw [List.mem_singleton.mp hnew]
      exact hseq

end DirectoryHolds

/-- A segment that fits opens right after it was written. -/
theorem open_insert (files : Files) (seq : ℕ) {slots : SlotMap} (hfits : Fits (slotRecords slots)) :
    Segment.open (files.insert (segName seq) (encodeSegment (slotRecords slots))) (segName seq) =
      .ok (segmentOf (seq, slots)) := by
  apply open_encodeSegment hfits.key hfits.count hfits.offset
  rw [getElem?_insert_self]

/-! ## Removing files -/

theorem getElem?_removeFiles (removes : Str → Bool) (paths : List Str) (files : Files) (name : Str) :
    (removeFiles removes paths files)[name]? =
      if name ∈ paths ∧ removes name then none else files[name]? := by
  induction paths generalizing files with
  | nil => simp [removeFiles]
  | cons path paths ih =>
    have htail := ih (if removes path then files.erase path else files)
    rw [removeFiles] at htail ⊢
    rw [List.foldl_cons, htail]
    by_cases hpath : path = name
    · subst hpath
      cases hremoves : removes path with
      | true => simp
      | false => simp
    · have hne : compare path name ≠ .eq := by
        intro heq
        exact hpath (Std.LawfulEqCmp.eq_of_compare heq)
      have hsame : (if removes path then files.erase path else files)[name]? = files[name]? := by
        split
        · rw [getElem?_erase, if_neg hne]
        · rfl
      rw [hsame]
      simp [Ne.symm hpath]

/-- The segments that stay after the `remove_file` calls on a list of paths. -/
def survivors (removes : Str → Bool) (paths : List Str) (disk : List Entry) : List Entry :=
  disk.filter fun entry ↦ !(paths.contains (segName entry.1) && removes (segName entry.1))

theorem DirectoryHolds.removeFiles {files : Files} {disk : List Entry}
    (hdir : DirectoryHolds files disk) (removes : Str → Bool) (paths : List Str) :
    DirectoryHolds (removeFiles removes paths files) (survivors removes paths disk) where
  names := by
    intro name bytes hname
    rw [getElem?_removeFiles]
    by_cases hgone : name ∈ paths ∧ removes name
    · rw [if_pos hgone]
      constructor
      · simp
      · intro hentry
        obtain ⟨entry, hentry, hentryName, hbytes⟩ := hentry
        have hkept := (List.mem_filter.mp hentry).2
        rw [← hentryName] at hkept
        simp [hgone.1, hgone.2] at hkept
    · rw [if_neg hgone, hdir.names name bytes hname]
      constructor
      · intro hentry
        obtain ⟨entry, hentry, hentryName, hbytes⟩ := hentry
        refine ⟨entry, List.mem_filter.mpr ⟨hentry, ?_⟩, hentryName, hbytes⟩
        rw [← hentryName]
        simpa [imp_iff_not_or] using hgone
      · intro hentry
        obtain ⟨entry, hentry, hrest⟩ := hentry
        exact ⟨entry, (List.mem_filter.mp hentry).1, hrest⟩
  fits := fun entry hentry ↦ hdir.fits entry (List.mem_filter.mp hentry).1
  ascending := hdir.ascending.filter _
  bound := fun entry hentry ↦ hdir.bound entry (List.mem_filter.mp hentry).1

/-! ## Opening -/

theorem DirectoryHolds.findSegments_eq {files : Files} {disk : List Entry}
    (hdir : DirectoryHolds files disk) :
    findSegments files = disk.map fun entry ↦ (entry.1, segName entry.1) := by
  set scanned := files.toList.filterMap fun entry ↦ (segSeq entry.1).map fun seq ↦ (seq, entry.1)
    with hscanned
  have hmem (found : ℕ × Str) :
      found ∈ scanned ↔ found ∈ disk.map fun entry ↦ (entry.1, segName entry.1) := by
    rw [hscanned, List.mem_filterMap, List.mem_map]
    constructor
    · intro hfound
      obtain ⟨⟨name, bytes⟩, hfile, hfound⟩ := hfound
      obtain ⟨seq, hseq, rfl⟩ := Option.map_eq_some_iff.mp hfound
      rw [mem_toList_iff_getElem?_eq_some] at hfile
      obtain ⟨entry, hentry, hname, hbytes⟩ :=
        (hdir.names name bytes (by rw [hseq]; rfl)).mp hfile
      rw [hname, segSeq_segName (hdir.bound entry hentry)] at hseq
      exact ⟨entry, hentry, by rw [hname, Option.some.inj hseq]⟩
    · intro hfound
      obtain ⟨entry, hentry, rfl⟩ := hfound
      refine ⟨(segName entry.1, encodeSegment (slotRecords entry.2)), ?_, ?_⟩
      · rw [mem_toList_iff_getElem?_eq_some]
        exact (hdir.holds hentry).file
      · rw [segSeq_segName (hdir.bound entry hentry)]
        rfl
  have hnodupScanned : scanned.Nodup := by
    rw [hscanned]
    apply List.Pairwise.filterMap _ _ files.ordered_keys_toList
    intro a b hlt found hfound found' hfound' heq
    obtain ⟨seq, hseq, rfl⟩ := Option.map_eq_some_iff.mp hfound
    obtain ⟨seq', hseq', rfl⟩ := Option.map_eq_some_iff.mp hfound'
    exact Str.ne_of_compare_lt hlt (congrArg Prod.snd heq)
  have hsorted : (disk.map fun entry ↦ (entry.1, segName entry.1)).Pairwise fun a b ↦ a.1 < b.1 :=
    List.pairwise_map.mpr hdir.ascending
  have hnodupTarget : (disk.map fun entry ↦ (entry.1, segName entry.1)).Nodup := by
    apply hsorted.imp
    intro a b hlt heq
    rw [heq] at hlt
    exact absurd hlt (lt_irrefl _)
  have hperm : scanned.Perm (disk.map fun entry ↦ (entry.1, segName entry.1)) :=
    (List.perm_ext_iff_of_nodup hnodupScanned hnodupTarget).mpr hmem
  have hsortedScan : (findSegments files).Pairwise fun a b ↦ a.1 ≤ b.1 := by
    have hmerge : (scanned.mergeSort fun a b ↦ decide (a.1 ≤ b.1)).Pairwise
        fun a b ↦ decide (a.1 ≤ b.1) := by
      apply List.pairwise_mergeSort
      · intro a b c hab hbc
        simp only [decide_eq_true_eq] at *
        omega
      · intro a b
        simp only [Bool.or_eq_true, decide_eq_true_eq]
        omega
    apply hmerge.imp
    intro a b hle
    exact of_decide_eq_true hle
  apply List.Perm.eq_of_pairwise _ hsortedScan (hsorted.imp le_of_lt)
    ((List.mergeSort_perm scanned _).trans hperm)
  intro a b ha hb hab hba
  have ha' := (hmem a).mp ((List.mergeSort_perm scanned _).mem_iff.mp ha)
  obtain ⟨entryA, hentryA, rfl⟩ := List.mem_map.mp ha'
  obtain ⟨entryB, hentryB, rfl⟩ := List.mem_map.mp hb
  have hseq : entryA.1 = entryB.1 := le_antisymm hab hba
  rw [hseq]

theorem openAll_eq {files : Files} {disk : List Entry} (hholds : ∀ entry ∈ disk, Holds files entry) :
    openAll files (disk.map fun entry ↦ (entry.1, segName entry.1)) = .ok (disk.map segmentOf) := by
  induction disk with
  | nil => rfl
  | cons entry disk ih =>
    have htail := ih fun e he ↦ hholds e (List.mem_cons_of_mem _ he)
    rw [List.map_cons, openAll, open_segmentOf (hholds entry List.mem_cons_self), ok_bind, htail]
    rfl

end SoulSystem.Ccos.ColdIndex
