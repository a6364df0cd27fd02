import SoulSystem.Journal.Segment

/-!
# The rotating journal

A rotating journal chains segments of one size, each mapped from a file of its own.  The bytes of a
mapped segment are those of its file, so the same path opened again shows what was written
before.  A session stores its records segment after segment, and they are read back in the order in
which they were accepted.
-/

namespace SoulSystem.Journal

open Library List Function

/-! ## The files -/

abbrev Disk := Str → Option ByteMemory

namespace Disk

/-- The bytes of a file, all zero when it is new. -/
def file (disk : Disk) (path : Str) : ByteMemory := (disk path).getD ByteMemory.zeros

def store (disk : Disk) (path : Str) (bytes : ByteMemory) : Disk :=
  update disk path (some bytes)

theorem file_store_of_ne {disk : Disk} {path other : Str} {bytes : ByteMemory}
    (hother : other ≠ path) : (disk.store path bytes).file other = disk.file other := by
  rw [file, store, update_of_ne hother, file]

end Disk

/-- A mapped segment, whose bytes are on the disk. -/
structure Segment where
  path : Str
  writeOffset : ℕ
  size : ℕ
  deriving DecidableEq

namespace Segment

def journal (segment : Segment) (disk : Disk) : MmapJournal where
  mmap := disk.file segment.path
  writeOffset := segment.writeOffset
  size := segment.size

def newWithSize (disk : Disk) (path : Str) (size : ℕ) : Disk × Segment :=
  let opened := MmapJournal.newWithSize (disk.file path) size
  (disk.store path opened.mmap, ⟨path, opened.writeOffset, opened.size⟩)

def appendLog (segment : Segment) (disk : Disk) (tag : UInt32) (data : Bytes) :
    Disk × Segment × Bool :=
  match (segment.journal disk).appendLog tag data with
  | (_, false) => (disk, segment, false)
  | (appended, true) =>
    (disk.store segment.path appended.mmap,
      { segment with writeOffset := appended.writeOffset }, true)

def readCommitted (segment : Segment) (disk : Disk) : List Record :=
  (segment.journal disk).readCommitted

/-- The record can be written and leaves a byte of room. -/
def Accepts (segment : Segment) (record : Record) : Prop :=
  record.Sized ∧ segment.writeOffset + record.span < segment.size

instance (segment : Segment) (record : Record) : Decidable (segment.Accepts record) :=
  inferInstanceAs (Decidable (_ ∧ _))

end Segment

/-! ## The journal -/

structure RotatingJournal where
  basePath : Str
  segmentSize : ℕ
  current : Segment
  sealed : List Segment
  segIndex : ℕ

def segPath (base : Str) (idx : ℕ) : Str := base ++ '.' :: Str.padDecimal 4 idx

namespace RotatingJournal

def newWithSize (disk : Disk) (basePath : Str) (segmentSize : ℕ) : Disk × RotatingJournal :=
  let (disk, segment) := Segment.newWithSize disk (segPath basePath 0) segmentSize
  (disk, ⟨basePath, segmentSize, segment, [], 0⟩)

def nextIdx (j : RotatingJournal) : ℕ := (j.segIndex + 1) % 2 ^ 32

/-- The next segment is opened and the current one is sealed.  The index wraps. -/
def rotate (j : RotatingJournal) (disk : Disk) : Disk × RotatingJournal :=
  let (disk, segment) := Segment.newWithSize disk (segPath j.basePath j.nextIdx) j.segmentSize
  (disk, { j with current := segment, sealed := j.sealed ++ [j.current], segIndex := j.nextIdx })

/-- The current segment is tried once under the read lock and once under the write lock. -/
def appendLog (j : RotatingJournal) (disk : Disk) (creates : Bool) (tag : UInt32) (data : Bytes) :
    Disk × RotatingJournal × Bool :=
  if data.length = 0 ∨ data.length + 8 ≥ j.segmentSize then (disk, j, false)
  else
    match j.current.appendLog disk tag data with
    | (disk, current, true) => (disk, { j with current := current }, true)
    | (disk, current, false) =>
      match current.appendLog disk tag data with
      | (disk, current, true) => (disk, { j with current := current }, true)
      | (disk, current, false) =>
        if creates then
          let (disk, j) := { j with current := current }.rotate disk
          let (disk, current, accepted) := j.current.appendLog disk tag data
          (disk, { j with current := current }, accepted)
        else (disk, { j with current := current }, false)

def readAllCommitted (j : RotatingJournal) (disk : Disk) : List Record :=
  j.sealed.flatMap (fun segment ↦ segment.readCommitted disk) ++ j.current.readCommitted disk

def segmentCount (j : RotatingJournal) : ℕ := j.sealed.length + 1

/-- The data is neither empty nor too large for a segment, as the journal checks it. -/
def Admits (j : RotatingJournal) (record : Record) : Prop :=
  record.data.length ≠ 0 ∧ record.data.length + 8 < j.segmentSize

instance (j : RotatingJournal) (record : Record) : Decidable (j.Admits record) :=
  inferInstanceAs (Decidable (_ ∧ _))

end RotatingJournal

/-! ## Sessions -/

/-- The files, the open journal, what was committed before it was opened and what it has
committed. -/
structure Session where
  disk : Disk
  journal : RotatingJournal
  earlier : List Record
  own : List Record

namespace Session

/-- The first session, over the files as they are. -/
def new (disk : Disk) (basePath : Str) (segmentSize : ℕ) : Session :=
  let (disk, journal) := RotatingJournal.newWithSize disk basePath segmentSize
  ⟨disk, journal, [], []⟩

/-- The session ends and the next one opens the journal again. -/
def reopen (s : Session) : Session :=
  let (disk, journal) :=
    RotatingJournal.newWithSize s.disk s.journal.basePath s.journal.segmentSize
  ⟨disk, journal, s.earlier ++ s.own, []⟩

def append (s : Session) (creates : Bool) (record : Record) : Session × Bool :=
  let (disk, journal, accepted) := s.journal.appendLog s.disk creates record.tag record.data
  (⟨disk, journal, s.earlier, if accepted then s.own ++ [record] else s.own⟩, accepted)

def readAllCommitted (s : Session) : List Record := s.journal.readAllCommitted s.disk

/-- What an append that the current segment accepts makes of the session. -/
def accepted (s : Session) (record : Record) : Session where
  disk := s.disk.store s.journal.current.path
    ((s.journal.current.journal s.disk).appended record).mmap
  journal := { s.journal with current := { s.journal.current with
    writeOffset := s.journal.current.writeOffset + record.span } }
  earlier := s.earlier
  own := s.own ++ [record]

/-- What opening the next segment makes of the session. -/
def rotated (s : Session) : Session :=
  let (disk, journal) := s.journal.rotate s.disk
  { s with disk := disk, journal := journal }

end Session

section Appends

variable {disk : Disk} {segment : Segment} {record : Record}

theorem Segment.appendLog_of_accepts (haccepts : segment.Accepts record) :
    segment.appendLog disk record.tag record.data =
      (disk.store segment.path ((segment.journal disk).appended record).mmap,
        { segment with writeOffset := segment.writeOffset + record.span }, true) := by
  have happend := MmapJournal.appendLog_of_accepts
    (show (segment.journal disk).Accepts record from haccepts)
  rw [Segment.appendLog, happend]
  rfl

theorem Segment.appendLog_of_not_accepts (hnot : ¬ segment.Accepts record) :
    segment.appendLog disk record.tag record.data = (disk, segment, false) := by
  have happend := MmapJournal.appendLog_of_not_accepts
    (show ¬ (segment.journal disk).Accepts record from hnot)
  rw [Segment.appendLog, happend]

variable {j : RotatingJournal} {creates : Bool}

theorem RotatingJournal.appendLog_of_not_admits (hnot : ¬ j.Admits record) :
    j.appendLog disk creates record.tag record.data = (disk, j, false) := by
  have hchecked : record.data.length = 0 ∨ record.data.length + 8 ≥ j.segmentSize := by
    by_contra hadmits
    exact hnot ⟨(not_or.mp hadmits).1, not_le.mp (not_or.mp hadmits).2⟩
  rw [appendLog, if_pos hchecked]

theorem RotatingJournal.not_checked (hadmits : j.Admits record) :
    ¬ (record.data.length = 0 ∨ record.data.length + 8 ≥ j.segmentSize) :=
  not_or.mpr ⟨hadmits.1, not_le.mpr hadmits.2⟩

theorem RotatingJournal.appendLog_of_accepts (hadmits : j.Admits record)
    (haccepts : j.current.Accepts record) : j.appendLog disk creates record.tag record.data =
      (disk.store j.current.path ((j.current.journal disk).appended record).mmap,
        { j with current := { j.current with
          writeOffset := j.current.writeOffset + record.span } }, true) := by
  rw [appendLog, if_neg (not_checked hadmits), Segment.appendLog_of_accepts haccepts]

theorem RotatingJournal.appendLog_of_not_creates (hadmits : j.Admits record)
    (hnot : ¬ j.current.Accepts record) :
    j.appendLog disk false record.tag record.data = (disk, j, false) := by
  rw [appendLog, if_neg (not_checked hadmits), Segment.appendLog_of_not_accepts hnot]
  dsimp only
  rw [Segment.appendLog_of_not_accepts hnot]
  rfl

theorem RotatingJournal.appendLog_of_creates (hadmits : j.Admits record)
    (hnot : ¬ j.current.Accepts record) : j.appendLog disk true record.tag record.data =
      let (disk, j) := j.rotate disk
      let (disk, current, accepted) := j.current.appendLog disk record.tag record.data
      (disk, { j with current := current }, accepted) := by
  rw [appendLog, if_neg (not_checked hadmits), Segment.appendLog_of_not_accepts hnot]
  dsimp only
  rw [Segment.appendLog_of_not_accepts hnot]
  rfl

variable {s : Session}

theorem Session.append_of_not_admits (hnot : ¬ s.journal.Admits record) :
    s.append creates record = (s, false) := by
  rw [Session.append, RotatingJournal.appendLog_of_not_admits hnot]
  rfl

theorem Session.append_of_accepts (hadmits : s.journal.Admits record)
    (haccepts : s.journal.current.Accepts record) :
    s.append creates record = (s.accepted record, true) := by
  rw [Session.append, RotatingJournal.appendLog_of_accepts hadmits haccepts]
  rfl

theorem Session.append_of_not_creates (hadmits : s.journal.Admits record)
    (hnot : ¬ s.journal.current.Accepts record) : s.append false record = (s, false) := by
  rw [Session.append, RotatingJournal.appendLog_of_not_creates hadmits hnot]
  rfl

theorem Session.append_of_rotated_accepts (hadmits : s.journal.Admits record)
    (hnot : ¬ s.journal.current.Accepts record) (hnext : s.rotated.journal.current.Accepts record) :
    s.append true record = (s.rotated.accepted record, true) := by
  have happend := @Segment.appendLog_of_accepts (s.journal.rotate s.disk).1
    (s.journal.rotate s.disk).2.current record hnext
  rw [Session.append, RotatingJournal.appendLog_of_creates hadmits hnot]
  dsimp only
  rw [happend]
  rfl

theorem Session.append_of_not_rotated_accepts (hadmits : s.journal.Admits record)
    (hnot : ¬ s.journal.current.Accepts record)
    (hnext : ¬ s.rotated.journal.current.Accepts record) :
    s.append true record = (s.rotated, false) := by
  have happend := @Segment.appendLog_of_not_accepts (s.journal.rotate s.disk).1
    (s.journal.rotate s.disk).2.current record hnext
  rw [Session.append, RotatingJournal.appendLog_of_creates hadmits hnot]
  dsimp only
  rw [happend]
  rfl

/-- The append opens the next segment. -/
def Session.Rotates (s : Session) (creates : Bool) (record : Record) : Prop :=
  s.journal.Admits record ∧ ¬ s.journal.current.Accepts record ∧ creates = true

/-- What an append can do. -/
inductive Session.Outcome (s : Session) (creates : Bool) (record : Record) : Session × Bool → Prop
  | refused (hnot : ¬ s.journal.Admits record ∨ creates = false) : Outcome s creates record (s, false)
  | accepted (hadmits : s.journal.Admits record) (haccepts : s.journal.current.Accepts record) :
      Outcome s creates record (s.accepted record, true)
  | rotatedAccepted (hrotates : s.Rotates creates record)
      (haccepts : s.rotated.journal.current.Accepts record) :
      Outcome s creates record (s.rotated.accepted record, true)
  | rotatedRefused (hrotates : s.Rotates creates record)
      (hnot : ¬ s.rotated.journal.current.Accepts record) :
      Outcome s creates record (s.rotated, false)

theorem Session.append_outcome (s : Session) (creates : Bool) (record : Record) :
    s.Outcome creates record (s.append creates record) := by
  by_cases hadmits : s.journal.Admits record
  · by_cases haccepts : s.journal.current.Accepts record
    · rw [append_of_accepts hadmits haccepts]
      exact .accepted hadmits haccepts
    · cases creates with
      | false =>
        rw [append_of_not_creates hadmits haccepts]
        exact .refused (Or.inr rfl)
      | true =>
        have hrotates : s.Rotates true record := ⟨hadmits, haccepts, rfl⟩
        by_cases hnext : s.rotated.journal.current.Accepts record
        · rw [append_of_rotated_accepts hadmits haccepts hnext]
          exact .rotatedAccepted hrotates hnext
        · rw [append_of_not_rotated_accepts hadmits haccepts hnext]
          exact .rotatedRefused hrotates hnext
  · rw [append_of_not_admits hadmits]
    exact .refused (Or.inl hadmits)

end Appends

/-! ## What a session stores -/

theorem segPath_injective (base : Str) : Function.Injective (segPath base) := by
  intro k k' heq
  rw [segPath, segPath, append_cancel_left_eq, cons_inj_right] at heq
  exact Str.padDecimal_injective 4 heq

theorem flatMap_range_succ_update {α : Type*} (parts : ℕ → List α) (n : ℕ) (part : List α) :
    (List.range (n + 1)).flatMap (update parts n part) =
      (List.range n).flatMap parts ++ part := by
  have hbefore : (List.range n).flatMap (update parts n part) =
      (List.range n).flatMap parts := by
    refine flatMap_congr fun k hk ↦ ?_
    rw [update_of_ne (List.mem_range.mp hk).ne]
  rw [range_succ, flatMap_append, hbefore, flatMap_singleton, update_self]

namespace Session

/-- A segment of the journal after the records that the session has stored in it. -/
def segment (s : Session) (k : ℕ) (records : List Record) : Segment where
  path := segPath s.journal.basePath k
  writeOffset := span records
  size := max s.journal.segmentSize 8

/-- What a segment holds: the first one also what earlier sessions have committed. -/
def held (s : Session) (parts : ℕ → List Record) (k : ℕ) : List Record :=
  (if k = 0 then s.earlier else []) ++ parts k

/-- The records of the session, by segment. -/
structure Describes (s : Session) (parts : ℕ → List Record) : Prop where
  index : s.journal.segIndex < 2 ^ 32
  sealed : s.journal.sealed = (List.range s.journal.segIndex).map fun k ↦ s.segment k (parts k)
  current : s.journal.current = s.segment s.journal.segIndex (parts s.journal.segIndex)
  stored : ∀ k ≤ s.journal.segIndex, ∃ bytes, s.disk (segPath s.journal.basePath k) = some bytes ∧
    MmapJournal.FileStores bytes (max s.journal.segmentSize 8) (s.held parts k)
  apart : s.earlier = [] ∨ parts 0 = []
  own : (List.range (s.journal.segIndex + 1)).flatMap parts = s.own

variable {s : Session} {parts : ℕ → List Record}

theorem Describes.file_eq (hs : s.Describes parts) {k : ℕ} (hk : k ≤ s.journal.segIndex) :
    MmapJournal.FileStores (s.disk.file (segPath s.journal.basePath k)) (max s.journal.segmentSize 8)
      (s.held parts k) := by
  obtain ⟨bytes, hbytes, hfile⟩ := hs.stored k hk
  rwa [Disk.file, hbytes, Option.getD_some]

theorem Describes.current_path (hs : s.Describes parts) :
    s.journal.current.path = segPath s.journal.basePath s.journal.segIndex := by
  rw [hs.current]
  rfl

theorem Describes.segments_eq (hs : s.Describes parts) : s.journal.sealed ++ [s.journal.current] =
    (List.range (s.journal.segIndex + 1)).map fun k ↦ s.segment k (parts k) := by
  rw [hs.sealed, hs.current, range_succ, map_append, map_singleton]

theorem Describes.readCommitted_eq (hs : s.Describes parts) {k : ℕ} (hk : k ≤ s.journal.segIndex) :
    (s.segment k (parts k)).readCommitted s.disk = s.held parts k :=
  MmapJournal.FileStores.readCommitted_eq (hs.file_eq hk)

/-- **A session reads what was committed before it and then what it has committed.** -/
theorem Describes.readAllCommitted_eq (hs : s.Describes parts) :
    s.readAllCommitted = s.earlier ++ s.own := by
  have hall : s.readAllCommitted = (List.range (s.journal.segIndex + 1)).flatMap (s.held parts) := by
    have hsegments : s.readAllCommitted = (s.journal.sealed ++ [s.journal.current]).flatMap
        fun segment ↦ segment.readCommitted s.disk := by
      rw [flatMap_append, flatMap_singleton]
      rfl
    rw [hsegments, hs.segments_eq, flatMap_map]
    exact flatMap_congr fun k hk ↦
      hs.readCommitted_eq (Nat.lt_succ_iff.mp (List.mem_range.mp hk))
  have hlater : ∀ k, s.held parts (k + 1) = parts (k + 1) := fun _ ↦ rfl
  calc
    s.readAllCommitted = (List.range (s.journal.segIndex + 1)).flatMap (s.held parts) := hall
    _ = s.earlier ++ (List.range (s.journal.segIndex + 1)).flatMap parts := by
      rw [range_succ_eq_map, flatMap_cons, flatMap_cons, flatMap_map,
        flatMap_map, held, if_pos rfl, append_assoc]
      simp only [hlater]
    _ = s.earlier ++ s.own := by rw [hs.own]

/-! ### The steps of a session -/

theorem held_of_ne {k : ℕ} (hk : k ≠ 0) : s.held parts k = parts k := by
  rw [held, if_neg hk, nil_append]

/-- The current segment holds only what the session has stored in it, unless it is the first one and
holds what an earlier session has committed. -/
theorem held_current (hfirst : s.journal.segIndex = 0 → s.earlier = []) :
    s.held parts s.journal.segIndex = parts s.journal.segIndex := by
  by_cases hindex : s.journal.segIndex = 0
  · rw [held, hfirst hindex, ite_self, nil_append]
  · exact held_of_ne hindex

theorem Describes.stores_current (hs : s.Describes parts)
    (hfirst : s.journal.segIndex = 0 → s.earlier = []) :
    (s.journal.current.journal s.disk).Stores (parts s.journal.segIndex) := by
  have hfile := hs.file_eq le_rfl
  rw [held_current hfirst] at hfile
  rw [hs.current]
  exact ⟨hfile, rfl⟩

theorem Describes.accepted (hs : s.Describes parts) {record : Record}
    (haccepts : s.journal.current.Accepts record)
    (hfirst : s.journal.segIndex = 0 → s.earlier = []) :
    (s.accepted record).Describes (update parts s.journal.segIndex
      (parts s.journal.segIndex ++ [record])) := by
  have hstores := (hs.stores_current hfirst).appended haccepts
  have hpath := hs.current_path
  have hsize : s.journal.current.size = max s.journal.segmentSize 8 := by
    rw [hs.current]
    rfl
  exact {
    index := hs.index
    sealed := by
      refine hs.sealed.trans (map_congr_left fun k hk ↦ ?_)
      rw [update_of_ne (List.mem_range.mp hk).ne]
      rfl
    current := by
      have hoffset : s.journal.current.writeOffset + record.span =
          span (parts s.journal.segIndex ++ [record]) := hstores.offset
      simp only [Session.accepted, segment, update_self, ← hoffset, hpath, hsize]
    stored := by
      intro k hk
      by_cases hcurrent : k = s.journal.segIndex
      · refine ⟨((s.journal.current.journal s.disk).appended record).mmap, ?_, ?_⟩
        · simp only [Session.accepted, Disk.store, hpath, hcurrent, update_self]
        · have hheld : (s.accepted record).held (update parts s.journal.segIndex
              (parts s.journal.segIndex ++ [record])) k = parts s.journal.segIndex ++ [record] := by
            rw [hcurrent]
            exact (held_current hfirst).trans (update_self ..)
          have hfile := hstores.file
          rw [hheld]
          rwa [show ((s.journal.current.journal s.disk).appended record).size =
            max s.journal.segmentSize 8 from hsize] at hfile
      · obtain ⟨bytes, hbytes, hfile⟩ := hs.stored k hk
        refine ⟨bytes, ?_, ?_⟩
        · have hother : segPath s.journal.basePath k ≠ s.journal.current.path := by
            rw [hpath]
            exact (segPath_injective _).ne hcurrent
          exact (update_of_ne hother ..).trans hbytes
        · rw [held, update_of_ne hcurrent]
          exact hfile
    apart := by
      by_cases hindex : s.journal.segIndex = 0
      · exact Or.inl (hfirst hindex)
      · rw [update_of_ne (Ne.symm hindex)]
        exact hs.apart
    own := by
      have hown := hs.own
      rw [range_succ, flatMap_append, flatMap_singleton] at hown
      refine (flatMap_range_succ_update _ _ _).trans ?_
      rw [← append_assoc, hown]
      rfl }

/-- A file that stores some records is opened as it is. -/
theorem newWithSize_of_fileStores {disk : Disk} {path : Str} {size : ℕ} {records : List Record}
    (hfile : MmapJournal.FileStores (disk.file path) (max size 8) records) :
    Segment.newWithSize disk path size = (disk.store path (disk.file path), ⟨path, 0, max size 8⟩) := by
  rw [Segment.newWithSize, MmapJournal.newWithSize]
  simp only [hfile.setLen]

theorem rotated_eq (hindex : s.journal.segIndex + 1 < 2 ^ 32)
    (hclear : ∀ a, s.disk.file (segPath s.journal.basePath (s.journal.segIndex + 1)) a = 0) :
    s.rotated = ⟨s.disk.store (segPath s.journal.basePath (s.journal.segIndex + 1))
        (s.disk.file (segPath s.journal.basePath (s.journal.segIndex + 1))),
      ⟨s.journal.basePath, s.journal.segmentSize, s.segment (s.journal.segIndex + 1) [],
        s.journal.sealed ++ [s.journal.current], s.journal.segIndex + 1⟩, s.earlier, s.own⟩ := by
  have hnext : s.journal.nextIdx = s.journal.segIndex + 1 := Nat.mod_eq_of_lt hindex
  rw [rotated, RotatingJournal.rotate, hnext,
    newWithSize_of_fileStores (MmapJournal.fileStores_nil hclear)]
  rfl

theorem Describes.rotated (hs : s.Describes parts) (hindex : s.journal.segIndex + 1 < 2 ^ 32)
    (hclear : ∀ a, s.disk.file (segPath s.journal.basePath (s.journal.segIndex + 1)) a = 0) :
    s.rotated.Describes (update parts (s.journal.segIndex + 1) []) := by
  rw [rotated_eq hindex hclear]
  exact {
    index := hindex
    sealed := by
      have hbefore : ∀ k ∈ List.range (s.journal.segIndex + 1),
          s.segment k (parts k) =
            s.segment k (update parts (s.journal.segIndex + 1) [] k) := by
        intro k hk
        rw [update_of_ne (List.mem_range.mp hk).ne]
      calc
        s.journal.sealed ++ [s.journal.current] =
            (List.range (s.journal.segIndex + 1)).map fun k ↦ s.segment k (parts k) := hs.segments_eq
        _ = _ := map_congr_left hbefore
    current := by
      simp only [update_self]
      rfl
    stored := by
      intro k hk
      by_cases hnew : k = s.journal.segIndex + 1
      · refine ⟨s.disk.file (segPath s.journal.basePath (s.journal.segIndex + 1)), ?_, ?_⟩
        · simp only [Disk.store, hnew, update_self]
        · rw [hnew, held_of_ne (Nat.succ_ne_zero _), update_self]
          exact MmapJournal.fileStores_nil hclear
      · have hbefore : k ≤ s.journal.segIndex := Nat.lt_succ_iff.mp (lt_of_le_of_ne hk hnew)
        obtain ⟨bytes, hbytes, hfile⟩ := hs.stored k hbefore
        refine ⟨bytes, ?_, ?_⟩
        · exact (update_of_ne ((segPath_injective _).ne hnew) ..).trans hbytes
        · rw [held, update_of_ne hnew]
          exact hfile
    apart := by
      rw [update_of_ne (Nat.succ_ne_zero _).symm]
      exact hs.apart
    own := by
      refine (flatMap_range_succ_update _ _ _).trans ?_
      rw [append_nil]
      exact hs.own }

theorem file_opened_of_ne {disk : Disk} {basePath : Str} {segmentSize k : ℕ} (hk : k ≠ 0) :
    (RotatingJournal.newWithSize disk basePath segmentSize).1.file (segPath basePath k) =
      disk.file (segPath basePath k) :=
  Disk.file_store_of_ne ((segPath_injective basePath).ne hk)

/-- The first segment of a journal that is opened stores what was committed before. -/
theorem describes_opened {disk : Disk} {basePath : Str} {segmentSize : ℕ} {earlier : List Record}
    (hfile : MmapJournal.FileStores (disk.file (segPath basePath 0)) (max segmentSize 8) earlier) :
    Describes ⟨(RotatingJournal.newWithSize disk basePath segmentSize).1,
      (RotatingJournal.newWithSize disk basePath segmentSize).2, earlier, []⟩ (fun _ ↦ []) := by
  rw [RotatingJournal.newWithSize, newWithSize_of_fileStores hfile]
  exact {
    index := Nat.two_pow_pos 32
    sealed := rfl
    current := rfl
    stored := by
      intro k hk
      have hzero : k = 0 := Nat.le_zero.mp hk
      refine ⟨disk.file (segPath basePath 0), ?_, ?_⟩
      · simp only [Disk.store, hzero, update_self]
      · rw [held, if_pos hzero, append_nil]
        exact hfile
    apart := Or.inr rfl
    own := rfl }

end Session

end SoulSystem.Journal
