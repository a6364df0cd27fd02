import SoulSystem.Library.Machine
import SoulSystem.Journal.Rotation

/-!
# Journals that are opened again

A file is opened without truncation and written from its start again, and a rotating journal
starts again at its first segment.  A later session reads what earlier ones have committed as long
as it does not write into the first segment itself and the earlier ones have not written into a
later segment.
-/

namespace SoulSystem.Journal

open Library List

/-! ## One segment -/

/-- The open segment, what was committed before it was opened and what this session has
committed. -/
structure SegmentSession where
  journal : MmapJournal
  earlier : List Record
  own : List Record

inductive SegmentEvent
  | reopen
  | append (record : Record)

namespace SegmentSession

/-- The first session, on a new file. -/
def new (size : ℕ) : SegmentSession := ⟨MmapJournal.newWithSize ByteMemory.zeros size, [], []⟩

def reopen (s : SegmentSession) (size : ℕ) : SegmentSession :=
  ⟨MmapJournal.newWithSize s.journal.mmap size, s.earlier ++ s.own, []⟩

def append (s : SegmentSession) (record : Record) : SegmentSession :=
  let (journal, accepted) := s.journal.appendLog record.tag record.data
  ⟨journal, s.earlier, if accepted then s.own ++ [record] else s.own⟩

/-- Sessions that open the file at the same size. -/
def sessions (size : ℕ) : Machine SegmentSession SegmentEvent where
  step
    | s, .reopen => some (s.reopen size)
    | s, .append record => some (s.append record)

/-- An append is accepted only when no earlier session has committed anything. -/
def LeavesEarlier (s : SegmentSession) : SegmentEvent → Prop
  | .reopen => True
  | .append record => s.journal.Accepts record → s.earlier = []

instance : ∀ (s : SegmentSession) (event : SegmentEvent), Decidable (s.LeavesEarlier event)
  | _, .reopen => inferInstanceAs (Decidable True)
  | s, .append record => inferInstanceAs (Decidable (s.journal.Accepts record → s.earlier = []))

/-- The file stores the records of all sessions, and the segment is written after those of
this one. -/
structure Describes (size : ℕ) (s : SegmentSession) : Prop where
  size : s.journal.size = max size 8
  file : MmapJournal.FileStores s.journal.mmap s.journal.size (s.earlier ++ s.own)
  offset : s.journal.writeOffset = span s.own

variable {size : ℕ} {s : SegmentSession} {record : Record}

theorem describes_new (size : ℕ) : (new size).Describes size where
  size := rfl
  file := MmapJournal.fileStores_nil fun _ ↦ ite_self _
  offset := rfl

theorem Describes.reopen (hs : s.Describes size) : (s.reopen size).Describes size where
  size := rfl
  file := by
    have hfile := hs.file
    rw [hs.size] at hfile
    rw [SegmentSession.reopen, MmapJournal.newWithSize, hfile.setLen, append_nil]
    exact hfile
  offset := rfl

theorem Describes.append (hs : s.Describes size) (hleaves : s.LeavesEarlier (.append record)) :
    (s.append record).Describes size := by
  by_cases haccepts : s.journal.Accepts record
  · have hearlier := hleaves haccepts
    have hfile := hs.file
    rw [hearlier, nil_append] at hfile
    have hstores : s.journal.Stores s.own := ⟨hfile, hs.offset⟩
    have hnext := hstores.appended haccepts
    rw [SegmentSession.append, MmapJournal.appendLog_of_accepts haccepts]
    exact {
      size := hs.size
      file := by
        rw [hearlier]
        exact hnext.file
      offset := hnext.offset }
  · rw [SegmentSession.append, MmapJournal.appendLog_of_not_accepts haccepts]
    exact ⟨hs.size, hs.file, hs.offset⟩

theorem Describes.step (hs : s.Describes size) {event : SegmentEvent}
    (hleaves : s.LeavesEarlier event) {s' : SegmentSession}
    (hstep : (sessions size).step s event = some s') : s'.Describes size := by
  cases event with
  | reopen => exact Option.some.inj hstep ▸ hs.reopen
  | append record => exact Option.some.inj hstep ▸ hs.append hleaves

theorem readCommitted_of_leavesEarlier {events : List SegmentEvent}
    (hmeets : (sessions size).Meets LeavesEarlier (new size) events)
    (hrun : (sessions size).run (new size) events = some s) :
    s.journal.readCommitted = s.earlier ++ s.own := by
  have hdescribes : s.Describes size := Machine.inv_of_run
    (fun _ _ _ (hs : Describes size _) hleaves hstep ↦ hs.step hleaves hstep)
    (describes_new size) hmeets hrun
  exact hdescribes.file.readCommitted_eq

end SegmentSession

/-! ## Rotating journals -/

inductive SessionEvent
  | reopen
  | append (creates : Bool) (record : Record)

namespace Session

def sessions : Machine Session SessionEvent where
  step
    | s, .reopen => some s.reopen
    | s, .append creates record => some (s.append creates record).1

/-- A journal is opened again only when no segment but the first one has been written.  An append
goes to the first segment only when no earlier session has committed anything, and the index of the
segments does not wrap. -/
def LeavesEarlier (s : Session) : SessionEvent → Prop
  | .reopen => ∀ segment ∈ (s.journal.sealed ++ [s.journal.current]).tail, segment.writeOffset = 0
  | .append creates record =>
    (s.journal.Admits record → s.journal.current.Accepts record → s.journal.segIndex = 0 →
      s.earlier = []) ∧
    (s.Rotates creates record → s.journal.segIndex + 1 < 2 ^ 32)

instance : ∀ (s : Session) (event : SessionEvent), Decidable (s.LeavesEarlier event)
  | s, .reopen => inferInstanceAs (Decidable
      (∀ segment ∈ (s.journal.sealed ++ [s.journal.current]).tail, segment.writeOffset = 0))
  | _, .append _ _ => inferInstanceAs (Decidable ((_ → _ → _ → _) ∧ (_ ∧ _ ∧ _ → _)))

/-- The journal stores the records of the session, and the files after its segments hold nothing. -/
structure Ordered (s : Session) : Prop where
  describes : ∃ parts, s.Describes parts
  clear : ∀ k, s.journal.segIndex < k → ∀ a, s.disk.file (segPath s.journal.basePath k) a = 0

variable {s : Session} {parts : ℕ → List Record} {record : Record} {creates : Bool}

/-- The segments after the first one are empty when none of them has been written. -/
theorem Describes.part_eq_nil (hs : s.Describes parts) (hleaves : s.LeavesEarlier .reopen) {k : ℕ}
    (hpos : k ≠ 0) (hk : k ≤ s.journal.segIndex) : parts k = [] := by
  have hmem : s.segment k (parts k) ∈ (s.journal.sealed ++ [s.journal.current]).tail := by
    obtain ⟨n, rfl⟩ := Nat.exists_eq_succ_of_ne_zero hpos
    rw [hs.segments_eq, range_succ_eq_map, map_cons, tail_cons, map_map]
    exact List.mem_map.mpr ⟨n, List.mem_range.mpr hk, rfl⟩
  have hsized := (hs.file_eq hk).sized
  rw [held_of_ne hpos] at hsized
  exact MmapJournal.eq_nil_of_span_eq_zero hsized (hleaves _ hmem)

theorem Describes.own_eq_of_reopen (hs : s.Describes parts) (hleaves : s.LeavesEarlier .reopen) :
    s.own = parts 0 := by
  have hlater : (List.range s.journal.segIndex).flatMap (fun k ↦ parts (k + 1)) = [] := by
    refine List.flatMap_eq_nil_iff.mpr fun k hk ↦ ?_
    exact hs.part_eq_nil hleaves (Nat.succ_ne_zero k) (List.mem_range.mp hk)
  rw [← hs.own, range_succ_eq_map, flatMap_cons, flatMap_map, hlater, append_nil]

theorem Ordered.reopen (hs : s.Ordered) (hleaves : s.LeavesEarlier .reopen) : s.reopen.Ordered := by
  obtain ⟨parts, hparts⟩ := hs.describes
  have hfile := hparts.file_eq (Nat.zero_le _)
  rw [held, if_pos rfl, ← hparts.own_eq_of_reopen hleaves] at hfile
  refine ⟨⟨_, describes_opened hfile⟩, fun k hk a ↦ ?_⟩
  have hpos : k ≠ 0 := Nat.ne_of_gt hk
  refine (congrFun (file_opened_of_ne hpos) a).trans ?_
  by_cases hopened : k ≤ s.journal.segIndex
  · have hempty := hparts.file_eq hopened
    rw [held_of_ne hpos, hparts.part_eq_nil hleaves hpos hopened] at hempty
    exact hempty.clear a (Nat.zero_le _)
  · exact hs.clear k (not_le.mp hopened) a

theorem Ordered.accepted (hs : s.Ordered) (haccepts : s.journal.current.Accepts record)
    (hfirst : s.journal.segIndex = 0 → s.earlier = []) : (s.accepted record).Ordered := by
  obtain ⟨parts, hparts⟩ := hs.describes
  refine ⟨⟨_, hparts.accepted haccepts hfirst⟩, fun k hk a ↦ ?_⟩
  have hother : segPath s.journal.basePath k ≠ s.journal.current.path := by
    rw [hparts.current_path]
    exact (segPath_injective _).ne (Nat.ne_of_gt hk)
  exact (congrFun (Disk.file_store_of_ne hother) a).trans (hs.clear k hk a)

theorem Ordered.rotated (hs : s.Ordered) (hindex : s.journal.segIndex + 1 < 2 ^ 32) :
    s.rotated.Ordered := by
  obtain ⟨parts, hparts⟩ := hs.describes
  have hclear := hs.clear _ (Nat.lt_succ_self s.journal.segIndex)
  have hrotated := rotated_eq hindex hclear
  refine ⟨⟨_, hparts.rotated hindex hclear⟩, fun k hk a ↦ ?_⟩
  rw [hrotated] at hk ⊢
  have hother : segPath s.journal.basePath k ≠
      segPath s.journal.basePath (s.journal.segIndex + 1) :=
    (segPath_injective _).ne (Nat.ne_of_gt hk)
  exact (congrFun (Disk.file_store_of_ne hother) a).trans
    (hs.clear k ((Nat.lt_succ_self _).trans hk) a)

/-- An append that leaves what earlier sessions have committed keeps the order. -/
theorem Ordered.append (hs : s.Ordered) (hleaves : s.LeavesEarlier (.append creates record)) :
    (s.append creates record).1.Ordered := by
  have hnot : ∀ hindex : s.journal.segIndex + 1 < 2 ^ 32,
      s.rotated.journal.segIndex = 0 → s.rotated.earlier = [] := by
    intro hindex hzero
    have hrotated : s.rotated.journal.segIndex = s.journal.segIndex + 1 := Nat.mod_eq_of_lt hindex
    rw [hrotated] at hzero
    exact absurd hzero (Nat.succ_ne_zero _)
  have houtcome := s.append_outcome creates record
  generalize s.append creates record = outcome at houtcome
  cases houtcome with
  | refused hnot => exact hs
  | accepted hadmits haccepts => exact hs.accepted haccepts (hleaves.1 hadmits haccepts)
  | rotatedAccepted hrotates haccepts =>
    have hindex := hleaves.2 hrotates
    exact (hs.rotated hindex).accepted haccepts (hnot hindex)
  | rotatedRefused hrotates hrefused => exact hs.rotated (hleaves.2 hrotates)

theorem Ordered.step (hs : s.Ordered) {event : SessionEvent} (hleaves : s.LeavesEarlier event)
    {s' : Session} (hstep : sessions.step s event = some s') : s'.Ordered := by
  cases event with
  | reopen => exact Option.some.inj hstep ▸ hs.reopen hleaves
  | append creates record => exact Option.some.inj hstep ▸ hs.append hleaves

theorem ordered_new {disk : Disk} {basePath : Str} {segmentSize : ℕ}
    (hclear : ∀ k a, disk.file (segPath basePath k) a = 0) :
    (new disk basePath segmentSize).Ordered where
  describes := ⟨_, describes_opened (MmapJournal.fileStores_nil (hclear 0))⟩
  clear := fun k hk a ↦ (congrFun (file_opened_of_ne (Nat.ne_of_gt hk)) a).trans (hclear k a)

theorem readAllCommitted_of_leavesEarlier {disk : Disk} {basePath : Str} {segmentSize : ℕ}
    (hnone : ∀ k, disk (segPath basePath k) = none) {events : List SessionEvent}
    (hmeets : sessions.Meets LeavesEarlier (new disk basePath segmentSize) events)
    (hrun : sessions.run (new disk basePath segmentSize) events = some s) :
    s.readAllCommitted = s.earlier ++ s.own := by
  have hclear : ∀ k a, disk.file (segPath basePath k) a = 0 := by
    intro k a
    rw [Disk.file, hnone k]
    rfl
  have hordered : s.Ordered := Machine.inv_of_run
    (fun _ _ _ (hs : Ordered _) hleaves hstep ↦ hs.step hleaves hstep)
    (ordered_new hclear) hmeets hrun
  obtain ⟨parts, hparts⟩ := hordered.describes
  exact hparts.readAllCommitted_eq

end Session

/-! ## Runs of sessions -/

/-- **What earlier sessions have committed is read before what the last one has, in every run that
leaves it.** -/
theorem appendOnly_of_leavesEarlier (size segmentSize : ℕ) (disk : Disk) (basePath : Str) :
    (∀ (events : List SegmentEvent) (s : SegmentSession),
      (SegmentSession.sessions size).Meets SegmentSession.LeavesEarlier (SegmentSession.new size)
        events →
      (SegmentSession.sessions size).run (SegmentSession.new size) events = some s →
      s.journal.readCommitted = s.earlier ++ s.own) ∧
    ∀ (events : List SessionEvent) (s : Session),
      (∀ k, disk (segPath basePath k) = none) →
      Session.sessions.Meets Session.LeavesEarlier (Session.new disk basePath segmentSize) events →
      Session.sessions.run (Session.new disk basePath segmentSize) events = some s →
      s.readAllCommitted = s.earlier ++ s.own :=
  ⟨fun _ _ hmeets hrun ↦ SegmentSession.readCommitted_of_leavesEarlier hmeets hrun,
    fun _ _ hnone hmeets hrun ↦
      Session.readAllCommitted_of_leavesEarlier hnone hmeets hrun⟩

def readAgain : List SegmentEvent := [.append ⟨1, [5]⟩, .append ⟨2, [6, 7]⟩, .reopen]

def threeSegments : List SessionEvent :=
  [.append true ⟨1, [5]⟩, .append true ⟨2, [6]⟩, .append true ⟨3, [7]⟩]

/-- A session that reads again what the first one has left, and a session over three segments. -/
theorem appendOnly_of_leavesEarlier_readAgain :
    (∃ s, (SegmentSession.sessions 64).run (SegmentSession.new 64) readAgain = some s ∧
      s.journal.readCommitted = s.earlier ++ s.own) ∧
    ∃ s, Session.sessions.run (Session.new (fun _ ↦ none) [] 13) threeSegments = some s ∧
      s.readAllCommitted = s.earlier ++ s.own := by
  constructor
  · refine ⟨_, rfl, (appendOnly_of_leavesEarlier 64 13 (fun _ ↦ none) []).1 readAgain _ ?_ rfl⟩
    decide +kernel
  · refine ⟨_, rfl, (appendOnly_of_leavesEarlier 64 13 (fun _ ↦ none) []).2 threeSegments _
      (fun _ ↦ rfl) ?_ rfl⟩
    decide +kernel

/-- The second session writes over what the first one has committed. -/
theorem not_appendOnly_secondSession :
    (¬ ∀ (size : ℕ) (events : List SegmentEvent) (s : SegmentSession),
      (SegmentSession.sessions size).run (SegmentSession.new size) events = some s →
      s.journal.readCommitted = s.earlier ++ s.own) ∧
    ¬ ∀ (basePath : Str) (segmentSize : ℕ) (events : List SessionEvent) (s : Session),
      Session.sessions.run (Session.new (fun _ ↦ none) basePath segmentSize) events = some s →
      s.readAllCommitted = s.earlier ++ s.own := by
  constructor
  · intro hclaim
    have hread := hclaim 64 [.append ⟨1, [5]⟩, .reopen, .append ⟨2, [6]⟩] _ rfl
    revert hread
    decide +kernel
  · intro hclaim
    have hread := hclaim [] 64 [.append true ⟨1, [5]⟩, .reopen, .append true ⟨2, [6]⟩] _ rfl
    revert hread
    decide +kernel

end SoulSystem.Journal
