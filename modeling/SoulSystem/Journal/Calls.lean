import SoulSystem.Library.Machine
import SoulSystem.Journal.Rotation

/-!
# The calls on a new journal

The journal checks a payload against the size of a segment before it tries one, and the segment
checks it again, rounded up and with a byte of room.  A call is what the journal documents exactly
when the two checks agree on its payload.
-/

namespace SoulSystem.Journal

open Library

namespace Session

/-! ## A call -/

/-- The calls of `append_log` one after the other, where every file is created that is asked for. -/
def calls : Machine Session Record where
  step s record := some (s.append true record).1

/-- A call that opens the next segment finds no file there. -/
def OpensFresh (s : Session) (record : Record) : Prop :=
  s.Rotates true record → s.disk (segPath s.journal.basePath s.journal.nextIdx) = none

/-- A call returns true for data that is neither empty nor too large, and when it returns false
nothing has changed.  The records that are read back are those for which it has returned true, in
their order. -/
structure Documented (s : Session) (record : Record) : Prop where
  accepts : record.data.length ≠ 0 ∧ record.data.length + 8 < s.journal.segmentSize →
    (s.append true record).2 = true
  refuses : (s.append true record).2 = false →
    (s.append true record).1.journal.segmentCount = s.journal.segmentCount ∧
      (s.append true record).1.readAllCommitted = s.readAllCommitted
  committed : (s.append true record).1.readAllCommitted = (s.append true record).1.own

/-- A payload that the journal admits is one that an empty segment accepts. -/
def Fits (segmentSize : ℕ) (record : Record) : Prop :=
  record.data.length ≠ 0 ∧ record.data.length + 8 < segmentSize →
    record.data.length ≤ u32Max ∧ record.span < segmentSize

instance (segmentSize : ℕ) (record : Record) : Decidable (Fits segmentSize record) :=
  inferInstanceAs (Decidable (_ → _))

/-- What holds after every call on a new journal. -/
structure Fresh (segmentSize : ℕ) (s : Session) : Prop where
  describes : ∃ parts, s.Describes parts
  earlier : s.earlier = []
  size : s.journal.segmentSize = segmentSize

variable {s : Session} {record : Record} {segmentSize : ℕ} {parts : ℕ → List Record}

/-! ## What a call keeps -/

theorem Describes.segIndex_lt_of_none (hs : s.Describes parts)
    (hnone : s.disk (segPath s.journal.basePath s.journal.nextIdx) = none) :
    s.journal.segIndex + 1 < 2 ^ 32 := by
  by_contra hlast
  have hindex := hs.index
  have hwraps : s.journal.nextIdx = 0 := by
    rw [RotatingJournal.nextIdx, show s.journal.segIndex + 1 = 2 ^ 32 by omega, Nat.mod_self]
  obtain ⟨bytes, hbytes, -⟩ := hs.stored 0 (Nat.zero_le _)
  rw [hwraps, hbytes] at hnone
  exact Option.some_ne_none bytes hnone

theorem Fresh.rotated (hs : s.Fresh segmentSize) (hopens : s.OpensFresh record)
    (hrotates : s.Rotates true record) : s.rotated.Fresh segmentSize := by
  obtain ⟨parts, hparts⟩ := hs.describes
  have hnone := hopens hrotates
  have hindex := hparts.segIndex_lt_of_none hnone
  rw [RotatingJournal.nextIdx, Nat.mod_eq_of_lt hindex] at hnone
  have hclear : ∀ a, s.disk.file (segPath s.journal.basePath (s.journal.segIndex + 1)) a = 0 := by
    intro a
    rw [Disk.file, hnone]
    rfl
  exact ⟨⟨_, hparts.rotated hindex hclear⟩, hs.earlier, hs.size⟩

theorem Fresh.accepted (hs : s.Fresh segmentSize) (haccepts : s.journal.current.Accepts record) :
    (s.accepted record).Fresh segmentSize := by
  obtain ⟨parts, hparts⟩ := hs.describes
  exact ⟨⟨_, hparts.accepted haccepts fun _ ↦ hs.earlier⟩, hs.earlier, hs.size⟩

/-- A call leaves a new journal in order. -/
theorem Fresh.append (hs : s.Fresh segmentSize) (hopens : s.OpensFresh record) :
    (s.append true record).1.Fresh segmentSize := by
  have houtcome := s.append_outcome true record
  generalize s.append true record = outcome at houtcome
  cases houtcome with
  | refused hnot => exact hs
  | accepted hadmits haccepts => exact hs.accepted haccepts
  | rotatedAccepted hrotates haccepts => exact (hs.rotated hopens hrotates).accepted haccepts
  | rotatedRefused hrotates hnot => exact hs.rotated hopens hrotates

theorem Fresh.readAllCommitted_eq (hs : s.Fresh segmentSize) : s.readAllCommitted = s.own := by
  obtain ⟨parts, hparts⟩ := hs.describes
  rw [hparts.readAllCommitted_eq, hs.earlier, List.nil_append]

/-- What the segment of an open journal accepts fits. -/
theorem Fresh.fits_of_accepts (hs : s.Fresh segmentSize) (haccepts : s.journal.current.Accepts record) :
    Fits segmentSize record := by
  intro hadmits
  obtain ⟨parts, hparts⟩ := hs.describes
  have hroom := haccepts.2
  have hsize : s.journal.current.size = max s.journal.segmentSize 8 := by
    rw [hparts.current]
    rfl
  rw [hsize, hs.size, max_eq_left (by omega)] at hroom
  exact ⟨haccepts.1.2, by omega⟩

/-- A record that fits is accepted by the segment that is opened for it. -/
theorem rotated_accepts (hfits : Fits s.journal.segmentSize record)
    (hadmits : s.journal.Admits record) : s.rotated.journal.current.Accepts record := by
  obtain ⟨hmax, hroom⟩ := hfits hadmits
  refine ⟨⟨Nat.pos_of_ne_zero hadmits.1, hmax⟩, ?_⟩
  have hsize : s.rotated.journal.current.size = max s.journal.segmentSize 8 := rfl
  have hoffset : s.rotated.journal.current.writeOffset = 0 := rfl
  rw [hsize, hoffset]
  omega

theorem Fresh.documented (hs : s.Fresh segmentSize) (hopens : s.OpensFresh record)
    (hfits : Fits segmentSize record) : s.Documented record := by
  have hcommitted := (hs.append hopens).readAllCommitted_eq
  have houtcome := s.append_outcome true record
  suffices hcall : (s.journal.Admits record → (s.append true record).2 = true) ∧
      ((s.append true record).2 = false → (s.append true record).1 = s) by
    refine ⟨hcall.1, fun hrefused ↦ ?_, hcommitted⟩
    rw [hcall.2 hrefused]
    exact ⟨rfl, rfl⟩
  generalize s.append true record = outcome at houtcome
  cases houtcome with
  | refused hnot =>
    have hnot : ¬ s.journal.Admits record := hnot.resolve_right fun hfalse ↦ nomatch hfalse
    exact ⟨fun hadmits ↦ absurd hadmits hnot, fun _ ↦ rfl⟩
  | accepted hadmits haccepts => exact ⟨fun _ ↦ rfl, fun hfalse ↦ nomatch hfalse⟩
  | rotatedAccepted hrotates haccepts => exact ⟨fun _ ↦ rfl, fun hfalse ↦ nomatch hfalse⟩
  | rotatedRefused hrotates hnot =>
    rw [← hs.size] at hfits
    exact absurd (rotated_accepts hfits hrotates.1) hnot

theorem Fresh.fits_of_documented (hs : s.Fresh segmentSize) (hopens : s.OpensFresh record)
    (hdocumented : s.Documented record) : Fits segmentSize record := by
  intro hsizes
  have hadmits : s.journal.Admits record := by
    rw [← hs.size] at hsizes
    exact hsizes
  have htrue := hdocumented.accepts hadmits
  have houtcome := s.append_outcome true record
  generalize s.append true record = outcome at houtcome htrue
  cases houtcome with
  | refused hnot => nomatch htrue
  | accepted hadmits haccepts => exact hs.fits_of_accepts haccepts hsizes
  | rotatedAccepted hrotates haccepts =>
    exact (hs.rotated hopens hrotates).fits_of_accepts haccepts hsizes
  | rotatedRefused hrotates hnot => nomatch htrue

/-! ## The calls of a run -/

/-- The journal is opened on a path where there is no file. -/
theorem fresh_new {disk : Disk} {basePath : Str} (hnone : disk (segPath basePath 0) = none) :
    (new disk basePath segmentSize).Fresh segmentSize := by
  have hclear : ∀ a, disk.file (segPath basePath 0) a = 0 := by
    intro a
    rw [Disk.file, hnone]
    rfl
  exact ⟨⟨_, describes_opened (MmapJournal.fileStores_nil hclear)⟩, rfl, rfl⟩

theorem Fresh.step (hs : s.Fresh segmentSize) (hopens : s.OpensFresh record) {s' : Session}
    (hstep : calls.step s record = some s') : s'.Fresh segmentSize :=
  Option.some.inj hstep ▸ hs.append hopens

/-- No file stands after the current segment. -/
def Unused (s : Session) : Prop :=
  ∀ k, s.journal.segIndex < k → s.disk (segPath s.journal.basePath k) = none

theorem unused_new {disk : Disk} {basePath : Str} (hnone : ∀ k, disk (segPath basePath k) = none) :
    (new disk basePath segmentSize).Unused := by
  intro k hk
  have hother : segPath basePath k ≠ segPath basePath 0 :=
    (segPath_injective basePath).ne (Nat.ne_of_gt hk)
  exact (Function.update_of_ne hother ..).trans (hnone k)

theorem Unused.accepted (hs : s.Unused)
    (hpath : s.journal.current.path = segPath s.journal.basePath s.journal.segIndex) :
    (s.accepted record).Unused := by
  intro k hk
  have hother : segPath s.journal.basePath k ≠ s.journal.current.path := by
    rw [hpath]
    exact (segPath_injective _).ne (Nat.ne_of_gt hk)
  exact (Function.update_of_ne hother ..).trans (hs k hk)

theorem Unused.rotated (hs : s.Unused) (hindex : s.journal.segIndex + 1 < 2 ^ 32) :
    s.rotated.Unused := by
  have hnext : s.journal.nextIdx = s.journal.segIndex + 1 := Nat.mod_eq_of_lt hindex
  have hrotated : s.rotated.journal.segIndex = s.journal.nextIdx := rfl
  intro k hk
  rw [hrotated, hnext] at hk
  have hother : segPath s.journal.basePath k ≠ segPath s.journal.basePath s.journal.nextIdx := by
    rw [hnext]
    exact (segPath_injective _).ne (Nat.ne_of_gt hk)
  exact (Function.update_of_ne hother ..).trans (hs k ((Nat.lt_succ_self _).trans hk))

/-- A call opens at most one segment. -/
theorem Unused.append (hunused : s.Unused) (hs : s.Fresh segmentSize) (hopens : s.OpensFresh record)
    (hindex : s.journal.segIndex + 1 < 2 ^ 32) :
    (s.append true record).1.Unused ∧
      (s.append true record).1.journal.segIndex ≤ s.journal.segIndex + 1 := by
  obtain ⟨parts, hparts⟩ := hs.describes
  have hrotated : s.rotated.journal.segIndex = s.journal.segIndex + 1 := Nat.mod_eq_of_lt hindex
  have houtcome := s.append_outcome true record
  generalize s.append true record = outcome at houtcome
  cases houtcome with
  | refused hnot => exact ⟨hunused, Nat.le_succ _⟩
  | accepted hadmits haccepts => exact ⟨hunused.accepted hparts.current_path, Nat.le_succ _⟩
  | rotatedAccepted hrotates haccepts =>
    obtain ⟨parts', hparts'⟩ := (hs.rotated hopens hrotates).describes
    exact ⟨(hunused.rotated hindex).accepted hparts'.current_path, hrotated.le⟩
  | rotatedRefused hrotates hnot => exact ⟨hunused.rotated hindex, hrotated.le⟩

/-- Where no file stands the calls find none, as long as the index does not wrap. -/
theorem meets_opensFresh (hs : s.Fresh segmentSize) (hunused : s.Unused) {records : List Record}
    (hindex : s.journal.segIndex + records.length < 2 ^ 32) : calls.Meets OpensFresh s records := by
  induction records generalizing s with
  | nil => trivial
  | cons record records ih =>
    rw [List.length_cons] at hindex
    have hopens : s.OpensFresh record := by
      intro _
      rw [RotatingJournal.nextIdx, Nat.mod_eq_of_lt (by omega)]
      exact hunused _ (Nat.lt_succ_self _)
    refine ⟨hopens, fun next hnext ↦ ?_⟩
    cases Option.some.inj hnext
    obtain ⟨hnextUnused, hnextIndex⟩ := hunused.append hs hopens (by omega)
    exact ih (hs.append hopens) hnextUnused (by omega)

/-- **Every call on new files is what the journal documents exactly when every payload that it
admits fits into an empty segment.** -/
theorem documented_iff_fits (disk : Disk) (basePath : Str) (segmentSize : ℕ) (records : List Record)
    (hnone : disk (segPath basePath 0) = none)
    (hopens : calls.Meets OpensFresh (new disk basePath segmentSize) records) :
    calls.Meets Documented (new disk basePath segmentSize) records ↔
      ∀ record ∈ records, Fits segmentSize record := by
  constructor
  · intro hdocumented
    exact Machine.forall_of_meets (fun s record ↦ ⟨_, rfl⟩)
      (fun s record s' (hs : s.Fresh segmentSize) hmeets hstep ↦ hs.step hmeets.1 hstep)
      (fun s record hs hmeets ↦ hs.fits_of_documented hmeets.1 hmeets.2) (fresh_new hnone)
      (hopens.and hdocumented)
  · intro hfits
    exact Machine.meets_of_inv
      (fun s record s' (hs : s.Fresh segmentSize) hmeets hstep ↦ hs.step hmeets.1 hstep)
      (fun s record hs hmeets ↦ hs.documented hmeets.1 hmeets.2) (fresh_new hnone)
      (hopens.and (Machine.meets_of_forall hfits))

/-- Two records of which each fills a segment. -/
theorem documented_iff_fits_twoSegments :
    calls.Meets Documented (new (fun _ ↦ none) [] 13) [⟨1, [5]⟩, ⟨2, [6]⟩] ↔
      ∀ record ∈ [⟨1, [5]⟩, ⟨2, [6]⟩], Fits 13 record :=
  documented_iff_fits (fun _ ↦ none) [] 13 [⟨1, [5]⟩, ⟨2, [6]⟩] rfl
    (meets_opensFresh (fresh_new rfl) (unused_new fun _ ↦ rfl) (by decide))

/-- A byte in a segment of 12 bytes passes the check of the journal and no segment accepts it. -/
theorem not_documented_byteInTwelve :
    calls.Meets OpensFresh (new (fun _ ↦ none) [] 12) [⟨1, [5]⟩] ∧
      ¬ calls.Meets Documented (new (fun _ ↦ none) [] 12) [⟨1, [5]⟩] := by
  constructor
  · exact meets_opensFresh (fresh_new rfl) (unused_new fun _ ↦ rfl) (by decide)
  · intro hdocumented
    have hrefused : ((new (fun _ ↦ none) [] 12).append true ⟨1, [5]⟩).2 = false := by decide +kernel
    have haccepts := hdocumented.1.accepts ⟨by decide, by decide⟩
    rw [hrefused] at haccepts
    nomatch haccepts

end Session

end SoulSystem.Journal
