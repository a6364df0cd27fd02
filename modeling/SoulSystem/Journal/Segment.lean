import SoulSystem.Library.ByteMemory

/-!
# A segment of the journal

A record is its tag and the length of its payload in four bytes each and the payload, rounded up to
four bytes.  A segment that stores some records and is zero after them reads back as these records,
and an append that fits adds one.
-/

namespace SoulSystem.Journal

open Library List SoulSystem.Library.ByteMemory

/-! ## The segment -/

def u32Max : ℕ := 2 ^ 32 - 1

/-- What a payload takes with its header, rounded up to four bytes. -/
def paddedLen (payloadSize : ℕ) : ℕ := (8 + payloadSize + 3) &&& (2 ^ 64 - 1 - 3)

structure Record where
  tag : UInt32
  data : Bytes
  deriving DecidableEq

structure MmapJournal where
  mmap : ByteMemory
  writeOffset : ℕ
  size : ℕ

namespace MmapJournal

/-- A file is opened without truncation, given its size and written from its start. -/
def newWithSize (file : ByteMemory) (size : ℕ) : MmapJournal where
  mmap := file.setLen (max size 8)
  writeOffset := 0
  size := max size 8

/-! ### The steps of an append -/

def reserve (j : MmapJournal) (need : ℕ) : MmapJournal :=
  { j with writeOffset := j.writeOffset + need }

def writeTag (j : MmapJournal) (offset : ℕ) (tag : UInt32) : MmapJournal :=
  { j with mmap := j.mmap.writeWord offset tag.toNat }

def writePayload (j : MmapJournal) (offset : ℕ) (data : Bytes) : MmapJournal :=
  { j with mmap := j.mmap.write (offset + 8) data }

def publishSize (j : MmapJournal) (offset size : ℕ) : MmapJournal :=
  { j with mmap := j.mmap.writeWord (offset + 4) size }

def appendLog (j : MmapJournal) (tag : UInt32) (data : Bytes) : MmapJournal × Bool :=
  let size := data.length
  if size = 0 ∨ size > u32Max then (j, false)
  else
    let need := paddedLen size
    let currentOffset := j.writeOffset
    if currentOffset + need ≥ j.size then (j, false)
    else
      let reserved := j.reserve need
      let tagged := reserved.writeTag currentOffset tag
      let written := tagged.writePayload currentOffset data
      (written.publishSize currentOffset size, true)

/-- The records from an offset on, up to the first size that is zero or leads past the end. -/
def readFrom (mmap : ByteMemory) (size : ℕ) : ℕ → ℕ → List Record
  | 0, _ => []
  | fuel + 1, off =>
    if off + 8 > size then []
    else
      let len := mmap.readWord (off + 4)
      if len = 0 then []
      else if off + 8 + len > size then []
      else
        ⟨UInt32.ofNat (mmap.readWord off), mmap.read (off + 8) len⟩ ::
          readFrom mmap size fuel (off + paddedLen len)

/-- Each record takes at least a byte, so the size of the segment is enough fuel. -/
def readCommitted (j : MmapJournal) : List Record := readFrom j.mmap j.size j.size 0

end MmapJournal

/-! ## Lengths -/

theorem and_not_three (n : ℕ) (hn : n < 2 ^ 64) : n &&& (2 ^ 64 - 1 - 3) = n / 4 * 4 := by
  apply Nat.eq_of_testBit_eq
  intro i
  have hmask : (2 ^ 64 - 1 - 3 : ℕ) = (2 ^ 62 - 1) * 2 ^ 2 := by norm_num
  have hquotient : n / 4 * 4 = n / 2 ^ 2 * 2 ^ 2 := rfl
  rw [Nat.testBit_and, hmask, hquotient, Nat.testBit_mul_two_pow, Nat.testBit_mul_two_pow,
    Nat.testBit_two_pow_sub_one, Nat.testBit_div_two_pow]
  by_cases hlow : 2 ≤ i
  · rw [Nat.sub_add_cancel hlow]
    by_cases hhigh : i < 64
    · have hbelow : i - 2 < 62 := by omega
      simp [hlow, hbelow]
    · have hbit : n.testBit i = false :=
        Nat.testBit_lt_two_pow (hn.trans_le (Nat.pow_le_pow_right (by norm_num) (by omega)))
      simp [hbit]
  · simp [hlow]

theorem paddedLen_eq {payloadSize : ℕ} (hlt : payloadSize ≤ u32Max) :
    paddedLen payloadSize = (payloadSize + 11) / 4 * 4 := by
  rw [u32Max] at hlt
  rw [paddedLen, and_not_three _ (by omega)]
  omega

theorem add_le_paddedLen {payloadSize : ℕ} (hlt : payloadSize ≤ u32Max) :
    payloadSize + 8 ≤ paddedLen payloadSize := by
  rw [paddedLen_eq hlt]
  omega

/-- The record can be written at all. -/
def Record.Sized (record : Record) : Prop := 0 < record.data.length ∧ record.data.length ≤ u32Max

instance (record : Record) : Decidable record.Sized := inferInstanceAs (Decidable (_ ∧ _))

/-- What the record takes. -/
def Record.span (record : Record) : ℕ := paddedLen record.data.length

/-- What the records take. -/
def span (records : List Record) : ℕ := (records.map Record.span).sum

@[simp] theorem span_nil : span [] = 0 := rfl

@[simp] theorem span_cons (record : Record) (records : List Record) :
    span (record :: records) = record.span + span records := by
  rw [span, map_cons, sum_cons, span]

@[simp] theorem span_append (records records' : List Record) :
    span (records ++ records') = span records + span records' := by
  rw [span, map_append, sum_append, span, span]

theorem Record.Sized.le_span {record : Record} (hsized : record.Sized) :
    record.data.length + 8 ≤ record.span :=
  add_le_paddedLen hsized.2

/-! ## What a segment holds -/

/-- The bytes of a record stand at the offset. -/
structure HoldsRecord (mmap : ByteMemory) (off : ℕ) (record : Record) : Prop where
  tag : mmap.readWord off = record.tag.toNat
  size : mmap.readWord (off + 4) = record.data.length
  payload : mmap.read (off + 8) record.data.length = record.data

/-- The records stand one after the other from the offset on. -/
def Laid (mmap : ByteMemory) : ℕ → List Record → Prop
  | _, [] => True
  | off, record :: records => HoldsRecord mmap off record ∧ Laid mmap (off + record.span) records

/-- Where a reader stops: no header fits, nothing is published, or the record leads past the end. -/
def MmapJournal.Stops (mmap : ByteMemory) (size off : ℕ) : Prop :=
  size < off + 8 ∨ mmap.readWord (off + 4) = 0 ∨ size < off + 8 + mmap.readWord (off + 4)

section Holds

variable {mmap mmap' : ByteMemory} {off size : ℕ} {record : Record} {records : List Record}

theorem HoldsRecord.congr (hholds : HoldsRecord mmap off record) (hsized : record.Sized)
    (hsame : ∀ a, off ≤ a → a < off + record.span → mmap a = mmap' a) :
    HoldsRecord mmap' off record := by
  have hspan := hsized.le_span
  refine ⟨?_, ?_, ?_⟩
  · rw [← hholds.tag, readWord_congr fun a hlow hhigh ↦ hsame a hlow (by omega)]
  · rw [← hholds.size,
      readWord_congr fun a hlow hhigh ↦ hsame a (by omega) (by omega)]
  · rw [← read_congr fun a hlow hhigh ↦ hsame a (by omega) (by omega)]
    exact hholds.payload

theorem Laid.congr (hlaid : Laid mmap off records) (hsized : ∀ record ∈ records, record.Sized)
    (hsame : ∀ a, off ≤ a → a < off + span records → mmap a = mmap' a) : Laid mmap' off records := by
  induction records generalizing off with
  | nil => trivial
  | cons record records ih =>
    rw [span_cons] at hsame
    refine ⟨hlaid.1.congr (hsized record mem_cons_self) fun a hlow hhigh ↦
      hsame a hlow (by omega), ?_⟩
    exact ih hlaid.2 (fun record hmem ↦ hsized record (mem_cons_of_mem _ hmem))
      fun a hlow hhigh ↦ hsame a (by omega) (by omega)

theorem laid_append {records' : List Record} : Laid mmap off (records ++ records') ↔
    Laid mmap off records ∧ Laid mmap (off + span records) records' := by
  induction records generalizing off with
  | nil => simp [Laid]
  | cons record records ih =>
    rw [cons_append, Laid, Laid, ih, span_cons, and_assoc, Nat.add_assoc]

theorem laid_of_getElem? (hholds : ∀ (k : ℕ) record, records[k]? = some record →
    HoldsRecord mmap (off + span (records.take k)) record) : Laid mmap off records := by
  induction records generalizing off with
  | nil => trivial
  | cons record records ih =>
    refine ⟨hholds 0 record rfl, ih fun k next hget ↦ ?_⟩
    have hnext := hholds (k + 1) next hget
    rwa [take_succ_cons, span_cons, ← Nat.add_assoc] at hnext

/-- A reader goes on past a record that stands at its offset. -/
theorem readFrom_record {fuel : ℕ} (hholds : HoldsRecord mmap off record) (hsized : record.Sized)
    (hfits : off + record.span ≤ size) : MmapJournal.readFrom mmap size (fuel + 1) off =
      record :: MmapJournal.readFrom mmap size fuel (off + record.span) := by
  have hspan := hsized.le_span
  have hpos := hsized.1
  have htag : UInt32.ofNat (mmap.readWord off) = record.tag := by
    rw [hholds.tag, UInt32.ofNat_toNat]
  rw [MmapJournal.readFrom, if_neg (by omega)]
  simp only [hholds.size]
  rw [if_neg (by omega), if_neg (by omega), htag, hholds.payload]
  rfl

theorem readFrom_of_stops {fuel : ℕ} (hstops : MmapJournal.Stops mmap size off) :
    MmapJournal.readFrom mmap size fuel off = [] := by
  cases fuel with
  | zero => rfl
  | succ fuel =>
    rw [MmapJournal.readFrom]
    by_cases hroom : off + 8 > size
    · rw [if_pos hroom]
    · rw [if_neg hroom]
      dsimp only
      by_cases hzero : mmap.readWord (off + 4) = 0
      · rw [if_pos hzero]
      · rcases hstops with hstop | hstop | hstop
        · exact absurd hstop hroom
        · exact absurd hstop hzero
        · rw [if_neg hzero, if_pos hstop]

theorem readFrom_of_not_stops {fuel : ℕ} (hnot : ¬ MmapJournal.Stops mmap size off) :
    MmapJournal.readFrom mmap size (fuel + 1) off =
      ⟨UInt32.ofNat (mmap.readWord off), mmap.read (off + 8) (mmap.readWord (off + 4))⟩ ::
        MmapJournal.readFrom mmap size fuel (off + paddedLen (mmap.readWord (off + 4))) := by
  obtain ⟨hroom, hnot⟩ := not_or.mp hnot
  obtain ⟨hzero, hfits⟩ := not_or.mp hnot
  rw [MmapJournal.readFrom, if_neg hroom]
  dsimp only
  rw [if_neg hzero, if_neg hfits]

/-- **A reader returns the records that stand before the end.** -/
theorem readFrom_laid {fuel : ℕ} (hlaid : Laid mmap off records)
    (hsized : ∀ record ∈ records, record.Sized) (hfits : off + span records ≤ size)
    (hend : MmapJournal.Stops mmap size (off + span records)) (hfuel : size ≤ fuel + off) :
    MmapJournal.readFrom mmap size fuel off = records := by
  induction records generalizing off fuel with
  | nil => exact readFrom_of_stops hend
  | cons record records ih =>
    have hrecord := hsized record mem_cons_self
    have hspan := hrecord.le_span
    rw [span_cons] at hfits hend
    obtain ⟨fuel, rfl⟩ : ∃ fuel', fuel = fuel' + 1 :=
      Nat.exists_eq_succ_of_ne_zero (by omega)
    rw [readFrom_record hlaid.1 hrecord (by omega)]
    rw [← Nat.add_assoc] at hfits hend
    rw [ih hlaid.2 (fun record hmem ↦ hsized record (mem_cons_of_mem _ hmem)) hfits hend
      (by omega)]

end Holds

/-! ## Appends one after the other -/

namespace MmapJournal

/-- The bytes of a segment are those of the records, with zeros after them. -/
structure FileStores (mmap : ByteMemory) (size : ℕ) (records : List Record) : Prop where
  laid : Laid mmap 0 records
  fits : span records ≤ size
  sized : ∀ record ∈ records, record.Sized
  clear : ∀ a, span records ≤ a → mmap a = 0

/-- The segment stores the records and is written after them. -/
structure Stores (j : MmapJournal) (records : List Record) : Prop where
  file : FileStores j.mmap j.size records
  offset : j.writeOffset = span records

/-- The append is accepted: the record can be written and leaves a byte of room. -/
def Accepts (j : MmapJournal) (record : Record) : Prop :=
  record.Sized ∧ j.writeOffset + record.span < j.size

instance (j : MmapJournal) (record : Record) : Decidable (j.Accepts record) :=
  inferInstanceAs (Decidable (_ ∧ _))

variable {j : MmapJournal} {records : List Record} {record : Record}

theorem FileStores.readCommitted_eq (hj : FileStores j.mmap j.size records) :
    j.readCommitted = records := by
  refine readFrom_laid hj.laid hj.sized ?_ (Or.inr (Or.inl ?_)) (le_refl _)
  · rw [Nat.zero_add]
    exact hj.fits
  · exact readWord_eq_zero fun a hlow _ ↦ hj.clear a (by omega)

/-- A segment is given its size again. -/
theorem FileStores.setLen {mmap : ByteMemory} {size : ℕ} (hfile : FileStores mmap size records) :
    mmap.setLen size = mmap := by
  funext a
  rw [ByteMemory.setLen]
  split
  · rfl
  case isFalse hge => exact (hfile.clear a (hfile.fits.trans (not_lt.mp hge))).symm

theorem fileStores_nil {mmap : ByteMemory} {size : ℕ} (hclear : ∀ a, mmap a = 0) :
    FileStores mmap size [] where
  laid := trivial
  fits := Nat.zero_le _
  sized := fun _ hmem ↦ absurd hmem not_mem_nil
  clear := fun a _ ↦ hclear a

theorem eq_nil_of_span_eq_zero (hsized : ∀ record ∈ records, record.Sized)
    (hspan : span records = 0) : records = [] := by
  cases records with
  | nil => rfl
  | cons record records =>
    have hrecord := (hsized record mem_cons_self).le_span
    rw [span_cons] at hspan
    omega

theorem appendLog_of_not_accepts (hnot : ¬ j.Accepts record) :
    j.appendLog record.tag record.data = (j, false) := by
  rw [appendLog]
  dsimp only
  split
  · rfl
  case isFalse hsized =>
    rw [if_pos]
    by_contra hroom
    exact hnot ⟨⟨by omega, by omega⟩, not_le.mp hroom⟩

/-- What an accepted append makes of the segment. -/
def appended (j : MmapJournal) (record : Record) : MmapJournal :=
  (((j.reserve record.span).writeTag j.writeOffset record.tag).writePayload j.writeOffset
    record.data).publishSize j.writeOffset record.data.length

theorem appendLog_of_accepts (haccepts : j.Accepts record) :
    j.appendLog record.tag record.data = (j.appended record, true) := by
  obtain ⟨⟨hpos, hmax⟩, hroom⟩ := haccepts
  have hless : ¬ j.writeOffset + paddedLen record.data.length ≥ j.size := not_le.mpr hroom
  rw [appendLog]
  dsimp only
  rw [if_neg (by omega), if_neg hless]
  rfl

theorem appended_of_lt {a : ℕ} (hlt : a < j.writeOffset) : (j.appended record).mmap a = j.mmap a := by
  simp only [appended, publishSize, writePayload, writeTag, reserve, ByteMemory.writeWord]
  rw [write_of_lt (by omega), write_of_lt (by omega),
    write_of_lt hlt]

theorem appended_of_ge {a : ℕ} (hsized : record.Sized) (hge : j.writeOffset + record.span ≤ a) :
    (j.appended record).mmap a = j.mmap a := by
  have hspan := hsized.le_span
  simp only [appended, publishSize, writePayload, writeTag, reserve, ByteMemory.writeWord]
  rw [write_of_ge (by rw [ByteCursor.length_leBytes]; omega),
    write_of_ge (by omega),
    write_of_ge (by rw [ByteCursor.length_leBytes]; omega)]

theorem holds_appended (hsized : record.Sized) :
    HoldsRecord (j.appended record).mmap j.writeOffset record where
  tag := by
    simp only [appended, publishSize, writePayload, writeTag, reserve]
    rw [readWord_writeWord_apart (by omega), readWord_write_apart (by omega),
      readWord_writeWord_self record.tag.toNat_lt]
  size := by
    have hmax := hsized.2
    rw [u32Max] at hmax
    exact readWord_writeWord_self (by omega)
  payload := by
    simp only [appended, publishSize, writePayload, writeTag, reserve]
    rw [read_writeWord_apart (by omega), read_write_self]

theorem Stores.appended (hj : j.Stores records) (haccepts : j.Accepts record) :
    (j.appended record).Stores (records ++ [record]) where
  file := {
    laid := by
      have hoffset := hj.offset
      refine laid_append.mpr ⟨hj.file.laid.congr hj.file.sized fun a _ hhigh ↦ ?_, ?_, trivial⟩
      · exact (appended_of_lt (by omega)).symm
      · rw [Nat.zero_add, ← hoffset]
        exact holds_appended haccepts.1
    fits := by
      have hroom := haccepts.2
      rw [hj.offset] at hroom
      rw [span_append, span_cons, span_nil, Nat.add_zero]
      exact hroom.le
    sized := by
      intro other hmem
      rcases List.mem_append.mp hmem with hold | hnew
      · exact hj.file.sized other hold
      · exact List.mem_singleton.mp hnew ▸ haccepts.1
    clear := by
      intro a ha
      rw [span_append, span_cons, span_nil, Nat.add_zero, ← hj.offset] at ha
      have hspan := haccepts.1.le_span
      rw [appended_of_ge haccepts.1 ha]
      exact hj.file.clear a (by rw [← hj.offset]; omega) }
  offset := by
    have hoffset : (j.appended record).writeOffset = j.writeOffset + record.span := rfl
    rw [hoffset, hj.offset, span_append, span_cons, span_nil, Nat.add_zero]

end MmapJournal

end SoulSystem.Journal
