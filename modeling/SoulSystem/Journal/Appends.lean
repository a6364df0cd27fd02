import SoulSystem.Journal.Segment
import SoulSystem.Library.Machine

/-!
# The journal of many threads

A writer loads the offset, reserves its slot by an exchange, writes tag and payload and publishes
the size; a reader loads a size, then copies tag and payload, slot by slot.  Each of these is one
step on the shared segment, an exchange may also fail for no reason, and between two steps of one
thread any number of steps of the others can happen.

Each slot starts where the slots before it end, a published slot holds its record, and the size
of any other is zero.  A writer finds its slot as it left it, and a reader stands behind
published slots.
-/

namespace SoulSystem.Journal

open Library List Function

section Steps

/-! ## Threads -/

inductive Call where
  | appendLog (tag : UInt32) (data : Bytes)
  | readCommitted
  deriving DecidableEq

/-- Where a thread stands in `append_log` or `read_committed`, with its local variables. -/
inductive Pc where
  | idle
  | load (record : Record)
  | reserve (record : Record) (currentOffset : ℕ)
  | writeTag (record : Record) (offset : ℕ)
  | writePayload (record : Record) (offset : ℕ)
  | publishSize (record : Record) (offset : ℕ)
  | readSize (off : ℕ) (out : List Record)
  | readTag (off size : ℕ) (out : List Record)
  | readPayload (off size tag : ℕ) (out : List Record)
  deriving DecidableEq

/-- What one step of a call leads to. -/
inductive Outcome where
  | goesOn (pc : Pc)
  | refused
  | accepted (offset : ℕ)
  | result (out : List Record)

def Pc.begin : Call → Pc
  | .appendLog tag data => .load ⟨tag, data⟩
  | .readCommitted => .readSize 0 []

/-- One step of a thread on the shared segment.  The checks on local variables belong to the load
before them, and to the exchange after them. -/
def MmapJournal.advance (j : MmapJournal) (spurious : Bool) : Pc → Option (MmapJournal × Outcome)
  | .idle => none
  | .load record =>
    let size := record.data.length
    if size = 0 ∨ size > u32Max then some (j, .refused)
    else some (j, .goesOn (.reserve record j.writeOffset))
  | .reserve record currentOffset =>
    let need := paddedLen record.data.length
    if currentOffset + need ≥ j.size then some (j, .refused)
    else if j.writeOffset = currentOffset ∧ spurious = false then
      some (j.reserve need, .goesOn (.writeTag record currentOffset))
    else some (j, .goesOn (.load record))
  | .writeTag record offset =>
    some (j.writeTag offset record.tag, .goesOn (.writePayload record offset))
  | .writePayload record offset =>
    some (j.writePayload offset record.data, .goesOn (.publishSize record offset))
  | .publishSize record offset =>
    some (j.publishSize offset record.data.length, .accepted offset)
  | .readSize off out =>
    if off + 8 > j.size then some (j, .result out)
    else
      let size := j.mmap.readWord (off + 4)
      if size = 0 then some (j, .result out)
      else if off + 8 + size > j.size then some (j, .result out)
      else some (j, .goesOn (.readTag off size out))
  | .readTag off size out => some (j, .goesOn (.readPayload off size (j.mmap.readWord off) out))
  | .readPayload off size tag out =>
    let payload := j.mmap.read (off + 8) size
    some (j, .goesOn (.readSize (off + paddedLen size) (out ++ [⟨UInt32.ofNat tag, payload⟩])))

/-! ## The machine -/

/-- A slot that was reserved, and whether its append has returned. -/
structure Slot where
  offset : ℕ
  record : Record
  published : Bool
  deriving DecidableEq

/-- The end of the slot. -/
def Slot.stop (slot : Slot) : ℕ := slot.offset + slot.record.span

/-- A read that has returned: what was committed when it was called, what it returned, and what was
appended when it returned. -/
structure ReadResult where
  before : List Record
  out : List Record
  after : List Record

/-- The shared segment, where each thread stands, the slots in the order of their reservation, what
was committed when each thread was called, and the reads that have returned. -/
structure JournalState (ι : Type) where
  journal : MmapJournal
  pc : ι → Pc
  slots : List Slot
  since : ι → List Record
  reads : List ReadResult

inductive JournalEvent (ι : Type) where
  | call (i : ι) (c : Call)
  | step (i : ι) (spurious : Bool)

variable {ι : Type}

namespace JournalState

/-- A segment of any size on a file of zeros. -/
def new (size : ℕ) : JournalState ι where
  journal := MmapJournal.newWithSize ByteMemory.zeros size
  pc := fun _ ↦ .idle
  slots := []
  since := fun _ ↦ []
  reads := []

/-- The records in the order of their reservation. -/
def appended (s : JournalState ι) : List Record := s.slots.map Slot.record

/-- The records whose append returned `true`. -/
def accepted (s : JournalState ι) : List Record :=
  (s.slots.filter Slot.published).map Slot.record

/-- The records before the first slot whose append has not returned. -/
def committed (s : JournalState ι) : List Record :=
  (s.slots.takeWhile Slot.published).map Slot.record

end JournalState

/-- The slot at the offset is published. -/
def publishAt (offset : ℕ) (slot : Slot) : Slot :=
  if slot.offset = offset then { slot with published := true } else slot

/-- The slots after a step. -/
def Outcome.slots (slots : List Slot) : Outcome → List Slot
  | .goesOn (.writeTag record offset) => slots ++ [⟨offset, record, false⟩]
  | .accepted offset => slots.map (publishAt offset)
  | _ => slots

attribute [grind =] Outcome.slots

/-- Where the thread stands after a step. -/
def Outcome.next : Outcome → Pc
  | .goesOn pc => pc
  | _ => .idle

attribute [grind =] Outcome.next

namespace JournalState

/-- The read that returns with a step. -/
def readsWith (s : JournalState ι) (i : ι) : Outcome → List ReadResult
  | .result out => [⟨s.since i, out, s.appended⟩]
  | _ => []

attribute [grind =] readsWith

variable [DecidableEq ι]

def settle (s : JournalState ι) (i : ι) (journal : MmapJournal) (outcome : Outcome) :
    JournalState ι where
  journal := journal
  pc := update s.pc i outcome.next
  slots := outcome.slots s.slots
  since := s.since
  reads := s.reads ++ s.readsWith i outcome

section Settle

variable (s : JournalState ι) (i : ι) (journal : MmapJournal)

/-- A step after which the call goes on, and by which no slot is reserved. -/
theorem settle_goesOn {pc : Pc} (hslots : (Outcome.goesOn pc).slots s.slots = s.slots) :
    s.settle i journal (.goesOn pc) =
      { s with journal := journal, pc := update s.pc i pc } := by
  rw [settle, hslots]
  simp [readsWith, Outcome.next]

theorem settle_writeTag (record : Record) (offset : ℕ) :
    s.settle i journal (.goesOn (.writeTag record offset)) =
      { s with
        journal := journal
        pc := update s.pc i (.writeTag record offset)
        slots := s.slots ++ [⟨offset, record, false⟩] } := by
  simp [settle, readsWith, Outcome.next, Outcome.slots]

theorem settle_refused : s.settle i journal .refused =
    { s with journal := journal, pc := update s.pc i .idle } := by
  simp [settle, readsWith, Outcome.next, Outcome.slots]

theorem settle_accepted (offset : ℕ) : s.settle i journal (.accepted offset) =
    { s with
      journal := journal
      pc := update s.pc i .idle
      slots := s.slots.map (publishAt offset) } := by
  simp [settle, readsWith, Outcome.next, Outcome.slots]

theorem settle_result (out : List Record) : s.settle i journal (.result out) =
    { s with
      journal := journal
      pc := update s.pc i .idle
      reads := s.reads ++ [⟨s.since i, out, s.appended⟩] } := by
  simp [settle, readsWith, Outcome.next, Outcome.slots]

end Settle

theorem settle_pc (s : JournalState ι) (i : ι) (journal : MmapJournal) (outcome : Outcome) :
    (s.settle i journal outcome).pc i = outcome.next := update_self ..

def begin (s : JournalState ι) (i : ι) (c : Call) : JournalState ι :=
  { s with
    pc := update s.pc i (.begin c)
    since := update s.since i s.committed }

end JournalState

/-- The journal of many threads, step by step. -/
def journalMachine (ι : Type) [DecidableEq ι] : Machine (JournalState ι) (JournalEvent ι) where
  step := fun s event ↦
    match event with
    | .call i c =>
      match s.pc i with
      | .idle => some (s.begin i c)
      | _ => none
    | .step i spurious =>
      (s.journal.advance spurious (s.pc i)).map fun next ↦ s.settle i next.1 next.2

/-! ## Torn-free and ordered -/

/-- The slot that a writer has reserved and not yet published. -/
def Pc.owned : Pc → Option ℕ
  | .writeTag _ offset | .writePayload _ offset | .publishSize _ offset => some offset
  | _ => none

namespace JournalState

/-- No writer is between its reservation and its return. -/
def NoWriter (s : JournalState ι) : Prop := ∀ i, (s.pc i).owned = none

/-- **Torn-free and ordered.**  The slots are apart and inside the segment; a read returns a prefix
of what was appended, and at least what was committed when it was called; and when no writer is
between its reservation and its return, what is committed, and what a read from there returns, is
all that was accepted. -/
structure Ordered (s : JournalState ι) : Prop where
  disjoint : s.slots.Pairwise fun slot slot' ↦ slot.stop ≤ slot'.offset
  inside : ∀ slot ∈ s.slots, slot.stop ≤ s.journal.size
  reads : ∀ read ∈ s.reads,
    read.before <+: read.out ∧ read.out <+: read.after ∧ read.after <+: s.appended
  complete : s.NoWriter → s.committed = s.accepted ∧ s.appended = s.accepted ∧
    s.journal.readCommitted = s.accepted

end JournalState

/-! ## One thread alone -/

namespace JournalState

variable [DecidableEq ι] {s : JournalState ι} {i : ι}

theorem run_step {pc : Pc} {journal : MmapJournal} {outcome : Outcome}
    {events : List (JournalEvent ι)} (hpc : s.pc i = pc)
    (hadvance : s.journal.advance false pc = some (journal, outcome)) :
    (journalMachine ι).run s (.step i false :: events) =
      (journalMachine ι).run (s.settle i journal outcome) events := by
  have hstep : (journalMachine ι).step s (.step i false) = some (s.settle i journal outcome) := by
    simp only [journalMachine, hpc, hadvance, Option.map_some]
  rw [Machine.run, hstep, Option.bind_some]

theorem advance_of_stops {j : MmapJournal} {off : ℕ} {out : List Record}
    (hstops : MmapJournal.Stops j.mmap j.size off) :
    j.advance false (.readSize off out) = some (j, .result out) := by
  rw [MmapJournal.advance]
  by_cases hroom : off + 8 > j.size
  · rw [if_pos hroom]
  · rw [if_neg hroom]
    dsimp only
    by_cases hzero : j.mmap.readWord (off + 4) = 0
    · rw [if_pos hzero]
    · rcases hstops with hstop | hstop | hstop
      · exact absurd hstop hroom
      · exact absurd hstop hzero
      · rw [if_neg hzero, if_pos hstop]

theorem advance_of_not_stops {j : MmapJournal} {off : ℕ} {out : List Record}
    (hnot : ¬ MmapJournal.Stops j.mmap j.size off) : j.advance false (.readSize off out) =
      some (j, .goesOn (.readTag off (j.mmap.readWord (off + 4)) out)) := by
  obtain ⟨hroom, hnot⟩ := not_or.mp hnot
  obtain ⟨hzero, hfits⟩ := not_or.mp hnot
  rw [MmapJournal.advance, if_neg hroom]
  dsimp only
  rw [if_neg hzero, if_neg hfits]

/-- A reader that does not stop copies a record and goes on behind it. -/
theorem run_readRecord {off : ℕ} {out : List Record} {events : List (JournalEvent ι)}
    (hpc : s.pc i = .readSize off out)
    (hnot : ¬ MmapJournal.Stops s.journal.mmap s.journal.size off) :
    (journalMachine ι).run s (.step i false :: .step i false :: .step i false :: events) =
      (journalMachine ι).run { s with
        pc := update s.pc i (.readSize
          (off + paddedLen (s.journal.mmap.readWord (off + 4)))
          (out ++ [⟨UInt32.ofNat (s.journal.mmap.readWord off),
            s.journal.mmap.read (off + 8) (s.journal.mmap.readWord (off + 4))⟩])) } events := by
  rw [run_step hpc (advance_of_not_stops hnot), run_step (settle_pc ..) rfl,
    run_step (settle_pc ..) rfl, settle_goesOn _ _ _ rfl, settle_goesOn _ _ _ rfl,
    settle_goesOn _ _ _ rfl]
  dsimp only
  rw [update_idem, update_idem]

/-- **A reader alone returns what is committed in the segment.** -/
theorem readSize_alone {fuel off : ℕ} {out : List Record} (hpc : s.pc i = .readSize off out)
    (hfuel : s.journal.size ≤ fuel + off) :
    ∃ n s', (journalMachine ι).run s (List.replicate n (.step i false)) = some s' ∧
      s'.journal = s.journal ∧ s'.reads = s.reads ++
        [⟨s.since i, out ++ MmapJournal.readFrom s.journal.mmap s.journal.size fuel off,
          s.appended⟩] := by
  induction fuel generalizing s off out with
  | zero =>
    have hstops : MmapJournal.Stops s.journal.mmap s.journal.size off := Or.inl (by omega)
    refine ⟨1, s.settle i s.journal (.result out), run_step hpc (advance_of_stops hstops), ?_, ?_⟩
    · rw [settle_result]
    · rw [settle_result, readFrom_of_stops hstops, append_nil]
  | succ fuel ih =>
    by_cases hstops : MmapJournal.Stops s.journal.mmap s.journal.size off
    · refine ⟨1, s.settle i s.journal (.result out),
        run_step hpc (advance_of_stops hstops), ?_, ?_⟩
      · rw [settle_result]
      · rw [settle_result, readFrom_of_stops hstops, append_nil]
    · have hlt := s.journal.mmap.readWord_lt (off + 4)
      have hlength : s.journal.mmap.readWord (off + 4) + 8 ≤
          paddedLen (s.journal.mmap.readWord (off + 4)) :=
        add_le_paddedLen (by rw [u32Max]; omega)
      have hnext : ({ s with
          pc := update s.pc i (.readSize
            (off + paddedLen (s.journal.mmap.readWord (off + 4)))
            (out ++ [⟨UInt32.ofNat (s.journal.mmap.readWord off),
              s.journal.mmap.read (off + 8) (s.journal.mmap.readWord (off + 4))⟩])) } :
          JournalState ι).pc i = .readSize _ _ := update_self ..
      obtain ⟨n, s', hrun, hjournal, hreads⟩ := ih hnext (by dsimp only; omega)
      refine ⟨n + 3, s', (run_readRecord hpc hstops).trans hrun, hjournal, ?_⟩
      rw [hreads, readFrom_of_not_stops hstops, append_assoc, singleton_append]
      rfl

/-- A call of `read_committed` by a thread that runs alone. -/
theorem readCommitted_alone (hpc : s.pc i = .idle) :
    ∃ n s', (journalMachine ι).run s
        (.call i .readCommitted :: List.replicate n (.step i false)) = some s' ∧
      s'.journal = s.journal ∧
        s'.reads = s.reads ++ [⟨s.committed, s.journal.readCommitted, s.appended⟩] := by
  have hbegin : (s.begin i .readCommitted).pc i = .readSize 0 [] := update_self ..
  obtain ⟨n, s', hrun, hjournal, hreads⟩ := readSize_alone hbegin (le_refl s.journal.size)
  have hcall : (journalMachine ι).step s (.call i .readCommitted) =
      some (s.begin i .readCommitted) := by
    simp only [journalMachine, hpc]
  have hsince : (s.begin i .readCommitted).since i = s.committed := update_self ..
  refine ⟨n, s', ?_, hjournal, ?_⟩
  · rw [Machine.run, hcall, Option.bind_some]
    exact hrun
  · rw [hreads, hsince, nil_append]
    rfl

/-- A call of `append_log` by a thread that runs alone. -/
theorem appendLog_alone (tag : UInt32) (data : Bytes) (hpc : s.pc i = .idle) :
    ∃ n s', (journalMachine ι).run s
        (.call i (.appendLog tag data) :: List.replicate n (.step i false)) = some s' ∧
      s'.pc i = .idle ∧ s'.journal = (s.journal.appendLog tag data).1 := by
  have hbegin : (s.begin i (.appendLog tag data)).pc i = .load ⟨tag, data⟩ :=
    update_self ..
  have hcall : ∀ events, (journalMachine ι).run s (.call i (.appendLog tag data) :: events) =
      (journalMachine ι).run (s.begin i (.appendLog tag data)) events := by
    intro events
    have hstep : (journalMachine ι).step s (.call i (.appendLog tag data)) =
        some (s.begin i (.appendLog tag data)) := by
      simp only [journalMachine, hpc]
    rw [Machine.run, hstep, Option.bind_some]
  by_cases hsized : data.length = 0 ∨ data.length > u32Max
  · have hload : s.journal.advance false (.load ⟨tag, data⟩) = some (s.journal, .refused) :=
      if_pos hsized
    have hjournal : s.journal.appendLog tag data = (s.journal, false) := if_pos hsized
    refine ⟨1, _, (hcall _).trans (run_step hbegin hload), ?_, ?_⟩
    · exact settle_pc ..
    · rw [settle_refused, hjournal]
  · have hload : s.journal.advance false (.load ⟨tag, data⟩) =
        some (s.journal, .goesOn (.reserve ⟨tag, data⟩ s.journal.writeOffset)) := if_neg hsized
    by_cases hroom : s.journal.writeOffset + paddedLen data.length ≥ s.journal.size
    · have hreserve : s.journal.advance false (.reserve ⟨tag, data⟩ s.journal.writeOffset) =
          some (s.journal, .refused) := if_pos hroom
      have hjournal : s.journal.appendLog tag data = (s.journal, false) := by
        rw [MmapJournal.appendLog]
        dsimp only
        rw [if_neg hsized, if_pos hroom]
      let loaded := (s.begin i (.appendLog tag data)).settle i s.journal
        (.goesOn (.reserve ⟨tag, data⟩ s.journal.writeOffset))
      have hloaded : loaded.pc i = .reserve ⟨tag, data⟩ s.journal.writeOffset := settle_pc ..
      refine ⟨2, loaded.settle i s.journal .refused, ?_, settle_pc .., ?_⟩
      · rw [hcall, replicate_succ, run_step hbegin hload, replicate_one,
          run_step hloaded hreserve, Machine.run]
      · rw [settle_refused, hjournal]
    · have hreserve : s.journal.advance false (.reserve ⟨tag, data⟩ s.journal.writeOffset) =
          some (s.journal.reserve (paddedLen data.length),
            .goesOn (.writeTag ⟨tag, data⟩ s.journal.writeOffset)) := by
        rw [MmapJournal.advance]
        dsimp only
        rw [if_neg hroom, if_pos ⟨rfl, rfl⟩]
      let loaded := (s.begin i (.appendLog tag data)).settle i s.journal
        (.goesOn (.reserve ⟨tag, data⟩ s.journal.writeOffset))
      have hloaded : loaded.pc i = .reserve ⟨tag, data⟩ s.journal.writeOffset := settle_pc ..
      let reserved := loaded.settle i (s.journal.reserve (paddedLen data.length))
        (.goesOn (.writeTag ⟨tag, data⟩ s.journal.writeOffset))
      let tagged := reserved.settle i (reserved.journal.writeTag s.journal.writeOffset tag)
        (.goesOn (.writePayload ⟨tag, data⟩ s.journal.writeOffset))
      let written := tagged.settle i (tagged.journal.writePayload s.journal.writeOffset data)
        (.goesOn (.publishSize ⟨tag, data⟩ s.journal.writeOffset))
      refine ⟨5, written.settle i (written.journal.publishSize s.journal.writeOffset data.length)
        (.accepted s.journal.writeOffset), ?_, settle_pc .., ?_⟩
      · rw [hcall, replicate_succ, run_step hbegin hload, replicate_succ,
          run_step hloaded hreserve, replicate_succ, run_step (settle_pc ..) rfl,
          replicate_succ, run_step (settle_pc ..) rfl, replicate_one,
          run_step (settle_pc ..) rfl, Machine.run]
      · rw [settle_accepted, MmapJournal.appendLog]
        dsimp only
        rw [if_neg hsized, if_neg hroom]
        rfl

/-! ## One thread alone -/

/-- Appends that one thread makes in turn leave the journal that their calls leave. -/
theorem exists_run_appends (size : ℕ) (i : ι) (records : List Record) :
    ∃ events s, (journalMachine ι).run (new size) events = some s ∧ s.pc i = .idle ∧
      s.journal = records.foldl (fun j record ↦ (j.appendLog record.tag record.data).1)
        (MmapJournal.newWithSize ByteMemory.zeros size) := by
  induction records using reverseRecOn with
  | nil => exact ⟨[], new size, rfl, rfl, rfl⟩
  | append_singleton records record ih =>
    obtain ⟨events, s, hrun, hpc, hjournal⟩ := ih
    obtain ⟨n, s', hrun', hpc', hjournal'⟩ := appendLog_alone record.tag record.data hpc
    refine ⟨_, s', (Machine.run_append hrun).trans hrun', hpc', ?_⟩
    rw [hjournal', hjournal, foldl_append]
    rfl

end JournalState

end Steps

/-! ## The invariant of the journal -/

variable {ι : Type}

/-! ## Prefixes of the records -/

theorem span_le_of_prefix {records records' : List Record} (hinit : records <+: records') :
    span records ≤ span records' := by
  obtain ⟨rest, rfl⟩ := hinit
  rw [span_append]
  exact Nat.le_add_right _ _

theorem span_take_succ {records : List Record} {k : ℕ} {record : Record}
    (hget : records[k]? = some record) :
    span (records.take (k + 1)) = span (records.take k) + record.span := by
  rw [take_add_one, hget, Option.toList_some, span_append, span_cons, span_nil, Nat.add_zero]

/-! ## The invariant -/

namespace JournalState

/-- The reader has read `out`, and what was committed when it was called is still there. -/
structure Behind (slots : List Slot) (since out : List Record) : Prop where
  read : out <+: slots.map Slot.record
  known : since <+: slots.map Slot.record
  readPublished : ∀ slot ∈ slots.take out.length, slot.published = true
  knownPublished : ∀ slot ∈ slots.take since.length, slot.published = true

/-- What a thread knows where it stands. -/
def Knows (mmap : ByteMemory) (slots : List Slot) (since : List Record) : Pc → Prop
  | .reserve record _ => record.Sized
  | .writeTag record offset => ⟨offset, record, false⟩ ∈ slots
  | .writePayload record offset =>
    ⟨offset, record, false⟩ ∈ slots ∧ mmap.readWord offset = record.tag.toNat
  | .publishSize record offset =>
    ⟨offset, record, false⟩ ∈ slots ∧ mmap.readWord offset = record.tag.toNat ∧
      mmap.read (offset + 8) record.data.length = record.data
  | .readSize off out => Behind slots since out ∧ off = span out
  | .readTag off size out => Behind slots since out ∧ off = span out ∧
      ∃ slot, slots[out.length]? = some slot ∧ slot.published = true ∧
        size = slot.record.data.length
  | .readPayload off size tag out => Behind slots since out ∧ off = span out ∧
      ∃ slot, slots[out.length]? = some slot ∧ slot.published = true ∧
        size = slot.record.data.length ∧ tag = slot.record.tag.toNat
  | _ => True

/-- The invariant of the segment with its slots. -/
structure SlotsInv (journal : MmapJournal) (slots : List Slot) : Prop where
  starts : ∀ (k : ℕ) slot, slots[k]? = some slot →
    slot.offset = span ((slots.map Slot.record).take k)
  offset : journal.writeOffset = span (slots.map Slot.record)
  fits : journal.writeOffset ≤ journal.size
  sized : ∀ slot ∈ slots, slot.record.Sized
  published : ∀ slot ∈ slots, slot.published = true →
    HoldsRecord journal.mmap slot.offset slot.record
  silent : ∀ slot ∈ slots, slot.published = false → journal.mmap.readWord (slot.offset + 4) = 0
  clear : ∀ a, journal.writeOffset ≤ a → journal.mmap a = 0

structure Inv (s : JournalState ι) : Prop where
  slots : SlotsInv s.journal s.slots
  knows : ∀ i, Knows s.journal.mmap s.slots (s.since i) (s.pc i)
  apart : ∀ i j offset, (s.pc i).owned = some offset → (s.pc j).owned = some offset → i = j
  writers : ∀ slot ∈ s.slots, slot.published = false → ∃ i, (s.pc i).owned = some slot.offset
  reads : ∀ read ∈ s.reads,
    read.before <+: read.out ∧ read.out <+: read.after ∧ read.after <+: s.appended

theorem inv_new (size : ℕ) : (new size : JournalState ι).Inv where
  slots := {
    starts := fun _ _ hget ↦ nomatch hget
    offset := rfl
    fits := Nat.zero_le _
    sized := fun _ hmem ↦ absurd hmem not_mem_nil
    published := fun _ hmem ↦ absurd hmem not_mem_nil
    silent := fun _ hmem ↦ absurd hmem not_mem_nil
    clear := fun _ _ ↦ ite_self (0 : UInt8) }
  knows := fun _ ↦ trivial
  apart := fun _ _ _ hi ↦ nomatch hi
  writers := fun _ hmem ↦ absurd hmem not_mem_nil
  reads := fun _ hmem ↦ absurd hmem not_mem_nil

end JournalState

/-! ## Slots -/

namespace JournalState.SlotsInv

variable {journal : MmapJournal} {slots : List Slot} (hinv : SlotsInv journal slots)
include hinv

theorem stop_eq {k : ℕ} {slot : Slot} (hget : slots[k]? = some slot) :
    slot.stop = span ((slots.map Slot.record).take (k + 1)) := by
  have hrecord : (slots.map Slot.record)[k]? = some slot.record := by
    rw [getElem?_map, hget, Option.map_some]
  rw [Slot.stop, hinv.starts k slot hget, span_take_succ hrecord]

theorem stop_le_offset {j k : ℕ} {slot slot' : Slot} (hlt : j < k) (hj : slots[j]? = some slot)
    (hk : slots[k]? = some slot') : slot.stop ≤ slot'.offset := by
  rw [hinv.stop_eq hj, hinv.starts k slot' hk]
  exact span_le_of_prefix (take_prefix_take_left hlt)

theorem stop_le {slot : Slot} (hmem : slot ∈ slots) : slot.stop ≤ journal.writeOffset := by
  obtain ⟨k, hget⟩ := mem_iff_getElem?.mp hmem
  rw [hinv.stop_eq hget, hinv.offset]
  exact span_le_of_prefix (List.take_prefix _ _)

theorem lt_stop {slot : Slot} (hmem : slot ∈ slots) : slot.offset + 8 < slot.stop := by
  have hspan := (hinv.sized slot hmem).le_span
  have hpos := (hinv.sized slot hmem).1
  rw [Slot.stop]
  omega

/-- Two slots are one, or apart. -/
theorem eq_or_apart {slot slot' : Slot} (hmem : slot ∈ slots) (hmem' : slot' ∈ slots) :
    slot = slot' ∨ slot.stop ≤ slot'.offset ∨ slot'.stop ≤ slot.offset := by
  obtain ⟨j, hj⟩ := mem_iff_getElem?.mp hmem
  obtain ⟨k, hk⟩ := mem_iff_getElem?.mp hmem'
  rcases lt_trichotomy j k with hlt | rfl | hlt
  · exact Or.inr (Or.inl (hinv.stop_le_offset hlt hj hk))
  · rw [hj] at hk
    exact Or.inl (Option.some.inj hk)
  · exact Or.inr (Or.inr (hinv.stop_le_offset hlt hk hj))

/-- Slots at one offset are one. -/
theorem eq_of_offset {slot slot' : Slot} (hmem : slot ∈ slots) (hmem' : slot' ∈ slots)
    (hoffset : slot.offset = slot'.offset) : slot = slot' := by
  have hslot := hinv.lt_stop hmem
  have hslot' := hinv.lt_stop hmem'
  rcases hinv.eq_or_apart hmem hmem' with heq | hbefore | hafter
  · exact heq
  · omega
  · omega

theorem pairwise : slots.Pairwise fun slot slot' ↦ slot.stop ≤ slot'.offset := by
  rw [pairwise_iff_getElem]
  intro j k hj hk hlt
  exact hinv.stop_le_offset hlt (getElem?_eq_getElem hj) (getElem?_eq_getElem hk)

end JournalState.SlotsInv

/-! ## Slots that grow -/

/-- The slots are still there, and those that were published still are. -/
def Grows (slots slots' : List Slot) : Prop :=
  ∀ (k : ℕ) slot, slots[k]? = some slot → ∃ slot', slots'[k]? = some slot' ∧
    slot'.record = slot.record ∧ (slot.published = true → slot'.published = true)

section Grows

variable {slots slots' : List Slot} {since out : List Record}

theorem Grows.refl (slots : List Slot) : Grows slots slots :=
  fun _ slot hget ↦ ⟨slot, hget, rfl, id⟩

theorem grows_append (slots rest : List Slot) : Grows slots (slots ++ rest) := by
  intro k slot hget
  refine ⟨slot, ?_, rfl, id⟩
  rw [getElem?_append_left (List.getElem?_eq_some_iff.mp hget).1, hget]

theorem publishAt_record (offset : ℕ) (slot : Slot) :
    (publishAt offset slot).record = slot.record := by
  rw [publishAt]
  split <;> rfl

theorem publishAt_offset (offset : ℕ) (slot : Slot) :
    (publishAt offset slot).offset = slot.offset := by
  rw [publishAt]
  split <;> rfl

theorem publishAt_published {offset : ℕ} {slot : Slot} (hpublished : slot.published = true) :
    (publishAt offset slot).published = true := by
  rw [publishAt]
  split
  · rfl
  · exact hpublished

theorem grows_publishAt (slots : List Slot) (offset : ℕ) :
    Grows slots (slots.map (publishAt offset)) := by
  intro k slot hget
  refine ⟨publishAt offset slot, ?_, publishAt_record offset slot, publishAt_published⟩
  rw [getElem?_map, hget, Option.map_some]

theorem map_record_publishAt (slots : List Slot) (offset : ℕ) :
    (slots.map (publishAt offset)).map Slot.record = slots.map Slot.record := by
  rw [map_map]
  exact map_congr_left fun slot _ ↦ publishAt_record offset slot

theorem Grows.records_isPrefix (hgrows : Grows slots slots') :
    slots.map Slot.record <+: slots'.map Slot.record := by
  rw [prefix_iff_getElem?]
  intro k hk
  rw [length_map] at hk
  obtain ⟨slot', hget, hrecord, -⟩ := hgrows k _ (getElem?_eq_getElem hk)
  rw [getElem?_map, hget, Option.map_some, hrecord, getElem_map]

theorem Grows.published {n : ℕ} (hgrows : Grows slots slots') (hn : n ≤ slots.length)
    (hpublished : ∀ slot ∈ slots.take n, slot.published = true) :
    ∀ slot ∈ slots'.take n, slot.published = true := by
  intro slot' hmem
  obtain ⟨k, hk⟩ := mem_iff_getElem?.mp hmem
  have hlt : k < n := (List.getElem?_eq_some_iff.mp hk).1.trans_le (length_take_le _ _)
  rw [getElem?_take_of_lt hlt] at hk
  have hold := getElem?_eq_getElem (hlt.trans_le hn)
  obtain ⟨slot'', hget, -, hkeeps⟩ := hgrows k _ hold
  rw [hk] at hget
  cases hget
  refine hkeeps (hpublished _ (mem_iff_getElem?.mpr ⟨k, ?_⟩))
  rw [getElem?_take_of_lt hlt, hold]

theorem JournalState.Behind.grows (hbehind : Behind slots since out) (hgrows : Grows slots slots') :
    Behind slots' since out where
  read := hbehind.read.trans hgrows.records_isPrefix
  known := hbehind.known.trans hgrows.records_isPrefix
  readPublished := hgrows.published
    (hbehind.read.length_le.trans_eq (length_map _)) hbehind.readPublished
  knownPublished := hgrows.published
    (hbehind.known.length_le.trans_eq (length_map _)) hbehind.knownPublished

/-- What a thread knows stays true when the slots grow and its own slot is left alone. -/
theorem JournalState.Knows.frame {mmap mmap' : ByteMemory} {pc : Pc}
    (hknows : Knows mmap slots since pc) (hgrows : Grows slots slots')
    (hsized : ∀ slot ∈ slots, slot.record.Sized)
    (hown : ∀ offset record, pc.owned = some offset → ⟨offset, record, false⟩ ∈ slots →
      ⟨offset, record, false⟩ ∈ slots' ∧
        ∀ a, offset ≤ a → a < offset + record.span → mmap a = mmap' a) :
    Knows mmap' slots' since pc := by
  cases pc with
  | writeTag record offset => exact (hown offset record rfl hknows).1
  | writePayload record offset =>
    obtain ⟨hmem, htag⟩ := hknows
    have hspan := (hsized _ hmem).le_span
    obtain ⟨hmem', hsame⟩ := hown offset record rfl hmem
    refine ⟨hmem', ?_⟩
    rw [← htag]
    exact (ByteMemory.readWord_congr fun a hlow hhigh ↦
      hsame a hlow (by dsimp only at hspan; omega)).symm
  | publishSize record offset =>
    obtain ⟨hmem, htag, hpayload⟩ := hknows
    have hspan := (hsized _ hmem).le_span
    dsimp only at hspan
    obtain ⟨hmem', hsame⟩ := hown offset record rfl hmem
    refine ⟨hmem', ?_, ?_⟩
    · rw [← htag]
      exact (ByteMemory.readWord_congr fun a hlow hhigh ↦ hsame a hlow (by omega)).symm
    · rw [← ByteMemory.read_congr fun a hlow hhigh ↦ hsame a (by omega) (by omega)]
      exact hpayload
  | readSize off out => exact ⟨hknows.1.grows hgrows, hknows.2⟩
  | readTag off size out =>
    obtain ⟨hbehind, hoff, slot, hget, hpublished, hsize⟩ := hknows
    obtain ⟨slot', hget', hrecord, hkeeps⟩ := hgrows _ slot hget
    exact ⟨hbehind.grows hgrows, hoff, slot', hget', hkeeps hpublished, hrecord ▸ hsize⟩
  | readPayload off size tag out =>
    obtain ⟨hbehind, hoff, slot, hget, hpublished, hsize, htag⟩ := hknows
    obtain ⟨slot', hget', hrecord, hkeeps⟩ := hgrows _ slot hget
    exact ⟨hbehind.grows hgrows, hoff, slot', hget', hkeeps hpublished, hrecord ▸ hsize,
      hrecord ▸ htag⟩
  | reserve record currentOffset => exact hknows
  | idle => trivial
  | load record => trivial

end Grows

end SoulSystem.Journal
