import SoulSystem.Library.Slots
import SoulSystem.Journal.Appends
import Mathlib.Data.List.TakeWhile

/-!
# Every step keeps the invariant of the journal

The reservation, the three writes of a writer, and the steps of a reader.
-/

namespace SoulSystem.Journal

open Library List Function SoulSystem.Library.ByteMemory

variable {ι : Type}

namespace JournalState

/-! ## The slots after a step of a writer -/

section Slots

variable {journal : MmapJournal} {slots : List Slot} {record : Record} {offset : ℕ}
  (hinv : SlotsInv journal slots)
include hinv

theorem SlotsInv.reserve (hsized : record.Sized)
    (hroom : journal.writeOffset + record.span < journal.size) :
    SlotsInv (journal.reserve record.span)
      (slots ++ [⟨journal.writeOffset, record, false⟩]) where
  starts := by
    intro k slot hget
    rcases Nat.lt_or_ge k slots.length with hlt | hge
    · rw [getElem?_append_left hlt] at hget
      rw [map_append, take_append_of_le_length (by rw [length_map]; exact hlt.le)]
      exact hinv.starts k slot hget
    · rw [getElem?_append_right hge] at hget
      have hzero : k - slots.length = 0 := by
        by_contra hne
        rw [getElem?_eq_none (by rw [length_singleton]; omega)] at hget
        cases hget
      rw [hzero] at hget
      cases hget
      have hk : k = (slots.map Slot.record).length := by
        rw [length_map]
        omega
      rw [map_append, hk, take_left']
      · exact hinv.offset
      · rfl
  offset := by
    rw [map_append, span_append, ← hinv.offset]
    rfl
  fits := hroom.le
  sized := by
    intro slot hmem
    rcases List.mem_append.mp hmem with hold | hnew
    · exact hinv.sized slot hold
    · cases List.mem_singleton.mp hnew
      exact hsized
  published := by
    intro slot hmem hpublished
    rcases List.mem_append.mp hmem with hold | hnew
    · exact hinv.published slot hold hpublished
    · cases List.mem_singleton.mp hnew
      cases hpublished
  silent := by
    intro slot hmem hsilent
    rcases List.mem_append.mp hmem with hold | hnew
    · exact hinv.silent slot hold hsilent
    · cases List.mem_singleton.mp hnew
      exact readWord_eq_zero fun a hlow _ ↦ hinv.clear a (by dsimp only at hlow; omega)
  clear := by
    intro a ha
    change journal.writeOffset + record.span ≤ a at ha
    exact hinv.clear a (by omega)

variable (hmem : ⟨offset, record, false⟩ ∈ slots)
include hmem

/-- A change of the bytes of a slot leaves the others. -/
theorem SlotsInv.apart {mmap : ByteMemory}
    (hsame : ∀ a, a < offset ∨ offset + record.span ≤ a → journal.mmap a = mmap a) {slot : Slot}
    (hslot : slot ∈ slots) (hne : slot.offset ≠ offset) (a : ℕ) (hlow : slot.offset ≤ a)
    (hhigh : a < slot.stop) : journal.mmap a = mmap a := by
  rcases hinv.eq_or_apart hslot hmem with rfl | hbefore | hafter
  · exact absurd rfl hne
  · exact hsame a (Or.inl (hhigh.trans_le hbefore))
  · exact hsame a (Or.inr (le_trans hafter hlow))

/-- The tag or the payload of a slot is written. -/
theorem SlotsInv.write {mmap : ByteMemory}
    (hsame : ∀ a, a < offset ∨ offset + record.span ≤ a → journal.mmap a = mmap a)
    (hsize : mmap.readWord (offset + 4) = journal.mmap.readWord (offset + 4)) :
    SlotsInv { journal with mmap := mmap } slots where
  starts := hinv.starts
  offset := hinv.offset
  fits := hinv.fits
  sized := hinv.sized
  published := by
    intro slot hslot hpublished
    have hne : slot.offset ≠ offset := by
      intro heq
      cases hinv.eq_of_offset hslot hmem heq
      cases hpublished
    exact (hinv.published slot hslot hpublished).congr (hinv.sized slot hslot)
      (hinv.apart hmem hsame hslot hne)
  silent := by
    intro slot hslot hsilent
    have hspan := hinv.lt_stop hslot
    by_cases heq : slot.offset = offset
    · rw [heq]
      exact hsize.trans (heq ▸ hinv.silent slot hslot hsilent)
    · have hword : journal.mmap.readWord (slot.offset + 4) = mmap.readWord (slot.offset + 4) :=
        readWord_congr fun a hlow hhigh ↦
          hinv.apart hmem hsame hslot heq a (by omega) (by omega)
      exact hword.symm.trans (hinv.silent slot hslot hsilent)
  clear := by
    intro a ha
    have hstop := hinv.stop_le hmem
    exact (hsame a (Or.inr (le_trans hstop ha))).symm.trans (hinv.clear a ha)

/-- The size of a slot is written after its tag and payload. -/
theorem SlotsInv.publish (htag : journal.mmap.readWord offset = record.tag.toNat)
    (hpayload : journal.mmap.read (offset + 8) record.data.length = record.data) :
    SlotsInv (journal.publishSize offset record.data.length)
      (slots.map (publishAt offset)) := by
  have hspan := (hinv.sized _ hmem).le_span
  have hmax := (hinv.sized _ hmem).2
  dsimp only at hspan hmax
  rw [u32Max] at hmax
  have hsame : ∀ a, a < offset ∨ offset + record.span ≤ a →
      journal.mmap a = (journal.publishSize offset record.data.length).mmap a := by
    intro a ha
    change _ = journal.mmap.write (offset + 4) _ a
    rcases ha with hbefore | hafter
    · rw [write_of_lt (by omega)]
    · rw [write_of_ge (by rw [ByteCursor.length_leBytes]; omega)]
  have hholds : HoldsRecord (journal.publishSize offset record.data.length).mmap offset record := by
    refine ⟨?_, readWord_writeWord_self (by omega), ?_⟩
    · exact (readWord_writeWord_apart (by omega)).trans htag
    · exact (read_writeWord_apart (by omega)).trans hpayload
  exact {
    starts := by
      intro k slot hget
      rw [map_record_publishAt]
      rw [getElem?_map] at hget
      obtain ⟨old, hold, rfl⟩ := Option.map_eq_some_iff.mp hget
      rw [publishAt_offset]
      exact hinv.starts k old hold
    offset := by
      rw [map_record_publishAt]
      exact hinv.offset
    fits := hinv.fits
    sized := by
      intro slot hslot
      obtain ⟨old, hold, rfl⟩ := List.mem_map.mp hslot
      rw [publishAt_record]
      exact hinv.sized old hold
    published := by
      intro slot hslot hpublished
      obtain ⟨old, hold, rfl⟩ := List.mem_map.mp hslot
      rw [publishAt_record, publishAt_offset]
      by_cases heq : old.offset = offset
      · cases hinv.eq_of_offset hold hmem heq
        exact hholds
      · rw [publishAt, if_neg heq] at hpublished
        exact (hinv.published old hold hpublished).congr (hinv.sized old hold)
          (hinv.apart hmem hsame hold heq)
    silent := by
      intro slot hslot hsilent
      obtain ⟨old, hold, rfl⟩ := List.mem_map.mp hslot
      have hstop := hinv.lt_stop hold
      by_cases heq : old.offset = offset
      · rw [publishAt, if_pos heq] at hsilent
        cases hsilent
      · rw [publishAt, if_neg heq] at hsilent ⊢
        have hword : journal.mmap.readWord (old.offset + 4) =
            (journal.publishSize offset record.data.length).mmap.readWord (old.offset + 4) :=
          readWord_congr fun a hlow hhigh ↦
            hinv.apart hmem hsame hold heq a (by omega) (by omega)
        exact hword.symm.trans (hinv.silent old hold hsilent)
    clear := by
      intro a ha
      have hstop := hinv.stop_le hmem
      exact (hsame a (Or.inr (le_trans hstop ha))).symm.trans (hinv.clear a ha) }

end Slots

/-! ## One thread moves -/

section Update

variable [DecidableEq ι] {pc : ι → Pc} {i : ι} {new : Pc}

theorem knows_update {mmap : ByteMemory} {slots : List Slot} {since : ι → List Record}
    (hnew : Knows mmap slots (since i) new)
    (hothers : ∀ j, j ≠ i → Knows mmap slots (since j) (pc j)) (j : ι) :
    Knows mmap slots (since j) (update pc i new j) :=
  (forall_update_iff pc fun j ↦ Knows mmap slots (since j)).mpr ⟨hnew, hothers⟩ j

theorem apart_update
    (hapart : ∀ j k offset, (pc j).owned = some offset → (pc k).owned = some offset → j = k)
    (hnew : ∀ offset, new.owned = some offset → ∀ j, j ≠ i → (pc j).owned ≠ some offset) (j k : ι)
    (offset : ℕ) (hj : (update pc i new j).owned = some offset)
    (hk : (update pc i new k).owned = some offset) : j = k :=
  @Threads.Apart.update ι Pc ℕ _ Pc.owned pc i new hapart hnew j k offset hj hk

/-- The writers of the other slots are still there. -/
theorem writers_update {offset : ℕ} (hwriter : ∃ j, (pc j).owned = some offset)
    (hnew : (pc i).owned = some offset → new.owned = some offset) :
    ∃ j, (update pc i new j).owned = some offset := by
  obtain ⟨j, hj⟩ := hwriter
  by_cases hsame : j = i
  · exact ⟨i, by rw [update_self]; exact hnew (hsame ▸ hj)⟩
  · exact ⟨j, by rw [update_of_ne hsame]; exact hj⟩

end Update

variable {s : JournalState ι} {i : ι} {record : Record} {offset : ℕ}

/-! ## Where a thread stands -/

/-- The slot of a writer that has reserved one. -/
theorem Inv.slot_of_owned (hs : s.Inv) (howned : (s.pc i).owned = some offset) :
    ∃ record, ⟨offset, record, false⟩ ∈ s.slots := by
  have hknows := hs.knows i
  cases hpc : s.pc i with
  | writeTag record other =>
    rw [hpc] at howned hknows
    cases howned
    exact ⟨record, hknows⟩
  | writePayload record other =>
    rw [hpc] at howned hknows
    cases howned
    exact ⟨record, hknows.1⟩
  | publishSize record other =>
    rw [hpc] at howned hknows
    cases howned
    exact ⟨record, hknows.1⟩
  | _ =>
    rw [hpc] at howned
    cases howned

theorem Behind.take_eq {slots : List Slot} {since out : List Record}
    (hbehind : Behind slots since out) : (slots.map Slot.record).take out.length = out :=
  (List.prefix_iff_eq_take.mp hbehind.read).symm

/-- The next slot starts where the reader stands. -/
theorem Behind.offset_eq {journal : MmapJournal} {slots : List Slot} {since out : List Record}
    (hbehind : Behind slots since out) (hinv : SlotsInv journal slots) {slot : Slot}
    (hget : slots[out.length]? = some slot) : slot.offset = span out := by
  rw [hinv.starts _ slot hget, hbehind.take_eq]

/-- What stands where a reader loads a size: a published record, or nothing. -/
theorem Inv.standsAt (hs : s.Inv) {off : ℕ} {out : List Record} (hpc : s.pc i = .readSize off out) :
    (∃ slot, s.slots[out.length]? = some slot ∧ slot.published = true ∧
      HoldsRecord s.journal.mmap off slot.record ∧ off + slot.record.span ≤ s.journal.size) ∨
      ((∀ slot, s.slots[out.length]? = some slot → slot.published = false) ∧
        s.journal.mmap.readWord (off + 4) = 0) := by
  have hknows := hs.knows i
  rw [hpc] at hknows
  obtain ⟨hbehind, hoff⟩ := hknows
  cases hget : s.slots[out.length]? with
  | none =>
    refine Or.inr ⟨fun slot hslot ↦ (nomatch hslot), ?_⟩
    have hall : out = s.slots.map Slot.record := by
      rw [← hbehind.take_eq, take_of_length_le]
      rw [length_map]
      exact List.getElem?_eq_none_iff.mp hget
    have hoffset : off = s.journal.writeOffset := by
      rw [hoff, hs.slots.offset, ← hall]
    exact readWord_eq_zero fun a hlow _ ↦ hs.slots.clear a (by omega)
  | some slot =>
    have hmem : slot ∈ s.slots := mem_iff_getElem?.mpr ⟨_, hget⟩
    have hstart : slot.offset = off := (hbehind.offset_eq hs.slots hget).trans hoff.symm
    cases hpublished : slot.published with
    | true =>
      refine Or.inl ⟨slot, rfl, hpublished, ?_, ?_⟩
      · exact hstart ▸ hs.slots.published slot hmem hpublished
      · have hstop := (hs.slots.stop_le hmem).trans hs.slots.fits
        rwa [Slot.stop, hstart] at hstop
    | false =>
      refine Or.inr ⟨fun other hother ↦ ?_, ?_⟩
      · cases hother
        exact hpublished
      · rw [← hstart]
        exact hs.slots.silent slot hmem hpublished

variable [DecidableEq ι]

/-! ## The steps that only read -/

theorem Inv.begin (hs : s.Inv) (hpc : s.pc i = .idle) (c : Call) : (s.begin i c).Inv where
  slots := hs.slots
  knows := by
    intro j
    change Knows _ _ (update s.since i s.committed j) (update s.pc i (.begin c) j)
    by_cases hsame : j = i
    · rw [hsame, update_self, update_self]
      cases c with
      | appendLog => trivial
      | readCommitted =>
        have htake : s.slots.takeWhile Slot.published <+: s.slots := takeWhile_prefix _
        refine ⟨⟨List.nil_prefix, htake.map _, fun _ hmem ↦ ?_, fun slot hmem ↦ ?_⟩, rfl⟩
        · rw [length_nil, take_zero] at hmem
          exact absurd hmem not_mem_nil
        · rw [committed, length_map] at hmem
          change slot ∈ s.slots.take _ at hmem
          rw [← List.prefix_iff_eq_take.mp htake] at hmem
          exact mem_takeWhile_imp hmem
    · rw [update_of_ne hsame, update_of_ne hsame]
      exact hs.knows j
  apart := apart_update hs.apart fun offset hoffset ↦ by cases c <;> cases hoffset
  writers := fun slot hmem hsilent ↦ writers_update (hs.writers slot hmem hsilent) fun hold ↦ by
    rw [hpc] at hold
    cases hold
  reads := hs.reads

/-- A step that only reads the segment. -/
theorem Inv.read (hs : s.Inv) {pc : Pc} (hpc : (s.pc i).owned = none) (hnew : pc.owned = none)
    (hknows : Knows s.journal.mmap s.slots (s.since i) pc) :
    (s.settle i s.journal (.goesOn pc)).Inv := by
  have hslots : (Outcome.goesOn pc).slots s.slots = s.slots := by
    cases pc with
    | writeTag => cases hnew
    | _ => rfl
  rw [settle_goesOn s i _ hslots]
  exact {
    slots := hs.slots
    knows := knows_update hknows fun j _ ↦ hs.knows j
    apart := apart_update hs.apart fun offset hoffset ↦ by
      rw [hnew] at hoffset
      cases hoffset
    writers := fun slot hmem hsilent ↦ writers_update (hs.writers slot hmem hsilent) fun hold ↦ by
      rw [hpc] at hold
      cases hold
    reads := hs.reads }

theorem Inv.refused (hs : s.Inv) (hpc : (s.pc i).owned = none) :
    (s.settle i s.journal .refused).Inv := by
  rw [settle_refused]
  exact {
    slots := hs.slots
    knows := knows_update trivial fun j _ ↦ hs.knows j
    apart := apart_update hs.apart fun _ hoffset ↦ nomatch hoffset
    writers := fun slot hmem hsilent ↦ writers_update (hs.writers slot hmem hsilent) fun hold ↦ by
      rw [hpc] at hold
      cases hold
    reads := hs.reads }

/-- A read returns where no published slot stands. -/
theorem Inv.result (hs : s.Inv) {off : ℕ} {out : List Record} (hpc : s.pc i = .readSize off out)
    (hend : ∀ slot, s.slots[out.length]? = some slot → slot.published = false) :
    (s.settle i s.journal (.result out)).Inv := by
  have hknows := hs.knows i
  rw [hpc] at hknows
  obtain ⟨hbehind, -⟩ := hknows
  have hknown : s.since i <+: out := by
    refine prefix_of_prefix_length_le hbehind.known hbehind.read ?_
    by_contra hlt
    have hlength := hbehind.known.length_le
    rw [length_map] at hlength
    have hbound : out.length < s.slots.length := by omega
    have hget : s.slots[out.length]? = some s.slots[out.length] := getElem?_eq_getElem hbound
    have htaken : (s.slots.take (s.since i).length)[out.length]? = s.slots[out.length]? :=
      getElem?_take_of_lt (not_le.mp hlt)
    have hpublished := hbehind.knownPublished _
      (mem_iff_getElem?.mpr ⟨out.length, htaken.trans hget⟩)
    rw [hend _ hget] at hpublished
    cases hpublished
  rw [settle_result]
  exact {
    slots := hs.slots
    knows := knows_update trivial fun j _ ↦ hs.knows j
    apart := apart_update hs.apart fun _ hoffset ↦ nomatch hoffset
    writers := fun slot hmem hsilent ↦ writers_update (hs.writers slot hmem hsilent) fun hold ↦ by
      rw [hpc] at hold
      cases hold
    reads := by
      intro read hmem
      rcases List.mem_append.mp hmem with hold | hnew
      · exact hs.reads read hold
      · cases List.mem_singleton.mp hnew
        exact ⟨hknown, hbehind.read, prefix_refl _⟩ }

/-! ## The steps of a writer -/

theorem Inv.winSlot (hs : s.Inv) (hpc : s.pc i = .reserve record s.journal.writeOffset)
    (hroom : s.journal.writeOffset + record.span < s.journal.size) :
    (s.settle i (s.journal.reserve record.span)
      (.goesOn (.writeTag record s.journal.writeOffset))).Inv := by
  have hsized : record.Sized := by
    have hknows := hs.knows i
    rwa [hpc] at hknows
  rw [settle_writeTag]
  exact {
    slots := hs.slots.reserve hsized hroom
    knows := by
      refine knows_update (mem_append_right _ mem_cons_self) fun j _ ↦
        (hs.knows j).frame (grows_append _ _) hs.slots.sized fun _ _ _ hmem ↦
          ⟨mem_append_left _ hmem, fun _ _ _ ↦ rfl⟩
    apart := by
      refine apart_update hs.apart fun offset hoffset j _ hj ↦ ?_
      cases hoffset
      obtain ⟨other, hmem⟩ := hs.slot_of_owned hj
      have hstop := hs.slots.stop_le hmem
      have hless := hs.slots.lt_stop hmem
      dsimp only at hless
      omega
    writers := by
      intro slot hmem hsilent
      rcases List.mem_append.mp hmem with hold | hnew
      · refine writers_update (hs.writers slot hold hsilent) fun habsurd ↦ ?_
        rw [hpc] at habsurd
        cases habsurd
      · cases List.mem_singleton.mp hnew
        refine ⟨i, ?_⟩
        change (update s.pc i (.writeTag record _) i).owned = _
        rw [update_self]
        rfl
    reads := fun read hmem ↦ ⟨(hs.reads read hmem).1, (hs.reads read hmem).2.1,
      (hs.reads read hmem).2.2.trans (grows_append _ _).records_isPrefix⟩ }

/-- A writer writes in its own slot. -/
theorem Inv.write (hs : s.Inv) {mmap : ByteMemory} {pc : Pc}
    (hpc : (s.pc i).owned = some offset) (hnew : pc.owned = some offset)
    (hmem : ⟨offset, record, false⟩ ∈ s.slots)
    (hslots : (Outcome.goesOn pc).slots s.slots = s.slots)
    (hsame : ∀ a, a < offset ∨ offset + record.span ≤ a → s.journal.mmap a = mmap a)
    (hsize : mmap.readWord (offset + 4) = s.journal.mmap.readWord (offset + 4))
    (hknows : Knows mmap s.slots (s.since i) pc) :
    (s.settle i { s.journal with mmap := mmap } (.goesOn pc)).Inv := by
  rw [settle_goesOn s i _ hslots]
  exact {
    slots := hs.slots.write hmem hsame hsize
    knows := by
      refine knows_update hknows fun j hne ↦ (hs.knows j).frame (Grows.refl _) hs.slots.sized
        fun other otherRecord hother hslot ↦ ⟨hslot, fun a hlow hhigh ↦ ?_⟩
      refine hs.slots.apart hmem hsame hslot (fun heq ↦ ?_) a hlow hhigh
      exact hne (hs.apart j i offset (heq ▸ hother) hpc)
    apart := by
      refine apart_update hs.apart fun other hother j hne hj ↦ ?_
      rw [hnew] at hother
      cases hother
      exact hne (hs.apart j i offset hj hpc)
    writers := fun slot hslot hsilent ↦ writers_update (hs.writers slot hslot hsilent) fun hold ↦ by
      rw [hpc] at hold
      rw [hnew, hold]
    reads := hs.reads }

theorem Inv.writeTag (hs : s.Inv) (hpc : s.pc i = .writeTag record offset) :
    (s.settle i (s.journal.writeTag offset record.tag)
      (.goesOn (.writePayload record offset))).Inv := by
  have hmem := hs.knows i
  rw [hpc] at hmem
  have hspan := (hs.slots.sized _ hmem).le_span
  dsimp only at hspan
  refine hs.write (congrArg Pc.owned hpc) rfl hmem rfl (fun a ha ↦ ?_) ?_
    ⟨hmem, readWord_writeWord_self record.tag.toNat_lt⟩
  · rcases ha with hbefore | hafter
    · exact (write_of_lt hbefore).symm
    · exact (write_of_ge (by rw [ByteCursor.length_leBytes]; omega)).symm
  · exact readWord_writeWord_apart (by omega)

theorem Inv.writePayload (hs : s.Inv) (hpc : s.pc i = .writePayload record offset) :
    (s.settle i (s.journal.writePayload offset record.data)
      (.goesOn (.publishSize record offset))).Inv := by
  have hknows := hs.knows i
  rw [hpc] at hknows
  obtain ⟨hmem, htag⟩ := hknows
  have hspan := (hs.slots.sized _ hmem).le_span
  dsimp only at hspan
  refine hs.write (congrArg Pc.owned hpc) rfl hmem rfl (fun a ha ↦ ?_) ?_
    ⟨hmem, (readWord_write_apart (by omega)).trans htag, read_write_self⟩
  · rcases ha with hbefore | hafter
    · exact (write_of_lt (by omega)).symm
    · exact (write_of_ge (by omega)).symm
  · exact readWord_write_apart (by omega)

theorem Inv.publishSize (hs : s.Inv) (hpc : s.pc i = .publishSize record offset) :
    (s.settle i (s.journal.publishSize offset record.data.length) (.accepted offset)).Inv := by
  have hknows := hs.knows i
  rw [hpc] at hknows
  obtain ⟨hmem, htag, hpayload⟩ := hknows
  have hspan := (hs.slots.sized _ hmem).le_span
  dsimp only at hspan
  have hown : (s.pc i).owned = some offset := congrArg Pc.owned hpc
  have hsame : ∀ a, a < offset ∨ offset + record.span ≤ a →
      s.journal.mmap a = (s.journal.publishSize offset record.data.length).mmap a := by
    intro a ha
    rcases ha with hbefore | hafter
    · exact (write_of_lt (by omega)).symm
    · exact (write_of_ge (by rw [ByteCursor.length_leBytes]; omega)).symm
  rw [settle_accepted]
  exact {
    slots := hs.slots.publish hmem htag hpayload
    knows := by
      refine knows_update trivial fun j hne ↦ (hs.knows j).frame (grows_publishAt _ _)
        hs.slots.sized fun other otherRecord hother hslot ↦ ?_
      have hapart : other ≠ offset := fun heq ↦ hne (hs.apart j i offset (heq ▸ hother) hown)
      refine ⟨List.mem_map.mpr ⟨_, hslot, if_neg hapart⟩, fun a hlow hhigh ↦ ?_⟩
      exact hs.slots.apart hmem hsame hslot hapart a hlow hhigh
    apart := apart_update hs.apart fun _ hoffset ↦ nomatch hoffset
    writers := by
      intro slot hslot hsilent
      obtain ⟨old, hold, rfl⟩ := List.mem_map.mp hslot
      by_cases heq : old.offset = offset
      · rw [publishAt, if_pos heq] at hsilent
        cases hsilent
      · rw [publishAt, if_neg heq] at hsilent ⊢
        refine writers_update (hs.writers old hold hsilent) fun habsurd ↦ ?_
        rw [hown] at habsurd
        exact absurd (Option.some.inj habsurd).symm heq
    reads := fun read hread ↦ ⟨(hs.reads read hread).1, (hs.reads read hread).2.1,
      (hs.reads read hread).2.2.trans (grows_publishAt _ _).records_isPrefix⟩ }

/-! ## The steps of a reader -/

theorem Inv.readSize (hs : s.Inv) {off : ℕ} {out : List Record} (hpc : s.pc i = .readSize off out)
    {journal : MmapJournal} {outcome : Outcome} {spurious : Bool}
    (hadvance : s.journal.advance spurious (.readSize off out) = some (journal, outcome)) :
    (s.settle i journal outcome).Inv := by
  have hknows := hs.knows i
  rw [hpc] at hknows
  have hown : (s.pc i).owned = none := congrArg Pc.owned hpc
  rw [MmapJournal.advance] at hadvance
  rcases hs.standsAt hpc with ⟨slot, hget, hpublished, hholds, hfits⟩ | ⟨hend, hzero⟩
  · have hsized := hs.slots.sized slot (mem_iff_getElem?.mpr ⟨_, hget⟩)
    have hspan := hsized.le_span
    have hpos := hsized.1
    rw [if_neg (by omega)] at hadvance
    simp only [hholds.size] at hadvance
    rw [if_neg (by omega), if_neg (by omega)] at hadvance
    cases hadvance
    exact hs.read hown rfl ⟨hknows.1, hknows.2, slot, hget, hpublished, rfl⟩
  · have hresult : journal = s.journal ∧ outcome = .result out := by
      split at hadvance
      · cases hadvance
        exact ⟨rfl, rfl⟩
      · simp only [hzero, if_pos] at hadvance
        cases hadvance
        exact ⟨rfl, rfl⟩
    rw [hresult.1, hresult.2]
    exact hs.result hpc hend

theorem Inv.readTag (hs : s.Inv) {off size : ℕ} {out : List Record}
    (hpc : s.pc i = .readTag off size out) :
    (s.settle i s.journal (.goesOn (.readPayload off size (s.journal.mmap.readWord off) out))).Inv := by
  have hknows := hs.knows i
  rw [hpc] at hknows
  obtain ⟨hbehind, hoff, slot, hget, hpublished, hsize⟩ := hknows
  refine hs.read (congrArg Pc.owned hpc) rfl ⟨hbehind, hoff, slot, hget, hpublished, hsize, ?_⟩
  rw [hoff, ← hbehind.offset_eq hs.slots hget]
  exact (hs.slots.published slot (mem_iff_getElem?.mpr ⟨_, hget⟩) hpublished).tag

theorem Inv.readPayload (hs : s.Inv) {off size tag : ℕ} {out : List Record}
    (hpc : s.pc i = .readPayload off size tag out) :
    (s.settle i s.journal (.goesOn (.readSize (off + paddedLen size)
      (out ++ [⟨UInt32.ofNat tag, s.journal.mmap.read (off + 8) size⟩])))).Inv := by
  have hknows := hs.knows i
  rw [hpc] at hknows
  obtain ⟨hbehind, hoff, slot, hget, hpublished, hsize, htag⟩ := hknows
  have hholds := hs.slots.published slot (mem_iff_getElem?.mpr ⟨_, hget⟩) hpublished
  rw [hbehind.offset_eq hs.slots hget, ← hoff] at hholds
  have hrecord : (⟨UInt32.ofNat tag, s.journal.mmap.read (off + 8) size⟩ : Record) =
      slot.record := by
    rw [htag, hsize, hholds.payload, UInt32.ofNat_toNat]
  have hlength : s.slots.take (out ++ [slot.record]).length = s.slots.take out.length ++ [slot] := by
    rw [length_append, length_singleton, take_add_one, hget, Option.toList_some]
  refine hs.read (congrArg Pc.owned hpc) rfl ?_
  rw [hrecord]
  refine ⟨⟨?_, hbehind.known, ?_, hbehind.knownPublished⟩, ?_⟩
  · have hnext : (s.slots.map Slot.record)[out.length]? = some slot.record := by
      rw [getElem?_map, hget, Option.map_some]
    have htake : out ++ [slot.record] = (s.slots.map Slot.record).take (out.length + 1) := by
      rw [take_add_one, hnext, Option.toList_some, hbehind.take_eq]
    rw [htake]
    exact take_prefix _ _
  · intro other hmem
    rw [hlength] at hmem
    rcases List.mem_append.mp hmem with hold | hnew
    · exact hbehind.readPublished other hold
    · exact List.mem_singleton.mp hnew ▸ hpublished
  · rw [span_append, span_cons, span_nil, Nat.add_zero, hoff, hsize]
    rfl

/-! ## Every step -/

theorem Inv.step (hs : s.Inv) {event : JournalEvent ι} {s' : JournalState ι}
    (hstep : (journalMachine ι).step s event = some s') : s'.Inv := by
  cases event with
  | call i c =>
    simp only [journalMachine] at hstep
    split at hstep
    case h_1 hpc =>
      cases hstep
      exact hs.begin hpc c
    case h_2 => cases hstep
  | step i spurious =>
    obtain ⟨⟨journal, outcome⟩, hadvance, rfl⟩ := Option.map_eq_some_iff.mp hstep
    cases hpc : s.pc i with
    | idle =>
      rw [hpc] at hadvance
      cases hadvance
    | load record =>
      rw [hpc, MmapJournal.advance] at hadvance
      split at hadvance
      case isTrue =>
        cases hadvance
        exact hs.refused (congrArg Pc.owned hpc)
      case isFalse hsized =>
        cases hadvance
        exact hs.read (congrArg Pc.owned hpc) rfl ⟨by omega, by omega⟩
    | reserve record currentOffset =>
      rw [hpc, MmapJournal.advance] at hadvance
      split at hadvance
      case isTrue =>
        cases hadvance
        exact hs.refused (congrArg Pc.owned hpc)
      case isFalse hroom =>
        split at hadvance
        case isTrue hexchange =>
          cases hadvance
          obtain ⟨rfl, -⟩ := hexchange
          exact hs.winSlot hpc (not_le.mp hroom)
        case isFalse =>
          cases hadvance
          exact hs.read (congrArg Pc.owned hpc) rfl trivial
    | writeTag record offset =>
      rw [hpc] at hadvance
      cases hadvance
      exact hs.writeTag hpc
    | writePayload record offset =>
      rw [hpc] at hadvance
      cases hadvance
      exact hs.writePayload hpc
    | publishSize record offset =>
      rw [hpc] at hadvance
      cases hadvance
      exact hs.publishSize hpc
    | readSize off out =>
      rw [hpc] at hadvance
      exact hs.readSize hpc hadvance
    | readTag off size out =>
      rw [hpc] at hadvance
      cases hadvance
      exact hs.readTag hpc
    | readPayload off size tag out =>
      rw [hpc] at hadvance
      cases hadvance
      exact hs.readPayload hpc

/-! ## What the journal promises -/

omit [DecidableEq ι] in
theorem Inv.readCommitted_eq (hs : s.Inv)
    (hpublished : ∀ slot ∈ s.slots, slot.published = true) :
    s.journal.readCommitted = s.appended := by
  have hlaid : Laid s.journal.mmap 0 s.appended := by
    refine laid_of_getElem? fun k record hget ↦ ?_
    obtain ⟨slot, hslot, rfl⟩ : ∃ slot, s.slots[k]? = some slot ∧ slot.record = record := by
      rw [appended, getElem?_map] at hget
      exact Option.map_eq_some_iff.mp hget
    have hmem : slot ∈ s.slots := mem_iff_getElem?.mpr ⟨k, hslot⟩
    rw [Nat.zero_add, appended, ← hs.slots.starts k slot hslot]
    exact hs.slots.published slot hmem (hpublished slot hmem)
  have hsized : ∀ record ∈ s.appended, record.Sized := by
    intro record hmem
    obtain ⟨slot, hslot, rfl⟩ := List.mem_map.mp hmem
    exact hs.slots.sized slot hslot
  have hoffset : s.journal.writeOffset = span s.appended := hs.slots.offset
  refine readFrom_laid hlaid hsized ?_ (Or.inr (Or.inl ?_)) (le_refl _)
  · rw [Nat.zero_add, ← hoffset]
    exact hs.slots.fits
  · exact readWord_eq_zero fun a hlow _ ↦ hs.slots.clear a (by omega)

omit [DecidableEq ι] in
theorem Inv.ordered (hs : s.Inv) : s.Ordered where
  disjoint := hs.slots.pairwise
  inside := fun slot hmem ↦ (hs.slots.stop_le hmem).trans hs.slots.fits
  reads := hs.reads
  complete := by
    intro hquiet
    have hpublished : ∀ slot ∈ s.slots, slot.published = true := by
      intro slot hmem
      by_contra hsilent
      obtain ⟨i, hi⟩ := hs.writers slot hmem (Bool.eq_false_of_not_eq_true hsilent)
      rw [hquiet i] at hi
      cases hi
    have haccepted : s.accepted = s.appended := by
      rw [accepted, List.filter_eq_self.mpr hpublished, appended]
    refine ⟨?_, haccepted.symm, ?_⟩
    · rw [committed, List.takeWhile_eq_self_iff.mpr hpublished, haccepted, appended]
    · rw [hs.readCommitted_eq hpublished, haccepted]

/-- **The journal is torn-free and ordered** in every interleaving, on a segment of any size. -/
theorem tornFree_ordered (size : ℕ) (events : List (JournalEvent ι)) (s : JournalState ι)
    (hrun : (journalMachine ι).run (new size) events = some s) : s.Ordered := by
  have hkeeps : ∀ (s : JournalState ι) (event : JournalEvent ι) (s' : JournalState ι), s.Inv →
      True → (journalMachine ι).step s event = some s' → s'.Inv :=
    fun _ _ _ hs _ hstep ↦ hs.step hstep
  have hmeets : (journalMachine ι).Meets (fun _ _ ↦ True) (new size) events :=
    Machine.meets_of_forall fun _ _ ↦ trivial
  exact (Machine.inv_of_run hkeeps (inv_new size) hmeets hrun).ordered

/-- Two writers of which the second reserves first, and a reader in between. -/
def twoWriters : List (JournalEvent (Fin 3)) :=
  [.call 0 (.appendLog 1 [5, 6, 7]), .call 1 (.appendLog 2 [8]), .step 0 false, .step 1 false,
    .step 1 false, .step 0 false, .step 0 false, .step 0 false, .call 2 .readCommitted,
    .step 1 false, .step 1 false, .step 1 false, .step 2 false, .step 2 false, .step 2 false,
    .step 2 false, .step 0 false, .step 0 false, .step 0 false]

theorem tornFree_ordered_twoWriters :
    ∃ s, (journalMachine (Fin 3)).run (new 64) twoWriters = some s ∧ s.Ordered := by
  have hsome : ((journalMachine (Fin 3)).run (new 64) twoWriters).isSome = true := by decide +kernel
  obtain ⟨s, hrun⟩ := Option.isSome_iff_exists.mp hsome
  exact ⟨s, hrun, tornFree_ordered 64 twoWriters s hrun⟩

end JournalState

end SoulSystem.Journal
