import SoulSystem.Shm.Bus

/-!
# The slots and the region of the bus

The region has room for the slots that the bus was created with, when its size can be computed at
all. A subscription stays among them exactly when one of them is free, or when there are as many as
can be given out.
-/

namespace SoulSystem.Shm

open Library

namespace ShmBus

/-! ## The layout -/

/-- The addresses of the header and the ring of a slot. -/
def slotArea (slotSize slot : ℕ) : Set ℕ :=
  Set.Ico (slotBase slotSize slot)
    (slotBase slotSize slot + (slotHeaderSize + ringHeaderOverhead + slotSize))

/-- The areas of the slots are inside the region and apart. -/
structure LaidOut (maxSlots slotSize : ℕ) : Prop where
  inside : ∀ i < maxSlots, slotArea slotSize i ⊆ Set.Iio (regionSize maxSlots slotSize)
  apart : ∀ i < maxSlots, ∀ j < maxSlots, i ≠ j →
    Disjoint (slotArea slotSize i) (slotArea slotSize j)

/-- The size of the region can be computed. -/
def SizeFits (maxSlots slotSize : ℕ) : Prop :=
  busHeaderSize + maxSlots * (slotHeaderSize + ringHeaderOverhead + slotSize) < 2 ^ 64

instance (maxSlots slotSize : ℕ) : Decidable (SizeFits maxSlots slotSize) :=
  inferInstanceAs (Decidable (_ < _))

variable {maxSlots slotSize i j : ℕ}

/-- The slots before one that ends in range are where they should be. -/
theorem slotBase_eq (hfits : busHeaderSize + i * (slotHeaderSize + ringHeaderOverhead + slotSize) <
    2 ^ 64) : slotBase slotSize i =
      busHeaderSize + i * (slotHeaderSize + ringHeaderOverhead + slotSize) := by
  cases i with
  | zero =>
    rw [slotBase, Nat.zero_mul, Nat.zero_mul]
    rfl
  | succ i =>
    have hstride : slotStride slotSize = slotHeaderSize + ringHeaderOverhead + slotSize := by
      rw [slotStride]
      refine Nat.mod_eq_of_lt (lt_of_le_of_lt ?_ hfits)
      exact (Nat.le_mul_of_pos_left _ (Nat.succ_pos i)).trans (Nat.le_add_left _ _)
    rw [slotBase, hstride, Nat.mod_eq_of_lt hfits]

theorem SizeFits.le (hfits : SizeFits maxSlots slotSize) (hi : i ≤ maxSlots) :
    busHeaderSize + i * (slotHeaderSize + ringHeaderOverhead + slotSize) < 2 ^ 64 :=
  lt_of_le_of_lt (Nat.add_le_add_left (Nat.mul_le_mul_right _ hi) _) hfits

theorem SizeFits.regionSize_eq (hfits : SizeFits maxSlots slotSize) :
    regionSize maxSlots slotSize =
      busHeaderSize + maxSlots * (slotHeaderSize + ringHeaderOverhead + slotSize) :=
  slotBase_eq hfits

theorem SizeFits.laidOut (hfits : SizeFits maxSlots slotSize) : LaidOut maxSlots slotSize where
  inside := by
    intro i hi a ha
    have hbase := slotBase_eq (hfits.le hi.le)
    have hnext := Nat.mul_le_mul_right (slotHeaderSize + ringHeaderOverhead + slotSize) hi
    have hend := ha.2
    rw [Nat.succ_mul] at hnext
    rw [Set.mem_Iio, hfits.regionSize_eq]
    omega
  apart := by
    intro i hi j hj hne
    have hbase := slotBase_eq (hfits.le hi.le)
    have hbase' := slotBase_eq (hfits.le hj.le)
    rw [Set.disjoint_left]
    intro a ha ha'
    have hend := ha.2
    have hend' := ha'.2
    have hstart := ha.1
    have hstart' := ha'.1
    cases Nat.lt_or_gt_of_ne hne with
    | inl hlt =>
      have hnext := Nat.mul_le_mul_right (slotHeaderSize + ringHeaderOverhead + slotSize)
        (Nat.succ_le_of_lt hlt)
      rw [Nat.succ_mul] at hnext
      omega
    | inr hgt =>
      have hnext := Nat.mul_le_mul_right (slotHeaderSize + ringHeaderOverhead + slotSize)
        (Nat.succ_le_of_lt hgt)
      rw [Nat.succ_mul] at hnext
      omega

/-- When the size of the region cannot be computed, the first slot that ends out of range is not
inside the region. -/
theorem LaidOut.sizeFits (hlaid : LaidOut maxSlots slotSize) : SizeFits maxSlots slotSize := by
  by_contra hnot
  let ends (i : ℕ) : ℕ := busHeaderSize + i * (slotHeaderSize + ringHeaderOverhead + slotSize)
  have hexists : ∃ i, 2 ^ 64 ≤ ends i := ⟨maxSlots, not_lt.mp hnot⟩
  have hfirst := Nat.find_spec hexists
  have hpositive : Nat.find hexists ≠ 0 := by
    intro hzero
    rw [hzero] at hfirst
    exact absurd hfirst (by simp [ends, busHeaderSize])
  obtain ⟨i, hi⟩ : ∃ i, Nat.find hexists = i + 1 := Nat.exists_eq_succ_of_ne_zero hpositive
  have hbefore : ends i < 2 ^ 64 :=
    not_le.mp (Nat.find_min hexists (hi ▸ Nat.lt_succ_self i))
  have hslot : i < maxSlots := by
    have hle := Nat.find_min' hexists (not_lt.mp hnot)
    omega
  rw [hi] at hfirst
  have hlast : ends (i + 1) - 1 ∈ slotArea slotSize i := by
    have hbase := slotBase_eq hbefore
    have hsucc : ends (i + 1) = ends i + (slotHeaderSize + ringHeaderOverhead + slotSize) := by
      simp only [ends, Nat.succ_mul, Nat.add_assoc]
    rw [slotArea, Set.mem_Ico, hbase, hsucc]
    simp only [ends, slotHeaderSize]
    omega
  have hregion : regionSize maxSlots slotSize < 2 ^ 64 := Nat.mod_lt _ (Nat.two_pow_pos 64)
  have hinside : ends (i + 1) - 1 < regionSize maxSlots slotSize := hlaid.inside i hslot hlast
  omega

theorem laidOut_iff : LaidOut maxSlots slotSize ↔ SizeFits maxSlots slotSize :=
  ⟨LaidOut.sizeFits, SizeFits.laidOut⟩

end ShmBus

/-! ## The slots -/

namespace BusRun

/-- A slot that is given out is one that the bus was created with, and none is given out exactly
when all of these are held. -/
def Allocates (s : BusRun) : BusCall → Prop
  | .subscribe => (∀ idx, s.bus.subscribe.2 = some idx → idx < s.maxSlots) ∧
      (s.bus.subscribe.2 = none ↔ ∀ slot < s.maxSlots, slot ∈ s.held)
  | _ => True

/-- A subscription finds a free slot, or as many slots as can be given out. -/
def SlotFree (s : BusRun) : BusCall → Prop
  | .subscribe => s.maxSlots = maxSubscribers ∨ ∃ slot < s.maxSlots, slot ∉ s.held
  | _ => True

instance : ∀ (s : BusRun) (call : BusCall), Decidable (s.SlotFree call)
  | s, .subscribe => inferInstanceAs (Decidable (s.maxSlots = maxSubscribers ∨ _))
  | _, .unsubscribe _ => inferInstanceAs (Decidable True)
  | _, .publish _ => inferInstanceAs (Decidable True)
  | _, .consume _ => inferInstanceAs (Decidable True)

variable {s : BusRun} {maxSlots slotSize : ℕ} {call : BusCall}

theorem Tracks.allocates_of_slotFree (hs : s.Tracks maxSlots slotSize)
    (hslots : maxSlots ≤ maxSubscribers) (hfree : s.SlotFree call) : s.Allocates call := by
  cases call with
  | unsubscribe slot => trivial
  | publish data => trivial
  | consume slot => trivial
  | subscribe =>
    by_cases hfull : s.nextSlot ≥ maxSubscribers
    · rw [Allocates, subscribe_of_full hfull]
      refine ⟨nofun, iff_of_true rfl fun slot hslot ↦ ?_⟩
      rw [hs.slots_eq] at hslot
      exact hs.mem_of_lt_nextSlot (by omega)
    · have hlt := not_le.mp hfull
      have hnext : s.nextSlot < s.maxSlots := by
        cases hfree with
        | inl hall => rwa [hall]
        | inr hexists =>
          obtain ⟨slot, hslot, hnot⟩ := hexists
          exact (hs.nextSlot_le hnot).trans_lt hslot
      rw [Allocates, subscribe_of_lt hlt]
      refine ⟨fun idx hidx ↦ Option.some.inj hidx ▸ hnext, iff_of_false nofun fun hall ↦ ?_⟩
      exact hs.nextSlot_notMem hlt (hall _ hnext)

/-- All slots that are held are slots that the bus was created with. -/
structure Inside (maxSlots slotSize : ℕ) (s : BusRun) : Prop where
  tracks : s.Tracks maxSlots slotSize
  held : ∀ slot ∈ s.held, slot < maxSlots

theorem inside_new (maxSlots slotSize : ℕ) : (new maxSlots slotSize).Inside maxSlots slotSize :=
  ⟨tracks_new maxSlots slotSize, fun slot hmem ↦ absurd hmem (Finset.notMem_empty slot)⟩

theorem Inside.slotFree_of_allocates (hs : s.Inside maxSlots slotSize)
    (hslots : maxSlots ≤ maxSubscribers) (hallocates : s.Allocates call) : s.SlotFree call := by
  cases call with
  | unsubscribe slot => trivial
  | publish data => trivial
  | consume slot => trivial
  | subscribe =>
    by_contra hnot
    obtain ⟨hfewer, hnone⟩ := not_or.mp hnot
    have hall : ∀ slot < s.maxSlots, slot ∈ s.held := by
      intro slot hslot
      by_contra hfree
      exact hnone ⟨slot, hslot, hfree⟩
    have hrefused := hallocates.2.mpr hall
    by_cases hfull : s.nextSlot ≥ maxSubscribers
    · have hfewer : maxSlots < maxSubscribers :=
        lt_of_le_of_ne hslots fun hsame ↦ hfewer (hs.tracks.slots_eq.trans hsame)
      have hmem := hs.tracks.mem_of_lt_nextSlot (hfewer.trans_le hfull)
      exact absurd (hs.held maxSlots hmem) (lt_irrefl maxSlots)
    · rw [subscribe_of_lt (not_le.mp hfull)] at hrefused
      exact absurd hrefused (Option.some_ne_none _)

theorem Inside.step (hs : s.Inside maxSlots slotSize) (hallocates : s.Allocates call) {s' : BusRun}
    (hstep : calls.step s call = some s') : s'.Inside maxSlots slotSize := by
  refine ⟨hs.tracks.step hstep, ?_⟩
  cases call with
  | subscribe =>
    cases Option.some.inj hstep
    by_cases hfull : s.nextSlot ≥ maxSubscribers
    · rw [subscribe_eq_of_full hfull]
      exact hs.held
    · have hlt := not_le.mp hfull
      have hgiven : s.bus.subscribe.2 = some s.nextSlot := by
        rw [subscribe_of_lt hlt]
      have hidx := hallocates.1 s.nextSlot hgiven
      rw [subscribe_eq_of_lt hlt]
      intro slot hmem
      cases Finset.mem_insert.mp hmem with
      | inl hsame => exact hsame ▸ hs.tracks.slots_eq ▸ hidx
      | inr hold => exact hs.held slot hold
  | unsubscribe slot =>
    obtain ⟨-, hnext⟩ := Option.ite_none_right_eq_some.mp hstep
    cases Option.some.inj hnext
    exact fun other hmem ↦ hs.held other (Finset.mem_of_mem_erase hmem)
  | publish data =>
    rw [calls] at hstep
    dsimp only at hstep
    rw [hs.tracks.publish_run] at hstep
    cases Option.some.inj hstep
    exact hs.held
  | consume slot =>
    obtain ⟨-, hnext⟩ := Option.ite_none_right_eq_some.mp hstep
    obtain ⟨result, -, hresult⟩ := Option.map_eq_some_iff.mp hnext
    cases hresult
    exact hs.held

/-! ## The run -/

/-- **The bus stays inside its region exactly when the size of the region can be computed and every
subscription finds a free slot.** -/
theorem insideRegion_iff (maxSlots slotSize : ℕ) (hslots : maxSlots ≤ maxSubscribers)
    (busCalls : List BusCall) :
    ShmBus.LaidOut maxSlots slotSize ∧ calls.Meets Allocates (new maxSlots slotSize) busCalls ↔
      ShmBus.SizeFits maxSlots slotSize ∧ calls.Meets SlotFree (new maxSlots slotSize) busCalls := by
  refine and_congr ShmBus.laidOut_iff ⟨fun hallocates ↦ ?_, fun hfree ↦ ?_⟩
  · exact Machine.meets_of_inv
      (fun _ _ _ (hs : Inside maxSlots slotSize _) hallocates hstep ↦ hs.step hallocates hstep)
      (fun _ _ hs hallocates ↦ hs.slotFree_of_allocates hslots hallocates)
      (inside_new maxSlots slotSize) hallocates
  · exact Machine.meets_of_inv
      (fun _ _ _ (hs : Tracks maxSlots slotSize _) _ hstep ↦ hs.step hstep)
      (fun _ _ hs hfree ↦ hs.allocates_of_slotFree hslots hfree)
      (tracks_new maxSlots slotSize) hfree

/-- A bus of two slots, both held and one of them given back. -/
theorem insideRegion_iff_twoSlots :
    ShmBus.LaidOut 2 4096 ∧ calls.Meets Allocates (new 2 4096)
      [.subscribe, .subscribe, .publish [1], .consume 1, .unsubscribe 0, .subscribe] :=
  (insideRegion_iff 2 4096 (by decide) _).mpr ⟨by decide, by decide +kernel⟩

/-- The second subscription on a bus of one slot is given the slot after the region. -/
theorem not_insideRegion_secondSubscriber :
    ¬ calls.Meets Allocates (new 1 4096) [.subscribe, .subscribe] := by
  intro hallocates
  have hsecond := (hallocates.2 _ rfl).1.1 1
  revert hsecond
  decide +kernel

end BusRun

end SoulSystem.Shm
