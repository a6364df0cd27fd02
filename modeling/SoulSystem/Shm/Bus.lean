import Mathlib
import SoulSystem.Library.Slots
import SoulSystem.Shm.RingBuffer

/-!
# The bus in shared memory

A bus has a header and a number of slots, each with a header and a ring.  A subscriber holds the
slot of the first bit of the mask that is not set.  The region is sized for the slots that the bus
was created with, while slots are given out up to the maximum.
-/

namespace SoulSystem.Shm

open Library BitMask List Function

def maxSubscribers : ℕ := 16

def ringHeaderOverhead : ℕ := 64

def busHeaderSize : ℕ := 128

def slotHeaderSize : ℕ := 32

/-- The bytes of a slot, as the machine adds them. -/
def slotStride (slotSize : ℕ) : ℕ := (slotHeaderSize + ringHeaderOverhead + slotSize) % 2 ^ 64

/-- The region of the bus, the headers and the rings of its slots.  A ring is a bounded queue, and
there is none before the first subscription of its slot. -/
structure ShmBus where
  regionLen : ℕ
  slotSize : ℕ
  activeMask : BitVec 64
  active : ℕ → Bool
  rings : ℕ → Option ByteFifo
  sequence : ℕ

namespace ShmBus

def regionSize (maxSlots slotSize : ℕ) : ℕ := (busHeaderSize + maxSlots * slotStride slotSize) % 2 ^ 64

def create (maxSlots slotSize : ℕ) : ShmBus :=
  ⟨regionSize maxSlots slotSize, slotSize, 0, fun _ ↦ false, fun _ ↦ none, 0⟩

def slotBase (slotSize slot : ℕ) : ℕ := (busHeaderSize + slot * slotStride slotSize) % 2 ^ 64

/-- The mask is loaded and exchanged, and the slot and its ring are set up.  An error
leaves the bus. -/
def subscribe (bus : ShmBus) : ShmBus × Option ℕ :=
  let idx := trailingOnes bus.activeMask
  if idx ≥ maxSubscribers then (bus, none)
  else
    ({ bus with
      activeMask := withBit bus.activeMask idx
      active := update bus.active idx true
      rings := update bus.rings idx (some ⟨bus.slotSize, []⟩) }, some idx)

def unsubscribe (bus : ShmBus) (slot : ℕ) : ShmBus :=
  { bus with
    activeMask := withoutBit bus.activeMask slot
    active := update bus.active slot false }

/-- The result of a push on the ring of a slot. -/
def ringPush (ring : ByteFifo) (data : Bytes) : ByteFifo × Except RingError Bool :=
  ((ring.push data).1, .ok (ring.push data).2)

/-- One slot of a publication.  A slot whose ring was never set up stops it. -/
def publishTo (data : Bytes) (mask : BitVec 64) (slot : ℕ) (bus : ShmBus) (delivered : ℕ) :
    Option (ShmBus × ℕ) :=
  if mask.getLsbD slot = false then some (bus, delivered)
  else if bus.active slot = false then some (bus, delivered)
  else
    match bus.rings slot with
    | none => none
    | some ring =>
      let (ring, result) := ringPush ring data
      some ({ bus with rings := update bus.rings slot (some ring) },
        if result.isOk then delivered + 1 else delivered)

/-- A publication to the given slots. -/
def publishAll (data : Bytes) (mask : BitVec 64) : List ℕ → ShmBus → ℕ → Option (ShmBus × ℕ)
  | [], bus, delivered => some (bus, delivered)
  | slot :: slots, bus, delivered =>
    (publishTo data mask slot bus delivered).bind fun (bus, delivered) ↦
      publishAll data mask slots bus delivered

def publish (bus : ShmBus) (data : Bytes) : Option (ShmBus × ℕ) :=
  (publishAll data bus.activeMask (List.range maxSubscribers) bus 0).map fun (bus, delivered) ↦
    ({ bus with sequence := bus.sequence + 1 }, delivered)

def consume (bus : ShmBus) (slot : ℕ) : Option (ShmBus × Option Bytes) :=
  (bus.rings slot).map fun ring ↦
    ({ bus with rings := update bus.rings slot (some ring.pop.1) }, ring.pop.2)

end ShmBus

/-! ## Runs of calls -/

/-- The result of `subscribe` goes to one holder, who gives the slot back. -/
inductive BusCall
  | subscribe
  | unsubscribe (slot : ℕ)
  | publish (data : Bytes)
  | consume (slot : ℕ)

/-- The bus and the slots it was created with, the slots that are held, and for the holder of each
slot the messages counted as delivered to it and those it has consumed. -/
structure BusRun where
  bus : ShmBus
  maxSlots : ℕ
  held : Finset ℕ
  delivered : ℕ → List Bytes
  consumed : ℕ → List Bytes

namespace BusRun

def new (maxSlots slotSize : ℕ) : BusRun :=
  ⟨.create maxSlots slotSize, maxSlots, ∅, fun _ ↦ [], fun _ ↦ []⟩

/-- A new holder has been delivered nothing. -/
def subscribe (s : BusRun) : BusRun where
  bus := s.bus.subscribe.1
  maxSlots := s.maxSlots
  held := s.held ∪ s.bus.subscribe.2.toFinset
  delivered := fun slot ↦ if s.bus.subscribe.2 = some slot then [] else s.delivered slot
  consumed := fun slot ↦ if s.bus.subscribe.2 = some slot then [] else s.consumed slot

def unsubscribe (s : BusRun) (slot : ℕ) : BusRun :=
  { s with bus := s.bus.unsubscribe slot, held := s.held.erase slot }

/-- A subscriber is counted when its slot is active and the push on its ring returns no error. -/
def counted (s : BusRun) (data : Bytes) (slot : ℕ) : Bool :=
  s.bus.activeMask.getLsbD slot && s.bus.active slot &&
    ((s.bus.rings slot).map fun ring ↦ (ShmBus.ringPush ring data).2.isOk).getD false

def publish (s : BusRun) (data : Bytes) : Option BusRun :=
  (s.bus.publish data).map fun result ↦
    { s with
      bus := result.1
      delivered := fun slot ↦
        if slot < maxSubscribers ∧ s.counted data slot then s.delivered slot ++ [data]
        else s.delivered slot }

def consume (s : BusRun) (slot : ℕ) : Option BusRun :=
  (s.bus.consume slot).map fun result ↦
    { s with
      bus := result.1
      consumed := update s.consumed slot (s.consumed slot ++ result.2.toList) }

/-- The calls on one bus.  A slot that is none of the bus is no argument, and a ring that was never
set up stops a call. -/
def calls : Machine BusRun BusCall where
  step
    | s, .subscribe => some s.subscribe
    | s, .unsubscribe slot => if slot < maxSubscribers then some (s.unsubscribe slot) else none
    | s, .publish data => s.publish data
    | s, .consume slot => if slot < maxSubscribers then s.consume slot else none

/-- The mask is the set of the slots that are held, each of them with a ring of the size
of a slot. -/
structure Tracks (maxSlots slotSize : ℕ) (s : BusRun) : Prop where
  slots_eq : s.maxSlots = maxSlots
  size_eq : s.bus.slotSize = slotSize
  mask : ∀ slot, s.bus.activeMask.getLsbD slot = true ↔ slot ∈ s.held
  slots : ∀ slot ∈ s.held, slot < maxSubscribers
  active : ∀ slot ∈ s.held, s.bus.active slot = true
  ring : ∀ slot ∈ s.held, ∃ ring, s.bus.rings slot = some ring ∧ ring.capacity = slotSize

variable {s : BusRun} {maxSlots slotSize slot : ℕ} {data : Bytes}

theorem tracks_new (maxSlots slotSize : ℕ) : (new maxSlots slotSize).Tracks maxSlots slotSize where
  slots_eq := rfl
  size_eq := rfl
  mask := fun slot ↦ by simp [new, ShmBus.create]
  slots := fun slot hmem ↦ absurd hmem (Finset.notMem_empty slot)
  active := fun slot hmem ↦ absurd hmem (Finset.notMem_empty slot)
  ring := fun slot hmem ↦ absurd hmem (Finset.notMem_empty slot)

/-! ### A subscription -/

/-- The slot that is given out next. -/
def nextSlot (s : BusRun) : ℕ := trailingOnes s.bus.activeMask

theorem subscribe_of_full (hfull : s.nextSlot ≥ maxSubscribers) : s.bus.subscribe = (s.bus, none) :=
  if_pos hfull

theorem subscribe_of_lt (hlt : s.nextSlot < maxSubscribers) : s.bus.subscribe =
    ({ s.bus with
      activeMask := withBit s.bus.activeMask s.nextSlot
      active := update s.bus.active s.nextSlot true
      rings := update s.bus.rings s.nextSlot (some ⟨s.bus.slotSize, []⟩) },
        some s.nextSlot) :=
  if_neg (not_le.mpr hlt)

theorem Tracks.nextSlot_notMem (hs : s.Tracks maxSlots slotSize) (hlt : s.nextSlot < maxSubscribers) :
    s.nextSlot ∉ s.held := by
  rw [← hs.mask, nextSlot, not_getLsbD_trailingOnes (hlt.trans (by decide))]
  exact Bool.false_ne_true

theorem Tracks.mem_of_lt_nextSlot (hs : s.Tracks maxSlots slotSize) (hlt : slot < s.nextSlot) :
    slot ∈ s.held :=
  (hs.mask slot).mp (getLsbD_of_lt_trailingOnes hlt)

theorem Tracks.nextSlot_le (hs : s.Tracks maxSlots slotSize) (hnot : slot ∉ s.held) :
    s.nextSlot ≤ slot := by
  refine trailingOnes_le_of_not ?_
  rw [← hs.mask, Bool.not_eq_true] at hnot
  exact hnot

theorem subscribe_eq_of_full (hfull : s.nextSlot ≥ maxSubscribers) : s.subscribe = s := by
  rw [subscribe, subscribe_of_full hfull, Option.toFinset_none, Finset.union_empty]
  rfl

theorem subscribe_eq_of_lt (hlt : s.nextSlot < maxSubscribers) : s.subscribe =
    { s with
      bus := { s.bus with
        activeMask := withBit s.bus.activeMask s.nextSlot
        active := update s.bus.active s.nextSlot true
        rings := update s.bus.rings s.nextSlot (some ⟨s.bus.slotSize, []⟩) }
      held := insert s.nextSlot s.held
      delivered := update s.delivered s.nextSlot []
      consumed := update s.consumed s.nextSlot [] } := by
  have hupdate : ∀ texts : ℕ → List Bytes,
      (fun slot ↦ if some s.nextSlot = some slot then [] else texts slot) =
        update texts s.nextSlot [] := by
    intro texts
    funext slot
    simp only [update_apply, Option.some.injEq, eq_comm]
  rw [subscribe, subscribe_of_lt hlt, Option.toFinset_some, Finset.union_singleton]
  simp only [hupdate]

theorem Tracks.subscribe (hs : s.Tracks maxSlots slotSize) : s.subscribe.Tracks maxSlots slotSize := by
  by_cases hfull : s.nextSlot ≥ maxSubscribers
  · rw [subscribe_eq_of_full hfull]
    exact hs
  · have hlt := not_le.mp hfull
    have hother : ∀ slot ∈ s.held, slot ≠ s.nextSlot :=
      fun slot hold hsame ↦ hs.nextSlot_notMem hlt (hsame ▸ hold)
    rw [subscribe_eq_of_lt hlt]
    exact {
      slots_eq := hs.slots_eq
      size_eq := hs.size_eq
      mask := by
        intro slot
        rw [getLsbD_withBit (hlt.trans (by decide)), Bool.or_eq_true, hs.mask, decide_eq_true_iff,
          Finset.mem_insert, or_comm]
      slots := by
        intro slot hmem
        cases Finset.mem_insert.mp hmem with
        | inl hsame => exact hsame ▸ hlt
        | inr hold => exact hs.slots slot hold
      active := by
        intro slot hmem
        cases Finset.mem_insert.mp hmem with
        | inl hsame => exact hsame ▸ update_self ..
        | inr hold =>
          exact (update_of_ne (hother slot hold) ..).trans (hs.active slot hold)
      ring := by
        intro slot hmem
        cases Finset.mem_insert.mp hmem with
        | inl hsame =>
          rw [hsame]
          exact ⟨⟨s.bus.slotSize, []⟩, update_self .., hs.size_eq⟩
        | inr hold =>
          obtain ⟨ring, hring, hcapacity⟩ := hs.ring slot hold
          exact ⟨ring, (update_of_ne (hother slot hold) ..).trans hring, hcapacity⟩ }

theorem Tracks.unsubscribe (hs : s.Tracks maxSlots slotSize) (slot : ℕ) :
    (s.unsubscribe slot).Tracks maxSlots slotSize where
  slots_eq := hs.slots_eq
  size_eq := hs.size_eq
  mask := by
    intro other
    rw [BusRun.unsubscribe, ShmBus.unsubscribe, getLsbD_withoutBit, Bool.and_eq_true, hs.mask,
      decide_eq_true_iff, Finset.mem_erase, and_comm]
  slots := fun other hmem ↦ hs.slots other (Finset.mem_of_mem_erase hmem)
  active := by
    intro other hmem
    refine (update_of_ne (Finset.ne_of_mem_erase hmem) ..).trans ?_
    exact hs.active other (Finset.mem_of_mem_erase hmem)
  ring := fun other hmem ↦ hs.ring other (Finset.mem_of_mem_erase hmem)

/-! ### A publication -/

/-- A slot that gets the message. -/
def takes (bus : ShmBus) (mask : BitVec 64) (slot : ℕ) : Bool := mask.getLsbD slot && bus.active slot

theorem publishTo_of_takes {bus : ShmBus} {mask : BitVec 64} {delivered : ℕ} {ring : ByteFifo}
    (htakes : takes bus mask slot = true) (hring : bus.rings slot = some ring) :
    ShmBus.publishTo data mask slot bus delivered =
      some ({ bus with rings := update bus.rings slot (some (ring.push data).1) },
        delivered + 1) := by
  obtain ⟨hbit, hactive⟩ := Bool.and_eq_true_iff.mp htakes
  rw [ShmBus.publishTo, if_neg (by rw [hbit]; exact Bool.true_eq_false_eq_False), if_neg, hring]
  · rfl
  · rw [hactive]
    exact Bool.true_eq_false_eq_False

theorem publishTo_of_not_takes {bus : ShmBus} {mask : BitVec 64} {delivered : ℕ}
    (hnot : takes bus mask slot = false) :
    ShmBus.publishTo data mask slot bus delivered = some (bus, delivered) := by
  cases Bool.and_eq_false_iff.mp hnot with
  | inl hbit => rw [ShmBus.publishTo, if_pos hbit]
  | inr hactive => rw [ShmBus.publishTo, if_pos hactive, ite_self]

/-- The rings after a message was pushed on some of them. -/
def pushOn (data : Bytes) (takers : ℕ → Bool) (rings : ℕ → Option ByteFifo) (slot : ℕ) :
    Option ByteFifo :=
  if takers slot then (rings slot).map fun ring ↦ (ring.push data).1 else rings slot

/-- Each slot that takes the message has it pushed on its ring once. -/
theorem publishAll_eq {mask : BitVec 64} {slots : List ℕ} (hnodup : slots.Nodup) (bus : ShmBus)
    (delivered : ℕ)
    (hring : ∀ slot ∈ slots, takes bus mask slot = true → ∃ ring, bus.rings slot = some ring) :
    ShmBus.publishAll data mask slots bus delivered =
      some ({ bus with
        rings := pushOn data (fun slot ↦ slots.contains slot && takes bus mask slot) bus.rings },
          delivered + slots.countP (takes bus mask)) := by
  induction slots generalizing bus delivered with
  | nil => rfl
  | cons slot slots ih =>
    obtain ⟨hnot, hnodup⟩ := List.nodup_cons.mp hnodup
    cases htakes : takes bus mask slot with
    | false =>
      rw [ShmBus.publishAll, publishTo_of_not_takes htakes, Option.bind_some]
      dsimp only
      rw [ih hnodup bus delivered fun other hmem ↦ hring other (mem_cons_of_mem _ hmem),
        countP_cons_of_neg (by rw [htakes]; exact Bool.false_ne_true)]
      have hrings : pushOn data (fun other ↦ slots.contains other && takes bus mask other)
          bus.rings = pushOn data (fun other ↦ (slot :: slots).contains other &&
            takes bus mask other) bus.rings := by
        funext other
        by_cases hsame : other = slot
        · simp [pushOn, hsame, htakes]
        · simp [pushOn, hsame]
      rw [hrings]
    | true =>
      obtain ⟨ring, hslot⟩ := hring slot mem_cons_self htakes
      have hlater : ∀ other ∈ slots, takes bus mask other = true →
          ∃ ring', update bus.rings slot (some (ring.push data).1) other =
            some ring' := by
        intro other hmem hother
        have hne : other ≠ slot := fun hsame ↦ hnot (hsame ▸ hmem)
        rw [update_of_ne hne]
        exact hring other (mem_cons_of_mem _ hmem) hother
      rw [ShmBus.publishAll, publishTo_of_takes htakes hslot, Option.bind_some]
      dsimp only
      rw [ih hnodup _ _ hlater, countP_cons_of_pos htakes]
      have hrings : pushOn data (fun other ↦ slots.contains other && takes bus mask other)
          (update bus.rings slot (some (ring.push data).1)) =
            pushOn data (fun other ↦ (slot :: slots).contains other && takes bus mask other)
              bus.rings := by
        funext other
        by_cases hsame : other = slot
        · simp [pushOn, hsame, hnot, htakes, hslot]
        · simp [pushOn, hsame]
      simp only [Nat.add_assoc, Nat.add_comm 1]
      exact congrArg (fun rings ↦ some ({ bus with rings := rings }, _)) hrings

theorem Tracks.takes_iff (hs : s.Tracks maxSlots slotSize) :
    takes s.bus s.bus.activeMask slot = true ↔ slot ∈ s.held := by
  rw [takes, Bool.and_eq_true, hs.mask]
  exact ⟨fun htakes ↦ htakes.1, fun hmem ↦ ⟨hmem, hs.active slot hmem⟩⟩

/-- **A publication pushes the message on the ring of each slot that is held, and counts
them all.** -/
theorem Tracks.publish_eq (hs : s.Tracks maxSlots slotSize) : s.bus.publish data =
    some ({ s.bus with
      rings := pushOn data (fun slot ↦ decide (slot ∈ s.held)) s.bus.rings
      sequence := s.bus.sequence + 1 }, s.held.card) := by
  have hring : ∀ slot ∈ List.range maxSubscribers, takes s.bus s.bus.activeMask slot = true →
      ∃ ring, s.bus.rings slot = some ring := by
    intro slot _ htakes
    obtain ⟨ring, hring, -⟩ := hs.ring slot (hs.takes_iff.mp htakes)
    exact ⟨ring, hring⟩
  have htakers : (fun slot ↦ (List.range maxSubscribers).contains slot &&
      takes s.bus s.bus.activeMask slot) = fun slot ↦ decide (slot ∈ s.held) := by
    funext slot
    rw [Bool.eq_iff_iff, Bool.and_eq_true, hs.takes_iff, contains_iff_mem, mem_range,
      decide_eq_true_iff]
    exact ⟨fun hmem ↦ hmem.2, fun hmem ↦ ⟨hs.slots slot hmem, hmem⟩⟩
  have hcount : (List.range maxSubscribers).countP (takes s.bus s.bus.activeMask) =
      s.held.card := by
    have hheld : s.held =
        ((List.range maxSubscribers).filter (takes s.bus s.bus.activeMask)).toFinset := by
      ext slot
      rw [mem_toFinset, mem_filter, hs.takes_iff, mem_range]
      exact ⟨fun hmem ↦ ⟨hs.slots slot hmem, hmem⟩, fun hmem ↦ hmem.2⟩
    rw [countP_eq_length_filter, hheld,
      toFinset_card_of_nodup (List.nodup_range.filter _)]
  rw [ShmBus.publish, publishAll_eq nodup_range _ _ hring, htakers, hcount, Nat.zero_add]
  rfl

theorem Tracks.counted_iff (hs : s.Tracks maxSlots slotSize) :
    slot < maxSubscribers ∧ s.counted data slot = true ↔ slot ∈ s.held := by
  constructor
  · rintro ⟨-, hcounted⟩
    rw [counted, Bool.and_eq_true] at hcounted
    exact hs.takes_iff.mp hcounted.1
  · intro hmem
    obtain ⟨ring, hring, -⟩ := hs.ring slot hmem
    refine ⟨hs.slots slot hmem, ?_⟩
    rw [counted, (hs.mask slot).mpr hmem, hs.active slot hmem, hring]
    rfl

/-- What a publication makes of the run. -/
theorem Tracks.publish_run (hs : s.Tracks maxSlots slotSize) : s.publish data =
    some { s with
      bus := { s.bus with
        rings := pushOn data (fun slot ↦ decide (slot ∈ s.held)) s.bus.rings
        sequence := s.bus.sequence + 1 }
      delivered := fun slot ↦
        if slot ∈ s.held then s.delivered slot ++ [data] else s.delivered slot } := by
  rw [BusRun.publish, hs.publish_eq, Option.map_some]
  simp only [hs.counted_iff]

theorem pushOn_of_mem {held : Finset ℕ} {rings : ℕ → Option ByteFifo} {ring : ByteFifo}
    (hmem : slot ∈ held) (hring : rings slot = some ring) :
    pushOn data (fun slot ↦ decide (slot ∈ held)) rings slot = some (ring.push data).1 := by
  rw [pushOn, if_pos (decide_eq_true hmem), hring, Option.map_some]

theorem capacity_push (ring : ByteFifo) : (ring.push data).1.capacity = ring.capacity := by
  rw [ByteFifo.push]
  split
  · rfl
  · rfl

theorem Tracks.publish (hs : s.Tracks maxSlots slotSize) {s' : BusRun}
    (hpublish : s.publish data = some s') : s'.Tracks maxSlots slotSize := by
  rw [hs.publish_run] at hpublish
  cases Option.some.inj hpublish
  exact {
    slots_eq := hs.slots_eq
    size_eq := hs.size_eq
    mask := hs.mask
    slots := hs.slots
    active := hs.active
    ring := by
      intro slot hmem
      obtain ⟨ring, hring, hcapacity⟩ := hs.ring slot hmem
      exact ⟨_, pushOn_of_mem hmem hring, (capacity_push ring).trans hcapacity⟩ }

theorem Tracks.consume (hs : s.Tracks maxSlots slotSize) {s' : BusRun}
    (hconsume : s.consume slot = some s') : s'.Tracks maxSlots slotSize := by
  rw [BusRun.consume, ShmBus.consume, Option.map_map] at hconsume
  obtain ⟨popped, hpopped, hnext⟩ := Option.map_eq_some_iff.mp hconsume
  cases hnext
  exact {
    slots_eq := hs.slots_eq
    size_eq := hs.size_eq
    mask := hs.mask
    slots := hs.slots
    active := hs.active
    ring := by
      intro other hmem
      obtain ⟨ring, hring, hcapacity⟩ := hs.ring other hmem
      by_cases hsame : other = slot
      · rw [hsame, hpopped] at hring
        cases Option.some.inj hring
        rw [hsame]
        exact ⟨popped.pop.1, update_self .., hcapacity⟩
      · exact ⟨ring, (update_of_ne hsame ..).trans hring, hcapacity⟩ }

theorem Tracks.step (hs : s.Tracks maxSlots slotSize) {call : BusCall} {s' : BusRun}
    (hstep : calls.step s call = some s') : s'.Tracks maxSlots slotSize := by
  cases call with
  | subscribe => exact Option.some.inj hstep ▸ hs.subscribe
  | unsubscribe slot =>
    obtain ⟨-, hnext⟩ := Option.ite_none_right_eq_some.mp hstep
    exact Option.some.inj hnext ▸ hs.unsubscribe slot
  | publish data => exact hs.publish hstep
  | consume slot => exact hs.consume (Option.ite_none_right_eq_some.mp hstep).2

end BusRun

end SoulSystem.Shm
