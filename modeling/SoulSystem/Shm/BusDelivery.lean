import SoulSystem.Shm.Bus

/-!
# What subscribers are delivered

A publication counts every slot that is held, since a push on a full ring is no error.  The count is
that of the rings that have gained the message exactly when all of them have room, and then a
subscriber consumes what was counted for it in order.
-/

namespace SoulSystem.Shm

open Library List Function

namespace BusRun

/-- The ring of a slot has gained the message. -/
def gained (before after : ShmBus) (data : Bytes) (slot : ℕ) : Bool :=
  decide ((after.rings slot).map ByteFifo.messages =
    (before.rings slot).map fun ring ↦ ring.messages ++ [data])

/-- A publication returns the number of subscribers whose ring has gained the message. -/
def Delivers (s : BusRun) : BusCall → Prop
  | .publish data => ∀ bus delivered, s.bus.publish data = some (bus, delivered) →
      delivered = (s.held.filter fun slot ↦ gained s.bus bus data slot = true).card
  | _ => True

/-- What each subscriber has consumed is the first part of what was counted as delivered to it. -/
def InOrder (s : BusRun) : Prop := ∀ slot ∈ s.held, s.consumed slot <+: s.delivered slot

/-- The message has room on the ring of every subscriber. -/
def Room (s : BusRun) : BusCall → Prop
  | .publish data => ∀ slot ∈ s.held, ∀ ring ∈ s.bus.rings slot,
      ByteFifo.messageSize data ≤ ring.capacity - ByteFifo.used ring.messages
  | _ => True

instance : ∀ (s : BusRun) (call : BusCall), Decidable (s.Room call)
  | s, .publish _ => inferInstanceAs (Decidable (∀ slot ∈ s.held, ∀ ring ∈ s.bus.rings slot, _))
  | _, .subscribe => inferInstanceAs (Decidable True)
  | _, .unsubscribe _ => inferInstanceAs (Decidable True)
  | _, .consume _ => inferInstanceAs (Decidable True)

variable {s : BusRun} {maxSlots slotSize : ℕ} {call : BusCall} {data : Bytes} {slot : ℕ}

theorem messages_push_iff (ring : ByteFifo) : (ring.push data).1.messages = ring.messages ++ [data] ↔
    ByteFifo.messageSize data ≤ ring.capacity - ByteFifo.used ring.messages := by
  rw [ByteFifo.push]
  split
  case isTrue hroom => exact iff_of_true rfl hroom
  case isFalse hfull =>
    refine iff_of_false (fun hsame ↦ ?_) hfull
    have hlength : ring.messages.length = (ring.messages ++ [data]).length :=
      congrArg List.length hsame
    rw [length_append, length_singleton] at hlength
    omega

/-- **The count of a publication is right exactly when all subscribers have room.** -/
theorem Tracks.delivers_iff_room (hs : s.Tracks maxSlots slotSize) :
    s.Delivers call ↔ s.Room call := by
  cases call with
  | subscribe => exact Iff.rfl
  | unsubscribe slot => exact Iff.rfl
  | consume slot => exact Iff.rfl
  | publish data =>
    have hgained : ∀ slot ∈ s.held, gained s.bus { s.bus with
        rings := pushOn data (fun slot ↦ decide (slot ∈ s.held)) s.bus.rings
        sequence := s.bus.sequence + 1 } data slot = true ↔ ∀ ring ∈ s.bus.rings slot,
          ByteFifo.messageSize data ≤ ring.capacity - ByteFifo.used ring.messages := by
      intro slot hmem
      obtain ⟨ring, hring, -⟩ := hs.ring slot hmem
      rw [gained, decide_eq_true_iff]
      dsimp only
      rw [pushOn_of_mem hmem hring, hring, Option.map_some,
        Option.map_some, Option.some_inj, messages_push_iff]
      exact ⟨fun hroom ring' hmem' ↦ Option.mem_some_iff.mp hmem' ▸ hroom,
        fun hroom ↦ hroom ring rfl⟩
    rw [Delivers, Room, hs.publish_eq]
    constructor
    · intro hdelivers slot hmem
      have hcount := hdelivers _ _ rfl
      exact (hgained slot hmem).mp (Finset.filter_card_eq hcount.symm slot hmem)
    · intro hroom bus delivered hpublish
      cases Option.some.inj hpublish
      rw [Finset.filter_true_of_mem fun slot hmem ↦ (hgained slot hmem).mpr (hroom slot hmem)]

/-! ## What a subscriber has been delivered -/

/-- What was delivered to a subscriber is what it has consumed and what its ring holds. -/
structure Queued (maxSlots slotSize : ℕ) (s : BusRun) : Prop where
  tracks : s.Tracks maxSlots slotSize
  queued : ∀ slot ∈ s.held, ∀ ring ∈ s.bus.rings slot,
    s.delivered slot = s.consumed slot ++ ring.messages

theorem queued_new (maxSlots slotSize : ℕ) : (new maxSlots slotSize).Queued maxSlots slotSize :=
  ⟨tracks_new maxSlots slotSize, fun slot hmem ↦ absurd hmem (Finset.notMem_empty slot)⟩

theorem Queued.inOrder (hs : s.Queued maxSlots slotSize) : s.InOrder := by
  intro slot hmem
  obtain ⟨ring, hring, -⟩ := hs.tracks.ring slot hmem
  rw [hs.queued slot hmem ring hring]
  exact prefix_append _ _

theorem Queued.subscribe (hs : s.Queued maxSlots slotSize) : s.subscribe.Queued maxSlots slotSize := by
  refine ⟨hs.tracks.subscribe, ?_⟩
  by_cases hfull : s.nextSlot ≥ maxSubscribers
  · rw [subscribe_eq_of_full hfull]
    exact hs.queued
  · have hlt := not_le.mp hfull
    rw [subscribe_eq_of_lt hlt]
    intro slot hmem ring hring
    dsimp only at hring ⊢
    cases Finset.mem_insert.mp hmem with
    | inl hsame =>
      rw [hsame, update_self] at hring
      cases Option.some.inj hring
      rw [hsame, update_self, update_self, append_nil]
    | inr hold =>
      have hother : slot ≠ s.nextSlot := fun hsame ↦ hs.tracks.nextSlot_notMem hlt (hsame ▸ hold)
      rw [update_of_ne hother] at hring
      rw [update_of_ne hother, update_of_ne hother]
      exact hs.queued slot hold ring hring

theorem Queued.publish (hs : s.Queued maxSlots slotSize) (hroom : s.Room (.publish data)) {s' : BusRun}
    (hpublish : s.publish data = some s') : s'.Queued maxSlots slotSize := by
  refine ⟨hs.tracks.publish hpublish, ?_⟩
  rw [hs.tracks.publish_run] at hpublish
  cases Option.some.inj hpublish
  intro slot hmem ring' hring'
  obtain ⟨ring, hring, -⟩ := hs.tracks.ring slot hmem
  have hpushed : some (ring.push data).1 = some ring' :=
    (pushOn_of_mem hmem hring).symm.trans hring'
  have hmessages := (messages_push_iff ring).mpr (hroom slot hmem ring hring)
  rw [← Option.some.inj hpushed, hmessages, ← append_assoc, ← hs.queued slot hmem ring hring]
  exact if_pos hmem

theorem Queued.consume (hs : s.Queued maxSlots slotSize) {s' : BusRun}
    (hconsume : s.consume slot = some s') : s'.Queued maxSlots slotSize := by
  refine ⟨hs.tracks.consume hconsume, ?_⟩
  rw [BusRun.consume, ShmBus.consume, Option.map_map] at hconsume
  obtain ⟨popped, hpopped, hnext⟩ := Option.map_eq_some_iff.mp hconsume
  cases hnext
  intro other hmem ring hring
  dsimp only [comp_apply] at hring ⊢
  by_cases hsame : other = slot
  · rw [hsame, update_self] at hring
    cases Option.some.inj hring
    have hqueued := hs.queued slot (hsame ▸ hmem) popped hpopped
    rw [hsame, update_self, hqueued, append_assoc, ByteFifo.pop]
    cases popped.messages with
    | nil => rfl
    | cons message messages => rfl
  · rw [update_of_ne hsame] at hring
    rw [update_of_ne hsame]
    exact hs.queued other hmem ring hring

theorem Queued.step (hs : s.Queued maxSlots slotSize) (hroom : s.Room call) {s' : BusRun}
    (hstep : calls.step s call = some s') : s'.Queued maxSlots slotSize := by
  cases call with
  | subscribe => exact Option.some.inj hstep ▸ hs.subscribe
  | unsubscribe slot =>
    obtain ⟨-, hnext⟩ := Option.ite_none_right_eq_some.mp hstep
    cases Option.some.inj hnext
    exact ⟨hs.tracks.unsubscribe slot, fun other hmem ↦
      hs.queued other (Finset.mem_of_mem_erase hmem)⟩
  | publish data => exact hs.publish hroom hstep
  | consume slot => exact hs.consume (Option.ite_none_right_eq_some.mp hstep).2

/-! ## The run -/

/-- **Subscribers are delivered what is counted, in order, exactly when every message has room on
the rings of all subscribers.** -/
theorem delivered_iff_room (slotSize : ℕ) (busCalls : List BusCall) :
    (calls.Meets Delivers (new maxSubscribers slotSize) busCalls ∧
        ∀ s, calls.run (new maxSubscribers slotSize) busCalls = some s → s.InOrder) ↔
      calls.Meets Room (new maxSubscribers slotSize) busCalls := by
  have htracks : ∀ s call s', s.Tracks maxSubscribers slotSize → True →
      calls.step s call = some s' → s'.Tracks maxSubscribers slotSize :=
    fun _ _ _ hs _ hstep ↦ hs.step hstep
  have hqueued : ∀ s call s', s.Queued maxSubscribers slotSize → s.Room call →
      calls.step s call = some s' → s'.Queued maxSubscribers slotSize :=
    fun _ _ _ hs hroom hstep ↦ hs.step hroom hstep
  constructor
  · rintro ⟨hdelivers, -⟩
    exact Machine.meets_of_inv (fun s call s' hs _ hstep ↦ htracks s call s' hs trivial hstep)
      (fun _ _ hs hdelivers ↦ hs.delivers_iff_room.mp hdelivers)
      (tracks_new maxSubscribers slotSize) hdelivers
  · intro hroom
    exact ⟨Machine.meets_of_inv hqueued (fun _ _ hs hroom ↦ hs.tracks.delivers_iff_room.mpr hroom)
        (queued_new maxSubscribers slotSize) hroom,
      fun s hrun ↦ (Machine.inv_of_run hqueued (queued_new maxSubscribers slotSize) hroom
        hrun).inOrder⟩

/-- The second message of four bytes finds a ring of ten bytes full and is counted. -/
theorem not_delivered_fullRing :
    ¬ calls.Meets Delivers (new maxSubscribers 10)
      [.subscribe, .publish [1, 2, 3, 4], .publish [5, 6, 7, 8]] := by
  intro hdelivers
  have hsecond := ((hdelivers.2 _ rfl).2 _ rfl).1 _ _ rfl
  revert hsecond
  decide +kernel

end BusRun

end SoulSystem.Shm
