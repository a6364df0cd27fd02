import SoulSystem.Shm.Bus

/-!
# Slots of many processes

Processes subscribe and unsubscribe on one bus, and each load, store and exchange is a step of its
own, between which the others can take any number of steps.  A subscription takes its bit with an
exchange, which may also fail for no reason, while an unsubscription stores the mask it has loaded
without its bit. No slot has two holders as long as that store is what clearing the bit would be.
-/

namespace SoulSystem.Shm

open Library BitMask Threads Function

/-! ## Processes -/

inductive SlotCall where
  | subscribe
  | unsubscribe (slot : ℕ)
  deriving DecidableEq

/-- Where a process stands in `subscribe` or `unsubscribe`, with its local variables. -/
inductive Pc where
  | idle
  | load
  | exchange (mask : BitVec 64) (idx : ℕ)
  | initSlot (idx : ℕ)
  | createRing (idx : ℕ)
  | unsubscribeLoad (slot : ℕ)
  | unsubscribeStore (slot : ℕ) (mask : BitVec 64)
  | deactivate (slot : ℕ)
  deriving DecidableEq

/-- What one step of a call leads to. -/
inductive Outcome where
  | goesOn (pc : Pc)
  | refused
  | subscribed (idx : ℕ)
  | unsubscribed

/-- One step of a process on the bus. -/
def ShmBus.advance (bus : ShmBus) (spurious : Bool) : Pc → Option (ShmBus × Outcome)
  | .idle => none
  | .load =>
    let idx := trailingOnes bus.activeMask
    if idx ≥ maxSubscribers then some (bus, .refused)
    else some (bus, .goesOn (.exchange bus.activeMask idx))
  | .exchange mask idx =>
    if bus.activeMask = mask ∧ spurious = false then
      some ({ bus with activeMask := withBit mask idx }, .goesOn (.initSlot idx))
    else some (bus, .goesOn .load)
  | .initSlot idx =>
    some ({ bus with active := update bus.active idx true }, .goesOn (.createRing idx))
  | .createRing idx =>
    some ({ bus with rings := update bus.rings idx (some ⟨bus.slotSize, []⟩) },
      .subscribed idx)
  | .unsubscribeLoad slot => some (bus, .goesOn (.unsubscribeStore slot bus.activeMask))
  | .unsubscribeStore slot mask =>
    some ({ bus with activeMask := withoutBit mask slot }, .goesOn (.deactivate slot))
  | .deactivate slot =>
    some ({ bus with active := update bus.active slot false }, .unsubscribed)

/-! ## The machine -/

/-- The bus, where each process stands, and the slots that `subscribe` has returned and that no
process has called `unsubscribe` with since. -/
structure SlotState (ι : Type) where
  bus : ShmBus
  pc : ι → Pc
  held : List ℕ

inductive SlotEvent (ι : Type) where
  | call (i : ι) (c : SlotCall)
  | step (i : ι) (spurious : Bool)

variable {ι : Type}

def Outcome.held (held : List ℕ) : Outcome → List ℕ
  | .subscribed idx => idx :: held
  | _ => held

/-- Where the process stands after a step. -/
def Outcome.next : Outcome → Pc
  | .goesOn pc => pc
  | _ => .idle

namespace SlotState

def new (maxSlots slotSize : ℕ) : SlotState ι := ⟨.create maxSlots slotSize, fun _ ↦ .idle, []⟩

variable [DecidableEq ι]

/-- Any process can give back any slot that is held. -/
def begin (s : SlotState ι) (i : ι) : SlotCall → Option (SlotState ι)
  | .subscribe => some { s with pc := update s.pc i .load }
  | .unsubscribe slot =>
    if slot ∈ s.held then
      some { s with
        pc := update s.pc i (.unsubscribeLoad slot)
        held := s.held.erase slot }
    else none

def settle (s : SlotState ι) (i : ι) (bus : ShmBus) (outcome : Outcome) : SlotState ι :=
  ⟨bus, update s.pc i outcome.next, outcome.held s.held⟩

end SlotState

/-- Slots of many processes, step by step. -/
def slotMachine (ι : Type) [DecidableEq ι] : Machine (SlotState ι) (SlotEvent ι) where
  step := fun s event ↦
    match event with
    | .call i c => if s.pc i = .idle then s.begin i c else none
    | .step i spurious =>
      (s.bus.advance spurious (s.pc i)).map fun next ↦ s.settle i next.1 next.2

/-- The slot of a subscription that a process has taken and not yet returned, or is giving back. -/
def Pc.owned : Pc → Option ℕ
  | .initSlot idx | .createRing idx => some idx
  | .unsubscribeLoad slot | .unsubscribeStore slot _ => some slot
  | _ => none

/-- The exchange is of the mask that was loaded, for its first bit that is not set. -/
def Pc.Loaded : Pc → Prop
  | .exchange mask idx => idx = trailingOnes mask ∧ idx < maxSubscribers
  | _ => True

/-- A store of the mask writes what clearing the bit in the mask would. -/
def Pc.ClearsBit (bus : ShmBus) : Pc → Prop
  | .unsubscribeStore slot mask => withoutBit mask slot = withoutBit bus.activeMask slot
  | _ => True

instance (bus : ShmBus) : ∀ pc : Pc, Decidable (pc.ClearsBit bus)
  | .unsubscribeStore _ _ => inferInstanceAs (Decidable (_ = _))
  | .idle | .load | .exchange _ _ | .initSlot _ | .createRing _ | .unsubscribeLoad _
  | .deactivate _ => inferInstanceAs (Decidable True)

namespace SlotState

/-- No two subscriptions have the same slot, where a subscription lives from the exchange that takes
its slot to the store that gives it back. -/
structure OneHolder (s : SlotState ι) : Prop where
  held : s.held.Nodup
  apart : Apart Pc.owned s.pc
  notHeld : ∀ i slot, (s.pc i).owned = some slot → slot ∉ s.held

/-- While no call is under way, the mask is the set of the slots that are held. -/
def MaskExact (s : SlotState ι) : Prop :=
  (∀ i, s.pc i = .idle) → ∀ slot, s.bus.activeMask.getLsbD slot = true ↔ slot ∈ s.held

def ClearsBit (s : SlotState ι) : SlotEvent ι → Prop
  | .call _ _ => True
  | .step i _ => (s.pc i).ClearsBit s.bus

instance (s : SlotState ι) : ∀ event, Decidable (s.ClearsBit event)
  | .call _ _ => inferInstanceAs (Decidable True)
  | .step i _ => inferInstanceAs (Decidable ((s.pc i).ClearsBit s.bus))

/-! ## The invariant -/

/-- The mask is the set of the slots of all subscriptions. -/
structure Inv (s : SlotState ι) : Prop where
  holders : s.OneHolder
  mask : ∀ slot, s.bus.activeMask.getLsbD slot = true ↔ slot ∈ s.held ∨ Owns Pc.owned s.pc slot
  loaded : ∀ i, (s.pc i).Loaded

theorem inv_new (maxSlots slotSize : ℕ) : (new maxSlots slotSize : SlotState ι).Inv where
  holders := {
    held := List.nodup_nil
    apart := fun _ _ _ hi ↦ nomatch hi
    notHeld := fun _ _ hi ↦ nomatch hi }
  mask := fun slot ↦ by
    refine iff_of_false (fun hset ↦ ?_) fun hlive ↦ ?_
    · rw [new, ShmBus.create, BitVec.ofNat_eq_ofNat, BitVec.getLsbD_zero] at hset
      cases hset
    · cases hlive with
      | inl hheld => exact absurd hheld List.not_mem_nil
      | inr howns =>
        obtain ⟨i, hi⟩ := howns
        cases hi
  loaded := fun _ ↦ trivial

theorem Inv.maskExact {s : SlotState ι} (hs : s.Inv) : s.MaskExact := by
  intro hidle slot
  rw [hs.mask slot]
  refine or_iff_left ?_
  rintro ⟨i, hi⟩
  rw [hidle i] at hi
  cases hi

variable [DecidableEq ι] {s : SlotState ι} {i : ι} {bus : ShmBus} {next : Pc} {slot : ℕ}

/-- A step that leaves the mask, and after which the process owns what it owned. -/
theorem Inv.keep (hs : s.Inv) (hmask : bus.activeMask = s.bus.activeMask)
    (howned : next.owned = (s.pc i).owned) (hloaded : next.Loaded) :
    (⟨bus, update s.pc i next, s.held⟩ : SlotState ι).Inv where
  holders := {
    held := hs.holders.held
    apart := hs.holders.apart.update_of_imp fun x hx ↦ howned ▸ hx
    notHeld := by
      rw [forall_update_iff s.pc fun _ pc ↦ ∀ slot, pc.owned = some slot → slot ∉ s.held]
      exact ⟨fun slot hslot ↦ hs.holders.notHeld i slot (howned ▸ hslot),
        fun j _ ↦ hs.holders.notHeld j⟩ }
  mask := fun slot ↦ by
    have howns : next.owned = some slot ∨ (Owns Pc.owned s.pc slot ∧ (s.pc i).owned ≠ some slot) ↔
        Owns Pc.owned s.pc slot := by
      rw [howned]
      by_cases hslot : (s.pc i).owned = some slot
      · exact iff_of_true (Or.inl hslot) ⟨i, hslot⟩
      · rw [or_iff_right hslot, and_iff_left hslot]
    rw [hmask, hs.mask slot, hs.holders.apart.owns_update, howns]
  loaded := (forall_update_iff s.pc fun _ pc ↦ pc.Loaded).mpr
    ⟨hloaded, fun j _ ↦ hs.loaded j⟩

/-- A call of `unsubscribe` takes the slot from those that are held. -/
theorem Inv.give (hs : s.Inv) (hidle : s.pc i = .idle) (hheld : slot ∈ s.held) :
    ({ s with
      pc := update s.pc i (.unsubscribeLoad slot)
      held := s.held.erase slot } : SlotState ι).Inv where
  holders := {
    held := hs.holders.held.erase slot
    apart := hs.holders.apart.update fun x hx j _ hj ↦ by
      cases Option.some.inj hx
      exact hs.holders.notHeld j slot hj hheld
    notHeld := by
      rw [forall_update_iff s.pc
        fun _ pc ↦ ∀ other, pc.owned = some other → other ∉ s.held.erase slot]
      refine ⟨fun other hother ↦ ?_, fun j _ other hj ↦
        fun hmem ↦ hs.holders.notHeld j other hj (List.mem_of_mem_erase hmem)⟩
      cases Option.some.inj hother
      exact hs.holders.held.not_mem_erase }
  mask := fun other ↦ by
    have hnone : (s.pc i).owned ≠ some other := by
      rw [hidle]
      exact nofun
    rw [hs.mask other, hs.holders.apart.owns_update, hs.holders.held.mem_erase_iff,
      and_iff_left hnone, Pc.owned, Option.some_inj]
    by_cases hsame : other = slot
    · exact iff_of_true (Or.inl (hsame ▸ hheld)) (Or.inr (Or.inl hsame.symm))
    · rw [and_iff_right hsame, or_iff_right (Ne.symm hsame)]
  loaded := (forall_update_iff s.pc fun _ pc ↦ pc.Loaded).mpr
    ⟨trivial, fun j _ ↦ hs.loaded j⟩

/-- The exchange takes a slot that no subscription has. -/
theorem Inv.take (hs : s.Inv) (hpc : s.pc i = .exchange s.bus.activeMask slot) :
    (⟨{ s.bus with activeMask := withBit s.bus.activeMask slot },
      update s.pc i (.initSlot slot), s.held⟩ : SlotState ι).Inv := by
  have hloaded : slot = trailingOnes s.bus.activeMask ∧ slot < maxSubscribers := by
    have hknown := hs.loaded i
    rwa [hpc] at hknown
  have hlt : slot < 64 := hloaded.2.trans (by decide)
  have hclear : s.bus.activeMask.getLsbD slot = false := by
    rw [hloaded.1] at hlt ⊢
    exact not_getLsbD_trailingOnes hlt
  have hfree : ¬ (slot ∈ s.held ∨ Owns Pc.owned s.pc slot) := by
    rw [← hs.mask slot, hclear]
    exact Bool.false_ne_true
  obtain ⟨hnotHeld, hnotOwned⟩ := not_or.mp hfree
  exact {
    holders := {
      held := hs.holders.held
      apart := hs.holders.apart.update fun x hx j _ hj ↦ by
        cases Option.some.inj hx
        exact hnotOwned ⟨j, hj⟩
      notHeld := by
        rw [forall_update_iff s.pc
          fun _ pc ↦ ∀ other, pc.owned = some other → other ∉ s.held]
        refine ⟨fun other hother ↦ ?_, fun j _ ↦ hs.holders.notHeld j⟩
        cases Option.some.inj hother
        exact hnotHeld }
    mask := fun other ↦ by
      have hnone : (s.pc i).owned ≠ some other := by
        rw [hpc]
        exact nofun
      rw [getLsbD_withBit hlt, Bool.or_eq_true, decide_eq_true_iff, hs.mask other,
        hs.holders.apart.owns_update, and_iff_left hnone, Pc.owned, Option.some_inj, or_assoc,
        or_comm (a := Owns Pc.owned s.pc other), eq_comm]
    loaded := (forall_update_iff s.pc fun _ pc ↦ pc.Loaded).mpr
      ⟨trivial, fun j _ ↦ hs.loaded j⟩ }

/-- `subscribe` returns the slot it has taken. -/
theorem Inv.hold (hs : s.Inv) (hpc : (s.pc i).owned = some slot)
    (hmask : bus.activeMask = s.bus.activeMask) :
    (⟨bus, update s.pc i .idle, slot :: s.held⟩ : SlotState ι).Inv where
  holders := {
    held := List.nodup_cons.mpr ⟨hs.holders.notHeld i slot hpc, hs.holders.held⟩
    apart := hs.holders.apart.update_of_imp fun _ hx ↦ nomatch hx
    notHeld := by
      rw [forall_update_iff s.pc
        fun _ pc ↦ ∀ other, pc.owned = some other → other ∉ slot :: s.held]
      refine ⟨nofun, fun j hne other hj hmem ↦ ?_⟩
      cases List.mem_cons.mp hmem with
      | inl hsame => exact hne (hs.holders.apart j i slot (hsame ▸ hj) hpc)
      | inr hheld => exact hs.holders.notHeld j other hj hheld }
  mask := fun other ↦ by
    have hidle : Pc.idle.owned ≠ some other := nofun
    rw [hmask, hs.mask other, hs.holders.apart.owns_update, or_iff_right hidle, hpc, ne_eq,
      Option.some_inj, List.mem_cons]
    by_cases hsame : other = slot
    · exact iff_of_true (Or.inr ⟨i, hsame ▸ hpc⟩) (Or.inl (Or.inl hsame))
    · rw [or_iff_right hsame, and_iff_left (Ne.symm hsame)]
  loaded := (forall_update_iff s.pc fun _ pc ↦ pc.Loaded).mpr
    ⟨trivial, fun j _ ↦ hs.loaded j⟩

/-- The store gives back the slot when it is what clearing the bit would be. -/
theorem Inv.clear (hs : s.Inv) (hpc : (s.pc i).owned = some slot)
    (hmask : bus.activeMask = withoutBit s.bus.activeMask slot) :
    (⟨bus, update s.pc i (.deactivate slot), s.held⟩ : SlotState ι).Inv where
  holders := {
    held := hs.holders.held
    apart := hs.holders.apart.update_of_imp fun _ hx ↦ nomatch hx
    notHeld := by
      rw [forall_update_iff s.pc
        fun _ pc ↦ ∀ other, pc.owned = some other → other ∉ s.held]
      exact ⟨nofun, fun j _ ↦ hs.holders.notHeld j⟩ }
  mask := fun other ↦ by
    have hidle : (Pc.deactivate slot).owned ≠ some other := nofun
    rw [hmask, getLsbD_withoutBit, Bool.and_eq_true, decide_eq_true_iff, hs.mask other,
      hs.holders.apart.owns_update, or_iff_right hidle, hpc, ne_eq, ne_eq, Option.some_inj,
      eq_comm (a := slot), or_and_right]
    refine or_congr (and_iff_left_of_imp fun hheld hsame ↦ ?_) Iff.rfl
    exact hs.holders.notHeld i slot hpc (hsame ▸ hheld)
  loaded := (forall_update_iff s.pc fun _ pc ↦ pc.Loaded).mpr
    ⟨trivial, fun j _ ↦ hs.loaded j⟩

theorem Inv.begin (hs : s.Inv) (hidle : s.pc i = .idle) {c : SlotCall} {s' : SlotState ι}
    (hbegin : s.begin i c = some s') : s'.Inv := by
  cases c with
  | subscribe =>
    cases Option.some.inj hbegin
    exact hs.keep rfl (by rw [hidle]; rfl) trivial
  | unsubscribe slot =>
    obtain ⟨hheld, hnext⟩ := Option.ite_none_right_eq_some.mp hbegin
    cases Option.some.inj hnext
    exact hs.give hidle hheld

/-- **What one step of a process keeps.** -/
theorem Inv.advance (hs : s.Inv) (hclears : (s.pc i).ClearsBit s.bus) {spurious : Bool}
    {outcome : Outcome} (hadvance : s.bus.advance spurious (s.pc i) = some (bus, outcome)) :
    (s.settle i bus outcome).Inv := by
  cases hpc : s.pc i with
  | idle =>
    rw [hpc] at hadvance
    cases hadvance
  | load =>
    rw [hpc, ShmBus.advance] at hadvance
    split at hadvance
    case isTrue hfull =>
      cases Option.some.inj hadvance
      exact hs.keep rfl (by rw [hpc]; rfl) trivial
    case isFalse hfree =>
      cases Option.some.inj hadvance
      exact hs.keep rfl (by rw [hpc]; rfl) ⟨rfl, not_le.mp hfree⟩
  | exchange mask idx =>
    rw [hpc, ShmBus.advance] at hadvance
    split at hadvance
    case isTrue hwon =>
      cases Option.some.inj hadvance
      rw [← hwon.1] at hpc ⊢
      exact hs.take hpc
    case isFalse hlost =>
      cases Option.some.inj hadvance
      exact hs.keep rfl (by rw [hpc]; rfl) trivial
  | initSlot idx =>
    rw [hpc] at hadvance
    cases Option.some.inj hadvance
    exact hs.keep rfl (by rw [hpc]; rfl) trivial
  | createRing idx =>
    rw [hpc] at hadvance
    cases Option.some.inj hadvance
    exact hs.hold (by rw [hpc]; rfl) rfl
  | unsubscribeLoad slot =>
    rw [hpc] at hadvance
    cases Option.some.inj hadvance
    exact hs.keep rfl (by rw [hpc]; rfl) trivial
  | unsubscribeStore slot mask =>
    rw [hpc] at hadvance hclears
    cases Option.some.inj hadvance
    exact hs.clear (by rw [hpc]; rfl) hclears
  | deactivate slot =>
    rw [hpc] at hadvance
    cases Option.some.inj hadvance
    exact hs.keep rfl (by rw [hpc]; rfl) trivial

theorem Inv.step (hs : s.Inv) {event : SlotEvent ι} (hclears : s.ClearsBit event)
    {s' : SlotState ι} (hstep : (slotMachine ι).step s event = some s') : s'.Inv := by
  cases event with
  | call i c =>
    obtain ⟨hidle, hbegin⟩ := Option.ite_none_right_eq_some.mp hstep
    exact hs.begin hidle hbegin
  | step i spurious =>
    obtain ⟨next, hadvance, hsettle⟩ := Option.map_eq_some_iff.mp hstep
    exact hsettle ▸ hs.advance hclears hadvance

/-! ## The run -/

/-- **No two subscriptions have the same slot and the mask is the set of the slots that are held, as
long as every store of the mask is what clearing the bit would be.** -/
theorem oneHolder_of_clearsBit (maxSlots slotSize : ℕ) {events : List (SlotEvent ι)}
    (hclears : (slotMachine ι).Meets ClearsBit (new maxSlots slotSize) events)
    (hrun : (slotMachine ι).run (new maxSlots slotSize) events = some s) :
    s.OneHolder ∧ s.MaskExact := by
  have hstep : ∀ s event s', Inv s → ClearsBit s event →
      (slotMachine ι).step s event = some s' → Inv s' :=
    fun _ _ _ hs hclears hstep ↦ hs.step hclears hstep
  have hs : s.Inv := Machine.inv_of_run hstep (inv_new maxSlots slotSize) hclears hrun
  exact ⟨hs.holders, hs.maskExact⟩

/-- A process subscribes. -/
def subscription (i : ι) : List (SlotEvent ι) :=
  [.call i .subscribe, .step i false, .step i false, .step i false, .step i false]

/-- While the first process gives back its slot, the second one subscribes and fails to
exchange once. -/
def handOver : List (SlotEvent Bool) :=
  subscription false ++ [.call false (.unsubscribe 0), .call true .subscribe, .step true false,
    .step false false, .step false false, .step true false, .step true false, .step true false,
    .step true false, .step false false, .step true false]

theorem oneHolder_handOver :
    ∃ s, (slotMachine Bool).run (new 16 4096) handOver = some s ∧ s.OneHolder ∧ s.MaskExact := by
  have hsome : ((slotMachine Bool).run (new 16 4096) handOver).isSome = true := by
    decide +kernel
  obtain ⟨s, hrun⟩ := Option.isSome_iff_exists.mp hsome
  exact ⟨s, hrun, oneHolder_of_clearsBit 16 4096 (by decide +kernel) hrun⟩

/-- The first process gives back its slot with the mask from before the second one has subscribed,
and the next two subscriptions get the slots of the first and of the second process. -/
def lostBit : List (SlotEvent Bool) :=
  subscription false ++ [.call false (.unsubscribe 0), .step false false] ++ subscription true ++
    [.step false false, .step false false] ++ subscription false ++ subscription false

theorem not_oneHolder_lostBit :
    ∃ s, (slotMachine Bool).run (new 16 4096) lostBit = some s ∧ ¬ s.OneHolder := by
  have hheld : ((slotMachine Bool).run (new 16 4096) lostBit).map SlotState.held = some [1, 0, 1] := by
    decide +kernel
  obtain ⟨s, hrun, hslots⟩ := Option.map_eq_some_iff.mp hheld
  refine ⟨s, hrun, fun hone ↦ ?_⟩
  have hnodup := hone.held
  rw [hslots] at hnodup
  revert hnodup
  decide

end SlotState

end SoulSystem.Shm
