import SoulSystem.Scheduler.Queue
import SoulSystem.Library.Slots

/-!
# The task deque of many threads

Each load, store, exchange, slot write and slot take of a call is one step on the shared deque, and
between two steps of one thread any number of steps of the others can happen.  The state records
what was accepted and what was returned, and a stealer between its exchange and its take keeps what
the slot held when the exchange succeeded.

At most one thread is changing the tail, and where it stands says up to which index stealers may
win, and up to which index slots may be full.  Every full slot belongs to an index between head and
that extent, or to a stealer that has won it.
-/

namespace SoulSystem.Scheduler

open Library

section Steps

/-! ## Threads -/

/-- Where a thread stands in a call, with its local variables. -/
inductive Pc (τ : Type) where
  | idle
  | pushBegin (task : τ)
  | pushHead (task : τ) (t : ℕ)
  | pushWrite (task : τ) (t h : ℕ)
  | pushStore (task : τ) (t : ℕ)
  | popBegin
  | popStore (t : ℕ)
  | popHead (t : ℕ)
  | popTake (t h : ℕ)
  | popExchange (t : ℕ) (task : Option τ)
  | popRestore (t : ℕ) (task : Option τ)
  | stealBegin
  | stealTail (h : ℕ)
  | stealExchange (h : ℕ)
  | stealTake (h : ℕ) (found : Option τ)
  deriving DecidableEq

/-- What one step of a call leads to. -/
inductive Outcome (τ : Type) where
  | goesOn (pc : Pc τ)
  | refused
  | accepted (task : τ)
  | returned (task : Option τ)

variable {ι τ : Type}

/-- Where the thread stands then. -/
def Outcome.next : Outcome τ → Pc τ
  | .goesOn pc => pc
  | _ => .idle

/-- What a step accepts. -/
def Outcome.acceptedTasks : Outcome τ → Multiset τ
  | .accepted task => {task}
  | _ => 0

/-- What a step returns. -/
def Outcome.returnedTasks : Outcome τ → Multiset τ
  | .returned task => Slots.ofSlot task
  | _ => 0

def Pc.begin : Call τ → Pc τ
  | .push task => .pushBegin task
  | .pop => .popBegin
  | .steal => .stealBegin

/-- One step of a thread on the shared deque. -/
def LockFreeTaskDeque.advance (d : LockFreeTaskDeque τ) :
    Pc τ → Option (LockFreeTaskDeque τ × Outcome τ)
  | .idle => none
  | .pushBegin task => some (d, .goesOn (.pushHead task d.tail))
  | .pushHead task t =>
    let h := d.head
    if wrappingSub t h ≥ dequeCapacity then some (d, .refused)
    else some (d, .goesOn (.pushWrite task t h))
  | .pushWrite task t _ => some (d.setSlot t (some task), .goesOn (.pushStore task t))
  | .pushStore task t => some (d.setTail (wrappingAdd t 1), .accepted task)
  | .popBegin => some (d, .goesOn (.popStore (wrappingSub d.tail 1)))
  | .popStore t => some (d.setTail t, .goesOn (.popHead t))
  | .popHead t =>
    let h := d.head
    if h ≤ t then some (d, .goesOn (.popTake t h)) else some (d, .goesOn (.popRestore t none))
  | .popTake t h =>
    let task := d.buffer (slot t)
    if h = t then some (d.setSlot t none, .goesOn (.popExchange t task))
    else some (d.setSlot t none, .returned task)
  | .popExchange t task =>
    if d.head = t then some (d.setHead (wrappingAdd t 1), .goesOn (.popRestore t task))
    else some (d, .goesOn (.popRestore t none))
  | .popRestore t task => some (d.setTail (wrappingAdd t 1), .returned task)
  | .stealBegin => some (d, .goesOn (.stealTail d.head))
  | .stealTail h =>
    if h ≥ d.tail then some (d, .returned none) else some (d, .goesOn (.stealExchange h))
  | .stealExchange h =>
    if d.head = h then
      some (d.setHead (wrappingAdd h 1), .goesOn (.stealTake h (d.buffer (slot h))))
    else some (d, .goesOn .stealBegin)
  | .stealTake h _ => some (d.setSlot h none, .returned (d.buffer (slot h)))

/-! ## The machine -/

/-- The shared deque, where each thread stands, and what was accepted and returned so far. -/
structure DequeState (ι τ : Type) where
  deque : LockFreeTaskDeque τ
  pc : ι → Pc τ
  accepted : Multiset τ
  returned : Multiset τ

inductive DequeEvent (ι τ : Type) where
  | call (i : ι) (c : Call τ)
  | step (i : ι)

namespace DequeState

def new : DequeState ι τ := ⟨LockFreeTaskDeque.new, fun _ ↦ .idle, 0, 0⟩

variable [DecidableEq ι]

def moveTo (s : DequeState ι τ) (i : ι) (d : LockFreeTaskDeque τ) (pc : Pc τ) : DequeState ι τ :=
  { s with deque := d, pc := Function.update s.pc i pc }

section MoveTo

variable (s : DequeState ι τ) (i : ι) (d : LockFreeTaskDeque τ) (pc : Pc τ)

@[simp] theorem moveTo_deque : (s.moveTo i d pc).deque = d := rfl

@[simp] theorem moveTo_pc : (s.moveTo i d pc).pc = Function.update s.pc i pc := rfl

@[simp] theorem moveTo_accepted : (s.moveTo i d pc).accepted = s.accepted := rfl

@[simp] theorem moveTo_returned : (s.moveTo i d pc).returned = s.returned := rfl

end MoveTo

def settle (s : DequeState ι τ) (i : ι) (d : LockFreeTaskDeque τ) : Outcome τ → DequeState ι τ
  | .goesOn pc => s.moveTo i d pc
  | .refused => s.moveTo i d .idle
  | .accepted task => { s.moveTo i d .idle with accepted := s.accepted + {task} }
  | .returned task => { s.moveTo i d .idle with returned := s.returned + Slots.ofSlot task }

theorem settle_eq (s : DequeState ι τ) (i : ι) (d : LockFreeTaskDeque τ) (outcome : Outcome τ) :
    s.settle i d outcome = ⟨d, Function.update s.pc i outcome.next,
      s.accepted + outcome.acceptedTasks, s.returned + outcome.returnedTasks⟩ := by
  cases outcome <;> simp [settle, moveTo, Outcome.next, Outcome.acceptedTasks, Outcome.returnedTasks]

end DequeState

/-- The deque of many threads, step by step. -/
def dequeMachine (ι τ : Type) [DecidableEq ι] : Machine (DequeState ι τ) (DequeEvent ι τ) where
  step := fun s event ↦
    match event with
    | .call i c =>
      match s.pc i with
      | .idle => some (s.moveTo i s.deque (.begin c))
      | _ => none
    | .step i => (s.deque.advance (s.pc i)).map fun next ↦ s.settle i next.1 next.2

/-! ## Exactly once -/

namespace DequeState

/-- No call is in flight. -/
def Quiescent (s : DequeState ι τ) : Prop := ∀ i, s.pc i = .idle

/-- The tasks in the slots between head and tail. -/
def held (s : DequeState ι τ) : Multiset τ :=
  ∑ index ∈ Finset.Ico s.deque.head s.deque.tail, Slots.ofSlot (s.deque.buffer (slot index))

/-- **Exactly once.**  Nothing is returned more often than it was accepted, what was accepted and
not returned is between head and tail when no call is in flight, and a stealer that won an index
takes what was there. -/
structure ExactlyOnce (s : DequeState ι τ) : Prop where
  atMostOnce : s.returned ≤ s.accepted
  balance : s.Quiescent → s.accepted = s.returned + s.held
  won : ∀ i h found, s.pc i = .stealTake h found → s.deque.buffer (slot h) = found

end DequeState

/-! ## Where it can fail -/

/-- The thread has changed the deque for its push or pop and is not done. -/
def Pc.Busy : Pc τ → Prop
  | .pushStore _ _ | .popHead _ | .popTake _ _ | .popExchange _ _ | .popRestore _ _ => True
  | _ => False

/-- The slot that a stealer has won and not yet taken from. -/
def Pc.wonSlot : Pc τ → Option ℕ
  | .stealTake h _ => some (slot h)
  | _ => none

/-- The index whose task a pop holds without having won it. -/
def Pc.heldIndex : Pc τ → Option ℕ
  | .popExchange t (some _) => some t
  | _ => none

instance : DecidablePred (Pc.Busy (τ := τ)) := fun pc ↦
  match pc with
  | .pushStore _ _ | .popHead _ | .popTake _ _ | .popExchange _ _ | .popRestore _ _ => isTrue trivial
  | .idle | .pushBegin _ | .pushHead _ _ | .pushWrite _ _ _ | .popBegin | .popStore _ | .stealBegin
  | .stealTail _ | .stealExchange _ | .stealTake _ _ => isFalse id

namespace DequeState

/-- No stealer stands between winning an index of the slot and taking from it. -/
def Untouched (s : DequeState ι τ) (index : ℕ) : Prop :=
  ∀ i, (s.pc i).wonSlot ≠ some (slot index)

/-- The races that lose a task, and the wrap of the indices.  A push must not write a slot that was
won and not yet taken, nor at the last index; a pop must not take from such a slot; and no stealer
may win the index whose task a pop holds without having won it. -/
def RaceFreeAt (s : DequeState ι τ) : Pc τ → Prop
  | .pushWrite _ t _ => t ≠ 2 ^ 64 - 1 ∧ s.Untouched t
  | .popTake t _ => s.deque.buffer (slot t) ≠ none → s.Untouched t
  | .popExchange t _ => s.deque.head = t → t ≠ 2 ^ 64 - 1
  | .stealExchange h => s.deque.head = h → ∀ j, (s.pc j).heldIndex ≠ some h
  | _ => True

def RaceFree (s : DequeState ι τ) : DequeEvent ι τ → Prop
  | .call _ _ => True
  | .step i => s.RaceFreeAt (s.pc i)

/-- No push or pop changes the deque while another one is changing it, nor after the tail that it
read has moved. -/
def ExclusiveAt (s : DequeState ι τ) : Pc τ → Prop
  | .pushWrite _ t _ => s.deque.tail = t ∧ ∀ j, ¬ (s.pc j).Busy
  | .popStore t => s.deque.tail = wrappingAdd t 1 ∧ ∀ j, ¬ (s.pc j).Busy
  | _ => True

def Exclusive (s : DequeState ι τ) : DequeEvent ι τ → Prop
  | .call _ _ => True
  | .step i => s.ExclusiveAt (s.pc i)

theorem Untouched.slot_ne {s : DequeState ι τ} {index : ℕ} (huntouched : s.Untouched index) {i : ι}
    {h : ℕ} {found : Option τ} (htake : s.pc i = .stealTake h found) : slot h ≠ slot index := by
  intro hsame
  apply huntouched i
  rw [htake, Pc.wonSlot, hsame]

end DequeState

end Steps

/-! ## The invariant of the task deque -/

variable {ι τ : Type}

/-! ## What the thread that changes the tail has claimed -/

/-- The index up to which stealers may win. -/
def Pc.bound (own : Pc τ) (tail : ℕ) : ℕ :=
  match own with
  | .popTake t h => if h < t then t else t + 1
  | .popHead t | .popExchange t _ | .popRestore t _ => t + 1
  | _ => tail

/-- The index up to which slots may be full. -/
def Pc.extent (own : Pc τ) (tail : ℕ) : ℕ :=
  match own with
  | .pushStore _ t | .popHead t | .popTake t _ | .popExchange t _ | .popRestore t _ => t + 1
  | _ => tail

/-- What is in a slot and not accepted yet. -/
def Pc.early : Pc τ → Multiset τ
  | .pushStore task _ => {task}
  | _ => 0

/-- What is out of its slot and not returned yet. -/
def Pc.hand : Pc τ → Multiset τ
  | .popExchange _ task | .popRestore _ task => Slots.ofSlot task
  | _ => 0

/-- What a thread knows of the deque where it stands. -/
def Pc.Knows (pc own : Pc τ) (d : LockFreeTaskDeque τ) : Prop :=
  match pc with
  | .pushWrite _ t h => h ≤ d.head ∧ wrappingSub t h < 4096
  | .pushStore task t =>
    d.tail = t ∧ d.buffer (slot t) = some task ∧ t + 1 < 2 ^ 64 ∧ t + 1 ≤ d.head + 4096
  | .popStore t => t < 2 ^ 64
  | .popHead t => d.tail = t
  | .popTake t h => d.tail = t ∧ h ≤ d.head ∧ h ≤ t
  | .popExchange t task =>
    d.tail = t ∧ t ≤ d.head ∧ (task ≠ none → d.head = t) ∧ d.buffer (slot t) = none
  | .popRestore t _ => d.tail = t ∧ d.head = t + 1
  | .stealTail h => h ≤ d.head
  | .stealExchange h => h ≤ d.head ∧ h + 1 < 2 ^ 64 ∧ (h = d.head → h < own.bound d.tail)
  | .stealTake h found =>
    d.buffer (slot h) = found ∧ (found ≠ none → h < d.head ∧ own.extent d.tail ≤ h + 4096)
  | _ => True

def LockFreeTaskDeque.contents (d : LockFreeTaskDeque τ) : Multiset τ :=
  Slots.contents dequeCapacity d.buffer

/-- The thread that is changing the tail, if there is one, stands there. -/
def Owned (pc : ι → Pc τ) (own : Pc τ) : Prop :=
  (own = .idle ∧ ∀ j, ¬ (pc j).Busy) ∨ ∃ i, pc i = own ∧ own.Busy ∧ ∀ j, (pc j).Busy → j = i

namespace DequeState

/-- The invariant of the deque, with where the thread stands that is changing the tail. -/
structure Inv (s : DequeState ι τ) (own : Pc τ) : Prop where
  head_lt : s.deque.head < 2 ^ 64
  tail_lt : s.deque.tail < 2 ^ 64
  head_le : s.deque.head ≤ own.bound s.deque.tail
  owner : Owned s.pc own
  knows : ∀ i, (s.pc i).Knows own s.deque
  placed : ∀ place task, s.deque.buffer place = some task → place < dequeCapacity ∧
    ((∃ index, s.deque.head ≤ index ∧ index < own.extent s.deque.tail ∧ slot index = place) ∨
      ∃ i h, s.pc i = .stealTake h (some task) ∧ slot h = place)
  fits : ∀ place task, s.deque.buffer place = some task →
    own.extent s.deque.tail ≤ s.deque.head + 4096
  apart : ∀ i j h k task, s.pc i = .stealTake h (some task) → s.pc j = .stealTake k (some task) →
    slot h = slot k → i = j
  balance : s.accepted + own.early = s.returned + s.deque.contents + own.hand

variable {s : DequeState ι τ} {own : Pc τ}

/-! ## Slots -/

theorem slot_lt (index : ℕ) : slot index < dequeCapacity := by
  rw [slot_eq]
  exact Nat.mod_lt _ (by norm_num)

/-- Slots of indices in a window of the ring are different. -/
theorem slot_ne {i j low : ℕ} (hi : low ≤ i) (hj : low ≤ j) (hi' : i < low + 4096)
    (hj' : j < low + 4096) (hne : i ≠ j) : slot i ≠ slot j := by
  rw [slot_eq, slot_eq]
  omega

theorem contents_setSlot (d : LockFreeTaskDeque τ) (index : ℕ) (content : Option τ) :
    (d.setSlot index content).contents + Slots.ofSlot (d.buffer (slot index)) =
      d.contents + Slots.ofSlot content :=
  Slots.contents_update (slot_lt index) d.buffer content

/-! ## What the invariant is enough for -/

theorem inv_new : (new : DequeState ι τ).Inv .idle where
  head_lt := Nat.two_pow_pos 64
  tail_lt := Nat.two_pow_pos 64
  head_le := le_refl 0
  owner := Or.inl ⟨rfl, fun _ ↦ id⟩
  knows := fun _ ↦ trivial
  placed := fun _ _ hfull ↦ nomatch hfull
  fits := fun _ _ hfull ↦ nomatch hfull
  apart := fun _ _ _ _ _ htake ↦ nomatch htake
  balance := by
    rw [LockFreeTaskDeque.contents, new, LockFreeTaskDeque.new, Slots.contents_none]
    rfl

/-- When every full slot belongs to an index between head and tail, these hold everything. -/
theorem held_eq_contents
    (hplaced : ∀ place task, s.deque.buffer place = some task →
      ∃ index, s.deque.head ≤ index ∧ index < s.deque.tail ∧ slot index = place)
    (hfits : ∀ place task, s.deque.buffer place = some task →
      s.deque.tail ≤ s.deque.head + 4096) : s.held = s.deque.contents := by
  rw [held, LockFreeTaskDeque.contents, Slots.contents]
  by_cases hfull : ∃ place task, s.deque.buffer place = some task
  · obtain ⟨place, task, hplace⟩ := hfull
    have hwindow := hfits place task hplace
    refine Finset.sum_of_injOn slot ?_ ?_ ?_ fun _ _ ↦ rfl
    · intro i hi j hj hsame
      rw [Finset.coe_Ico, Set.mem_Ico] at hi hj
      by_contra hne
      exact slot_ne hi.1 hj.1 (by omega) (by omega) hne hsame
    · intro index _
      exact Finset.mem_coe.mpr (Finset.mem_range.mpr (slot_lt index))
    · intro place _ hnot
      cases hcontent : s.deque.buffer place with
      | none => rfl
      | some task =>
        obtain ⟨index, hlow, hhigh, hslot⟩ := hplaced place task hcontent
        exact absurd ⟨index, Finset.mem_coe.mpr (Finset.mem_Ico.mpr ⟨hlow, hhigh⟩), hslot⟩ hnot
  · have hempty : ∀ place, Slots.ofSlot (s.deque.buffer place) = 0 := by
      intro place
      cases hcontent : s.deque.buffer place with
      | none => rfl
      | some task => exact absurd ⟨place, task, hcontent⟩ hfull
    rw [Finset.sum_eq_zero fun _ _ ↦ hempty _, Finset.sum_eq_zero fun _ _ ↦ hempty _]

/-- **The invariant** is enough. -/
theorem Inv.exactlyOnce (hinv : s.Inv own) : s.ExactlyOnce where
  atMostOnce := by
    have hbalance := hinv.balance
    have hearly : own.early ≤ s.deque.contents := by
      rcases hinv.owner with ⟨rfl, -⟩ | ⟨i, hi, -⟩
      · exact Multiset.zero_le _
      · have hknows := hinv.knows i
        rw [hi] at hknows
        cases own with
        | pushStore task t =>
          have hle := Slots.ofSlot_le_contents (slot_lt t) s.deque.buffer
          rwa [hknows.2.1] at hle
        | _ => exact Multiset.zero_le _
    obtain ⟨rest, hrest⟩ := Multiset.le_iff_exists_add.mp hearly
    have hall : s.accepted = s.returned + (rest + own.hand) := by
      apply add_right_cancel (b := own.early)
      rw [hbalance, hrest]
      abel
    rw [hall]
    exact Multiset.le_add_right _ _
  balance := by
    intro hquiet
    have hidle : own = .idle := by
      rcases hinv.owner with ⟨hown, -⟩ | ⟨i, hi, hbusy, -⟩
      · exact hown
      · rw [← hi, hquiet i] at hbusy
        exact absurd hbusy id
    subst hidle
    have hbalance := hinv.balance
    rw [held_eq_contents]
    · simpa [Pc.early, Pc.hand] using hbalance
    · intro place task hfull
      rcases (hinv.placed place task hfull).2 with hindex | ⟨i, h, htake, -⟩
      · exact hindex
      · rw [hquiet i] at htake
        cases htake
    · exact hinv.fits
  won := by
    intro i h found htake
    have hknows := hinv.knows i
    rw [htake] at hknows
    exact hknows.1

end DequeState

end SoulSystem.Scheduler
