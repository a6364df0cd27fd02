import SoulSystem.Library.Machine

/-!
# The task deque of one thread

The deque is a ring of slots between a head and a tail that count on and wrap around at the word
size, where they are compared as they are.  Used by one thread it is a bounded deque exactly as long
as no pop starts from the first index with the deque empty, and head and tail are in order.
-/

namespace SoulSystem.Scheduler

open Library List Function

def dequeCapacity : ℕ := 4096

def dequeMask : ℕ := dequeCapacity - 1

/-! ## Indices -/

def wrappingAdd (a b : ℕ) : ℕ := (a + b) % 2 ^ 64

def wrappingSub (a b : ℕ) : ℕ := (2 ^ 64 - b + a) % 2 ^ 64

/-- The place in the ring of an index. -/
def slot (index : ℕ) : ℕ := index &&& dequeMask

theorem slot_eq (index : ℕ) : slot index = index % 4096 :=
  Nat.and_two_pow_sub_one_eq_mod index 12

/-! ## The deque -/

/-- Head and tail are below the word size, and the slots below the capacity. -/
structure LockFreeTaskDeque (τ : Type) where
  head : ℕ
  tail : ℕ
  buffer : ℕ → Option τ

namespace LockFreeTaskDeque

variable {τ : Type}

def new : LockFreeTaskDeque τ := ⟨0, 0, fun _ ↦ none⟩

def setHead (d : LockFreeTaskDeque τ) (head : ℕ) : LockFreeTaskDeque τ := { d with head := head }

def setTail (d : LockFreeTaskDeque τ) (tail : ℕ) : LockFreeTaskDeque τ := { d with tail := tail }

def setSlot (d : LockFreeTaskDeque τ) (index : ℕ) (content : Option τ) : LockFreeTaskDeque τ :=
  { d with buffer := update d.buffer (slot index) content }

section Setters

variable (d : LockFreeTaskDeque τ) (head tail index : ℕ) (content : Option τ)

@[simp] theorem setHead_head : (d.setHead head).head = head := rfl

@[simp] theorem setHead_tail : (d.setHead head).tail = d.tail := rfl

@[simp] theorem setHead_buffer : (d.setHead head).buffer = d.buffer := rfl

@[simp] theorem setTail_head : (d.setTail tail).head = d.head := rfl

@[simp] theorem setTail_tail : (d.setTail tail).tail = tail := rfl

@[simp] theorem setTail_buffer : (d.setTail tail).buffer = d.buffer := rfl

@[simp] theorem setSlot_head : (d.setSlot index content).head = d.head := rfl

@[simp] theorem setSlot_tail : (d.setSlot index content).tail = d.tail := rfl

@[simp] theorem setSlot_buffer :
    (d.setSlot index content).buffer = update d.buffer (slot index) content := rfl

end Setters

def push (d : LockFreeTaskDeque τ) (task : τ) : LockFreeTaskDeque τ × Bool :=
  let t := d.tail
  let h := d.head
  if wrappingSub t h ≥ dequeCapacity then (d, false)
  else ((d.setSlot t (some task)).setTail (wrappingAdd t 1), true)

def pop (d : LockFreeTaskDeque τ) : LockFreeTaskDeque τ × Option τ :=
  let t := wrappingSub d.tail 1
  let d := d.setTail t
  let h := d.head
  if h ≤ t then
    let task := d.buffer (slot t)
    let d := d.setSlot t none
    if h = t then
      if d.head = h then ((d.setHead (wrappingAdd h 1)).setTail (wrappingAdd t 1), task)
      else (d.setTail (wrappingAdd t 1), none)
    else (d, task)
  else (d.setTail (wrappingAdd t 1), none)

/-- In one thread the exchange finds the head that was read just before, so the loop ends in its
first turn. -/
def steal (d : LockFreeTaskDeque τ) : LockFreeTaskDeque τ × Option τ :=
  let h := d.head
  let t := d.tail
  if h ≥ t then (d, none)
  else ((d.setHead (wrappingAdd h 1)).setSlot h none, d.buffer (slot h))

def len (d : LockFreeTaskDeque τ) : ℕ := wrappingSub d.tail d.head

end LockFreeTaskDeque

inductive Call (τ : Type) where
  | push (task : τ)
  | pop
  | steal

inductive Reply (τ : Type) where
  | pushed (accepted : Bool)
  | taken (task : Option τ)
  deriving DecidableEq

namespace LockFreeTaskDeque

variable {τ : Type}

def call (d : LockFreeTaskDeque τ) : Call τ → LockFreeTaskDeque τ × Reply τ
  | .push task => ((d.push task).1, .pushed (d.push task).2)
  | .pop => (d.pop.1, .taken d.pop.2)
  | .steal => (d.steal.1, .taken d.steal.2)

theorem call_push (d : LockFreeTaskDeque τ) (task : τ) :
    d.call (.push task) = ((d.push task).1, .pushed (d.push task).2) :=
  rfl

theorem call_pop (d : LockFreeTaskDeque τ) : d.call .pop = (d.pop.1, .taken d.pop.2) :=
  rfl

theorem call_steal (d : LockFreeTaskDeque τ) : d.call .steal = (d.steal.1, .taken d.steal.2) :=
  rfl

/-- What each call of a sequence returns, with the length that is reported after it. -/
def replies (d : LockFreeTaskDeque τ) : List (Call τ) → List (Reply τ × ℕ)
  | [] => []
  | c :: calls => ((d.call c).2, (d.call c).1.len) :: (d.call c).1.replies calls

/-- The deque of one thread, call by call. -/
def machine (τ : Type) : Machine (LockFreeTaskDeque τ) (Call τ) where
  step := fun d c ↦ some (d.call c).1

end LockFreeTaskDeque

/-! ## What it is for -/

/-- A bounded double-ended queue, the oldest task first. -/
abbrev BoundedDeque (τ : Type) := List τ

namespace BoundedDeque

variable {τ : Type}

def call (tasks : BoundedDeque τ) : Call τ → BoundedDeque τ × Reply τ
  | .push task =>
    if tasks.length < dequeCapacity then (tasks ++ [task], .pushed true) else (tasks, .pushed false)
  | .pop => (tasks.dropLast, .taken tasks.getLast?)
  | .steal => (tasks.tail, .taken tasks.head?)

def replies (tasks : BoundedDeque τ) : List (Call τ) → List (Reply τ × ℕ)
  | [] => []
  | c :: calls => ((tasks.call c).2, (tasks.call c).1.length) :: replies (tasks.call c).1 calls

end BoundedDeque

/-! ## The refinement -/

namespace LockFreeTaskDeque

variable {τ : Type}

/-- The tasks between head and tail, the oldest at the head. -/
structure Represents (d : LockFreeTaskDeque τ) (tasks : BoundedDeque τ) : Prop where
  head_lt : d.head < 2 ^ 64
  length_le : tasks.length ≤ 4096
  tail_eq : d.tail = (d.head + tasks.length) % 2 ^ 64
  buffer_eq : ∀ index < tasks.length, d.buffer ((d.head + index) % 4096) = tasks[index]?

/-- When a call may be made: no pop starts from the first index with nothing held, and head and tail
are in order where they are compared. -/
def InOrder (d : LockFreeTaskDeque τ) : Call τ → Prop
  | .push _ => True
  | .pop => (d.tail = 0 → d.head ≠ 0) ∧ (d.tail ≠ 0 → d.head ≤ d.tail)
  | .steal => d.head ≤ d.tail

variable {d : LockFreeTaskDeque τ} {tasks : BoundedDeque τ}

theorem represents_new : (new : LockFreeTaskDeque τ).Represents [] where
  head_lt := Nat.two_pow_pos 64
  length_le := Nat.zero_le 4096
  tail_eq := rfl
  buffer_eq := by simp

theorem Represents.len_eq (hd : d.Represents tasks) : d.len = tasks.length := by
  have hhead := hd.head_lt
  have hlength := hd.length_le
  rw [len, hd.tail_eq, wrappingSub]
  omega

theorem Represents.push (hd : d.Represents tasks) (task : τ) :
    (d.push task).2 = decide (tasks.length < 4096) ∧ (d.push task).1.Represents
      (if tasks.length < 4096 then tasks ++ [task] else tasks) := by
  have hlen : wrappingSub d.tail d.head = tasks.length := hd.len_eq
  have hhead := hd.head_lt
  by_cases hroom : tasks.length < 4096
  · have hfits : ¬ wrappingSub d.tail d.head ≥ dequeCapacity := by
      rw [hlen]
      exact not_le.mpr hroom
    rw [LockFreeTaskDeque.push, if_neg hfits, if_pos hroom]
    refine ⟨(decide_eq_true hroom).symm, ⟨hhead, ?_, ?_, ?_⟩⟩
    · rw [length_append, length_singleton]
      omega
    · simp only [setTail, setSlot, wrappingAdd, hd.tail_eq, length_append,
        length_singleton]
      omega
    · intro index hindex
      rw [length_append, length_singleton] at hindex
      simp only [setTail, setSlot, slot_eq, hd.tail_eq]
      by_cases hlast : index = tasks.length
      · rw [hlast, getElem?_concat_length, ← Nat.mod_mod_of_dvd (d.head + tasks.length)
          (show 4096 ∣ 2 ^ 64 by norm_num), update_self]
      · have hother : (d.head + index) % 4096 ≠ (d.head + tasks.length) % 2 ^ 64 % 4096 := by omega
        rw [update_of_ne hother, hd.buffer_eq index (by omega),
          getElem?_append_left (by omega)]
  · have hfull : wrappingSub d.tail d.head ≥ dequeCapacity := by
      rw [hlen]
      exact not_lt.mp hroom
    rw [LockFreeTaskDeque.push, if_pos hfull, if_neg hroom]
    exact ⟨(decide_eq_false hroom).symm, hd⟩

section Pop

variable {t : ℕ} (ht : wrappingSub d.tail 1 = t)

include ht

theorem pop_above (habove : ¬ d.head ≤ t) :
    d.pop = ((d.setTail t).setTail (wrappingAdd t 1), none) := by
  rw [LockFreeTaskDeque.pop]
  simp only [ht, setTail_head, if_neg habove]

theorem pop_below (hbelow : d.head ≤ t) (hmore : d.head ≠ t) :
    d.pop = ((d.setTail t).setSlot t none, d.buffer (slot t)) := by
  rw [LockFreeTaskDeque.pop]
  simp only [ht, setTail_head, setTail_buffer, if_pos hbelow, if_neg hmore]

theorem pop_last (hlast : d.head = t) : d.pop =
    ((((d.setTail t).setSlot t none).setHead (wrappingAdd t 1)).setTail (wrappingAdd t 1),
      d.buffer (slot t)) := by
  rw [LockFreeTaskDeque.pop]
  simp only [ht, setTail_head, setTail_buffer, setSlot_head, hlast, if_true, le_refl]

end Pop

/-- A pop of a deque with something in it, in order. -/
theorem Represents.pop_concat {last : τ} (hd : d.Represents (tasks ++ [last]))
    (horder : d.InOrder .pop) : d.pop.2 = some last ∧ d.pop.1.Represents tasks := by
  obtain ⟨hhead, hlength, htail, hbuffer⟩ := hd
  rw [length_append, length_singleton] at hlength htail
  have hlast : d.buffer ((d.head + tasks.length) % 4096) = some last := by
    rw [hbuffer tasks.length (by simp), getElem?_concat_length]
  obtain ⟨t, ht⟩ : ∃ t, wrappingSub d.tail 1 = t := ⟨_, rfl⟩
  have hindex : t = (d.head + tasks.length) % 2 ^ 64 := by
    rw [← ht, wrappingSub, htail]
    omega
  have hplace : slot t = (d.head + tasks.length) % 4096 := by
    rw [slot_eq, hindex]
    omega
  have hbelow : d.head ≤ t := by
    obtain ⟨-, hordered⟩ := horder
    rw [← ht, wrappingSub]
    omega
  by_cases hsingle : d.head = t
  · have hempty : tasks.length = 0 := by omega
    rw [pop_last ht hsingle, hplace]
    refine ⟨hlast, ⟨?_, by omega, ?_, fun index hless ↦ by omega⟩⟩
    · rw [setTail_head, setHead_head, wrappingAdd]
      omega
    · rw [setTail_tail, setTail_head, setHead_head, wrappingAdd]
      omega
  · rw [pop_below ht hbelow hsingle, hplace]
    refine ⟨hlast, ⟨hhead, by omega, hindex, fun index hless ↦ ?_⟩⟩
    have hother : (d.head + index) % 4096 ≠ slot t := by
      rw [hplace]
      omega
    rw [setSlot_head, setTail_head, setSlot_buffer, setTail_buffer, update_of_ne hother,
      hbuffer index (by simp; omega), getElem?_append_left hless]

/-- A pop of an empty deque, in order. -/
theorem Represents.pop_nil (hd : d.Represents []) (horder : d.InOrder .pop) :
    d.pop.2 = none ∧ d.pop.1.Represents [] := by
  obtain ⟨hhead, -, htail, -⟩ := hd
  rw [length_nil, Nat.add_zero, Nat.mod_eq_of_lt hhead] at htail
  obtain ⟨t, ht⟩ : ∃ t, wrappingSub d.tail 1 = t := ⟨_, rfl⟩
  have hback : wrappingAdd t 1 = d.tail := by
    rw [wrappingAdd, ← ht, wrappingSub]
    omega
  have habove : ¬ d.head ≤ t := by
    obtain ⟨hfirst, -⟩ := horder
    rw [← ht, wrappingSub]
    omega
  rw [pop_above ht habove, hback]
  refine ⟨rfl, ⟨hhead, Nat.zero_le 4096, ?_, by simp⟩⟩
  rw [setTail_tail, setTail_head, setTail_head, length_nil, Nat.add_zero,
    Nat.mod_eq_of_lt hhead, htail]

/-- A pop out of order. -/
theorem Represents.pop_of_not_inOrder (hd : d.Represents tasks) (horder : ¬ d.InOrder .pop) :
    d.pop.2 ≠ tasks.getLast? ∨ d.pop.1.len ≠ tasks.dropLast.length := by
  obtain ⟨hhead, hlength, htail, -⟩ := hd
  obtain ⟨t, ht⟩ : ∃ t, wrappingSub d.tail 1 = t := ⟨_, rfl⟩
  by_cases hfirst : d.tail = 0 ∧ d.head = 0
  · right
    have hempty : tasks.dropLast.length = 0 := by
      rw [length_dropLast]
      omega
    have hwrapped : t = 2 ^ 64 - 1 := by
      rw [← ht, wrappingSub, hfirst.1]
      norm_num
    rw [hempty, pop_below ht (by omega) (by omega), len, setSlot_tail, setTail_tail, setSlot_head,
      setTail_head, wrappingSub, hfirst.2, hwrapped]
    norm_num
  · left
    have hcrossed : d.tail ≠ 0 ∧ ¬ d.head ≤ d.tail := by
      simp only [InOrder, not_and_or, Classical.not_imp, not_not] at horder
      omega
    have habove : ¬ d.head ≤ t := by
      rw [← ht, wrappingSub]
      omega
    have hsome : tasks ≠ [] := by
      rintro rfl
      simp only [length_nil] at htail
      omega
    rw [pop_above ht habove]
    exact fun heq ↦ hsome (List.getLast?_eq_none_iff.mp heq.symm)

theorem steal_below (hless : ¬ d.head ≥ d.tail) : d.steal =
    ((d.setHead (wrappingAdd d.head 1)).setSlot d.head none, d.buffer (slot d.head)) := by
  rw [LockFreeTaskDeque.steal]
  simp only [if_neg hless]

/-- A steal from a deque with something in it, in order. -/
theorem Represents.steal_cons {first : τ} (hd : d.Represents (first :: tasks))
    (horder : d.InOrder .steal) : d.steal.2 = some first ∧ d.steal.1.Represents tasks := by
  obtain ⟨hhead, hlength, htail, hbuffer⟩ := hd
  rw [length_cons] at hlength htail
  have hfirst : d.buffer (d.head % 4096) = some first := hbuffer 0 (by simp)
  have hless : ¬ d.head ≥ d.tail := by
    have hordered : d.head ≤ d.tail := horder
    omega
  rw [steal_below hless]
  refine ⟨by rw [slot_eq, hfirst], ⟨?_, by omega, ?_, ?_⟩⟩
  · rw [setSlot_head, setHead_head, wrappingAdd]
    omega
  · rw [setSlot_tail, setHead_tail, setSlot_head, setHead_head, wrappingAdd]
    omega
  · intro index hindex
    have hplace : (wrappingAdd d.head 1 + index) % 4096 = (d.head + (index + 1)) % 4096 := by
      rw [wrappingAdd]
      omega
    have hother : (d.head + (index + 1)) % 4096 ≠ slot d.head := by
      rw [slot_eq]
      omega
    rw [setSlot_head, setHead_head, setSlot_buffer, setHead_buffer, hplace,
      update_of_ne hother, hbuffer (index + 1) (by simpa using hindex),
      getElem?_cons_succ]

theorem Represents.steal_nil (hd : d.Represents []) : d.steal = (d, none) := by
  have hhead := hd.head_lt
  have hsame : d.head ≥ d.tail := by
    rw [hd.tail_eq, length_nil]
    omega
  simp only [LockFreeTaskDeque.steal, hsame, if_true]

/-- A steal out of order. -/
theorem Represents.steal_of_not_inOrder (hd : d.Represents tasks) (horder : ¬ d.InOrder .steal) :
    d.steal.2 ≠ tasks.head? := by
  obtain ⟨hhead, hlength, htail, -⟩ := hd
  have hcrossed : ¬ d.head ≤ d.tail := horder
  have hsome : tasks ≠ [] := by
    rintro rfl
    simp only [length_nil] at htail
    omega
  simp only [LockFreeTaskDeque.steal, (not_le.mp hcrossed).le, if_true]
  exact fun heq ↦ hsome (List.head?_eq_none_iff.mp heq.symm)

/-- **One call** in order does what the bounded deque does. -/
theorem Represents.call (hd : d.Represents tasks) {c : Call τ} (horder : d.InOrder c) :
    (d.call c).2 = (tasks.call c).2 ∧ (d.call c).1.Represents (tasks.call c).1 := by
  cases c with
  | push task =>
    obtain ⟨hreply, hnext⟩ := hd.push task
    by_cases hroom : tasks.length < 4096
    · rw [if_pos hroom] at hnext
      have hcall : tasks.call (.push task) = (tasks ++ [task], .pushed true) := if_pos hroom
      rw [hcall, call_push, hreply, decide_eq_true hroom]
      dsimp only
      exact ⟨rfl, hnext⟩
    · rw [if_neg hroom] at hnext
      have hcall : tasks.call (.push task) = (tasks, .pushed false) := if_neg hroom
      rw [hcall, call_push, hreply, decide_eq_false hroom]
      dsimp only
      exact ⟨rfl, hnext⟩
  | pop =>
    rcases eq_nil_or_concat' tasks with rfl | ⟨rest, last, rfl⟩
    · obtain ⟨hreply, hnext⟩ := hd.pop_nil horder
      rw [call_pop, hreply]
      dsimp only
      exact ⟨rfl, hnext⟩
    · obtain ⟨hreply, hnext⟩ := hd.pop_concat horder
      rw [call_pop, BoundedDeque.call, hreply, getLast?_concat, dropLast_concat]
      dsimp only
      exact ⟨rfl, hnext⟩
  | steal =>
    cases tasks with
    | nil =>
      rw [call_steal, hd.steal_nil]
      exact ⟨rfl, hd⟩
    | cons first rest =>
      obtain ⟨hreply, hnext⟩ := hd.steal_cons horder
      rw [call_steal, hreply]
      dsimp only
      exact ⟨rfl, hnext⟩

/-- One call out of order does not. -/
theorem Represents.call_of_not_inOrder (hd : d.Represents tasks) {c : Call τ}
    (horder : ¬ d.InOrder c) :
    ((d.call c).2, (d.call c).1.len) ≠ ((tasks.call c).2, (tasks.call c).1.length) := by
  intro heq
  obtain ⟨hreply, hlen⟩ := Prod.mk.inj heq
  cases c with
  | push task => exact horder trivial
  | pop =>
    rw [call_pop] at hreply hlen
    rcases hd.pop_of_not_inOrder horder with hother | hother
    · exact hother (Reply.taken.inj hreply)
    · exact hother hlen
  | steal =>
    rw [call_steal] at hreply
    exact hd.steal_of_not_inOrder horder (Reply.taken.inj hreply)

theorem Represents.replies_eq_iff (hd : d.Represents tasks) (calls : List (Call τ)) :
    d.replies calls = tasks.replies calls ↔ (machine τ).Meets InOrder d calls := by
  induction calls generalizing d tasks with
  | nil => exact ⟨fun _ ↦ trivial, fun _ ↦ rfl⟩
  | cons c calls ih =>
    by_cases horder : d.InOrder c
    · obtain ⟨hreply, hnext⟩ := hd.call horder
      have hmeets : (machine τ).Meets InOrder d (c :: calls) ↔
          (machine τ).Meets InOrder (d.call c).1 calls :=
        ⟨fun h ↦ h.2 _ rfl, fun h ↦ ⟨horder, fun next hnext ↦ Option.some.inj hnext ▸ h⟩⟩
      rw [hmeets, ← ih hnext, replies, BoundedDeque.replies, hreply, hnext.len_eq]
      exact ⟨fun h ↦ (List.cons.inj h).2, fun h ↦ congrArg _ h⟩
    · constructor
      · intro heq
        exact absurd (List.cons.inj heq).1 (hd.call_of_not_inOrder horder)
      · intro hmeets
        exact absurd hmeets.1 horder

/-- **The deque of one thread** refines a bounded deque in exactly the runs whose calls are all made
in order. -/
theorem replies_eq_iff_inOrder (calls : List (Call τ)) :
    (new : LockFreeTaskDeque τ).replies calls = BoundedDeque.replies [] calls ↔
      (machine τ).Meets InOrder new calls :=
  represents_new.replies_eq_iff calls

/-- A pop before the first push leaves a tail from which nothing can be pushed. -/
theorem not_refines_pop_push :
    ¬ ∀ calls : List (Call ℕ), new.replies calls = BoundedDeque.replies [] calls := by
  intro hrefines
  have hreplies : (new : LockFreeTaskDeque ℕ).replies [.pop, .push 7] =
      [(.taken none, 2 ^ 64 - 1), (.pushed false, 2 ^ 64 - 1)] := by decide +kernel
  have habsurd := hrefines [.pop, .push 7]
  rw [hreplies] at habsurd
  exact absurd habsurd (by decide +kernel)

end LockFreeTaskDeque

end SoulSystem.Scheduler
