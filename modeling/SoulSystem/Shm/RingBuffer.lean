import SoulSystem.Library.ByteMemory
import SoulSystem.Library.Machine

/-!
# The ring buffer in shared memory

A message is stored after its length, four bytes and the payload, and both may straddle the end of
the data area.  The ring refines a queue of byte strings bounded by what they take with their
lengths, as long as no payload straddles the end after a length that does not.

Pushes and pops of one ring, with the messages that were accepted and those that were returned.  A
run in which every push is straight is one of the bounded queue.
-/

namespace SoulSystem.Shm

open Library CircularBytes List SoulSystem.Library.ByteCursor

section Ring

/-! ## A bounded queue -/

/-- A queue of messages, each of which takes four bytes more than its length. -/
structure ByteFifo where
  capacity : ℕ
  messages : List Bytes

namespace ByteFifo

def messageSize (message : Bytes) : ℕ := 4 + message.length

def used (messages : List Bytes) : ℕ := (messages.map messageSize).sum

def push (q : ByteFifo) (data : Bytes) : ByteFifo × Bool :=
  if messageSize data ≤ q.capacity - used q.messages then
    ({ q with messages := q.messages ++ [data] }, true)
  else (q, false)

def pop (q : ByteFifo) : ByteFifo × Option Bytes :=
  ({ q with messages := q.messages.tail }, q.messages.head?)

theorem used_append (messages messages' : List Bytes) :
    used (messages ++ messages') = used messages + used messages' := by
  rw [used, map_append, sum_append, used, used]

theorem used_cons (message : Bytes) (messages : List Bytes) :
    used (message :: messages) = messageSize message + used messages := by
  rw [used, map_cons, sum_cons, used]

end ByteFifo

/-! ## The ring -/

inductive RingError
  | messageTooLarge
  | corrupted
  deriving DecidableEq

/-- The header of the ring and its data area. -/
structure ShmRingBuffer where
  head : ℕ
  tail : ℕ
  capacity : ℕ
  data : ByteMemory

def wrappingSub (a b : ℕ) : ℕ := (a + 2 ^ 64 - b) % 2 ^ 64

def wrappingAdd (a b : ℕ) : ℕ := (a + b) % 2 ^ 64

namespace ShmRingBuffer

def create (dataSize : ℕ) (mem : ByteMemory) : ShmRingBuffer := ⟨0, 0, dataSize, mem⟩

def free (r : ShmRingBuffer) : ℕ := wrappingSub r.capacity (wrappingSub r.head r.tail)

/-- What a push writes, with the address of each byte in the data area. -/
def stores (r : ShmRingBuffer) (data : Bytes) : List (ℕ × UInt8) :=
  let dataOffset := r.head % r.capacity
  let lenBytes := ByteCursor.leBytes 4 data.length
  if dataOffset + 4 ≤ r.capacity then
    placed (fun i ↦ dataOffset + i) lenBytes ++ placed (fun i ↦ dataOffset + 4 + i) data
  else
    placed (fun i ↦ (dataOffset + i) % r.capacity) lenBytes ++
      placed (fun i ↦ (dataOffset + 4 + i) % r.capacity) data

def push (r : ShmRingBuffer) (data : Bytes) : ShmRingBuffer × Except RingError Bool :=
  let total := 4 + data.length
  if total > r.free then (r, .ok false)
  else if total > r.capacity then (r, .error .messageTooLarge)
  else
    ({ r with data := storeAll r.data (r.stores data), head := wrappingAdd r.head total }, .ok true)

/-- The addresses that a push writes. -/
def written (r : ShmRingBuffer) (data : Bytes) : List ℕ :=
  if 4 + data.length > r.free ∨ 4 + data.length > r.capacity then []
  else (r.stores data).map Prod.fst

/-- The addresses of the length that a pop reads. -/
def lengthLoads (r : ShmRingBuffer) : List ℕ :=
  let dataOffset := r.tail % r.capacity
  if dataOffset + 4 ≤ r.capacity then (List.range 4).map fun i ↦ dataOffset + i
  else (List.range 4).map fun i ↦ (dataOffset + i) % r.capacity

def messageLength (r : ShmRingBuffer) : ℕ := ByteCursor.fromLeBytes (r.lengthLoads.map r.data)

/-- The addresses of the message that a pop reads. -/
def messageLoads (r : ShmRingBuffer) : List ℕ :=
  let msgStart := (r.tail % r.capacity + 4) % r.capacity
  if msgStart + r.messageLength ≤ r.capacity then
    (List.range r.messageLength).map fun i ↦ msgStart + i
  else (List.range r.messageLength).map fun i ↦ (msgStart + i) % r.capacity

def pop (r : ShmRingBuffer) : ShmRingBuffer × Except RingError (Option Bytes) :=
  if r.head = r.tail then (r, .ok none)
  else if r.messageLength + 4 > r.capacity then (r, .error .corrupted)
  else
    ({ r with tail := wrappingAdd r.tail (4 + r.messageLength) },
      .ok (some (r.messageLoads.map r.data)))

/-- The addresses that a pop reads. -/
def loaded (r : ShmRingBuffer) : List ℕ :=
  if r.head = r.tail then []
  else if r.messageLength + 4 > r.capacity then r.lengthLoads
  else r.lengthLoads ++ r.messageLoads

end ShmRingBuffer

/-! ## What a ring holds -/

/-- A message as it is stored. -/
def encodeMessage (message : Bytes) : Bytes := ByteCursor.leBytes 4 message.length ++ message

def encode (messages : List Bytes) : Bytes := messages.flatMap encodeMessage

theorem length_encodeMessage (message : Bytes) :
    (encodeMessage message).length = ByteFifo.messageSize message := by
  rw [encodeMessage, length_append, length_leBytes, ByteFifo.messageSize]

namespace ShmRingBuffer

/-- The ring stores the messages from its tail on.  The counters have not wrapped, unless a turn of
the counters is a number of turns of the data area. -/
structure Holds (r : ShmRingBuffer) (messages : List Bytes) : Prop where
  positive : 0 < r.capacity
  small : r.capacity < 2 ^ 32
  tail_lt : r.tail < 2 ^ 64
  head : r.head = wrappingAdd r.tail (ByteFifo.used messages)
  fits : ByteFifo.used messages ≤ r.capacity
  turns : r.capacity ∣ 2 ^ 64 ∨ r.tail + ByteFifo.used messages < 2 ^ 64
  bytes : readAt r.data r.capacity r.tail (ByteFifo.used messages) = encode messages

/-- A push that is accepted neither splits a payload after a length that it does not split nor wraps
a counter whose turn is no number of turns of the data area. -/
def Straight (r : ShmRingBuffer) (data : Bytes) : Prop :=
  4 + data.length ≤ r.free →
    (r.head % r.capacity + 4 ≤ r.capacity → r.head % r.capacity + 4 + data.length ≤ r.capacity) ∧
    (r.capacity ∣ 2 ^ 64 ∨ r.head + (4 + data.length) < 2 ^ 64)

instance (r : ShmRingBuffer) (data : Bytes) : Decidable (r.Straight data) :=
  inferInstanceAs (Decidable (_ → _ ∧ _))

variable {r : ShmRingBuffer} {messages : List Bytes} {message data : Bytes}

theorem holds_create {dataSize : ℕ} (hpositive : 0 < dataSize) (hsmall : dataSize < 2 ^ 32)
    (mem : ByteMemory) : (create dataSize mem).Holds [] where
  positive := hpositive
  small := hsmall
  tail_lt := Nat.two_pow_pos 64
  head := rfl
  fits := Nat.zero_le _
  turns := Or.inr (Nat.two_pow_pos 64)
  bytes := rfl

/-! ### Where the bytes are -/

theorem Holds.free_eq (hr : r.Holds messages) : r.free = r.capacity - ByteFifo.used messages := by
  have htail := hr.tail_lt
  have hfits := hr.fits
  have hsmall := hr.small
  have hused : wrappingSub r.head r.tail = ByteFifo.used messages := by
    rw [hr.head, wrappingSub, wrappingAdd]
    omega
  rw [free, hused, wrappingSub]
  omega

theorem mod_wrappingAdd {cap tail n : ℕ} (hturns : cap ∣ 2 ^ 64 ∨ tail + n < 2 ^ 64) :
    wrappingAdd tail n % cap = (tail + n) % cap := by
  rw [wrappingAdd]
  cases hturns with
  | inl hdvd => exact Nat.mod_mod_of_dvd _ hdvd
  | inr hlt => rw [Nat.mod_eq_of_lt hlt]

theorem wrappingAdd_wrappingAdd (tail n m : ℕ) :
    wrappingAdd (wrappingAdd tail n) m = wrappingAdd tail (n + m) := by
  rw [wrappingAdd, wrappingAdd, wrappingAdd, Nat.mod_add_mod, Nat.add_assoc]

/-- Addresses that stay inside the area need no modulo. -/
theorem mod_add_eq {cap pos i : ℕ} (hinside : pos % cap + i < cap) : (pos + i) % cap = pos % cap + i := by
  rw [← Nat.mod_add_mod, Nat.mod_eq_of_lt hinside]

theorem stores_eq (hinside : r.head % r.capacity + 4 ≤ r.capacity →
    r.head % r.capacity + 4 + data.length ≤ r.capacity) :
    r.stores data = storesAt r.capacity r.head (encodeMessage data) := by
  rw [stores, encodeMessage, storesAt, placed_append, length_leBytes]
  split
  case isTrue hlength =>
    have hpayload := hinside hlength
    congr 1
    · refine placed_congr fun i hi ↦ ?_
      rw [length_leBytes] at hi
      exact (mod_add_eq (by omega)).symm
    · refine placed_congr fun i hi ↦ ?_
      rw [← Nat.add_assoc, Nat.add_assoc r.head, mod_add_eq (by omega), Nat.add_assoc]
  case isFalse hlength =>
    congr 1
    · exact placed_congr fun i hi ↦ Nat.mod_add_mod ..
    · refine placed_congr fun i hi ↦ ?_
      rw [Nat.add_assoc, Nat.mod_add_mod]

theorem lengthLoads_eq : r.lengthLoads = addresses r.capacity r.tail 4 := by
  rw [lengthLoads]
  split
  case isTrue hlength =>
    refine map_congr_left fun i hi ↦ (mod_add_eq ?_).symm
    have hlt := List.mem_range.mp hi
    omega
  case isFalse hlength => exact map_congr_left fun i hi ↦ Nat.mod_add_mod ..

theorem messageLoads_eq : r.messageLoads = addresses r.capacity (r.tail + 4) r.messageLength := by
  rw [messageLoads, Nat.mod_add_mod]
  split
  case isTrue hlength =>
    refine map_congr_left fun i hi ↦ (mod_add_eq ?_).symm
    have hlt := List.mem_range.mp hi
    omega
  case isFalse hlength => exact map_congr_left fun i hi ↦ Nat.mod_add_mod ..

theorem Holds.written_lt (hr : r.Holds messages) (hstraight : r.Straight data) :
    ∀ a ∈ r.written data, a < r.capacity := by
  rw [written]
  split
  · exact fun a hmem ↦ absurd hmem not_mem_nil
  case isFalse haccepted =>
    rw [stores_eq (hstraight (by omega)).1, map_fst_storesAt]
    exact fun a ↦ lt_of_mem_addresses hr.positive

theorem Holds.loaded_lt (hr : r.Holds messages) : ∀ a ∈ r.loaded, a < r.capacity := by
  rw [loaded, lengthLoads_eq, messageLoads_eq]
  split
  · exact fun a hmem ↦ absurd hmem not_mem_nil
  · split
    · exact fun a ↦ lt_of_mem_addresses hr.positive
    · intro a hmem
      cases List.mem_append.mp hmem with
      | inl hmem => exact lt_of_mem_addresses hr.positive hmem
      | inr hmem => exact lt_of_mem_addresses hr.positive hmem

/-! ### A push -/

theorem push_of_not_le (hnot : ¬ 4 + data.length ≤ r.free) : r.push data = (r, .ok false) :=
  if_pos (not_le.mp hnot)

theorem Holds.push_of_le (hr : r.Holds messages) (hle : 4 + data.length ≤ r.free)
    (hstraight : r.Straight data) : r.push data =
      ({ r with
        data := storeAll r.data (storesAt r.capacity r.head (encodeMessage data))
        head := wrappingAdd r.head (4 + data.length) }, .ok true) := by
  have hcapacity : ¬ 4 + data.length > r.capacity := by
    rw [hr.free_eq] at hle
    omega
  rw [push]
  rw [if_neg (not_lt.mpr hle), if_neg hcapacity, stores_eq (hstraight hle).1]

/-- **An accepted push stores one message more.** -/
theorem Holds.pushed (hr : r.Holds messages) (hle : 4 + data.length ≤ r.free)
    (hstraight : r.Straight data) : (r.push data).1.Holds (messages ++ [data]) := by
  have hsize : ByteFifo.used (messages ++ [data]) =
      ByteFifo.used messages + (4 + data.length) := by
    rw [ByteFifo.used_append, ByteFifo.used_cons]
    rfl
  have hlength : (encodeMessage data).length = 4 + data.length := length_encodeMessage data
  have hfits := hr.fits
  have hfree := hr.free_eq
  have hhead : r.head % r.capacity = (r.tail + ByteFifo.used messages) % r.capacity := by
    rw [hr.head, mod_wrappingAdd hr.turns]
  rw [hr.push_of_le hle hstraight]
  exact {
    positive := hr.positive
    small := hr.small
    tail_lt := hr.tail_lt
    head := by
      dsimp only
      rw [hr.head, wrappingAdd_wrappingAdd, hsize]
    fits := by
      dsimp only
      omega
    turns := by
      dsimp only
      rw [hsize]
      cases (hstraight hle).2 with
      | inl hdvd => exact Or.inl hdvd
      | inr hlt =>
        cases hr.turns with
        | inl hdvd => exact Or.inl hdvd
        | inr htail =>
          have hsame : r.head = r.tail + ByteFifo.used messages := by
            rw [hr.head, wrappingAdd, Nat.mod_eq_of_lt htail]
          exact Or.inr (by omega)
    bytes := by
      dsimp only
      rw [storesAt_congr_pos hhead, hsize, readAt_add,
        readAt_storesAt_before le_rfl (by omega), hr.bytes, ← hlength,
        readAt_storesAt_self (by omega), encode, encode, flatMap_append,
        flatMap_singleton] }

/-! ### A pop -/

theorem Holds.head_eq_tail_iff (hr : r.Holds messages) : r.head = r.tail ↔ messages = [] := by
  have htail := hr.tail_lt
  have hfits := hr.fits
  have hsmall := hr.small
  have hhead := hr.head
  rw [wrappingAdd] at hhead
  cases messages with
  | nil =>
    have hempty : ByteFifo.used [] = 0 := rfl
    exact iff_of_true (by omega) rfl
  | cons message messages =>
    rw [ByteFifo.used_cons, ByteFifo.messageSize] at hhead hfits
    exact iff_of_false (by omega) (cons_ne_nil _ _)

/-- The length, the message and the rest are read one after the other. -/
theorem Holds.reads (hr : r.Holds (message :: messages)) :
    r.messageLength = message.length ∧ r.messageLoads.map r.data = message ∧
      readAt r.data r.capacity (r.tail + (4 + message.length)) (ByteFifo.used messages) =
        encode messages := by
  have hbytes := hr.bytes
  have hfits := hr.fits
  have hsmall := hr.small
  rw [ByteFifo.used_cons, ByteFifo.messageSize] at hbytes hfits
  rw [readAt_add, readAt_add, encode, flatMap_cons, encodeMessage] at hbytes
  obtain ⟨hmessage, hrest⟩ := append_inj hbytes (by
    rw [length_append, length_append, length_readAt, length_readAt,
      length_leBytes])
  obtain ⟨hlength, hpayload⟩ := append_inj hmessage (by
    rw [length_readAt, length_leBytes])
  have hmessageLength : r.messageLength = message.length := by
    rw [messageLength, lengthLoads_eq]
    refine (congrArg ByteCursor.fromLeBytes hlength).trans ?_
    rw [fromLeBytes_leBytes]
    exact Nat.mod_eq_of_lt (by omega)
  refine ⟨hmessageLength, ?_, hrest⟩
  rw [messageLoads_eq, hmessageLength]
  exact hpayload

theorem Holds.pop_nil (hr : r.Holds []) : r.pop = (r, .ok none) :=
  if_pos (hr.head_eq_tail_iff.mpr rfl)

theorem Holds.pop_cons (hr : r.Holds (message :: messages)) :
    r.pop = ({ r with tail := wrappingAdd r.tail (4 + message.length) }, .ok (some message)) := by
  obtain ⟨hlength, hmessage, -⟩ := hr.reads
  have hfits := hr.fits
  rw [ByteFifo.used_cons, ByteFifo.messageSize] at hfits
  have hsome : r.head ≠ r.tail := hr.head_eq_tail_iff.not.mpr (cons_ne_nil _ _)
  rw [pop, if_neg hsome, hlength, if_neg (by omega), hmessage]

/-- **A pop leaves the messages after the first.** -/
theorem Holds.popped (hr : r.Holds (message :: messages)) : r.pop.1.Holds messages := by
  obtain ⟨-, -, hrest⟩ := hr.reads
  have hfits := hr.fits
  have hturns := hr.turns
  have hhead := hr.head
  rw [ByteFifo.used_cons, ByteFifo.messageSize] at hfits hturns hhead
  have hstart : r.capacity ∣ 2 ^ 64 ∨ r.tail + (4 + message.length) < 2 ^ 64 :=
    hturns.imp_right fun hlt ↦ by omega
  rw [hr.pop_cons]
  exact {
    positive := hr.positive
    small := hr.small
    tail_lt := Nat.mod_lt _ (Nat.two_pow_pos 64)
    head := by
      dsimp only
      rw [hhead, wrappingAdd_wrappingAdd]
    fits := by
      dsimp only
      omega
    turns := by
      dsimp only
      cases hturns with
      | inl hdvd => exact Or.inl hdvd
      | inr hlt =>
        rw [wrappingAdd, Nat.mod_eq_of_lt (by omega)]
        exact Or.inr (by omega)
    bytes := by
      dsimp only
      rw [readAt_congr_pos (mod_wrappingAdd hstart)]
      exact hrest }

end ShmRingBuffer

end Ring

/-! ## Runs of the ring buffer -/

inductive RingCall
  | push (data : Bytes)
  | pop

/-- The ring, the messages that pushes have stored and those that pops have returned. -/
structure RingRun where
  ring : ShmRingBuffer
  accepted : List Bytes
  returned : List Bytes

namespace RingRun

def new (dataSize : ℕ) (mem : ByteMemory) : RingRun := ⟨.create dataSize mem, [], []⟩

/-- What a push has stored. -/
def stored (data : Bytes) : Except RingError Bool → List Bytes
  | .ok true => [data]
  | _ => []

/-- What a pop has returned. -/
def answered : Except RingError (Option Bytes) → List Bytes
  | .ok (some message) => [message]
  | _ => []

def push (s : RingRun) (data : Bytes) : RingRun where
  ring := (s.ring.push data).1
  accepted := s.accepted ++ stored data (s.ring.push data).2
  returned := s.returned

def pop (s : RingRun) : RingRun where
  ring := s.ring.pop.1
  accepted := s.accepted
  returned := s.returned ++ answered s.ring.pop.2

def calls : Machine RingRun RingCall where
  step
    | s, .push data => some (s.push data)
    | s, .pop => some s.pop

/-- The accepted messages that are still to be returned. -/
def remaining (s : RingRun) : List Bytes := s.accepted.drop s.returned.length

def Straight (s : RingRun) : RingCall → Prop
  | .push data => s.ring.Straight data
  | .pop => True

instance : ∀ (s : RingRun) (call : RingCall), Decidable (s.Straight call)
  | s, .push data => inferInstanceAs (Decidable (s.ring.Straight data))
  | _, .pop => inferInstanceAs (Decidable True)

/-- What a bounded queue of the remaining messages does, inside the data area. -/
def Exact (s : RingRun) : RingCall → Prop
  | .push data =>
    (∀ a ∈ s.ring.written data, a < s.ring.capacity) ∧
    (s.ring.push data).2 =
      .ok (ByteFifo.push ⟨s.ring.capacity, s.remaining⟩ data).2 ∧
    (s.push data).remaining = (ByteFifo.push ⟨s.ring.capacity, s.remaining⟩ data).1.messages ∧
    (s.ring.capacity - ByteFifo.used s.remaining < 4 + data.length → s.push data = s)
  | .pop =>
    (∀ a ∈ s.ring.loaded, a < s.ring.capacity) ∧
    s.ring.pop.2 = .ok s.remaining.head? ∧
    s.pop.remaining = s.remaining.tail

/-- The returned messages are the first accepted ones, and the ring holds the others. -/
structure Queues (dataSize : ℕ) (s : RingRun) : Prop where
  capacity : s.ring.capacity = dataSize
  inOrder : s.accepted = s.returned ++ s.remaining
  holds : s.ring.Holds s.remaining

variable {s : RingRun} {dataSize : ℕ} {data message : Bytes} {messages : List Bytes}

theorem remaining_of_append {ring : ShmRingBuffer} {accepted returned messages : List Bytes}
    (happend : accepted = returned ++ messages) :
    (⟨ring, accepted, returned⟩ : RingRun).remaining = messages := by
  rw [remaining, happend, drop_left]

theorem queues_of {ring : ShmRingBuffer} {accepted returned messages : List Bytes}
    (hcapacity : ring.capacity = dataSize) (happend : accepted = returned ++ messages)
    (hholds : ring.Holds messages) : Queues dataSize ⟨ring, accepted, returned⟩ := by
  have hremaining : (⟨ring, accepted, returned⟩ : RingRun).remaining = messages :=
    remaining_of_append happend
  exact ⟨hcapacity, by rw [hremaining, happend], by rwa [hremaining]⟩

theorem push_of_not_le (hnot : ¬ 4 + data.length ≤ s.ring.free) : s.push data = s := by
  have hpush : s.ring.push data = (s.ring, .ok false) := ShmRingBuffer.push_of_not_le hnot
  rw [push, hpush, stored, append_nil]
  exact nofun

theorem Queues.push_of_le (hs : s.Queues dataSize) (hle : 4 + data.length ≤ s.ring.free)
    (hstraight : s.ring.Straight data) :
    s.push data = ⟨(s.ring.push data).1, s.accepted ++ [data], s.returned⟩ := by
  have hstored : (s.ring.push data).2 = .ok true := by
    rw [hs.holds.push_of_le hle hstraight]
  rw [push, hstored, stored]

theorem Queues.pop_of_nil (hs : s.Queues dataSize) (hnil : s.remaining = []) : s.pop = s := by
  have hholds := hs.holds
  rw [hnil] at hholds
  rw [pop, hholds.pop_nil, answered, append_nil]
  exact nofun

theorem Queues.pop_of_cons (hs : s.Queues dataSize) (hcons : s.remaining = message :: messages) :
    s.pop = ⟨s.ring.pop.1, s.accepted, s.returned ++ [message]⟩ := by
  have hholds := hs.holds
  rw [hcons] at hholds
  have hanswered : s.ring.pop.2 = .ok (some message) := by
    rw [hholds.pop_cons]
  rw [pop, hanswered, answered]

/-! ## The step lemma -/

theorem Queues.push (hs : s.Queues dataSize) (hstraight : s.ring.Straight data) :
    (s.push data).Queues dataSize ∧ s.Exact (.push data) := by
  have hfree := hs.holds.free_eq
  by_cases hle : 4 + data.length ≤ s.ring.free
  · have hpush := hs.push_of_le hle hstraight
    have happend : s.accepted ++ [data] = s.returned ++ (s.remaining ++ [data]) := by
      rw [← append_assoc, ← hs.inOrder]
    have hcapacity : (s.ring.push data).1.capacity = dataSize := by
      rw [hs.holds.push_of_le hle hstraight]
      exact hs.capacity
    have hroom : ByteFifo.messageSize data ≤ s.ring.capacity - ByteFifo.used s.remaining :=
      hfree ▸ hle
    have hfifo : ByteFifo.push ⟨s.ring.capacity, s.remaining⟩ data =
        (⟨s.ring.capacity, s.remaining ++ [data]⟩, true) := if_pos hroom
    refine ⟨?_, hs.holds.written_lt hstraight, ?_, ?_, ?_⟩
    · rw [hpush]
      exact queues_of hcapacity happend (hs.holds.pushed hle hstraight)
    · rw [hs.holds.push_of_le hle hstraight, hfifo]
    · rw [hpush, remaining_of_append happend, hfifo]
    · exact fun hlt ↦ absurd hroom (not_le.mpr hlt)
  · have hroom : ¬ ByteFifo.messageSize data ≤ s.ring.capacity - ByteFifo.used s.remaining :=
      hfree ▸ hle
    have hfifo : ByteFifo.push ⟨s.ring.capacity, s.remaining⟩ data =
        (⟨s.ring.capacity, s.remaining⟩, false) := if_neg hroom
    have hpush := push_of_not_le hle
    refine ⟨?_, hs.holds.written_lt hstraight, ?_, ?_, fun _ ↦ hpush⟩
    · rw [hpush]
      exact hs
    · rw [ShmRingBuffer.push_of_not_le hle, hfifo]
    · rw [hpush, hfifo]

theorem Queues.pop (hs : s.Queues dataSize) : s.pop.Queues dataSize ∧ s.Exact .pop := by
  cases hremaining : s.remaining with
  | nil =>
    have hpop := hs.pop_of_nil hremaining
    have hholds := hs.holds
    rw [hremaining] at hholds
    refine ⟨?_, hs.holds.loaded_lt, ?_, ?_⟩
    · rw [hpop]
      exact hs
    · rw [hholds.pop_nil, hremaining]
      rfl
    · rw [hpop, hremaining]
      rfl
  | cons message messages =>
    have hpop := hs.pop_of_cons hremaining
    have hholds := hs.holds
    rw [hremaining] at hholds
    have happend : s.accepted = s.returned ++ [message] ++ messages := by
      rw [append_assoc, singleton_append, ← hremaining]
      exact hs.inOrder
    have hcapacity : s.ring.pop.1.capacity = dataSize := by
      rw [hholds.pop_cons]
      exact hs.capacity
    refine ⟨?_, hs.holds.loaded_lt, ?_, ?_⟩
    · rw [hpop]
      exact queues_of hcapacity happend hholds.popped
    · rw [hholds.pop_cons, hremaining]
      rfl
    · rw [hpop, remaining_of_append happend, hremaining]
      rfl

theorem Queues.call (hs : s.Queues dataSize) {call : RingCall} (hstraight : s.Straight call) :
    (∀ s', calls.step s call = some s' → s'.Queues dataSize) ∧ s.Exact call := by
  cases call with
  | push data => exact ⟨fun _ hstep ↦ Option.some.inj hstep ▸ (hs.push hstraight).1,
      (hs.push hstraight).2⟩
  | pop => exact ⟨fun _ hstep ↦ Option.some.inj hstep ▸ hs.pop.1, hs.pop.2⟩

theorem queues_new (hpositive : 0 < dataSize) (hsmall : dataSize < 2 ^ 32) (mem : ByteMemory) :
    (new dataSize mem).Queues dataSize :=
  ⟨rfl, rfl, ShmRingBuffer.holds_create hpositive hsmall mem⟩

/-! ## The run -/

/-- **A ring whose pushes are all straight is a bounded queue.**  Every call stays inside the data
area and does what the queue does, and what was returned is what was accepted first. -/
theorem exact_of_straight {dataSize : ℕ} (hpositive : 0 < dataSize) (hsmall : dataSize < 2 ^ 32)
    (mem : ByteMemory) (ringCalls : List RingCall)
    (hstraight : calls.Meets Straight (new dataSize mem) ringCalls) :
    calls.Meets Exact (new dataSize mem) ringCalls ∧
      ∀ s, calls.run (new dataSize mem) ringCalls = some s →
        s.accepted = s.returned ++ s.remaining := by
  have hstep : ∀ (s : RingRun) call s', s.Queues dataSize → s.Straight call →
      calls.step s call = some s' → s'.Queues dataSize :=
    fun s call s' hs hstraight hstep ↦ (hs.call hstraight).1 s' hstep
  have hnew := queues_new hpositive hsmall mem
  exact ⟨Machine.meets_of_inv hstep (fun s call hs hstraight ↦ (hs.call hstraight).2) hnew hstraight,
    fun s hrun ↦ (Machine.inv_of_run hstep hnew hstraight hrun).inOrder⟩

/-- A length straddles the end of a ring of 12 bytes, and its payload after it. -/
theorem exact_of_straight_straddle :
    calls.Meets Exact (new 12 ByteMemory.zeros)
        [.push [1, 2, 3, 4, 5, 6], .pop, .push [7, 8, 9], .pop, .pop] ∧
      ∀ s, calls.run (new 12 ByteMemory.zeros)
          [.push [1, 2, 3, 4, 5, 6], .pop, .push [7, 8, 9], .pop, .pop] = some s →
        s.accepted = s.returned ++ s.remaining :=
  exact_of_straight (by decide) (by decide) ByteMemory.zeros _ (by decide +kernel)

/-- A payload of six bytes after a length at 8 is written up to 18 in an area of 16 bytes, and
another message is read. -/
theorem not_exact_splitPayload :
    (∃ a ∈ ShmRingBuffer.written
        ((new 16 ByteMemory.zeros).push [1, 2, 3, 4]).pop.ring [5, 6, 7, 8, 9, 10], 16 ≤ a) ∧
    (calls.run (new 16 ByteMemory.zeros)
        [.push [1, 2, 3, 4], .pop, .push [5, 6, 7, 8, 9, 10], .pop]).map
      (fun s ↦ (s.accepted, s.returned)) =
        some ([[1, 2, 3, 4], [5, 6, 7, 8, 9, 10]], [[1, 2, 3, 4], [5, 6, 7, 8, 4, 0]]) := by
  decide +kernel

end RingRun

end SoulSystem.Shm
