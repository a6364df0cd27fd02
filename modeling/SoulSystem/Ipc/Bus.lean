import SoulSystem.Library.Machine
import SoulSystem.Library.Slots

/-!
# The bus between agents

A ring of cells with a sequence number each, two positions, and any number of threads that publish,
dequeue and receive for an agent.  Each load, exchange, message access and store of a call is one
step on the shared bus, an exchange may also fail for no reason, and between two steps of one thread
any number of steps of the others can happen.

The sequence number of a cell is the next position that can be published there, or one more than the
position whose message it holds.  Positions that are apart by less than the size of the ring have
different cells, and a thread that has won a position finds its cell as it was when it won.
-/

namespace SoulSystem.Ipc

open Library Function

section Steps

/-! ## The bus -/

def ipcQueueSize : ℕ := 8192

def ipcMask : ℕ := ipcQueueSize - 1

structure AgentMessage where
  sourceAgentId : UInt32
  targetAgentId : UInt32
  signalCode : UInt32
  payloadPtr : UInt64
  payloadSize : UInt64
  deriving DecidableEq

def AgentMessage.empty : AgentMessage := ⟨0, 0, 0, 0, 0⟩

structure Cell where
  sequence : ℕ
  message : AgentMessage

structure InterAgentBus where
  buffer : ℕ → Cell
  enqueuePos : ℕ
  dequeuePos : ℕ

/-- The cell of a position. -/
def cellOf (pos : ℕ) : ℕ := pos &&& ipcMask

theorem cellOf_eq (pos : ℕ) : cellOf pos = pos % 8192 :=
  Nat.and_two_pow_sub_one_eq_mod pos 13

theorem cellOf_lt (pos : ℕ) : cellOf pos < 8192 := by
  rw [cellOf_eq]
  exact Nat.mod_lt _ (by norm_num)

namespace InterAgentBus

def new : InterAgentBus where
  buffer := fun index ↦ ⟨index, AgentMessage.empty⟩
  enqueuePos := 0
  dequeuePos := 0

/-- The sequence number of the cell of a position. -/
def sequence (bus : InterAgentBus) (pos : ℕ) : ℕ := (bus.buffer (cellOf pos)).sequence

/-- The message in the cell of a position. -/
def message (bus : InterAgentBus) (pos : ℕ) : AgentMessage := (bus.buffer (cellOf pos)).message

def setSequence (bus : InterAgentBus) (pos sequence : ℕ) : InterAgentBus :=
  { bus with buffer := update bus.buffer (cellOf pos) ⟨sequence, bus.message pos⟩ }

def setMessage (bus : InterAgentBus) (pos : ℕ) (message : AgentMessage) : InterAgentBus :=
  { bus with buffer := update bus.buffer (cellOf pos) ⟨bus.sequence pos, message⟩ }

/-- Snapshot of the number of messages that wait. -/
def pendingCount (bus : InterAgentBus) : ℕ := bus.enqueuePos - bus.dequeuePos

section Set

variable (bus : InterAgentBus) (pos n : ℕ) (m : AgentMessage)

theorem setSequence_buffer : (bus.setSequence pos n).buffer =
    update bus.buffer (cellOf pos) ⟨n, bus.message pos⟩ := rfl

theorem setMessage_buffer : (bus.setMessage pos m).buffer =
    update bus.buffer (cellOf pos) ⟨bus.sequence pos, m⟩ := rfl

@[simp] theorem setSequence_enqueuePos : (bus.setSequence pos n).enqueuePos = bus.enqueuePos := rfl

@[simp] theorem setSequence_dequeuePos : (bus.setSequence pos n).dequeuePos = bus.dequeuePos := rfl

@[simp] theorem setMessage_enqueuePos : (bus.setMessage pos m).enqueuePos = bus.enqueuePos := rfl

@[simp] theorem setMessage_dequeuePos : (bus.setMessage pos m).dequeuePos = bus.dequeuePos := rfl

theorem setSequence_sequence (other : ℕ) : (bus.setSequence pos n).sequence other =
    if cellOf other = cellOf pos then n else bus.sequence other := by
  simp only [sequence, setSequence, update_apply]
  split <;> rfl

@[simp] theorem setSequence_message (other : ℕ) :
    (bus.setSequence pos n).message other = bus.message other := by
  simp only [message, setSequence, update_apply]
  split
  case isTrue hsame => rw [hsame]
  case isFalse => rfl

theorem setMessage_message (other : ℕ) : (bus.setMessage pos m).message other =
    if cellOf other = cellOf pos then m else bus.message other := by
  simp only [message, setMessage, update_apply]
  split <;> rfl

@[simp] theorem setMessage_sequence (other : ℕ) :
    (bus.setMessage pos m).sequence other = bus.sequence other := by
  simp only [sequence, setMessage, update_apply]
  split
  case isTrue hsame => rw [hsame]
  case isFalse => rfl

end Set

end InterAgentBus

/-! ## Threads -/

inductive Call where
  | publish (message : AgentMessage)
  | dequeue
  | tryRecv (agentId : UInt32)
  deriving DecidableEq

/-- Where a thread stands in `publish` or `dequeue`, with its local variables. -/
inductive Pc where
  | idle
  | publishBegin (message : AgentMessage)
  | publishCell (message : AgentMessage) (pos : ℕ)
  | publishExchange (message : AgentMessage) (pos : ℕ)
  | publishWrite (message : AgentMessage) (pos : ℕ)
  | publishStore (message : AgentMessage) (pos : ℕ)
  | dequeueBegin
  | dequeueCell (pos : ℕ)
  | dequeueExchange (pos : ℕ)
  | dequeueRead (pos : ℕ)
  | dequeueStore (pos : ℕ) (message : AgentMessage)
  deriving DecidableEq

/-- What one step of a call leads to. -/
inductive Outcome where
  | goesOn (pc : Pc)
  | refused (message : AgentMessage)
  | published (pos : ℕ) (message : AgentMessage)
  | empty
  | returned (pos : ℕ) (message : AgentMessage)

def Pc.begin : Call → Pc
  | .publish message => .publishBegin message
  | .dequeue | .tryRecv _ => .dequeueBegin

/-- One step of a thread on the shared bus.  An exchange fails when the position has moved, or when
it is spurious. -/
def InterAgentBus.advance (bus : InterAgentBus) (spurious : Bool) :
    Pc → Option (InterAgentBus × Outcome)
  | .idle => none
  | .publishBegin message => some (bus, .goesOn (.publishCell message bus.enqueuePos))
  | .publishCell message pos =>
    let diff := (bus.sequence pos : ℤ) - pos
    if diff = 0 then some (bus, .goesOn (.publishExchange message pos))
    else if diff < 0 then some (bus, .refused message)
    else some (bus, .goesOn (.publishBegin message))
  | .publishExchange message pos =>
    if bus.enqueuePos = pos ∧ spurious = false then
      some ({ bus with enqueuePos := pos + 1 }, .goesOn (.publishWrite message pos))
    else some (bus, .goesOn (.publishCell message bus.enqueuePos))
  | .publishWrite message pos =>
    some (bus.setMessage pos message, .goesOn (.publishStore message pos))
  | .publishStore message pos => some (bus.setSequence pos (pos + 1), .published pos message)
  | .dequeueBegin => some (bus, .goesOn (.dequeueCell bus.dequeuePos))
  | .dequeueCell pos =>
    let diff := (bus.sequence pos : ℤ) - (pos + 1)
    if diff = 0 then some (bus, .goesOn (.dequeueExchange pos))
    else if diff < 0 then some (bus, .empty)
    else some (bus, .goesOn .dequeueBegin)
  | .dequeueExchange pos =>
    if bus.dequeuePos = pos ∧ spurious = false then
      some ({ bus with dequeuePos := pos + 1 }, .goesOn (.dequeueRead pos))
    else some (bus, .goesOn (.dequeueCell bus.dequeuePos))
  | .dequeueRead pos => some (bus, .goesOn (.dequeueStore pos (bus.message pos)))
  | .dequeueStore pos message =>
    some (bus.setSequence pos (pos + ipcQueueSize), .returned pos message)

/-! ## The machine -/

/-- The call gives the message to its caller and does not publish it again. -/
def Call.Keeps : Call → AgentMessage → Prop
  | .tryRecv agentId, message =>
    message.targetAgentId = agentId ∨ message.targetAgentId = 0xFFFFFFFF
  | _, _ => True

instance (c : Call) (message : AgentMessage) : Decidable (c.Keeps message) :=
  match c with
  | .tryRecv _ => inferInstanceAs (Decidable (_ ∨ _))
  | .publish _ | .dequeue => isTrue trivial

/-- How a call goes on after a step.  `try_recv` publishes a message for another agent again, and
goes on doing so until it succeeds. -/
def Call.resume (c : Call) : Outcome → Pc
  | .goesOn pc => pc
  | .refused message =>
    match c with
    | .tryRecv _ => .publishBegin message
    | _ => .idle
  | .published _ _ | .empty => .idle
  | .returned _ message => if c.Keeps message then .idle else .publishBegin message

/-- What a step adds to the messages that callers have published. -/
def Call.accepts (c : Call) : Outcome → Multiset AgentMessage
  | .published _ message =>
    match c with
    | .tryRecv _ => 0
    | _ => {message}
  | _ => 0

/-- What a step adds to the messages that callers have got. -/
def Call.delivers (c : Call) : Outcome → Multiset AgentMessage
  | .returned _ message => if c.Keeps message then {message} else 0
  | _ => 0

/-- The message of a publish that has won its position by the step. -/
def Outcome.won : Outcome → List AgentMessage
  | .goesOn (.publishWrite message _) => [message]
  | _ => []

/-- The position and message of a publish that is done by the step. -/
def Outcome.publishedAt : Outcome → List (ℕ × AgentMessage)
  | .published pos message => [(pos, message)]
  | _ => []

/-- The position and message of a dequeue that is done by the step. -/
def Outcome.returnedAt : Outcome → List (ℕ × AgentMessage)
  | .returned pos message => [(pos, message)]
  | _ => []

/-- The shared bus, where each thread stands and in which call, the messages by the position that
they won, the publishes and dequeues that are done, and what callers have published and got. -/
structure BusState (ι : Type) where
  bus : InterAgentBus
  pc : ι → Pc
  caller : ι → Call
  won : List AgentMessage
  published : List (ℕ × AgentMessage)
  returned : List (ℕ × AgentMessage)
  accepted : Multiset AgentMessage
  delivered : Multiset AgentMessage

inductive BusEvent (ι : Type) where
  | call (i : ι) (c : Call)
  | step (i : ι) (spurious : Bool)

variable {ι : Type}

namespace BusState

def new : BusState ι where
  bus := InterAgentBus.new
  pc := fun _ ↦ .idle
  caller := fun _ ↦ .dequeue
  won := []
  published := []
  returned := []
  accepted := 0
  delivered := 0

variable [DecidableEq ι]

def settle (s : BusState ι) (i : ι) (bus : InterAgentBus) (outcome : Outcome) : BusState ι where
  bus := bus
  pc := update s.pc i ((s.caller i).resume outcome)
  caller := s.caller
  won := s.won ++ outcome.won
  published := s.published ++ outcome.publishedAt
  returned := s.returned ++ outcome.returnedAt
  accepted := s.accepted + (s.caller i).accepts outcome
  delivered := s.delivered + (s.caller i).delivers outcome

/-- A step after which the call goes on, and by which no position is won for a publish. -/
theorem settle_goesOn (s : BusState ι) (i : ι) (bus : InterAgentBus) {pc : Pc}
    (hwon : (Outcome.goesOn pc).won = []) :
    s.settle i bus (.goesOn pc) = { s with bus := bus, pc := update s.pc i pc } := by
  rw [settle, hwon]
  simp [Call.resume, Call.accepts, Call.delivers, Outcome.publishedAt, Outcome.returnedAt]

/-- A step by which a position is won for a publish. -/
theorem settle_publishWrite (s : BusState ι) (i : ι) (bus : InterAgentBus) (message : AgentMessage)
    (pos : ℕ) : s.settle i bus (.goesOn (.publishWrite message pos)) =
      { s with
        bus := bus
        pc := update s.pc i (.publishWrite message pos)
        won := s.won ++ [message] } := by
  simp [settle, Call.resume, Call.accepts, Call.delivers, Outcome.won, Outcome.publishedAt,
    Outcome.returnedAt]

/-- A step by which a publish is done. -/
theorem settle_published (s : BusState ι) (i : ι) (bus : InterAgentBus) (pos : ℕ)
    (message : AgentMessage) : s.settle i bus (.published pos message) =
      { s with
        bus := bus
        pc := update s.pc i .idle
        published := s.published ++ [(pos, message)]
        accepted := s.accepted + (s.caller i).accepts (.published pos message) } := by
  simp [settle, Call.resume, Call.delivers, Outcome.won, Outcome.publishedAt, Outcome.returnedAt]

/-- A step by which a dequeue is done. -/
theorem settle_returned (s : BusState ι) (i : ι) (bus : InterAgentBus) (pos : ℕ)
    (message : AgentMessage) : s.settle i bus (.returned pos message) =
      { s with
        bus := bus
        pc := update s.pc i ((s.caller i).resume (.returned pos message))
        returned := s.returned ++ [(pos, message)]
        delivered := s.delivered + (s.caller i).delivers (.returned pos message) } := by
  simp [settle, Call.accepts, Outcome.won, Outcome.publishedAt, Outcome.returnedAt]

def begin (s : BusState ι) (i : ι) (c : Call) : BusState ι :=
  { s with pc := update s.pc i (.begin c), caller := update s.caller i c }

theorem begin_pc (s : BusState ι) (i : ι) (c : Call) :
    (s.begin i c).pc = update s.pc i (.begin c) := rfl

theorem begin_caller (s : BusState ι) (i : ι) (c : Call) :
    (s.begin i c).caller = update s.caller i c := rfl

end BusState

/-- The bus of many threads, step by step. -/
def busMachine (ι : Type) [DecidableEq ι] : Machine (BusState ι) (BusEvent ι) where
  step := fun s event ↦
    match event with
    | .call i c =>
      match s.pc i with
      | .idle => some (s.begin i c)
      | _ => none
    | .step i spurious => (s.bus.advance spurious (s.pc i)).map fun next ↦ s.settle i next.1 next.2

end Steps

/-! ## The invariant of the bus -/

variable {ι : Type}

/-! ## Cells -/

theorem cellOf_succ_ne (p : ℕ) : cellOf p ≠ cellOf (p + 1) := by
  rw [cellOf_eq, cellOf_eq]
  omega

theorem cellOf_add_size (p : ℕ) : cellOf (p + 8192) = cellOf p := by
  rw [cellOf_eq, cellOf_eq]
  omega

theorem add_size_le_of_lt {p q : ℕ} (hcell : cellOf p = cellOf q) (hlt : p < q) : p + 8192 ≤ q := by
  rw [cellOf_eq, cellOf_eq] at hcell
  omega

/-! ## The invariant -/

/-- The position that a thread has won and not yet released. -/
def Pc.owned : Pc → Option ℕ
  | .publishWrite _ pos | .publishStore _ pos | .dequeueRead pos | .dequeueStore pos _ => some pos
  | _ => none

/-- A cell can be published at the position, or holds its message. -/
structure InterAgentBus.CellAt (bus : InterAgentBus) (won : List AgentMessage) (pos : ℕ) : Prop where
  enqueue_le : bus.enqueuePos ≤ pos + 8192
  lt_dequeue : pos < bus.dequeuePos + 8192
  content : bus.sequence pos = pos ∧ bus.dequeuePos ≤ pos ∨
    bus.sequence pos = pos + 1 ∧ pos < bus.enqueuePos ∧ won[pos]? = some (bus.message pos)

/-- What a thread knows of the bus where it stands. -/
def Pc.Knows (bus : InterAgentBus) (won : List AgentMessage) : Pc → Prop
  | .publishCell _ pos => pos ≤ bus.enqueuePos
  | .publishExchange _ pos => pos ≤ bus.enqueuePos ∧ (bus.enqueuePos = pos → bus.sequence pos = pos)
  | .publishWrite message pos =>
    pos < bus.enqueuePos ∧ bus.sequence pos = pos ∧ won[pos]? = some message
  | .publishStore message pos => pos < bus.enqueuePos ∧ bus.sequence pos = pos ∧
      won[pos]? = some message ∧ bus.message pos = message
  | .dequeueCell pos => pos ≤ bus.dequeuePos
  | .dequeueExchange pos =>
    pos ≤ bus.dequeuePos ∧ (bus.dequeuePos = pos → bus.sequence pos = pos + 1)
  | .dequeueRead pos => pos < bus.dequeuePos ∧ bus.sequence pos = pos + 1
  | .dequeueStore pos message =>
    pos < bus.dequeuePos ∧ bus.sequence pos = pos + 1 ∧ bus.message pos = message
  | _ => True

section Resume

variable (c : Call) (message : AgentMessage) (pos : ℕ) (bus : InterAgentBus)
  (won : List AgentMessage)

theorem Call.owned_resume_refused : (c.resume (.refused message)).owned = none := by
  cases c <;> rfl

theorem Call.knows_resume_refused : (c.resume (.refused message)).Knows bus won := by
  cases c <;> trivial

theorem Call.owned_resume_returned : (c.resume (.returned pos message)).owned = none := by
  rw [Call.resume]
  split <;> rfl

theorem Call.knows_resume_returned : (c.resume (.returned pos message)).Knows bus won := by
  rw [Call.resume]
  split <;> trivial

end Resume

/-- The invariant of the ring with its threads. -/
structure BusState.Inv (s : BusState ι) : Prop where
  dequeue_le : s.bus.dequeuePos ≤ s.bus.enqueuePos
  length_won : s.won.length = s.bus.enqueuePos
  cell : ∀ pos, ∃ current, cellOf current = cellOf pos ∧ s.bus.CellAt s.won current
  knows : ∀ i, (s.pc i).Knows s.bus s.won
  apart : ∀ i j pos, (s.pc i).owned = some pos → (s.pc j).owned = some pos → i = j
  published : ∀ pos message, (pos, message) ∈ s.published → s.won[pos]? = some message ∧
    ((pos, message) ∈ s.returned ∨ s.bus.sequence pos = pos + 1)
  returned : ∀ pos message, (pos, message) ∈ s.returned → s.won[pos]? = some message ∧
    pos + 8192 ≤ s.bus.sequence pos
  nodup : (s.returned.map Prod.fst).Nodup

theorem InterAgentBus.sequence_congr (bus : InterAgentBus) {p q : ℕ} (hcell : cellOf p = cellOf q) :
    bus.sequence p = bus.sequence q := by
  rw [InterAgentBus.sequence, InterAgentBus.sequence, hcell]

namespace BusState

theorem inv_new : (new : BusState ι).Inv where
  dequeue_le := le_refl 0
  length_won := rfl
  cell := by
    intro pos
    have hsame : cellOf (cellOf pos) = cellOf pos := by
      rw [cellOf_eq, cellOf_eq, Nat.mod_mod]
    refine ⟨cellOf pos, hsame, ?_, ?_, Or.inl ⟨?_, Nat.zero_le _⟩⟩
    · exact Nat.zero_le _
    · exact lt_of_lt_of_eq (cellOf_lt pos) (Nat.zero_add 8192).symm
    · exact hsame
  knows := fun _ ↦ trivial
  apart := fun _ _ _ hi _ ↦ nomatch hi
  published := fun _ _ hmem ↦ absurd hmem List.not_mem_nil
  returned := fun _ _ hmem ↦ absurd hmem List.not_mem_nil
  nodup := List.nodup_nil

variable {s : BusState ι} {pos : ℕ}

/-- A cell whose sequence number is a position can be published there. -/
theorem Inv.cellAt_free (hs : s.Inv) (hsequence : s.bus.sequence pos = pos) :
    s.bus.CellAt s.won pos ∧ s.bus.dequeuePos ≤ pos := by
  obtain ⟨current, hcell, hcurrent⟩ := hs.cell pos
  rw [← s.bus.sequence_congr hcell] at hsequence
  rcases hcurrent.content with ⟨hfree, hle⟩ | ⟨hfull, -, -⟩
  · have hsame : current = pos := hfree.symm.trans hsequence
    exact hsame ▸ ⟨hcurrent, hle⟩
  · rw [hfull] at hsequence
    exact absurd (hsequence ▸ hcell) (cellOf_succ_ne current)

/-- A cell whose sequence number is one more than a position holds its message. -/
theorem Inv.cellAt_full (hs : s.Inv) (hsequence : s.bus.sequence pos = pos + 1) :
    s.bus.CellAt s.won pos ∧ pos < s.bus.enqueuePos ∧ s.won[pos]? = some (s.bus.message pos) := by
  obtain ⟨current, hcell, hcurrent⟩ := hs.cell pos
  rw [← s.bus.sequence_congr hcell] at hsequence
  rcases hcurrent.content with ⟨hfree, -⟩ | ⟨hfull, hlt, hwon⟩
  · rw [hfree] at hsequence
    exact absurd (hsequence ▸ hcell).symm (cellOf_succ_ne pos)
  · have hsame : current = pos := Nat.succ_injective (hfull.symm.trans hsequence)
    exact hsame ▸ ⟨hcurrent, hlt, hwon⟩

/-- A sequence number behind a position is that of a message one lap earlier or more, which was not
released. -/
theorem Inv.full (hs : s.Inv) (hlt : s.bus.sequence pos < pos) :
    8192 ≤ pos ∧ ∀ message, (pos - 8192, message) ∉ s.returned := by
  obtain ⟨current, hcell, hcurrent⟩ := hs.cell pos
  have hle : current < pos := by
    rw [← s.bus.sequence_congr hcell] at hlt
    rcases hcurrent.content with ⟨hfree, -⟩ | ⟨hfull, -, -⟩ <;> omega
  have hlap : 8192 ≤ pos := (Nat.le_add_left _ _).trans (add_size_le_of_lt hcell hle)
  refine ⟨hlap, fun message hmem ↦ ?_⟩
  have hreleased := (hs.returned _ message hmem).2
  have hsame : cellOf (pos - 8192) = cellOf pos := by
    rw [← cellOf_add_size (pos - 8192), Nat.sub_add_cancel hlap]
  rw [s.bus.sequence_congr hsame] at hreleased
  omega

/-! ## The other threads -/

end BusState

variable {bus bus' : InterAgentBus} {won won' : List AgentMessage}

/-- What a thread knows stays true when the positions do not fall back, a position that stays keeps
its cell, and the cell that the thread has won is left alone. -/
theorem Pc.Knows.frame {pc : Pc} (hknows : pc.Knows bus won)
    (henqueue : bus.enqueuePos ≤ bus'.enqueuePos) (hdequeue : bus.dequeuePos ≤ bus'.dequeuePos)
    (hwon : ∀ (pos : ℕ) message, won[pos]? = some message → won'[pos]? = some message)
    (hfree : bus'.enqueuePos = bus.enqueuePos → bus.sequence bus.enqueuePos = bus.enqueuePos →
      bus'.sequence bus.enqueuePos = bus.enqueuePos)
    (hready : bus'.dequeuePos = bus.dequeuePos →
      bus.sequence bus.dequeuePos = bus.dequeuePos + 1 →
      bus'.sequence bus.dequeuePos = bus.dequeuePos + 1)
    (hown : ∀ pos, pc.owned = some pos →
      bus'.sequence pos = bus.sequence pos ∧ bus'.message pos = bus.message pos) :
    pc.Knows bus' won' := by
  cases pc with
  | publishCell message pos => exact le_trans hknows henqueue
  | publishExchange message pos =>
    refine ⟨hknows.1.trans henqueue, fun heq ↦ ?_⟩
    have hsame : bus.enqueuePos = pos := le_antisymm (heq ▸ henqueue) hknows.1
    rw [← hsame]
    exact hfree (heq.trans hsame.symm) (hsame ▸ hknows.2 hsame)
  | publishWrite message pos =>
    obtain ⟨hlt, hsequence, hmessage⟩ := hknows
    exact ⟨hlt.trans_le henqueue, (hown pos rfl).1.trans hsequence, hwon pos message hmessage⟩
  | publishStore message pos =>
    obtain ⟨hlt, hsequence, hmessage, hwritten⟩ := hknows
    exact ⟨hlt.trans_le henqueue, (hown pos rfl).1.trans hsequence, hwon pos message hmessage,
      (hown pos rfl).2.trans hwritten⟩
  | dequeueCell pos => exact le_trans hknows hdequeue
  | dequeueExchange pos =>
    refine ⟨hknows.1.trans hdequeue, fun heq ↦ ?_⟩
    have hsame : bus.dequeuePos = pos := le_antisymm (heq ▸ hdequeue) hknows.1
    rw [← hsame]
    exact hready (heq.trans hsame.symm) (hsame ▸ hknows.2 hsame)
  | dequeueRead pos =>
    obtain ⟨hlt, hsequence⟩ := hknows
    exact ⟨hlt.trans_le hdequeue, (hown pos rfl).1.trans hsequence⟩
  | dequeueStore pos message =>
    obtain ⟨hlt, hsequence, hread⟩ := hknows
    exact ⟨hlt.trans_le hdequeue, (hown pos rfl).1.trans hsequence, (hown pos rfl).2.trans hread⟩
  | _ => trivial

end SoulSystem.Ipc
