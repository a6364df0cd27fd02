import SoulSystem.Ipc.BusSafety
import Mathlib.Data.Fintype.BigOperators

/-!
# The bus is a bounded queue

Each publish and each dequeue that succeeds takes effect in its exchange, in the order of the
positions, and what callers have published is what they have got, what waits in the cells and what
receivers are about to publish again.
-/

namespace SoulSystem.Ipc

open Library Function

variable {ι : Type}

/-! ## A bounded queue -/

/-- An item is put in, or taken out. -/
inductive FifoEvent (α : Type) where
  | enqueue (item : α)
  | dequeue (item : α)

/-- A queue of at most so many items. -/
def fifoMachine (α : Type) [DecidableEq α] (capacity : ℕ) : Machine (List α) (FifoEvent α) where
  step := fun queue event ↦
    match event, queue with
    | .enqueue item, queue => if queue.length < capacity then some (queue ++ [item]) else none
    | .dequeue item, first :: rest => if first = item then some rest else none
    | .dequeue _, [] => none

namespace BusState

/-- The messages that were won and not yet taken. -/
def pending (s : BusState ι) : List AgentMessage := s.won.drop s.bus.dequeuePos

/-- What an event does to the queue: an exchange that succeeds puts the message in or
takes it out. -/
def effect (s : BusState ι) : BusEvent ι → Option (FifoEvent AgentMessage)
  | .call _ _ => none
  | .step i spurious =>
    match s.pc i with
    | .publishExchange message pos =>
      if s.bus.enqueuePos = pos ∧ spurious = false then some (.enqueue message) else none
    | .dequeueExchange pos =>
      if s.bus.dequeuePos = pos ∧ spurious = false then some (.dequeue (s.bus.message pos))
      else none
    | _ => none

theorem Inv.length_pending {s : BusState ι} (hs : s.Inv) :
    s.pending.length = s.bus.pendingCount := by
  rw [pending, List.length_drop, hs.length_won, InterAgentBus.pendingCount]

variable [DecidableEq ι] {s : BusState ι} {i : ι} {message : AgentMessage} {pos : ℕ}

theorem Inv.enqueue (hs : s.Inv) (hpc : s.pc i = .publishExchange message pos)
    (hpos : s.bus.enqueuePos = pos) :
    (fifoMachine AgentMessage ipcQueueSize).step s.pending (.enqueue message) =
      some (s.settle i { s.bus with enqueuePos := pos + 1 }
        (.goesOn (.publishWrite message pos))).pending := by
  have hsequence : s.bus.sequence pos = pos := by
    have hknows := hs.knows i
    rw [hpc] at hknows
    exact hknows.2 hpos
  have hroom : s.pending.length < ipcQueueSize := by
    have hlt := (hs.cellAt_free hsequence).1.lt_dequeue
    rw [hs.length_pending, InterAgentBus.pendingCount, ipcQueueSize]
    omega
  have hle : s.bus.dequeuePos ≤ s.won.length := hs.length_won ▸ hs.dequeue_le
  simp only [fifoMachine]
  rw [if_pos hroom, settle_publishWrite, pending, pending, List.drop_append_of_le_length hle]

theorem Inv.dequeue (hs : s.Inv) (hpc : s.pc i = .dequeueExchange pos)
    (hpos : s.bus.dequeuePos = pos) :
    (fifoMachine AgentMessage ipcQueueSize).step s.pending (.dequeue (s.bus.message pos)) =
      some (s.settle i { s.bus with dequeuePos := pos + 1 } (.goesOn (.dequeueRead pos))).pending := by
  have hsequence : s.bus.sequence pos = pos + 1 := by
    have hknows := hs.knows i
    rw [hpc] at hknows
    exact hknows.2 hpos
  obtain ⟨hlt, hmessage⟩ := List.getElem?_eq_some_iff.mp (hs.cellAt_full hsequence).2.2
  have hpending : s.pending = s.bus.message pos :: s.won.drop (pos + 1) := by
    rw [pending, hpos, List.drop_eq_getElem_cons hlt, hmessage]
  rw [settle_goesOn s i _ rfl, hpending]
  simp [fifoMachine, pending]

theorem pending_settle (s : BusState ι) (i : ι) {bus : InterAgentBus} {outcome : Outcome}
    (hdequeue : bus.dequeuePos = s.bus.dequeuePos) (hwon : outcome.won = []) :
    (s.settle i bus outcome).pending = s.pending := by
  rw [pending, settle, hwon, List.append_nil, hdequeue, pending]

/-- A step is one of the queue, or nothing to it. -/
theorem Inv.follows (hs : s.Inv) {event : BusEvent ι} {s' : BusState ι}
    (hstep : (busMachine ι).step s event = some s') :
    (fifoMachine AgentMessage ipcQueueSize).Follows s.pending (s.effect event) s'.pending := by
  cases event with
  | call i c =>
    simp only [busMachine] at hstep
    split at hstep
    · cases hstep
      rfl
    · cases hstep
  | step i spurious =>
    obtain ⟨⟨bus, outcome⟩, hadvance, rfl⟩ := Option.map_eq_some_iff.mp hstep
    rw [effect]
    cases hpc : s.pc i with
    | publishExchange message pos =>
      rw [hpc, InterAgentBus.advance] at hadvance
      dsimp only
      split at hadvance
      case isTrue hexchange =>
        cases hadvance
        rw [if_pos hexchange]
        exact hs.enqueue hpc hexchange.1
      case isFalse hexchange =>
        cases hadvance
        rw [if_neg hexchange]
        exact pending_settle s i rfl rfl
    | dequeueExchange pos =>
      rw [hpc, InterAgentBus.advance] at hadvance
      dsimp only
      split at hadvance
      case isTrue hexchange =>
        cases hadvance
        rw [if_pos hexchange]
        exact hs.dequeue hpc hexchange.1
      case isFalse hexchange =>
        cases hadvance
        rw [if_neg hexchange]
        exact pending_settle s i rfl rfl
    | publishCell message pos =>
      rw [hpc, InterAgentBus.advance] at hadvance
      split at hadvance
      · cases hadvance
        exact pending_settle s i rfl rfl
      · split at hadvance <;> cases hadvance <;> exact pending_settle s i rfl rfl
    | dequeueCell pos =>
      rw [hpc, InterAgentBus.advance] at hadvance
      split at hadvance
      · cases hadvance
        exact pending_settle s i rfl rfl
      · split at hadvance <;> cases hadvance <;> exact pending_settle s i rfl rfl
    | idle =>
      rw [hpc] at hadvance
      cases hadvance
    | _ =>
      rw [hpc] at hadvance
      cases hadvance
      exact pending_settle s i rfl rfl

/-- **The exchanges of the bus are the steps of a bounded queue.** -/
theorem projects (ι : Type) [DecidableEq ι] :
    Machine.Projects (busMachine ι) (fifoMachine AgentMessage ipcQueueSize) Inv pending effect where
  inv := fun _ _ _ hs hstep ↦ hs.step hstep
  step := fun _ _ _ hs hstep ↦ hs.follows hstep

end BusState

/-! ## No message lost, none delivered twice -/

/-- What waits in a cell. -/
def InterAgentBus.waiting (bus : InterAgentBus) (index : ℕ) : Option AgentMessage :=
  if cellOf (bus.buffer index).sequence = index then none else some (bus.buffer index).message

/-- What waits in the cells. -/
def InterAgentBus.held (bus : InterAgentBus) : Multiset AgentMessage :=
  Slots.contents ipcQueueSize bus.waiting

/-- The message of a publish. -/
def Pc.publishing : Pc → Option AgentMessage
  | .publishBegin message | .publishCell message _ | .publishExchange message _
  | .publishWrite message _ | .publishStore message _ => some message
  | _ => none

/-- What a receiver has taken for another agent and not yet published again. -/
def Call.carried : Call → Pc → Multiset AgentMessage
  | .tryRecv _, pc => Slots.ofSlot pc.publishing
  | _, _ => 0

namespace InterAgentBus

variable {bus : InterAgentBus} {pos : ℕ}

theorem waiting_free (hsequence : bus.sequence pos = pos) : bus.waiting (cellOf pos) = none := by
  have hcell : (bus.buffer (cellOf pos)).sequence = pos := hsequence
  rw [waiting, hcell, if_pos rfl]

theorem waiting_full (hsequence : bus.sequence pos = pos + 1) :
    bus.waiting (cellOf pos) = some (bus.message pos) := by
  have hcell : (bus.buffer (cellOf pos)).sequence = pos + 1 := hsequence
  rw [waiting, hcell, if_neg (cellOf_succ_ne pos).symm, message]

theorem waiting_setMessage (hsequence : bus.sequence pos = pos) (message : AgentMessage) :
    (bus.setMessage pos message).waiting = bus.waiting := by
  funext index
  by_cases hsame : index = cellOf pos
  · rw [hsame, waiting_free hsequence, waiting_free (by rw [setMessage_sequence, hsequence])]
  · rw [waiting, setMessage_buffer, update_of_ne hsame, waiting]

theorem waiting_setSequence (sequence : ℕ) :
    (bus.setSequence pos sequence).waiting = update bus.waiting (cellOf pos)
      (if cellOf sequence = cellOf pos then none else some (bus.message pos)) := by
  funext index
  by_cases hsame : index = cellOf pos
  · rw [hsame, update_self, waiting, setSequence_buffer, update_self]
  · rw [waiting, setSequence_buffer, update_of_ne hsame, update_of_ne hsame,
      waiting]

theorem held_setMessage (hsequence : bus.sequence pos = pos) (message : AgentMessage) :
    (bus.setMessage pos message).held = bus.held := by
  rw [held, waiting_setMessage hsequence, held]

theorem held_publish (hsequence : bus.sequence pos = pos) :
    (bus.setSequence pos (pos + 1)).held = bus.held + {bus.message pos} := by
  have hcontents := Slots.contents_update (cellOf_lt pos) bus.waiting (some (bus.message pos))
  rw [waiting_free hsequence, Slots.ofSlot, add_zero] at hcontents
  rw [held, waiting_setSequence, if_neg (cellOf_succ_ne pos).symm]
  exact hcontents

theorem held_release (hsequence : bus.sequence pos = pos + 1) :
    (bus.setSequence pos (pos + ipcQueueSize)).held + {bus.message pos} = bus.held := by
  have hcontents := Slots.contents_update (cellOf_lt pos) bus.waiting none
  rw [waiting_full hsequence, Slots.ofSlot, Slots.ofSlot, add_zero] at hcontents
  rw [held, waiting_setSequence, ipcQueueSize, if_pos (cellOf_add_size pos)]
  exact hcontents

theorem held_new : new.held = 0 := by
  have hwaiting : ∀ index < ipcQueueSize, new.waiting index = none := by
    intro index hindex
    have hcell : cellOf index = index := by
      rw [cellOf_eq]
      exact Nat.mod_eq_of_lt hindex
    rw [waiting]
    exact if_pos hcell
  rw [held, Slots.contents_congr hwaiting, Slots.contents_none]

end InterAgentBus

namespace BusState

/-- What callers have published is what they have got, what waits in the cells and what receivers
have taken for other agents and not yet published again. -/
def Balanced [Fintype ι] (s : BusState ι) : Prop :=
  s.accepted = s.delivered + s.bus.held + ∑ i, (s.caller i).carried (s.pc i)

section Balanced

variable [Fintype ι] {s : BusState ι}

theorem balanced_new : (new : BusState ι).Balanced := by
  have hcarried : ∑ i, ((new : BusState ι).caller i).carried ((new : BusState ι).pc i) = 0 :=
    Finset.sum_eq_zero fun _ _ ↦ rfl
  have hheld : (new : BusState ι).bus.held = 0 := InterAgentBus.held_new
  rw [Balanced, hcarried, hheld]
  rfl

variable [DecidableEq ι] {i : ι}

theorem Balanced.begin (hs : s.Balanced) (hpc : s.pc i = .idle) (c : Call) :
    (s.begin i c).Balanced := by
  have hcarried : ∀ j, ((s.begin i c).caller j).carried ((s.begin i c).pc j) =
      (s.caller j).carried (s.pc j) := by
    intro j
    by_cases hsame : j = i
    · rw [hsame, begin_caller, begin_pc, update_self, update_self, hpc]
      cases c <;> cases s.caller i <;> rfl
    · rw [begin_caller, begin_pc, update_of_ne hsame, update_of_ne hsame]
  have hsum := Finset.sum_congr rfl fun j (_ : j ∈ Finset.univ) ↦ hcarried j
  rw [Balanced, hsum]
  exact hs

/-- A step that is balanced for its thread. -/
theorem Balanced.settle (hs : s.Balanced) {bus : InterAgentBus} {outcome : Outcome}
    (hlocal : bus.held + (s.caller i).carried ((s.caller i).resume outcome) +
        (s.caller i).delivers outcome =
      s.bus.held + (s.caller i).carried (s.pc i) + (s.caller i).accepts outcome) :
    (s.settle i bus outcome).Balanced := by
  have hupdate : (fun j ↦ (s.caller j).carried
      (update s.pc i ((s.caller i).resume outcome) j)) =
      update (fun j ↦ (s.caller j).carried (s.pc j)) i
        ((s.caller i).carried ((s.caller i).resume outcome)) := by
    funext j
    exact apply_update (fun j ↦ (s.caller j).carried) s.pc i _ j
  have hsum := Slots.sum_update_add (Finset.mem_univ i) (fun j ↦ (s.caller j).carried (s.pc j))
    ((s.caller i).carried ((s.caller i).resume outcome))
  change s.accepted + (s.caller i).accepts outcome = s.delivered + (s.caller i).delivers outcome +
    bus.held + ∑ j, (s.caller j).carried (update s.pc i ((s.caller i).resume outcome) j)
  rw [hupdate]
  apply add_right_cancel (b := (s.caller i).carried (s.pc i))
  rw [Balanced] at hs
  calc s.accepted + (s.caller i).accepts outcome + (s.caller i).carried (s.pc i)
      = s.delivered + ∑ j, (s.caller j).carried (s.pc j) +
          (s.bus.held + (s.caller i).carried (s.pc i) + (s.caller i).accepts outcome) := by
        rw [hs]
        abel
    _ = s.delivered + (s.caller i).delivers outcome + bus.held +
          (∑ j, (s.caller j).carried (s.pc j) +
            (s.caller i).carried ((s.caller i).resume outcome)) := by
        rw [← hlocal]
        abel
    _ = s.delivered + (s.caller i).delivers outcome + bus.held +
          ∑ j, update (fun j ↦ (s.caller j).carried (s.pc j)) i
            ((s.caller i).carried ((s.caller i).resume outcome)) j +
          (s.caller i).carried (s.pc i) := by
        rw [← hsum]
        abel

/-- A step after which the call goes on with the same message. -/
theorem Balanced.goesOn (hs : s.Balanced) {bus : InterAgentBus} {pc : Pc}
    (hheld : bus.held = s.bus.held) (hpublishing : pc.publishing = (s.pc i).publishing) :
    (s.settle i bus (.goesOn pc)).Balanced := by
  refine hs.settle ?_
  have hcarried : (s.caller i).carried pc = (s.caller i).carried (s.pc i) := by
    cases s.caller i with
    | tryRecv => exact congrArg Slots.ofSlot hpublishing
    | _ => rfl
  rw [hheld]
  change s.bus.held + (s.caller i).carried pc + 0 = _ + 0
  rw [hcarried]

theorem Balanced.refused (hs : s.Balanced) {message : AgentMessage} {pos : ℕ}
    (hpc : s.pc i = .publishCell message pos) :
    (s.settle i s.bus (.refused message)).Balanced := by
  refine hs.settle ?_
  rw [hpc]
  cases s.caller i <;> rfl

theorem Balanced.empty (hs : s.Balanced) {pos : ℕ} (hpc : s.pc i = .dequeueCell pos) :
    (s.settle i s.bus .empty).Balanced := by
  refine hs.settle ?_
  rw [hpc]
  cases s.caller i <;> rfl

theorem Balanced.publishStore (hs : s.Balanced) (hinv : s.Inv) {message : AgentMessage} {pos : ℕ}
    (hpc : s.pc i = .publishStore message pos) :
    (s.settle i (s.bus.setSequence pos (pos + 1)) (.published pos message)).Balanced := by
  have hknows := hinv.knows i
  rw [hpc] at hknows
  refine hs.settle ?_
  rw [InterAgentBus.held_publish hknows.2.1, hknows.2.2.2, hpc]
  cases s.caller i with
  | tryRecv agentId =>
    change s.bus.held + {message} + 0 + 0 = s.bus.held + {message} + 0
    rw [add_zero]
  | _ =>
    change s.bus.held + {message} + 0 + 0 = s.bus.held + 0 + {message}
    rw [add_zero, add_zero, add_zero]

theorem Balanced.dequeueStore (hs : s.Balanced) (hinv : s.Inv) {message : AgentMessage} {pos : ℕ}
    (hpc : s.pc i = .dequeueStore pos message) :
    (s.settle i (s.bus.setSequence pos (pos + ipcQueueSize)) (.returned pos message)).Balanced := by
  have hknows := hinv.knows i
  rw [hpc] at hknows
  refine hs.settle ?_
  have hheld := InterAgentBus.held_release hknows.2.1
  rw [hknows.2.2] at hheld
  have hbefore : (s.caller i).carried (s.pc i) = 0 := by
    rw [hpc]
    cases s.caller i <;> rfl
  have haccepts : (s.caller i).accepts (.returned pos message) = 0 := rfl
  have hmoves : (s.caller i).carried ((s.caller i).resume (.returned pos message)) +
      (s.caller i).delivers (.returned pos message) = {message} := by
    rw [Call.resume, Call.delivers]
    by_cases hkeeps : (s.caller i).Keeps message
    · rw [if_pos hkeeps, if_pos hkeeps]
      cases s.caller i <;> exact zero_add _
    · rw [if_neg hkeeps, if_neg hkeeps, add_zero]
      cases hcaller : s.caller i with
      | tryRecv agentId => rfl
      | _ =>
        rw [hcaller] at hkeeps
        exact absurd trivial hkeeps
  rw [hbefore, haccepts, add_assoc, hmoves, hheld, add_zero, add_zero]

theorem Balanced.step (hs : s.Balanced) (hinv : s.Inv) {event : BusEvent ι} {s' : BusState ι}
    (hstep : (busMachine ι).step s event = some s') : s'.Balanced := by
  cases event with
  | call i c =>
    simp only [busMachine] at hstep
    split at hstep
    case h_1 hpc =>
      cases hstep
      exact hs.begin hpc c
    case h_2 => cases hstep
  | step i spurious =>
    obtain ⟨⟨bus, outcome⟩, hadvance, rfl⟩ := Option.map_eq_some_iff.mp hstep
    cases hpc : s.pc i with
    | idle =>
      rw [hpc] at hadvance
      cases hadvance
    | publishCell message pos =>
      rw [hpc, InterAgentBus.advance] at hadvance
      split at hadvance
      · cases hadvance
        exact hs.goesOn rfl (congrArg Pc.publishing hpc).symm
      · split at hadvance
        · cases hadvance
          exact hs.refused hpc
        · cases hadvance
          exact hs.goesOn rfl (congrArg Pc.publishing hpc).symm
    | publishExchange message pos =>
      rw [hpc, InterAgentBus.advance] at hadvance
      split at hadvance <;> cases hadvance <;>
        exact hs.goesOn rfl (congrArg Pc.publishing hpc).symm
    | publishWrite message pos =>
      have hknows := hinv.knows i
      rw [hpc] at hadvance hknows
      cases hadvance
      exact hs.goesOn (InterAgentBus.held_setMessage hknows.2.1 message)
        (congrArg Pc.publishing hpc).symm
    | publishStore message pos =>
      rw [hpc] at hadvance
      cases hadvance
      exact hs.publishStore hinv hpc
    | dequeueCell pos =>
      rw [hpc, InterAgentBus.advance] at hadvance
      split at hadvance
      · cases hadvance
        exact hs.goesOn rfl (congrArg Pc.publishing hpc).symm
      · split at hadvance
        · cases hadvance
          exact hs.empty hpc
        · cases hadvance
          exact hs.goesOn rfl (congrArg Pc.publishing hpc).symm
    | dequeueExchange pos =>
      rw [hpc, InterAgentBus.advance] at hadvance
      split at hadvance <;> cases hadvance <;>
        exact hs.goesOn rfl (congrArg Pc.publishing hpc).symm
    | dequeueStore pos message =>
      rw [hpc] at hadvance
      cases hadvance
      exact hs.dequeueStore hinv hpc
    | _ =>
      rw [hpc] at hadvance
      cases hadvance
      exact hs.goesOn rfl (congrArg Pc.publishing hpc).symm

end Balanced

/-! ## What the bus promises -/

/-- What holds of the bus in every state that it reaches: no two threads are between winning and
releasing one cell; a position returns the message that won it, and returns once; what is published
is returned or still in its cell; a publish is refused only while the message one lap earlier is not
released; and nothing is lost or doubled between callers. -/
structure Orderly [Fintype ι] (s : BusState ι) : Prop where
  exclusive : ∀ i j p q, i ≠ j → (s.pc i).owned = some p → (s.pc j).owned = some q →
    cellOf p ≠ cellOf q
  positions : s.won.length = s.bus.enqueuePos
  wrote : ∀ pos message, (pos, message) ∈ s.published → s.won[pos]? = some message
  inOrder : ∀ pos message, (pos, message) ∈ s.returned → s.won[pos]? = some message
  once : (s.returned.map Prod.fst).Nodup
  kept : ∀ pos message, (pos, message) ∈ s.published → (pos, message) ∈ s.returned ∨
    s.bus.sequence pos = pos + 1 ∧ s.bus.message pos = message
  full : ∀ i spurious bus message,
    s.bus.advance spurious (s.pc i) = some (bus, .refused message) →
      ∃ pos, s.pc i = .publishCell message pos ∧ 8192 ≤ pos ∧
        ∀ earlier, (pos - 8192, earlier) ∉ s.returned
  balanced : s.Balanced

section Orderly

variable {s : BusState ι}

theorem Inv.kept (hs : s.Inv) {pos : ℕ} {message : AgentMessage}
    (hmem : (pos, message) ∈ s.published) : (pos, message) ∈ s.returned ∨
      s.bus.sequence pos = pos + 1 ∧ s.bus.message pos = message := by
  obtain ⟨hwon, hkept⟩ := hs.published pos message hmem
  refine hkept.imp_right fun hfull ↦ ⟨hfull, ?_⟩
  have hcell := (hs.cellAt_full hfull).2.2
  exact Option.some.inj (hcell.symm.trans hwon)

/-- Only the read of a sequence number that is behind the position refuses a publish. -/
theorem advance_refused {bus bus' : InterAgentBus} {spurious : Bool} {pc : Pc}
    {message : AgentMessage} (hadvance : bus.advance spurious pc = some (bus', .refused message)) :
    ∃ pos, pc = .publishCell message pos ∧ bus.sequence pos < pos := by
  cases pc with
  | idle => cases hadvance
  | publishCell m pos =>
    rw [InterAgentBus.advance] at hadvance
    split at hadvance
    · cases hadvance
    · split at hadvance
      case isTrue hlt =>
        cases hadvance
        exact ⟨pos, rfl, by omega⟩
      case isFalse => cases hadvance
  | dequeueCell pos =>
    rw [InterAgentBus.advance] at hadvance
    split at hadvance
    · cases hadvance
    · split at hadvance <;> cases hadvance
  | publishExchange m pos =>
    rw [InterAgentBus.advance] at hadvance
    split at hadvance <;> cases hadvance
  | dequeueExchange pos =>
    rw [InterAgentBus.advance] at hadvance
    split at hadvance <;> cases hadvance
  | _ => cases hadvance

theorem orderly_of_inv [Fintype ι] (hs : s.Inv) (hbalanced : s.Balanced) : s.Orderly where
  exclusive := fun _ _ _ _ hne hi hj ↦ hs.cellOf_ne hne hj hi
  positions := hs.length_won
  wrote := fun pos message hmem ↦ (hs.published pos message hmem).1
  inOrder := fun pos message hmem ↦ (hs.returned pos message hmem).1
  once := hs.nodup
  kept := fun _ _ hmem ↦ hs.kept hmem
  full := by
    intro i spurious bus message hadvance
    obtain ⟨pos, hpc, hlt⟩ := advance_refused hadvance
    exact ⟨pos, hpc, hs.full hlt⟩
  balanced := hbalanced

end Orderly

/-- **The bus is a bounded queue of many threads.**  In every interleaving the exchanges that
succeed are the steps of one queue, and every state reached is orderly. -/
theorem linearizable [Fintype ι] [DecidableEq ι] (events : List (BusEvent ι)) (s : BusState ι)
    (hrun : (busMachine ι).run new events = some s) :
    s.Orderly ∧ (fifoMachine AgentMessage ipcQueueSize).run []
      ((busMachine ι).projectRun effect new events) = some s.pending := by
  have hmeets : (busMachine ι).Meets (fun _ _ ↦ True) new events :=
    Machine.meets_of_forall fun _ _ ↦ trivial
  have hkeeps : ∀ (s : BusState ι) (event : BusEvent ι) (s' : BusState ι), s.Inv ∧ s.Balanced →
      True → (busMachine ι).step s event = some s' → s'.Inv ∧ s'.Balanced :=
    fun _ _ _ hs _ hstep ↦ ⟨hs.1.step hstep, hs.2.step hs.1 hstep⟩
  have hboth := Machine.inv_of_run hkeeps ⟨inv_new, balanced_new⟩ hmeets hrun
  exact ⟨orderly_of_inv hboth.1 hboth.2, (projects ι).run inv_new hrun⟩

/-- A message for the agent 2. -/
def hello : AgentMessage := ⟨1, 2, 7, 0, 0⟩

/-- A publish, a receive for another agent that publishes the message again, and one for
its agent. -/
def receiveTwice : List (BusEvent Bool) :=
  [.call true (.publish hello)] ++ List.replicate 5 (.step true false) ++
    [.call false (.tryRecv 3)] ++ List.replicate 10 (.step false false) ++
    [.call true (.tryRecv 2)] ++ List.replicate 5 (.step true false)

theorem linearizable_receiveTwice :
    ∃ s, (busMachine Bool).run new receiveTwice = some s ∧ s.Orderly ∧
      (fifoMachine AgentMessage ipcQueueSize).run []
        ((busMachine Bool).projectRun effect new receiveTwice) = some s.pending := by
  have hsome : ((busMachine Bool).run new receiveTwice).isSome = true := by decide +kernel
  obtain ⟨s, hrun⟩ := Option.isSome_iff_exists.mp hsome
  exact ⟨s, hrun, linearizable receiveTwice s hrun⟩

end BusState

end SoulSystem.Ipc
