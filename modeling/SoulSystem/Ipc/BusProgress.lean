import SoulSystem.Ipc.BusSafety

/-!
# Progress on the bus

Whatever the other threads have left undone, a publish or a dequeue that goes on alone is done in
five steps: the position that it reads is the current one, so its exchange succeeds unless the ring
is full or empty.  A receive is not: when it has to publish a message again and the ring is full, it
waits for another thread.
-/

namespace SoulSystem.Ipc

open Library List Function

variable {ι : Type}

namespace BusState

variable {s : BusState ι} {i : ι} {message : AgentMessage} {n : ℕ}

/-! ## The current positions -/

/-- The cell of the next publish is free, or was not released yet. -/
theorem Inv.sequence_enqueuePos_le (hs : s.Inv) :
    s.bus.sequence s.bus.enqueuePos ≤ s.bus.enqueuePos := by
  obtain ⟨current, hcell, hat⟩ := hs.cell s.bus.enqueuePos
  rw [← s.bus.sequence_congr hcell]
  rcases hat.content with ⟨hfree, -⟩ | ⟨hfull, hlt, -⟩
  · rw [hfree]
    by_contra hbehind
    have hlap := add_size_le_of_lt hcell.symm (Nat.lt_of_not_le hbehind)
    have hlt := hat.lt_dequeue
    have hle := hs.dequeue_le
    omega
  · rw [hfull]
    exact hlt

/-- The cell of the next dequeue has its message, or it was not published yet. -/
theorem Inv.sequence_dequeuePos_le (hs : s.Inv) :
    s.bus.sequence s.bus.dequeuePos ≤ s.bus.dequeuePos + 1 := by
  obtain ⟨current, hcell, hat⟩ := hs.cell s.bus.dequeuePos
  have hle : current ≤ s.bus.dequeuePos := by
    by_contra hbehind
    have hlap := add_size_le_of_lt hcell.symm (Nat.lt_of_not_le hbehind)
    have hlt := hat.lt_dequeue
    omega
  rw [← s.bus.sequence_congr hcell]
  rcases hat.content with ⟨hfree, -⟩ | ⟨hfull, -, -⟩ <;> omega

variable [DecidableEq ι]

/-! ## One thread alone -/

theorem settle_pc (s : BusState ι) (i : ι) (bus : InterAgentBus) (outcome : Outcome) :
    (s.settle i bus outcome).pc i = (s.caller i).resume outcome :=
  update_self ..

theorem run_step {pc : Pc} {bus : InterAgentBus} {outcome : Outcome} {events : List (BusEvent ι)}
    (hpc : s.pc i = pc) (hadvance : s.bus.advance false pc = some (bus, outcome)) :
    (busMachine ι).run s (.step i false :: events) =
      (busMachine ι).run (s.settle i bus outcome) events := by
  have hstep : (busMachine ι).step s (.step i false) = some (s.settle i bus outcome) := by
    simp only [busMachine, hpc, hadvance, Option.map_some]
  rw [Machine.run, hstep, Option.bind_some]

/-- The call of the thread returns within so many steps of its own. -/
def DoneWithin (s : BusState ι) (i : ι) (n : ℕ) : Prop :=
  ∃ k ≤ n, ∃ s', (busMachine ι).run s (replicate k (.step i false)) = some s' ∧ s'.pc i = .idle

theorem doneWithin_of_idle (hidle : s.pc i = .idle) : s.DoneWithin i n :=
  ⟨0, Nat.zero_le n, s, rfl, hidle⟩

theorem DoneWithin.step {pc : Pc} {bus : InterAgentBus} {outcome : Outcome} (hpc : s.pc i = pc)
    (hadvance : s.bus.advance false pc = some (bus, outcome))
    (hnext : (s.settle i bus outcome).DoneWithin i n) : s.DoneWithin i (n + 1) := by
  obtain ⟨k, hk, s', hrun, hidle⟩ := hnext
  refine ⟨k + 1, Nat.succ_le_succ hk, s', ?_, hidle⟩
  rw [replicate_succ, run_step hpc hadvance]
  exact hrun

theorem Inv.doneWithin_publish (hs : s.Inv) (hcaller : ∀ agentId, s.caller i ≠ .tryRecv agentId)
    (hpc : s.pc i = .publishBegin message) : s.DoneWithin i 5 := by
  refine .step hpc rfl ?_
  rcases hs.sequence_enqueuePos_le.lt_or_eq with hlt | heq
  · have hcell : s.bus.advance false (.publishCell message s.bus.enqueuePos) =
        some (s.bus, .refused message) := by
      rw [InterAgentBus.advance, if_neg (by omega), if_pos (by omega)]
    refine .step (settle_pc ..) hcell (doneWithin_of_idle ((settle_pc ..).trans ?_))
    change (s.caller i).resume (.refused message) = .idle
    cases hcall : s.caller i with
    | tryRecv agentId => exact absurd hcall (hcaller agentId)
    | publish _ => rfl
    | dequeue => rfl
  · have hcell : s.bus.advance false (.publishCell message s.bus.enqueuePos) =
        some (s.bus, .goesOn (.publishExchange message s.bus.enqueuePos)) := by
      rw [InterAgentBus.advance]
      exact if_pos (by omega)
    refine .step (settle_pc ..) hcell (.step (settle_pc ..) (if_pos ⟨rfl, rfl⟩) ?_)
    refine .step (settle_pc ..) rfl (.step (settle_pc ..) rfl ?_)
    exact doneWithin_of_idle (settle_pc ..)

theorem Inv.doneWithin_dequeue (hs : s.Inv) (hcaller : s.caller i = .dequeue)
    (hpc : s.pc i = .dequeueBegin) : s.DoneWithin i 5 := by
  refine .step hpc rfl ?_
  rcases hs.sequence_dequeuePos_le.lt_or_eq with hlt | heq
  · have hcell : s.bus.advance false (.dequeueCell s.bus.dequeuePos) = some (s.bus, .empty) := by
      rw [InterAgentBus.advance, if_neg (by omega), if_pos (by omega)]
    exact .step (settle_pc ..) hcell (doneWithin_of_idle (settle_pc ..))
  · have hcell : s.bus.advance false (.dequeueCell s.bus.dequeuePos) =
        some (s.bus, .goesOn (.dequeueExchange s.bus.dequeuePos)) := by
      rw [InterAgentBus.advance]
      exact if_pos (by omega)
    refine .step (settle_pc ..) hcell (.step (settle_pc ..) (if_pos ⟨rfl, rfl⟩) ?_)
    refine .step (settle_pc ..) rfl (.step (settle_pc ..) rfl ?_)
    refine doneWithin_of_idle ((settle_pc ..).trans ?_)
    change (s.caller i).resume _ = .idle
    rw [hcaller]
    rfl

/-- A publish that has won its position and was left there. -/
def leftBehind : List (BusEvent Bool) :=
  .call true (.publish .empty) :: replicate 3 (.step true false)

/-- Where a receive stands that tries to publish a message again. -/
def Retries (s : BusState ι) (i : ι) : Prop :=
  ∃ message, s.pc i = .publishBegin message ∨ s.pc i = .publishCell message s.bus.enqueuePos

/-- **A receive can wait for others.**  With a message to publish again on a full ring, no number of
its own steps ends the call. -/
theorem tryRecv_waits {agentId : UInt32} (hcaller : s.caller i = .tryRecv agentId)
    (hretries : s.Retries i) (hfull : s.bus.sequence s.bus.enqueuePos < s.bus.enqueuePos)
    (steps : ℕ) : ¬ s.DoneWithin i steps := by
  rintro ⟨k, -, s', hrun, hidle⟩
  clear steps
  induction k generalizing s with
  | zero =>
    cases hrun
    obtain ⟨message, hpc | hpc⟩ := hretries <;> cases hpc.symm.trans hidle
  | succ k ih =>
    rw [replicate_succ] at hrun
    obtain ⟨message, hpc | hpc⟩ := hretries
    · rw [run_step hpc rfl] at hrun
      exact @ih (s.settle i s.bus _) hcaller ⟨message, .inr (settle_pc ..)⟩ hfull hrun
    · have hcell : s.bus.advance false (.publishCell message s.bus.enqueuePos) =
          some (s.bus, .refused message) := by
        rw [InterAgentBus.advance, if_neg (by omega), if_pos (by omega)]
      rw [run_step hpc hcell] at hrun
      have hagain : (s.caller i).resume (.refused message) = .publishBegin message := by
        rw [hcaller]
        rfl
      exact @ih (s.settle i s.bus _) hcaller ⟨message, .inl ((settle_pc ..).trans hagain)⟩ hfull
        hrun

/-- A ring whose first message was taken and not released, after one lap. -/
def fullRing : BusState Bool :=
  { (new : BusState Bool) with
    bus := { InterAgentBus.new with enqueuePos := 8192, dequeuePos := 1 }
    pc := fun _ ↦ .publishBegin .empty
    caller := fun _ ↦ .tryRecv 2 }

theorem tryRecv_waits_fullRing : ¬ fullRing.DoneWithin true 1000 :=
  tryRecv_waits rfl ⟨_, .inl rfl⟩ (by decide) 1000

end BusState

end SoulSystem.Ipc
