import SoulSystem.Scheduler.QueueOwner
import Mathlib.Data.Fintype.BigOperators

/-!
# The agent scheduler

One deque for each core, any number of threads that submit to them, and workers that pop from the
deque of their core, steal from their peers and execute what they get.  Seen from one core the
scheduler is the deque of many threads, so that nothing is lost or executed twice in the runs in
which each of these deques is used safely.
-/

namespace SoulSystem.Scheduler

open Library Function

/-! ## Topology -/

/-- The sockets of the cores, and whether memory is not uniform. -/
structure HardwareManifest (cores : ℕ) where
  coreToSocketMap : Fin cores → ℕ
  numa : Bool

namespace HardwareManifest

variable {cores : ℕ}

def intraSocketPeers (manifest : HardwareManifest cores) (core : Fin cores) : List (Fin cores) :=
  (List.finRange cores).filter fun peer ↦
    peer ≠ core ∧ manifest.coreToSocketMap peer = manifest.coreToSocketMap core

def interSocketPeers (manifest : HardwareManifest cores) (core : Fin cores) : List (Fin cores) :=
  (List.finRange cores).filter fun peer ↦
    peer ≠ core ∧ manifest.coreToSocketMap peer ≠ manifest.coreToSocketMap core

end HardwareManifest

/-! ## Threads -/

/-- Where a thread stands in `submit_to` or in the loop of a worker. -/
inductive Control (cores : ℕ) (τ : Type) where
  | outside
  | submitting (core : Fin cores) (pc : Pc τ)
  | loop (self : Fin cores)
  | popping (self : Fin cores) (pc : Pc τ)
  | seeking (self : Fin cores) (peers : List (Fin cores)) (intra : Bool)
  | stealing (self peer : Fin cores) (peers : List (Fin cores)) (intra : Bool) (pc : Pc τ)
  | executing (self : Fin cores) (task : τ)
  deriving DecidableEq

/-- The deques of the cores, the workers that are spawned and have not started, where each thread
stands, and what was accepted by and returned from each deque and executed so far. -/
structure AgentScheduler (cores : ℕ) (ι τ : Type) where
  queue : Fin cores → LockFreeTaskDeque τ
  running : Bool
  spawned : List (Fin cores)
  control : ι → Control cores τ
  accepted : Fin cores → Multiset τ
  returned : Fin cores → Multiset τ
  executed : Multiset τ

inductive SchedulerEvent (cores : ℕ) (ι τ : Type) where
  | submitTo (i : ι) (core : ℕ) (task : τ)
  | launch
  | start (i : ι)
  | shutdown
  | step (i : ι)

variable {cores : ℕ} {ι τ : Type}

namespace AgentScheduler

def new : AgentScheduler cores ι τ where
  queue := fun _ ↦ LockFreeTaskDeque.new
  running := false
  spawned := []
  control := fun _ ↦ .outside
  accepted := fun _ ↦ 0
  returned := fun _ ↦ 0
  executed := 0

/-- How a call of `push` in `submit_to` goes on. -/
def resumeSubmit (core : Fin cores) : Outcome τ → Control cores τ
  | .goesOn pc => .submitting core pc
  | _ => .outside

/-- How a worker goes on after a step of its pop. -/
def resumePop (manifest : HardwareManifest cores) (self : Fin cores) : Outcome τ → Control cores τ
  | .goesOn pc => .popping self pc
  | .returned (some task) => .executing self task
  | _ => .seeking self (manifest.intraSocketPeers self) true

/-- How a worker goes on after a step of a steal. -/
def resumeSteal (self peer : Fin cores) (peers : List (Fin cores)) (intra : Bool) :
    Outcome τ → Control cores τ
  | .goesOn pc => .stealing self peer peers intra pc
  | .returned (some task) => .executing self task
  | _ => .seeking self peers intra

/-- The next peer of the socket, then those of the others unless memory is uniform. -/
def nextPeer (manifest : HardwareManifest cores) (self : Fin cores) (intra : Bool) :
    List (Fin cores) → Control cores τ
  | peer :: peers => .stealing self peer peers intra (.begin .steal)
  | [] =>
    if intra && manifest.numa then .seeking self (manifest.interSocketPeers self) false
    else .loop self

variable [DecidableEq ι]

def moveTo (s : AgentScheduler cores ι τ) (i : ι) (control : Control cores τ) :
    AgentScheduler cores ι τ :=
  { s with control := update s.control i control }

theorem moveTo_control (s : AgentScheduler cores ι τ) (i : ι) (control : Control cores τ) :
    (s.moveTo i control).control = update s.control i control := rfl

/-- A step of a call on the deque of a core. -/
def stepQueue (s : AgentScheduler cores ι τ) (i : ι) (core : Fin cores) (pc : Pc τ)
    (resume : Outcome τ → Control cores τ) : Option (AgentScheduler cores ι τ) :=
  ((s.queue core).advance pc).map fun next ↦
    { s with
      queue := update s.queue core next.1
      control := update s.control i (resume next.2)
      accepted := update s.accepted core (s.accepted core + next.2.acceptedTasks)
      returned := update s.returned core (s.returned core + next.2.returnedTasks) }

end AgentScheduler

/-- The scheduler, step by step. -/
def schedulerMachine (manifest : HardwareManifest cores) (ι τ : Type) [DecidableEq ι] :
    Machine (AgentScheduler cores ι τ) (SchedulerEvent cores ι τ) where
  step := fun s event ↦
    match event with
    | .submitTo i core task =>
      match s.control i with
      | .outside =>
        if hcore : core < cores then
          some (s.moveTo i (.submitting ⟨core, hcore⟩ (.begin (.push task))))
        else some s
      | _ => none
    | .launch =>
      if s.running then some s
      else some { s with running := true, spawned := s.spawned ++ List.finRange cores }
    | .start i =>
      match s.control i, s.spawned with
      | .outside, self :: spawned => some { s.moveTo i (.loop self) with spawned := spawned }
      | _, _ => none
    | .shutdown => some { s with running := false }
    | .step i =>
      match s.control i with
      | .outside => none
      | .submitting core pc => s.stepQueue i core pc (AgentScheduler.resumeSubmit core)
      | .loop self =>
        some (s.moveTo i (if s.running then .popping self (.begin .pop) else .outside))
      | .popping self pc => s.stepQueue i self pc (AgentScheduler.resumePop manifest self)
      | .seeking self peers intra =>
        some (s.moveTo i (AgentScheduler.nextPeer manifest self intra peers))
      | .stealing self peer peers intra pc =>
        s.stepQueue i peer pc (AgentScheduler.resumeSteal self peer peers intra)
      | .executing self task =>
        some { s.moveTo i (.loop self) with executed := s.executed + {task} }

/-! ## One core of the scheduler -/

/-- Where a thread stands in a call on the deque of a core. -/
def Control.pcAt (core : Fin cores) : Control cores τ → Pc τ
  | .submitting core' pc => if core' = core then pc else .idle
  | .popping self pc => if self = core then pc else .idle
  | .stealing _ peer _ _ pc => if peer = core then pc else .idle
  | _ => .idle

namespace AgentScheduler

/-- The deque of a core with its threads. -/
def view (core : Fin cores) (s : AgentScheduler cores ι τ) : DequeState ι τ where
  deque := s.queue core
  pc := fun i ↦ (s.control i).pcAt core
  accepted := s.accepted core
  returned := s.returned core

/-- What an event of the scheduler is to the deque of a core. -/
def project (core : Fin cores) (s : AgentScheduler cores ι τ) :
    SchedulerEvent cores ι τ → Option (DequeEvent ι τ)
  | .submitTo i core' task =>
    match s.control i with
    | .outside => if core' = core then some (.call i (.push task)) else none
    | _ => none
  | .step i =>
    match s.control i with
    | .submitting core' _ => if core' = core then some (.step i) else none
    | .loop self => if s.running ∧ self = core then some (.call i .pop) else none
    | .popping self _ => if self = core then some (.step i) else none
    | .seeking _ (peer :: _) _ => if peer = core then some (.call i .steal) else none
    | .stealing _ peer _ _ _ => if peer = core then some (.step i) else none
    | _ => none
  | _ => none

variable [DecidableEq ι] {manifest : HardwareManifest cores} {core : Fin cores}
  {s s' : AgentScheduler cores ι τ} {i : ι}

theorem pcAt_update (control : ι → Control cores τ) (i : ι) (new : Control cores τ) :
    (fun j ↦ (update control i new j).pcAt core) =
      update (fun j ↦ (control j).pcAt core) i (new.pcAt core) := by
  funext j
  by_cases hsame : j = i
  · rw [hsame, update_self, update_self]
  · rw [update_of_ne hsame, update_of_ne hsame]

/-- A move of a thread that is in no call on the deque of the core before and after. -/
theorem view_moveTo_idle {new : Control cores τ} (hold : (s.control i).pcAt core = .idle)
    (hnew : new.pcAt core = .idle) : (s.moveTo i new).view core = s.view core := by
  rw [view, moveTo, pcAt_update, hnew, ← hold, update_eq_self]
  rfl

/-- A move that begins a call on the deque of the core. -/
theorem view_moveTo_call {new : Control cores τ} {c : Call τ}
    (hold : (s.control i).pcAt core = .idle) (hnew : new.pcAt core = .begin c) :
    (dequeMachine ι τ).step (s.view core) (.call i c) = some ((s.moveTo i new).view core) := by
  have hidle : (s.view core).pc i = .idle := hold
  simp only [dequeMachine, hidle]
  rw [view, view, moveTo, pcAt_update, hnew]
  rfl

/-- How a call on the deque of one core goes on is nothing to the others. -/
def Resumes (core : Fin cores) (resume : Outcome τ → Control cores τ) : Prop :=
  ∀ outcome core', (resume outcome).pcAt core' = if core = core' then outcome.next else .idle

theorem resumes_submit (core : Fin cores) : Resumes core (resumeSubmit (τ := τ) core) := by
  intro outcome core'
  cases outcome <;> simp [resumeSubmit, Control.pcAt, Outcome.next]

theorem resumes_pop (self : Fin cores) : Resumes self (resumePop (τ := τ) manifest self) := by
  intro outcome core'
  cases outcome with
  | returned task => cases task <;> simp [resumePop, Control.pcAt, Outcome.next]
  | _ => simp [resumePop, Control.pcAt, Outcome.next]

theorem resumes_steal (self peer : Fin cores) (peers : List (Fin cores)) (intra : Bool) :
    Resumes peer (resumeSteal (τ := τ) self peer peers intra) := by
  intro outcome core'
  cases outcome with
  | returned task => cases task <;> simp [resumeSteal, Control.pcAt, Outcome.next]
  | _ => simp [resumeSteal, Control.pcAt, Outcome.next]

/-- A step on the deque of the core. -/
theorem view_stepQueue {pc : Pc τ} {resume : Outcome τ → Control cores τ}
    (hpc : (s.control i).pcAt core = pc) (hresume : Resumes core resume)
    (hstep : s.stepQueue i core pc resume = some s') :
    (dequeMachine ι τ).step (s.view core) (.step i) = some (s'.view core) := by
  obtain ⟨⟨d, outcome⟩, hadvance, rfl⟩ := Option.map_eq_some_iff.mp hstep
  have hpc' : (s.view core).pc i = pc := hpc
  have hdeque : (s.view core).deque = s.queue core := rfl
  have hnext := hresume outcome core
  rw [if_pos rfl] at hnext
  simp only [dequeMachine, hpc', hdeque, hadvance, Option.map_some, DequeState.settle_eq]
  simp only [view, pcAt_update, hnext, update_self]

/-- A step on the deque of another core. -/
theorem view_stepQueue_of_ne {core' : Fin cores} {pc : Pc τ} {resume : Outcome τ → Control cores τ}
    (hne : core' ≠ core) (hidle : (s.control i).pcAt core = .idle) (hresume : Resumes core' resume)
    (hstep : s.stepQueue i core' pc resume = some s') : s'.view core = s.view core := by
  obtain ⟨⟨d, outcome⟩, hadvance, rfl⟩ := Option.map_eq_some_iff.mp hstep
  have hnext := hresume outcome core
  rw [if_neg hne] at hnext
  rw [view, pcAt_update, hnext, ← hidle, update_eq_self]
  simp only [update_of_ne hne.symm]
  rfl

/-- A step of the scheduler is a step on the deque of a core, or nothing to it. -/
theorem view_step (manifest : HardwareManifest cores) (core : Fin cores)
    (s : AgentScheduler cores ι τ) (event : SchedulerEvent cores ι τ) (s' : AgentScheduler cores ι τ)
    (hstep : (schedulerMachine manifest ι τ).step s event = some s') :
    (dequeMachine ι τ).Follows (s.view core) (s.project core event) (s'.view core) := by
  cases event with
  | submitTo i core' task =>
    simp only [schedulerMachine] at hstep
    cases hcontrol : s.control i with
    | outside =>
      have hidle : (s.control i).pcAt core = .idle := congrArg (Control.pcAt core) hcontrol
      simp only [hcontrol] at hstep
      simp only [project, hcontrol]
      by_cases hlt : core' < cores
      · rw [dif_pos hlt] at hstep
        cases hstep
        by_cases hsame : core' = core
        · rw [if_pos hsame]
          exact view_moveTo_call hidle (if_pos (Fin.ext hsame))
        · rw [if_neg hsame]
          exact view_moveTo_idle hidle (if_neg fun heq ↦ hsame (congrArg Fin.val heq))
      · rw [dif_neg hlt] at hstep
        cases hstep
        have hother : ¬ core' = core.val := fun heq ↦ hlt (heq ▸ core.isLt)
        rw [if_neg hother]
        rfl
    | _ =>
      rw [hcontrol] at hstep
      cases hstep
  | launch =>
    simp only [schedulerMachine] at hstep
    split at hstep <;> cases hstep <;> rfl
  | start i =>
    simp only [schedulerMachine] at hstep
    cases hcontrol : s.control i with
    | outside =>
      cases hspawned : s.spawned with
      | nil =>
        rw [hcontrol, hspawned] at hstep
        cases hstep
      | cons self spawned =>
        rw [hcontrol, hspawned] at hstep
        cases hstep
        have hidle : (s.control i).pcAt core = .idle := congrArg (Control.pcAt core) hcontrol
        exact (view_moveTo_idle hidle rfl : (s.moveTo i (.loop self)).view core = s.view core)
    | _ =>
      rw [hcontrol] at hstep
      cases hstep
  | shutdown =>
    cases hstep
    rfl
  | step i =>
    simp only [schedulerMachine] at hstep
    cases hcontrol : s.control i with
    | outside =>
      rw [hcontrol] at hstep
      cases hstep
    | submitting core' pc =>
      simp only [hcontrol] at hstep
      simp only [project, hcontrol]
      by_cases hsame : core' = core
      · subst hsame
        rw [if_pos rfl]
        exact view_stepQueue (by rw [hcontrol, Control.pcAt, if_pos rfl])
          (resumes_submit core') hstep
      · rw [if_neg hsame]
        exact view_stepQueue_of_ne hsame (by rw [hcontrol, Control.pcAt, if_neg hsame])
          (resumes_submit core') hstep
    | loop self =>
      have hidle : (s.control i).pcAt core = .idle := congrArg (Control.pcAt core) hcontrol
      simp only [hcontrol] at hstep
      simp only [project, hcontrol]
      cases hstep
      by_cases hcall : s.running ∧ self = core
      · rw [if_pos hcall]
        exact view_moveTo_call hidle (by rw [if_pos hcall.1, Control.pcAt, if_pos hcall.2])
      · rw [if_neg hcall]
        refine view_moveTo_idle hidle ?_
        by_cases hrunning : s.running
        · rw [if_pos hrunning, Control.pcAt, if_neg fun heq ↦ hcall ⟨hrunning, heq⟩]
        · rw [if_neg hrunning]
          rfl
    | popping self pc =>
      simp only [hcontrol] at hstep
      simp only [project, hcontrol]
      by_cases hsame : self = core
      · subst hsame
        rw [if_pos rfl]
        exact view_stepQueue (by rw [hcontrol, Control.pcAt, if_pos rfl]) (resumes_pop self) hstep
      · rw [if_neg hsame]
        exact view_stepQueue_of_ne hsame (by rw [hcontrol, Control.pcAt, if_neg hsame])
          (resumes_pop self) hstep
    | seeking self peers intra =>
      have hidle : (s.control i).pcAt core = .idle := congrArg (Control.pcAt core) hcontrol
      simp only [hcontrol] at hstep
      simp only [project, hcontrol]
      cases hstep
      cases peers with
      | nil =>
        refine view_moveTo_idle hidle ?_
        rw [nextPeer]
        split <;> rfl
      | cons peer peers =>
        simp only [nextPeer]
        by_cases hsame : peer = core
        · rw [if_pos hsame]
          exact view_moveTo_call hidle (if_pos hsame)
        · rw [if_neg hsame]
          exact view_moveTo_idle hidle (if_neg hsame)
    | stealing self peer peers intra pc =>
      simp only [hcontrol] at hstep
      simp only [project, hcontrol]
      by_cases hsame : peer = core
      · subst hsame
        rw [if_pos rfl]
        exact view_stepQueue (by rw [hcontrol, Control.pcAt, if_pos rfl])
          (resumes_steal self peer peers intra) hstep
      · rw [if_neg hsame]
        exact view_stepQueue_of_ne hsame (by rw [hcontrol, Control.pcAt, if_neg hsame])
          (resumes_steal self peer peers intra) hstep
    | executing self task =>
      have hidle : (s.control i).pcAt core = .idle := congrArg (Control.pcAt core) hcontrol
      simp only [hcontrol] at hstep
      cases hstep
      simp only [project, hcontrol]
      exact (view_moveTo_idle hidle rfl : (s.moveTo i (.loop self)).view core = s.view core)

/-- **Each core of the scheduler is a deque of many threads.** -/
theorem projects (manifest : HardwareManifest cores) (core : Fin cores) :
    Machine.Projects (schedulerMachine manifest ι τ) (dequeMachine ι τ) (fun _ ↦ True) (view core)
      (project core) where
  inv := fun _ _ _ _ _ ↦ trivial
  step := fun s event s' _ hstep ↦ view_step manifest core s event s' hstep

end AgentScheduler

/-! ## No task lost, none executed twice -/

/-- The thread is in no call on a deque and holds no task. -/
def Control.Resting : Control cores τ → Prop
  | .outside | .loop _ | .seeking _ _ _ => True
  | _ => False

/-- The task that a worker has and has not executed. -/
def Control.hand : Control cores τ → Multiset τ
  | .executing _ task => {task}
  | _ => 0

/-- The thread is in a push. -/
def Pc.Pushing : Pc τ → Prop
  | .pushBegin _ | .pushHead _ _ | .pushWrite _ _ _ | .pushStore _ _ => True
  | _ => False

namespace AgentScheduler

/-- **No loss.**  What was executed was accepted, and no more often; and when no call is in flight
what was accepted and not executed is held by the deque of a core. -/
structure NoLoss (s : AgentScheduler cores ι τ) : Prop where
  atMostOnce : s.executed ≤ ∑ core, s.accepted core
  balance : (∀ i, (s.control i).Resting) →
    ∑ core, s.accepted core = s.executed + ∑ core, (s.view core).held

/-- The event is a safe step for the deque of each core. -/
def Safe (s : AgentScheduler cores ι τ) (event : SchedulerEvent cores ι τ) : Prop :=
  ∀ core event', s.project core event = some event' → (s.view core).Safe event'

/-- What the deques have returned is executed or with a worker. -/
structure Fetched [Fintype ι] (s : AgentScheduler cores ι τ) : Prop where
  pushing : ∀ i core pc, s.control i = .submitting core pc → pc.Pushing
  balance : ∑ core, s.returned core = s.executed + ∑ i, (s.control i).hand

theorem advance_pushing {d d' : LockFreeTaskDeque τ} {pc : Pc τ} {outcome : Outcome τ}
    (hpushing : pc.Pushing) (hadvance : d.advance pc = some (d', outcome)) :
    outcome.returnedTasks = 0 ∧ ∀ new, outcome = .goesOn new → new.Pushing := by
  cases pc with
  | pushBegin task =>
    cases hadvance
    exact ⟨rfl, fun new hnew ↦ Outcome.goesOn.inj hnew ▸ trivial⟩
  | pushHead task t =>
    rw [LockFreeTaskDeque.advance] at hadvance
    split at hadvance
    · cases hadvance
      exact ⟨rfl, fun new hnew ↦ by cases hnew⟩
    · cases hadvance
      exact ⟨rfl, fun new hnew ↦ Outcome.goesOn.inj hnew ▸ trivial⟩
  | pushWrite task t h =>
    cases hadvance
    exact ⟨rfl, fun new hnew ↦ Outcome.goesOn.inj hnew ▸ trivial⟩
  | pushStore task t =>
    cases hadvance
    exact ⟨rfl, fun new hnew ↦ by cases hnew⟩
  | _ => exact hpushing.elim

section Fetched

variable [Fintype ι] [DecidableEq ι] {manifest : HardwareManifest cores}
  {s s' : AgentScheduler cores ι τ} {i : ι}

theorem sum_hand_update (control : ι → Control cores τ) (i : ι) (new : Control cores τ) :
    ∑ j, (update control i new j).hand + (control i).hand =
      ∑ j, (control j).hand + new.hand :=
  Slots.sum_comp_update_add (Finset.mem_univ i) Control.hand control new

theorem Fetched.moveTo (hs : s.Fetched) {new : Control cores τ} (hold : (s.control i).hand = 0)
    (hnew : new.hand = 0) (hpushing : ∀ core pc, new = .submitting core pc → pc.Pushing) :
    (s.moveTo i new).Fetched where
  pushing := by
    intro j core pc hj
    by_cases hsame : j = i
    · rw [moveTo_control, hsame, update_self] at hj
      exact hpushing core pc hj
    · rw [moveTo_control, update_of_ne hsame] at hj
      exact hs.pushing j core pc hj
  balance := by
    have hsum := sum_hand_update s.control i new
    rw [hold, hnew, add_zero, add_zero] at hsum
    exact hs.balance.trans (congrArg _ hsum.symm)

theorem Fetched.stepQueue (hs : s.Fetched) {core : Fin cores} {pc : Pc τ}
    {resume : Outcome τ → Control cores τ} (hold : (s.control i).hand = 0)
    (hresume : ∀ d outcome, (s.queue core).advance pc = some (d, outcome) →
      (resume outcome).hand = outcome.returnedTasks ∧
        ∀ core' pc', resume outcome = .submitting core' pc' → pc'.Pushing)
    (hstep : s.stepQueue i core pc resume = some s') : s'.Fetched := by
  obtain ⟨⟨d, outcome⟩, hadvance, rfl⟩ := Option.map_eq_some_iff.mp hstep
  obtain ⟨hhand, hpushing⟩ := hresume d outcome hadvance
  refine ⟨fun j core' pc' hj ↦ ?_, ?_⟩
  · dsimp only at hj
    by_cases hsame : j = i
    · rw [hsame, update_self] at hj
      exact hpushing core' pc' hj
    · rw [update_of_ne hsame] at hj
      exact hs.pushing j core' pc' hj
  · have hhands := sum_hand_update s.control i (resume outcome)
    have hreturned := Slots.sum_update_add (Finset.mem_univ core) s.returned
      (s.returned core + outcome.returnedTasks)
    rw [hold, hhand, add_zero] at hhands
    apply add_right_cancel (b := s.returned core)
    refine hreturned.trans ?_
    dsimp only
    rw [hhands, hs.balance]
    abel

omit [DecidableEq ι] in
theorem fetched_new : (new : AgentScheduler cores ι τ).Fetched where
  pushing := fun _ _ _ hcontrol ↦ nomatch hcontrol
  balance := by
    have hreturned : ∑ core, (new : AgentScheduler cores ι τ).returned core = 0 :=
      Finset.sum_eq_zero fun _ _ ↦ rfl
    have hhands : ∑ i, ((new : AgentScheduler cores ι τ).control i).hand = 0 :=
      Finset.sum_eq_zero fun _ _ ↦ rfl
    rw [hreturned, hhands]
    rfl

theorem Fetched.submit (hs : s.Fetched) {core : Fin cores} {pc : Pc τ}
    (hcontrol : s.control i = .submitting core pc)
    (hstep : s.stepQueue i core pc (resumeSubmit core) = some s') : s'.Fetched := by
  refine hs.stepQueue (congrArg Control.hand hcontrol) (fun d outcome hadvance ↦ ?_) hstep
  obtain ⟨hreturned, hpushing⟩ := advance_pushing (hs.pushing i core pc hcontrol) hadvance
  rw [hreturned]
  cases outcome with
  | goesOn new =>
    refine ⟨rfl, fun core' pc' hnew ↦ ?_⟩
    cases hnew
    exact hpushing _ rfl
  | _ => exact ⟨rfl, fun _ _ hnew ↦ nomatch hnew⟩

theorem Fetched.pop (hs : s.Fetched) {self : Fin cores} {pc : Pc τ}
    (hcontrol : s.control i = .popping self pc)
    (hstep : s.stepQueue i self pc (resumePop manifest self) = some s') : s'.Fetched := by
  refine hs.stepQueue (congrArg Control.hand hcontrol) (fun d outcome hadvance ↦ ?_) hstep
  cases outcome with
  | returned task => cases task <;> exact ⟨rfl, fun _ _ hnew ↦ nomatch hnew⟩
  | _ => exact ⟨rfl, fun _ _ hnew ↦ nomatch hnew⟩

theorem Fetched.steal (hs : s.Fetched) {self peer : Fin cores} {peers : List (Fin cores)}
    {intra : Bool} {pc : Pc τ} (hcontrol : s.control i = .stealing self peer peers intra pc)
    (hstep : s.stepQueue i peer pc (resumeSteal self peer peers intra) = some s') : s'.Fetched := by
  refine hs.stepQueue (congrArg Control.hand hcontrol) (fun d outcome hadvance ↦ ?_) hstep
  cases outcome with
  | returned task => cases task <;> exact ⟨rfl, fun _ _ hnew ↦ nomatch hnew⟩
  | _ => exact ⟨rfl, fun _ _ hnew ↦ nomatch hnew⟩

theorem Fetched.step (hs : s.Fetched) {event : SchedulerEvent cores ι τ}
    (hstep : (schedulerMachine manifest ι τ).step s event = some s') : s'.Fetched := by
  cases event with
  | submitTo i core task =>
    simp only [schedulerMachine] at hstep
    cases hcontrol : s.control i with
    | outside =>
      simp only [hcontrol] at hstep
      split at hstep
      · cases hstep
        refine hs.moveTo (congrArg Control.hand hcontrol) rfl fun core' pc hnew ↦ ?_
        cases hnew
        trivial
      · cases hstep
        exact hs
    | _ =>
      rw [hcontrol] at hstep
      cases hstep
  | launch =>
    simp only [schedulerMachine] at hstep
    split at hstep <;> cases hstep
    · exact hs
    · exact ⟨hs.pushing, hs.balance⟩
  | start i =>
    simp only [schedulerMachine] at hstep
    cases hcontrol : s.control i with
    | outside =>
      cases hspawned : s.spawned with
      | nil =>
        rw [hcontrol, hspawned] at hstep
        cases hstep
      | cons self spawned =>
        rw [hcontrol, hspawned] at hstep
        cases hstep
        have hmoved : (s.moveTo i (.loop self)).Fetched :=
          hs.moveTo (congrArg Control.hand hcontrol) rfl fun _ _ hnew ↦ nomatch hnew
        exact ⟨hmoved.pushing, hmoved.balance⟩
    | _ =>
      rw [hcontrol] at hstep
      cases hstep
  | shutdown =>
    cases hstep
    exact ⟨hs.pushing, hs.balance⟩
  | step i =>
    simp only [schedulerMachine] at hstep
    cases hcontrol : s.control i with
    | outside =>
      rw [hcontrol] at hstep
      cases hstep
    | submitting core pc =>
      simp only [hcontrol] at hstep
      exact hs.submit hcontrol hstep
    | loop self =>
      simp only [hcontrol] at hstep
      cases hstep
      refine hs.moveTo (congrArg Control.hand hcontrol) ?_ fun core pc hnew ↦ ?_
      · split <;> rfl
      · split at hnew <;> cases hnew
    | popping self pc =>
      simp only [hcontrol] at hstep
      exact hs.pop hcontrol hstep
    | seeking self peers intra =>
      simp only [hcontrol] at hstep
      cases hstep
      cases peers with
      | nil =>
        refine hs.moveTo (congrArg Control.hand hcontrol) ?_ fun core pc hnew ↦ ?_
        · rw [nextPeer]
          split <;> rfl
        · rw [nextPeer] at hnew
          split at hnew <;> cases hnew
      | cons peer peers =>
        exact hs.moveTo (congrArg Control.hand hcontrol) rfl fun _ _ hnew ↦ nomatch hnew
    | stealing self peer peers intra pc =>
      simp only [hcontrol] at hstep
      exact hs.steal hcontrol hstep
    | executing self task =>
      simp only [hcontrol] at hstep
      cases hstep
      refine ⟨fun j core pc hj ↦ ?_, ?_⟩
      · rw [moveTo_control] at hj
        by_cases hsame : j = i
        · rw [hsame, update_self] at hj
          cases hj
        · rw [update_of_ne hsame] at hj
          exact hs.pushing j core pc hj
      · have hhands := sum_hand_update s.control i (.loop self)
        have hbefore : (s.control i).hand = {task} := congrArg Control.hand hcontrol
        have hafter : (Control.loop self : Control cores τ).hand = 0 := rfl
        rw [hbefore, hafter, add_zero] at hhands
        calc ∑ core, s.returned core = s.executed + ∑ j, (s.control j).hand := hs.balance
          _ = s.executed + {task} +
              ∑ j, (update s.control i (.loop self) j).hand := by
            rw [← hhands]
            abel

omit [DecidableEq ι] in
theorem noLoss_of_exactlyOnce (hs : s.Fetched) (honce : ∀ core, (s.view core).ExactlyOnce) :
    s.NoLoss where
  atMostOnce := by
    calc s.executed ≤ s.executed + ∑ i, (s.control i).hand := Multiset.le_add_right _ _
      _ = ∑ core, s.returned core := hs.balance.symm
      _ ≤ ∑ core, s.accepted core := Finset.sum_le_sum fun core _ ↦ (honce core).atMostOnce
  balance := by
    intro hresting
    have hquiet : ∀ core, (s.view core).Quiescent := by
      intro core i
      have hrest := hresting i
      change (s.control i).pcAt core = .idle
      cases hcontrol : s.control i with
      | outside => rfl
      | loop => rfl
      | seeking => rfl
      | _ =>
        rw [hcontrol] at hrest
        exact hrest.elim
    have hhands : ∑ i, (s.control i).hand = 0 := by
      refine Finset.sum_eq_zero fun i _ ↦ ?_
      have hrest := hresting i
      cases hcontrol : s.control i with
      | executing =>
        rw [hcontrol] at hrest
        exact hrest.elim
      | _ => rfl
    calc ∑ core, s.accepted core
        = ∑ core, (s.returned core + (s.view core).held) :=
          Finset.sum_congr rfl fun core _ ↦ (honce core).balance (hquiet core)
      _ = ∑ core, s.returned core + ∑ core, (s.view core).held := Finset.sum_add_distrib
      _ = s.executed + ∑ core, (s.view core).held := by rw [hs.balance, hhands, add_zero]

/-- **No task is lost and none executed twice**, in every interleaving in which each step is safe
for the deque it is on. -/
theorem noLoss (manifest : HardwareManifest cores) (events : List (SchedulerEvent cores ι τ))
    (s : AgentScheduler cores ι τ) (hsafe : (schedulerMachine manifest ι τ).Meets Safe new events)
    (hrun : (schedulerMachine manifest ι τ).run new events = some s) : s.NoLoss := by
  refine noLoss_of_exactlyOnce ?_ fun core ↦ ?_
  · exact Machine.inv_of_run (fun _ _ _ hs _ hstep ↦ hs.step hstep) fetched_new hsafe hrun
  · have hcore := hsafe.mono fun _ _ hok ↦ hok core
    exact DequeState.exactlyOnce_of_safe ((projects manifest core).meets trivial hrun hcore)
      ((projects manifest core).run trivial hrun)

end Fetched

/-! ### Runs -/

section Runs

variable [Fintype ι]

instance (s : DequeState ι τ) (pc : Pc τ) : Decidable (s.ExclusiveAt pc) :=
  match pc with
  | .pushWrite _ _ _ => inferInstanceAs (Decidable (_ ∧ _))
  | .popStore _ => inferInstanceAs (Decidable (_ ∧ _))
  | .idle | .pushBegin _ | .pushHead _ _ | .pushStore _ _ | .popBegin | .popHead _ | .popTake _ _
  | .popExchange _ _ | .popRestore _ _ | .stealBegin | .stealTail _ | .stealExchange _
  | .stealTake _ _ => isTrue trivial

instance (s : DequeState ι τ) (event : DequeEvent ι τ) : Decidable (s.Exclusive event) :=
  match event with
  | .call _ _ => isTrue trivial
  | .step i => inferInstanceAs (Decidable (s.ExclusiveAt (s.pc i)))

variable [DecidableEq τ]

instance (s : DequeState ι τ) (event : DequeEvent ι τ) : Decidable (s.Safe event) :=
  inferInstanceAs (Decidable (_ ∧ _))

instance (s : AgentScheduler cores ι τ) (event : SchedulerEvent cores ι τ) :
    Decidable (s.Safe event) :=
  inferInstanceAs (Decidable (∀ core, ∀ event' ∈ s.project core event, (s.view core).Safe event'))

end Runs

/-- One core of one socket. -/
def oneCore : HardwareManifest 1 := ⟨fun _ ↦ 0, false⟩

/-- A thread submits a task, and the worker pops and executes it. -/
def submitThenExecute : List (SchedulerEvent 1 Bool ℕ) :=
  [.launch, .start false, .submitTo true 0 7, .step true, .step true, .step true, .step true,
    .step false, .step false, .step false, .step false, .step false, .step false, .step false,
    .step false]

theorem noLoss_submitThenExecute :
    ∃ s, (schedulerMachine oneCore Bool ℕ).run new submitThenExecute = some s ∧ s.NoLoss := by
  have hsome : ((schedulerMachine oneCore Bool ℕ).run new submitThenExecute).isSome = true := by
    decide +kernel
  obtain ⟨s, hrun⟩ := Option.isSome_iff_exists.mp hsome
  have hsafe : (schedulerMachine oneCore Bool ℕ).Meets Safe new submitThenExecute := by
    decide +kernel
  exact ⟨s, hrun, noLoss oneCore submitThenExecute s hsafe hrun⟩

local instance neZeroThree : NeZero 3 := ⟨by decide⟩

/-- Two threads submit to one core at the same time, and both return `true`. -/
def twoSubmits : List (SchedulerEvent 1 (Fin 3) ℕ) :=
  [.launch, .start 2, .submitTo 0 0 7, .submitTo 1 0 8, .step 0, .step 1, .step 0, .step 1,
    .step 0, .step 1, .step 0, .step 1]

theorem not_noLoss_twoSubmits :
    ¬ ∀ (events : List (SchedulerEvent 1 (Fin 3) ℕ)) (s : AgentScheduler 1 (Fin 3) ℕ),
      (schedulerMachine oneCore (Fin 3) ℕ).run new events = some s → s.NoLoss := by
  intro hall
  have hend : ((schedulerMachine oneCore (Fin 3) ℕ).run new twoSubmits).map
      (fun s ↦ decide (s.accepted 0 = {7, 8} ∧ s.executed = 0 ∧ (s.queue 0).head = 0 ∧
        (s.queue 0).tail = 1 ∧ (s.queue 0).buffer 0 = some 8 ∧
        ∀ i, s.control i = if i = 2 then .loop 0 else .outside)) = some true := by decide +kernel
  obtain ⟨s, hrun, hs⟩ := Option.map_eq_some_iff.mp hend
  obtain ⟨haccepted, hexecuted, hhead, htail, hslot, hcontrol⟩ := of_decide_eq_true hs
  have hresting : ∀ i, (s.control i).Resting := by
    intro i
    rw [hcontrol]
    split <;> trivial
  have hbalance := (hall twoSubmits s hrun).balance hresting
  have hheld : (s.view 0).held = {8} := by
    have hview : (s.view 0).deque = s.queue 0 := rfl
    rw [DequeState.held, hview, hhead, htail, Nat.Ico_succ_singleton, Finset.sum_singleton, slot_eq,
      Nat.zero_mod, hslot]
    rfl
  rw [Fin.sum_univ_one, Fin.sum_univ_one, haccepted, hexecuted, hheld] at hbalance
  exact absurd hbalance (by decide)

end AgentScheduler

end SoulSystem.Scheduler
