import SoulSystem.Library.Str
import SoulSystem.Library.Machine

/-!
# The circuit breaker

A breaker that has opened is half open once the recovery timeout has passed: the state is derived
from the clock and never stored.  The documented diagram is a machine of its own, and the breaker
follows it in every run in which no probe fails after which the diagram would do something else.
-/

namespace SoulSystem.Circuit

open Library

/-! ## The breaker -/

inductive CircuitState
  | closed
  | opened
  | halfOpen
  deriving DecidableEq

/-- Times are in nanoseconds. -/
structure CircuitBreakerConfig where
  failureThreshold : ℕ
  recoveryTimeout : ℕ
  halfOpenSuccessesNeeded : ℕ
  callTimeout : ℕ

structure BreakerState where
  state : CircuitState
  consecutiveFailures : ℕ
  openedAt : Option ℕ
  halfOpenSuccesses : ℕ
  totalCalls : ℕ
  totalFailures : ℕ
  totalRejections : ℕ

def BreakerState.new : BreakerState := ⟨.closed, 0, none, 0, 0, 0, 0⟩

structure CircuitBreaker where
  serviceName : Str
  config : CircuitBreakerConfig
  state : BreakerState

/-- What the called function comes to. -/
inductive Outcome
  | success
  | failure
  | timeout
  deriving DecidableEq

inductive CircuitBreakerError
  | opened (service : Str) (openedAt : ℕ)
  | timeout (service : Str) (timeout : ℕ)
  | call (service : Str)

namespace CircuitBreaker

def new (name : Str) (config : CircuitBreakerConfig) : CircuitBreaker := ⟨name, config, .new⟩

def effectiveState (config : CircuitBreakerConfig) (state : BreakerState) (now : ℕ) : CircuitState :=
  match state.state with
  | .opened =>
    match state.openedAt with
    | some openedAt => if now - openedAt ≥ config.recoveryTimeout then .halfOpen else .opened
    | none => .opened
  | other => other

def onSuccess (config : CircuitBreakerConfig) (state : BreakerState) (now : ℕ) : BreakerState :=
  let state := { state with consecutiveFailures := 0 }
  if effectiveState config state now = .halfOpen then
    let state := { state with halfOpenSuccesses := state.halfOpenSuccesses + 1 }
    if state.halfOpenSuccesses ≥ config.halfOpenSuccessesNeeded then { state with state := .closed }
    else state
  else state

def onFailure (config : CircuitBreakerConfig) (state : BreakerState) (now : ℕ) : BreakerState :=
  let state := { state with
    consecutiveFailures := state.consecutiveFailures + 1
    totalFailures := state.totalFailures + 1 }
  match state.state with
  | .closed =>
    if state.consecutiveFailures ≥ config.failureThreshold then
      { state with state := .opened, openedAt := some now, halfOpenSuccesses := 0 }
    else state
  | .halfOpen => { state with state := .opened, openedAt := some now, halfOpenSuccesses := 0 }
  | .opened => state

/-- A call that begins and ends at the given times. -/
def call (b : CircuitBreaker) (start finish : ℕ) (outcome : Outcome) :
    CircuitBreaker × Except CircuitBreakerError Unit :=
  if effectiveState b.config b.state start = .opened then
    ({ b with state := { b.state with totalRejections := b.state.totalRejections + 1 } },
      .error (.opened b.serviceName (b.state.openedAt.getD start)))
  else
    let state := { b.state with totalCalls := b.state.totalCalls + 1 }
    match outcome with
    | .success => ({ b with state := onSuccess b.config state finish }, .ok ())
    | .failure => ({ b with state := onFailure b.config state finish }, .error (.call b.serviceName))
    | .timeout =>
      ({ b with state := onFailure b.config state finish },
        .error (.timeout b.serviceName b.config.callTimeout))

end CircuitBreaker

/-! ## The documented diagram -/

/-- Where the diagram stands: closed after some failures in a row, or open since a time with some
successful probes since then. -/
inductive Phase
  | closed (failures : ℕ)
  | opened (since successes : ℕ)
  deriving DecidableEq

namespace Phase

def state (config : CircuitBreakerConfig) (phase : Phase) (now : ℕ) : CircuitState :=
  match phase with
  | closed _ => .closed
  | opened since _ => if now < since + config.recoveryTimeout then .opened else .halfOpen

/-- An admitted call, while closed or as a probe. -/
def settle (config : CircuitBreakerConfig) (finish : ℕ) (outcome : Outcome) : Phase → Phase
  | closed failures =>
    if outcome = .success then closed 0
    else if failures + 1 = config.failureThreshold then opened finish 0
    else closed (failures + 1)
  | opened since successes =>
    if outcome = .success then
      if successes + 1 ≥ config.halfOpenSuccessesNeeded then closed 0
      else opened since (successes + 1)
    else opened finish 0

end Phase

/-! ## Runs of calls -/

structure Call where
  start : ℕ
  finish : ℕ
  outcome : Outcome

/-- The time, what the calls have led to and which of them were rejected. -/
structure CallRun (σ : Type*) where
  now : ℕ
  state : σ
  rejected : List Bool

/-- Calls of a breaker one after the other, on a clock that does not go back. -/
def breakerCalls : Machine (CallRun CircuitBreaker) Call where
  step s call :=
    if s.now ≤ call.start ∧ call.start ≤ call.finish then
      let (breaker, result) := s.state.call call.start call.finish call.outcome
      some ⟨call.finish, breaker, s.rejected ++ [match result with
        | .error (.opened _ _) => true
        | _ => false]⟩
    else none

def diagramCalls (config : CircuitBreakerConfig) : Machine (CallRun Phase) Call where
  step s call :=
    if s.now ≤ call.start ∧ call.start ≤ call.finish then
      if s.state.state config call.start = .opened then
        some ⟨call.finish, s.state, s.rejected ++ [true]⟩
      else some ⟨call.finish, s.state.settle config call.finish call.outcome, s.rejected ++ [false]⟩
    else none

namespace CircuitBreaker

/-- A probe fails only where opening again would change nothing: there is no time to wait and no
successful probe to forget. -/
def ProbesSucceed (s : CallRun CircuitBreaker) (call : Call) : Prop :=
  effectiveState s.state.config s.state.state call.start = .halfOpen → call.outcome ≠ .success →
    s.state.config.recoveryTimeout = 0 ∧ s.state.state.halfOpenSuccesses = 0

instance (s : CallRun CircuitBreaker) (call : Call) : Decidable (ProbesSucceed s call) :=
  inferInstanceAs (Decidable (_ → _ → _ ∧ _))

/-- The breaker stands where the diagram does. -/
def Shows (config : CircuitBreakerConfig) (state : BreakerState) (now : ℕ) : Phase → Prop
  | .closed failures => state.state = .closed ∧ state.consecutiveFailures = failures ∧
      failures < config.failureThreshold
  | .opened since successes => state.state = .opened ∧ state.halfOpenSuccesses = successes ∧
      since ≤ now ∧ ∃ openedAt, state.openedAt = some openedAt ∧
        (openedAt = since ∨ config.recoveryTimeout = 0)

section Shows

variable {config : CircuitBreakerConfig} {state : BreakerState} {now start finish : ℕ} {phase : Phase}
  {outcome : Outcome}

theorem effectiveState_eq (hshows : Shows config state now phase) (hnow : now ≤ start) :
    effectiveState config state start = phase.state config start := by
  cases phase with
  | closed failures => rw [effectiveState, hshows.1, Phase.state]
  | opened since successes =>
    obtain ⟨hstate, -, hsince, openedAt, hopened, htime⟩ := hshows
    have hiff : start - openedAt ≥ config.recoveryTimeout ↔
        ¬ start < since + config.recoveryTimeout := by
      cases htime with
      | inl hsame => omega
      | inr hzero => omega
    rw [effectiveState, hstate, hopened, Phase.state]
    dsimp only
    by_cases hwait : start < since + config.recoveryTimeout
    · rw [if_pos hwait, if_neg (hiff.not.mpr (not_not.mpr hwait))]
    · rw [if_neg hwait, if_pos (hiff.mpr hwait)]

theorem effectiveState_eq_halfOpen (hstored : state.state = .opened)
    (hadmitted : effectiveState config state now ≠ .opened) :
    effectiveState config state now = .halfOpen := by
  rw [effectiveState, hstored] at hadmitted ⊢
  dsimp only at hadmitted ⊢
  split at hadmitted
  · split at hadmitted
    case isTrue hpassed => rw [if_pos hpassed]
    case isFalse hwait => exact absurd rfl hadmitted
  · exact absurd rfl hadmitted

/-- The counters of the calls do not tell where the breaker stands. -/
theorem Shows.of_counted (hshows : Shows config state now phase) (hnow : now ≤ finish)
    {calls failed rejections : ℕ} : Shows config { state with
      totalCalls := calls, totalFailures := failed, totalRejections := rejections } finish phase := by
  cases phase with
  | closed failures => exact hshows
  | opened since successes =>
    obtain ⟨hstate, hsuccesses, hsince, hopened⟩ := hshows
    exact ⟨hstate, hsuccesses, hsince.trans hnow, hopened⟩

theorem Shows.onSuccess (hshows : Shows config state now phase) (hnow : now ≤ finish)
    (hadmitted : effectiveState config state finish ≠ .opened)
    (hpositive : 0 < config.failureThreshold) :
    Shows config (onSuccess config state finish) finish (phase.settle config finish .success) := by
  cases phase with
  | closed failures =>
    have heffective : effectiveState config { state with consecutiveFailures := 0 } finish ≠
        .halfOpen := by
      rw [effectiveState, hshows.1]
      exact nofun
    rw [CircuitBreaker.onSuccess]
    dsimp only
    rw [if_neg heffective]
    exact ⟨hshows.1, rfl, hpositive⟩
  | opened since successes =>
    obtain ⟨hstate, hsuccesses, hsince, openedAt, hopened, htime⟩ := hshows
    have heffective : effectiveState config { state with consecutiveFailures := 0 } finish =
        .halfOpen := effectiveState_eq_halfOpen hstate hadmitted
    rw [CircuitBreaker.onSuccess, Phase.settle, if_pos rfl]
    dsimp only
    rw [if_pos heffective, hsuccesses]
    by_cases hneeded : successes + 1 ≥ config.halfOpenSuccessesNeeded
    · rw [if_pos hneeded, if_pos hneeded]
      exact ⟨rfl, rfl, hpositive⟩
    · rw [if_neg hneeded, if_neg hneeded]
      exact ⟨hstate, rfl, hsince.trans hnow, openedAt, hopened, htime⟩

theorem Shows.onFailure (hshows : Shows config state now phase)
    (hprobe : state.state = .opened → config.recoveryTimeout = 0 ∧ state.halfOpenSuccesses = 0)
    (hfailed : outcome ≠ .success) :
    Shows config (onFailure config state finish) finish (phase.settle config finish outcome) := by
  cases phase with
  | closed failures =>
    obtain ⟨hstate, hfailures, hbelow⟩ := hshows
    rw [CircuitBreaker.onFailure, Phase.settle, if_neg hfailed]
    dsimp only
    rw [hstate, hfailures]
    dsimp only
    by_cases hlast : failures + 1 = config.failureThreshold
    · rw [if_pos hlast, if_pos hlast.ge]
      exact ⟨rfl, rfl, le_rfl, finish, rfl, Or.inl rfl⟩
    · rw [if_neg hlast, if_neg (by omega)]
      exact ⟨rfl, rfl, by omega⟩
  | opened since successes =>
    obtain ⟨hstate, hsuccesses, hsince, openedAt, hopened, htime⟩ := hshows
    obtain ⟨hzero, hnone⟩ := hprobe hstate
    rw [CircuitBreaker.onFailure, Phase.settle, if_neg hfailed]
    dsimp only
    rw [hstate]
    exact ⟨rfl, hnone, le_rfl, openedAt, hopened, Or.inr hzero⟩

end Shows

/-- The two runs stand at the same time and place and have rejected the same calls. -/
structure Follows (config : CircuitBreakerConfig) (s : CallRun CircuitBreaker) (d : CallRun Phase) :
    Prop where
  now : s.now = d.now
  breaker : s.state.config = config
  rejected : s.rejected = d.rejected
  shows : Shows config s.state.state s.now d.state

/-- A breaker that is not open does not open by waiting. -/
theorem effectiveState_ne_opened {config : CircuitBreakerConfig} {state : BreakerState}
    {start finish : ℕ} (hle : start ≤ finish)
    (hadmitted : effectiveState config state start ≠ .opened) :
    effectiveState config state finish ≠ .opened := by
  rw [effectiveState] at hadmitted ⊢
  split at hadmitted
  · split at hadmitted
    case h_1 openedAt hopened =>
      split at hadmitted
      case isTrue hpassed =>
        rw [if_pos (hpassed.trans (Nat.sub_le_sub_right hle openedAt))]
        exact nofun
      case isFalse hwait => exact absurd rfl hadmitted
    case h_2 hnone => exact absurd rfl hadmitted
  · exact hadmitted

theorem Follows.step {config : CircuitBreakerConfig} (hpositive : 0 < config.failureThreshold)
    {s s' : CallRun CircuitBreaker} {d : CallRun Phase} {call : Call} (hfollows : Follows config s d)
    (hprobes : ProbesSucceed s call) (hstep : breakerCalls.step s call = some s') :
    ∃ d', (diagramCalls config).step d call = some d' ∧ Follows config s' d' := by
  obtain ⟨hnow, hconfig, hrejected, hshows⟩ := hfollows
  simp only [breakerCalls, Option.ite_none_right_eq_some] at hstep
  obtain ⟨⟨hstart, hfinish⟩, hstep⟩ := hstep
  cases Option.some.inj hstep
  have hstate := effectiveState_eq hshows hstart
  have hclock : d.now ≤ call.start ∧ call.start ≤ call.finish := ⟨hnow ▸ hstart, hfinish⟩
  rw [ProbesSucceed, hconfig] at hprobes
  simp only [diagramCalls, if_pos hclock, ← hstate, CircuitBreaker.call, hconfig]
  by_cases hopened : effectiveState config s.state.state call.start = .opened
  · refine ⟨_, if_pos hopened, ?_⟩
    simp only [if_pos hopened]
    exact ⟨rfl, rfl, by rw [hrejected], hshows.of_counted (hstart.trans hfinish)⟩
  · refine ⟨_, if_neg hopened, ?_⟩
    simp only [if_neg hopened]
    have hadmitted := effectiveState_ne_opened hfinish hopened
    have hcounted : Shows config { s.state.state with totalCalls := s.state.state.totalCalls + 1 }
        call.start d.state := hshows.of_counted hstart
    have hprobe : call.outcome ≠ .success → s.state.state.state = .opened →
        config.recoveryTimeout = 0 ∧ s.state.state.halfOpenSuccesses = 0 := by
      intro hfailed hstored
      exact hprobes (effectiveState_eq_halfOpen hstored hopened) hfailed
    cases houtcome : call.outcome with
    | success =>
      exact ⟨rfl, rfl, by rw [hrejected], hcounted.onSuccess hfinish hadmitted hpositive⟩
    | failure =>
      have hfailed : Outcome.failure ≠ .success := nofun
      exact ⟨rfl, rfl, by rw [hrejected],
        hcounted.onFailure (hprobe (houtcome ▸ hfailed)) hfailed⟩
    | timeout =>
      have hfailed : Outcome.timeout ≠ .success := nofun
      exact ⟨rfl, rfl, by rw [hrejected],
        hcounted.onFailure (hprobe (houtcome ▸ hfailed)) hfailed⟩

/-- **The breaker follows its diagram.**  In every run in which no probe fails where that would
make a difference, the same calls are rejected and the breaker is in the state of the diagram
from then on. -/
theorem follows_diagram (name : Str) (config : CircuitBreakerConfig)
    (hpositive : 0 < config.failureThreshold) (clock : ℕ) (calls : List Call)
    (s : CallRun CircuitBreaker)
    (hmeets : breakerCalls.Meets ProbesSucceed ⟨clock, new name config, []⟩ calls)
    (hrun : breakerCalls.run ⟨clock, new name config, []⟩ calls = some s) :
    ∃ d, (diagramCalls config).run ⟨clock, .closed 0, []⟩ calls = some d ∧
      s.rejected = d.rejected ∧ ∀ later, s.now ≤ later →
        effectiveState config s.state.state later = d.state.state config later := by
  have hinit : Follows config ⟨clock, new name config, []⟩ ⟨clock, .closed 0, []⟩ :=
    ⟨rfl, rfl, rfl, rfl, rfl, hpositive⟩
  obtain ⟨d, hd, hfollows⟩ := Machine.run_of_simulates
    (fun _ _ _ _ hfollows hprobes hstep ↦ hfollows.step hpositive hprobes hstep) hinit hmeets hrun
  exact ⟨d, hd, hfollows.rejected, fun later hlater ↦ effectiveState_eq hfollows.shows hlater⟩

/-- The breaker opens, rejects a call, admits a probe and closes. -/
theorem follows_diagram_recovery :
    ∃ s, breakerCalls.run ⟨0, new [] ⟨1, 10, 1, 5⟩, []⟩
        [⟨0, 3, .timeout⟩, ⟨4, 4, .success⟩, ⟨13, 14, .success⟩] = some s ∧
      ∃ d, (diagramCalls ⟨1, 10, 1, 5⟩).run ⟨0, .closed 0, []⟩
          [⟨0, 3, .timeout⟩, ⟨4, 4, .success⟩, ⟨13, 14, .success⟩] = some d ∧
        s.rejected = d.rejected ∧ ∀ later, s.now ≤ later →
          effectiveState ⟨1, 10, 1, 5⟩ s.state.state later = d.state.state ⟨1, 10, 1, 5⟩ later :=
  ⟨_, rfl, follows_diagram [] ⟨1, 10, 1, 5⟩ (by decide) 0 _ _ (by decide +kernel) rfl⟩

/-- A probe fails at 10 and the call at 11 is admitted, which the diagram rejects until 20.  Two
successful probes close a breaker although one has failed between them. -/
theorem not_follows_diagram_failedProbe :
    (¬ ∀ (name : Str) (config : CircuitBreakerConfig) (clock : ℕ) (calls : List Call)
      (s : CallRun CircuitBreaker), 0 < config.failureThreshold →
      breakerCalls.run ⟨clock, new name config, []⟩ calls = some s →
      ∃ d, (diagramCalls config).run ⟨clock, .closed 0, []⟩ calls = some d ∧
        s.rejected = d.rejected) ∧
    (breakerCalls.run ⟨0, new [] ⟨1, 10, 2, 5⟩, []⟩
        [⟨0, 0, .failure⟩, ⟨10, 10, .success⟩, ⟨11, 11, .failure⟩, ⟨21, 21, .success⟩]).map
          (fun s ↦ s.state.state.state) = some .closed := by
  constructor
  · intro hclaim
    obtain ⟨d, hd, hrejected⟩ := hclaim [] ⟨1, 10, 1, 5⟩ 0
      [⟨0, 0, .failure⟩, ⟨10, 10, .failure⟩, ⟨11, 11, .success⟩] _ (by decide) rfl
    cases Option.some.inj hd
    revert hrejected
    decide +kernel
  · decide +kernel

end CircuitBreaker

end SoulSystem.Circuit
