import SoulSystem.Library.Machine
import SoulSystem.Library.Slots

/-!
# Egress supervision

A sandbox with an egress policy makes a socket pair for each command it spawns.  The child installs
a filter on `connect` and sends its listener over its end of the pair; the call that spawned it
receives the listener at the other end and starts a supervisor.  Between the two, the descriptor of
the child's end stands in a cell that all calls on the sandbox share.

Each access to the cell and each kernel call is one step, and between two steps of one call any
number of steps of other calls, and of the rest of the process, can happen.  Descriptors stand for
what the table of the process holds under them; a forked child has a copy of the table.  Receiving
succeeds when a descriptor has arrived.
-/

namespace SoulSystem.Sandbox.Egress

open Library Function

/-! ## The kernel -/

abbrev Fd := ℕ

inductive Side where
  | parent
  | child
  deriving DecidableEq, Repr

/-- One of the two ends of a socket pair. -/
structure End where
  pair : ℕ
  side : Side
  deriving DecidableEq, Repr

/-- Where what is sent at an end arrives. -/
def End.peer (e : End) : End :=
  match e.side with
  | .parent => ⟨e.pair, .child⟩
  | .child => ⟨e.pair, .parent⟩

/-- What a descriptor stands for. -/
inductive Entry where
  | socket (e : End)
  | listener (listener : ℕ)
  | other
  deriving DecidableEq, Repr

abbrev Table := Fd → Option Entry

/-! ## Calls -/

inductive CallKind where
  | execute
  | executeStreaming
  | executeWithStdin
  deriving DecidableEq, Repr

/-- The socket pair of a call and the descriptors it got for the two ends. -/
structure Sockets where
  pair : ℕ
  parent : Fd
  child : Fd
  deriving DecidableEq, Repr

namespace Sockets

def parentEnd (own : Sockets) : End := ⟨own.pair, .parent⟩

def childEnd (own : Sockets) : End := ⟨own.pair, .child⟩

end Sockets

/-- A child between fork and exec: the descriptor that `pre_exec` captured, its copy of the table,
the listener it has installed, and whether it has sent it. -/
structure Process where
  egressSock : Option Fd
  fds : Table
  listener : Option ℕ
  sent : Bool

/-- Where a thread stands, with its local variables.  A call of `execute_with_stdin` has no sockets
of its own. -/
inductive Pc where
  | idle
  | begun (call : ℕ)
  | paired (call : ℕ) (own : Sockets)
  | stored (call : ℕ) (own : Sockets)
  | withStdin (call : ℕ)
  | ready (call : ℕ) (own : Option Sockets) (egressSock : Option Fd)
  | running (call : ℕ) (own : Option Sockets) (process : Process)
  | spawned (call : ℕ) (own : Sockets) (ok : Bool)
  | swapped (call : ℕ) (own : Sockets) (ok : Bool) (childSock : Option Fd)
  | released (call : ℕ) (own : Sockets) (ok : Bool)
  | received (call : ℕ) (own : Sockets) (listener : ℕ)
  | listening (call : ℕ) (listener : ℕ)

/-- A child that has reached exec: the call that spawned it, and the listener it has installed. -/
structure Child where
  call : ℕ
  listener : Option ℕ
  deriving DecidableEq, Repr

structure Supervisor (P : Type) where
  call : ℕ
  listener : ℕ
  policy : P
  deriving DecidableEq, Repr

/-- What the calls share, and what they have done: the children that have reached exec and the
supervisors that were started. -/
structure Shared (P : Type) where
  egressChildSock : Option Fd
  fds : Table
  queue : End → List ℕ
  calls : ℕ
  pairs : ℕ
  listeners : ℕ
  children : List Child
  supervisors : List (Supervisor P)

inductive Action where
  | call (kind : CallKind)
  | socketpair (parent child : Fd)
  | socketpairFails
  | store
  | load
  | fork
  | forkFails
  | installListener
  | sendFd
  | childFails
  | exec
  | swap
  | closeChildSock
  | recvFd (fd : Fd)
  | recvFails
  | closeParent
  | supervise
  deriving DecidableEq

/-- What `spawn` leads to. -/
def Pc.afterSpawn (call : ℕ) (ok : Bool) : Option Sockets → Pc
  | some own => .spawned call own ok
  | none => .idle

/-- The end of a socket pair that a descriptor stands for. -/
def endAt (fds : Table) (fd : Fd) : Option End :=
  match fds fd with
  | some (.socket e) => some e
  | _ => none

namespace Shared

variable {P : Type} (s : Shared P) (policy : P)

def close (fd : Fd) : Table := update s.fds fd none

def send (e : End) (listener : ℕ) : End → List ℕ :=
  update s.queue e.peer (s.queue e.peer ++ [listener])

/-- One step of a call. -/
def advance : Action → Pc → Option (Shared P × Pc)
  | .call kind, .idle =>
    some ({ s with calls := s.calls + 1 },
      if kind = .executeWithStdin then .withStdin s.calls else .begun s.calls)
  | .socketpair parent child, .begun call =>
    if parent ≠ child ∧ s.fds parent = none ∧ s.fds child = none then
      let own : Sockets := ⟨s.pairs, parent, child⟩
      some ({ s with
        pairs := s.pairs + 1
        fds := update (update s.fds parent (some (.socket own.parentEnd)))
          child (some (.socket own.childEnd)) }, .paired call own)
    else none
  | .socketpairFails, .begun _ => some (s, .idle)
  | .store, .paired call own =>
    some ({ s with egressChildSock := some own.child }, .stored call own)
  | .load, .stored call own => some (s, .ready call (some own) s.egressChildSock)
  | .load, .withStdin call => some (s, .ready call none s.egressChildSock)
  | .fork, .ready call own egressSock =>
    some (s, .running call own ⟨egressSock, s.fds, none, false⟩)
  | .forkFails, .ready call own _ => some (s, .afterSpawn call false own)
  | .installListener, .running call own process =>
    if process.egressSock.isSome ∧ process.listener = none then
      some ({ s with listeners := s.listeners + 1 },
        .running call own { process with listener := some s.listeners })
    else none
  | .sendFd, .running call own process => do
      let sock ← process.egressSock
      let listener ← process.listener
      let e ← endAt process.fds sock
      if process.sent = false then
        some ({ s with queue := s.send e listener },
          .running call own { process with sent := true })
      else none
  | .childFails, .running call own _ => some (s, .afterSpawn call false own)
  | .exec, .running call own process =>
    if process.egressSock.isSome → process.sent = true then
      some ({ s with children := s.children ++ [⟨call, process.listener⟩] },
        .afterSpawn call true own)
    else none
  | .swap, .spawned call own ok =>
    some ({ s with egressChildSock := none }, .swapped call own ok s.egressChildSock)
  | .closeChildSock, .swapped call own ok childSock =>
    some ({ s with fds := childSock.elim s.fds s.close }, .released call own ok)
  | .recvFd fd, .released call own true => do
      let e ← endAt s.fds own.parent
      let listener ← (s.queue e).head?
      if s.fds fd = none then
        some ({ s with
          queue := update s.queue e (s.queue e).tail
          fds := update s.fds fd (some (.listener listener)) },
          .received call own listener)
      else none
  | .recvFails, .released call own true =>
    if ((endAt s.fds own.parent).bind fun e ↦ (s.queue e).head?) = none then
      some (s, .released call own false)
    else none
  | .closeParent, .released _ own false => some ({ s with fds := s.close own.parent }, .idle)
  | .closeParent, .received call own listener =>
    some ({ s with fds := s.close own.parent }, .listening call listener)
  | .supervise, .listening call listener =>
    some ({ s with supervisors := s.supervisors ++ [⟨call, listener, policy⟩] }, .idle)
  | _, _ => none

end Shared

/-! ## The machine -/

/-- What the threads share and where each of them stands. -/
structure EgressState (ι P : Type) where
  shared : Shared P
  pc : ι → Pc

/-- A step of a call, or of something else in the process that gets a descriptor or closes one of
its own: a supervisor closes its listener at the end. -/
inductive Event (ι : Type) where
  | step (i : ι) (action : Action)
  | opens (fd : Fd)
  | closes (fd : Fd)

variable {ι P : Type}

namespace EgressState

/-- No call is under way; the process may use descriptors for other things. -/
def new (used : Fd → Bool) : EgressState ι P where
  shared :=
    { egressChildSock := none
      fds := fun fd ↦ if used fd then some .other else none
      queue := fun _ ↦ []
      calls := 0
      pairs := 0
      listeners := 0
      children := []
      supervisors := [] }
  pc := fun _ ↦ .idle

def withFds (s : EgressState ι P) (fds : Table) : EgressState ι P :=
  { s with shared := { s.shared with fds } }

end EgressState

/-- What is not an end of a socket pair. -/
def Entry.foreign : Entry → Bool
  | .socket _ => false
  | _ => true

/-- Any number of threads that call a sandbox with an egress policy. -/
def egressMachine (ι : Type) {P : Type} [DecidableEq ι] (policy : P) :
    Machine (EgressState ι P) (Event ι) where
  step := fun s event ↦
    match event with
    | .step i action =>
      (s.shared.advance policy action (s.pc i)).map fun next ↦
        { shared := next.1, pc := update s.pc i next.2 }
    | .opens fd =>
      if s.shared.fds fd = none then
        some (s.withFds (update s.shared.fds fd (some .other)))
      else none
    | .closes fd =>
      if (s.shared.fds fd).any Entry.foreign then
        some (s.withFds (update s.shared.fds fd none))
      else none

end SoulSystem.Sandbox.Egress
