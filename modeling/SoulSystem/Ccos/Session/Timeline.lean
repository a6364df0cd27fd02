import SoulSystem.Library.Str
import SoulSystem.Library.HashChain

/-!
# The timeline of an agent session

`AgentSession` records every operation in a list and in a hash chain over it.  Compaction folds the
older operations into a baseline snapshot and moves the anchor of the chain, a fork keeps a start of
the list, and a checkpoint writes the timeline to a sidecar from which it is opened again.

The memory itself is left open: an `Engine` gives its operations and snapshots, with the hash, the
JSON text of an operation and what is read back of a sidecar.
-/

namespace SoulSystem.Ccos.Session

open Library HashChain

/-! ## Data model -/

/-- A foreign timeline as imported. -/
structure ForeignLog (Op : Type) where
  ops : List Op
  chain : List Str

/-- The timeline sidecar. -/
structure PersistedTimeline (Op : Type) where
  baseline : Option Str
  ops : List Op
  folded : ℕ
  chain : List Str
  anchor : Str
  baselineHash : Str
  agent : Str
  foreign : Std.ExtTreeMap Str (ForeignLog Op)
  knownKeys : Std.ExtTreeMap Str Str

structure AgentSession (Op Memory : Type) where
  live : Memory
  ops : List Op
  baseline : Option Str
  folded : ℕ
  chain : List Str
  anchor : Str
  baselineHash : Str
  agent : Str
  foreign : Std.ExtTreeMap Str (ForeignLog Op)
  knownKeys : Std.ExtTreeMap Str Str
  oplogPath : Option Str

structure LogIntegrity where
  valid : Bool
  verifiedEvents : ℕ
  errors : List Str

/-- What the timeline takes from the memory, from the environment and from other packages. -/
structure Engine (Op Memory : Type) where
  sha256 : Str → Str
  opJson : Op → Str
  new : Memory
  applyOp : Memory × Bool → Op → Memory × Bool
  resolve : Memory → Memory
  toJson : Memory → Option Str
  fromJson : Str → Option Memory
  stats : Memory → ℕ × ℕ × ℕ
  reread : PersistedTimeline Op → Option (PersistedTimeline Op)
  oplogMax : ℕ
  oplogKeep : ℕ

def timelineGenesis : Str :=
  "GENESIS".toList

def decimal (n : ℕ) : Str :=
  Nat.toDigits 10 n

namespace Engine

variable {Op Memory : Type} (engine : Engine Op Memory)

/-- The text that a link hashes. -/
def linkText (prev : Str) (seq : ℕ) (op : Op) : Str :=
  prev ++ '|' :: (decimal seq ++ '|' :: engine.opJson op)

def opLinkHash (prev : Str) (seq : ℕ) (op : Op) : Str :=
  engine.sha256 (engine.linkText prev seq op)

def baselineCommitment (baseline : Option Str) : Str :=
  (baseline.map engine.sha256).getD []

/-- The errors of the walk over the links. -/
def linkErrors : Str → ℕ → List Op → List Str → List Str
  | prev, seq, op :: ops, link :: chain =>
    (if engine.opLinkHash prev seq op = link then []
    else ["link t=".toList ++ decimal (seq + 1) ++ " broken: op or hash mutated".toList]) ++
      linkErrors link (seq + 1) ops chain
  | _, _, [], _ => []
  | _, _, _ :: _, [] => []

/-- How many links the walk finds in order. -/
def verifiedLinks : Str → ℕ → List Op → List Str → ℕ
  | prev, seq, op :: ops, link :: chain =>
    (if engine.opLinkHash prev seq op = link then 1 else 0) +
      verifiedLinks link (seq + 1) ops chain
  | _, _, [], _ => 0
  | _, _, _ :: _, [] => 0

/-- Whether a timeline predates the chain. -/
def legacy (anchor : Str) (chain : List Str) (baselineHash : Str) : Bool :=
  chain.isEmpty && anchor.isEmpty && baselineHash.isEmpty

def verifyTimelineParts (anchor : Str) (folded : ℕ) (ops : List Op) (chain : List Str)
    (baseline : Option Str) (baselineHash : Str) : LogIntegrity :=
  if legacy anchor chain baselineHash then
    { valid := true, verifiedEvents := 0, errors := [] }
  else
    let errors :=
      (if engine.baselineCommitment baseline ≠ baselineHash then
        ["baseline does not match its recorded commitment".toList]
      else []) ++
      (if chain.length ≠ ops.length then
        ["chain has ".toList ++ decimal chain.length ++ " link(s) for ".toList ++
          decimal ops.length ++ " op(s): an op was inserted or removed".toList]
      else []) ++
      engine.linkErrors anchor folded ops chain
    { valid := errors.isEmpty
      verifiedEvents := engine.verifiedLinks anchor folded ops chain
      errors }

end Engine

/-! ## Operations on the timeline -/

namespace AgentSession

variable {Op Memory : Type} (engine : Engine Op Memory)

def new : AgentSession Op Memory where
  live := engine.new
  ops := []
  baseline := none
  folded := 0
  chain := []
  anchor := timelineGenesis
  baselineHash := engine.baselineCommitment none
  agent := []
  foreign := ∅
  knownKeys := ∅
  oplogPath := none

/-- The logical length of the timeline. -/
def len (session : AgentSession Op Memory) : ℕ :=
  session.folded + session.ops.length

def timelineHead (session : AgentSession Op Memory) : Str :=
  session.chain.getLast?.getD session.anchor

def verifyTimeline (session : AgentSession Op Memory) : LogIntegrity :=
  engine.verifyTimelineParts session.anchor session.folded session.ops session.chain
    session.baseline session.baselineHash

/-- Record an operation whose effect leaves the live memory `live`. -/
def record (session : AgentSession Op Memory) (op : Op) (live : Memory) :
    AgentSession Op Memory :=
  { session with
    live
    chain := session.chain ++
      [engine.opLinkHash session.timelineHead (session.folded + session.ops.length) op]
    ops := session.ops ++ [op] }

/-- Operations on a memory with one resolution at the end if any is due. -/
def applyAll (memory : Memory) (ops : List Op) : Memory :=
  let result := ops.foldl engine.applyOp (memory, false)
  if result.2 then engine.resolve result.1 else result.1

def replayTo (session : AgentSession Op Memory) (step : ℕ) : Memory :=
  let start := match session.baseline with
    | some snapshot => (engine.fromJson snapshot).getD engine.new
    | none => engine.new
  applyAll engine start (session.ops.take (min step session.len - session.folded))

/-- Fold all but the last `keep` operations into the baseline.  The chain has a link for every
operation, so the default of the lookup is never used. -/
def compact (session : AgentSession Op Memory) (keep : ℕ) : AgentSession Op Memory :=
  if session.ops.length ≤ keep then
    session
  else
    let fold := session.ops.length - keep
    match engine.toJson (session.replayTo engine (session.folded + fold)) with
    | none => session
    | some snapshot =>
      { session with
        anchor := (session.chain[fold - 1]?).getD session.anchor
        chain := session.chain.drop fold
        baselineHash := engine.baselineCommitment (some snapshot)
        baseline := some snapshot
        ops := session.ops.drop fold
        folded := session.folded + fold }

def compactIfNeeded (session : AgentSession Op Memory) : AgentSession Op Memory :=
  if 0 < engine.oplogMax ∧ engine.oplogMax < session.ops.length then
    session.compact engine engine.oplogKeep
  else
    session

/-- The step that a fork really starts from. -/
def forkStep (session : AgentSession Op Memory) (step : ℕ) : ℕ :=
  max (min step session.len) session.folded

def forkAt (session : AgentSession Op Memory) (step : ℕ) : AgentSession Op Memory :=
  let tail := session.forkStep step - session.folded
  { session with
    live := session.replayTo engine (session.forkStep step)
    ops := session.ops.take tail
    chain := session.chain.take tail
    oplogPath := none }

def timeline (session : AgentSession Op Memory) : PersistedTimeline Op where
  baseline := session.baseline
  ops := session.ops
  folded := session.folded
  chain := session.chain
  anchor := session.anchor
  baselineHash := session.baselineHash
  agent := session.agent
  foreign := session.foreign
  knownKeys := session.knownKeys

/-- The session of a sidecar whose timeline is trusted. -/
def ofTimeline (path : Str) (live : Memory) (timeline : PersistedTimeline Op) :
    AgentSession Op Memory where
  live := live
  ops := timeline.ops
  baseline := timeline.baseline
  folded := timeline.folded
  chain := timeline.chain
  anchor := timeline.anchor
  baselineHash := timeline.baselineHash
  agent := timeline.agent
  foreign := timeline.foreign
  knownKeys := timeline.knownKeys
  oplogPath := some path

/-- A timeline that starts anew from a snapshot of the live memory. -/
def restarted (session : AgentSession Op Memory) (snapshot : Str) : AgentSession Op Memory :=
  { session with
    baseline := some snapshot
    ops := []
    folded := 0
    chain := []
    anchor := timelineGenesis
    baselineHash := engine.baselineCommitment (some snapshot) }

def timelineReproducesMemory (session : AgentSession Op Memory) : Bool :=
  engine.stats (session.replayTo engine session.len) == engine.stats session.live

/-- The timeline of a sidecar, its chain established if it has none and verified if it has one. -/
def trusted (timeline : PersistedTimeline Op) : Option (PersistedTimeline Op) :=
  if Engine.legacy timeline.anchor timeline.chain timeline.baselineHash then
    some { timeline with
      anchor := timelineGenesis
      baselineHash := engine.baselineCommitment timeline.baseline
      chain := chainOver engine.opLinkHash timelineGenesis timeline.folded timeline.ops }
  else if (engine.verifyTimelineParts timeline.anchor timeline.folded timeline.ops timeline.chain
      timeline.baseline timeline.baselineHash).valid then
    some timeline
  else
    none

/-- The session before its timeline is compared with the loaded memory; no answer is an error. -/
def restored (path : Str) (live : Memory) :
    Option (PersistedTimeline Op) → Option (AgentSession Op Memory)
  | some timeline => (trusted engine timeline).map (ofTimeline path live)
  | none => (engine.toJson live).map fun snapshot ↦
      restarted engine (ofTimeline path live
        ⟨none, [], 0, [], timelineGenesis, [], [], ∅, ∅⟩) snapshot

/-- Open a workspace whose memory was loaded as `live`. -/
def openSession (path : Str) (live : Memory) (sidecar : Option (PersistedTimeline Op)) :
    Option (AgentSession Op Memory) :=
  (restored engine path live (sidecar.bind engine.reread)).bind fun session ↦
    if !session.ops.isEmpty && !session.timelineReproducesMemory engine then
      (engine.toJson session.live).map (session.restarted engine)
    else
      some session

end AgentSession

/-! ## Runs -/

/-- A session and the sidecars on disk. -/
structure World (Op Memory : Type) where
  session : AgentSession Op Memory
  disk : Std.ExtTreeMap Str (PersistedTimeline Op)

/-- One call.  A recorded operation comes with the live memory that it leaves, a checkpoint with
whether the snapshot and the sidecar could be written, and opening with the memory that it loads. -/
inductive Step (Op Memory : Type) where
  | record (op : Op) (live : Memory)
  | compact (keep : ℕ)
  | forkAt (step : ℕ)
  | checkpoint (written : Bool)
  | openSession (path : Str) (live : Memory)

namespace World

variable {Op Memory : Type} (engine : Engine Op Memory)

def start : World Op Memory where
  session := AgentSession.new engine
  disk := ∅

def checkpoint (world : World Op Memory) (written : Bool) : World Op Memory :=
  let session := world.session.compactIfNeeded engine
  match written, session.oplogPath with
  | true, some path => { session, disk := world.disk.insert path session.timeline }
  | _, _ => { world with session }

def apply (world : World Op Memory) : Step Op Memory → World Op Memory
  | .record op live => { world with session := world.session.record engine op live }
  | .compact keep => { world with session := world.session.compact engine keep }
  | .forkAt step => { world with session := world.session.forkAt engine step }
  | .checkpoint written => world.checkpoint engine written
  | .openSession path live =>
    match AgentSession.openSession engine path live world.disk[path]? with
    | some session => { world with session }
    | none => world

def run (world : World Op Memory) (steps : List (Step Op Memory)) : World Op Memory :=
  steps.foldl (World.apply engine) world

end World

end SoulSystem.Ccos.Session
