import SoulSystem.Library.HashChain
import SoulSystem.Library.Str

/-!
# The event log

Every event of the log carries the hash of its predecessor and its own hash, which is computed from
the predecessor, the sequence number, the event type and the payload.  The verification recomputes
every hash from the one recorded before it and goes on after a broken link.

The head of a log that verifies commits to its whole content, because a bar stands between the parts
of what is hashed and none of the parts before the payload has a bar in it.
-/

namespace SoulSystem.Ccos.Trace

open Library HashChain

/-! ## The log -/

inductive EventType where
  | llmCall
  | llmResponse
  | parsing
  | graphMutation
  | failureDetection
  | failurePropagation
  | guardCheck
  | cycleStart
  | cycleEnd
  | replayStart
  | replayEnd
  | snapshot
  | agentAction
  | regionCreated
  | regionActivated
  | regionMerged
  | regionEvicted
  | contextWindowGenerated
  deriving DecidableEq

/-- The name that `{:?}` prints. -/
def EventType.debug : EventType → Str
  | llmCall => "LlmCall".toList
  | llmResponse => "LlmResponse".toList
  | parsing => "Parsing".toList
  | graphMutation => "GraphMutation".toList
  | failureDetection => "FailureDetection".toList
  | failurePropagation => "FailurePropagation".toList
  | guardCheck => "GuardCheck".toList
  | cycleStart => "CycleStart".toList
  | cycleEnd => "CycleEnd".toList
  | replayStart => "ReplayStart".toList
  | replayEnd => "ReplayEnd".toList
  | snapshot => "Snapshot".toList
  | agentAction => "AgentAction".toList
  | regionCreated => "RegionCreated".toList
  | regionActivated => "RegionActivated".toList
  | regionMerged => "RegionMerged".toList
  | regionEvicted => "RegionEvicted".toList
  | contextWindowGenerated => "ContextWindowGenerated".toList

variable {Payload : Type}

structure TraceEvent (Payload : Type) where
  id : Str
  timestamp : UInt64
  eventType : EventType
  payload : Payload
  sequenceNumber : UInt64
  prevHash : Str
  hash : Str

structure EventLog (Payload : Type) where
  sessionId : Str
  events : List (TraceEvent Payload)

structure LogIntegrity where
  valid : Bool
  verifiedEvents : ℕ
  errors : List Str

/-- What is left open: the digest and the serialization of payloads. -/
structure Format (Payload : Type) where
  sha256Hex : Str → Str
  payloadJson : Payload → Str

def genesisHash : Str :=
  "GENESIS".toList

/-- The hashed part of an event next to its predecessor. -/
abbrev Content := UInt64 × EventType × Str

/-- What is hashed for an event. -/
def linkText (prevHash : Str) (content : Content) : Str :=
  prevHash ++ '|' :: (Str.decimal content.1.toNat ++ '|' :: (content.2.1.debug ++ '|' :: content.2.2))

namespace Format

variable (format : Format Payload)

def linkHash (prevHash : Str) (seq : UInt64) (eventType : EventType) (payload : Payload) : Str :=
  format.sha256Hex (linkText prevHash (seq, eventType, format.payloadJson payload))

/-- The sequence number, the type and the payload of an event, as they are hashed. -/
def content (event : TraceEvent Payload) : Content :=
  (event.sequenceNumber, event.eventType, format.payloadJson event.payload)

/-- All of an event but its id and its timestamp. -/
def committed (event : TraceEvent Payload) : Content × Str × Str :=
  (format.content event, event.prevHash, event.hash)

/-- The link of an event over its content. -/
def link (prevHash : Str) (_ : ℕ) (content : Content) : Str :=
  format.sha256Hex (linkText prevHash content)

end Format

namespace EventLog

variable (format : Format Payload)

def new (sessionId : Str) : EventLog Payload where
  sessionId := sessionId
  events := []

def chainHead (log : EventLog Payload) : Str :=
  (log.events.getLast?.map TraceEvent.hash).getD genesisHash

/-- The log after an append, with the fresh id and the time that it meets. -/
def append (log : EventLog Payload) (id : Str) (now : UInt64) (eventType : EventType)
    (payload : Payload) : EventLog Payload :=
  let seq := UInt64.ofNat log.events.length
  { log with events := log.events ++ [{
      id
      timestamp := now
      eventType
      payload
      sequenceNumber := seq
      prevHash := log.chainHead
      hash := format.linkHash log.chainHead seq eventType payload }] }

/-- What the verification finds wrong with the event at a position. -/
def eventErrors (prev : Str) (i : ℕ) (event : TraceEvent Payload) : List Str :=
  let place := "event ".toList ++ Str.decimal i ++ " (seq ".toList ++
    Str.decimal event.sequenceNumber.toNat ++ "): ".toList
  (if event.prevHash ≠ prev then
    [place ++ "broken link — prev_hash does not match the chain".toList]
  else []) ++
  (if event.hash = format.linkHash prev event.sequenceNumber event.eventType event.payload then []
  else [place ++ "content tampered — hash mismatch".toList])

/-- The errors of the events from a position on, and how many of their hashes match. -/
def verifyFrom : Str → ℕ → List (TraceEvent Payload) → List Str × ℕ
  | _, _, [] => ([], 0)
  | prev, i, event :: events =>
    let rest := verifyFrom event.hash (i + 1) events
    let matched := event.hash =
      format.linkHash prev event.sequenceNumber event.eventType event.payload
    (eventErrors format prev i event ++ rest.1, if matched then rest.2 + 1 else rest.2)

def verifyIntegrity (log : EventLog Payload) : LogIntegrity :=
  let result := verifyFrom format genesisHash 0 log.events
  { valid := result.1.isEmpty
    verifiedEvents := result.2
    errors := result.1 }

/-- The sequence of contents that a log stands for. -/
def contents (log : EventLog Payload) : List Content :=
  log.events.map format.content

/-- The texts that the chain of a log hashes. -/
def hashed (log : EventLog Payload) : List Str :=
  (inputs format.link genesisHash 0 (log.contents format)).map fun input ↦
    linkText input.1 input.2.2

/-- A log that appends lead to. -/
inductive Reachable : EventLog Payload → Prop where
  | new (sessionId : Str) : Reachable (new sessionId)
  | append {log : EventLog Payload} (hlog : Reachable log) (id : Str) (now : UInt64)
      (eventType : EventType) (payload : Payload) :
      Reachable (log.append format id now eventType payload)

/-- One event modified (in more than its id and timestamp), swapped with another one, inserted or
dropped. -/
inductive Edited (log : EventLog Payload) : EventLog Payload → Prop where
  | modified (i : ℕ) (hi : i < log.events.length) (event : TraceEvent Payload)
      (hevent : format.committed event ≠ format.committed log.events[i]) :
      Edited log { log with events := log.events.set i event }
  | swapped (i j : ℕ) (hij : i < j) (hj : j < log.events.length) :
      Edited log { log with events := (log.events.set i log.events[j]).set j log.events[i] }
  | inserted (i : ℕ) (hi : i ≤ log.events.length) (event : TraceEvent Payload) :
      Edited log { log with events := log.events.insertIdx i event }
  | dropped (i : ℕ) (hi : i < log.events.length) :
      Edited log { log with events := log.events.eraseIdx i }

end EventLog

/-! ## Logs that verify -/

/-- Every event names the hash before it and has the hash that is computed from it. -/
def Linked (format : Format Payload) : Str → List (TraceEvent Payload) → Prop
  | _, [] => True
  | prev, event :: events =>
    event.prevHash = prev ∧ event.hash = format.link prev 0 (format.content event) ∧
      Linked format event.hash events

variable {format : Format Payload}

/-- The hash that the next event names. -/
def lastHash (prev : Str) (events : List (TraceEvent Payload)) : Str :=
  head prev (events.map TraceEvent.hash)

theorem chainHead_eq (log : EventLog Payload) : log.chainHead = lastHash genesisHash log.events := by
  rw [lastHash, head, List.getLast?_map, EventLog.chainHead]

theorem errors_eq_nil_iff {prev : Str} {i : ℕ} {events : List (TraceEvent Payload)} :
    (EventLog.verifyFrom format prev i events).1 = [] ↔ Linked format prev events := by
  induction events generalizing prev i with
  | nil => exact ⟨fun _ ↦ trivial, fun _ ↦ rfl⟩
  | cons event events ih =>
    rw [EventLog.verifyFrom, Linked, ← @ih event.hash (i + 1)]
    have hlink : format.link prev 0 (format.content event) =
      format.linkHash prev event.sequenceNumber event.eventType event.payload := rfl
    simp only [EventLog.eventErrors, List.append_eq_nil_iff, ite_eq_left_iff, ite_eq_right_iff,
      List.cons_ne_nil, imp_false, not_not, hlink, and_assoc]

theorem verified_of_linked {prev : Str} {i : ℕ} {events : List (TraceEvent Payload)}
    (hlinked : Linked format prev events) :
    (EventLog.verifyFrom format prev i events).2 = events.length := by
  induction events generalizing prev i with
  | nil => rfl
  | cons event events ih =>
    have hhash : event.hash =
      format.linkHash prev event.sequenceNumber event.eventType event.payload := hlinked.2.1
    rw [EventLog.verifyFrom, if_pos hhash, ih hlinked.2.2, List.length_cons]

theorem valid_iff (log : EventLog Payload) :
    (log.verifyIntegrity format).valid = true ↔ Linked format genesisHash log.events := by
  rw [EventLog.verifyIntegrity, List.isEmpty_iff, errors_eq_nil_iff]

/-- A linked log stays linked by an event that names its last hash. -/
theorem Linked.concat {prev : Str} {events : List (TraceEvent Payload)} {event : TraceEvent Payload}
    (hlinked : Linked format prev events) (hprev : event.prevHash = lastHash prev events)
    (hhash : event.hash = format.link (lastHash prev events) 0 (format.content event)) :
    Linked format prev (events ++ [event]) := by
  induction events generalizing prev with
  | nil => exact ⟨hprev, hhash, trivial⟩
  | cons first events ih =>
    rw [lastHash, List.map_cons, head_cons] at hprev hhash
    exact ⟨hlinked.1, hlinked.2.1, ih hlinked.2.2 hprev hhash⟩

theorem Linked.take {prev : Str} {events : List (TraceEvent Payload)}
    (hlinked : Linked format prev events) (n : ℕ) : Linked format prev (events.take n) := by
  induction events generalizing prev n with
  | nil => rw [List.take_nil]; trivial
  | cons event events ih =>
    cases n with
    | zero => trivial
    | succ n => exact ⟨hlinked.1, hlinked.2.1, ih hlinked.2.2 n⟩

theorem linked_of_reachable {log : EventLog Payload} (hlog : EventLog.Reachable format log) :
    Linked format genesisHash log.events := by
  induction hlog with
  | new sessionId => trivial
  | append hlog id now eventType payload ih =>
    apply ih.concat
    · exact chainHead_eq _
    · rw [← chainHead_eq]
      rfl

/-- The hashes of a linked log are the chain over its contents. -/
theorem Linked.map_hash {prev : Str} {events : List (TraceEvent Payload)}
    (hlinked : Linked format prev events) (first : ℕ) :
    events.map TraceEvent.hash = chainOver format.link prev first (events.map format.content) := by
  induction events generalizing prev first with
  | nil => rfl
  | cons event events ih =>
    have hhash : event.hash = format.link prev first (format.content event) := hlinked.2.1
    rw [List.map_cons, List.map_cons, chainOver, ih hlinked.2.2 (first + 1), ← hhash]

/-- Linked events with the same contents differ in their ids and timestamps only. -/
theorem Linked.map_committed {prev : Str} {events events' : List (TraceEvent Payload)}
    (hlinked : Linked format prev events) (hlinked' : Linked format prev events')
    (hcontents : events.map format.content = events'.map format.content) :
    events.map format.committed = events'.map format.committed := by
  induction events generalizing prev events' with
  | nil =>
    rw [List.map_nil, List.nil_eq, List.map_eq_nil_iff] at hcontents
    rw [hcontents]
  | cons event events ih =>
    cases events' with
    | nil => cases hcontents
    | cons event' events' =>
      rw [List.map_cons, List.map_cons, List.cons.injEq] at hcontents
      have hhash : event.hash = event'.hash := by
        rw [hlinked.2.1, hlinked'.2.1, hcontents.1]
      have hrest := hlinked'.2.2
      rw [← hhash] at hrest
      rw [List.map_cons, List.map_cons, ih hlinked.2.2 hrest hcontents.2, Format.committed,
        Format.committed, hcontents.1, hlinked.1, hlinked'.1, hhash]

/-! ## The head commits to the content -/

/-- The digest as text: hexadecimal digits. -/
def HexDigits (sha256Hex : Str → Str) : Prop :=
  ∀ text, sha256Hex text ⊆ "0123456789abcdef".toList

section Commitment

variable (hdigits : HexDigits format.sha256Hex)

theorem bar_not_mem_debug (eventType : EventType) : '|' ∉ eventType.debug := by
  cases eventType <;> decide

theorem debug_injective : Function.Injective EventType.debug := by
  intro first second heq
  cases first <;> cases second <;> first | rfl | (exact absurd heq (by decide))

/-- The parts of a hashed text can be told apart. -/
theorem linkText_inj {prev prev' : Str} {content content' : Content} (hprev : '|' ∉ prev)
    (hprev' : '|' ∉ prev') (heq : linkText prev content = linkText prev' content') :
    prev = prev' ∧ content = content' := by
  have hbar : ∀ n : ℕ, '|' ∉ Str.decimal n := fun n ↦ Str.not_mem_decimal (by decide) n
  obtain ⟨hsame, hrest⟩ := Str.append_cons_inj hprev hprev' heq
  obtain ⟨hseq, hrest⟩ := Str.append_cons_inj (hbar _) (hbar _) hrest
  obtain ⟨htype, hjson⟩ := Str.append_cons_inj (bar_not_mem_debug _) (bar_not_mem_debug _) hrest
  refine ⟨hsame, Prod.ext ?_ (Prod.ext (debug_injective htype) hjson)⟩
  exact UInt64.toNat_inj.mp (Str.decimal_injective hseq)

include hdigits

theorem bar_not_mem_prev {first : ℕ} {contents : List Content} {input : Str × ℕ × Content}
    (hinput : input ∈ inputs format.link genesisHash first contents) : '|' ∉ input.1 := by
  rcases prev_of_mem_inputs hinput with hanchor | ⟨prev, seq, content, hlink⟩
  · rw [hanchor]
    decide
  · rw [hlink]
    intro hmem
    exact absurd (hdigits _ hmem) (by decide)

theorem link_ne_genesis (prev : Str) (seq : ℕ) (content : Content) :
    format.link prev seq content ≠ genesisHash := by
  intro heq
  have hmem : 'G' ∈ format.link prev seq content := by
    rw [heq]
    decide
  exact absurd (hdigits _ hmem) (by decide)

/-- Linked logs with one head have the same contents. -/
theorem contents_eq_of_head_eq {log log' : EventLog Payload}
    (hinjective : Set.InjOn format.sha256Hex
      (fun text ↦ text ∈ log.hashed format ∨ text ∈ log'.hashed format))
    (hlinked : Linked format genesisHash log.events)
    (hlinked' : Linked format genesisHash log'.events) (hhead : log.chainHead = log'.chainHead) :
    log.contents format = log'.contents format := by
  rw [chainHead_eq, chainHead_eq, lastHash, lastHash, hlinked.map_hash 0, hlinked'.map_hash 0] at hhead
  have hbinding : Binding format.link id (inputs format.link genesisHash 0 (log.contents format))
      (inputs format.link genesisHash 0 (log'.contents format)) := by
    intro a ha b hb hcollide
    apply linkText_inj (bar_not_mem_prev hdigits ha) (bar_not_mem_prev hdigits hb)
    apply hinjective
    · exact .inl (List.mem_map.mpr ⟨a, ha, rfl⟩)
    · exact .inr (List.mem_map.mpr ⟨b, hb, rfl⟩)
    · exact hcollide
  have hfresh : ∀ used, Fresh format.link genesisHash used :=
    fun _ _ _ ↦ link_ne_genesis hdigits _ _ _
  have hcommit := map_code_eq_of_head_eq hbinding (hfresh _) (hfresh _) hhead
  rwa [List.map_id, List.map_id] at hcommit

/-- No two events of a linked log have the same hash. -/
theorem hash_ne_of_linked {log : EventLog Payload}
    (hinjective : Set.InjOn format.sha256Hex (fun text ↦ text ∈ log.hashed format))
    (hlinked : Linked format genesisHash log.events) {i j : ℕ} (hij : i < j)
    (hj : j < log.events.length) : log.events[i].hash ≠ log.events[j].hash := by
  intro heq
  have hhead : ∀ n (hn : n < log.events.length),
      EventLog.chainHead { log with events := log.events.take (n + 1) } = log.events[n].hash := by
    intro n hn
    rw [EventLog.chainHead, List.take_succ_eq_append_getElem hn, List.getLast?_concat]
    rfl
  have hsub : ∀ n, ∀ text ∈ EventLog.hashed format { log with events := log.events.take n },
      text ∈ log.hashed format := by
    intro n text htext
    obtain ⟨input, hinput, rfl⟩ := List.mem_map.mp htext
    refine List.mem_map.mpr ⟨input, ?_, rfl⟩
    have hcontents : log.contents format =
        EventLog.contents format { log with events := log.events.take n } ++
          (log.events.drop n).map format.content := by
      rw [EventLog.contents, EventLog.contents, ← List.map_append, List.take_append_drop]
    rw [hcontents, inputs_append]
    exact List.mem_append_left _ hinput
  have hcommit : EventLog.contents format { log with events := log.events.take (i + 1) } =
      EventLog.contents format { log with events := log.events.take (j + 1) } :=
    contents_eq_of_head_eq hdigits
      (hinjective.mono fun text htext ↦ htext.elim (hsub _ text) (hsub _ text))
      (hlinked.take _) (hlinked.take _) (by rw [hhead i (hij.trans hj), hhead j hj, heq])
  have hlength := congrArg List.length hcommit
  simp only [EventLog.contents, List.length_map, List.length_take] at hlength
  omega

/-- An edit of a linked log breaks its links or changes its head. -/
theorem not_edited_of_head_eq {log edited : EventLog Payload}
    (hinjective : Set.InjOn format.sha256Hex
      (fun text ↦ text ∈ log.hashed format ∨ text ∈ edited.hashed format))
    (hlinked : Linked format genesisHash log.events)
    (hlinked' : Linked format genesisHash edited.events)
    (hhead : log.chainHead = edited.chainHead) : ¬ EventLog.Edited format log edited := by
  have hcontents := contents_eq_of_head_eq hdigits hinjective hlinked hlinked' hhead
  have hcommitted := hlinked.map_committed hlinked' hcontents
  have hlength : log.events.length = edited.events.length := by
    simpa using congrArg List.length hcommitted
  intro hedited
  cases hedited with
  | modified i hi event hevent =>
    have hat := congrArg (fun committed ↦ committed[i]?) hcommitted
    simp only [List.getElem?_map, List.getElem?_set_self hi, List.getElem?_eq_getElem hi,
      Option.map_some, Option.some.injEq] at hat
    exact hevent hat.symm
  | swapped i j hij hj =>
    have hat := congrArg (fun committed ↦ committed[i]?) hcommitted
    simp only [List.getElem?_map, List.getElem?_set_ne (Nat.ne_of_gt hij),
      List.getElem?_set_self (hij.trans hj), List.getElem?_eq_getElem (hij.trans hj),
      Option.map_some, Option.some.injEq, Format.committed, Prod.mk.injEq] at hat
    exact hash_ne_of_linked hdigits (hinjective.mono fun _ ↦ Or.inl) hlinked hij hj hat.2.2
  | inserted i hi event =>
    simp only [List.length_insertIdx_of_le_length hi] at hlength
    omega
  | dropped i hi =>
    simp only [List.length_eraseIdx_of_lt hi] at hlength
    omega

end Commitment

/-- **The chain of the event log.**  Every log that appends lead to verifies in full, and two logs
that verify with one head have the same contents; an edit of a log that verifies leaves it invalid
or with another head. -/
theorem eventLog_tamperEvident (format : Format Payload) (hdigits : HexDigits format.sha256Hex) :
    (∀ log : EventLog Payload, EventLog.Reachable format log →
      (log.verifyIntegrity format).valid = true ∧
      (log.verifyIntegrity format).verifiedEvents = log.events.length) ∧
    (∀ first second : EventLog Payload,
      Set.InjOn format.sha256Hex
        (fun text ↦ text ∈ first.hashed format ∨ text ∈ second.hashed format) →
      (first.verifyIntegrity format).valid = true → (second.verifyIntegrity format).valid = true →
      first.chainHead = second.chainHead →
      first.contents format = second.contents format ∧
        ¬ EventLog.Edited format first second) := by
  constructor
  · intro log hlog
    have hlinked := linked_of_reachable hlog
    exact ⟨(valid_iff log).mpr hlinked, verified_of_linked hlinked⟩
  · intro first second hinjective hfirst hsecond hhead
    rw [valid_iff] at hfirst hsecond
    exact ⟨contents_eq_of_head_eq hdigits hinjective hfirst hsecond hhead,
      not_edited_of_head_eq hdigits hinjective hfirst hsecond hhead⟩

/-! ## Two cycles -/

/-- The texts of two cycle events. -/
def cycleJson (second : Bool) : Str :=
  (if second then ["\x7b\"CycleEvent\":", "\x7b\"cycle_number\":1,", "\"action\":\"c1\"\x7d\x7d"]
  else ["\x7b\"CycleEvent\":", "\x7b\"cycle_number\":0,", "\"action\":\"c0\"\x7d\x7d"]).flatMap
    String.toList

/-- The hashes of these two events in a log. -/
def cycleHashes : Str × Str :=
  (["28a7b10e6f4eb8c8", "816072c5d1a7f696", "9f6f0dfffd676c26",
      "7468621dd87d07f9"].flatMap String.toList,
    ["56603a8961f47d97", "3485bed362b6afd1", "ad9aaa5d6747e44e",
      "2d32f769e1cc9932"].flatMap String.toList)

/-- A digest that is right about these events. -/
def cycleFormat : Format Bool where
  sha256Hex := fun text ↦
    if text = linkText genesisHash (0, .cycleStart, cycleJson false) then cycleHashes.1
    else if text = linkText cycleHashes.1 (1, .cycleStart, cycleJson true) then cycleHashes.2
    else List.replicate 64 '0'
  payloadJson := cycleJson

theorem cycleFormat_digits : HexDigits cycleFormat.sha256Hex := by
  intro text
  simp only [cycleFormat]
  split
  · decide +kernel
  · split
    · decide +kernel
    · decide +kernel

/-- Both events, with ids and times of a run. -/
def cycleLog (ids : Str × Str) (now : UInt64) : EventLog Bool :=
  ((EventLog.new []).append cycleFormat ids.1 now .cycleStart false).append cycleFormat ids.2 now
    .cycleStart true

theorem eventLog_tamperEvident_cycleLog :
    (cycleLog (['a'], ['b']) 5).contents cycleFormat =
      (cycleLog (['x'], ['y']) 9).contents cycleFormat := by
  have htexts : ∀ a ∈ (cycleLog (['a'], ['b']) 5).hashed cycleFormat,
      ∀ b ∈ (cycleLog (['a'], ['b']) 5).hashed cycleFormat,
        cycleFormat.sha256Hex a = cycleFormat.sha256Hex b → a = b := by decide +kernel
  have hsame : (cycleLog (['x'], ['y']) 9).hashed cycleFormat =
    (cycleLog (['a'], ['b']) 5).hashed cycleFormat := rfl
  have hvalid : ((cycleLog (['a'], ['b']) 5).verifyIntegrity cycleFormat).valid = true ∧
      ((cycleLog (['x'], ['y']) 9).verifyIntegrity cycleFormat).valid = true ∧
      (cycleLog (['a'], ['b']) 5).chainHead = (cycleLog (['x'], ['y']) 9).chainHead := by
    decide +kernel
  refine ((eventLog_tamperEvident cycleFormat cycleFormat_digits).2 _ _ ?_ hvalid.1 hvalid.2.1
    hvalid.2.2).1
  rw [hsame]
  intro a ha b hb
  exact htexts a (or_self_iff.mp ha) b (or_self_iff.mp hb)

end SoulSystem.Ccos.Trace
