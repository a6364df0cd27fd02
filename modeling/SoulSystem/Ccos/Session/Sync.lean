import SoulSystem.Library.SortedMap
import SoulSystem.Ccos.Session.Integrity

/-!
# Exchange of timelines between agents

An agent exports a segment of its timeline as a bundle, and a receiver keeps one log for every other
agent.  An import verifies the links of the bundle, its continuity with the log, and the key that
the agent is pinned to, before it changes anything; then it appends what is new.

Whatever bundles arrive, the logs only grow, their chains verify from the start marker, a refused
bundle changes nothing and a pinned key stays.  Logs of one agent with one head are equal, and a log
that is fed from one honest timeline is a prefix of it.
-/

namespace SoulSystem.Ccos.Session

open Library HashChain SortedMap Std.ExtTreeMap

/-! ## Bundles -/

structure SyncBundle (Op : Type) where
  version : ℕ
  agent : Str
  firstSeq : ℕ
  anchor : Str
  ops : List Op
  chain : List Str
  pubkey : Option Str
  sig : Option Str

inductive SyncError where
  | noAgentId
  | selfImport
  | compactedHistory
  | gap (known bundleStart : ℕ)
  | tampered (detail : Str)
  | diverged (step : ℕ)
  | badSignature (detail : Str)
  | keyMismatch (agent : Str)
  | unsignedFromPinned (agent : Str)
  | signedUnsupported

/-- The check of a signature over a bundle, with a public key and a signature as texts. -/
abbrev SignatureCheck (Op : Type) := SyncBundle Op → Str → Str → Except SyncError Unit

namespace AgentSession

variable {Op Memory : Type}

/-- Export the operations from a step on; a workspace with a key signs what it exports. -/
def exportBundle (sign : SyncBundle Op → Option (Str × Str)) (session : AgentSession Op Memory)
    (since : ℕ) : Except SyncError (SyncBundle Op) :=
  if session.agent.isEmpty then
    .error .noAgentId
  else if since < session.folded then
    .error .compactedHistory
  else
    let start := min (since - session.folded) session.ops.length
    let bundle : SyncBundle Op := {
      version := 1
      agent := session.agent
      firstSeq := since
      anchor := if start = 0 then session.anchor else (session.chain[start - 1]?).getD session.anchor
      ops := session.ops.drop start
      chain := session.chain.drop start
      pubkey := none
      sig := none }
    match sign bundle with
    | some (pubkey, sig) => .ok { bundle with pubkey := some pubkey, sig := some sig }
    | none => .ok bundle

/-- The authenticity check: the key to pin after the import, if any. -/
def pinAfter (check : SignatureCheck Op) (session : AgentSession Op Memory)
    (bundle : SyncBundle Op) : Except SyncError (Option Str) :=
  match bundle.pubkey, bundle.sig with
  | some pubkey, some sig => do
      check bundle pubkey sig
      match session.knownKeys[bundle.agent]? with
      | some pinned =>
        if pinned ≠ pubkey then .error (.keyMismatch bundle.agent) else .ok none
      | none => .ok (some pubkey)
  | none, none =>
    if (session.knownKeys[bundle.agent]?).isSome then
      .error (.unsignedFromPinned bundle.agent)
    else
      .ok none
  | _, _ =>
    .error (.badSignature "pubkey and sig must both be present or both absent".toList)

/-- Every link recomputes from the one before it. -/
def checkLinks (engine : Engine Op Memory) :
    Str → ℕ → List Op → List Str → Except SyncError Unit
  | prev, seq, op :: ops, link :: chain =>
    if engine.opLinkHash prev seq op ≠ link then
      .error (.tampered ("link t=".toList ++ decimal (seq + 1) ++ " does not verify".toList))
    else
      checkLinks engine link (seq + 1) ops chain
  | _, _, [], _ => .ok ()
  | _, _, _ :: _, [] => .ok ()

/-- Every link agrees with the known one at its step, up to the end of what is known. -/
def checkOverlap (known : List Str) : ℕ → List Str → Except SyncError Unit
  | seq, link :: chain =>
    match known[seq]? with
    | some existing =>
      if existing ≠ link then .error (.diverged (seq + 1)) else checkOverlap known (seq + 1) chain
    | none => .ok ()
  | _, [] => .ok ()

/-- The bundle continues what is known of its agent. -/
def checkContinuity (session : AgentSession Op Memory) (bundle : SyncBundle Op) :
    Except SyncError Unit :=
  match session.foreign[bundle.agent]? with
  | some known =>
    if known.ops.length < bundle.firstSeq then
      .error (.gap known.ops.length bundle.firstSeq)
    else if 0 < bundle.firstSeq ∧ known.chain[bundle.firstSeq - 1]? ≠ some bundle.anchor then
      .error (.diverged bundle.firstSeq)
    else
      checkOverlap known.chain bundle.firstSeq bundle.chain
  | none => if 0 < bundle.firstSeq then .error (.gap 0 bundle.firstSeq) else .ok ()

/-- All checks of an import in their order. -/
def checkBundle (engine : Engine Op Memory) (check : SignatureCheck Op)
    (session : AgentSession Op Memory) (bundle : SyncBundle Op) :
    Except SyncError (Option Str) :=
  if bundle.agent.isEmpty then
    .error (.tampered "bundle has no agent id".toList)
  else if bundle.agent = session.agent then
    .error .selfImport
  else do
    let pin ← pinAfter check session bundle
    if bundle.ops.length ≠ bundle.chain.length then
      .error (.tampered (decimal bundle.ops.length ++ " op(s) but ".toList ++
        decimal bundle.chain.length ++ " chain link(s)".toList))
    else if bundle.firstSeq = 0 ∧ bundle.anchor ≠ timelineGenesis then
      .error (.tampered "a genesis bundle must anchor at GENESIS".toList)
    else do
      checkLinks engine bundle.anchor bundle.firstSeq bundle.ops bundle.chain
      checkContinuity session bundle
      .ok pin

/-- How many operations of a bundle are known already. -/
def overlap (known : ForeignLog Op) (bundle : SyncBundle Op) : ℕ :=
  min (known.ops.length - bundle.firstSeq) bundle.ops.length

/-- A log with the new operations of a bundle. -/
def extended (known : ForeignLog Op) (bundle : SyncBundle Op) : ForeignLog Op where
  ops := known.ops ++ bundle.ops.drop (overlap known bundle)
  chain := known.chain ++ bundle.chain.drop (overlap known bundle)

/-- What is known of an agent. -/
def knownLog (session : AgentSession Op Memory) (agent : Str) : ForeignLog Op :=
  (session.foreign[agent]?).getD ⟨[], []⟩

/-- The session after an import and its answer, the number of new operations. -/
def importBundle (engine : Engine Op Memory) (check : SignatureCheck Op)
    (session : AgentSession Op Memory) (bundle : SyncBundle Op) :
    AgentSession Op Memory × Except SyncError ℕ :=
  match checkBundle engine check session bundle with
  | .error error => (session, .error error)
  | .ok pin =>
    let known := session.knownLog bundle.agent
    ({ session with
        foreign := session.foreign.insert bundle.agent (extended known bundle)
        knownKeys := match pin with
          | some pubkey => session.knownKeys.insert bundle.agent pubkey
          | none => session.knownKeys },
      .ok (bundle.ops.length - overlap known bundle))

def importAll (engine : Engine Op Memory) (check : SignatureCheck Op)
    (session : AgentSession Op Memory) (bundles : List (SyncBundle Op)) :
    AgentSession Op Memory :=
  bundles.foldl (fun session bundle ↦ (session.importBundle engine check bundle).1) session

end AgentSession

variable {Op Memory : Type} {engine : Engine Op Memory} {check : SignatureCheck Op}
  {session : AgentSession Op Memory} {bundle : SyncBundle Op}

open AgentSession

/-! ## What an accepted bundle satisfies -/

theorem checkLinks_eq_ok_iff (prev : Str) (seq : ℕ) (ops : List Op) (chain : List Str) :
    checkLinks engine prev seq ops chain = .ok () ↔ Links engine.opLinkHash prev seq ops chain := by
  induction ops generalizing prev seq chain with
  | nil =>
    unfold checkLinks Links
    simp
  | cons op ops ih =>
    cases chain with
    | nil =>
      unfold checkLinks Links
      simp
    | cons link chain =>
      rw [checkLinks, Links, ← ih]
      by_cases hlink : engine.opLinkHash prev seq op = link
      · rw [if_neg (not_not.mpr hlink)]
        exact ⟨fun hrest ↦ ⟨hlink, hrest⟩, And.right⟩
      · rw [if_pos hlink]
        constructor
        · intro heq
          cases heq
        · rintro ⟨heq, _⟩
          exact absurd heq hlink

/-- Where the overlap was accepted, it is the known segment. -/
theorem take_eq_of_checkOverlap {known : List Str} {seq : ℕ} {chain : List Str} (n : ℕ)
    (hcheck : checkOverlap known seq chain = .ok ()) (hn : n ≤ chain.length)
    (hknown : seq + n ≤ known.length) : chain.take n = (known.drop seq).take n := by
  induction chain generalizing seq n with
  | nil =>
    have hzero : n = 0 := by simpa using hn
    subst hzero
    rfl
  | cons link chain ih =>
    cases n with
    | zero => rfl
    | succ n =>
      have hseq : seq < known.length := by omega
      rw [checkOverlap, List.getElem?_eq_getElem hseq] at hcheck
      simp only [] at hcheck
      split at hcheck
      · cases hcheck
      · rename_i hsame
        have hrest := ih n hcheck (by simpa using hn) (by omega)
        rw [List.take_succ_cons, hrest, List.drop_eq_getElem_cons hseq, List.take_succ_cons,
          not_not.mp hsame]

/-- The facts about a bundle that an import established. -/
structure Admitted (engine : Engine Op Memory) (session : AgentSession Op Memory)
    (bundle : SyncBundle Op) (pin : Option Str) : Prop where
  chain : bundle.chain =
    chainOver engine.opLinkHash bundle.anchor bundle.firstSeq bundle.ops
  genesis : bundle.firstSeq = 0 → bundle.anchor = timelineGenesis
  reaches : bundle.firstSeq ≤ (session.knownLog bundle.agent).ops.length
  anchor : 0 < bundle.firstSeq →
    (session.knownLog bundle.agent).chain[bundle.firstSeq - 1]? = some bundle.anchor
  overlaps : checkOverlap (session.knownLog bundle.agent).chain bundle.firstSeq bundle.chain = .ok ()
  pins : ∀ pubkey, pin = some pubkey → session.knownKeys[bundle.agent]? = none

theorem ok_of_bind {ε α β : Type} {x : Except ε α} {f : α → Except ε β} {b : β}
    (hbind : (x >>= f) = .ok b) : ∃ a, x = .ok a ∧ f a = .ok b := by
  cases x with
  | error error => cases hbind
  | ok a => exact ⟨a, rfl, hbind⟩

theorem knownKeys_of_pinAfter {pubkey : Str}
    (hpin : pinAfter check session bundle = .ok (some pubkey)) :
    session.knownKeys[bundle.agent]? = none := by
  unfold pinAfter at hpin
  split at hpin
  · obtain ⟨_, _, hmatch⟩ := ok_of_bind hpin
    split at hmatch
    · split at hmatch <;> cases hmatch
    · rename_i hnone
      exact hnone
  · split at hpin <;> cases hpin
  · cases hpin

theorem overlaps_nil (seq : ℕ) (chain : List Str) : checkOverlap [] seq chain = .ok () := by
  cases chain <;> rfl

theorem admitted_of_checkContinuity
    (hcheck : checkContinuity session bundle = .ok ()) :
    bundle.firstSeq ≤ (session.knownLog bundle.agent).ops.length ∧
      (0 < bundle.firstSeq →
        (session.knownLog bundle.agent).chain[bundle.firstSeq - 1]? = some bundle.anchor) ∧
      checkOverlap (session.knownLog bundle.agent).chain bundle.firstSeq bundle.chain = .ok () := by
  unfold checkContinuity at hcheck
  unfold knownLog
  cases hknown : session.foreign[bundle.agent]? with
  | none =>
    simp only [hknown] at hcheck
    split at hcheck
    · cases hcheck
    · rename_i hzero
      refine ⟨Nat.le_of_not_lt hzero, fun hpos ↦ absurd hpos hzero, overlaps_nil _ _⟩
  | some known =>
    simp only [hknown] at hcheck
    split at hcheck
    · cases hcheck
    · rename_i hreach
      split at hcheck
      · cases hcheck
      · rename_i hanchor
        refine ⟨Nat.le_of_not_lt hreach, ?_, hcheck⟩
        intro hpos
        by_contra hne
        exact hanchor ⟨hpos, hne⟩

theorem admitted_of_checkBundle {pin : Option Str}
    (hcheck : checkBundle engine check session bundle = .ok pin) :
    Admitted engine session bundle pin := by
  unfold checkBundle at hcheck
  split at hcheck
  · cases hcheck
  · split at hcheck
    · cases hcheck
    · obtain ⟨found, hpin, hrest⟩ := ok_of_bind hcheck
      split at hrest
      · cases hrest
      · rename_i hlength
        split at hrest
        · cases hrest
        · rename_i hgenesis
          obtain ⟨_, hlinks, hrest⟩ := ok_of_bind hrest
          obtain ⟨_, hcontinuity, hfound⟩ := ok_of_bind hrest
          cases hfound
          obtain ⟨hreaches, hanchor, hoverlaps⟩ := admitted_of_checkContinuity hcontinuity
          refine ⟨?_, ?_, hreaches, hanchor, hoverlaps, ?_⟩
          · exact (links_iff _ _ _ _ (not_not.mp hlength).symm).mp
              ((checkLinks_eq_ok_iff _ _ _ _).mp hlinks)
          · intro hzero
            by_contra hne
            exact hgenesis ⟨hzero, hne⟩
          · rintro pubkey rfl
            exact knownKeys_of_pinAfter hpin

/-! ## Logs grow and verify -/

/-- The chain of a log is the chain over its operations from the start marker. -/
def ForeignLog.Verified (engine : Engine Op Memory) (log : ForeignLog Op) : Prop :=
  log.chain = chainOver engine.opLinkHash timelineGenesis 0 log.ops

/-- A log is an extension of another. -/
def ForeignLog.Extends (later earlier : ForeignLog Op) : Prop :=
  earlier.ops <+: later.ops ∧ earlier.chain <+: later.chain

theorem ForeignLog.Verified.length_chain {log : ForeignLog Op} (hverified : log.Verified engine) :
    log.chain.length = log.ops.length := by
  rw [hverified, length_chainOver]

theorem extended_extends (known : ForeignLog Op) (bundle : SyncBundle Op) :
    (extended known bundle).Extends known :=
  ⟨List.prefix_append _ _, List.prefix_append _ _⟩

/-- The anchor of an accepted bundle is the known head at its first step. -/
theorem Admitted.anchor_eq {pin : Option Str} (hadmitted : Admitted engine session bundle pin)
    (hverified : (session.knownLog bundle.agent).Verified engine) :
    bundle.anchor = head timelineGenesis
      ((session.knownLog bundle.agent).chain.take bundle.firstSeq) := by
  have hreaches := hadmitted.reaches
  have hgenesis := hadmitted.genesis
  have hanchor := hadmitted.anchor
  cases hfirst : bundle.firstSeq with
  | zero => exact hgenesis hfirst
  | succ last =>
    rw [hfirst] at hreaches hanchor
    have hlast : last < (session.knownLog bundle.agent).chain.length := by
      rw [hverified.length_chain]
      exact hreaches
    have hlink := hanchor (Nat.succ_pos last)
    rw [Nat.succ_sub_one, List.getElem?_eq_getElem hlast] at hlink
    rw [head_take_succ hlast, Option.some.inj hlink]

/-- A verified log extended by an accepted bundle verifies. -/
theorem Admitted.verified_extended {pin : Option Str}
    (hadmitted : Admitted engine session bundle pin)
    (hverified : (session.knownLog bundle.agent).Verified engine) :
    (extended (session.knownLog bundle.agent) bundle).Verified engine := by
  have hreaches := hadmitted.reaches
  have hoverlaps := hadmitted.overlaps
  have hanchor := hadmitted.anchor_eq hverified
  have hlength : bundle.chain.length = bundle.ops.length := by
    rw [hadmitted.chain, length_chainOver]
  have hknownLength := hverified.length_chain
  generalize session.knownLog bundle.agent = known at *
  unfold ForeignLog.Verified extended
  simp only []
  rcases Nat.lt_or_ge (known.ops.length - bundle.firstSeq) bundle.ops.length with hnew | hold
  · have hover : overlap known bundle = known.ops.length - bundle.firstSeq :=
      min_eq_left (Nat.le_of_lt hnew)
    have htake : bundle.chain.take (known.ops.length - bundle.firstSeq) =
        known.chain.drop bundle.firstSeq := by
      rw [take_eq_of_checkOverlap _ hoverlaps (by omega) (by omega)]
      apply List.take_of_length_le
      rw [List.length_drop]
      omega
    have hhead : head bundle.anchor (bundle.chain.take (known.ops.length - bundle.firstSeq)) =
        head timelineGenesis known.chain := by
      rw [htake, hanchor, ← head_append, List.take_append_drop]
    have hsuffix : bundle.chain.drop (known.ops.length - bundle.firstSeq) =
        chainOver engine.opLinkHash (head timelineGenesis known.chain) known.ops.length
          (bundle.ops.drop (known.ops.length - bundle.firstSeq)) := by
      rw [hadmitted.chain, drop_chainOver _ _ _ _ (Nat.le_of_lt hnew), ← hadmitted.chain, hhead]
      congr 1
      omega
    rw [hover, chainOver_append, ← hverified, Nat.zero_add, hsuffix]
  · have hover : overlap known bundle = bundle.ops.length := min_eq_right hold
    rw [hover, List.drop_length, List.append_nil, ← hlength, List.drop_length, List.append_nil]
    exact hverified

theorem knownLog_of_getElem? {agent : Str} {log : ForeignLog Op}
    (hlog : session.foreign[agent]? = some log) : session.knownLog agent = log := by
  rw [knownLog, hlog, Option.getD_some]

/-- Every foreign log verifies. -/
def AllVerified (engine : Engine Op Memory) (session : AgentSession Op Memory) : Prop :=
  ∀ (agent : Str) (log : ForeignLog Op), session.foreign[agent]? = some log → log.Verified engine

theorem AllVerified.knownLog (hall : AllVerified engine session) (agent : Str) :
    (session.knownLog agent).Verified engine := by
  cases hlog : session.foreign[agent]? with
  | none =>
    rw [AgentSession.knownLog, hlog]
    rfl
  | some log =>
    rw [knownLog_of_getElem? hlog]
    exact hall agent log hlog

/-- An import is refused and changes nothing, or extends one log by an accepted bundle. -/
theorem importBundle_cases (engine : Engine Op Memory) (check : SignatureCheck Op)
    (session : AgentSession Op Memory) (bundle : SyncBundle Op) :
    (∃ error, session.importBundle engine check bundle = (session, .error error)) ∨
      ∃ pin, Admitted engine session bundle pin ∧
        session.importBundle engine check bundle =
          ({ session with
              foreign := session.foreign.insert bundle.agent
                (extended (session.knownLog bundle.agent) bundle)
              knownKeys := match pin with
                | some pubkey => session.knownKeys.insert bundle.agent pubkey
                | none => session.knownKeys },
            .ok (bundle.ops.length - overlap (session.knownLog bundle.agent) bundle)) := by
  unfold importBundle
  cases hcheck : checkBundle engine check session bundle with
  | error error => exact .inl ⟨error, rfl⟩
  | ok pin => exact .inr ⟨pin, admitted_of_checkBundle hcheck, rfl⟩

theorem AllVerified.importBundle (hall : AllVerified engine session) (bundle : SyncBundle Op) :
    AllVerified engine (session.importBundle engine check bundle).1 := by
  rcases importBundle_cases engine check session bundle with
    ⟨error, hresult⟩ | ⟨pin, hadmitted, hresult⟩
  · rw [hresult]
    exact hall
  · rw [hresult]
    intro agent log hlog
    simp only [] at hlog
    by_cases hagent : bundle.agent = agent
    · rw [← hagent, getElem?_insert_self] at hlog
      cases hlog
      exact hadmitted.verified_extended (hall.knownLog bundle.agent)
    · rw [getElem?_insert_ne _ hagent] at hlog
      exact hall agent log hlog

theorem AllVerified.importAll (hall : AllVerified engine session) (bundles : List (SyncBundle Op)) :
    AllVerified engine (session.importAll engine check bundles) := by
  induction bundles generalizing session with
  | nil => exact hall
  | cons bundle bundles ih => exact ih (hall.importBundle bundle)

theorem importBundle_grows (bundle : SyncBundle Op) {agent : Str} {log : ForeignLog Op}
    (hlog : session.foreign[agent]? = some log) :
    ∃ later, (session.importBundle engine check bundle).1.foreign[agent]? = some later ∧
      later.Extends log := by
  rcases importBundle_cases engine check session bundle with
    ⟨error, hresult⟩ | ⟨pin, _, hresult⟩
  · rw [hresult]
    exact ⟨log, hlog, List.prefix_refl _, List.prefix_refl _⟩
  · rw [hresult]
    simp only []
    by_cases hagent : bundle.agent = agent
    · refine ⟨extended log bundle, ?_, extended_extends log bundle⟩
      rw [← hagent, getElem?_insert_self, knownLog_of_getElem? (hagent ▸ hlog)]
    · exact ⟨log, by rw [getElem?_insert_ne _ hagent, hlog], List.prefix_refl _, List.prefix_refl _⟩

theorem importBundle_refused (bundle : SyncBundle Op) {error : SyncError}
    (hrefused : (session.importBundle engine check bundle).2 = .error error) :
    (session.importBundle engine check bundle).1 = session := by
  rcases importBundle_cases engine check session bundle with
    ⟨_, hresult⟩ | ⟨pin, _, hresult⟩
  · rw [hresult]
  · rw [hresult] at hrefused
    cases hrefused

theorem importBundle_keeps_key (bundle : SyncBundle Op) {agent key : Str}
    (hkey : session.knownKeys[agent]? = some key) :
    (session.importBundle engine check bundle).1.knownKeys[agent]? = some key := by
  rcases importBundle_cases engine check session bundle with
    ⟨error, hresult⟩ | ⟨pin, hadmitted, hresult⟩
  · rw [hresult]
    exact hkey
  · rw [hresult]
    cases pin with
    | none => exact hkey
    | some pubkey =>
      have hne : bundle.agent ≠ agent := by
        intro hagent
        have hnone := hadmitted.pins pubkey rfl
        rw [hagent, hkey] at hnone
        cases hnone
      simp only []
      rw [getElem?_insert_ne _ hne, hkey]

/-! ## Agreement -/

/-- The texts that the chain of a log hashes. -/
def ForeignLog.hashed (engine : Engine Op Memory) (log : ForeignLog Op) : List Str :=
  (inputs engine.opLinkHash timelineGenesis 0 log.ops).map fun input ↦
    engine.linkText input.1 input.2.1 input.2.2

def ForeignLog.head (log : ForeignLog Op) : Str :=
  HashChain.head timelineGenesis log.chain

/-- Verified logs with one head have the same chain and the same texts. -/
theorem ForeignLog.eq_of_head_eq (hdigits : HexDigits engine.sha256) {log log' : ForeignLog Op}
    (hinjective : Set.InjOn engine.sha256
      (fun text ↦ text ∈ log.hashed engine ∨ text ∈ log'.hashed engine))
    (hverified : log.Verified engine) (hverified' : log'.Verified engine)
    (hhead : log.head = log'.head) :
    log.chain = log'.chain ∧ log.ops.map engine.opJson = log'.ops.map engine.opJson := by
  have hjson : log.ops.map engine.opJson = log'.ops.map engine.opJson := by
    rw [ForeignLog.head, ForeignLog.head, hverified, hverified'] at hhead
    apply opJson_eq_of_head_eq hdigits _ hhead
    intro a ha b hb hcollide
    exact hinjective (.inl (List.mem_map_of_mem ha)) (.inr (List.mem_map_of_mem hb)) hcollide
  refine ⟨?_, hjson⟩
  have hthrough : ∀ ops : List Op, chainOver engine.opLinkHash timelineGenesis 0 ops =
      chainOver (fun prev seq json ↦
        engine.sha256 (prev ++ '|' :: (decimal seq ++ '|' :: json))) timelineGenesis 0
        (ops.map engine.opJson) := by
    intro ops
    apply chainOver_map
    exact fun _ _ _ ↦ rfl
  rw [hverified, hverified', hthrough, hthrough, hjson]

/-! ## Honest agents -/

/-- A session that has recorded these operations since it was created. -/
inductive Follows (engine : Engine Op Memory) : List Op → AgentSession Op Memory → Prop
  | new : Follows engine [] (AgentSession.new engine)
  | record {ops : List Op} {session : AgentSession Op Memory} (op : Op) (live : Memory) :
      Follows engine ops session → Follows engine (ops ++ [op]) (session.record engine op live)
  | compact {ops : List Op} {session : AgentSession Op Memory} (keep : ℕ) :
      Follows engine ops session → Follows engine ops (session.compact engine keep)
  | setAgent {ops : List Op} {session : AgentSession Op Memory} (agent : Str) :
      Follows engine ops session → Follows engine ops { session with agent }

/-- The retained operations are those after the compaction floor. -/
theorem Follows.ops_eq {ops : List Op} (hfollows : Follows engine ops session) :
    session.ops = ops.drop session.folded ∧ session.folded ≤ ops.length := by
  induction hfollows with
  | new => exact ⟨rfl, le_rfl⟩
  | record op live _ ih =>
    rw [AgentSession.record]
    simp only []
    rw [List.drop_append_of_le_length ih.2, ih.1, List.length_append]
    exact ⟨rfl, by omega⟩
  | compact keep _ ih =>
    unfold AgentSession.compact
    split
    · exact ih
    · simp only []
      split
      · exact ih
      · simp only []
        rw [ih.1, List.drop_drop, List.length_drop]
        exact ⟨rfl, by omega⟩
  | setAgent agent _ ih => exact ih

/-- An export of a session that follows a timeline carries the timeline from its first step on,
unless it carries nothing. -/
theorem ops_of_exportBundle {sign : SyncBundle Op → Option (Str × Str)} {since : ℕ}
    {ops : List Op} (hfollows : Follows engine ops session)
    (hexport : session.exportBundle sign since = .ok bundle) :
    bundle.ops = ops.drop bundle.firstSeq := by
  obtain ⟨hops, hfolded⟩ := hfollows.ops_eq
  unfold exportBundle at hexport
  split at hexport
  · cases hexport
  · split at hexport
    · cases hexport
    · rename_i hsince
      have hdrop : session.ops.drop (min (since - session.folded) session.ops.length) =
          ops.drop since := by
        rw [hops, List.drop_drop, List.length_drop]
        rcases Nat.lt_or_ge ops.length since with hpast | hwithin
        · rw [List.drop_of_length_le (by omega), List.drop_of_length_le (Nat.le_of_lt hpast)]
        · congr 1
          omega
      simp only [] at hexport
      split at hexport
      · cases hexport
        exact hdrop
      · cases hexport
        exact hdrop

/-- A bundle that some state of an honest timeline exported. -/
def Honest (engine : Engine Op Memory) (timeline : List Op) (bundle : SyncBundle Op) : Prop :=
  ∃ (ops : List Op) (session : AgentSession Op Memory) (sign : SyncBundle Op → Option (Str × Str))
    (since : ℕ), ops <+: timeline ∧ Follows engine ops session ∧
      session.exportBundle sign since = .ok bundle

/-- A prefix of a timeline extended by an honest bundle is a prefix of it. -/
theorem prefix_extended {timeline : List Op} {known : ForeignLog Op}
    (hhonest : Honest engine timeline bundle) (hknown : known.ops <+: timeline)
    (hreaches : bundle.firstSeq ≤ known.ops.length) :
    (extended known bundle).ops <+: timeline := by
  obtain ⟨ops, session, sign, since, hops, hfollows, hexport⟩ := hhonest
  have hbundle := ops_of_exportBundle hfollows hexport
  unfold extended overlap
  simp only []
  rw [hbundle, List.length_drop]
  rcases Nat.lt_or_ge known.ops.length ops.length with hnew | hold
  · have hstart : known.ops = ops.take known.ops.length :=
      List.prefix_iff_eq_take.mp (List.prefix_of_prefix_length_le hknown hops hnew.le)
    have hdrop : (ops.drop bundle.firstSeq).drop
        (min (known.ops.length - bundle.firstSeq) (ops.length - bundle.firstSeq)) =
          ops.drop known.ops.length := by
      rw [List.drop_drop]
      congr 1
      omega
    rw [hdrop]
    nth_rewrite 1 [hstart]
    rw [List.take_append_drop]
    exact hops
  · have hnothing : (ops.drop bundle.firstSeq).drop
        (min (known.ops.length - bundle.firstSeq) (ops.length - bundle.firstSeq)) = [] := by
      rw [List.drop_drop, List.drop_eq_nil_iff]
      omega
    rw [hnothing, List.append_nil]
    exact hknown

/-- An honest bundle keeps what is known of its agent on the timeline. -/
theorem prefix_importBundle {timeline : List Op} {agent : Str}
    (hhonest : bundle.agent = agent → Honest engine timeline bundle)
    (hstart : (session.knownLog agent).ops <+: timeline) :
    ((session.importBundle engine check bundle).1.knownLog agent).ops <+: timeline := by
  rcases importBundle_cases engine check session bundle with
    ⟨error, hresult⟩ | ⟨pin, hadmitted, hresult⟩
  · rw [hresult]
    exact hstart
  · rw [hresult, knownLog]
    simp only []
    by_cases hagent : bundle.agent = agent
    · rw [← hagent, getElem?_insert_self, Option.getD_some]
      exact prefix_extended (hhonest hagent) (hagent ▸ hstart) hadmitted.reaches
    · rw [getElem?_insert_ne _ hagent]
      exact hstart

theorem prefix_importAll {timeline : List Op} {agent : Str} {bundles : List (SyncBundle Op)}
    (hhonest : ∀ bundle ∈ bundles, bundle.agent = agent → Honest engine timeline bundle)
    (hstart : (session.knownLog agent).ops <+: timeline) :
    ((session.importAll engine check bundles).knownLog agent).ops <+: timeline := by
  induction bundles generalizing session with
  | nil => exact hstart
  | cons bundle bundles ih =>
    rw [List.forall_mem_cons] at hhonest
    exact ih hhonest.2 (prefix_importBundle hhonest.1 hstart)

/-- **Sync is grow-only and agreement-safe.**  After any imports, the next one extends every log or
leaves it, changes nothing if it is refused, and keeps every pinned key; all logs verify; logs of
two receivers with one head are equal; and a log fed from an honest timeline is a prefix of it. -/
theorem imports_grow_only_and_agree (engine : Engine Op Memory)
    (hdigits : HexDigits engine.sha256) (check : SignatureCheck Op)
    (receiver : AgentSession Op Memory) (hreceiver : AllVerified engine receiver)
    (bundles : List (SyncBundle Op)) :
    (∀ bundle : SyncBundle Op,
      (∀ (agent : Str) (log : ForeignLog Op),
        (receiver.importAll engine check bundles).foreign[agent]? = some log →
        ∃ later, ((receiver.importAll engine check bundles).importBundle engine check
            bundle).1.foreign[agent]? = some later ∧ later.Extends log) ∧
      (∀ error, ((receiver.importAll engine check bundles).importBundle engine check bundle).2 =
          .error error →
        ((receiver.importAll engine check bundles).importBundle engine check bundle).1 =
          receiver.importAll engine check bundles) ∧
      (∀ agent key : Str, (receiver.importAll engine check bundles).knownKeys[agent]? = some key →
        ((receiver.importAll engine check bundles).importBundle engine check
          bundle).1.knownKeys[agent]? = some key)) ∧
    AllVerified engine (receiver.importAll engine check bundles) ∧
    (∀ (other : AgentSession Op Memory), AllVerified engine other →
      ∀ (check' : SignatureCheck Op) (bundles' : List (SyncBundle Op)) (agent : Str)
        (log log' : ForeignLog Op),
        (receiver.importAll engine check bundles).foreign[agent]? = some log →
        (other.importAll engine check' bundles').foreign[agent]? = some log' →
        Set.InjOn engine.sha256
          (fun text ↦ text ∈ log.hashed engine ∨ text ∈ log'.hashed engine) →
        log.head = log'.head →
        log.chain = log'.chain ∧ log.ops.map engine.opJson = log'.ops.map engine.opJson ∧
          (Function.Injective engine.opJson → log = log')) ∧
    (∀ (agent : Str) (timeline : List Op), (receiver.knownLog agent).ops <+: timeline →
      (∀ bundle ∈ bundles, bundle.agent = agent → Honest engine timeline bundle) →
      ((receiver.importAll engine check bundles).knownLog agent).ops <+: timeline) := by
  have hverified : AllVerified engine (receiver.importAll engine check bundles) :=
    hreceiver.importAll bundles
  refine ⟨?_, hverified, ?_, ?_⟩
  · intro bundle
    refine ⟨?_, ?_, ?_⟩
    · exact fun _ _ hlog ↦ importBundle_grows bundle hlog
    · exact fun _ hrefused ↦ importBundle_refused bundle hrefused
    · exact fun _ _ hkey ↦ importBundle_keeps_key bundle hkey
  · intro other hother check' bundles' agent log log' hlog hlog' hinjective hhead
    have hboth := ForeignLog.eq_of_head_eq hdigits hinjective (hverified agent log hlog)
      (hother.importAll bundles' agent log' hlog') hhead
    refine ⟨hboth.1, hboth.2, ?_⟩
    intro hjson
    have hops : log.ops = log'.ops := hjson.list_map hboth.2
    cases log
    cases log'
    rw [ForeignLog.mk.injEq]
    exact ⟨hops, hboth.1⟩
  · exact fun _ _ hstart hhonest ↦ prefix_importAll hhonest hstart

/-! ## The two failures exchanged -/

/-- The session of the two failures under an agent id. -/
def failureSession : AgentSession Str (List Str) :=
  { failureWorld.session with agent := ['a'] }

def failureBundle : SyncBundle Str where
  version := 1
  agent := ['a']
  firstSeq := 0
  anchor := timelineGenesis
  ops := [failureOps.1, failureOps.2]
  chain := [failureLinks.1, failureLinks.2]
  pubkey := none
  sig := none

theorem honest_failureBundle :
    Honest listEngine [failureOps.1, failureOps.2] failureBundle := by
  have hfollows : Follows listEngine [failureOps.1, failureOps.2] failureSession :=
    .setAgent ['a'] (.record failureOps.2 [failureOps.1, failureOps.2]
      (.record failureOps.1 [failureOps.1] .new))
  refine ⟨_, failureSession, fun _ ↦ none, 0, List.prefix_refl _, hfollows, ?_⟩
  have hchain : failureSession.chain = failureBundle.chain := by decide +kernel
  unfold exportBundle
  rw [hchain]
  rfl

/-- A build without signatures. -/
def unsigned : SignatureCheck Str :=
  fun _ _ _ ↦ .error .signedUnsupported

/-- A receiver that got the bundle twice. -/
def failureReceiver : AgentSession Str (List Str) :=
  (AgentSession.new listEngine).importAll listEngine unsigned [failureBundle, failureBundle]

theorem imports_agree_failureReceiver :
    (failureReceiver.knownLog ['a']).ops <+: [failureOps.1, failureOps.2] ∧
      ∀ error, (failureReceiver.importBundle listEngine unsigned
        { failureBundle with firstSeq := 3 }).2 = .error error →
        (failureReceiver.importBundle listEngine unsigned { failureBundle with firstSeq := 3 }).1 =
          failureReceiver := by
  have hnew : AllVerified listEngine (AgentSession.new listEngine) := by
    intro agent log hlog
    simp [AgentSession.new] at hlog
  have hsync := imports_grow_only_and_agree listEngine listEngine_digits unsigned
    (AgentSession.new listEngine) hnew [failureBundle, failureBundle]
  refine ⟨hsync.2.2.2 ['a'] _ List.nil_prefix ?_, (hsync.1 _).2.1⟩
  intro bundle hbundle _
  have hsame : bundle = failureBundle := by simpa using hbundle
  rw [hsame]
  exact honest_failureBundle

end SoulSystem.Ccos.Session
