import SoulSystem.Ccos.Session.Timeline

/-!
# The chain of a timeline stays intact

In every state that a run reaches, the recorded chain is the chain over the recorded operations from
the anchor, so the timeline verifies.  Compaction keeps the head, later states of a trunk keep the
heads that it had before, and a fork has the head of its trunk at the step that it starts from.  Two
timelines from the start marker that verify and have one head record the same operations.
-/

namespace SoulSystem.Ccos.Session

open Library HashChain

variable {Op Memory : Type} {engine : Engine Op Memory}

namespace Engine

/-! ## What verification establishes -/

theorem linkErrors_eq_nil_iff (prev : Str) (seq : ℕ) (ops : List Op) (chain : List Str) :
    engine.linkErrors prev seq ops chain = [] ↔ Links engine.opLinkHash prev seq ops chain := by
  induction ops generalizing prev seq chain with
  | nil =>
    unfold linkErrors Links
    simp
  | cons op ops ih =>
    cases chain with
    | nil =>
      unfold linkErrors Links
      simp
    | cons link chain =>
      rw [linkErrors, Links, List.append_eq_nil_iff, ih]
      simp only [ite_eq_left_iff, List.cons_ne_nil, imp_false, not_not]

theorem valid_iff {anchor : Str} {folded : ℕ} {ops : List Op} {chain : List Str}
    {baseline : Option Str} {baselineHash : Str}
    (hchained : legacy anchor chain baselineHash = false) :
    (engine.verifyTimelineParts anchor folded ops chain baseline baselineHash).valid = true ↔
      engine.baselineCommitment baseline = baselineHash ∧
        chain = chainOver engine.opLinkHash anchor folded ops := by
  unfold verifyTimelineParts
  rw [hchained, if_neg (by decide)]
  simp only [List.isEmpty_iff, List.append_eq_nil_iff, ite_eq_right_iff, List.cons_ne_nil,
    imp_false, not_not, linkErrors_eq_nil_iff]
  constructor
  · rintro ⟨⟨hbaseline, hlength⟩, hlinks⟩
    exact ⟨hbaseline, (links_iff anchor folded ops chain hlength).mp hlinks⟩
  · rintro ⟨hbaseline, hchain⟩
    have hlength : chain.length = ops.length := by rw [hchain, length_chainOver]
    exact ⟨⟨hbaseline, hlength⟩, (links_iff anchor folded ops chain hlength).mpr hchain⟩

end Engine

/-- The chain is the chain over the operations, and the baseline is the committed one. -/
structure Sound (engine : Engine Op Memory) (session : AgentSession Op Memory) : Prop where
  chain : session.chain =
    chainOver engine.opLinkHash session.anchor session.folded session.ops
  baseline : engine.baselineCommitment session.baseline = session.baselineHash

namespace AgentSession

/-- The head that the timeline has at a step between the compaction floor and its end. -/
def headAt (session : AgentSession Op Memory) (step : ℕ) : Str :=
  head session.anchor (session.chain.take (step - session.folded))

theorem timelineHead_eq (session : AgentSession Op Memory) :
    session.timelineHead = head session.anchor session.chain := rfl

theorem timelineHead_forkAt (session : AgentSession Op Memory) (step : ℕ) :
    (session.forkAt engine step).timelineHead = session.headAt (session.forkStep step) := rfl

theorem folded_le_forkStep (session : AgentSession Op Memory) (step : ℕ) :
    session.folded ≤ session.forkStep step :=
  le_max_right _ _

end AgentSession

namespace Sound

variable {session : AgentSession Op Memory}

theorem length_chain (hsound : Sound engine session) : session.chain.length = session.ops.length := by
  rw [hsound.chain, length_chainOver]

theorem valid (hsound : Sound engine session) : (session.verifyTimeline engine).valid = true := by
  unfold AgentSession.verifyTimeline
  cases hlegacy : Engine.legacy session.anchor session.chain session.baselineHash with
  | true =>
    unfold Engine.verifyTimelineParts
    rw [hlegacy, if_pos rfl]
  | false => exact (Engine.valid_iff hlegacy).mpr ⟨hsound.baseline, hsound.chain⟩

theorem headAt_len (hsound : Sound engine session) :
    session.headAt session.len = session.timelineHead := by
  have hall : session.chain.take (session.len - session.folded) = session.chain := by
    apply List.take_of_length_le
    rw [hsound.length_chain, AgentSession.len]
    omega
  rw [AgentSession.headAt, hall, session.timelineHead_eq]

/-! ## Every call keeps the chain -/

theorem new : Sound engine (AgentSession.new engine) where
  chain := rfl
  baseline := rfl

theorem record (hsound : Sound engine session) (op : Op) (live : Memory) :
    Sound engine (session.record engine op live) where
  chain := by
    unfold AgentSession.record
    simp only []
    rw [chainOver_concat, ← hsound.chain]
    rfl
  baseline := hsound.baseline

/-- The link before the compaction floor is the head of what was folded. -/
theorem getD_anchor (hsound : Sound engine session) {fold : ℕ} (hpos : 0 < fold)
    (hfold : fold ≤ session.ops.length) :
    (session.chain[fold - 1]?).getD session.anchor =
      head session.anchor (session.chain.take fold) := by
  obtain ⟨last, rfl⟩ : ∃ last, fold = last + 1 := ⟨fold - 1, by omega⟩
  have hlast : last < session.chain.length := by
    rw [hsound.length_chain]
    omega
  rw [head_take_succ hlast, Nat.add_sub_cancel, List.getElem?_eq_getElem hlast, Option.getD_some]

theorem compact (hsound : Sound engine session) (keep : ℕ) :
    Sound engine (session.compact engine keep) := by
  unfold AgentSession.compact
  split
  · exact hsound
  · rename_i hlong
    simp only []
    split
    · exact hsound
    · constructor
      · simp only []
        rw [hsound.getD_anchor (by omega) (by omega), hsound.chain,
          drop_chainOver _ _ _ _ (by omega)]
      · rfl

theorem compactIfNeeded (hsound : Sound engine session) :
    Sound engine (session.compactIfNeeded engine) := by
  unfold AgentSession.compactIfNeeded
  split
  · exact hsound.compact engine.oplogKeep
  · exact hsound

theorem forkAt (hsound : Sound engine session) (step : ℕ) :
    Sound engine (session.forkAt engine step) where
  chain := by
    unfold AgentSession.forkAt
    simp only []
    rw [← take_chainOver, ← hsound.chain]
  baseline := hsound.baseline

theorem restarted (session : AgentSession Op Memory) (snapshot : Str) :
    Sound engine (session.restarted engine snapshot) where
  chain := rfl
  baseline := rfl

theorem ofTimeline {path : Str} {live : Memory} {sidecar timeline : PersistedTimeline Op}
    (htrusted : AgentSession.trusted engine sidecar = some timeline) :
    Sound engine (AgentSession.ofTimeline path live timeline) := by
  unfold AgentSession.trusted at htrusted
  split at htrusted
  · cases htrusted
    exact ⟨rfl, rfl⟩
  · rename_i hchained
    split at htrusted
    · rename_i hvalid
      cases htrusted
      rw [Bool.not_eq_true] at hchained
      obtain ⟨hbaseline, hchain⟩ := (Engine.valid_iff hchained).mp hvalid
      exact ⟨hchain, hbaseline⟩
    · cases htrusted

theorem restored {path : Str} {live : Memory} {sidecar : Option (PersistedTimeline Op)}
    (hrestored : AgentSession.restored engine path live sidecar = some session) :
    Sound engine session := by
  cases sidecar with
  | none =>
    rw [AgentSession.restored, Option.map_eq_some_iff] at hrestored
    obtain ⟨snapshot, _, rfl⟩ := hrestored
    exact restarted _ snapshot
  | some sidecar =>
    rw [AgentSession.restored, Option.map_eq_some_iff] at hrestored
    obtain ⟨timeline, htrusted, rfl⟩ := hrestored
    exact ofTimeline htrusted

/-- Whatever the sidecar holds, a session that opens is sound. -/
theorem openSession {path : Str} {live : Memory} {sidecar : Option (PersistedTimeline Op)}
    (hopen : AgentSession.openSession engine path live sidecar = some session) :
    Sound engine session := by
  unfold AgentSession.openSession at hopen
  rw [Option.bind_eq_some_iff] at hopen
  obtain ⟨found, hrestored, hguard⟩ := hopen
  split at hguard
  · rw [Option.map_eq_some_iff] at hguard
    obtain ⟨snapshot, _, rfl⟩ := hguard
    exact restarted found snapshot
  · cases hguard
    exact restored hrestored

theorem checkpoint {world : World Op Memory} (hsound : Sound engine world.session)
    (written : Bool) : Sound engine (world.checkpoint engine written).session := by
  unfold World.checkpoint
  simp only []
  split <;> exact hsound.compactIfNeeded

theorem apply {world : World Op Memory} (hsound : Sound engine world.session)
    (step : Step Op Memory) : Sound engine (world.apply engine step).session := by
  cases step with
  | record op live => exact hsound.record op live
  | compact keep => exact hsound.compact keep
  | forkAt step => exact hsound.forkAt step
  | checkpoint written => exact hsound.checkpoint written
  | openSession path live =>
    unfold World.apply
    simp only []
    split
    · rename_i opened hopen
      exact openSession hopen
    · exact hsound

theorem run {world : World Op Memory} (hsound : Sound engine world.session)
    (steps : List (Step Op Memory)) : Sound engine (world.run engine steps).session := by
  induction steps generalizing world with
  | nil => exact hsound
  | cons step steps ih => exact ih (hsound.apply step)

end Sound

/-! ## Heads along a trunk -/

/-- A later state of a timeline has the heads of the earlier one, above its compaction floor. -/
structure Continues (earlier later : AgentSession Op Memory) : Prop where
  folded : earlier.folded ≤ later.folded
  len : earlier.len ≤ later.len
  heads : ∀ step, later.folded ≤ step → step ≤ earlier.len →
    later.headAt step = earlier.headAt step

namespace Continues

variable {first second third session : AgentSession Op Memory}

theorem refl (session : AgentSession Op Memory) : Continues session session :=
  ⟨le_rfl, le_rfl, fun _ _ _ ↦ rfl⟩

theorem trans (hfirst : Continues first second) (hsecond : Continues second third) :
    Continues first third where
  folded := hfirst.folded.trans hsecond.folded
  len := hfirst.len.trans hsecond.len
  heads := by
    intro step hfloor hstep
    rw [hsecond.heads step hfloor (hstep.trans hfirst.len),
      hfirst.heads step (hsecond.folded.trans hfloor) hstep]

theorem record (hsound : Sound engine session) (op : Op) (live : Memory) :
    Continues session (session.record engine op live) where
  folded := le_rfl
  len := by simp [AgentSession.len, AgentSession.record]
  heads := by
    intro step _ hstep
    have hfits : step - session.folded ≤ session.chain.length := by
      rw [hsound.length_chain]
      unfold AgentSession.len at hstep
      omega
    unfold AgentSession.headAt AgentSession.record
    simp only []
    rw [List.take_append_of_le_length hfits]

/-- Compaction moves the floor and changes neither the length nor a head above the floor. -/
theorem compact (hsound : Sound engine session) (keep : ℕ) :
    Continues session (session.compact engine keep) ∧
      (session.compact engine keep).len = session.len := by
  unfold AgentSession.compact
  split
  · exact ⟨refl session, rfl⟩
  · rename_i hlong
    simp only []
    split
    · exact ⟨refl session, rfl⟩
    · have hlen : session.folded + (session.ops.length - keep) +
          (session.ops.drop (session.ops.length - keep)).length =
            session.folded + session.ops.length := by
        rw [List.length_drop]
        omega
      refine ⟨⟨Nat.le_add_right _ _, le_of_eq hlen.symm, ?_⟩, hlen⟩
      intro step hfloor hstep
      simp only [] at hfloor
      unfold AgentSession.headAt
      simp only []
      have hsplit : session.chain.take (step - session.folded) =
          session.chain.take (session.ops.length - keep) ++
            (session.chain.drop (session.ops.length - keep)).take
              (step - (session.folded + (session.ops.length - keep))) := by
        rw [← List.take_add]
        congr 1
        omega
      rw [hsound.getD_anchor (by omega) (by omega), hsplit, head_append]

theorem compactIfNeeded (hsound : Sound engine session) :
    Continues session (session.compactIfNeeded engine) := by
  unfold AgentSession.compactIfNeeded
  split
  · exact (compact hsound engine.oplogKeep).1
  · exact refl session

/-- A fork has the head that its trunk had when it was as long. -/
theorem timelineHead_forkAt (hcontinues : Continues first second) (hsound : Sound engine first)
    {step : ℕ} (hstep : second.forkStep step = first.len) :
    (second.forkAt engine step).timelineHead = first.timelineHead := by
  have hfloor : second.folded ≤ first.len := by
    rw [← hstep]
    exact second.folded_le_forkStep step
  rw [second.timelineHead_forkAt, hstep, hcontinues.heads _ hfloor le_rfl, hsound.headAt_len]

end Continues

/-- The call stays on the timeline of the session: it is no fork, and an opened sidecar holds the
timeline that the session had. -/
def Step.KeepsTrunk (engine : Engine Op Memory) (world : World Op Memory) :
    Step Op Memory → Prop
  | .record _ _ | .compact _ | .checkpoint _ => True
  | .forkAt _ => False
  | .openSession path live =>
    (world.apply engine (.openSession path live)).session.folded = world.session.folded ∧
    (world.apply engine (.openSession path live)).session.anchor = world.session.anchor ∧
    (world.apply engine (.openSession path live)).session.ops = world.session.ops ∧
    (world.apply engine (.openSession path live)).session.chain = world.session.chain

/-- All calls of a run stay on the timeline. -/
def KeepsTrunk (engine : Engine Op Memory) : World Op Memory → List (Step Op Memory) → Prop
  | _, [] => True
  | world, step :: steps =>
    step.KeepsTrunk engine world ∧ KeepsTrunk engine (world.apply engine step) steps

theorem Continues.apply {world : World Op Memory} {step : Step Op Memory}
    (hsound : Sound engine world.session) (hkeeps : step.KeepsTrunk engine world) :
    Continues world.session (world.apply engine step).session := by
  cases step with
  | record op live => exact record hsound op live
  | compact keep => exact (compact hsound keep).1
  | forkAt step => exact hkeeps.elim
  | checkpoint written =>
    unfold World.apply World.checkpoint
    simp only []
    split <;> exact compactIfNeeded hsound
  | openSession path live =>
    obtain ⟨hfolded, hanchor, hops, hchain⟩ := hkeeps
    refine ⟨hfolded.symm.le, ?_, ?_⟩
    · rw [AgentSession.len, AgentSession.len, hfolded, hops]
    · intro step _ _
      rw [AgentSession.headAt, AgentSession.headAt, hfolded, hanchor, hchain]

theorem Continues.run {world : World Op Memory} {steps : List (Step Op Memory)}
    (hsound : Sound engine world.session) (hkeeps : KeepsTrunk engine world steps) :
    Continues world.session (world.run engine steps).session := by
  induction steps generalizing world with
  | nil => exact refl world.session
  | cons step steps ih =>
    exact (Continues.apply hsound hkeeps.1).trans (ih (hsound.apply step) hkeeps.2)

/-! ## The head commits to the operations -/

/-- The digest as text: hexadecimal digits. -/
def HexDigits (sha256 : Str → Str) : Prop :=
  ∀ text, ∀ c ∈ sha256 text, c ∈ "0123456789abcdef".toList

/-- The texts that the chain of a timeline hashes. -/
def AgentSession.hashed (engine : Engine Op Memory) (session : AgentSession Op Memory) : List Str :=
  (inputs engine.opLinkHash session.anchor session.folded session.ops).map fun input ↦
    engine.linkText input.1 input.2.1 input.2.2

section Commitment

theorem bar_not_mem_digest (hdigits : HexDigits engine.sha256) (text : Str) :
    '|' ∉ engine.sha256 text := by
  intro hmem
  exact absurd (hdigits text '|' hmem) (by decide)

theorem digest_ne_genesis (hdigits : HexDigits engine.sha256) (text : Str) :
    engine.sha256 text ≠ timelineGenesis := by
  intro heq
  have hmem : 'G' ∈ engine.sha256 text := by
    rw [heq]
    decide
  exact absurd (hdigits text 'G' hmem) (by decide)

theorem bar_not_mem_decimal (n : ℕ) : '|' ∉ decimal n := by
  intro hmem
  have hdigit := Nat.isDigit_of_mem_toDigits (by decide) (by decide) hmem
  exact absurd hdigit (by decide)

/-- The parts of a hashed text can be told apart. -/
theorem linkText_inj {prev prev' : Str} {seq seq' : ℕ} {op op' : Op} (hprev : '|' ∉ prev)
    (hprev' : '|' ∉ prev') (heq : engine.linkText prev seq op = engine.linkText prev' seq' op') :
    prev = prev' ∧ engine.opJson op = engine.opJson op' := by
  obtain ⟨hsame, hrest⟩ := Str.append_cons_inj hprev hprev' heq
  exact ⟨hsame, (Str.append_cons_inj (bar_not_mem_decimal seq) (bar_not_mem_decimal seq') hrest).2⟩

theorem bar_not_mem_prev (hdigits : HexDigits engine.sha256) {first : ℕ} {ops : List Op}
    {input : Str × ℕ × Op}
    (hinput : input ∈ inputs engine.opLinkHash timelineGenesis first ops) : '|' ∉ input.1 := by
  rcases prev_of_mem_inputs hinput with hanchor | ⟨prev, seq, op, hlink⟩
  · rw [hanchor]
    decide
  · rw [hlink]
    exact bar_not_mem_digest hdigits _

/-- Chains from the start marker with one head are over operations with the same texts. -/
theorem opJson_eq_of_head_eq (hdigits : HexDigits engine.sha256) {ops ops' : List Op}
    (hinjective : ∀ a ∈ inputs engine.opLinkHash timelineGenesis 0 ops,
      ∀ b ∈ inputs engine.opLinkHash timelineGenesis 0 ops',
        engine.opLinkHash a.1 a.2.1 a.2.2 = engine.opLinkHash b.1 b.2.1 b.2.2 →
          engine.linkText a.1 a.2.1 a.2.2 = engine.linkText b.1 b.2.1 b.2.2)
    (hhead : head timelineGenesis (chainOver engine.opLinkHash timelineGenesis 0 ops) =
      head timelineGenesis (chainOver engine.opLinkHash timelineGenesis 0 ops')) :
    ops.map engine.opJson = ops'.map engine.opJson := by
  have hfresh : ∀ used, Fresh engine.opLinkHash timelineGenesis used :=
    fun _ _ _ ↦ digest_ne_genesis hdigits _
  apply map_code_eq_of_head_eq _ (hfresh _) (hfresh _) hhead
  intro a ha b hb hcollide
  exact linkText_inj (bar_not_mem_prev hdigits ha) (bar_not_mem_prev hdigits hb)
    (hinjective a ha b hb hcollide)

end Commitment

/-- A state that a run from a new session comes to. -/
def World.Reachable (engine : Engine Op Memory) (world : World Op Memory) : Prop :=
  ∃ steps : List (Step Op Memory), (World.start engine).run engine steps = world

theorem Sound.of_reachable {world : World Op Memory} (hreached : world.Reachable engine) :
    Sound engine world.session := by
  obtain ⟨steps, rfl⟩ := hreached
  exact Sound.run Sound.new steps

theorem timelineHead_compact {session : AgentSession Op Memory} (hsound : Sound engine session)
    (keep : ℕ) : (session.compact engine keep).timelineHead = session.timelineHead := by
  obtain ⟨hcontinues, hlen⟩ := Continues.compact hsound keep
  have hfloor : (session.compact engine keep).folded ≤ session.len := by
    rw [← hlen]
    exact Nat.le_add_right _ _
  rw [← hsound.headAt_len, ← (hsound.compact keep).headAt_len, hlen]
  exact hcontinues.heads _ hfloor le_rfl

/-- **Chain integrity.**  Every state of every run verifies, with a link for every operation;
compaction keeps head and length; a fork of a later state of the trunk has the head that the trunk
had at the step of the fork; and two timelines from the start marker that verify and have one head
record the same operations. -/
theorem run_timeline_intact (engine : Engine Op Memory) (hdigits : HexDigits engine.sha256) :
    (∀ world : World Op Memory, world.Reachable engine →
      (world.session.verifyTimeline engine).valid = true ∧
      world.session.chain.length = world.session.ops.length ∧
      (∀ keep, (world.session.compact engine keep).timelineHead = world.session.timelineHead ∧
        (world.session.compact engine keep).len = world.session.len) ∧
      (∀ later : List (Step Op Memory), KeepsTrunk engine world later → ∀ step,
        (world.run engine later).session.forkStep step = world.session.len →
        ((world.run engine later).session.forkAt engine step).timelineHead =
          world.session.timelineHead)) ∧
    (∀ first second : AgentSession Op Memory,
      Set.InjOn engine.sha256
        (fun text ↦ text ∈ first.hashed engine ∨ text ∈ second.hashed engine) →
      first.anchor = timelineGenesis → first.folded = 0 →
      second.anchor = timelineGenesis → second.folded = 0 →
      (first.verifyTimeline engine).valid = true → (second.verifyTimeline engine).valid = true →
      first.timelineHead = second.timelineHead →
      first.ops.map engine.opJson = second.ops.map engine.opJson) := by
  constructor
  · intro world hreached
    have hsound := Sound.of_reachable hreached
    refine ⟨hsound.valid, hsound.length_chain, ?_, ?_⟩
    · exact fun keep ↦ ⟨timelineHead_compact hsound keep, (Continues.compact hsound keep).2⟩
    · intro later hkeeps step hstep
      exact (Continues.run hsound hkeeps).timelineHead_forkAt hsound hstep
  · intro first second hinjective hanchor hfolded hanchor' hfolded' hvalid hvalid' hheads
    have hchained : ∀ session : AgentSession Op Memory, session.anchor = timelineGenesis →
        Engine.legacy session.anchor session.chain session.baselineHash = false := by
      intro session hgenesis
      have hnonempty : timelineGenesis.isEmpty = false := rfl
      rw [hgenesis, Engine.legacy, hnonempty, Bool.and_false, Bool.false_and]
    have hchain := ((Engine.valid_iff (hchained first hanchor)).mp hvalid).2
    have hchain' := ((Engine.valid_iff (hchained second hanchor')).mp hvalid').2
    rw [first.timelineHead_eq, second.timelineHead_eq, hchain, hchain', hanchor, hanchor', hfolded,
      hfolded'] at hheads
    apply opJson_eq_of_head_eq hdigits _ hheads
    intro a ha b hb hcollide
    apply hinjective (.inl _) (.inr _) hcollide
    · rw [AgentSession.hashed, hanchor, hfolded]
      exact List.mem_map_of_mem ha
    · rw [AgentSession.hashed, hanchor', hfolded']
      exact List.mem_map_of_mem hb

/-! ## Two recorded failures -/

/-- The texts of two operations. -/
def failureOps : Str × Str :=
  (["\x7b\"Failure\":", "\x7b\"node\":\"a\",", "\"depth\":1\x7d\x7d"].flatMap String.toList,
    ["\x7b\"Failure\":", "\x7b\"node\":\"b\",", "\"depth\":1\x7d\x7d"].flatMap String.toList)

/-- The digests of their two links. -/
def failureLinks : Str × Str :=
  (["bb09181da592fa2b", "5a2861c47b2000b4", "550d27ef1aad8627",
      "74627eb1d2b1ef38"].flatMap String.toList,
    ["184844a1acd34d18", "55c400174ac73929", "b6102b1714a0b55a",
      "e5f6bda437b117ce"].flatMap String.toList)

/-- A digest that is right about these links. -/
def failureDigest (text : Str) : Str :=
  if text = "GENESIS|0|".toList ++ failureOps.1 then failureLinks.1
  else if text = failureLinks.1 ++ "|1|".toList ++ failureOps.2 then failureLinks.2
  else List.replicate 64 '0'

/-- A memory that is the list of operations applied to it. -/
def listEngine : Engine Str (List Str) where
  sha256 := failureDigest
  opJson := id
  new := []
  applyOp := fun state op ↦ (state.1 ++ [op], state.2)
  resolve := id
  toJson := fun memory ↦ some memory.flatten
  fromJson := fun text ↦ some [text]
  stats := fun memory ↦ (memory.length, 0, 0)
  reread := some
  oplogMax := 512
  oplogKeep := 128

theorem listEngine_digits : HexDigits listEngine.sha256 := by
  intro text
  change failureDigest text ⊆ "0123456789abcdef".toList
  unfold failureDigest
  split
  · decide +kernel
  · split
    · decide +kernel
    · decide +kernel

/-- Both operations recorded. -/
def failureWorld : World Str (List Str) :=
  (World.start listEngine).run listEngine
    [.record failureOps.1 [failureOps.1], .record failureOps.2 [failureOps.1, failureOps.2]]

theorem run_timeline_intact_failureWorld :
    (failureWorld.session.compact listEngine 1).timelineHead = failureLinks.2 ∧
    (failureWorld.session.forkAt listEngine 2).ops.map listEngine.opJson =
      failureWorld.session.ops.map listEngine.opJson := by
  have hintact := run_timeline_intact listEngine listEngine_digits
  have hreached : failureWorld.Reachable listEngine := ⟨_, rfl⟩
  refine ⟨((hintact.1 failureWorld hreached).2.2.1 1).1, ?_⟩
  have hvalid : ((failureWorld.session.forkAt listEngine 2).verifyTimeline listEngine).valid = true ∧
      (failureWorld.session.verifyTimeline listEngine).valid = true ∧
      (failureWorld.session.forkAt listEngine 2).timelineHead = failureWorld.session.timelineHead := by
    decide +kernel
  refine hintact.2 (failureWorld.session.forkAt listEngine 2) failureWorld.session ?_ rfl rfl rfl rfl
    hvalid.1 hvalid.2.1 hvalid.2.2
  have htexts : ∀ a ∈ failureWorld.session.hashed listEngine,
      ∀ b ∈ failureWorld.session.hashed listEngine,
        listEngine.sha256 a = listEngine.sha256 b → a = b := by decide +kernel
  intro a ha b hb
  exact htexts a (or_self_iff.mp ha) b (or_self_iff.mp hb)

end SoulSystem.Ccos.Session
