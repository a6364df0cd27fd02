import SoulSystem.Ccos.Session.Sync

/-!
# A receiver catches up

What an honest agent exports from a step that the receiver knows is accepted, and then the receiver
knows the whole timeline of the agent.  The agent may have folded the operations before that step.
-/

namespace SoulSystem.Ccos.Session

open Library HashChain Std.ExtTreeMap AgentSession

variable {Op Memory : Type} {engine : Engine Op Memory} {check : SignatureCheck Op}
  {session sender receiver : AgentSession Op Memory} {ops : List Op} {since : ℕ}

/-- The log of a timeline from its start. -/
def timelineLog (engine : Engine Op Memory) (ops : List Op) : ForeignLog Op where
  ops := ops
  chain := chainOver engine.opLinkHash timelineGenesis 0 ops

theorem length_chain_timelineLog (ops : List Op) :
    (timelineLog engine ops).chain.length = ops.length :=
  length_chainOver _ _ _

theorem chain_timelineLog_take (ops : List Op) (n : ℕ) :
    (timelineLog engine (ops.take n)).chain = (timelineLog engine ops).chain.take n :=
  (take_chainOver _ _ _ _).symm

/-- The link before a step is the head of the chain up to it. -/
theorem getD_getElem?_eq_head {chain : List Str} {n : ℕ} (anchor other : Str)
    (hn : n < chain.length) : (chain[n]?).getD other = head anchor (chain.take (n + 1)) := by
  rw [head_take_succ hn, List.getElem?_eq_getElem hn, Option.getD_some]

/-! ## What an honest agent exports -/

/-- The retained chain is the one of the whole timeline after the folded steps, and its anchor the
head before them. -/
theorem Follows.chain_eq (hfollows : Follows engine ops session) :
    session.chain = (timelineLog engine ops).chain.drop session.folded ∧
      session.anchor =
        head timelineGenesis ((timelineLog engine ops).chain.take session.folded) := by
  induction hfollows with
  | new => exact ⟨rfl, rfl⟩
  | @record ops session op live hfollows ih =>
    obtain ⟨hops, hfolded⟩ := hfollows.ops_eq
    have hlength : session.folded ≤ (timelineLog engine ops).chain.length :=
      hfolded.trans_eq (length_chain_timelineLog ops).symm
    have hhead : session.timelineHead = head timelineGenesis (timelineLog engine ops).chain := by
      change head session.anchor session.chain = _
      rw [ih.1, ih.2, ← head_append, List.take_append_drop]
    have hseq : session.folded + session.ops.length = 0 + ops.length := by
      rw [hops, List.length_drop]
      omega
    have hchain : (timelineLog engine (ops ++ [op])).chain = (timelineLog engine ops).chain ++
        [engine.opLinkHash session.timelineHead (session.folded + session.ops.length) op] := by
      rw [hhead, hseq]
      exact chainOver_concat _ _ _ _
    rw [hchain, AgentSession.record]
    simp only []
    rw [List.drop_append_of_le_length hlength, List.take_append_of_le_length hlength, ← ih.1,
      ← ih.2]
    exact ⟨rfl, rfl⟩
  | @compact ops session keep hfollows ih =>
    obtain ⟨hops, hfolded⟩ := hfollows.ops_eq
    unfold AgentSession.compact
    split
    · exact ih
    · rename_i hkeep
      simp only []
      split
      · exact ih
      · simp only []
        have hlength : session.ops.length = ops.length - session.folded := by
          rw [hops, List.length_drop]
        have hlast : session.ops.length - keep - 1 < session.chain.length := by
          rw [ih.1, List.length_drop, length_chain_timelineLog]
          omega
        refine ⟨by rw [ih.1, List.drop_drop], ?_⟩
        have hsteps : session.ops.length - keep - 1 + 1 = session.ops.length - keep := by omega
        rw [getD_getElem?_eq_head session.anchor _ hlast, hsteps, ih.1, ih.2, ← head_append,
          ← List.take_add]
  | setAgent agent _ ih => exact ih

/-- The bundle of the timeline from a step on. -/
def bundleFrom (engine : Engine Op Memory) (agent : Str) (ops : List Op) (since : ℕ) :
    SyncBundle Op where
  version := 1
  agent := agent
  firstSeq := since
  anchor := head timelineGenesis ((timelineLog engine ops).chain.take since)
  ops := ops.drop since
  chain := (timelineLog engine ops).chain.drop since
  pubkey := none
  sig := none

theorem exportBundle_eq (hfollows : Follows engine ops sender) (hagent : sender.agent ≠ [])
    (hfolded : sender.folded ≤ since) (hsince : since ≤ ops.length) :
    sender.exportBundle (fun _ ↦ none) since = .ok (bundleFrom engine sender.agent ops since) := by
  obtain ⟨hops, -⟩ := hfollows.ops_eq
  obtain ⟨hchain, hanchor⟩ := hfollows.chain_eq
  have hstart : min (since - sender.folded) sender.ops.length = since - sender.folded := by
    rw [hops, List.length_drop]
    omega
  have hsum : sender.folded + (since - sender.folded) = since := by omega
  have hfrom : (if since - sender.folded = 0 then sender.anchor else
      (sender.chain[since - sender.folded - 1]?).getD sender.anchor) =
        head timelineGenesis ((timelineLog engine ops).chain.take since) := by
    by_cases hzero : since - sender.folded = 0
    · have hsame : sender.folded = since := by omega
      rw [if_pos hzero, hanchor, hsame]
    · have hlast : since - sender.folded - 1 < sender.chain.length := by
        rw [hchain, List.length_drop, length_chain_timelineLog]
        omega
      have hsteps : since - sender.folded - 1 + 1 = since - sender.folded := by omega
      rw [if_neg hzero, getD_getElem?_eq_head sender.anchor _ hlast, hsteps, hchain, hanchor,
        ← head_append, ← List.take_add, hsum]
  have hempty : ¬ sender.agent.isEmpty = true := fun h ↦ hagent (List.isEmpty_iff.mp h)
  rw [exportBundle, if_neg hempty, if_neg (Nat.not_lt.mpr hfolded)]
  simp only [hstart]
  rw [hfrom, hops, hchain, List.drop_drop, List.drop_drop, hsum]
  rfl

/-! ## What the receiver does with it -/

/-- A chain agrees with its own beginning. -/
theorem checkOverlap_take (chain : List Str) (n : ℕ) :
    checkOverlap (chain.take n) since (chain.drop since) = .ok () := by
  generalize hrest : chain.drop since = rest
  induction rest generalizing since with
  | nil => rfl
  | cons link rest ih =>
    have hlt : since < chain.length := by
      by_contra hpast
      rw [List.drop_of_length_le (Nat.le_of_not_lt hpast)] at hrest
      cases hrest
    rw [List.drop_eq_getElem_cons hlt] at hrest
    obtain ⟨hlink, hdrop⟩ := List.cons.inj hrest
    rw [checkOverlap]
    by_cases hknown : since < n
    · rw [List.getElem?_take_of_lt hknown, List.getElem?_eq_getElem hlt, hlink]
      dsimp only
      rw [if_neg (not_not.mpr rfl)]
      exact ih hdrop
    · rw [List.getElem?_take_eq_none (Nat.le_of_not_lt hknown)]

theorem checkContinuity_bundleFrom {agent : Str} {n : ℕ} (hn : n ≤ ops.length) (hsince : since ≤ n)
    (hknown : receiver.knownLog agent = timelineLog engine (ops.take n)) :
    checkContinuity receiver (bundleFrom engine agent ops since) = .ok () := by
  have hlength : (receiver.knownLog agent).ops.length = n := by
    rw [hknown]
    exact List.length_take_of_le hn
  rw [checkContinuity]
  cases hlog : receiver.foreign[(bundleFrom engine agent ops since).agent]? with
  | none =>
    rw [knownLog, show receiver.foreign[agent]? = none from hlog] at hlength
    have hzero : since = 0 := Nat.le_zero.mp (hsince.trans_eq hlength.symm)
    exact if_neg (Nat.not_lt.mpr hzero.le)
  | some known =>
    have hsame : known = timelineLog engine (ops.take n) :=
      (knownLog_of_getElem? hlog).symm.trans hknown
    have hreaches : ¬ known.ops.length < since := by
      rw [← knownLog_of_getElem? hlog]
      exact Nat.not_lt.mpr (hsince.trans_eq hlength.symm)
    have hanchor : ¬ (0 < since ∧ known.chain[since - 1]? ≠
        some (head timelineGenesis ((timelineLog engine ops).chain.take since))) := by
      rintro ⟨hpos, hne⟩
      apply hne
      have hlast : since - 1 < (timelineLog engine ops).chain.length := by
        rw [length_chain_timelineLog]
        omega
      have hsteps : since - 1 + 1 = since := by omega
      rw [hsame, chain_timelineLog_take, List.getElem?_take_of_lt (by omega),
        List.getElem?_eq_getElem hlast, ← head_take_succ hlast, hsteps]
    dsimp only
    refine (if_neg hreaches).trans ((if_neg hanchor).trans ?_)
    rw [hsame, chain_timelineLog_take]
    exact checkOverlap_take _ n

theorem checkBundle_bundleFrom {agent : Str} {n : ℕ} (hn : n ≤ ops.length) (hsince : since ≤ n)
    (hknown : receiver.knownLog agent = timelineLog engine (ops.take n)) (hagent : agent ≠ [])
    (hother : agent ≠ receiver.agent) (hunpinned : receiver.knownKeys[agent]? = none) :
    checkBundle engine check receiver (bundleFrom engine agent ops since) = .ok none := by
  have hempty : ¬ agent.isEmpty = true := fun h ↦ hagent (List.isEmpty_iff.mp h)
  have hpin : pinAfter check receiver (bundleFrom engine agent ops since) = .ok none := by
    rw [pinAfter]
    simp only [bundleFrom, hunpinned, Option.isSome_none]
    rfl
  have hlengths : (ops.drop since).length = ((timelineLog engine ops).chain.drop since).length := by
    rw [List.length_drop, List.length_drop, length_chain_timelineLog]
  have hgenesis : ¬ (since = 0 ∧
      head timelineGenesis ((timelineLog engine ops).chain.take since) ≠ timelineGenesis) := by
    rintro ⟨rfl, hne⟩
    exact hne rfl
  have hlinks : checkLinks engine (bundleFrom engine agent ops since).anchor
      (bundleFrom engine agent ops since).firstSeq (bundleFrom engine agent ops since).ops
        (bundleFrom engine agent ops since).chain = .ok () := by
    have hdrop := @drop_chainOver _ _ engine.opLinkHash timelineGenesis 0 since ops
      (hsince.trans hn)
    rw [Nat.zero_add] at hdrop
    exact (checkLinks_eq_ok_iff _ _ _ _).mpr ((links_iff _ _ _ _ hlengths.symm).mpr hdrop)
  rw [checkBundle]
  refine (if_neg hempty).trans ((if_neg hother).trans ?_)
  rw [hpin]
  refine (if_neg (not_not.mpr hlengths)).trans ((if_neg hgenesis).trans ?_)
  rw [hlinks, checkContinuity_bundleFrom hn hsince hknown]
  rfl

theorem extended_bundleFrom {agent : Str} {n : ℕ} (hn : n ≤ ops.length) (hsince : since ≤ n) :
    extended (timelineLog engine (ops.take n)) (bundleFrom engine agent ops since) =
        timelineLog engine ops ∧
      (bundleFrom engine agent ops since).ops.length -
        overlap (timelineLog engine (ops.take n)) (bundleFrom engine agent ops since) =
          ops.length - n := by
  have hoverlap : overlap (timelineLog engine (ops.take n)) (bundleFrom engine agent ops since) =
      n - since := by
    change min ((ops.take n).length - since) (ops.drop since).length = _
    rw [List.length_take_of_le hn, List.length_drop]
    omega
  have hsum : since + (n - since) = n := by omega
  rw [hoverlap]
  constructor
  · rw [extended, hoverlap]
    change ForeignLog.mk (ops.take n ++ (ops.drop since).drop (n - since))
      ((timelineLog engine (ops.take n)).chain ++
        ((timelineLog engine ops).chain.drop since).drop (n - since)) = _
    rw [chain_timelineLog_take, List.drop_drop, List.drop_drop, hsum, List.take_append_drop,
      List.take_append_drop]
    rfl
  · change (ops.drop since).length - (n - since) = _
    rw [List.length_drop]
    omega

/-- **An honest agent can be followed.**  A receiver that knows a beginning of the timeline, and no
key of the agent, imports what the agent exports from a known step on and then knows it all. -/
theorem importBundle_catches_up (hfollows : Follows engine ops sender)
    (hverified : AllVerified engine receiver)
    (hstart : (receiver.knownLog sender.agent).ops <+: ops) (hagent : sender.agent ≠ [])
    (hother : sender.agent ≠ receiver.agent)
    (hunpinned : receiver.knownKeys[sender.agent]? = none) (hfolded : sender.folded ≤ since)
    (hsince : since ≤ (receiver.knownLog sender.agent).ops.length) :
    ∃ bundle, sender.exportBundle (fun _ ↦ none) since = .ok bundle ∧
      (receiver.importBundle engine check bundle).2 =
        .ok (ops.length - (receiver.knownLog sender.agent).ops.length) ∧
      (receiver.importBundle engine check bundle).1.knownLog sender.agent =
        timelineLog engine ops := by
  have hn := hstart.length_le
  have hknown : receiver.knownLog sender.agent =
      timelineLog engine (ops.take (receiver.knownLog sender.agent).ops.length) := by
    have hlog := hverified.knownLog sender.agent
    have htake := List.prefix_iff_eq_take.mp hstart
    rw [ForeignLog.Verified] at hlog
    rw [← htake, timelineLog, ← hlog]
  generalize (receiver.knownLog sender.agent).ops.length = n at hn hknown hsince ⊢
  have hcheck : checkBundle engine check receiver (bundleFrom engine sender.agent ops since) =
      .ok none := checkBundle_bundleFrom hn hsince hknown hagent hother hunpinned
  obtain ⟨hextended, hnew⟩ := @extended_bundleFrom _ _ engine ops since sender.agent n hn hsince
  have hagentOf : (bundleFrom engine sender.agent ops since).agent = sender.agent := rfl
  refine ⟨_, exportBundle_eq hfollows hagent hfolded (hsince.trans hn), ?_, ?_⟩
  · rw [importBundle, hcheck]
    dsimp only
    rw [hagentOf, hknown, hnew]
  · rw [importBundle, hcheck]
    dsimp only
    rw [hagentOf, hknown, hextended, knownLog, getElem?_insert_self, Option.getD_some]

theorem importBundle_catches_up_failureSession : ∃ bundle,
    failureSession.exportBundle (fun _ ↦ none) 0 = .ok bundle ∧
      ((AgentSession.new listEngine).importBundle listEngine unsigned bundle).2 = .ok (2 - 0) ∧
      ((AgentSession.new listEngine).importBundle listEngine unsigned bundle).1.knownLog ['a'] =
        timelineLog listEngine [failureOps.1, failureOps.2] :=
  importBundle_catches_up
    (.setAgent ['a'] (.record failureOps.2 [failureOps.1, failureOps.2]
      (.record failureOps.1 [failureOps.1] .new)))
    (fun _ _ hlog ↦ absurd hlog (by simp [AgentSession.new])) List.nil_prefix (by decide)
    (by decide) (by simp [AgentSession.new]) le_rfl le_rfl

end SoulSystem.Ccos.Session
