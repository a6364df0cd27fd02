import SoulSystem.Ccos.Windows.Assembly

/-!
# Spending again what compression saves

A compressed recall that leaves room in the budget is run again with a larger one, for a bounded
number of rounds.  A round is accepted if it brings more items and stays within the budget.  It is
also accepted if it brings as many items and more tokens, and there the budget is not looked at: the
loop may end with a window above it.

A strategy chooses its candidates before it knows of a budget, so a recall is given by its
selection.
-/

namespace SoulSystem.Ccos.Windows

open Library Memory

/-! ## The compressed recall -/

def RecallItem.toWindowItem (item : RecallItem) : WindowItem F64 :=
  ⟨item.kind, item.score, item.uri, item.content⟩

/-- Replace the contents of the items, and count the tokens of the new ones. -/
def replaceContents : List RecallItem → List CompressedItem → List RecallItem × ℕ
  | item :: items, c :: compressed =>
    let item := { item with content := c.content, ccrRef := c.ccrRef }
    let (items, tokens) := replaceContents items compressed
    (item :: items, estimateTokens item.content + tokens)
  | items, _ => (items, 0)

section Recall

variable (alg : Algorithms F64) (scoring : Scoring) (graph : MemoryGraph) (selection : Selection)

def recallCompressed (budget : ℕ) (compressor : CausalCompressor F64) :
    RecallWindow × CausalCompressor F64 :=
  let win := assembleWindow scoring graph selection budget
  let (compressed, compressor) :=
    compressor.compressWindow alg (win.items.map RecallItem.toWindowItem)
  let (items, tokens) := replaceContents win.items compressed
  ({ win with items, tokens }, compressor)

/-! ## The rounds -/

/-- The state between two rounds. -/
structure Feedback where
  win : RecallWindow
  compressor : CausalCompressor F64
  lastTokens : ℕ

/-- The part of the raw tokens that compression has left. -/
def Feedback.observedRatio (s : Feedback) : F64 :=
  let rawTokens := (s.compressor.lastStats.map CompressionStat.tokensBefore).sum
  if 0 < s.win.tokens then
    if rawTokens = 0 then .finite 1 else (ofUsize s.win.tokens).div (ofUsize rawTokens)
  else .finite 1

def Feedback.grownBudget (budget : ℕ) (s : Feedback) : ℕ :=
  let leftover := budget - s.win.tokens
  (budget + asUsize ((ofUsize leftover).div s.observedRatio)) % 2 ^ 64

/-- The recall of the next round. -/
def Feedback.next (budget : ℕ) (s : Feedback) : RecallWindow × CausalCompressor F64 :=
  recallCompressed alg scoring graph selection (s.grownBudget budget)
    { s.compressor with lastStats := [] }

/-- A round that has accepted a window goes on unless the tokens are the last ones. -/
def Feedback.settle (s : Feedback) : ForInStep Feedback :=
  if s.win.tokens = s.lastTokens then .done s else .yield { s with lastTokens := s.win.tokens }

def Feedback.round (budget : ℕ) (s : Feedback) : ForInStep Feedback :=
  if budget ≤ s.win.tokens then .done s
  else
    let (next, compressor) := s.next alg scoring graph selection budget
    if s.win.items.length < next.items.length ∧ next.tokens ≤ budget then
      Feedback.settle { s with win := next, compressor }
    else if s.win.items.length ≤ next.items.length ∧ s.lastTokens < next.tokens then
      Feedback.settle ⟨next, compressor, next.tokens⟩
    else .done { s with compressor }

/-- The state before the second round. -/
def firstRound (budget : ℕ) (compressor : CausalCompressor F64) : Feedback :=
  let (win, compressor) := recallCompressed alg scoring graph selection budget compressor
  ⟨win, compressor, win.tokens⟩

def recallCompressedWithFeedback (budget : ℕ) (compressor : CausalCompressor F64) (maxRounds : ℕ) :
    RecallWindow × CausalCompressor F64 :=
  let maxRounds := max maxRounds 1
  let s := Loop.forRounds (Feedback.round alg scoring graph selection budget) (maxRounds - 1)
    (firstRound alg scoring graph selection budget compressor)
  (s.win, s.compressor)

/-! ## The bound -/

/-- What is promised of a recall: a proper window, and no more tokens after the feedback than the
budget or the first round had. -/
structure RespectsBudget (budget : ℕ) (compressor : CausalCompressor F64) (maxRounds : ℕ) : Prop where
  window : Proper (candidates scoring graph selection) budget
    (assembleWindow scoring graph selection budget)
  feedback :
    (recallCompressedWithFeedback alg scoring graph selection budget compressor maxRounds).1.tokens ≤
      max budget (recallCompressed alg scoring graph selection budget compressor).1.tokens

/-- The states in which a round after the first one is entered. -/
def roundsEntered (budget : ℕ) (compressor : CausalCompressor F64) (maxRounds : ℕ) : List Feedback :=
  Loop.entered (Feedback.round alg scoring graph selection budget) (max maxRounds 1 - 1)
    (firstRound alg scoring graph selection budget compressor)

/-- There is room left, and the grown budget brings no fewer items but too many tokens. -/
def Feedback.Overshoots (budget : ℕ) (s : Feedback) : Prop :=
  s.win.tokens < budget ∧
    s.win.items.length ≤ (s.next alg scoring graph selection budget).1.items.length ∧
    budget < (s.next alg scoring graph selection budget).1.tokens

/-- What the rounds keep. -/
structure Feedback.Inv (budget first : ℕ) (s : Feedback) : Prop where
  last : s.lastTokens = s.win.tokens
  bound : s.win.tokens ≤ max budget first
  first : s.win.tokens < budget → first ≤ budget

end Recall

section Bound

variable {alg : Algorithms F64} {scoring : Scoring} {graph : MemoryGraph} {selection : Selection}
  {budget first : ℕ} {s t : Feedback}

namespace Feedback

/-- Every way through a round. -/
theorem round_cases (alg : Algorithms F64) (scoring : Scoring) (graph : MemoryGraph)
    (selection : Selection) (budget : ℕ) (s : Feedback) :
    (budget ≤ s.win.tokens ∧ s.round alg scoring graph selection budget = .done s) ∨
    s.win.tokens < budget ∧ ∃ next compressor,
      s.next alg scoring graph selection budget = (next, compressor) ∧
      ((s.win.items.length < next.items.length ∧ next.tokens ≤ budget ∧
          s.round alg scoring graph selection budget =
            settle { s with win := next, compressor }) ∨
        (s.win.items.length ≤ next.items.length ∧ s.lastTokens < next.tokens ∧
          ¬ (s.win.items.length < next.items.length ∧ next.tokens ≤ budget) ∧
          s.round alg scoring graph selection budget = .done ⟨next, compressor, next.tokens⟩) ∨
        (¬ (s.win.items.length ≤ next.items.length ∧ s.lastTokens < next.tokens) ∧
          s.round alg scoring graph selection budget = .done { s with compressor })) := by
  rw [round]
  by_cases hfull : budget ≤ s.win.tokens
  · rw [if_pos hfull]
    exact .inl ⟨hfull, rfl⟩
  · rw [if_neg hfull]
    refine .inr ⟨Nat.lt_of_not_le hfull, ?_⟩
    obtain ⟨next, compressor⟩ := s.next alg scoring graph selection budget
    refine ⟨next, compressor, rfl, ?_⟩
    dsimp only
    by_cases hgrows : s.win.items.length < next.items.length ∧ next.tokens ≤ budget
    · rw [if_pos hgrows]
      exact .inl ⟨hgrows.1, hgrows.2, rfl⟩
    · rw [if_neg hgrows]
      by_cases hmore : s.win.items.length ≤ next.items.length ∧ s.lastTokens < next.tokens
      · rw [if_pos hmore, settle, if_pos rfl]
        exact .inr (.inl ⟨hmore.1, hmore.2, hgrows, rfl⟩)
      · rw [if_neg hmore]
        exact .inr (.inr ⟨hmore, rfl⟩)

/-- A settled window within the bound keeps to it, whether the loop goes on or not. -/
theorem of_settle (hbound : s.win.tokens ≤ max budget first)
    (hroom : s.win.tokens < budget → first ≤ budget) :
    (∀ t, settle s = .yield t → Inv budget first t) ∧
      ∀ t, settle s = .done t → t.win.tokens ≤ max budget first := by
  rw [settle]
  split
  · refine ⟨fun t hyield ↦ (nomatch hyield), fun t hdone ↦ ?_⟩
    rw [← ForInStep.done.inj hdone]
    exact hbound
  · refine ⟨fun t hyield ↦ ?_, fun t hdone ↦ nomatch hdone⟩
    rw [← ForInStep.yield.inj hyield]
    exact ⟨rfl, hbound, hroom⟩

/-- A round that goes on keeps the invariant, and has not overshot. -/
theorem inv_of_yield (hinv : s.Inv budget first)
    (hyield : s.round alg scoring graph selection budget = .yield t) :
    t.Inv budget first ∧ ¬ s.Overshoots alg scoring graph selection budget := by
  rcases round_cases alg scoring graph selection budget s with ⟨_, hround⟩ |
    ⟨hroom, next, compressor, hnext, ⟨_, hfits, hround⟩ | ⟨_, _, _, hround⟩ | ⟨_, hround⟩⟩
  · exact nomatch hround.symm.trans hyield
  · have hfirst := hinv.first hroom
    have hsettle := of_settle (s := { s with win := next, compressor })
      (hfits.trans (le_max_left budget first)) fun _ ↦ hfirst
    refine ⟨hsettle.1 t (hround ▸ hyield), fun hbad ↦ ?_⟩
    have htokens := hbad.2.2
    rw [hnext] at htokens
    exact htokens.not_ge hfits
  · exact nomatch hround.symm.trans hyield
  · exact nomatch hround.symm.trans hyield

/-- A round that leaves the loop stays within the bound unless it has overshot. -/
theorem bound_iff_of_done (hinv : s.Inv budget first)
    (hdone : s.round alg scoring graph selection budget = .done t) :
    t.win.tokens ≤ max budget first ↔ ¬ s.Overshoots alg scoring graph selection budget := by
  rcases round_cases alg scoring graph selection budget s with ⟨hfull, hround⟩ |
    ⟨hroom, next, compressor, hnext, ⟨_, hfits, hround⟩ | ⟨hitems, hmore, hgrows, hround⟩ |
      ⟨hmore, hround⟩⟩
  · rw [← ForInStep.done.inj (hround.symm.trans hdone)]
    exact iff_of_true hinv.bound fun hbad ↦ hfull.not_gt hbad.1
  · have hsettle := of_settle (s := { s with win := next, compressor })
      (hfits.trans (le_max_left budget first)) fun _ ↦ hinv.first hroom
    refine iff_of_true (hsettle.2 t (hround ▸ hdone)) fun hbad ↦ ?_
    have htokens := hbad.2.2
    rw [hnext] at htokens
    exact htokens.not_ge hfits
  · rw [← ForInStep.done.inj (hround.symm.trans hdone), max_eq_left (hinv.first hroom), Overshoots,
      hnext, and_iff_right hroom, and_iff_right hitems, Nat.not_lt]
  · rw [← ForInStep.done.inj (hround.symm.trans hdone)]
    refine iff_of_true hinv.bound fun hbad ↦ hmore ?_
    rw [Overshoots, hnext] at hbad
    refine ⟨hbad.2.1, ?_⟩
    rw [hinv.last]
    exact hroom.trans hbad.2.2

end Feedback

end Bound

/-- The algorithms, as they work on the contents below: a line that is all comment leaves an
empty line. -/
def sampleAlgorithms : Algorithms F64 where
  sha256Hex _ :=
    ["fc9793769a9bcae0", "9fa037b38c6808e1", "446e97c003ce0bbb",
      "20d16141a6fe2341"].flatMap String.toList
  toLowercase text := text.map Char.toLower
  crush := id
  skeletonizeWith text _ := if "//".toList.isPrefixOf text then ['\n'] else text
  summarize text _ _ := text
  shingleSignature _ := []
  estimatedJaccard _ _ := .finite 0
  ge a b := !a.lt b
  one := .finite 1
  quotient after before := (ofUsize after).div (ofUsize before)

def sampleScoring : Scoring where
  computeNodeScore _ node := node.baseImportance
  recallFileCap := F64.ofRat (2 / 5)

/-- The header of a file without symbols, and two short constants. -/
def sampleGraph : MemoryGraph :=
  let node (id content : String) (nodeType : NodeType) (score : ℚ) : Str × GraphNode :=
    (id.toList, { id := id.toList, label := id.toList, content := content.toList, nodeType
                  baseImportance := .finite score, failureRelevance := .finite 0
                  recency := .finite 0, accessCount := 0, createdAt := 0, lastAccessed := 0
                  state := .stable, trust := .finite 1 })
  { nodes := .ofList [
      node "file:src/meeting_notes.rs" "// src/meeting_notes.rs — 0 symbols\n" .module 1,
      node "sym:src/a.rs:LIMIT" "const LIMIT: usize = 4096;" .symbol (1 / 2),
      node "sym:src/b.rs:DEPTH" "static DEPTH: u32 = 12;" .symbol (1 / 4)] compare
    edges := [], edgeSet := ∅, maxInMemoryNodes := 100, clock := 0, cold := ∅, spill := none
    husks := ∅, coldContentBudget := none, coldResidentBudget := none, pendingCalls := ∅
    pendingDataRefs := ∅, pendingAliases := ∅, pendingMethods := ∅, dataSymbols := ∅ }

/-- A new compressor, as it is configured by default. -/
def sampleCompressor : CausalCompressor F64 where
  ccr := ∅
  lastStats := []
  config :=
    { enableJson := true, enableCode := true, enableProse := true, summarySentences := 0
      ccrCapacity := 4096, minChars := 30, enableDedup := true
      dedupThreshold := F64.ofRat (17 / 20), enableAstV2 := true, astSignatureCollapseAfter := 8 }

end SoulSystem.Ccos.Windows
