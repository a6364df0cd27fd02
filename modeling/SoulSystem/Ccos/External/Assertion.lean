import SoulSystem.Ccos.Memory.Soundness
import SoulSystem.Ccos.External.Taint
import Mathlib.Tactic.DeriveEncodable
import Mathlib.Data.Rat.Encodable

/-!
# Assertions about known nodes

An assertion inserts its two ids as empty blocks where they are not resident.  An id in the COLD
tier is known but not resident: the insertion forgets its archived content and edges.

In every state that a run reaches without loss, an assertion leaves what the memory shows of the
known ids unchanged exactly when an id that it names and that is COLD when its turn comes shows an
empty block already; and when neither is COLD, the known edges change by the asserted one at most.
-/

namespace SoulSystem.Ccos.External

open Library SortedMap Memory MemoryGraph Std.ExtTreeMap

/-! ## Runs without loss -/

/-- The removals of an eviction. -/
def evictSteps (judges : Judges) (g : MemoryGraph) (path : Str) : List Step :=
  (g.nodes.keys.filter (ofFile path)).map fun id ↦ (judges 0, .removeNode id)

/-- The operations of an ingest, evictions included. -/
def ingestSteps (ingestor : Ingestor) (judges : Judges) (m : CcosMemory) (path clean : Str) :
    List Step :=
  match ingestor.mutationOp m.sources[fileId path]? clean with
  | .fileAdded => judged judges (ingestor.versionOps path clean)
  | .fileModified =>
    evictSteps judges m.graph path ++ judged judges (ingestor.versionOps path clean)
  | .noChange => []

theorem evictFileNodes_eq_run (codec : Codec) (judges : Judges) (g : MemoryGraph) (path : Str) :
    evictFileNodes g path = run codec g (evictSteps judges g path) := by
  rw [evictFileNodes, evictSteps, run, List.foldl_map]
  rfl

theorem delta_eq_run_ingestSteps (ingestor : Ingestor) (judges : Judges) (m : CcosMemory)
    (path clean : Str) :
    (m.delta ingestor judges path clean).1 =
      run ingestor.codec m.graph (ingestSteps ingestor judges m path clean) := by
  rw [CcosMemory.delta, Ingestor.processDelta, Ingestor.applyDelta, ingestSteps]
  cases ingestor.mutationOp m.sources[fileId path]? clean with
  | fileAdded => rfl
  | fileModified =>
    simp only []
    rw [run_append, ← evictFileNodes_eq_run]
    rfl
  | noChange => rfl

/-- An ingest attaches no store and sets no budget. -/
def IsPlain : Op → Prop
  | .attachColdSpill _ | .setColdContentBudget _ => False
  | _ => True

theorem isPlain_of_isUpdate {op : Op} (hop : op.IsUpdate) : IsPlain op := by
  cases op <;> trivial

theorem isPlain_ingestSteps (ingestor : Ingestor) (judges : Judges) (m : CcosMemory)
    (path clean : Str) :
    ∀ step ∈ ingestSteps ingestor judges m path clean, IsPlain step.2 := by
  have hversion : ∀ step ∈ judged judges (ingestor.versionOps path clean), IsPlain step.2 :=
    forall_judged fun op hop ↦
      isPlain_of_isUpdate (isUpdate_updateOps ingestor.headerSymbolCap _ clean op hop)
  unfold ingestSteps
  split
  · exact hversion
  · rw [List.forall_mem_append]
    refine ⟨?_, hversion⟩
    intro step hstep
    obtain ⟨id, _, rfl⟩ := List.mem_map.mp hstep
    trivial
  · exact fun step hstep ↦ absurd hstep List.not_mem_nil

theorem attachesOnce_of_isPlain {op : Op} (hop : IsPlain op) (g : MemoryGraph) :
    AttachesOnce op g := by
  cases op with
  | attachColdSpill => cases hop
  | _ => trivial

theorem keepsContent_of_isPlain {op : Op} (hop : IsPlain op) : op.KeepsContent := by
  cases op with
  | setColdContentBudget => cases hop
  | _ => trivial

theorem staysAttached_of_isPlain {codec : Codec} {steps : List Step}
    (hsteps : ∀ step ∈ steps, IsPlain step.2) (g : MemoryGraph) :
    StaysAttached codec g steps := by
  induction steps generalizing g with
  | nil => trivial
  | cons step steps ih =>
    rw [List.forall_mem_cons] at hsteps
    exact ⟨attachesOnce_of_isPlain hsteps.1 g, ih hsteps.2 _⟩

/-- The events of an insertion that happens only if an id is not resident. -/
def ensureEvents (ingestor : Ingestor) (judge : Judge) (g : MemoryGraph) (id : Str) : List Event :=
  if g.nodes.contains id then []
  else events ingestor.codec judge (.upsertNode id id [] .contextBlock) g

/-- The events of an assertion. -/
def assertEvents (ingestor : Ingestor) (judges : Judges) (g : MemoryGraph) (evidence claim : Str) :
    List Event :=
  ensureEvents ingestor (judges 0) g evidence ++
    ensureEvents ingestor (judges 1) (CcosMemory.ensureNode ingestor (judges 0) g evidence) claim

def callEvents (ingestor : Ingestor) (m : CcosMemory) : Call → List Event
  | .ingestDeferred judges uri source =>
    runEvents ingestor.codec m.graph
      (ingestSteps ingestor judges m (uriPath uri) (ingestor.defang source).1)
  | .assertEvidence judges evidence claim _ _ =>
    assertEvents ingestor judges m.graph evidence claim
  | .pageIn judge id => events ingestor.codec judge (.pageIn id) m.graph
  | .setMaxResident judge cap =>
    events ingestor.codec judge .enforcePaging { m.graph with maxInMemoryNodes := max cap 1 }
  | .attachColdSpill judge inlineBudget =>
    events ingestor.codec judge (.attachColdSpill inlineBudget) m.graph
  | .setColdContentBudget judge budget =>
    events ingestor.codec judge (.setColdContentBudget budget) m.graph
  | .setColdResidentBudget judge budget =>
    events ingestor.codec judge (.setColdResidentBudget budget) m.graph
  | .resolve | .tick | .press _ | .reload => []

/-- A call that keeps the store attached and the contents of the COLD tier whole. -/
def KeepsStore (m : CcosMemory) : Call → Prop
  | .attachColdSpill _ _ | .reload => m.graph.spill.isNone = true
  | .setColdContentBudget _ budget => budget = none
  | _ => True

instance (m : CcosMemory) (call : Call) : Decidable (KeepsStore m call) :=
  match call with
  | .attachColdSpill _ _ | .reload => inferInstanceAs (Decidable (_ = true))
  | .setColdContentBudget _ budget => inferInstanceAs (Decidable (budget = none))
  | .ingestDeferred _ _ _ | .resolve | .assertEvidence _ _ _ _ _ | .tick | .pageIn _ _ | .press _
  | .setMaxResident _ _ | .setColdResidentBudget _ _ => isTrue trivial

/-- Every call of a run keeps the store, takes no husk its body, and archives entries with a JSON
form. -/
def RunKeepsStore (ingestor : Ingestor) : CcosMemory → List Call → Prop
  | _, [] => True
  | m, call :: calls =>
    KeepsStore m call ∧ (∀ event ∈ callEvents ingestor m call, event.Spares) ∧
      RunKeepsStore ingestor (m.call ingestor call) calls

instance decidableRunKeepsStore (ingestor : Ingestor) :
    ∀ (m : CcosMemory) (calls : List Call), Decidable (RunKeepsStore ingestor m calls)
  | _, [] => isTrue trivial
  | m, call :: calls =>
    have := decidableRunKeepsStore ingestor (m.call ingestor call) calls
    inferInstanceAs (Decidable (_ ∧ _ ∧ _))

/-- The empty block that an assertion inserts. -/
def emptyBlock (id : Str) : Upsert :=
  ⟨id, [], .contextBlock⟩

/-- What is known after an id was inserted unless it is resident. -/
def ensuredKnown (known : Std.ExtTreeMap Str Upsert) (g : MemoryGraph) (id : Str) :
    Std.ExtTreeMap Str Upsert :=
  if g.nodes.contains id then known else known.insert id (emptyBlock id)

theorem sound_ensureNode {ingestor : Ingestor} {judge : Judge} {known : Std.ExtTreeMap Str Upsert}
    {g : MemoryGraph} {id : Str} (hcodec : ingestor.codec.Faithful)
    (hsound : Sound ingestor.codec known g)
    (hgood : ∀ event ∈ ensureEvents ingestor judge g id, event.Spares) :
    Sound ingestor.codec (ensuredKnown known g id)
      (CcosMemory.ensureNode ingestor judge g id) := by
  unfold ensureEvents at hgood
  unfold CcosMemory.ensureNode ensuredKnown
  split
  · exact hsound
  · rename_i hresident
    rw [if_neg hresident] at hgood
    have hinserted := hsound.apply hcodec (.upsertNode id id [] .contextBlock) trivial trivial
      hgood
    exact hinserted

theorem sound_of_rewired {codec : Codec} {known : Std.ExtTreeMap Str Upsert} {g h : MemoryGraph}
    (hsound : Sound codec known g) (hrewired : Rewired g h) (hnon : NonDangling h) :
    Sound codec known h := by
  obtain ⟨edges, edgeSet, rfl⟩ := hrewired
  refine ⟨?_, ?_, ?_, hnon⟩
  · exact hsound.tiers.same (fun _ ↦ Iff.rfl) rfl rfl rfl
  · exact hsound.kept.congr hsound.kept.nodes rfl rfl rfl rfl
  · exact hsound.exact.congr rfl rfl rfl

theorem sound_assertEvidence {ingestor : Ingestor} {judges : Judges}
    {known : Std.ExtTreeMap Str Upsert} {m : CcosMemory} {evidence claim : Str}
    (hcodec : ingestor.codec.Faithful) (hsound : Sound ingestor.codec known m.graph)
    (hgood : ∀ event ∈ assertEvents ingestor judges m.graph evidence claim, event.Spares)
    (supports : Bool) (weight : F64) :
    Sound ingestor.codec
      (ensuredKnown (ensuredKnown known m.graph evidence)
        (CcosMemory.ensureNode ingestor (judges 0) m.graph evidence) claim)
      (m.assertEvidence ingestor judges evidence claim supports weight).1.graph := by
  rw [assertEvents, List.forall_mem_append] at hgood
  have hensured := sound_ensureNode hcodec (sound_ensureNode hcodec hsound hgood.1) hgood.2
  exact sound_of_rewired hensured (rewired_addEdge _ _ _ _ _)
    (hensured.nonDangling.addEdge _ _ _ _)

theorem sound_taint {codec : Codec} {known : Std.ExtTreeMap Str Upsert} {g : MemoryGraph}
    (hsound : Sound codec known g) (path : Str) (trust : Option ℚ) :
    Sound codec known (CcosMemory.taint g path trust) := by
  cases trust with
  | none => exact hsound
  | some trust =>
    refine hsound.map_nodes (f := fun id node ↦
      if ofFile path id then { node with trust := .finite (max 0 (min trust 1)) } else node)
      rfl ?_ rfl rfl rfl rfl rfl
    intro id node
    split
    · rfl
    · rfl

/-- Without a store there is nothing to lose at run time: a snapshot brings all tiers back. -/
theorem sound_reload {codec : Codec} {known : Std.ExtTreeMap Str Upsert} {m : CcosMemory}
    (hsound : Sound codec known m.graph) (hnone : m.graph.spill.isNone = true) :
    Sound codec known m.reload.graph := by
  have hspill : m.graph.spill = none := Option.isNone_iff_eq_none.mp hnone
  have hhusks : m.graph.husks = ∅ := by
    apply ext_getElem?
    intro id
    rw [getElem?_eq_none_iff.mpr (hsound.tiers.stored hspill id)]
    simp
  have hsame : Sound codec known { m.graph with
      husks := ∅
      spill := none } := by
    refine hsound.map_nodes (f := fun _ node ↦ node) ?_ (fun _ _ ↦ rfl) rfl hhusks.symm hspill.symm
      rfl rfl
    apply ext_getElem?
    intro id
    rw [getElem?_map]
    simp
  refine ⟨?_, ?_, ?_, hsame.nonDangling⟩
  · exact hsame.tiers.same (fun _ ↦ Iff.rfl) rfl rfl rfl
  · exact ⟨hsame.kept.nodes, hsame.kept.cold, hsame.kept.husks, hsame.kept.texts, rfl⟩
  · exact hsame.exact.congr rfl rfl rfl

theorem nonDangling_resolve {m : CcosMemory} (hnon : NonDangling m.graph) :
    NonDangling m.resolve.1.graph := by
  unfold CcosMemory.resolve
  split
  · simp only []
    exact hnon.resolveAll
  · exact hnon

/-- One call that keeps the store keeps the memory sound. -/
theorem sound_call {ingestor : Ingestor} {known : Std.ExtTreeMap Str Upsert} {m : CcosMemory}
    {call : Call} (hcodec : ingestor.codec.Faithful) (hsound : Sound ingestor.codec known m.graph)
    (hkeeps : KeepsStore m call) (hgood : ∀ event ∈ callEvents ingestor m call, event.Spares) :
    ∃ known', Sound ingestor.codec known' (m.call ingestor call).graph := by
  cases call with
  | ingestDeferred judges uri source =>
    have hplain := isPlain_ingestSteps ingestor judges m (uriPath uri) (ingestor.defang source).1
    have hdelta := hsound.run hcodec (staysAttached_of_isPlain hplain m.graph)
      (fun step hstep ↦ keepsContent_of_isPlain (hplain step hstep)) hgood
    rw [← delta_eq_run_ingestSteps] at hdelta
    exact ⟨_, sound_taint hdelta (uriPath uri) _⟩
  | resolve =>
    exact ⟨known, sound_of_rewired hsound (rewired_resolve m)
      (nonDangling_resolve hsound.nonDangling)⟩
  | assertEvidence judges evidence claim supports weight =>
    exact ⟨_, sound_assertEvidence hcodec hsound hgood supports weight⟩
  | tick =>
    exact ⟨known, hsound.map_nodes
      (f := fun _ node ↦ { node with recency := node.recency.decay })
      rfl (fun _ _ ↦ rfl) rfl rfl rfl rfl rfl⟩
  | pageIn judge id => exact ⟨known, hsound.apply hcodec (.pageIn id) trivial trivial hgood⟩
  | press pressure =>
    refine ⟨known, hsound.map_nodes
      (f := fun id node ↦ CcosMemory.pressed m.graph.clock node (pressure id))
      rfl ?_ rfl rfl rfl rfl rfl⟩
    intro id node
    unfold CcosMemory.pressed
    split
    · rfl
    · rfl
  | setMaxResident judge cap =>
    have hcap : Sound ingestor.codec known { m.graph with maxInMemoryNodes := max cap 1 } := by
      refine ⟨?_, ?_, ?_, hsound.nonDangling⟩
      · exact hsound.tiers.same (fun _ ↦ Iff.rfl) rfl rfl rfl
      · exact hsound.kept.congr hsound.kept.nodes rfl rfl rfl rfl
      · exact hsound.exact.congr rfl rfl rfl
    exact ⟨known, hcap.apply hcodec .enforcePaging trivial trivial hgood⟩
  | attachColdSpill judge inlineBudget =>
    exact ⟨known, hsound.apply hcodec (.attachColdSpill inlineBudget) hkeeps trivial hgood⟩
  | setColdContentBudget judge budget =>
    exact ⟨known, hsound.apply hcodec (.setColdContentBudget budget) trivial hkeeps hgood⟩
  | setColdResidentBudget judge budget =>
    exact ⟨known, hsound.apply hcodec (.setColdResidentBudget budget) trivial trivial hgood⟩
  | reload => exact ⟨known, sound_reload hsound hkeeps⟩

theorem sound_calls {ingestor : Ingestor} {known : Std.ExtTreeMap Str Upsert} {m : CcosMemory}
    {trace : List Call} (hcodec : ingestor.codec.Faithful)
    (hsound : Sound ingestor.codec known m.graph) (hkeeps : RunKeepsStore ingestor m trace) :
    ∃ known', Sound ingestor.codec known' (m.calls ingestor trace).graph := by
  induction trace generalizing m known with
  | nil => exact ⟨known, hsound⟩
  | cons call trace ih =>
    obtain ⟨hcall, hgood, hrest⟩ := hkeeps
    obtain ⟨after, hafter⟩ := sound_call hcodec hsound hcall hgood
    exact ih hafter hrest

/-! ## What an assertion changes -/

/-- Known, but not resident. -/
def IsCold (g : MemoryGraph) (id : Str) : Prop :=
  id ∈ g.cold ∨ id ∈ g.husks

instance (g : MemoryGraph) (id : Str) : Decidable (IsCold g id) :=
  inferInstanceAs (Decidable (_ ∨ _))

theorem getElem?_ensuredKnown_of_mem {known : Std.ExtTreeMap Str Upsert} {g : MemoryGraph}
    {id : Str} (hid : id ∈ g.nodes) (other : Str) :
    (ensuredKnown known g id)[other]? = known[other]? := by
  rw [ensuredKnown, if_pos (Std.ExtTreeMap.contains_iff_mem.mpr hid)]

theorem getElem?_ensuredKnown_self {known : Std.ExtTreeMap Str Upsert} {g : MemoryGraph} {id : Str}
    (hid : id ∉ g.nodes) : (ensuredKnown known g id)[id]? = some (emptyBlock id) := by
  rw [ensuredKnown, if_neg (fun hmem ↦ hid (Std.ExtTreeMap.contains_iff_mem.mp hmem)),
    getElem?_insert_self]

theorem getElem?_ensuredKnown_ne {known : Std.ExtTreeMap Str Upsert} {g : MemoryGraph}
    {id other : Str} (hother : other ≠ id) :
    (ensuredKnown known g id)[other]? = known[other]? := by
  unfold ensuredKnown
  split
  · rfl
  · exact getElem?_insert_ne _ (Ne.symm hother)

/-- An insertion changes what is known exactly if it meets a COLD id that is not an empty block. -/
theorem ensuredKnown_keeps_iff {known : Std.ExtTreeMap Str Upsert} {g : MemoryGraph} {id : Str}
    (htiered : Tiered (fun id ↦ id ∈ known) g) :
    (∀ other ∈ known, (ensuredKnown known g id)[other]? = known[other]?) ↔
      (IsCold g id → known[id]? = some (emptyBlock id)) := by
  constructor
  · intro hkeeps hcold
    have hresident : id ∉ g.nodes := by
      intro hid
      rcases hcold with hcold | hhusk
      · exact htiered.apart.nodes_cold id hid hcold
      · exact htiered.apart.nodes_husks id hid hhusk
    rw [← hkeeps id ((htiered.covers id).mpr (.inr hcold)), getElem?_ensuredKnown_self hresident]
  · intro hcold other hother
    by_cases hresident : id ∈ g.nodes
    · exact getElem?_ensuredKnown_of_mem hresident other
    · by_cases hsame : other = id
      · subst hsame
        have hidden := ((htiered.covers other).mp hother).resolve_left hresident
        rw [getElem?_ensuredKnown_self hresident, hcold hidden]
      · exact getElem?_ensuredKnown_ne hsame

theorem mem_ensuredKnown {known : Std.ExtTreeMap Str Upsert} {g : MemoryGraph} {id other : Str}
    (htiered : Tiered (fun id ↦ id ∈ known) g) :
    other ∈ ensuredKnown known g id ↔ other ∈ known ∨ other = id := by
  unfold ensuredKnown
  split
  · rename_i hid
    have hmem : id ∈ known :=
      (htiered.covers id).mpr (.inl (Std.ExtTreeMap.contains_iff_mem.mp hid))
    constructor
    · exact .inl
    · rintro (hother | rfl)
      · exact hother
      · exact hmem
  · rw [mem_insert_iff, or_comm]

/-- Two insertions keep what is known exactly if each of them does: what the first empties, the
second does not bring back. -/
theorem ensuredKnown_twice_keeps_iff {known : Std.ExtTreeMap Str Upsert} {g turn : MemoryGraph}
    {evidence claim : Str} (htiered : Tiered (fun id ↦ id ∈ known) g) :
    (∀ other ∈ known, (ensuredKnown (ensuredKnown known g evidence) turn claim)[other]? =
        known[other]?) ↔
      (∀ other ∈ known, (ensuredKnown known g evidence)[other]? = known[other]?) ∧
      ∀ other ∈ ensuredKnown known g evidence,
        (ensuredKnown (ensuredKnown known g evidence) turn claim)[other]? =
          (ensuredKnown known g evidence)[other]? := by
  constructor
  · intro hkeeps
    have hfirst : ∀ other ∈ known, (ensuredKnown known g evidence)[other]? = known[other]? := by
      intro other hother
      by_cases hresident : evidence ∈ g.nodes
      · exact getElem?_ensuredKnown_of_mem hresident other
      · by_cases hsame : other = evidence
        · subst hsame
          rw [getElem?_ensuredKnown_self hresident, ← hkeeps other hother]
          by_cases hclaim : other = claim
          · subst hclaim
            by_cases hturn : other ∈ turn.nodes
            · rw [getElem?_ensuredKnown_of_mem hturn, getElem?_ensuredKnown_self hresident]
            · rw [getElem?_ensuredKnown_self hturn]
          · rw [getElem?_ensuredKnown_ne hclaim, getElem?_ensuredKnown_self hresident]
        · exact getElem?_ensuredKnown_ne hsame
    refine ⟨hfirst, ?_⟩
    intro other hother
    by_cases hknown : other ∈ known
    · rw [hkeeps other hknown, hfirst other hknown]
    · have hsame : other = evidence :=
        ((mem_ensuredKnown htiered).mp hother).resolve_left hknown
      subst hsame
      have hresident : other ∉ g.nodes := fun hid ↦
        hknown ((htiered.covers other).mpr (.inl hid))
      by_cases hclaim : other = claim
      · subst hclaim
        by_cases hturn : other ∈ turn.nodes
        · exact getElem?_ensuredKnown_of_mem hturn other
        · rw [getElem?_ensuredKnown_self hturn, getElem?_ensuredKnown_self hresident]
      · exact getElem?_ensuredKnown_ne hclaim
  · rintro ⟨hfirst, hsecond⟩ other hother
    rw [hsecond other ((mem_ensuredKnown htiered).mpr (.inl hother)), hfirst other hother]

/-- What a page-in shows of the ids known before is what it showed. -/
def KeepsShown (codec : Codec) (before after : MemoryGraph) : Prop :=
  ∀ (judge : Judge) (id : Str), before.InTier id →
    seen codec judge after id = seen codec judge before id

/-- The ids grow by two at most, empty ones, and the edges by one that was added. -/
structure GrowsBy (codec : Codec) (before after : MemoryGraph) (key : Triple) (added : Bool) :
    Prop where
  ids : ∀ id, after.InTier id ↔ before.InTier id ∨ id = key.1 ∨ id = key.2.1
  empty : ∀ (judge : Judge) (id : Str), after.InTier id → ¬ before.InTier id →
    seen codec judge after id = some (emptyBlock id)
  edges : ∀ other, after.Knows codec other ↔ before.Knows codec other ∨ added = true ∧ other = key

section Assertion

variable {ingestor : Ingestor} {judges : Judges} {known : Std.ExtTreeMap Str Upsert}
  {m : CcosMemory} {evidence claim : Str} (supports : Bool) (weight : F64)

theorem keepsShown_assertEvidence_iff (hcodec : ingestor.codec.Faithful)
    (hsound : Sound ingestor.codec known m.graph)
    (hgood : ∀ event ∈ assertEvents ingestor judges m.graph evidence claim, event.Spares) :
    KeepsShown ingestor.codec m.graph
        (m.assertEvidence ingestor judges evidence claim supports weight).1.graph ↔
      (IsCold m.graph evidence → ∀ judge,
        seen ingestor.codec judge m.graph evidence = some (emptyBlock evidence)) ∧
      (IsCold (CcosMemory.ensureNode ingestor (judges 0) m.graph evidence) claim → ∀ judge,
        seen ingestor.codec judge (CcosMemory.ensureNode ingestor (judges 0) m.graph evidence) claim =
          some (emptyBlock claim)) := by
  have hafter := sound_assertEvidence hcodec hsound hgood supports weight
  rw [assertEvents, List.forall_mem_append] at hgood
  have hturn := sound_ensureNode hcodec hsound hgood.1
  have hshown : KeepsShown ingestor.codec m.graph
        (m.assertEvidence ingestor judges evidence claim supports weight).1.graph ↔
      ∀ other ∈ known, (ensuredKnown (ensuredKnown known m.graph evidence)
        (CcosMemory.ensureNode ingestor (judges 0) m.graph evidence) claim)[other]? =
          known[other]? := by
    constructor
    · intro hkeeps other hother
      rw [← hafter.seen_eq hcodec (judges 0), ← hsound.seen_eq hcodec (judges 0)]
      exact hkeeps (judges 0) other (hsound.inTier_iff.mpr hother)
    · intro hkeeps judge id hid
      rw [hafter.seen_eq hcodec, hsound.seen_eq hcodec]
      exact hkeeps id (hsound.inTier_iff.mp hid)
  rw [hshown, ensuredKnown_twice_keeps_iff hsound.tiers.tiered,
    ensuredKnown_keeps_iff hsound.tiers.tiered, ensuredKnown_keeps_iff hturn.tiers.tiered]
  have hjudge : Nonempty Judge := ⟨judges 0⟩
  simp only [hsound.seen_eq hcodec, hturn.seen_eq hcodec, forall_const]

theorem knowsExactly_ensureNode {judge : Judge} {g : MemoryGraph} {keys : Triple → Prop} {id : Str}
    (hcodec : ingestor.codec.KeepsEdges) (hknows : KnowsExactly ingestor.codec keys g)
    (hcold : ¬ IsCold g id) (hgood : ∀ event ∈ ensureEvents ingestor judge g id, event.Spares) :
    KnowsExactly ingestor.codec keys (CcosMemory.ensureNode ingestor judge g id) := by
  unfold ensureEvents at hgood
  unfold CcosMemory.ensureNode
  split
  · exact hknows
  · rename_i hresident
    rw [if_neg hresident] at hgood
    exact hknows.upsertNode hcodec (fun hid ↦ hcold (.inl hid)) (fun hid ↦ hcold (.inr hid)) id []
      .contextBlock fun event hevent ↦ (hgood event hevent).2

theorem growsBy_assertEvidence (hcodec : ingestor.codec.KeepsEdges)
    (hsound : Sound ingestor.codec known m.graph)
    (hgood : ∀ event ∈ assertEvents ingestor judges m.graph evidence claim, event.Spares)
    (hevidence : ¬ IsCold m.graph evidence)
    (hclaim : ¬ IsCold (CcosMemory.ensureNode ingestor (judges 0) m.graph evidence) claim) :
    GrowsBy ingestor.codec m.graph
      (m.assertEvidence ingestor judges evidence claim supports weight).1.graph
      (evidence, claim, CcosMemory.polarity supports)
      (m.assertEvidence ingestor judges evidence claim supports weight).2 := by
  have hfaithful := hcodec.toFaithful
  have hafter := sound_assertEvidence hfaithful hsound hgood supports weight
  rw [assertEvents, List.forall_mem_append] at hgood
  have hturn := sound_ensureNode hfaithful hsound hgood.1
  have hids : ∀ id,
      (m.assertEvidence ingestor judges evidence claim supports weight).1.graph.InTier id ↔
        m.graph.InTier id ∨ id = evidence ∨ id = claim := by
    intro id
    rw [hafter.inTier_iff, mem_ensuredKnown hturn.tiers.tiered,
      mem_ensuredKnown hsound.tiers.tiered, hsound.inTier_iff, or_assoc]
  refine ⟨hids, ?_, ?_⟩
  · intro judge id hid hunknown
    have hresident : id ∉ m.graph.nodes := fun hmem ↦ hunknown (.inl hmem)
    rw [hafter.seen_eq hfaithful]
    by_cases hlast : id = claim ∧
        claim ∉ (CcosMemory.ensureNode ingestor (judges 0) m.graph evidence).nodes
    · rw [hlast.1]
      exact getElem?_ensuredKnown_self hlast.2
    · have hsame : (ensuredKnown (ensuredKnown known m.graph evidence)
          (CcosMemory.ensureNode ingestor (judges 0) m.graph evidence) claim)[id]? =
          (ensuredKnown known m.graph evidence)[id]? := by
        by_cases hother : id = claim
        · have hmem := not_not.mp fun hout ↦ hlast ⟨hother, hout⟩
          exact getElem?_ensuredKnown_of_mem hmem id
        · exact getElem?_ensuredKnown_ne hother
      have hfirst : id = evidence := by
        rcases (hids id).mp hid with hknown | heq | heq
        · exact absurd hknown hunknown
        · exact heq
        · have hmem := not_not.mp fun hout ↦ hlast ⟨heq, hout⟩
          have htier := hturn.inTier_iff.mp (.inl hmem)
          rw [mem_ensuredKnown hsound.tiers.tiered, ← hsound.inTier_iff, ← heq] at htier
          exact htier.resolve_left hunknown
      rw [hsame, hfirst]
      exact getElem?_ensuredKnown_self (hfirst ▸ hresident)
  · intro key
    have hbefore : KnowsExactly ingestor.codec (m.graph.Knows ingestor.codec) m.graph :=
      ⟨hsound.tiers.tiered.apart, hsound.nonDangling, fun _ ↦ Iff.rfl⟩
    have hensured := knowsExactly_ensureNode hcodec
      (knowsExactly_ensureNode hcodec hbefore hevidence hgood.1) hclaim hgood.2
    exact hensured.addEdge evidence claim (clampUnit weight) (CcosMemory.polarity supports) key

end Assertion

/-- **What an assertion changes.**  In every state that a run without loss reaches, an assertion
keeps what a page-in shows of every known id exactly when an id that it names and that is COLD when
its turn comes shows an empty block already.  When neither is COLD, it adds the empty ids that were
unknown and one edge at most. -/
theorem assertion_keeps_known_iff (ingestor : Ingestor) (hcodec : ingestor.codec.KeepsEdges)
    (cap : ℕ) (trace : List Call) (hrun : RunKeepsStore ingestor (CcosMemory.new cap) trace)
    (judges : Judges) (evidence claim : Str) (supports : Bool) (weight : F64)
    (hgood : ∀ event ∈ assertEvents ingestor judges
      ((CcosMemory.new cap).calls ingestor trace).graph evidence claim, event.Spares) :
    (KeepsShown ingestor.codec ((CcosMemory.new cap).calls ingestor trace).graph
        (((CcosMemory.new cap).calls ingestor trace).assertEvidence ingestor judges evidence claim
          supports weight).1.graph ↔
      (IsCold ((CcosMemory.new cap).calls ingestor trace).graph evidence → ∀ judge,
        seen ingestor.codec judge ((CcosMemory.new cap).calls ingestor trace).graph evidence =
          some (emptyBlock evidence)) ∧
      (IsCold (CcosMemory.ensureNode ingestor (judges 0)
          ((CcosMemory.new cap).calls ingestor trace).graph evidence) claim → ∀ judge,
        seen ingestor.codec judge (CcosMemory.ensureNode ingestor (judges 0)
          ((CcosMemory.new cap).calls ingestor trace).graph evidence) claim =
          some (emptyBlock claim))) ∧
    (¬ IsCold ((CcosMemory.new cap).calls ingestor trace).graph evidence →
      ¬ IsCold (CcosMemory.ensureNode ingestor (judges 0)
        ((CcosMemory.new cap).calls ingestor trace).graph evidence) claim →
      GrowsBy ingestor.codec ((CcosMemory.new cap).calls ingestor trace).graph
        (((CcosMemory.new cap).calls ingestor trace).assertEvidence ingestor judges evidence claim
          supports weight).1.graph
        (evidence, claim, CcosMemory.polarity supports)
        (((CcosMemory.new cap).calls ingestor trace).assertEvidence ingestor judges evidence claim
          supports weight).2) := by
  have hempty : Sound ingestor.codec ∅ (CcosMemory.new cap).graph := Sound.new cap
  obtain ⟨known, hsound⟩ := sound_calls hcodec.toFaithful hempty hrun
  constructor
  · exact keepsShown_assertEvidence_iff supports weight hcodec.toFaithful hsound hgood
  · exact growsBy_assertEvidence supports weight hcodec hsound hgood

/-! ## An assertion about a function of a small file -/

instance encodableChar : Encodable Char :=
  Encodable.ofLeftInverse Char.toNat Char.ofNat Char.ofNat_toNat

deriving instance DecidableEq for Upsert
deriving instance Encodable for F64, NodeState, NodeType, EdgeType
deriving instance Encodable for GraphNode, GraphEdge, SpillRef
deriving instance Encodable for ColdNode

/-- A codec that numbers the entries. -/
def numberCodec : Codec where
  sha256 := id
  toJson := fun entry ↦ List.replicate (Encodable.encode entry) '0'
  fromJson := fun text ↦ Encodable.decode text.length
  compactContent := fun _ content ↦ content

theorem numberCodec_reads (entry : ColdNode) :
    numberCodec.fromJson (numberCodec.toJson entry) = some entry := by
  simp [numberCodec]

theorem numberCodec_keepsEdges : numberCodec.KeepsEdges where
  injective := Function.injective_id
  inline := by
    intro entry parsed hspill hparsed
    rw [numberCodec_reads, Option.some.injEq] at hparsed
    rwa [← hparsed]
  reads := fun entry _ _ ↦ ⟨entry, numberCodec_reads entry, rfl⟩
  edges := by
    intro entry parsed _ hparsed
    rw [numberCodec_reads, Option.some.injEq] at hparsed
    rw [hparsed]

/-- An ingest of letters with this codec. -/
def numberIngestor : Ingestor :=
  { letterIngestor with codec := numberCodec }

/-- The ingest of a file of two functions. -/
def ingestTwo : List Call :=
  [.ingestDeferred evenJudges ['a'] ['x', 'y'], .resolve]

/-- With room for all nodes, an assertion about a function leaves the function as it is. -/
theorem assertion_keeps_known_ingestTwo :
    KeepsShown numberCodec ((CcosMemory.new 4).calls numberIngestor ingestTwo).graph
      (((CcosMemory.new 4).calls numberIngestor ingestTwo).assertEvidence numberIngestor evenJudges
        ['c'] (symId ['a'] ['x']) true (.finite 1)).1.graph := by
  apply (assertion_keeps_known_iff numberIngestor numberCodec_keepsEdges 4 ingestTwo
    (by decide +kernel) evenJudges ['c'] (symId ['a'] ['x']) true (.finite 1)
    (by decide +kernel)).1.mpr
  constructor
  · intro hcold
    exact absurd hcold (by decide +kernel)
  · intro hcold
    exact absurd hcold (by decide +kernel)

/-- With room for one node, an assertion about a function that is COLD empties it. -/
theorem not_all_assertions_keep_known :
    ¬ ∀ (cap : ℕ) (trace : List Call),
      RunKeepsStore numberIngestor (CcosMemory.new cap) trace →
      ∀ (evidence claim : Str) (supports : Bool) (weight : F64),
        KeepsShown numberCodec ((CcosMemory.new cap).calls numberIngestor trace).graph
          (((CcosMemory.new cap).calls numberIngestor trace).assertEvidence numberIngestor evenJudges
            evidence claim supports weight).1.graph := by
  intro hall
  have hkeeps := hall 1 ingestTwo (by decide +kernel) (symId ['a'] ['x']) ['c'] true (.finite 1)
    evenJudge (symId ['a'] ['x']) (by unfold InTier; decide +kernel)
  revert hkeeps
  decide +kernel

end SoulSystem.Ccos.External
