import SoulSystem.Ccos.External.RecallCaches

/-!
# Recalls are transparent to their caches

With fewer than 2^64 changes every cell of the present version holds what would be computed now,
with one exception: the latent space is that of the rank for which it was built.  A recall for
another rank finds it all the same, because a change of the rank leaves the cell as it is.
-/

namespace SoulSystem.Ccos.External

open Library Memory

namespace CachedMemory

variable {kernels : Kernels} {ingestor : Ingestor} {m m' : CachedMemory kernels}

/-! ## What calls do to the cells -/

/-- The three cells are the same. -/
structure SameCells (m m' : CachedMemory kernels) : Prop where
  regionCache : m'.regionCache = m.regionCache
  embedCache : m'.embedCache = m.embedCache
  weightedLsaCache : m'.weightedLsaCache = m.weightedLsaCache

theorem SameCells.refl (m : CachedMemory kernels) : SameCells m m := ⟨rfl, rfl, rfl⟩

theorem SameCells.bumped (hcells : SameCells m m') : SameCells m m'.bumpVersion :=
  ⟨hcells.regionCache, hcells.embedCache, hcells.weightedLsaCache⟩

theorem signalFailure_sameCells (judge : Judge) (node : Str) (pressure : Str → Option F64) :
    SameCells m (m.signalFailure ingestor judge node pressure) ∧
      (m.signalFailure ingestor judge node pressure).version = (m.version + 1) % 2 ^ 64 := by
  unfold signalFailure
  dsimp only
  split
  · exact ⟨⟨rfl, rfl, rfl⟩, rfl⟩
  · split
    · exact ⟨⟨rfl, rfl, rfl⟩, rfl⟩
    · exact ⟨⟨rfl, rfl, rfl⟩, rfl⟩

theorem ingestSource_sameCells (judges : Judges) (uri source : Str) :
    SameCells m (m.ingestSource ingestor judges uri source) ∧
      (m.ingestSource ingestor judges uri source).version = (m.version + 2) % 2 ^ 64 := by
  have hpending : (m.ingestDeferred ingestor judges uri source).memory.needsResolution = true := rfl
  have hdeferred : (m.ingestDeferred ingestor judges uri source).version =
      (m.version + 1) % 2 ^ 64 := rfl
  have hcells : SameCells m (m.ingestDeferred ingestor judges uri source) := ⟨rfl, rfl, rfl⟩
  rw [ingestSource, resolve, if_pos hpending]
  refine ⟨.bumped ⟨hcells.regionCache, hcells.embedCache, hcells.weightedLsaCache⟩, ?_⟩
  calc
    _ = ((m.ingestDeferred ingestor judges uri source).version + 1) % 2 ^ 64 := rfl
    _ = ((m.version + 1) % 2 ^ 64 + 1) % 2 ^ 64 := by rw [hdeferred]
    _ = (m.version + 2) % 2 ^ 64 := Nat.mod_add_mod ..

/-- A call that changes the graph leaves the cells to a version that is over. -/
theorem call_of_mutates {c : CachedCall kernels} (hmutates : 0 < m.mutations c) :
    SameCells m (m.call ingestor c) ∧
      (m.call ingestor c).version = (m.version + m.mutations c) % 2 ^ 64 := by
  cases c with
  | ingestSource judges uri source => exact ingestSource_sameCells judges uri source
  | resolve =>
    rw [call, resolve, mutations]
    cases hpending : m.memory.needsResolution with
    | true => exact ⟨⟨rfl, rfl, rfl⟩, rfl⟩
    | false =>
      rw [mutations, hpending] at hmutates
      cases hmutates
  | signalFailure judge node pressure => exact signalFailure_sameCells judge node pressure
  | setLsaRerank | setSlhav2Embeddings | attachColdSpill | setColdContentBudget | recallWindow =>
    cases hmutates
  | ingestDeferred | assertSupport | assertContradiction | ensureResident | tick | setMaxResident
  | setScoringWeights => exact ⟨⟨rfl, rfl, rfl⟩, rfl⟩

/-- The COLD tier and its budgets are no part of what a recall computes from. -/
theorem resident_of_hot {memory : CcosMemory} {g : MemoryGraph}
    (hhot : memory.graph.hot = g.hot) (hnodes : g.nodes = m.memory.graph.nodes)
    (hedges : g.edges = m.memory.graph.edges) (hclock : g.clock = m.memory.graph.clock) :
    ({ m with memory } : CachedMemory kernels).resident = m.resident := by
  have hclock' := congrArg MemoryGraph.clock hhot
  change memory.graph.clock = g.clock at hclock'
  rw [resident, resident]
  dsimp only
  rw [MemoryGraph.nodes_eq_of_hot hhot, MemoryGraph.edges_eq_of_hot hhot, hclock', hnodes, hedges,
    hclock]

/-- The clustering and the store of the present version are the present ones. -/
structure Current (m : CachedMemory kernels) : Prop where
  regions : KeyedCache.Dated m.version (· = m.freshRegions) m.regionCache
  store : KeyedCache.Dated m.version (· = m.freshStore) m.embedCache

/-- A call after which the same is computed, and which leaves the cells current. -/
structure Keeps (m m' : CachedMemory kernels) : Prop where
  resident : m'.resident = m.resident
  version : m'.version = m.version
  current : m.Current → m'.Current
  model : m'.weightedLsaCache = m.weightedLsaCache ∨
    m.modelCached = false ∧ ∃ rank model, m.lsaRerankRank = some rank ∧
      m.freshModel rank = some model ∧ m'.weightedLsaCache = some (m.version, model)

theorem Current.of_sameCells (hcurrent : m.Current) (hcells : SameCells m m')
    (hresident : m'.resident = m.resident) (hversion : m'.version = m.version)
    (hscheme : m'.useSlhav2 = m.useSlhav2) : m'.Current where
  regions := by
    rw [freshRegions, hresident, hversion, hcells.regionCache]
    exact hcurrent.regions
  store := by
    rw [freshStore, hresident, hversion, hscheme, hcells.embedCache]
    exact hcurrent.store

theorem Keeps.of_sameCells (hcells : SameCells m m') (hresident : m'.resident = m.resident)
    (hversion : m'.version = m.version) (hscheme : m'.useSlhav2 = m.useSlhav2) : Keeps m m' where
  resident := hresident
  version := hversion
  current := fun hcurrent ↦ hcurrent.of_sameCells hcells hresident hversion hscheme
  model := .inl hcells.weightedLsaCache

theorem setSlhav2Embeddings_keeps (enabled : Bool) : Keeps m (m.setSlhav2Embeddings enabled) := by
  unfold setSlhav2Embeddings
  split
  · exact
      { resident := rfl
        version := rfl
        current := fun hcurrent ↦ ⟨hcurrent.regions, .none⟩
        model := .inl rfl }
  · exact .of_sameCells (.refl m) rfl rfl rfl

theorem attachColdSpill_keeps (judge : Judge) (inlineBudget : ℕ) (created : Bool) :
    Keeps m (m.attachColdSpill ingestor judge inlineBudget created) := by
  unfold attachColdSpill
  split
  · have hhot := (@MemoryGraph.hot_enforceColdResidentBudget ingestor.codec judge
      (MemoryGraph.enforceColdBudget ingestor.codec judge
        { m.memory.graph with spill := some { files := ∅, inlineBudget }, husks := ∅ })).trans
      (MemoryGraph.hot_enforceColdBudget _)
    exact .of_sameCells ⟨rfl, rfl, rfl⟩ (resident_of_hot hhot rfl rfl rfl) rfl rfl
  · exact .of_sameCells (.refl m) rfl rfl rfl

theorem setColdContentBudget_keeps (judge : Judge) (budget : Option ℕ) :
    Keeps m (m.setColdContentBudget ingestor judge budget) := by
  have hhot := @MemoryGraph.hot_enforceColdContentBudget ingestor.codec judge
    { m.memory.graph with coldContentBudget := budget }
  exact .of_sameCells ⟨rfl, rfl, rfl⟩ (resident_of_hot hhot rfl rfl rfl) rfl rfl

/-! ## What recalls do to the cells -/

theorem Current.regions_eq (hcurrent : m.Current) :
    m.regions = (m.freshRegions, { m with regionCache := some (m.version, m.freshRegions) }) := by
  rw [CachedMemory.regions, KeyedCache.refreshed_of_dated hcurrent.regions]

theorem Current.buildEmbeddings_eq (hcurrent : m.Current) : m.buildEmbeddings =
    (m.freshStore, { m with embedCache := some (m.version, m.freshStore) }) := by
  rw [buildEmbeddings, KeyedCache.refreshed_of_dated hcurrent.store]

theorem weightedLsaModel_keeps (rank : ℕ) (hrank : m.lsaRerankRank = some rank) :
    Keeps m (m.weightedLsaModel rank).2 := by
  unfold weightedLsaModel
  split
  · exact .of_sameCells (.refl m) rfl rfl rfl
  · rename_i hcached
    split
    · rename_i model hmodel
      exact
        { resident := rfl
          version := rfl
          current := fun hcurrent ↦ ⟨hcurrent.regions, hcurrent.store⟩
          model := .inr ⟨Bool.eq_false_iff.mpr hcached, rank, model, hrank, hmodel, rfl⟩ }
    · exact .of_sameCells (.refl m) rfl rfl rfl

/-- Where the cells are current, a recall that reads the clustering first keeps what one without it
keeps. -/
theorem Current.withRegions (hcurrent : m.Current) :
    ({ m with regionCache := some (m.version, m.freshRegions) } : CachedMemory kernels).Current :=
  ⟨.filled rfl, hcurrent.store⟩

theorem Current.withStore (hcurrent : m.Current) :
    ({ m with embedCache := some (m.version, m.freshStore) } : CachedMemory kernels).Current :=
  ⟨hcurrent.regions, .filled rfl⟩

theorem Current.fromEntry_keeps (hcurrent : m.Current) (query : Recall) (budget : ℕ)
    (store : Option kernels.CausalEmbeddings) {rank : Option ℕ}
    (hrank : ∀ r, rank = some r → m.lsaRerankRank = some r) (entry : Option Str) :
    Keeps m (m.fromEntry query budget store rank entry).2 := by
  cases entry with
  | none => exact .of_sameCells (.refl m) rfl rfl rfl
  | some entry =>
    have hregions : Keeps m { m with regionCache := some (m.version, m.freshRegions) } :=
      ⟨rfl, rfl, Current.withRegions, .inl rfl⟩
    cases rank with
    | none =>
      rw [fromEntry, hcurrent.regions_eq]
      exact hregions
    | some rank =>
      rw [fromEntry, hcurrent.regions_eq]
      have hmodel := @weightedLsaModel_keeps kernels
        { m with regionCache := some (m.version, m.freshRegions) } rank (hrank rank rfl)
      exact
        { resident := hmodel.resident
          version := hmodel.version
          current := fun hcurrent ↦ hmodel.current hcurrent.withRegions
          model := hmodel.model }

theorem Current.recallWindow_keeps (hcurrent : m.Current) (query : Recall) (budget : ℕ) :
    Keeps m (m.recallWindow query budget).2 := by
  have hstore : ∀ entry : kernels.CausalEmbeddings → Option Str,
      Keeps m (m.buildEmbeddings.2.fromEntry query budget (some m.buildEmbeddings.1)
        m.lsaRerankRank (entry m.buildEmbeddings.1)).2 := by
    intro entry
    rw [hcurrent.buildEmbeddings_eq]
    have hentry := hcurrent.withStore.fromEntry_keeps query budget (some m.freshStore)
      (fun _ hrank ↦ hrank) (entry m.freshStore)
    exact
      { resident := hentry.resident
        version := hentry.version
        current := fun hcurrent ↦ hentry.current hcurrent.withStore
        model := hentry.model }
  cases query with
  | workingSet => exact .of_sameCells (.refl m) rfl rfl rfl
  | around uri => exact hcurrent.fromEntry_keeps _ budget none (fun _ hrank ↦ by cases hrank) (some uri)
  | task text => exact hcurrent.fromEntry_keeps _ budget none (fun _ hrank ↦ by cases hrank) _
  | semantic text => exact hstore (kernels.semanticEntry m.resident text)
  | hybrid text => exact hstore (kernels.hybridEntry m.resident text)
  | causalFlash params => exact .of_sameCells (.refl m) rfl rfl rfl

/-- A call that changes nothing that is computed keeps the cells current. -/
theorem Current.call_keeps (hcurrent : m.Current) {c : CachedCall kernels}
    (hsame : m.mutations c = 0) : Keeps m (m.call ingestor c) := by
  cases c with
  | resolve =>
    rw [call, resolve]
    cases hpending : m.memory.needsResolution with
    | true =>
      rw [mutations, hpending] at hsame
      cases hsame
    | false => exact .of_sameCells (.refl m) rfl rfl rfl
  | setLsaRerank rank => exact .of_sameCells ⟨rfl, rfl, rfl⟩ rfl rfl rfl
  | setSlhav2Embeddings enabled => exact setSlhav2Embeddings_keeps enabled
  | attachColdSpill judge inlineBudget created =>
    exact attachColdSpill_keeps judge inlineBudget created
  | setColdContentBudget judge budget => exact setColdContentBudget_keeps judge budget
  | recallWindow query budget => exact hcurrent.recallWindow_keeps query budget
  | ingestSource | ingestDeferred | signalFailure | assertSupport | assertContradiction
  | ensureResident | tick | setMaxResident | setScoringWeights => cases hsame

/-! ## What a recall works on -/

/-- The rank that a recall asks a latent space for. -/
def reranks (m : CachedMemory kernels) : Recall → Option ℕ
  | .semantic text =>
    (kernels.semanticEntry m.resident text m.buildEmbeddings.1).bind fun _ ↦ m.lsaRerankRank
  | .hybrid text =>
    (kernels.hybridEntry m.resident text m.buildEmbeddings.1).bind fun _ ↦ m.lsaRerankRank
  | _ => none

theorem lsaRerankRank_of_reranks {query : Recall} {rank : ℕ} (hrank : m.reranks query = some rank) :
    m.lsaRerankRank = some rank := by
  cases query with
  | semantic text => exact (Option.bind_eq_some_iff.mp hrank).choose_spec.2
  | hybrid text => exact (Option.bind_eq_some_iff.mp hrank).choose_spec.2
  | workingSet | around | task | causalFlash => cases hrank

/-- **Transparent.**  What a recall has worked on is what would be computed now. -/
structure Transparent (m : CachedMemory kernels) (used : Used kernels) : Prop where
  regions : ∀ engine, used.regions = some engine → engine = m.freshRegions
  store : ∀ store, used.store = some store → store = m.freshStore
  model : ∀ model, used.model = some model →
    ∃ rank, m.lsaRerankRank = some rank ∧ model = m.freshModel rank

theorem modelCached_iff :
    m.modelCached = true ↔ ∃ model, m.weightedLsaCache = some (m.version, model) := by
  unfold modelCached
  cases m.weightedLsaCache with
  | none => simp
  | some held =>
    rw [Option.any_some, decide_eq_true_iff]
    constructor
    · intro hversion
      exact ⟨held.2, by rw [← hversion]⟩
    · rintro ⟨model, heq⟩
      rw [Option.some.inj heq]

theorem weightedLsaModel_fst (rank : ℕ) : (m.weightedLsaModel rank).1 =
    if m.modelCached then m.weightedLsaCache.map Prod.snd else m.freshModel rank := by
  unfold weightedLsaModel
  split
  · rfl
  · cases m.freshModel rank with
    | none => rfl
    | some model => rfl

/-- What a recall from an entry works on. -/
theorem Current.used_fromEntry (hcurrent : m.Current) (query : Recall) (budget : ℕ)
    (store : Option kernels.CausalEmbeddings) (rank : Option ℕ) (entry : Option Str) :
    (m.fromEntry query budget store rank entry).1.2 =
      ⟨entry.map fun _ ↦ m.freshRegions, store,
        (entry.bind fun _ ↦ rank).map fun rank ↦ (m.weightedLsaModel rank).1⟩ := by
  cases entry with
  | none => rfl
  | some entry =>
    cases rank with
    | none =>
      rw [fromEntry, hcurrent.regions_eq]
      rfl
    | some rank =>
      rw [fromEntry, hcurrent.regions_eq]
      have hmodel : (weightedLsaModel
          { m with regionCache := some (m.version, m.freshRegions) } rank).1 =
          (m.weightedLsaModel rank).1 := by
        rw [weightedLsaModel_fst, weightedLsaModel_fst]
        rfl
      simp only [hmodel]
      rfl

/-- What a recall with a store works on, from the entry that the store gives. -/
theorem Current.used_withStore (hcurrent : m.Current) (query : Recall) (budget : ℕ)
    (entry : kernels.CausalEmbeddings → Option Str) :
    (m.buildEmbeddings.2.fromEntry query budget (some m.buildEmbeddings.1) m.lsaRerankRank
      (entry m.buildEmbeddings.1)).1.2 =
        ⟨(entry m.buildEmbeddings.1).map fun _ ↦ m.freshRegions, some m.freshStore,
          ((entry m.buildEmbeddings.1).bind fun _ ↦ m.lsaRerankRank).map fun rank ↦
            (m.weightedLsaModel rank).1⟩ := by
  rw [hcurrent.buildEmbeddings_eq]
  dsimp only
  rw [hcurrent.withStore.used_fromEntry]
  have hmodel : ∀ rank, (weightedLsaModel
      { m with embedCache := some (m.version, m.freshStore) } rank).1 =
      (m.weightedLsaModel rank).1 := by
    intro rank
    rw [weightedLsaModel_fst, weightedLsaModel_fst]
    rfl
  simp only [hmodel]
  rfl

/-- **A recall is transparent** as long as the latent space in the cell is that of the rank it asks
for. -/
theorem Current.transparent (hcurrent : m.Current) (query : Recall) (budget : ℕ)
    (hmodel : ∀ rank, m.reranks query = some rank → m.modelCached = true →
      m.weightedLsaCache.map Prod.snd = m.freshModel rank) :
    m.Transparent (m.recallWindow query budget).1.2 := by
  have hanswer : ∀ model, (m.reranks query).map (fun rank ↦ (m.weightedLsaModel rank).1) =
      some model → ∃ rank, m.lsaRerankRank = some rank ∧ model = m.freshModel rank := by
    intro model hused
    obtain ⟨rank, hrank, rfl⟩ := Option.map_eq_some_iff.mp hused
    refine ⟨rank, lsaRerankRank_of_reranks hrank, ?_⟩
    rw [weightedLsaModel_fst]
    split
    · rename_i hcached
      exact hmodel rank hrank hcached
    · rfl
  have hregions : ∀ (entry : Option Str) (engine : kernels.ContextRegionEngine),
      (entry.map fun _ ↦ m.freshRegions) = some engine → engine = m.freshRegions := by
    intro entry engine hentry
    obtain ⟨_, _, rfl⟩ := Option.map_eq_some_iff.mp hentry
    rfl
  have hstore : ∀ store, some m.freshStore = some store → store = m.freshStore :=
    fun _ hstore ↦ (Option.some.inj hstore).symm
  cases query with
  | workingSet => exact ⟨nofun, nofun, nofun⟩
  | causalFlash params => exact ⟨nofun, nofun, nofun⟩
  | around uri =>
    rw [recallWindow, hcurrent.used_fromEntry]
    exact ⟨hregions (some uri), nofun, nofun⟩
  | task text =>
    rw [recallWindow, hcurrent.used_fromEntry]
    refine ⟨hregions _, nofun, fun model hused ↦ ?_⟩
    cases hentry : kernels.lexicalEntry m.resident text with
    | none =>
      rw [hentry] at hused
      cases hused
    | some entry =>
      rw [hentry] at hused
      cases hused
  | semantic text =>
    have hused := hcurrent.used_withStore (.semantic text) budget
      (kernels.semanticEntry m.resident text)
    rw [recallWindow, hused]
    exact ⟨hregions _, hstore, hanswer⟩
  | hybrid text =>
    have hused := hcurrent.used_withStore (.hybrid text) budget
      (kernels.hybridEntry m.resident text)
    rw [recallWindow, hused]
    exact ⟨hregions _, hstore, hanswer⟩

end CachedMemory

/-! ## Runs -/

/-- A memory, how often its graph has changed, and the rank for which the latent space in the cell
was built. -/
structure CachedRun (kernels : Kernels) where
  memory : CachedMemory kernels
  mutations : ℕ
  builtFor : Option ℕ

namespace CachedRun

variable {kernels : Kernels} (ingestor : Ingestor)

def opened (memory : CcosMemory) (scoringWeights : kernels.ScoringWeights) : CachedRun kernels where
  memory := .opened memory scoringWeights
  mutations := 0
  builtFor := none

def call (s : CachedRun kernels) (c : CachedCall kernels) : CachedRun kernels where
  memory := s.memory.call ingestor c
  mutations := s.mutations + s.memory.mutations c
  builtFor :=
    if (s.memory.call ingestor c).weightedLsaCache.map Prod.fst =
      s.memory.weightedLsaCache.map Prod.fst then s.builtFor
    else s.memory.lsaRerankRank

def cachedMachine : Machine (CachedRun kernels) (CachedCall kernels) where
  step := fun s c ↦ some (s.call ingestor c)

/-- The graph changes fewer than 2^64 times. -/
def Countable (s : CachedRun kernels) (c : CachedCall kernels) : Prop :=
  s.mutations + s.memory.mutations c < 2 ^ 64

/-- A recall that finds a latent space of the present version asks for the rank it was built for. -/
def SameRank (s : CachedRun kernels) : CachedCall kernels → Prop
  | .recallWindow query _ => ∀ rank ∈ s.memory.reranks query,
      s.memory.modelCached = true → s.builtFor = some rank
  | _ => True

instance (s : CachedRun kernels) (c : CachedCall kernels) : Decidable (s.Countable c) :=
  inferInstanceAs (Decidable (_ < _))

instance (s : CachedRun kernels) (c : CachedCall kernels) : Decidable (s.SameRank c) := by
  unfold SameRank
  split <;> infer_instance

def TransparentCall (s : CachedRun kernels) : CachedCall kernels → Prop
  | .recallWindow query budget => s.memory.Transparent (s.memory.recallWindow query budget).1.2
  | _ => True

structure Inv (s : CachedRun kernels) : Prop where
  version : s.memory.version = s.mutations
  current : s.memory.Current
  model : KeyedCache.Dated s.memory.version (fun model ↦ ∃ rank, s.builtFor = some rank ∧
    s.memory.freshModel rank = some model) s.memory.weightedLsaCache

variable {ingestor} {s : CachedRun kernels} {c : CachedCall kernels}

theorem inv_opened (memory : CcosMemory) (scoringWeights : kernels.ScoringWeights) :
    (opened memory scoringWeights).Inv where
  version := rfl
  current := ⟨.none, .none⟩
  model := .none

theorem Inv.mutated (hs : s.Inv) (hcountable : s.Countable c) (hmutates : 0 < s.memory.mutations c) :
    (s.call ingestor c).Inv := by
  obtain ⟨hcells, hversion⟩ := @CachedMemory.call_of_mutates _ ingestor s.memory c hmutates
  rw [hs.version, Nat.mod_eq_of_lt hcountable] at hversion
  have hlater : s.memory.version < (s.memory.call ingestor c).version := by
    rw [hversion, hs.version]
    exact Nat.lt_add_of_pos_right hmutates
  refine ⟨hversion, ⟨?_, ?_⟩, ?_⟩
  · rw [call, hcells.regionCache]
    exact hs.current.regions.later hlater
  · rw [call, hcells.embedCache]
    exact hs.current.store.later hlater
  · rw [call, hcells.weightedLsaCache]
    exact hs.model.later hlater

theorem Inv.kept (hs : s.Inv) (hsame : s.memory.mutations c = 0) : (s.call ingestor c).Inv := by
  have hkeeps : s.memory.Keeps (s.memory.call ingestor c) := hs.current.call_keeps hsame
  refine ⟨?_, hkeeps.current hs.current, ?_⟩
  · rw [call, hkeeps.version, hs.version, hsame]
    rfl
  · have hfresh : ∀ rank, (s.memory.call ingestor c).freshModel rank = s.memory.freshModel rank := by
      intro rank
      rw [CachedMemory.freshModel, hkeeps.resident]
      rfl
    rw [call]
    dsimp only
    simp only [hkeeps.version, hfresh]
    rcases hkeeps.model with hcell | ⟨huncached, rank, model, hrank, hmodel, hcell⟩
    · rw [hcell, if_pos rfl]
      exact hs.model
    · have hother : (some (s.memory.version, model)).map Prod.fst ≠
          s.memory.weightedLsaCache.map Prod.fst := by
        intro hsame
        obtain ⟨⟨_, held⟩, hheld, rfl⟩ := Option.map_eq_some_iff.mp hsame.symm
        rw [CachedMemory.modelCached_iff.mpr ⟨held, hheld⟩] at huncached
        cases huncached
      rw [hcell, if_neg hother]
      exact .filled ⟨rank, hrank, hmodel⟩

theorem Inv.call (hs : s.Inv) (hcountable : s.Countable c) : (s.call ingestor c).Inv := by
  cases Nat.eq_zero_or_pos (s.memory.mutations c) with
  | inl hsame => exact hs.kept hsame
  | inr hmutates => exact hs.mutated hcountable hmutates

theorem Inv.transparentCall (hs : s.Inv) (hrank : s.SameRank c) : s.TransparentCall c := by
  cases c with
  | recallWindow query budget =>
    refine hs.current.transparent query budget fun rank hreranks hcached ↦ ?_
    obtain ⟨held, hheld⟩ := CachedMemory.modelCached_iff.mp hcached
    obtain ⟨built, hbuilt, hmodel⟩ := (hs.model s.memory.version held hheld).2 rfl
    rw [hrank rank hreranks hcached] at hbuilt
    cases hbuilt
    rw [hheld, Option.map_some, hmodel]
  | ingestSource | ingestDeferred | resolve | signalFailure | assertSupport | assertContradiction
  | ensureResident | tick | setMaxResident | setScoringWeights | setLsaRerank | setSlhav2Embeddings
  | attachColdSpill | setColdContentBudget => trivial

end CachedRun

/-- **Recalls are transparent to their caches**, in every sequence of calls in which a recall asks
for a latent space of the rank that the one in the cell was built for. -/
theorem recalls_transparent (kernels : Kernels) (ingestor : Ingestor) (memory : CcosMemory)
    (scoringWeights : kernels.ScoringWeights) (calls : List (CachedCall kernels))
    (hcountable : (CachedRun.cachedMachine ingestor).Meets CachedRun.Countable
      (.opened memory scoringWeights) calls)
    (hrank : (CachedRun.cachedMachine ingestor).Meets CachedRun.SameRank
      (.opened memory scoringWeights) calls) :
    (CachedRun.cachedMachine ingestor).Meets CachedRun.TransparentCall
      (.opened memory scoringWeights) calls := by
  have hstep : ∀ (s : CachedRun kernels) (c : CachedCall kernels) (s' : CachedRun kernels), s.Inv →
      s.Countable c ∧ s.SameRank c → (CachedRun.cachedMachine ingestor).step s c = some s' →
      s'.Inv := by
    rintro s c _ hs hok ⟨⟩
    exact hs.call hok.1
  exact Machine.meets_of_inv hstep (fun _ _ hs hok ↦ hs.transparentCall hok.2)
    (CachedRun.inv_opened memory scoringWeights) (hcountable.and hrank)

/-! ## Runs -/

/-- The projection at a rank has as many rows as the rank says. -/
def rankKernels : Kernels where
  ScoringWeights := Unit
  ContextRegionEngine := List Str
  CausalEmbeddings := Bool × List (Str × Str)
  TfidfEmbedder := Unit
  Row := Unit
  RecallWindow := List Str
  initializeRegions := fun resident ↦ resident.nodes.keys
  regionMembers := fun engine id ↦ if id ∈ engine then some engine else none
  neighbourhood := fun _ id ↦ [id]
  fitAndEmbed := Prod.mk
  fit := fun _ ↦ ()
  weightedLsaProjection := fun _ _ _ rank ↦ List.replicate rank ()
  nodeScores := fun resident ↦ resident.nodes.keys
  causalFlashWindow := fun _ _ ↦ []
  lexicalEntry := fun resident _ ↦ resident.nodes.keys.head?
  semanticEntry := fun resident _ _ ↦ resident.nodes.keys.head?
  hybridEntry := fun resident _ _ ↦ resident.nodes.keys.head?
  assembleWindow := fun _ _ _ ids _ _ ↦ ids

def ingestOne : CachedCall rankKernels := .ingestSource evenJudges ['a'] ['x']

/-- A change of the rank after a change of the graph. -/
def rankAfterChange : List (CachedCall rankKernels) :=
  [ingestOne, .setLsaRerank (some 1), .recallWindow (.semantic []) 10,
    .recallWindow (.hybrid []) 10, .setLsaRerank (some 2), .tick, .recallWindow (.semantic []) 10]

theorem recalls_transparent_rankAfterChange :
    (CachedRun.cachedMachine letterIngestor).Meets CachedRun.TransparentCall
      (.opened (.new 10) ()) rankAfterChange :=
  recalls_transparent rankKernels letterIngestor (.new 10) () rankAfterChange (by decide +kernel)
    (by decide +kernel)

/-- A change of the rank between two recalls of one graph. -/
def rankOnly : List (CachedCall rankKernels) :=
  [ingestOne, .setLsaRerank (some 1), .recallWindow (.semantic []) 10, .setLsaRerank (some 2)]

/-- The recall at rank 2 works on the latent space of rank 1. -/
theorem not_recalls_transparent_rankOnly :
    ¬ ∀ calls : List (CachedCall rankKernels),
      (CachedRun.cachedMachine letterIngestor).Meets CachedRun.Countable (.opened (.new 10) ())
        calls →
      (CachedRun.cachedMachine letterIngestor).Meets CachedRun.TransparentCall
        (.opened (.new 10) ()) calls := by
  intro hall
  have hmeets := hall (rankOnly ++ [.recallWindow (.semantic []) 10]) (by decide +kernel)
  have hread : ((CachedRun.cachedMachine letterIngestor).run (.opened (.new 10) ()) rankOnly).map
      (fun s ↦ ((s.memory.recallWindow (.semantic []) 10).1.2.model.map
          fun model ↦ model.map fun held ↦ held.2.length,
        s.memory.lsaRerankRank, (s.memory.freshModel 2).map fun held ↦ held.2.length)) =
      some (some (some 1), some 2, some 2) := by decide +kernel
  obtain ⟨s, hrun, hs⟩ := Option.map_eq_some_iff.mp hread
  obtain ⟨hused, hset, hfresh⟩ : _ ∧ _ ∧ _ :=
    ⟨congrArg (·.1) hs, congrArg (·.2.1) hs, congrArg (·.2.2) hs⟩
  have hlast : s.memory.Transparent (s.memory.recallWindow (.semantic []) 10).1.2 :=
    hmeets.last hrun
  obtain ⟨model, hmodel, hlength⟩ := Option.map_eq_some_iff.mp hused
  obtain ⟨rank, hrank, rfl⟩ := hlast.model model hmodel
  cases hrank.symm.trans hset
  cases hfresh.symm.trans hlength

end SoulSystem.Ccos.External
