import SoulSystem.Library.SortedMap
import SoulSystem.Ccos.Memory.Operations

/-!
# The moves of the COLD tier

Every operation on the graph is a sequence of a few moves: demotion, compaction, spill, deep spill,
the two kinds of fault-back, and the return of a node.  A property that all moves keep is kept by
every budget pass, by paging and by page-in.

Two kinds of moves need care and are recorded as events of the operation, with the data that they
meet: the release of a content blob, which does not look at the husks, and the serialisation of an
entry into the body of a husk.
-/

namespace SoulSystem.Ccos.Memory

open Library List

/-- A content blob offered for release in a state, or an entry archived as a husk. -/
inductive Event where
  | release (g : MemoryGraph) (hash : Str)
  | archive (entry : ColdNode)

/-- An upsert, a removal, an attach or a new budget for the content. -/
def Op.Resets : Op → Prop
  | .upsertNode .. | .removeNode _ | .attachColdSpill _ | .setColdContentBudget _ => True
  | _ => False

namespace MemoryGraph

variable (codec : Codec) (judge : Judge)

/-! ## Events -/

def releaseEvents (g : MemoryGraph) : Option SpillRef → List Event
  | some ref => [.release g ref.hash]
  | none => []

def forgetEvents (g : MemoryGraph) (id : Str) : List Event :=
  match g.cold[id]? with
  | some old => releaseEvents { g with cold := g.cold.erase id } old.spill
  | none => []

def compactEvents (g : MemoryGraph) (id : Str) : List Event :=
  match compactSource codec g id with
  | none => []
  | some (entry, content, _) =>
    let compact := codec.compactContent entry.node.nodeType content
    if byteLen content ≤ byteLen compact then []
    else releaseEvents (withCompacted g id entry compact) entry.spill

def deepSpillEvents (g : MemoryGraph) (id : Str) : List Event :=
  match deepSpillSource codec judge g id with
  | none => []
  | some (store, entry, inline) =>
    .archive inline :: releaseEvents (withHusk codec g store id entry inline) entry.spill

/-- The events of a loop over candidates. -/
def budgetEvents (step : MemoryGraph × ℕ → Str → MemoryGraph × ℕ)
    (events : MemoryGraph → Str → List Event) (budget : ℕ) :
    List Str → MemoryGraph × ℕ → List Event
  | [], _ => []
  | id :: ids, state =>
    if state.2 ≤ budget then []
    else events state.1 id ++ budgetEvents step events budget ids (step state id)

def contentBudgetEvents (g : MemoryGraph) : List Event :=
  match g.coldContentBudget with
  | none => []
  | some budget =>
    budgetEvents (compactEntry codec) (compactEvents codec) budget
      (coldCandidates judge g fun entry ↦ !entry.compacted && !entry.atFloor)
      (g, coldInlineBytes g + coldSpilledBytes g)

def residentBudgetEvents (g : MemoryGraph) : List Event :=
  match g.coldResidentBudget with
  | none => []
  | some budget =>
    if g.spill.isNone then []
    else
      budgetEvents (deepSpillEntry codec judge) (deepSpillEvents codec judge) budget
        (coldCandidates judge g fun _ ↦ true) (g, coldResidentBytes judge g)

def budgetsEvents (g : MemoryGraph) : List Event :=
  contentBudgetEvents codec judge g ++
    residentBudgetEvents codec judge
      (enforceColdBudget codec judge (enforceColdContentBudget codec judge g))

/-- The graph that `enforce_paging` hands to the budget passes. -/
def evicted (g : MemoryGraph) : MemoryGraph :=
  pruneDanglingEdges (((rankedIds (judge.priority g) g.nodes.toList).take
    (g.nodes.size - g.maxInMemoryNodes)).foldl demote g)

def pagingEvents (g : MemoryGraph) : List Event :=
  if g.nodes.size ≤ g.maxInMemoryNodes then [] else budgetsEvents codec judge (evicted judge g)

def faultEvents (g : MemoryGraph) (id : Str) : List Event :=
  match g.cold[id]? with
  | none => []
  | some entry =>
    match entry.spill with
    | none => []
    | some ref =>
      match fetch codec g ref.hash with
      | none => []
      | some text =>
        let inline := { entry with
          node := { entry.node with content := text }
          spill := none }
        [.release { g with cold := g.cold.insert id inline } ref.hash]

/-- The graph that `page_in` hands to the budget passes. -/
def swapped (g : MemoryGraph) (id : Str) (entry : ColdNode) : MemoryGraph :=
  pruneDanglingEdges (swapOut judge id (g.restore id entry).nodes.size (g.restore id entry))

def pageInEvents (g : MemoryGraph) (id : Str) : List Event :=
  match faultHusk codec g id with
  | none => []
  | some g =>
    faultEvents codec g id ++
      match faultContent codec g id with
      | none => []
      | some g =>
        match g.cold[id]? with
        | none => []
        | some entry => budgetsEvents codec judge (swapped judge g id entry)

/-- The graph that `upsert_node` hands to paging. -/
def withUpserted (g : MemoryGraph) (id label content : Str) (nodeType : NodeType) : MemoryGraph :=
  let g := forgetColdShadow g id
  { g with nodes := g.nodes.insert id (upserted g.nodes[id]? id label content nodeType g.clock) }

/-- The graph with a store on an empty directory, its budgets not yet enforced. -/
def withStore (g : MemoryGraph) (inlineBudget : ℕ) : MemoryGraph :=
  { g with spill := some { files := ∅, inlineBudget }, husks := ∅ }

/-- The graph in which an operation starts to move entries, or its result if it moves none. -/
def started (op : Op) (g : MemoryGraph) : MemoryGraph :=
  match op with
  | .upsertNode id label content nodeType => withUpserted g id label content nodeType
  | .enforcePaging | .pageIn _ => g
  | .attachColdSpill inlineBudget => withStore g inlineBudget
  | .setColdContentBudget budget => { g with coldContentBudget := budget }
  | .setColdResidentBudget budget => { g with coldResidentBudget := budget }
  | op => apply codec judge op g

def events (op : Op) (g : MemoryGraph) : List Event :=
  match op with
  | .upsertNode id label content nodeType =>
    forgetEvents g id ++ pagingEvents codec judge (withUpserted g id label content nodeType)
  | .removeNode id => forgetEvents { g with nodes := g.nodes.erase id } id
  | .enforcePaging => pagingEvents codec judge g
  | .pageIn id => pageInEvents codec judge g id
  | .attachColdSpill inlineBudget =>
    residentBudgetEvents codec judge (enforceColdBudget codec judge (withStore g inlineBudget))
  | .setColdContentBudget budget =>
    contentBudgetEvents codec judge { g with coldContentBudget := budget }
  | .setColdResidentBudget budget =>
    residentBudgetEvents codec judge { g with coldResidentBudget := budget }
  | _ => []

/-- The events of a whole run. -/
def runEvents : MemoryGraph → List Step → List Event
  | _, [] => []
  | g, step :: steps =>
    events codec step.1 step.2 g ++ runEvents (apply codec step.1 step.2 g) steps

/-! ## Properties that the moves keep -/

/-- A property that the moves of the budget passes keep, provided that their events are good. -/
structure Settles (good : Event → Prop) (P : MemoryGraph → Prop) : Prop where
  compact : ∀ g total id, P g → g.coldContentBudget.isSome = true →
    (∀ event ∈ compactEvents codec g id, good event) → P (compactEntry codec (g, total) id).1
  spill : ∀ g total id, P g → P (spillEntry codec (g, total) id).1
  deepSpill : ∀ judge g total id, P g → (∀ event ∈ deepSpillEvents codec judge g id, good event) →
    P (deepSpillEntry codec judge (g, total) id).1

/-- A property that every move keeps, provided that its events are good. -/
structure Stable (good : Event → Prop) (P : MemoryGraph → Prop) : Prop where
  demote : ∀ g id, P g → P (demote g id)
  prune : ∀ g, P g → P (pruneDanglingEdges g)
  compact : ∀ g total id, P g → g.coldContentBudget.isSome = true →
    (∀ event ∈ compactEvents codec g id, good event) → P (compactEntry codec (g, total) id).1
  spill : ∀ g total id, P g → P (spillEntry codec (g, total) id).1
  deepSpill : ∀ judge g total id, P g → (∀ event ∈ deepSpillEvents codec judge g id, good event) →
    P (deepSpillEntry codec judge (g, total) id).1
  faultHusk : ∀ g h id, P g → faultHusk codec g id = some h → P h
  faultContent : ∀ g h id, P g → (∀ event ∈ faultEvents codec g id, good event) →
    faultContent codec g id = some h → P h
  restore : ∀ g id entry, P g → g.cold[id]? = some entry → entry.spill = none →
    P (g.restore id entry)

variable {codec judge}

/-! ## What a release leaves alone -/

@[simp]
theorem cold_releaseContentBlobIfOrphan (g : MemoryGraph) (hash : Str) :
    (releaseContentBlobIfOrphan g hash).cold = g.cold := by
  unfold releaseContentBlobIfOrphan
  split <;> rfl

@[simp]
theorem husks_releaseContentBlobIfOrphan (g : MemoryGraph) (hash : Str) :
    (releaseContentBlobIfOrphan g hash).husks = g.husks := by
  unfold releaseContentBlobIfOrphan
  split <;> rfl

@[simp]
theorem cold_releaseBlobIfOrphan (g : MemoryGraph) (hash : Str) :
    (releaseBlobIfOrphan g hash).cold = g.cold := by
  unfold releaseBlobIfOrphan
  split <;> rfl

@[simp]
theorem husks_releaseBlobIfOrphan (g : MemoryGraph) (hash : Str) :
    (releaseBlobIfOrphan g hash).husks = g.husks := by
  unfold releaseBlobIfOrphan
  split <;> rfl

@[simp]
theorem nodes_releaseBlobIfOrphan (g : MemoryGraph) (hash : Str) :
    (releaseBlobIfOrphan g hash).nodes = g.nodes :=
  nodes_eq_of_hot (hot_releaseBlobIfOrphan g hash)

@[simp]
theorem cold_releaseSpill (g : MemoryGraph) (spill : Option SpillRef) :
    (releaseSpill g spill).cold = g.cold := by
  cases spill with
  | none => rfl
  | some ref => exact cold_releaseContentBlobIfOrphan g ref.hash

@[simp]
theorem husks_releaseSpill (g : MemoryGraph) (spill : Option SpillRef) :
    (releaseSpill g spill).husks = g.husks := by
  cases spill with
  | none => rfl
  | some ref => exact husks_releaseContentBlobIfOrphan g ref.hash

@[simp]
theorem nodes_releaseSpill (g : MemoryGraph) (spill : Option SpillRef) :
    (releaseSpill g spill).nodes = g.nodes :=
  nodes_eq_of_hot (hot_releaseSpill g spill)

/-- The shadow of an id is gone from both COLD tiers, the other ids are where they were. -/
theorem cold_forgetFull (g : MemoryGraph) (id : Str) :
    (forgetFull g id).cold = g.cold.erase id := by
  unfold forgetFull
  split
  · exact cold_releaseSpill _ _
  · rename_i hnone
    exact (SortedMap.erase_eq_self (SortedMap.getElem?_eq_none_iff.mp hnone)).symm

@[simp]
theorem husks_forgetFull (g : MemoryGraph) (id : Str) : (forgetFull g id).husks = g.husks := by
  unfold forgetFull
  split
  · exact husks_releaseSpill _ _
  · rfl

@[simp]
theorem cold_forgetColdShadow (g : MemoryGraph) (id : Str) :
    (forgetColdShadow g id).cold = g.cold.erase id := by
  rw [forgetColdShadow, forgetHusk, ← cold_forgetFull]
  split
  · exact cold_releaseBlobIfOrphan _ _
  · rfl

@[simp]
theorem husks_forgetColdShadow (g : MemoryGraph) (id : Str) :
    (forgetColdShadow g id).husks = g.husks.erase id := by
  rw [forgetColdShadow, forgetHusk, husks_forgetFull]
  split
  · exact husks_releaseBlobIfOrphan _ _
  · rename_i hnone
    rw [husks_forgetFull]
    exact (SortedMap.erase_eq_self (SortedMap.getElem?_eq_none_iff.mp hnone)).symm

@[simp]
theorem nodes_forgetColdShadow (g : MemoryGraph) (id : Str) :
    (forgetColdShadow g id).nodes = g.nodes :=
  nodes_eq_of_hot (hot_forgetColdShadow g id)

/-! ## What the moves find and leave -/

theorem getElem?_of_compactSource {g : MemoryGraph} {id : Str} {entry : ColdNode} {content : Str}
    {oldLen : ℕ} (hsource : compactSource codec g id = some (entry, content, oldLen)) :
    g.cold[id]? = some entry := by
  unfold compactSource at hsource
  split at hsource
  · cases hsource
  · rename_i found hfound
    split at hsource
    · cases hsource
    · split at hsource
      · rw [Option.map_eq_some_iff] at hsource
        obtain ⟨_, _, heq⟩ := hsource
        cases heq
        exact hfound
      · cases hsource
        exact hfound

/-- What a deep spill works on: the entry itself, the store and the entry with its content. -/
theorem of_deepSpillSource {g : MemoryGraph} {id : Str} {store : ColdSpill}
    {entry inline : ColdNode}
    (hsource : deepSpillSource codec judge g id = some (store, entry, inline)) :
    g.cold[id]? = some entry ∧ g.spill = some store ∧ foldInline codec g entry = some inline := by
  unfold deepSpillSource at hsource
  split at hsource
  · rename_i found files hfound hspill
    split at hsource
    · cases hsource
    · rw [Option.map_eq_some_iff] at hsource
      obtain ⟨folded, hfold, heq⟩ := hsource
      cases heq
      exact ⟨hfound, hspill, hfold⟩
  · cases hsource

theorem spill_of_foldInline {g : MemoryGraph} {entry inline : ColdNode}
    (hfold : foldInline codec g entry = some inline) : inline.spill = none := by
  unfold foldInline at hfold
  split at hfold
  · rw [Option.map_eq_some_iff] at hfold
    obtain ⟨_, _, heq⟩ := hfold
    cases heq
    rfl
  · rename_i hspill
    cases hfold
    exact hspill

/-- Re-linking touches the edges only. -/
theorem foldl_relink_fields (edges : List GraphEdge) (g : MemoryGraph) :
    ∃ linked, edges.foldl relink g = { g with edges := linked } := by
  induction edges generalizing g with
  | nil => exact ⟨g.edges, rfl⟩
  | cons edge edges ih =>
    rw [foldl_cons]
    unfold relink
    split
    · obtain ⟨linked, hlinked⟩ := ih { g with edges := g.edges ++ [edge] }
      exact ⟨linked, hlinked⟩
    · exact ih g

@[simp]
theorem spillPut_snd (store : ColdSpill) (content : Str) :
    (spillPut codec store content).2 = codec.sha256 content := by
  unfold spillPut
  simp only []
  split <;> rfl

/-- A read returns a text with the hash that it was asked for. -/
theorem sha256_of_fetch {g : MemoryGraph} {hash text : Str}
    (hfetch : fetch codec g hash = some text) : codec.sha256 text = hash := by
  unfold fetch at hfetch
  rw [Option.bind_eq_some_iff] at hfetch
  obtain ⟨store, _, hget⟩ := hfetch
  unfold spillGet at hget
  simp only [Option.bind_eq_bind, Option.bind_eq_some_iff] at hget
  obtain ⟨blob, _, found, _, hcheck⟩ := hget
  split at hcheck
  · rename_i hhash
    cases hcheck
    exact hhash
  · cases hcheck

theorem fields_of_foldInline {g : MemoryGraph} {entry inline : ColdNode}
    (hfold : foldInline codec g entry = some inline) :
    ∃ content, inline.node = { entry.node with content } ∧ inline.edges = entry.edges := by
  unfold foldInline at hfold
  split at hfold
  · obtain ⟨text, _, rfl⟩ := Option.map_eq_some_iff.mp hfold
    exact ⟨text, rfl, rfl⟩
  · cases hfold
    exact ⟨_, rfl, rfl⟩

theorem restore_fields (g : MemoryGraph) (id : Str) (entry : ColdNode) :
    ∃ linked, g.restore id entry = { g with
      cold := g.cold.erase id
      nodes := g.nodes.insert id (pagedIn entry.node g.clock)
      edges := linked } :=
  foldl_relink_fields entry.edges _

/-! ## The shapes of the moves -/

/-- An entry is replaced by one of the same node, but for its content, and with the same edges. -/
structure Rewrites (g h : MemoryGraph) (id : Str) (entry other : ColdNode) : Prop where
  found : g.cold[id]? = some entry
  cold : h.cold = g.cold.insert id other
  node : ∃ content, other.node = { entry.node with content }
  edges : other.edges = entry.edges
  hot : h.hot = g.hot
  husks : h.husks = g.husks
  spill : h.spill = none → g.spill = none

/-- An entry becomes a husk whose body is the text of the entry with its content. -/
structure ToHusk (codec : Codec) (g h : MemoryGraph) (id : Str) (entry inline : ColdNode)
    (husk : DeepHusk) : Prop where
  found : g.cold[id]? = some entry
  folded : foldInline codec g entry = some inline
  husks : h.husks = g.husks.insert id husk
  adj : husk.adj = neighbourIds entry
  hash : husk.body.hash = codec.sha256 (codec.toJson inline)
  hot : h.hot = g.hot
  cold : h.cold = g.cold.erase id
  spill : h.spill ≠ none

/-- A husk becomes the entry that its body describes. -/
structure ToEntry (codec : Codec) (g h : MemoryGraph) (id : Str) (husk : DeepHusk)
    (entry : ColdNode) : Prop where
  found : g.husks[id]? = some husk
  body : ∃ text, codec.sha256 text = husk.body.hash ∧ codec.fromJson text = some entry
  hot : h.hot = g.hot
  cold : h.cold = g.cold.insert id entry
  husks : h.husks = g.husks.erase id
  spill : h.spill = none → g.spill = none

theorem spill_of_dropBlob {g : MemoryGraph} {hash : Str} (hnone : (dropBlob g hash).spill = none) :
    g.spill = none :=
  Option.map_eq_none_iff.mp hnone

theorem spill_of_releaseSpill {g : MemoryGraph} {spill : Option SpillRef}
    (hnone : (releaseSpill g spill).spill = none) : g.spill = none := by
  cases spill with
  | none => exact hnone
  | some ref =>
    have hrelease : (releaseContentBlobIfOrphan g ref.hash).spill = none := hnone
    unfold releaseContentBlobIfOrphan at hrelease
    split at hrelease
    · exact hrelease
    · exact spill_of_dropBlob hrelease

theorem spill_of_releaseBlobIfOrphan {g : MemoryGraph} {hash : Str}
    (hnone : (releaseBlobIfOrphan g hash).spill = none) : g.spill = none := by
  unfold releaseBlobIfOrphan at hnone
  split at hnone
  · exact hnone
  · exact spill_of_dropBlob hnone

section Shapes

variable {g h : MemoryGraph} {id : Str} {total : ℕ} {entry other : ColdNode}

/-- Before a release, an entry is in place; the release changes no tier. -/
theorem Rewrites.release (hrewrites : Rewrites g h id entry other) (spill : Option SpillRef) :
    Rewrites g (releaseSpill h spill) id entry other :=
  { hrewrites with
    hot := (hot_releaseSpill h spill).trans hrewrites.hot
    cold := (cold_releaseSpill h spill).trans hrewrites.cold
    husks := (husks_releaseSpill h spill).trans hrewrites.husks
    spill := fun hnone ↦ hrewrites.spill (spill_of_releaseSpill hnone) }

theorem compactEntry_cases (codec : Codec) (g : MemoryGraph) (total : ℕ) (id : Str) :
    (compactEntry codec (g, total) id).1 = g ∨
      ∃ entry other, Rewrites g (compactEntry codec (g, total) id).1 id entry other := by
  unfold compactEntry
  split
  · exact .inl rfl
  · rename_i entry content oldLen hsource
    have hentry := getElem?_of_compactSource hsource
    refine .inr ⟨entry, ?_⟩
    simp only []
    split
    · exact ⟨_, hentry, rfl, ⟨_, rfl⟩, rfl, rfl, rfl, fun hnone ↦ hnone⟩
    · have hcompacted : Rewrites g (withCompacted g id entry
          (codec.compactContent entry.node.nodeType content)) id entry _ :=
        ⟨hentry, rfl, ⟨_, rfl⟩, rfl, rfl, rfl, fun hnone ↦ hnone⟩
      exact ⟨_, hcompacted.release entry.spill⟩

theorem spillEntry_cases (codec : Codec) (g : MemoryGraph) (total : ℕ) (id : Str) :
    (spillEntry codec (g, total) id).1 = g ∨
      ∃ entry other, Rewrites g (spillEntry codec (g, total) id).1 id entry other := by
  unfold spillEntry
  split
  · rename_i entry store hentry _
    split
    · exact .inl rfl
    · exact .inr ⟨entry, _, hentry, rfl, ⟨_, rfl⟩, rfl, rfl, rfl, fun hnone ↦ nomatch hnone⟩
  · exact .inl rfl

theorem deepSpillEntry_cases (codec : Codec) (judge : Judge) (g : MemoryGraph) (total : ℕ)
    (id : Str) :
    (deepSpillEntry codec judge (g, total) id).1 = g ∨
      ∃ entry inline husk, .archive inline ∈ deepSpillEvents codec judge g id ∧
        ToHusk codec g (deepSpillEntry codec judge (g, total) id).1 id entry inline husk := by
  unfold deepSpillEntry
  split
  · exact .inl rfl
  · rename_i store entry inline hsource
    obtain ⟨hentry, _, hfold⟩ := of_deepSpillSource hsource
    have hevent : .archive inline ∈ deepSpillEvents codec judge g id := by
      rw [deepSpillEvents, hsource]
      exact mem_cons_self
    exact .inr ⟨entry, inline, _, hevent, hentry, hfold, husks_releaseSpill _ _, rfl,
      spillPut_snd store _, hot_releaseSpill _ _, cold_releaseSpill _ _,
      fun hnone ↦ nomatch spill_of_releaseSpill hnone⟩

theorem faultHusk_cases (hfault : faultHusk codec g id = some h) :
    h = g ∨ ∃ husk entry, ToEntry codec g h id husk entry := by
  unfold faultHusk at hfault
  split at hfault
  · cases hfault
    exact .inl rfl
  · rename_i husk hhusk
    split at hfault
    · cases hfault
    · rename_i entry hparse
      cases hfault
      obtain ⟨text, hfetch, hjson⟩ := Option.bind_eq_some_iff.mp hparse
      exact .inr ⟨husk, entry, hhusk, ⟨text, sha256_of_fetch hfetch, hjson⟩,
        hot_releaseBlobIfOrphan _ _, cold_releaseBlobIfOrphan _ _, husks_releaseBlobIfOrphan _ _,
        spill_of_releaseBlobIfOrphan (g := { g with
          cold := g.cold.insert id entry
          husks := g.husks.erase id })⟩

theorem faultContent_cases (hfault : faultContent codec g id = some h) :
    h = g ∨ ∃ entry other, Rewrites g h id entry other := by
  unfold faultContent at hfault
  split at hfault
  · cases hfault
    exact .inl rfl
  · rename_i entry hentry
    split at hfault
    · cases hfault
      exact .inl rfl
    · rename_i ref _
      split at hfault
      · cases hfault
      · rename_i text _
        cases hfault
        have hinline : Rewrites g { g with cold := g.cold.insert id { entry with
            node := { entry.node with content := text }
            spill := none } } id entry _ :=
          ⟨hentry, rfl, ⟨_, rfl⟩, rfl, rfl, rfl, fun hnone ↦ hnone⟩
        exact .inr ⟨entry, _, hinline.release (some ⟨ref.hash, 0⟩)⟩

theorem hot_of_faultHusk (hfault : faultHusk codec g id = some h) : h.hot = g.hot := by
  rcases faultHusk_cases hfault with rfl | ⟨_, _, hmove⟩
  · rfl
  · exact hmove.hot

theorem hot_of_faultContent (hfault : faultContent codec g id = some h) : h.hot = g.hot := by
  rcases faultContent_cases hfault with rfl | ⟨_, _, hmove⟩
  · rfl
  · exact hmove.hot

end Shapes

/-! ## What the operations start from -/

/-- The tiers stay as they are, but for the times and counts of use of the resident nodes. -/
structure Stays (g h : MemoryGraph) : Prop where
  nodes : ∀ (id : Str) (node : GraphNode), h.nodes[id]? = some node →
    ∃ old, g.nodes[id]? = some old ∧ ∃ recency lastAccessed accessCount,
      node = { old with recency, lastAccessed, accessCount }
  mem : ∀ id, id ∈ h.nodes ↔ id ∈ g.nodes
  cold : h.cold = g.cold
  husks : h.husks = g.husks
  spill : h.spill = g.spill
  coldContentBudget : h.coldContentBudget = g.coldContentBudget

theorem Stays.of_nodes {g h : MemoryGraph} (hnodes : h.nodes = g.nodes) (hcold : h.cold = g.cold)
    (hhusks : h.husks = g.husks) (hspill : h.spill = g.spill)
    (hbudget : h.coldContentBudget = g.coldContentBudget) : Stays g h where
  nodes := fun _ node hnode ↦ ⟨node, hnodes ▸ hnode, _, _, _, rfl⟩
  mem := fun _ ↦ by rw [hnodes]
  cold := hcold
  husks := hhusks
  spill := hspill
  coldContentBudget := hbudget

theorem Stays.of_rewired {g h : MemoryGraph} (hrewired : Rewired g h) : Stays g h := by
  obtain ⟨edges, edgeSet, rfl⟩ := hrewired
  exact .of_nodes rfl rfl rfl rfl rfl

/-- Before any entry is moved, the other operations leave the tiers alone. -/
theorem stays_started {op : Op} (g : MemoryGraph) (hop : ¬ op.Resets) :
    Stays g (started codec judge op g) := by
  cases op with
  | upsertNode | removeNode | attachColdSpill | setColdContentBudget => exact absurd trivial hop
  | tick =>
    refine ⟨?_, fun _ ↦ Std.ExtTreeMap.mem_map, rfl, rfl, rfl, rfl⟩
    intro id node hnode
    have hmap : (g.nodes.map fun _ node ↦ { node with recency := node.recency.decay })[id]? =
        some node := hnode
    rw [Std.ExtTreeMap.getElem?_map] at hmap
    obtain ⟨old, hold, rfl⟩ := Option.map_eq_some_iff.mp hmap
    exact ⟨old, hold, _, _, _, rfl⟩
  | touch id =>
    unfold started apply touch
    simp only []
    split
    · rename_i old hold
      have hid := SortedMap.mem_of_getElem?_eq_some hold
      refine ⟨?_, SortedMap.mem_insert_of_mem hid _, rfl, rfl, rfl, rfl⟩
      intro other node hnode
      by_cases hsame : id = other
      · subst hsame
        rw [Std.ExtTreeMap.getElem?_insert_self] at hnode
        cases hnode
        exact ⟨old, hold, _, _, _, rfl⟩
      · rw [SortedMap.getElem?_insert_ne _ hsame] at hnode
        exact ⟨node, hnode, _, _, _, rfl⟩
    · exact .of_nodes rfl rfl rfl rfl rfl
  | addEdge source target weight edgeType => exact .of_rewired (rewired_addEdge g _ _ _ _)
  | resolveAll => exact .of_rewired (rewired_resolveAll g)
  | _ => exact .of_nodes rfl rfl rfl rfl rfl

/-! ## Loops and operations -/

/-- A loop keeps what each of its candidates keeps under good events. -/
theorem budgetLoop_keeps_of_good {good : Event → Prop} {P : MemoryGraph → Prop}
    {step : MemoryGraph × ℕ → Str → MemoryGraph × ℕ} {events : MemoryGraph → Str → List Event}
    {budget : ℕ}
    (hstep : ∀ g total id, P g → (∀ event ∈ events g id, good event) → P (step (g, total) id).1)
    (ids : List Str) (state : MemoryGraph × ℕ) (hstate : P state.1)
    (hgood : ∀ event ∈ budgetEvents step events budget ids state, good event) :
    P (budgetLoop step budget ids state).1 := by
  induction ids generalizing state with
  | nil => exact hstate
  | cons id ids ih =>
    unfold budgetLoop
    unfold budgetEvents at hgood
    split
    · exact hstate
    · rename_i hbudget
      rw [if_neg hbudget, forall_mem_append] at hgood
      exact ih (step state id) (hstep state.1 state.2 id hstate hgood.1) hgood.2

/-- The entry that a page-in returns has its content inline. -/
theorem spill_eq_none_of_faultContent {g h : MemoryGraph} {id : Str} {entry : ColdNode}
    (hfault : faultContent codec g id = some h) (hentry : h.cold[id]? = some entry) :
    entry.spill = none := by
  unfold faultContent at hfault
  split at hfault
  · rename_i hnone
    cases hfault
    rw [hnone] at hentry
    cases hentry
  · rename_i old hold
    split at hfault
    · rename_i hspill
      cases hfault
      rw [hold] at hentry
      cases hentry
      exact hspill
    · split at hfault
      · cases hfault
      · cases hfault
        rw [cold_releaseContentBlobIfOrphan, Std.ExtTreeMap.getElem?_insert_self] at hentry
        cases hentry
        rfl

namespace Settles

variable {good : Event → Prop} {P : MemoryGraph → Prop} {g : MemoryGraph}

theorem enforceColdContentBudget (hsettles : Settles codec good P) (hg : P g)
    (hgood : ∀ event ∈ contentBudgetEvents codec judge g, good event) :
    P (enforceColdContentBudget codec judge g) := by
  unfold MemoryGraph.enforceColdContentBudget
  unfold contentBudgetEvents at hgood
  split
  · exact hg
  · rename_i budget hbudget
    simp only [hbudget] at hgood
    refine (@budgetLoop_keeps_of_good good (fun h ↦ P h ∧ h.coldContentBudget = some budget)
      _ _ _ ?_ _ _ ⟨hg, hbudget⟩ hgood).1
    intro h total id hh hevents
    refine ⟨hsettles.compact h total id hh.1 (by rw [hh.2]; rfl) hevents, ?_⟩
    rw [coldContentBudget_eq_of_hot (hot_compactEntry (h, total) id), hh.2]

theorem enforceColdBudget (hsettles : Settles codec good P) (hg : P g) :
    P (enforceColdBudget codec judge g) := by
  unfold MemoryGraph.enforceColdBudget
  split
  · exact hg
  · apply budgetLoop_keeps _ _ _ hg
    intro state id hstate
    exact hsettles.spill state.1 state.2 id hstate

theorem enforceColdResidentBudget (hsettles : Settles codec good P) (hg : P g)
    (hgood : ∀ event ∈ residentBudgetEvents codec judge g, good event) :
    P (enforceColdResidentBudget codec judge g) := by
  unfold MemoryGraph.enforceColdResidentBudget
  unfold residentBudgetEvents at hgood
  split
  · exact hg
  · rename_i budget hbudget
    simp only [hbudget] at hgood
    split
    · exact hg
    · rename_i hspill
      rw [if_neg hspill] at hgood
      exact budgetLoop_keeps_of_good (hsettles.deepSpill judge) _ _ hg hgood

theorem enforceBudgets (hsettles : Settles codec good P) (hg : P g)
    (hgood : ∀ event ∈ budgetsEvents codec judge g, good event) :
    P (enforceBudgets codec judge g) := by
  unfold budgetsEvents at hgood
  rw [forall_mem_append] at hgood
  have hcontent := hsettles.enforceColdContentBudget hg hgood.1
  exact hsettles.enforceColdResidentBudget (hsettles.enforceColdBudget hcontent) hgood.2

end Settles

/-- A property of the tiers has two moves of the budget passes to keep up with. -/
theorem Settles.of_shapes {good : Event → Prop} {P : MemoryGraph → Prop}
    (hrewrites : ∀ {g h id entry other}, P g → Rewrites g h id entry other → P h)
    (htoHusk : ∀ {g h id entry inline husk}, P g → good (.archive inline) →
      ToHusk codec g h id entry inline husk → P h) : Settles codec good P where
  compact := by
    intro g total id hg _ _
    rcases compactEntry_cases codec g total id with hsame | ⟨_, _, hmove⟩
    · rwa [hsame]
    · exact hrewrites hg hmove
  spill := by
    intro g total id hg
    rcases spillEntry_cases codec g total id with hsame | ⟨_, _, hmove⟩
    · rwa [hsame]
    · exact hrewrites hg hmove
  deepSpill := by
    intro judge g total id hg hgood
    rcases deepSpillEntry_cases codec judge g total id with hsame | ⟨_, _, _, hevent, hmove⟩
    · rwa [hsame]
    · exact htoHusk hg (hgood _ hevent) hmove

namespace Stable

variable {good : Event → Prop} {P : MemoryGraph → Prop} {g : MemoryGraph}

theorem of_shapes (hdemote : ∀ g id, P g → P (MemoryGraph.demote g id))
    (hprune : ∀ g, P g → P (pruneDanglingEdges g))
    (hrewrites : ∀ {g h id entry other}, P g → Rewrites g h id entry other → P h)
    (htoHusk : ∀ {g h id entry inline husk}, P g → good (.archive inline) →
      ToHusk codec g h id entry inline husk → P h)
    (htoEntry : ∀ {g h id husk entry}, P g → ToEntry codec g h id husk entry → P h)
    (hrestore : ∀ {g id entry}, P g → g.cold[id]? = some entry →
      P (MemoryGraph.restore g id entry)) :
    Stable codec good P :=
  { Settles.of_shapes hrewrites htoHusk with
    demote := hdemote
    prune := hprune
    faultHusk := by
      intro g h id hg hfault
      rcases faultHusk_cases hfault with rfl | ⟨_, _, hmove⟩
      · exact hg
      · exact htoEntry hg hmove
    faultContent := by
      intro g h id hg _ hfault
      rcases faultContent_cases hfault with rfl | ⟨_, _, hmove⟩
      · exact hg
      · exact hrewrites hg hmove
    restore := fun _ _ _ hg hentry _ ↦ hrestore hg hentry }

/-- A property that does not read the COLD tier has three moves to keep up with. -/
theorem of_hot (hhot : ∀ g h, P g → h.hot = g.hot → P h)
    (hdemote : ∀ g id, P g → P (MemoryGraph.demote g id))
    (hprune : ∀ g, P g → P (pruneDanglingEdges g))
    (hrestore : ∀ g id entry, P g → P (MemoryGraph.restore g id entry)) : Stable codec good P where
  demote := hdemote
  prune := hprune
  compact := fun g total id hg _ _ ↦ hhot g _ hg (hot_compactEntry (g, total) id)
  spill := fun g total id hg ↦ hhot g _ hg (hot_spillEntry (g, total) id)
  deepSpill := fun _ g total id hg _ ↦ hhot g _ hg (hot_deepSpillEntry (g, total) id)
  faultHusk := fun g h _ hg hfault ↦ hhot g h hg (hot_of_faultHusk hfault)
  faultContent := fun g h _ hg _ hfault ↦ hhot g h hg (hot_of_faultContent hfault)
  restore := fun g id entry hg _ _ ↦ hrestore g id entry hg

theorem foldl_demote (hstable : Stable codec good P) (ids : List Str) (hg : P g) :
    P (ids.foldl MemoryGraph.demote g) := by
  induction ids generalizing g with
  | nil => exact hg
  | cons id ids ih => exact ih (hstable.demote g id hg)

theorem swapOut (hstable : Stable codec good P) (id : Str) (fuel : ℕ) (hg : P g) :
    P (swapOut judge id fuel g) := by
  induction fuel generalizing g with
  | zero => exact hg
  | succ fuel ih =>
    unfold MemoryGraph.swapOut
    split
    · exact hg
    · split
      · exact ih (hstable.demote g _ hg)
      · exact hg

theorem settles (hstable : Stable codec good P) : Settles codec good P where
  compact := hstable.compact
  spill := hstable.spill
  deepSpill := hstable.deepSpill

theorem enforcePaging (hstable : Stable codec good P) (hg : P g)
    (hgood : ∀ event ∈ pagingEvents codec judge g, good event) :
    P (enforcePaging codec judge g) := by
  unfold MemoryGraph.enforcePaging
  unfold pagingEvents at hgood
  split
  · exact hg
  · rename_i hsize
    rw [if_neg hsize] at hgood
    exact hstable.settles.enforceBudgets (hstable.prune _ (hstable.foldl_demote _ hg)) hgood

theorem pageIn (hstable : Stable codec good P) (id : Str) (hg : P g)
    (hgood : ∀ event ∈ pageInEvents codec judge g id, good event) :
    P (pageIn codec judge g id).1 := by
  unfold MemoryGraph.pageIn
  unfold pageInEvents at hgood
  split
  · exact hg
  · rename_i faulted hhusk
    simp only [hhusk] at hgood
    rw [forall_mem_append] at hgood
    have hfaulted := hstable.faultHusk g faulted id hg hhusk
    split
    · exact hfaulted
    · rename_i inline hcontent
      have hinline := hstable.faultContent faulted inline id hfaulted hgood.1 hcontent
      have hrest := hgood.2
      simp only [hcontent] at hrest
      split
      · exact hinline
      · rename_i entry hentry
        simp only [hentry] at hrest
        have hspill := spill_eq_none_of_faultContent hcontent hentry
        have hrestored := hstable.restore inline id entry hinline hentry hspill
        exact hstable.settles.enforceBudgets
          (hstable.prune _ (hstable.swapOut id _ hrestored)) hrest

/-- An operation keeps what the moves keep and what holds when it starts to move entries. -/
theorem apply (hstable : Stable codec good P) {op : Op} (hstart : P (started codec judge op g))
    (hgood : ∀ event ∈ events codec judge op g, good event) : P (apply codec judge op g) := by
  cases op with
  | upsertNode id label content nodeType =>
    exact hstable.enforcePaging hstart (List.forall_mem_append.mp hgood).2
  | enforcePaging => exact hstable.enforcePaging hstart hgood
  | pageIn id => exact hstable.pageIn id hstart hgood
  | attachColdSpill inlineBudget =>
    exact hstable.settles.enforceColdResidentBudget (hstable.settles.enforceColdBudget hstart) hgood
  | setColdContentBudget budget => exact hstable.settles.enforceColdContentBudget hstart hgood
  | setColdResidentBudget budget => exact hstable.settles.enforceColdResidentBudget hstart hgood
  | _ => exact hstart

end Stable

end MemoryGraph

end SoulSystem.Ccos.Memory
