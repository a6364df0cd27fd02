import SoulSystem.Ccos.LzssRoundTrip
import SoulSystem.Ccos.Memory.StoreExact

/-!
# Nothing is lost between the tiers

What the last upsert of an id said is found again wherever the id is: in the resident node, in the
full COLD entry or under the hash of its stub, and in the body of its husk.  As long as the content
of the COLD tier has no budget and every archived entry can be read back, all moves keep this, and a
page-in of an id that is not resident succeeds and shows the last upsert byte for byte.
-/

namespace SoulSystem.Ccos.Memory

open Library SortedMap Std.ExtTreeMap SoulSystem.Ccos.Memory.ColdNode

/-! ## What is said about an id -/

/-- What a node shows of its last upsert. -/
def GraphNode.told (node : GraphNode) : Upsert :=
  ⟨node.label, node.content, node.nodeType⟩

/-- Every float of an entry has a JSON form. -/
structure ColdNode.IsFinite (entry : ColdNode) : Prop where
  baseImportance : entry.node.baseImportance.IsFinite
  failureRelevance : entry.node.failureRelevance.IsFinite
  recency : entry.node.recency.IsFinite
  trust : entry.node.trust.IsFinite
  weights : ∀ edge ∈ entry.edges, edge.weight.IsFinite

/-- What a full COLD entry says, its content inline or under the hash of its stub. -/
structure ColdNode.Tells (codec : Codec) (entry : ColdNode) (up : Upsert) : Prop where
  label : entry.node.label = up.label
  nodeType : entry.node.nodeType = up.nodeType
  content : match entry.spill with
    | none => entry.node.content = up.content
    | some ref => ref.hash = codec.sha256 up.content

/-- The body of a husk is the text of an entry that says the same. -/
def DeepHusk.Tells (codec : Codec) (husk : DeepHusk) (up : Upsert) : Prop :=
  ∃ entry : ColdNode, entry.IsFinite ∧ entry.spill = none ∧
    codec.sha256 (codec.toJson entry) = husk.body.hash ∧ entry.node.told = up

/-- A serialised entry without stub and without a float outside JSON comes back with its label,
content and type. -/
structure Codec.Faithful (codec : Codec) : Prop extends codec.Separates where
  reads : ∀ entry : ColdNode, entry.spill = none → entry.IsFinite →
    ∃ parsed, codec.fromJson (codec.toJson entry) = some parsed ∧
      parsed.node.told = entry.node.told

/-- An archived entry has a JSON form that can be read back. -/
def Event.ArchivesFinite : Event → Prop
  | .release _ _ => True
  | .archive entry => entry.IsFinite

/-- The content of the COLD tier gets no budget. -/
def Op.KeepsContent : Op → Prop
  | .setColdContentBudget budget => budget = none
  | _ => True

theorem ColdNode.tells_of_inline {codec : Codec} {entry : ColdNode} {up : Upsert}
    (hspill : entry.spill = none) : entry.Tells codec up ↔ entry.node.told = up := by
  constructor
  · intro htells
    have hcontent := htells.content
    rw [hspill] at hcontent
    rw [GraphNode.told, htells.label, htells.nodeType]
    simp only [] at hcontent
    rw [hcontent]
  · rintro rfl
    refine ⟨rfl, rfl, ?_⟩
    rw [hspill]
    rfl

namespace MemoryGraph

variable {codec : Codec} {judge : Judge}

/-! ## Texts in the store -/

theorem unpackText_packText (text : Str) : unpackText (packText text) = some text := by
  obtain ⟨blob, hpack, hunpack, _⟩ := Lzss.compress_spec (Str.utf8 text)
  unfold packText unpackText
  rw [hpack]
  simp only []
  rw [hunpack]
  exact Str.fromUtf8_utf8 text

/-- Every blob holds a text with its hash. -/
def TextsRead (codec : Codec) (g : MemoryGraph) : Prop :=
  ∀ (hash : Str) (bytes : Bytes), g.blobs[hash]? = some bytes →
    ∃ text, unpackText bytes = some text ∧ codec.sha256 text = hash

theorem textsRead_spillPut {g : MemoryGraph} {store : ColdSpill} {content : Str}
    (htexts : TextsRead codec g) (hspill : g.spill = some store) (hash : Str) (bytes : Bytes)
    (hbytes : (spillPut codec store content).1.files[hash]? = some bytes) :
    ∃ text, unpackText bytes = some text ∧ codec.sha256 text = hash := by
  have hblobs : g.blobs = store.files := by
    rw [blobs, hspill]
    rfl
  unfold spillPut at hbytes
  simp only [] at hbytes
  split at hbytes
  · exact htexts hash bytes (by rwa [hblobs])
  · by_cases hnew : codec.sha256 content = hash
    · rw [hnew, getElem?_insert_self] at hbytes
      cases hbytes
      exact ⟨content, unpackText_packText content, hnew⟩
    · rw [getElem?_insert_ne _ hnew] at hbytes
      exact htexts hash bytes (by rwa [hblobs])

/-- The text under a stored hash is found. -/
theorem fetch_of_mem_blobs {g : MemoryGraph} {text : Str} (hinjective : codec.sha256.Injective)
    (htexts : TextsRead codec g) (hmem : codec.sha256 text ∈ g.blobs) :
    fetch codec g (codec.sha256 text) = some text := by
  obtain ⟨bytes, hbytes⟩ := exists_getElem?_of_mem hmem
  obtain ⟨found, hunpack, hhash⟩ := htexts _ bytes hbytes
  have hfound : found = text := hinjective hhash
  subst hfound
  unfold blobs at hbytes
  unfold fetch
  cases hspill : g.spill with
  | none => simp [hspill] at hbytes
  | some store =>
    rw [hspill] at hbytes
    simp only [Option.map_some, Option.getD_some] at hbytes
    rw [Option.bind_some, spillGet]
    simp [hbytes, hunpack]

theorem getElem?_blobs_dropBlob {g : MemoryGraph} {hash other : Str} {bytes : Bytes}
    (hbytes : (dropBlob g hash).blobs[other]? = some bytes) : g.blobs[other]? = some bytes := by
  unfold dropBlob blobs at hbytes
  unfold blobs
  cases hspill : g.spill with
  | none => simp [hspill] at hbytes
  | some store =>
    rw [hspill] at hbytes
    exact getElem?_of_getElem?_erase hbytes

theorem getElem?_blobs_releaseContentBlobIfOrphan {g : MemoryGraph} {hash other : Str}
    {bytes : Bytes} (hbytes : (releaseContentBlobIfOrphan g hash).blobs[other]? = some bytes) :
    g.blobs[other]? = some bytes := by
  unfold releaseContentBlobIfOrphan at hbytes
  split at hbytes
  · exact hbytes
  · exact getElem?_blobs_dropBlob hbytes

theorem getElem?_blobs_releaseBlobIfOrphan {g : MemoryGraph} {hash other : Str} {bytes : Bytes}
    (hbytes : (releaseBlobIfOrphan g hash).blobs[other]? = some bytes) :
    g.blobs[other]? = some bytes := by
  unfold releaseBlobIfOrphan at hbytes
  split at hbytes
  · exact hbytes
  · exact getElem?_blobs_dropBlob hbytes

theorem getElem?_blobs_releaseSpill {g : MemoryGraph} {spill : Option SpillRef} {other : Str}
    {bytes : Bytes} (hbytes : (releaseSpill g spill).blobs[other]? = some bytes) :
    g.blobs[other]? = some bytes := by
  cases spill with
  | none => exact hbytes
  | some ref => exact getElem?_blobs_releaseContentBlobIfOrphan hbytes

theorem getElem?_blobs_forgetColdShadow {g : MemoryGraph} {id other : Str}
    {bytes : Bytes} (hbytes : (forgetColdShadow g id).blobs[other]? = some bytes) :
    g.blobs[other]? = some bytes := by
  have hfull : (forgetFull g id).blobs[other]? = some bytes := by
    unfold forgetColdShadow forgetHusk at hbytes
    split at hbytes
    · have hkept := getElem?_blobs_releaseBlobIfOrphan hbytes
      exact hkept
    · exact hbytes
  unfold forgetFull at hfull
  split at hfull
  · have hkept := getElem?_blobs_releaseSpill hfull
    exact hkept
  · exact hfull

/-- An entry folded inline says what the entry said. -/
theorem told_of_foldInline {g : MemoryGraph} {entry inline : ColdNode} {up : Upsert}
    (hinjective : codec.sha256.Injective) (htells : entry.Tells codec up)
    (hfold : foldInline codec g entry = some inline) : inline.node.told = up := by
  unfold foldInline at hfold
  split at hfold
  · rename_i ref hspill
    rw [Option.map_eq_some_iff] at hfold
    obtain ⟨text, hfetch, heq⟩ := hfold
    cases heq
    have hcontent := htells.content
    rw [hspill] at hcontent
    have htext : text = up.content := hinjective ((sha256_of_fetch hfetch).trans hcontent)
    rw [GraphNode.told, htells.label, htells.nodeType, htext]
  · rename_i hspill
    cases hfold
    exact (tells_of_inline hspill).mp htells

/-! ## The invariant -/

/-- All three tiers say what the last upserts said. -/
structure Kept (codec : Codec) (known : Std.ExtTreeMap Str Upsert) (g : MemoryGraph) : Prop where
  nodes : Agrees (fun node up ↦ node.told = up) g.nodes known
  cold : Agrees (ColdNode.Tells codec) g.cold known
  husks : Agrees (DeepHusk.Tells codec) g.husks known
  texts : TextsRead codec g
  unbudgeted : g.coldContentBudget = none

namespace Kept

variable {known : Std.ExtTreeMap Str Upsert} {g h : MemoryGraph} {id : Str}

/-- A release loses texts at most. -/
theorem of_release (hkept : Kept codec known g) (hhot : h.hot = g.hot) (hcold : h.cold = g.cold)
    (hhusks : h.husks = g.husks)
    (hblobs : ∀ (hash : Str) (bytes : Bytes), h.blobs[hash]? = some bytes →
      g.blobs[hash]? = some bytes) : Kept codec known h where
  nodes := by
    rw [nodes_eq_of_hot hhot]
    exact hkept.nodes
  cold := by
    rw [hcold]
    exact hkept.cold
  husks := by
    rw [hhusks]
    exact hkept.husks
  texts := fun hash bytes hbytes ↦ hkept.texts hash bytes (hblobs hash bytes hbytes)
  unbudgeted := by
    rw [coldContentBudget_eq_of_hot hhot]
    exact hkept.unbudgeted

theorem releaseSpill (hkept : Kept codec known g) (spill : Option SpillRef) :
    Kept codec known (releaseSpill g spill) :=
  hkept.of_release (hot_releaseSpill g spill) (cold_releaseSpill g spill)
    (husks_releaseSpill g spill) fun _ _ ↦ getElem?_blobs_releaseSpill

theorem releaseContentBlobIfOrphan (hkept : Kept codec known g) (hash : Str) :
    Kept codec known (releaseContentBlobIfOrphan g hash) :=
  hkept.releaseSpill (some ⟨hash, 0⟩)

theorem releaseBlobIfOrphan (hkept : Kept codec known g) (hash : Str) :
    Kept codec known (releaseBlobIfOrphan g hash) :=
  hkept.of_release (hot_releaseBlobIfOrphan g hash) (cold_releaseBlobIfOrphan g hash)
    (husks_releaseBlobIfOrphan g hash) fun _ _ ↦ getElem?_blobs_releaseBlobIfOrphan

theorem demote (hkept : Kept codec known g) : Kept codec known (g.demote id) := by
  unfold MemoryGraph.demote
  split
  · exact hkept
  · rename_i node hnode
    obtain ⟨up, hup, htold⟩ := hkept.nodes id node hnode
    refine ⟨hkept.nodes.erase, ?_, hkept.husks, hkept.texts, hkept.unbudgeted⟩
    exact hkept.cold.erase.insert hup ((tells_of_inline rfl).mpr htold)

theorem spill {total : ℕ} (hkept : Kept codec known g) :
    Kept codec known (spillEntry codec (g, total) id).1 := by
  unfold spillEntry
  split
  · rename_i entry store hentry hspill
    split
    · exact hkept
    · rename_i hinline
      simp only [Bool.not_eq_true, Option.isSome_eq_false_iff, Option.isNone_iff_eq_none] at hinline
      obtain ⟨up, hup, htells⟩ := hkept.cold id entry hentry
      have htold : entry.node.told = up := (tells_of_inline hinline).mp htells
      refine ⟨hkept.nodes, ?_, hkept.husks, ?_, hkept.unbudgeted⟩
      · refine hkept.cold.erase.insert hup ⟨htells.label, htells.nodeType, ?_⟩
        rw [← htold]
        exact spillPut_snd store entry.node.content
      · exact textsRead_spillPut hkept.texts hspill
  · exact hkept

theorem deepSpill {total : ℕ} (hinjective : codec.sha256.Injective) (hkept : Kept codec known g)
    (hgood : ∀ event ∈ deepSpillEvents codec judge g id, event.ArchivesFinite) :
    Kept codec known (deepSpillEntry codec judge (g, total) id).1 := by
  unfold deepSpillEvents at hgood
  unfold deepSpillEntry
  split
  · exact hkept
  · rename_i store entry inline hsource
    simp only [hsource, List.forall_mem_cons] at hgood
    obtain ⟨hentry, hspill, hfold⟩ := of_deepSpillSource hsource
    obtain ⟨up, hup, htells⟩ := hkept.cold id entry hentry
    apply releaseSpill
    refine ⟨hkept.nodes, hkept.cold.erase, ?_, ?_, hkept.unbudgeted⟩
    · refine hkept.husks.erase.insert hup ⟨inline, hgood.1, spill_of_foldInline hfold, ?_, ?_⟩
      · exact (spillPut_snd store (codec.toJson inline)).symm
      · exact told_of_foldInline hinjective htells hfold
    · exact textsRead_spillPut hkept.texts hspill

/-- The body of a husk is parsed to an entry that says what the husk said. -/
theorem tells_of_fetch {husk : DeepHusk} {up : Upsert} {parsed : ColdNode}
    (hcodec : codec.Faithful) (htells : husk.Tells codec up)
    (hparse : (fetch codec g husk.body.hash).bind codec.fromJson = some parsed) :
    parsed.Tells codec up := by
  obtain ⟨entry, hfinite, hspill, hhash, htold⟩ := htells
  rw [Option.bind_eq_some_iff] at hparse
  obtain ⟨text, hfetch, hjson⟩ := hparse
  have htext : text = codec.toJson entry :=
    hcodec.injective ((sha256_of_fetch hfetch).trans hhash.symm)
  rw [htext] at hjson
  obtain ⟨found, hfound, hsame⟩ := hcodec.reads entry hspill hfinite
  have hparsed : found = parsed := Option.some.inj (hfound.symm.trans hjson)
  rw [hparsed] at hsame
  rw [tells_of_inline (hcodec.inline entry parsed hspill hjson), hsame, htold]

theorem faultHusk (hcodec : codec.Faithful) (hkept : Kept codec known g)
    (hfault : faultHusk codec g id = some h) : Kept codec known h := by
  unfold MemoryGraph.faultHusk at hfault
  split at hfault
  · cases hfault
    exact hkept
  · rename_i husk hhusk
    split at hfault
    · cases hfault
    · rename_i parsed hparse
      cases hfault
      obtain ⟨up, hup, htells⟩ := hkept.husks id husk hhusk
      apply releaseBlobIfOrphan
      refine ⟨hkept.nodes, ?_, hkept.husks.erase, hkept.texts, hkept.unbudgeted⟩
      exact hkept.cold.erase.insert hup (tells_of_fetch hcodec htells hparse)

theorem faultContent (hinjective : codec.sha256.Injective) (hkept : Kept codec known g)
    (hfault : faultContent codec g id = some h) : Kept codec known h := by
  unfold MemoryGraph.faultContent at hfault
  split at hfault
  · cases hfault
    exact hkept
  · rename_i entry hentry
    split at hfault
    · cases hfault
      exact hkept
    · rename_i ref hspill
      split at hfault
      · cases hfault
      · rename_i text hfetch
        cases hfault
        obtain ⟨up, hup, htells⟩ := hkept.cold id entry hentry
        have hfold : foldInline codec g entry = some
            { entry with node := { entry.node with content := text }, spill := none } := by
          simp [foldInline, hspill, hfetch]
        apply releaseContentBlobIfOrphan
        refine ⟨hkept.nodes, ?_, hkept.husks, hkept.texts, hkept.unbudgeted⟩
        refine hkept.cold.erase.insert hup ((tells_of_inline rfl).mpr ?_)
        exact told_of_foldInline hinjective htells hfold

theorem restore {entry : ColdNode} (hkept : Kept codec known g)
    (hentry : g.cold[id]? = some entry) (hspill : entry.spill = none) :
    Kept codec known (g.restore id entry) := by
  obtain ⟨linked, hrestore⟩ := restore_fields g id entry
  rw [hrestore]
  obtain ⟨up, hup, htells⟩ := hkept.cold id entry hentry
  refine ⟨?_, hkept.cold.erase, hkept.husks, hkept.texts, hkept.unbudgeted⟩
  exact hkept.nodes.erase.insert hup ((tells_of_inline hspill).mp htells)

theorem stable (hcodec : codec.Faithful) (known : Std.ExtTreeMap Str Upsert) :
    Stable codec Event.ArchivesFinite (Kept codec known) where
  demote := fun _ _ hkept ↦ hkept.demote
  prune := fun _ hkept ↦
    ⟨hkept.nodes, hkept.cold, hkept.husks, hkept.texts, hkept.unbudgeted⟩
  compact := by
    intro g total id hkept hbudget _
    rw [hkept.unbudgeted] at hbudget
    cases hbudget
  spill := fun _ _ _ hkept ↦ hkept.spill
  deepSpill := fun _ _ _ _ hkept hgood ↦ hkept.deepSpill hcodec.injective hgood
  faultHusk := fun _ _ _ hkept hfault ↦ hkept.faultHusk hcodec hfault
  faultContent := fun _ _ _ hkept _ hfault ↦ hkept.faultContent hcodec.injective hfault
  restore := fun _ _ _ hkept hentry hspill ↦ hkept.restore hentry hspill

/-- The invariant reads the nodes, the COLD tier and its content budget. -/
theorem congr (hkept : Kept codec known g)
    (hnodes : Agrees (fun node up ↦ node.told = up) h.nodes known) (hcold : h.cold = g.cold)
    (hhusks : h.husks = g.husks) (hspill : h.spill = g.spill)
    (hbudget : h.coldContentBudget = g.coldContentBudget) : Kept codec known h where
  nodes := hnodes
  cold := by
    rw [hcold]
    exact hkept.cold
  husks := by
    rw [hhusks]
    exact hkept.husks
  texts := by
    unfold TextsRead blobs
    rw [hspill]
    exact hkept.texts
  unbudgeted := by
    rw [hbudget]
    exact hkept.unbudgeted

/-- Without its shadow in the COLD tier, an id may be said to be anything or nothing. -/
theorem forgetColdShadow {others : Std.ExtTreeMap Str Upsert} (hkept : Kept codec known g)
    (hothers : ∀ other ≠ id, others[other]? = known[other]?)
    (hnodes : Agrees (fun node up ↦ node.told = up) h.nodes others)
    (hcold : h.cold = (forgetColdShadow g id).cold)
    (hhusks : h.husks = (forgetColdShadow g id).husks)
    (hspill : h.spill = (forgetColdShadow g id).spill)
    (hbudget : h.coldContentBudget = (MemoryGraph.forgetColdShadow g id).coldContentBudget) :
    Kept codec others h where
  nodes := hnodes
  cold := by
    rw [hcold, cold_forgetColdShadow]
    exact hkept.cold.erase_of_getElem? hothers
  husks := by
    rw [hhusks, husks_forgetColdShadow]
    exact hkept.husks.erase_of_getElem? hothers
  texts := by
    intro hash bytes hbytes
    unfold blobs at hbytes
    rw [hspill] at hbytes
    exact hkept.texts hash bytes (getElem?_blobs_forgetColdShadow hbytes)
  unbudgeted := by
    rw [hbudget, coldContentBudget_eq_of_hot (hot_forgetColdShadow g id)]
    exact hkept.unbudgeted

theorem withUpserted (hkept : Kept codec known g) (id label content : Str) (nodeType : NodeType) :
    Kept codec (latest known (.upsertNode id label content nodeType))
      (withUpserted g id label content nodeType) := by
  have hothers : ∀ other ≠ id,
      (latest known (.upsertNode id label content nodeType))[other]? = known[other]? := by
    intro other hother
    rw [latest, getElem?_insert_ne _ (Ne.symm hother)]
  have hself : (latest known (.upsertNode id label content nodeType))[id]? =
      some ⟨label, content, nodeType⟩ := by
    rw [latest, getElem?_insert_self]
  refine hkept.forgetColdShadow (h := MemoryGraph.withUpserted g id label content nodeType)
    hothers ?_ rfl rfl rfl rfl
  rw [MemoryGraph.withUpserted]
  simp only [nodes_forgetColdShadow]
  refine (hkept.nodes.erase_of_getElem? hothers).insert hself ?_
  unfold upserted
  split <;> rfl

theorem removeNode (hkept : Kept codec known g) (id : Str) :
    Kept codec (latest known (.removeNode id)) (g.removeNode id) := by
  have hothers : ∀ other ≠ id, (latest known (.removeNode id))[other]? = known[other]? := by
    intro other hother
    rw [latest, getElem?_erase_ne (Ne.symm hother)]
  have herased : Kept codec known { g with nodes := g.nodes.erase id } :=
    hkept.congr hkept.nodes.erase rfl rfl rfl rfl
  refine herased.forgetColdShadow hothers ?_ rfl rfl rfl rfl
  rw [MemoryGraph.removeNode, nodes_forgetColdShadow]
  exact hkept.nodes.erase_of_getElem? hothers

theorem new (maxInMemoryNodes : ℕ) : Kept codec ∅ (MemoryGraph.new maxInMemoryNodes) where
  nodes := Agrees.empty
  cold := Agrees.empty
  husks := Agrees.empty
  texts := by
    intro hash bytes hbytes
    simp [blobs, MemoryGraph.new] at hbytes
  unbudgeted := rfl

theorem apply {op : Op} (hcodec : codec.Faithful) (hkept : Kept codec known g)
    (hcontent : op.KeepsContent)
    (hgood : ∀ event ∈ events codec judge op g, event.ArchivesFinite) :
    Kept codec (latest known op) (apply codec judge op g) := by
  refine (stable hcodec _).apply ?_ hgood
  have hstays := @stays_started codec judge op g
  cases op with
  | upsertNode id label content nodeType => exact hkept.withUpserted id label content nodeType
  | removeNode id => exact hkept.removeNode id
  | attachColdSpill inlineBudget =>
    refine ⟨hkept.nodes, hkept.cold, Agrees.empty, ?_, hkept.unbudgeted⟩
    intro hash bytes hbytes
    simp [blobs, started, withStore] at hbytes
  | setColdContentBudget budget =>
    exact ⟨hkept.nodes, hkept.cold, hkept.husks, hkept.texts, hcontent⟩
  | _ =>
    have hstays := hstays id
    refine hkept.congr ?_ hstays.cold hstays.husks hstays.spill hstays.coldContentBudget
    intro id node hnode
    obtain ⟨old, hold, _, _, _, rfl⟩ := hstays.nodes id node hnode
    exact hkept.nodes id old hold

theorem run {steps : List Step} (hcodec : codec.Faithful) (hkept : Kept codec known g)
    (hcontent : ∀ step ∈ steps, step.2.KeepsContent)
    (hgood : ∀ event ∈ runEvents codec g steps, event.ArchivesFinite) :
    Kept codec (knownAfter known steps) (run codec g steps) := by
  induction steps generalizing g known with
  | nil => exact hkept
  | cons step steps ih =>
    rw [List.forall_mem_cons] at hcontent
    rw [runEvents, List.forall_mem_append] at hgood
    exact ih (hkept.apply hcodec hcontent.1 hgood.1) hcontent.2 hgood.2

/-! ## Page-in succeeds -/

/-- A husk can be faulted back, since its body is stored. -/
theorem exists_faultHusk (hcodec : codec.Faithful) (hkept : Kept codec known g)
    (hexact : StoreExact codec g) (hid : id ∈ g.cold ∨ id ∈ g.husks) :
    ∃ faulted, MemoryGraph.faultHusk codec g id = some faulted ∧ id ∈ faulted.cold := by
  unfold MemoryGraph.faultHusk
  cases hhusk : g.husks[id]? with
  | none => exact ⟨g, rfl, hid.resolve_right (getElem?_eq_none_iff.mp hhusk)⟩
  | some husk =>
    obtain ⟨up, _, entry, hfinite, hspill, hhash, _⟩ := hkept.husks id husk hhusk
    obtain ⟨parsed, hparsed, _⟩ := hcodec.reads entry hspill hfinite
    have hstored : codec.sha256 (codec.toJson entry) ∈ g.blobs := by
      apply (hexact.blobs _).mpr
      exact .inr ⟨id, husk, hhusk, by rw [DeepHusk.stub, hhash]⟩
    have hfetch := fetch_of_mem_blobs hcodec.injective hkept.texts hstored
    simp only [← hhash, hfetch, Option.bind_some, hparsed]
    refine ⟨_, rfl, ?_⟩
    rw [cold_releaseBlobIfOrphan]
    exact mem_insert_iff.mpr (.inl rfl)

/-- A spilled content can be faulted back, since its blob is stored. -/
theorem exists_faultContent (hinjective : codec.sha256.Injective) (hkept : Kept codec known g)
    (hexact : StoreExact codec g) (hid : id ∈ g.cold) :
    ∃ inline, MemoryGraph.faultContent codec g id = some inline ∧ id ∈ inline.cold := by
  obtain ⟨entry, hentry⟩ := exists_getElem?_of_mem hid
  obtain ⟨up, _, htells⟩ := hkept.cold id entry hentry
  unfold MemoryGraph.faultContent
  simp only [hentry]
  cases hspill : entry.spill with
  | none => exact ⟨g, rfl, hid⟩
  | some ref =>
    have hcontent := htells.content
    rw [hspill] at hcontent
    have hstored : codec.sha256 up.content ∈ g.blobs := by
      apply (hexact.blobs _).mpr
      refine .inl ⟨id, entry, hentry, ?_⟩
      rw [ColdNode.stub, hspill, Option.map_some, hcontent]
    have hfetch := fetch_of_mem_blobs hinjective hkept.texts hstored
    rw [← hcontent] at hfetch
    simp only [hfetch]
    refine ⟨_, rfl, ?_⟩
    rw [cold_releaseContentBlobIfOrphan]
    exact mem_insert_iff.mpr (.inl rfl)

/-- The swap loop never takes the node that was asked for. -/
theorem getElem?_nodes_swapOut (fuel : ℕ) (g : MemoryGraph) :
    (swapOut judge id fuel g).nodes[id]? = g.nodes[id]? := by
  induction fuel generalizing g with
  | zero => rfl
  | succ fuel ih =>
    unfold swapOut
    split
    · rfl
    · split
      · rename_i victim hvictim
        rw [ih, nodes_demote, getElem?_erase_ne (mem_of_swapVictim hvictim).1]
      · rfl

theorem getElem?_nodes_restore (g : MemoryGraph) (entry : ColdNode) :
    (g.restore id entry).nodes[id]? = some (pagedIn entry.node g.clock) := by
  obtain ⟨linked, hrestore⟩ := restore_fields g id entry
  rw [hrestore]
  exact getElem?_insert_self

/-- A page-in of an id that is not resident brings back what its last upsert said. -/
theorem pageIn (hcodec : codec.Faithful) (hkept : Kept codec known g)
    (hexact : StoreExact codec g) (hapart : Apart g) (hid : id ∈ g.cold ∨ id ∈ g.husks) :
    ∃ node, (pageIn codec judge g id).1.nodes[id]? = some node ∧
      known[id]? = some node.told ∧ (pageIn codec judge g id).2 = true := by
  obtain ⟨faulted, hfault, hcold⟩ := hkept.exists_faultHusk hcodec hexact hid
  have hfaulted := hkept.faultHusk hcodec hfault
  obtain ⟨inline, hcontent, hmem⟩ := hfaulted.exists_faultContent hcodec.injective
    (hexact.faultHusk hcodec.toSeparates hapart hfault) hcold
  have hinline := hfaulted.faultContent hcodec.injective hcontent
  obtain ⟨entry, hentry⟩ := exists_getElem?_of_mem hmem
  obtain ⟨up, hup, htells⟩ := hinline.cold id entry hentry
  have hspill := spill_eq_none_of_faultContent hcontent hentry
  have htold : entry.node.told = up := (tells_of_inline hspill).mp htells
  have hresult : MemoryGraph.pageIn codec judge g id =
      (enforceBudgets codec judge (swapped judge inline id entry), true) := by
    simp only [MemoryGraph.pageIn, hfault, hcontent, hentry]
    rfl
  refine ⟨pagedIn entry.node inline.clock, ?_, ?_, ?_⟩
  · rw [hresult, nodes_eq_of_hot (hot_enforceBudgets _)]
    exact (getElem?_nodes_swapOut _ _).trans (getElem?_nodes_restore inline entry)
  · rw [hup, ← htold]
    rfl
  · rw [hresult]

end Kept

/-- **No loss.**  After every run the tiers hold the known ids, each in one tier, no edge dangles,
and upserts and page-ins respect the cap.  If moreover the content of the COLD tier never has a
budget, no husk loses its body and every archived entry has a JSON form, then every page-in of an id
that is not resident brings back what the last upsert of the id said. -/
theorem run_tiers_lossless (codec : Codec) (hcodec : codec.Faithful) (maxInMemoryNodes : ℕ)
    (steps : List Step) (hattached : StaysAttached codec (MemoryGraph.new maxInMemoryNodes) steps) :
    Tiered (fun id ↦ id ∈ known steps) (run codec (MemoryGraph.new maxInMemoryNodes) steps) ∧
      NonDangling (run codec (MemoryGraph.new maxInMemoryNodes) steps) ∧
      (∀ (judge : Judge) (id label content : Str) (nodeType : NodeType),
        (upsertNode codec judge (run codec (MemoryGraph.new maxInMemoryNodes) steps) id label
          content nodeType).nodes.size ≤ maxInMemoryNodes) ∧
      (1 ≤ maxInMemoryNodes → ∀ (judge : Judge) (id : Str),
        (pageIn codec judge (run codec (MemoryGraph.new maxInMemoryNodes) steps) id).1.nodes.size ≤
          maxInMemoryNodes) ∧
      ((∀ step ∈ steps, step.2.KeepsContent) →
        (∀ event ∈ runEvents codec (MemoryGraph.new maxInMemoryNodes) steps,
          event.SparesHusks ∧ event.ArchivesFinite) →
        ∀ (judge : Judge) (id : Str),
          id ∈ (run codec (MemoryGraph.new maxInMemoryNodes) steps).cold ∨
            id ∈ (run codec (MemoryGraph.new maxInMemoryNodes) steps).husks →
          ∃ node,
            (pageIn codec judge (run codec (MemoryGraph.new maxInMemoryNodes) steps)
              id).1.nodes[id]? = some node ∧
            (known steps)[id]? = some node.told ∧
            (pageIn codec judge (run codec (MemoryGraph.new maxInMemoryNodes) steps) id).2 =
              true) := by
  have htier := (TierInvariant.new maxInMemoryNodes).run hattached
  have hcap := maxInMemoryNodes_run codec (MemoryGraph.new maxInMemoryNodes) steps
  refine ⟨htier.tiered, ?_, ?_, ?_, ?_⟩
  · have hempty : NonDangling (MemoryGraph.new maxInMemoryNodes) := by
      intro edge hedge
      cases hedge
    exact hempty.run steps
  · intro judge id label content nodeType
    refine le_trans (size_nodes_enforcePaging _) (le_of_eq ?_)
    rw [maxInMemoryNodes_forgetColdShadow, hcap]
    rfl
  · intro hone judge id
    have hempty : WithinCap (MemoryGraph.new maxInMemoryNodes) := fun _ ↦ Nat.zero_le _
    have hwithin : WithinCap (pageIn codec judge
        (run codec (MemoryGraph.new maxInMemoryNodes) steps) id).1 :=
      (hempty.run steps).pageIn id
    have hsame : (pageIn codec judge (run codec (MemoryGraph.new maxInMemoryNodes) steps)
        id).1.maxInMemoryNodes = maxInMemoryNodes :=
      (maxInMemoryNodes_apply codec judge (.pageIn id) _).trans hcap
    rw [WithinCap, hsame] at hwithin
    exact hwithin hone
  · intro hcontent hgood judge id hid
    have hkept := (Kept.new maxInMemoryNodes).run hcodec hcontent fun event hevent ↦
      (hgood event hevent).2
    have hexact := (StoreExact.new maxInMemoryNodes).run hcodec.toSeparates
      (TierInvariant.new maxInMemoryNodes) hattached fun event hevent ↦ (hgood event hevent).1
    exact hkept.pageIn hcodec hexact htier.tiered.apart hid

/-! ## A husk without its body -/

theorem typeOfMark_typeMark (nodeType : NodeType) : typeOfMark (typeMark nodeType) = some nodeType := by
  cases nodeType <;> decide

theorem told_of_readMarked (entry : ColdNode) :
    ∃ parsed, readMarked (markedText entry) = some parsed ∧ parsed.node.told = entry.node.told := by
  have hsize : ((List.replicate entry.node.label.length '.' ++
      '|' :: (entry.node.label ++ entry.node.content)).takeWhile fun c ↦ c == '.').length =
      entry.node.label.length := by
    rw [List.takeWhile_append_of_pos (by simp)]
    simp
  have hbody : (List.replicate entry.node.label.length '.' ++
      '|' :: (entry.node.label ++ entry.node.content)).drop (entry.node.label.length + 1) =
      entry.node.label ++ entry.node.content := by
    rw [List.drop_append]
    simp
  unfold markedText readMarked
  simp only [typeOfMark_typeMark, hsize, hbody, Option.map_some]
  refine ⟨_, rfl, ?_⟩
  simp [GraphNode.told, freshNode]

theorem sampleCodec_faithful : sampleCodec.Faithful where
  toSeparates := sampleCodec_separates
  reads := by
    intro entry _ _
    change ∃ parsed, readSample (sampleText entry) = some parsed ∧ _
    unfold sampleText readSample
    by_cases hbare : entry = bareEntry
    · rw [if_pos hbare, if_pos rfl, hbare]
      exact ⟨bareEntry, rfl, rfl⟩
    · have hmarked : markedText entry ≠ bareText := by
        intro heq
        have hhead : bareText.head? ≠ some '#' := by decide +kernel
        rw [← heq] at hhead
        exact hhead rfl
      rw [if_neg hbare, if_neg hmarked]
      exact told_of_readMarked entry

instance (entry : ColdNode) : Decidable entry.IsFinite :=
  decidable_of_iff
    (entry.node.baseImportance.IsFinite ∧ entry.node.failureRelevance.IsFinite ∧
      entry.node.recency.IsFinite ∧ entry.node.trust.IsFinite ∧
      ∀ edge ∈ entry.edges, edge.weight.IsFinite)
    ⟨fun h ↦ ⟨h.1, h.2.1, h.2.2.1, h.2.2.2.1, h.2.2.2.2⟩,
      fun h ↦ ⟨h.baseImportance, h.failureRelevance, h.recency, h.trust, h.weights⟩⟩

instance (event : Event) : Decidable event.ArchivesFinite :=
  match event with
  | .release _ _ => isTrue trivial
  | .archive entry => inferInstanceAs (Decidable entry.IsFinite)

instance (op : Op) : Decidable op.KeepsContent :=
  match op with
  | .setColdContentBudget budget => inferInstanceAs (Decidable (budget = none))
  | .tick | .upsertNode .. | .addEdge .. | .removeNode _ | .touch _ | .enforcePaging | .pageIn _
  | .pruneDanglingEdges | .setPendingCalls .. | .setPendingDataRefs .. | .setPendingAliases ..
  | .setPendingMethods .. | .markDataSymbol _ | .resolveAll | .attachColdSpill _
  | .setColdResidentBudget _ => isTrue trivial

theorem run_tiers_lossless_archiveBare :
    ∃ node, (pageIn sampleCodec evenJudge (run sampleCodec (MemoryGraph.new 1)
        (evenSteps archiveBare)) ['a']).1.nodes[['a']]? = some node ∧
      (known (evenSteps archiveBare))[['a']]? = some node.told ∧
      (pageIn sampleCodec evenJudge (run sampleCodec (MemoryGraph.new 1)
        (evenSteps archiveBare)) ['a']).2 = true := by
  have hrun : StaysAttached sampleCodec (MemoryGraph.new 1) (evenSteps archiveBare) ∧
      (∀ event ∈ runEvents sampleCodec (MemoryGraph.new 1) (evenSteps archiveBare),
        event.SparesHusks ∧ event.ArchivesFinite) ∧
      (['a'] ∈ (run sampleCodec (MemoryGraph.new 1) (evenSteps archiveBare)).cold ∨
        ['a'] ∈ (run sampleCodec (MemoryGraph.new 1) (evenSteps archiveBare)).husks) := by
    decide +kernel
  obtain ⟨hattached, hevents, hstored⟩ := hrun
  exact (run_tiers_lossless sampleCodec sampleCodec_faithful 1 (evenSteps archiveBare)
    hattached).2.2.2.2 (by decide) hevents evenJudge ['a'] hstored

/-- After the blob of the husk went with the twin's content, the husk cannot be paged in. -/
theorem not_all_runs_lossless :
    ¬ ∀ (codec : Codec), codec.Faithful → ∀ (maxInMemoryNodes : ℕ) (steps : List Step),
      StaysAttached codec (MemoryGraph.new maxInMemoryNodes) steps →
      (∀ step ∈ steps, step.2.KeepsContent) → ∀ (judge : Judge) (id : Str),
        id ∈ (run codec (MemoryGraph.new maxInMemoryNodes) steps).cold ∨
          id ∈ (run codec (MemoryGraph.new maxInMemoryNodes) steps).husks →
        (pageIn codec judge (run codec (MemoryGraph.new maxInMemoryNodes) steps) id).2 = true := by
  intro hall
  have hrun : StaysAttached sampleCodec (MemoryGraph.new 1) (evenSteps replaceTwin) ∧
      (['a'] ∈ (run sampleCodec (MemoryGraph.new 1) (evenSteps replaceTwin)).cold ∨
        ['a'] ∈ (run sampleCodec (MemoryGraph.new 1) (evenSteps replaceTwin)).husks) ∧
      (pageIn sampleCodec evenJudge
        (run sampleCodec (MemoryGraph.new 1) (evenSteps replaceTwin)) ['a']).2 = false := by
    decide +kernel
  obtain ⟨hattached, hstored, hlost⟩ := hrun
  have hfound := hall sampleCodec sampleCodec_faithful 1 (evenSteps replaceTwin) hattached
    (by decide) evenJudge ['a'] hstored
  rw [hlost] at hfound
  cases hfound

end MemoryGraph

end SoulSystem.Ccos.Memory
