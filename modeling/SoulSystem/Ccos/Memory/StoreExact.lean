import SoulSystem.Ccos.Memory.Tiers

/-!
# Garbage collection of the spill store

A blob is referenced by the stub of a full COLD entry or by the body of a live husk.  The store is
exact when it holds the referenced blobs and no others.  Releases after the removal of a husk look
at both kinds of references and keep the store exact.  Releases of a content blob look at the full
entries only, so they keep it exact when the blob is not also the body of a live husk.
-/

namespace SoulSystem.Ccos.Memory

open Library SortedMap Std.ExtTreeMap

/-- The blob that a full entry has its content in. -/
def ColdNode.stub (entry : ColdNode) : Option Str :=
  entry.spill.map SpillRef.hash

/-- The blob that a husk has its body in. -/
def DeepHusk.stub (husk : DeepHusk) : Option Str :=
  some husk.body.hash

/-- What is needed of the hash and of the serialisation: no collisions, and an entry without a
stub comes back without one. -/
structure Codec.Separates (codec : Codec) : Prop where
  injective : Function.Injective codec.sha256
  inline : ∀ entry parsed : ColdNode, entry.spill = none →
    codec.fromJson (codec.toJson entry) = some parsed → parsed.spill = none

namespace MemoryGraph

variable {codec : Codec} {judge : Judge}

/-- The blobs of the attached store. -/
def blobs (g : MemoryGraph) : Std.ExtTreeMap Str Bytes :=
  (g.spill.map ColdSpill.files).getD ∅

def Referenced (g : MemoryGraph) (hash : Str) : Prop :=
  Cites g.cold ColdNode.stub hash ∨ Cites g.husks DeepHusk.stub hash

theorem referencedByFull_iff {g : MemoryGraph} {hash : Str} :
    referencedByFull g hash = true ↔ Cites g.cold ColdNode.stub hash := by
  unfold referencedByFull
  rw [List.any_eq_true]
  constructor
  · rintro ⟨⟨id, entry⟩, hmem, heq⟩
    rw [mem_toList_iff_getElem?_eq_some] at hmem
    exact ⟨id, entry, hmem, eq_of_beq heq⟩
  · rintro ⟨id, entry, hentry, hstub⟩
    refine ⟨(id, entry), Std.ExtTreeMap.mem_toList_iff_getElem?_eq_some.mpr hentry, ?_⟩
    rw [ColdNode.stub] at hstub
    simp [hstub]

theorem referencedByHusk_iff {g : MemoryGraph} {hash : Str} :
    referencedByHusk g hash = true ↔ Cites g.husks DeepHusk.stub hash := by
  unfold referencedByHusk
  rw [List.any_eq_true]
  constructor
  · rintro ⟨⟨id, husk⟩, hmem, heq⟩
    rw [mem_toList_iff_getElem?_eq_some] at hmem
    exact ⟨id, husk, hmem, by simpa [DeepHusk.stub] using heq⟩
  · rintro ⟨id, husk, hhusk, hstub⟩
    refine ⟨(id, husk), Std.ExtTreeMap.mem_toList_iff_getElem?_eq_some.mpr hhusk, ?_⟩
    simpa [DeepHusk.stub] using hstub

/-! ## Releases -/

theorem mem_blobs_dropBlob {g : MemoryGraph} {hash other : Str} :
    other ∈ (dropBlob g hash).blobs ↔ other ≠ hash ∧ other ∈ g.blobs := by
  unfold dropBlob blobs
  cases g.spill with
  | none => simp
  | some store => exact mem_erase_iff

end MemoryGraph

/-- No live husk loses its body: a released content blob that is also the body of a husk still has
a full entry that refers to it. -/
def Event.SparesHusks : Event → Prop
  | .release g hash => g.referencedByHusk hash = true → g.referencedByFull hash = true
  | .archive _ => True

instance (event : Event) : Decidable event.SparesHusks :=
  match event with
  | .release g hash =>
    inferInstanceAs (Decidable (g.referencedByHusk hash = true → g.referencedByFull hash = true))
  | .archive _ => isTrue trivial

namespace MemoryGraph

variable {codec : Codec} {judge : Judge}

/-- What is referenced is stored, and what is stored is referenced, one blob apart. -/
structure ExactBut (g : MemoryGraph) (spare : Option Str) : Prop where
  stored : ∀ hash, g.Referenced hash → hash ∈ g.blobs
  live : ∀ hash ∈ g.blobs, spare = some hash ∨ g.Referenced hash

/-- Dropping a blob that nothing refers to settles it. -/
theorem ExactBut.dropBlob {g : MemoryGraph} {hash : Str} (hexact : ExactBut g (some hash))
    (hfree : ¬ g.Referenced hash) :
    ∀ other, other ∈ (dropBlob g hash).blobs ↔ g.Referenced other := by
  intro other
  rw [mem_blobs_dropBlob]
  constructor
  · rintro ⟨hne, hmem⟩
    rcases hexact.live other hmem with hspare | hlive
    · exact absurd (Option.some.inj hspare).symm hne
    · exact hlive
  · intro hlive
    refine ⟨?_, hexact.stored other hlive⟩
    rintro rfl
    exact hfree hlive

/-- Keeping a blob that something refers to settles it too. -/
theorem ExactBut.of_referenced {g : MemoryGraph} {hash : Str} (hexact : ExactBut g (some hash))
    (hlive : g.Referenced hash) : ∀ other, other ∈ g.blobs ↔ g.Referenced other := by
  intro other
  constructor
  · intro hmem
    rcases hexact.live other hmem with hspare | hother
    · rwa [← Option.some.inj hspare]
    · exact hother
  · exact hexact.stored other

theorem ExactBut.releaseBlobIfOrphan {g : MemoryGraph} {hash : Str}
    (hexact : ExactBut g (some hash)) :
    ∀ other, other ∈ (releaseBlobIfOrphan g hash).blobs ↔ g.Referenced other := by
  unfold MemoryGraph.releaseBlobIfOrphan
  split
  · rename_i hreferenced
    rw [Bool.or_eq_true, referencedByFull_iff, referencedByHusk_iff] at hreferenced
    exact hexact.of_referenced hreferenced
  · rename_i hreferenced
    rw [Bool.or_eq_true, referencedByFull_iff, referencedByHusk_iff] at hreferenced
    exact hexact.dropBlob hreferenced

theorem ExactBut.releaseSpill {g : MemoryGraph} {spill : Option SpillRef}
    (hexact : ExactBut g (spill.map SpillRef.hash))
    (hgood : ∀ event ∈ releaseEvents g spill, event.SparesHusks) :
    ∀ hash, hash ∈ (releaseSpill g spill).blobs ↔ g.Referenced hash := by
  cases spill with
  | none =>
    intro hash
    constructor
    · intro hmem
      exact (hexact.live hash hmem).resolve_left (by simp)
    · exact hexact.stored hash
  | some ref =>
    have hspares := hgood (.release g ref.hash) (by simp [releaseEvents])
    unfold MemoryGraph.releaseSpill MemoryGraph.releaseContentBlobIfOrphan
    simp only []
    split
    · rename_i hfull
      exact hexact.of_referenced (.inl (referencedByFull_iff.mp hfull))
    · rename_i hfull
      apply hexact.dropBlob
      rintro (hcold | hhusk)
      · exact hfull (referencedByFull_iff.mpr hcold)
      · exact hfull (hspares (referencedByHusk_iff.mpr hhusk))

/-! ## The invariant -/

structure StoreExact (codec : Codec) (g : MemoryGraph) : Prop where
  blobs : ∀ hash, hash ∈ g.blobs ↔ g.Referenced hash
  bodies : ∀ (id : Str) (husk : DeepHusk), g.husks[id]? = some husk →
    ∃ entry : ColdNode, entry.spill = none ∧ codec.sha256 (codec.toJson entry) = husk.body.hash

/-! ## Reads and writes of the store -/

/-- A put adds its own hash to the names of the store. -/
theorem mem_files_spillPut {store : ColdSpill} {content hash : Str} :
    hash ∈ (spillPut codec store content).1.files ↔
      hash = codec.sha256 content ∨ hash ∈ store.files := by
  unfold spillPut
  simp only []
  split
  · rename_i hpresent
    have hmem : codec.sha256 content ∈ store.files := by
      rwa [mem_iff_isSome_getElem?]
    constructor
    · exact .inr
    · rintro (heq | hin)
      · rwa [heq]
      · exact hin
  · exact mem_insert_iff

/-! ## The moves keep the store exact -/

namespace StoreExact

variable {g h : MemoryGraph} {id : Str}

/-- The invariant reads the COLD tier and the blobs. -/
theorem congr (hexact : StoreExact codec g) (hcold : h.cold = g.cold) (hhusks : h.husks = g.husks)
    (hspill : h.spill = g.spill) : StoreExact codec h where
  blobs := by
    intro hash
    unfold Referenced MemoryGraph.blobs
    rw [hspill, hcold, hhusks]
    exact hexact.blobs hash
  bodies := by
    rw [hhusks]
    exact hexact.bodies

/-- Once an entry no longer refers to its blob, that blob may be spare. -/
theorem unstubbed {entry : ColdNode} (hexact : StoreExact codec g)
    (hentry : g.cold[id]? = some entry) (hspill : h.spill = g.spill) (hhusks : h.husks = g.husks)
    (hcold : ∀ hash, Cites h.cold ColdNode.stub hash ↔
      Cites (g.cold.erase id) ColdNode.stub hash) : ExactBut h entry.stub where
  stored := by
    intro hash href
    rw [MemoryGraph.blobs, hspill]
    apply (hexact.blobs hash).mpr
    rw [Referenced, hcold, hhusks] at href
    rw [Referenced, cites_iff_of_getElem? hentry]
    tauto
  live := by
    intro hash hmem
    rw [MemoryGraph.blobs, hspill] at hmem
    have href := (hexact.blobs hash).mp hmem
    rw [Referenced, cites_iff_of_getElem? hentry] at href
    rw [Referenced, hcold, hhusks]
    tauto

/-- The bodies of the husks of one graph are among those of another. -/
theorem bodies_of_subset (hexact : StoreExact codec g)
    (hhusks : ∀ (id : Str) (husk : DeepHusk), h.husks[id]? = some husk →
      g.husks[id]? = some husk) (id : Str) (husk : DeepHusk) (hhusk : h.husks[id]? = some husk) :
    ∃ entry : ColdNode, entry.spill = none ∧
      codec.sha256 (codec.toJson entry) = husk.body.hash :=
  hexact.bodies id husk (hhusks id husk hhusk)

/-- After the release of a blob that may be spare, the store is exact again. -/
theorem of_releaseSpill {spill : Option SpillRef} (hbut : ExactBut h (spill.map SpillRef.hash))
    (hgood : ∀ event ∈ releaseEvents h spill, event.SparesHusks)
    (hbodies : ∀ (id : Str) (husk : DeepHusk), h.husks[id]? = some husk →
      ∃ entry : ColdNode, entry.spill = none ∧
        codec.sha256 (codec.toJson entry) = husk.body.hash) :
    StoreExact codec (releaseSpill h spill) where
  blobs := by
    intro hash
    rw [hbut.releaseSpill hgood hash, Referenced, Referenced, cold_releaseSpill,
      husks_releaseSpill]
  bodies := by
    rw [husks_releaseSpill]
    exact hbodies

theorem of_releaseBlobIfOrphan {hash : Str} (hbut : ExactBut h (some hash))
    (hbodies : ∀ (id : Str) (husk : DeepHusk), h.husks[id]? = some husk →
      ∃ entry : ColdNode, entry.spill = none ∧
        codec.sha256 (codec.toJson entry) = husk.body.hash) :
    StoreExact codec (releaseBlobIfOrphan h hash) where
  blobs := by
    intro other
    rw [hbut.releaseBlobIfOrphan other, Referenced, Referenced, cold_releaseBlobIfOrphan,
      husks_releaseBlobIfOrphan]
  bodies := by
    rw [husks_releaseBlobIfOrphan]
    exact hbodies

theorem demote (hexact : StoreExact codec g) (hapart : Apart g) :
    StoreExact codec (g.demote id) := by
  unfold MemoryGraph.demote
  split
  · exact hexact
  · rename_i node hnode
    have hid : id ∉ g.cold := hapart.nodes_cold id (mem_of_getElem?_eq_some hnode)
    constructor
    · intro hash
      refine (hexact.blobs hash).trans ?_
      rw [Referenced, Referenced, cites_insert_iff, erase_eq_self hid]
      simp [ColdNode.stub]
    · exact hexact.bodies

theorem compact {total : ℕ} (hexact : StoreExact codec g)
    (hgood : ∀ event ∈ compactEvents codec g id, event.SparesHusks) :
    StoreExact codec (compactEntry codec (g, total) id).1 := by
  unfold compactEvents at hgood
  unfold compactEntry
  split
  · exact hexact
  · rename_i entry content oldLen hsource
    simp only [hsource] at hgood
    have hentry := getElem?_of_compactSource hsource
    simp only []
    split
    · constructor
      · intro hash
        refine (hexact.blobs hash).trans ?_
        rw [Referenced, Referenced, cites_insert_iff, cites_iff_of_getElem? hentry]
        rfl
      · exact hexact.bodies
    · rename_i hshrinks
      rw [if_neg hshrinks] at hgood
      refine of_releaseSpill ?_ hgood hexact.bodies
      refine hexact.unstubbed hentry ?_ ?_ ?_
      · rfl
      · rfl
      · intro hash
        rw [withCompacted, cites_insert_iff]
        simp [ColdNode.stub]

theorem spill {total : ℕ} (hexact : StoreExact codec g) :
    StoreExact codec (spillEntry codec (g, total) id).1 := by
  unfold spillEntry
  split
  · rename_i entry store hentry hspill
    split
    · exact hexact
    · rename_i hinline
      have hstub : entry.stub = none := by
        simp only [Bool.not_eq_true, Option.isSome_eq_false_iff, Option.isNone_iff_eq_none] at hinline
        simp [ColdNode.stub, hinline]
      constructor
      · intro hash
        have hold := hexact.blobs hash
        rw [Referenced, cites_iff_of_getElem? hentry, hstub] at hold
        have hblobs : hash ∈ g.blobs ↔ hash ∈ store.files := by
          rw [MemoryGraph.blobs, show g.spill = some store from hspill]
          rfl
        have hput : hash ∈ (withSpilled codec g store id entry).blobs ↔
            hash ∈ (spillPut codec store entry.node.content).1.files := Iff.rfl
        rw [hput, mem_files_spillPut, ← hblobs, hold, Referenced, withSpilled, cites_insert_iff]
        simp only [ColdNode.stub, Option.map_some, spillPut_snd, Option.some.injEq, reduceCtorEq,
          false_or]
        rw [eq_comm]
        tauto
      · exact hexact.bodies
  · exact hexact

theorem deepSpill {total : ℕ} (hexact : StoreExact codec g) (hapart : Apart g)
    (hgood : ∀ event ∈ deepSpillEvents codec judge g id, event.SparesHusks) :
    StoreExact codec (deepSpillEntry codec judge (g, total) id).1 := by
  unfold deepSpillEvents at hgood
  unfold deepSpillEntry
  split
  · exact hexact
  · rename_i store entry inline hsource
    simp only [hsource, List.forall_mem_cons] at hgood
    obtain ⟨hentry, hspill, hfold⟩ := of_deepSpillSource hsource
    have hhusk : id ∉ g.husks := hapart.cold_husks id (mem_of_getElem?_eq_some hentry)
    have hblobs : ∀ hash, hash ∈ (withHusk codec g store id entry inline).blobs ↔
        hash = codec.sha256 (codec.toJson inline) ∨ hash ∈ g.blobs := by
      intro hash
      rw [MemoryGraph.blobs, MemoryGraph.blobs, show g.spill = some store from hspill]
      exact mem_files_spillPut
    have hreferenced : ∀ hash, (withHusk codec g store id entry inline).Referenced hash ↔
        Cites (g.cold.erase id) ColdNode.stub hash ∨
          (hash = codec.sha256 (codec.toJson inline) ∨ Cites g.husks DeepHusk.stub hash) := by
      intro hash
      rw [Referenced, withHusk, cites_insert_iff, erase_eq_self hhusk, DeepHusk.stub, spillPut_snd,
        Option.some.injEq, @eq_comm _ hash]
    refine of_releaseSpill ?_ hgood.2 ?_
    · constructor
      · intro hash
        have hold := hexact.blobs hash
        rw [Referenced, cites_iff_of_getElem? hentry] at hold
        rw [hreferenced, hblobs, hold]
        tauto
      · intro hash
        have hold := hexact.blobs hash
        rw [Referenced, cites_iff_of_getElem? hentry, ColdNode.stub] at hold
        rw [hreferenced, hblobs, hold]
        tauto
    · intro other husk hother
      by_cases hne : id = other
      · rw [← hne, withHusk, getElem?_insert_self] at hother
        cases hother
        exact ⟨inline, spill_of_foldInline hfold, (spillPut_snd store _).symm⟩
      · rw [withHusk, getElem?_insert_ne _ hne] at hother
        exact hexact.bodies other husk hother

theorem faultHusk (hcodec : codec.Separates) (hexact : StoreExact codec g) (hapart : Apart g)
    (hfault : faultHusk codec g id = some h) : StoreExact codec h := by
  unfold MemoryGraph.faultHusk at hfault
  split at hfault
  · cases hfault
    exact hexact
  · rename_i husk hhusk
    split at hfault
    · cases hfault
    · rename_i parsed hparsed
      cases hfault
      rw [Option.bind_eq_some_iff] at hparsed
      obtain ⟨text, hfetch, hjson⟩ := hparsed
      obtain ⟨entry, hspill, hbody⟩ := hexact.bodies id husk hhusk
      have htext : text = codec.toJson entry := by
        apply hcodec.injective
        rw [sha256_of_fetch hfetch, hbody]
      rw [htext] at hjson
      have hinline : parsed.stub = none := by
        simp [ColdNode.stub, hcodec.inline entry parsed hspill hjson]
      have hcold : id ∉ g.cold :=
        fun hin ↦ hapart.cold_husks id hin (mem_of_getElem?_eq_some hhusk)
      apply of_releaseBlobIfOrphan
      · constructor
        · intro hash href
          apply (hexact.blobs hash).mpr
          rw [Referenced, cites_insert_iff, erase_eq_self hcold, hinline] at href
          rw [Referenced, cites_iff_of_getElem? hhusk]
          simp only [reduceCtorEq, false_or] at href
          tauto
        · intro hash hmem
          have href := (hexact.blobs hash).mp hmem
          rw [Referenced, cites_iff_of_getElem? hhusk, DeepHusk.stub] at href
          rw [Referenced, cites_insert_iff, erase_eq_self hcold, hinline]
          tauto
      · exact hexact.bodies_of_subset fun _ _ ↦ getElem?_of_getElem?_erase

theorem faultContent (hexact : StoreExact codec g)
    (hgood : ∀ event ∈ faultEvents codec g id, event.SparesHusks)
    (hfault : faultContent codec g id = some h) : StoreExact codec h := by
  unfold faultEvents at hgood
  unfold MemoryGraph.faultContent at hfault
  split at hfault
  · cases hfault
    exact hexact
  · rename_i entry hentry
    simp only [hentry] at hgood
    split at hfault
    · cases hfault
      exact hexact
    · rename_i ref hspill
      simp only [hspill] at hgood
      split at hfault
      · cases hfault
      · rename_i text hfetch
        simp only [hfetch] at hgood
        cases hfault
        refine @of_releaseSpill codec _ (some ref) ?_ hgood hexact.bodies
        have hstub : entry.stub = some ref.hash := by simp [ColdNode.stub, hspill]
        rw [Option.map_some, ← hstub]
        refine hexact.unstubbed hentry ?_ ?_ ?_
        · rfl
        · rfl
        · intro hash
          rw [cites_insert_iff]
          simp [ColdNode.stub]

theorem restore {entry : ColdNode} (hexact : StoreExact codec g)
    (hentry : g.cold[id]? = some entry) (hspill : entry.spill = none) :
    StoreExact codec (g.restore id entry) := by
  obtain ⟨linked, hrestore⟩ := restore_fields g id entry
  rw [hrestore]
  have hstub : entry.stub = none := by simp [ColdNode.stub, hspill]
  constructor
  · intro hash
    refine (hexact.blobs hash).trans ?_
    rw [Referenced, Referenced, cites_iff_of_getElem? hentry, hstub]
    simp
  · exact hexact.bodies

theorem stable (hcodec : codec.Separates) :
    Stable codec Event.SparesHusks (fun g ↦ Apart g ∧ StoreExact codec g) where
  demote := fun g id hg ↦ ⟨(Apart.stable codec).demote g id hg.1, hg.2.demote hg.1⟩
  prune := fun g hg ↦ ⟨(Apart.stable codec).prune g hg.1, hg.2.congr rfl rfl rfl⟩
  compact := fun g total id hg hbudget hgood ↦
    ⟨(Apart.stable codec).compact g total id hg.1 hbudget fun _ _ ↦ trivial, hg.2.compact hgood⟩
  spill := fun g total id hg ↦ ⟨(Apart.stable codec).spill g total id hg.1, hg.2.spill⟩
  deepSpill := fun judge g total id hg hgood ↦
    ⟨(Apart.stable codec).deepSpill judge g total id hg.1 fun _ _ ↦ trivial,
      hg.2.deepSpill hg.1 hgood⟩
  faultHusk := fun g h id hg hfault ↦
    ⟨(Apart.stable codec).faultHusk g h id hg.1 hfault, hg.2.faultHusk hcodec hg.1 hfault⟩
  faultContent := fun g h id hg hgood hfault ↦
    ⟨(Apart.stable codec).faultContent g h id hg.1 (fun _ _ ↦ trivial) hfault,
      hg.2.faultContent hgood hfault⟩
  restore := fun g id entry hg hentry hspill ↦
    ⟨(Apart.stable codec).restore g id entry hg.1 hentry hspill, hg.2.restore hentry hspill⟩

/-! ## Operations -/

theorem forgetFull (hexact : StoreExact codec g)
    (hgood : ∀ event ∈ forgetEvents g id, event.SparesHusks) :
    StoreExact codec (forgetFull g id) := by
  unfold forgetEvents at hgood
  unfold MemoryGraph.forgetFull
  split
  · rename_i old hold
    simp only [hold] at hgood
    refine of_releaseSpill ?_ hgood hexact.bodies
    refine hexact.unstubbed hold ?_ ?_ ?_
    · rfl
    · rfl
    · exact fun _ ↦ Iff.rfl
  · exact hexact

theorem forgetHusk (hexact : StoreExact codec g) : StoreExact codec (forgetHusk g id) := by
  unfold MemoryGraph.forgetHusk
  split
  · rename_i husk hhusk
    apply of_releaseBlobIfOrphan
    · constructor
      · intro hash href
        apply (hexact.blobs hash).mpr
        rw [Referenced] at href
        rw [Referenced, cites_iff_of_getElem? hhusk]
        tauto
      · intro hash hmem
        have href := (hexact.blobs hash).mp hmem
        rw [Referenced, cites_iff_of_getElem? hhusk, DeepHusk.stub] at href
        rw [Referenced]
        tauto
    · exact hexact.bodies_of_subset fun _ _ ↦ getElem?_of_getElem?_erase
  · exact hexact

theorem forgetColdShadow (hexact : StoreExact codec g)
    (hgood : ∀ event ∈ forgetEvents g id, event.SparesHusks) :
    StoreExact codec (forgetColdShadow g id) :=
  (hexact.forgetFull hgood).forgetHusk

/-- A store on an empty directory is exact for a graph that refers to no blob. -/
theorem withStore (hexact : StoreExact codec g) (hnone : g.spill = none) (inlineBudget : ℕ) :
    StoreExact codec (withStore g inlineBudget) where
  blobs := by
    intro hash
    have hfree : ¬ g.Referenced hash := by
      rw [← hexact.blobs, MemoryGraph.blobs, hnone]
      exact not_mem_empty
    constructor
    · intro hmem
      exact absurd hmem not_mem_empty
    · rintro (hcold | hhusk)
      · exact absurd (.inl hcold) hfree
      · exact absurd hhusk not_cites_empty
  bodies := by
    intro id husk hhusk
    simp [MemoryGraph.withStore] at hhusk

theorem new (maxInMemoryNodes : ℕ) : StoreExact codec (MemoryGraph.new maxInMemoryNodes) where
  blobs := by
    intro hash
    constructor
    · intro hmem
      exact absurd hmem not_mem_empty
    · rintro (hcold | hhusk)
      · exact absurd hcold not_cites_empty
      · exact absurd hhusk not_cites_empty
  bodies := by
    intro id husk hhusk
    simp [MemoryGraph.new] at hhusk

/-- With the tiers in order, every operation whose releases spare the husks keeps the store
exact. -/
theorem apply {ids : Str → Prop} {op : Op} (hcodec : codec.Separates)
    (hexact : StoreExact codec g) (htier : TierInvariant ids g) (hattach : AttachesOnce op g)
    (hgood : ∀ event ∈ events codec judge op g, event.SparesHusks) :
    StoreExact codec (apply codec judge op g) := by
  refine ((stable hcodec).apply ?_ hgood).2
  have hapart := htier.tiered.apart
  have hstays := @stays_started codec judge op g
  cases op with
  | upsertNode id label content nodeType =>
    have hforgets := (List.forall_mem_append.mp hgood).1
    exact ⟨(htier.tiered.withUpserted id label content nodeType).apart,
      (hexact.forgetColdShadow hforgets).congr rfl rfl rfl⟩
  | removeNode id =>
    have herased : StoreExact codec { g with nodes := g.nodes.erase id } :=
      hexact.congr rfl rfl rfl
    exact ⟨(htier.tiered.removeNode id).apart,
      (herased.forgetColdShadow hgood).congr rfl rfl rfl⟩
  | attachColdSpill inlineBudget =>
    have hnone := Option.isNone_iff_eq_none.mp hattach
    exact ⟨(htier.withStore hnone inlineBudget).tiered.apart, hexact.withStore hnone inlineBudget⟩
  | setColdContentBudget budget =>
    have hset := htier.same (h := { g with coldContentBudget := budget }) (fun _ ↦ Iff.rfl)
      rfl rfl rfl
    exact ⟨hset.tiered.apart, hexact.congr rfl rfl rfl⟩
  | _ =>
    have hstays := hstays id
    exact ⟨(htier.stays hstays).tiered.apart,
      hexact.congr hstays.cold hstays.husks hstays.spill⟩

theorem run {before : Std.ExtTreeMap Str Upsert} {steps : List Step} (hcodec : codec.Separates)
    (hexact : StoreExact codec g) (htier : TierInvariant (fun id ↦ id ∈ before) g)
    (hattached : StaysAttached codec g steps)
    (hgood : ∀ event ∈ runEvents codec g steps, event.SparesHusks) :
    StoreExact codec (run codec g steps) := by
  induction steps generalizing g before with
  | nil => exact hexact
  | cons step steps ih =>
    rw [runEvents, List.forall_mem_append] at hgood
    exact ih (hexact.apply hcodec htier hattached.1 hgood.1) (htier.apply hattached.1)
      hattached.2 hgood.2

end StoreExact

/-- Along a run whose store stays attached and whose releases spare the husks, the store holds
exactly the blobs that a full COLD entry or a live husk refers to. -/
theorem run_blobs_exact (codec : Codec) (hcodec : codec.Separates) (maxInMemoryNodes : ℕ)
    (steps : List Step) (hattached : StaysAttached codec (MemoryGraph.new maxInMemoryNodes) steps)
    (hspares : ∀ event ∈ runEvents codec (MemoryGraph.new maxInMemoryNodes) steps,
      event.SparesHusks) (hash : Str) :
    hash ∈ (run codec (MemoryGraph.new maxInMemoryNodes) steps).blobs ↔
      (run codec (MemoryGraph.new maxInMemoryNodes) steps).Referenced hash :=
  ((StoreExact.new maxInMemoryNodes).run hcodec (TierInvariant.new maxInMemoryNodes) hattached
    hspares).blobs hash

/-! ## A content that is the body of a husk -/

/-- The entry of a fresh node `a` without content. -/
def bareEntry : ColdNode where
  node := freshNode ['a'] [] [] .unknown 0
  edges := []
  spill := none
  compacted := false
  atFloor := false

/-- Its serialised form. -/
def bareText : Str :=
  ["\x7b\"node\":\x7b\"id\":\"a\",", "\"label\":\"\",\"content\":\"\",", "\"node_type\":\"Unknown\",",
    "\"base_importance\":0.5,", "\"failure_relevance\":0.0,", "\"recency\":1.0,", "\"access_count\":1,",
    "\"created_at\":0,", "\"last_accessed\":0\x7d,", "\"edges\":[]\x7d"].flatMap String.toList

def typeMark : NodeType → Char
  | .module => 'M'
  | .symbol => 'S'
  | .contextBlock => 'C'
  | .analysisResult => 'A'
  | .codeRegion => 'R'
  | .unknown => 'U'

def typeOfMark (mark : Char) : Option NodeType :=
  [.module, .symbol, .contextBlock, .analysisResult, .codeRegion, .unknown].find? fun nodeType ↦
    typeMark nodeType == mark

/-- A text with the type, the label and the content of an entry. -/
def markedText (entry : ColdNode) : Str :=
  '#' :: typeMark entry.node.nodeType ::
    (List.replicate entry.node.label.length '.' ++ '|' :: (entry.node.label ++ entry.node.content))

def readMarked : Str → Option ColdNode
  | '#' :: mark :: rest =>
    let size := (rest.takeWhile fun c ↦ c == '.').length
    let body := rest.drop (size + 1)
    (typeOfMark mark).map fun nodeType ↦
      { bareEntry with
        node := freshNode [] (body.take size) (body.drop size) nodeType 0 }
  | _ => none

def sampleText (entry : ColdNode) : Str :=
  if entry = bareEntry then bareText else markedText entry

def readSample (text : Str) : Option ColdNode :=
  if text = bareText then some bareEntry else readMarked text

/-- A codec without collisions that writes the bare entry as the program does. -/
def sampleCodec : Codec where
  sha256 := id
  toJson := sampleText
  fromJson := readSample
  compactContent := fun _ content ↦ content

theorem spill_of_readMarked {text : Str} {entry : ColdNode} (hread : readMarked text = some entry) :
    entry.spill = none := by
  unfold readMarked at hread
  split at hread
  · simp only [Option.map_eq_some_iff] at hread
    obtain ⟨_, _, heq⟩ := hread
    cases heq
    rfl
  · cases hread

theorem spill_of_readSample {text : Str} {entry : ColdNode} (hread : readSample text = some entry) :
    entry.spill = none := by
  unfold readSample at hread
  by_cases hbare : text = bareText
  · rw [if_pos hbare] at hread
    cases hread
    rfl
  · rw [if_neg hbare] at hread
    exact spill_of_readMarked hread

theorem sampleCodec_separates : sampleCodec.Separates where
  injective := Function.injective_id
  inline := fun _ _ _ hread ↦ spill_of_readSample hread

/-- In a graph of one resident node, a node is archived as a husk, and a second node has the text
of that husk for its content. -/
def archiveBare : List Op :=
  [.attachColdSpill 0, .setColdResidentBudget (some 3), .upsertNode ['a'] [] [] .unknown,
    .upsertNode ['z'] [] [] .unknown, .upsertNode ['b'] [] bareText .unknown]

theorem run_blobs_exact_archiveBare :
    bareText ∈ (run sampleCodec (MemoryGraph.new 1) (evenSteps archiveBare)).blobs ↔
      (run sampleCodec (MemoryGraph.new 1) (evenSteps archiveBare)).Referenced bareText :=
  run_blobs_exact sampleCodec sampleCodec_separates 1 (evenSteps archiveBare)
    (by decide +kernel) (by decide +kernel) bareText

/-- Then the second node gets another content. -/
def replaceTwin : List Op :=
  archiveBare ++ [.upsertNode ['b'] [] [] .unknown]

/-- The upsert takes the blob of the husk with it. -/
theorem not_all_runs_keep_blobs :
    ¬ ∀ (codec : Codec), codec.Separates → ∀ (maxInMemoryNodes : ℕ) (steps : List Step),
      StaysAttached codec (MemoryGraph.new maxInMemoryNodes) steps → ∀ hash : Str,
        hash ∈ (run codec (MemoryGraph.new maxInMemoryNodes) steps).blobs ↔
          (run codec (MemoryGraph.new maxInMemoryNodes) steps).Referenced hash := by
  intro hall
  have hrun : StaysAttached sampleCodec (MemoryGraph.new 1) (evenSteps replaceTwin) ∧
      referencedByHusk (run sampleCodec (MemoryGraph.new 1) (evenSteps replaceTwin)) bareText ∧
      bareText ∉ (run sampleCodec (MemoryGraph.new 1) (evenSteps replaceTwin)).blobs := by
    decide +kernel
  obtain ⟨hattached, hhusk, hgone⟩ := hrun
  have hexact := hall sampleCodec sampleCodec_separates 1 (evenSteps replaceTwin) hattached bareText
  exact hgone (hexact.mpr (.inr (referencedByHusk_iff.mp hhusk)))

end MemoryGraph

end SoulSystem.Ccos.Memory
