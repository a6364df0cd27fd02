import SoulSystem.Library.Distance
import SoulSystem.Ccos.Memory.CausalFlash

/-!
# What a causal window shows

The layers of a cone are the distances from the seeds.  At a positive horizon, the dependencies of
the last layer that are not in the cone are all that the cone leaves out, and the flag tells whether
there are any.  At horizon zero the flag is set whatever is left out.
-/

namespace SoulSystem.Ccos.Memory

open Library SortedMap Distance

/-- The node is a seed or a dependency of the window, at a depth. -/
def CausalWindow.Includes (w : CausalWindow) (id : Str) (d : ℕ) : Prop :=
  ∃ entry ∈ w.nodes, entry.role ≠ .caller ∧ entry.id = id ∧ entry.depth = d

namespace MemoryGraph

variable {g : MemoryGraph} {adj : CausalAdjacency} {decay : F64} {cone cone' : Cone} {d : ℕ}

/-! ## One layer -/

/-- A step of the cone, along an edge to a node that is not dead. -/
def Steps (g : MemoryGraph) (adj : CausalAdjacency) (parent child : Str) : Prop :=
  child ∈ (dependencies adj parent).map Prod.fst ∧ g.isOrphan child = false

/-- A cone that has met some more ids, at a depth. -/
structure Grown (d : ℕ) (met : Str → Prop) (cone cone' : Cone) : Prop where
  depth : ∀ (v : Str) (k : ℕ), cone'.depth[v]? = some k ↔
    cone.depth[v]? = some k ∨ (cone.depth[v]? = none ∧ met v) ∧ k = d
  next : ∀ v, v ∈ cone'.next ↔ v ∈ cone.next ∨ cone.depth[v]? = none ∧ met v

namespace Grown

theorem refl (d : ℕ) (cone : Cone) : Grown d (fun _ ↦ False) cone cone where
  depth _ _ := by simp only [and_false, false_and, or_false]
  next _ := by simp only [and_false, or_false]

theorem depth_eq_none_iff {met : Str → Prop} (hgrown : Grown d met cone cone') (v : Str) :
    cone'.depth[v]? = none ↔ cone.depth[v]? = none ∧ ¬ met v := by
  constructor
  · intro hnone
    have hold : cone.depth[v]? = none := by
      cases hold : cone.depth[v]? with
      | none => rfl
      | some k =>
        rw [(hgrown.depth v k).mpr (.inl hold)] at hnone
        cases hnone
    refine ⟨hold, fun hmet ↦ ?_⟩
    rw [(hgrown.depth v d).mpr (.inr ⟨⟨hold, hmet⟩, rfl⟩)] at hnone
    cases hnone
  · rintro ⟨hnone, hnot⟩
    cases hsome : cone'.depth[v]? with
    | none => rfl
    | some k =>
      cases (hgrown.depth v k).mp hsome with
      | inl hold =>
        rw [hnone] at hold
        cases hold
      | inr hnew => exact absurd hnew.1.2 hnot

theorem trans {met met' : Str → Prop} {cone'' : Cone} (hfirst : Grown d met cone cone')
    (hsecond : Grown d met' cone' cone'') : Grown d (fun v ↦ met v ∨ met' v) cone cone'' where
  depth v k := by
    rw [hsecond.depth, hfirst.depth, hfirst.depth_eq_none_iff]
    tauto
  next v := by
    rw [hsecond.next, hfirst.next, hfirst.depth_eq_none_iff]
    tauto

theorem congr {met met' : Str → Prop} (hgrown : Grown d met cone cone')
    (hmet : ∀ v, met v ↔ met' v) : Grown d met' cone cone' where
  depth v k := by rw [hgrown.depth, hmet]
  next v := by rw [hgrown.next, hmet]

theorem expandChild (cone : Cone) (prel : F64) (child : Str × F64) :
    Grown d (fun v ↦ v = child.1 ∧ g.isOrphan v = false) cone
      (g.expandChild decay d prel cone child) := by
  unfold MemoryGraph.expandChild
  cases horphan : g.isOrphan child.1 with
  | true =>
    refine (refl d cone).congr fun v ↦ ⟨False.elim, ?_⟩
    rintro ⟨rfl, hlive⟩
    exact Bool.noConfusion (horphan.symm.trans hlive)
  | false =>
    rw [if_neg Bool.false_ne_true]
    simp only []
    by_cases hmem : cone.depth.contains child.1 = true
    · rw [if_pos hmem]
      obtain ⟨k, hk⟩ := exists_getElem?_of_mem hmem
      refine ⟨fun v n ↦ ⟨.inl, fun h ↦ h.resolve_right ?_⟩, fun v ↦ ⟨.inl, fun h ↦ h.resolve_right ?_⟩⟩
      · rintro ⟨⟨hnone, rfl, _⟩, _⟩
        rw [hk] at hnone
        cases hnone
      · rintro ⟨hnone, rfl, _⟩
        rw [hk] at hnone
        cases hnone
    · rw [if_neg hmem]
      have hnone : cone.depth[child.1]? = none := SortedMap.getElem?_eq_none_iff.mpr hmem
      constructor
      · intro v k
        by_cases hv : child.1 = v
        · subst hv
          simp only [Std.ExtTreeMap.getElem?_insert_self, hnone, horphan, and_self, true_and,
            Option.some.injEq, reduceCtorEq, false_or]
          exact eq_comm
        · rw [getElem?_insert_ne _ hv]
          refine ⟨.inl, fun h ↦ h.resolve_right ?_⟩
          rintro ⟨⟨_, rfl, _⟩, _⟩
          exact hv rfl
      · intro v
        rw [mem_insert_iff]
        constructor
        · rintro (rfl | hold)
          · exact .inr ⟨hnone, rfl, horphan⟩
          · exact .inl hold
        · rintro (hold | ⟨_, rfl, _⟩)
          · exact .inr hold
          · exact .inl rfl

theorem foldl_expandChild (prel : F64) (children : List (Str × F64)) (cone : Cone) :
    Grown d (fun v ↦ v ∈ children.map Prod.fst ∧ g.isOrphan v = false) cone
      (children.foldl (g.expandChild decay d prel) cone) := by
  induction children generalizing cone with
  | nil => exact (refl d cone).congr fun v ↦ ⟨False.elim, fun h ↦ absurd h.1 List.not_mem_nil⟩
  | cons child children ih =>
    refine ((expandChild cone prel child).trans (ih _)).congr fun v ↦ ?_
    rw [List.map_cons, List.mem_cons, or_and_right]

theorem foldl_expandParent (parents : List Str) (cone : Cone) :
    Grown d (fun v ↦ ∃ u ∈ parents, g.Steps adj u v) cone
      (parents.foldl (g.expandParent adj decay d) cone) := by
  induction parents generalizing cone with
  | nil =>
    refine (refl d cone).congr fun v ↦ ⟨False.elim, ?_⟩
    rintro ⟨_, hu, _⟩
    exact absurd hu List.not_mem_nil
  | cons parent parents ih =>
    refine ((foldl_expandChild _ (dependencies adj parent) cone).trans (ih _)).congr fun v ↦ ?_
    rw [List.exists_mem_cons_iff]
    exact Iff.rfl

end Grown

/-! ## The cone -/

/-- A cone that has found all distances up to one. -/
def Found (g : MemoryGraph) (adj : CausalAdjacency) (seeds : IdSet) (d : ℕ) (cone : Cone) : Prop :=
  Layered (g.Steps adj) (· ∈ seeds) d (fun v ↦ cone.depth[v]?) (· ∈ cone.next)

variable {seeds : IdSet}

theorem found_seedCone : Found g adj seeds 0 (seedCone seeds) := by
  refine Layered.zero fun v k ↦ ?_
  change (seeds.map fun _ _ ↦ 0)[v]? = some k ↔ k = 0 ∧ v ∈ seeds
  rw [Std.ExtTreeMap.getElem?_map, Option.map_eq_some_iff]
  constructor
  · rintro ⟨_, hv, rfl⟩
    exact ⟨rfl, mem_of_getElem?_eq_some hv⟩
  · rintro ⟨rfl, hv⟩
    obtain ⟨value, hvalue⟩ := exists_getElem?_of_mem hv
    exact ⟨value, hvalue, rfl⟩

theorem Found.layer (hfound : Found g adj seeds d cone) :
    Found g adj seeds (d + 1) (g.layer adj decay (d + 1) cone) := by
  have hgrown := @Grown.foldl_expandParent g adj decay (d + 1) cone.next.keys { cone with next := ∅ }
  have hparents : ∀ v, (∃ u ∈ cone.next.keys, g.Steps adj u v) ↔ ∃ u, u ∈ cone.next ∧ g.Steps adj u v :=
    fun v ↦ exists_congr fun u ↦ and_congr_left fun _ ↦ Std.ExtTreeMap.mem_keys
  have hnext : ∀ v, v ∈ (g.layer adj decay (d + 1) cone).next ↔
      cone.depth[v]? = none ∧ ∃ u, u ∈ cone.next ∧ g.Steps adj u v := by
    intro v
    rw [MemoryGraph.layer, hgrown.next, hparents]
    exact or_iff_right Std.ExtTreeMap.not_mem_empty
  refine Layered.succ hfound hnext fun v k ↦ ?_
  rw [hnext]
  exact (hgrown.depth v k).trans (or_congr_right (and_congr_left fun _ ↦
    and_congr_right fun _ ↦ hparents v))

theorem Found.layers (hfound : Found g adj seeds d cone) (left : ℕ) :
    Found g adj seeds (d + left) (g.layers adj decay left (d + 1) cone) := by
  induction left generalizing d cone with
  | zero => exact hfound
  | succ left ih =>
    have hlayer := @Found.layer g adj decay cone d seeds hfound
    by_cases hempty : (g.layer adj decay (d + 1) cone).next.isEmpty = true
    · have hlast : g.layers adj decay (left + 1) (d + 1) cone = g.layer adj decay (d + 1) cone :=
        if_pos hempty
      rw [hlast]
      refine Layered.of_empty hlayer (fun v hv ↦ ?_) (by omega)
      rw [Std.ExtTreeMap.isEmpty_iff.mp hempty] at hv
      exact Std.ExtTreeMap.not_mem_empty hv
    · have hmore : g.layers adj decay (left + 1) (d + 1) cone =
          g.layers adj decay left (d + 1 + 1) (g.layer adj decay (d + 1) cone) := if_neg hempty
      have hrest := ih hlayer
      rwa [Nat.add_right_comm, Nat.add_assoc, ← hmore] at hrest

/-- What the last layer depends on outside of the cone. -/
theorem mem_cutDeps_iff {v : Str} : v ∈ g.cutDeps adj cone ↔
    cone.depth[v]? = none ∧ ∃ u, u ∈ cone.next ∧ g.Steps adj u v := by
  have hchild : ∀ (children : List (Str × F64)) (cut : IdSet),
      v ∈ children.foldl (fun cut child ↦
        if g.isOrphan child.1 || cone.depth.contains child.1 then cut else cut.insert child.1 ()) cut ↔
      v ∈ cut ∨ cone.depth[v]? = none ∧ v ∈ children.map Prod.fst ∧ g.isOrphan v = false := by
    intro children
    induction children with
    | nil => intro cut; simp
    | cons child children ih =>
      intro cut
      rw [List.foldl_cons, ih, List.map_cons, List.mem_cons, SortedMap.getElem?_eq_none_iff]
      by_cases hskip : (g.isOrphan child.1 || cone.depth.contains child.1) = true
      · rw [if_pos hskip]
        rw [Bool.or_eq_true] at hskip
        refine or_congr_right (and_congr_right fun hout ↦ and_congr_left fun hlive ↦
          ⟨.inr, fun h ↦ h.resolve_left ?_⟩)
        rintro rfl
        cases hskip with
        | inl horphan => exact Bool.noConfusion (horphan.symm.trans hlive)
        | inr hin => exact hout hin
      · rw [if_neg hskip, mem_insert_iff]
        rw [Bool.or_eq_true, not_or, Bool.not_eq_true] at hskip
        constructor
        · rintro ((rfl | hold) | ⟨hout, hmem, hlive⟩)
          · exact .inr ⟨hskip.2, .inl rfl, hskip.1⟩
          · exact .inl hold
          · exact .inr ⟨hout, .inr hmem, hlive⟩
        · rintro (hold | ⟨hout, rfl | hmem, hlive⟩)
          · exact .inl (.inr hold)
          · exact .inl (.inl rfl)
          · exact .inr ⟨hout, hmem, hlive⟩
  have hparent : ∀ (parents : List Str) (cut : IdSet),
      v ∈ parents.foldl (fun cut parent ↦ (dependencies adj parent).foldl (fun cut child ↦
        if g.isOrphan child.1 || cone.depth.contains child.1 then cut else cut.insert child.1 ())
          cut) cut ↔
      v ∈ cut ∨ cone.depth[v]? = none ∧ ∃ u ∈ parents, g.Steps adj u v := by
    intro parents
    induction parents with
    | nil => intro cut; simp
    | cons parent parents ih =>
      intro cut
      rw [List.foldl_cons, ih, hchild, List.exists_mem_cons_iff, Steps]
      tauto
  rw [cutDeps, hparent]
  have hkeys : ∀ u, u ∈ cone.next.keys ↔ u ∈ cone.next := fun u ↦ Std.ExtTreeMap.mem_keys
  simp only [hkeys, Std.ExtTreeMap.not_mem_empty, false_or]

/-! ## Dependencies -/

/-- An edge along which a node depends on another one that is resident and not dead. -/
def Depends (g : MemoryGraph) (u v : Str) : Prop :=
  (∃ edge ∈ g.edges, edge.edgeType.isDependency = true ∧ edge.source = u ∧ edge.target = v) ∧
    g.isLive v = true

theorem mem_dependencies_iff {u v : Str} : v ∈ (dependencies g.causalAdjacency u).map Prod.fst ↔
    ∃ edge ∈ g.edges, edge.edgeType.isDependency = true ∧ edge.source = u ∧ edge.target = v := by
  let edges := g.edges.filter fun edge ↦ edge.edgeType.isDependency
  let grouped : Std.ExtTreeMap Str (List (Str × F64)) := edges.foldl (fun fwd edge ↦
    fwd.insert edge.source (fwd[edge.source]?.getD [] ++ [(edge.target, edge.weight)])) ∅
  have hgrouped : grouped[u]?.getD [] =
      (edges.filter fun edge ↦ edge.source = u).map fun edge ↦ (edge.target, edge.weight) := by
    refine (getD_foldl_group GraphEdge.source (fun edge ↦ (edge.target, edge.weight)) edges ∅ u).trans ?_
    rw [Std.ExtTreeMap.getElem?_empty, Option.getD_none, List.nil_append]
  have hsorted : ∀ target, target ∈ dependencies g.causalAdjacency u ↔
      target ∈ grouped[u]?.getD [] := by
    intro target
    rw [dependencies, causalAdjacency, Std.ExtTreeMap.getElem?_map]
    change target ∈ (grouped[u]?.map _).getD [] ↔ _
    cases grouped[u]? with
    | none => rfl
    | some targets => exact List.mem_insertionSort _
  rw [List.mem_map]
  simp only [hsorted, hgrouped, List.mem_map, List.mem_filter, decide_eq_true_eq, edges]
  constructor
  · rintro ⟨_, ⟨edge, ⟨⟨hedge, hdep⟩, hsource⟩, rfl⟩, rfl⟩
    exact ⟨edge, hedge, hdep, hsource, rfl⟩
  · rintro ⟨edge, hedge, hdep, hsource, rfl⟩
    exact ⟨_, ⟨edge, ⟨⟨hedge, hdep⟩, hsource⟩, rfl⟩, rfl⟩

theorem isLive_iff {id : Str} : g.isLive id = true ↔ id ∈ g.nodes ∧ g.isOrphan id = false := by
  unfold isLive isOrphan
  cases hnode : g.nodes[id]? with
  | none => exact ⟨Bool.noConfusion, fun h ↦ absurd h.1 (SortedMap.getElem?_eq_none_iff.mp hnode)⟩
  | some node =>
    simp only [bne_iff_ne, beq_eq_false_iff_ne]
    exact (and_iff_right (mem_of_getElem?_eq_some hnode)).symm

theorem steps_eq_depends (hnon : g.NonDangling) : g.Steps g.causalAdjacency = g.Depends := by
  funext u v
  refine propext ?_
  rw [Steps, Depends, mem_dependencies_iff, isLive_iff]
  refine and_congr_right fun hedge ↦ (and_iff_right ?_).symm
  obtain ⟨edge, hmem, _, _, rfl⟩ := hedge
  exact (hnon edge hmem).2

/-! ## The entries -/

theorem role_coneEntry {place : Str × ℕ} {entry : CausalWindowNode}
    (hentry : g.coneEntry seeds cone place = some entry) : entry.role ≠ .caller := by
  obtain ⟨node, _, rfl⟩ := Option.map_eq_some_iff.mp hentry
  simp only []
  split
  · exact CausalRole.noConfusion
  · exact CausalRole.noConfusion

/-- Callers only. -/
def Ring (ring : IdSet × List CausalWindowNode) : Prop := ∀ entry ∈ ring.2, entry.role = .caller

theorem Ring.addCaller {ring : IdSet × List CausalWindowNode} (hring : Ring ring) (place : Str × ℕ)
    (caller : Str) : Ring (g.addCaller decay cone place ring caller) := by
  unfold MemoryGraph.addCaller
  split
  · exact hring
  · split
    · exact hring
    · split
      · exact hring
      · intro entry hentry
        cases List.mem_append.mp hentry with
        | inl hold => exact hring entry hold
        | inr hnew => rw [List.mem_singleton.mp hnew]

theorem role_ringEntries {cfg : CausalFlashConfig} :
    ∀ entry ∈ g.ringEntries adj cfg seeds, entry.role = .caller := by
  unfold ringEntries
  split
  · refine List.foldlRecOn (motive := Ring) _ _ (fun _ hmem ↦ absurd hmem List.not_mem_nil)
      fun ring hring place _ ↦ ?_
    exact List.foldlRecOn (motive := Ring) _ _ hring fun ring hring caller _ ↦
      hring.addCaller place caller
  · exact fun _ hmem ↦ absurd hmem List.not_mem_nil

/-- What is kept when some places are dropped, and what is not. -/
theorem perm_kept_append_dropped {α : Type} (out : List α) (chosen : List (α × ℕ))
    (hchosen : chosen.Subperm out.zipIdx) :
    out.Perm ((out.zipIdx.filter fun place ↦ place.2 ∉ chosen.map Prod.snd).map Prod.fst ++
      chosen.map Prod.fst) := by
  have hindex : (out.zipIdx.map Prod.snd).Nodup := by
    rw [List.zipIdx_map_snd]
    exact List.nodup_range'
  have hnodup : out.zipIdx.Nodup := hindex.of_map
  obtain ⟨sub, hperm, hsub⟩ := hchosen
  have hmem : ∀ place, place ∈ out.zipIdx.filter (fun place ↦ place.2 ∈ chosen.map Prod.snd) ↔
      place ∈ chosen := by
    intro place
    rw [List.mem_filter, decide_eq_true_eq]
    constructor
    · rintro ⟨hplace, hindexed⟩
      obtain ⟨other, hother, hsame⟩ := List.mem_map.mp hindexed
      have hin : other ∈ out.zipIdx := hsub.subset (hperm.mem_iff.mpr hother)
      exact List.inj_on_of_nodup_map hindex hin hplace hsame ▸ hother
    · intro hplace
      exact ⟨hsub.subset (hperm.mem_iff.mpr hplace), List.mem_map_of_mem hplace⟩
  have hdropped : (out.zipIdx.filter fun place ↦ place.2 ∈ chosen.map Prod.snd).Perm chosen :=
    (List.perm_ext_iff_of_nodup (hnodup.filter _) (hperm.nodup_iff.mp (hnodup.sublist hsub))).mpr hmem
  have hsplit := List.filter_append_perm (fun place : α × ℕ ↦ place.2 ∉ chosen.map Prod.snd) out.zipIdx
  have hrest : (out.zipIdx.filter fun place ↦ !decide (place.2 ∉ chosen.map Prod.snd)) =
      out.zipIdx.filter fun place ↦ place.2 ∈ chosen.map Prod.snd :=
    List.filter_congr fun place _ ↦ by simp only [decide_not, Bool.not_not]
  rw [hrest] at hsplit
  have hall := (((List.Perm.refl _).append hdropped.symm).trans hsplit).map Prod.fst
  rw [List.zipIdx_map_fst, List.map_append] at hall
  exact hall.symm

/-! ## Windows -/

/-- The chosen places of the callers that a cap drops. -/
theorem exists_droppedCallers (maxNodes : Option ℕ) (out : List CausalWindowNode) :
    ∃ chosen : List (CausalWindowNode × ℕ), droppedCallers maxNodes out = chosen.map Prod.snd ∧
      chosen.Subperm out.zipIdx ∧ (∀ place ∈ chosen, place.1.role = .caller) ∧
      (maxNodes = none → chosen = []) := by
  have hnone : ∀ place ∈ ([] : List (CausalWindowNode × ℕ)), place.1.role = .caller :=
    fun _ hplace ↦ absurd hplace List.not_mem_nil
  unfold droppedCallers
  split
  · exact ⟨[], rfl, List.nil_subperm, hnone, fun _ ↦ rfl⟩
  · split
    · exact ⟨[], rfl, List.nil_subperm, hnone, fun _ ↦ rfl⟩
    · have hsorted : (List.insertionSort CausalWindowNode.DropsBefore
          (out.zipIdx.filter fun place ↦ place.1.role = .caller)).Perm
          (out.zipIdx.filter fun place ↦ place.1.role = .caller) := List.perm_insertionSort _ _
      refine ⟨_, rfl, ?_, fun place hplace ↦ ?_, fun hcap ↦ absurd hcap (Option.some_ne_none _)⟩
      · exact ((List.take_sublist _ _).subperm.trans hsorted.subperm).trans
          List.filter_sublist.subperm
      · have hcaller := List.mem_filter.mp (hsorted.mem_iff.mp (List.mem_of_mem_take hplace))
        exact of_decide_eq_true hcaller.2

theorem exists_dropped (cfg : CausalFlashConfig) :
    ∃ dropped : List CausalWindowNode, (∀ entry ∈ dropped, entry.role = .caller) ∧
      (cfg.maxNodes = none → dropped = []) ∧
      (g.coneEntries adj cfg seeds ++ g.ringEntries adj cfg seeds).Perm
        ((g.coneCore adj cfg seeds).nodes ++ dropped) ∧
      (g.coneCore adj cfg seeds).omitted =
        (if 0 < cfg.horizon then g.cutDeps adj (g.coneOf adj cfg seeds) else ∅).size +
          dropped.length := by
  have hsorted := List.perm_insertionSort CausalWindowNode.ReadsBefore
    (g.coneEntries adj cfg seeds ++ g.ringEntries adj cfg seeds)
  obtain ⟨chosen, hplaces, hsub, hcallers, hnone⟩ := exists_droppedCallers cfg.maxNodes
    ((g.coneEntries adj cfg seeds ++ g.ringEntries adj cfg seeds).insertionSort
      CausalWindowNode.ReadsBefore)
  refine ⟨chosen.map Prod.fst, fun entry hentry ↦ ?_, fun hcap ↦ ?_, hsorted.symm.trans ?_, ?_⟩
  · obtain ⟨place, hplace, rfl⟩ := List.mem_map.mp hentry
    exact hcallers place hplace
  · rw [hnone hcap, List.map_nil]
  · rw [coneCore]
    simp only [hplaces]
    exact perm_kept_append_dropped _ chosen hsub
  · rw [coneCore]
    simp only [hplaces, List.length_map]

/-- The window over the adjacency of the graph itself. -/
def window (g : MemoryGraph) (cfg : CausalFlashConfig) (seedIds : List Str) : CausalWindow :=
  g.causalFlashWindowWith g.causalAdjacency cfg seedIds

def LiveSeed (g : MemoryGraph) (seedIds : List Str) (id : Str) : Prop :=
  id ∈ seedIds ∧ g.isLive id = true

/-- The dependencies of the included nodes that are left out. -/
def leftOut (g : MemoryGraph) (w : CausalWindow) : Set Str :=
  {v | (∃ u d, w.Includes u d ∧ g.Depends u v) ∧ ∀ d, ¬ w.Includes v d}

/-- What a window promises: the exact cone, an honest flag and an honest count. -/
structure WindowExact (g : MemoryGraph) (cfg : CausalFlashConfig) (seedIds : List Str) : Prop where
  cone : ∀ id d, (g.window cfg seedIds).Includes id d ↔
    d ≤ cfg.horizon ∧ IsDistance g.Depends (g.LiveSeed seedIds) id d
  complete : (g.window cfg seedIds).complete = true ↔ g.leftOut (g.window cfg seedIds) = ∅
  omitted : ∃ dropped : List CausalWindowNode, (∀ entry ∈ dropped, entry.role = .caller) ∧
    (g.window { cfg with maxNodes := none } seedIds).nodes.Perm
      ((g.window cfg seedIds).nodes ++ dropped) ∧
    (g.window cfg seedIds).omitted = (g.leftOut (g.window cfg seedIds)).ncard + dropped.length

variable {cfg : CausalFlashConfig} {seedIds : List Str}

theorem mem_idSet_iff {ids : List Str} {id : Str} : id ∈ idSet ids ↔ id ∈ ids := by
  have hfold : ∀ (ids : List Str) (set : IdSet),
      id ∈ ids.foldl (fun ids id ↦ ids.insert id ()) set ↔ id ∈ ids ∨ id ∈ set := by
    intro ids
    induction ids with
    | nil => exact fun set ↦ (or_iff_right List.not_mem_nil).symm
    | cons first ids ih =>
      intro set
      rw [List.foldl_cons, ih, mem_insert_iff, List.mem_cons]
      tauto
  rw [idSet, hfold]
  exact or_iff_left Std.ExtTreeMap.not_mem_empty

theorem liveSeed_eq : (· ∈ idSet (seedIds.filter g.isLive)) = g.LiveSeed seedIds := by
  funext id
  exact propext (mem_idSet_iff.trans List.mem_filter)

/-- What has a distance is resident and not dead. -/
theorem isLive_of_isDistance {id : Str} (hdist : IsDistance g.Depends (g.LiveSeed seedIds) id d) :
    g.isLive id = true := by
  cases d with
  | zero => exact (isDistance_zero_iff.mp hdist).2
  | succ d =>
    obtain ⟨_, _, hedge⟩ := hdist.exists_pred
    exact hedge.2

/-- The cone of a window. -/
def windowCone (g : MemoryGraph) (cfg : CausalFlashConfig) (seedIds : List Str) : Cone :=
  g.coneOf g.causalAdjacency cfg (idSet (seedIds.filter g.isLive))

theorem layered_windowCone (hnon : g.NonDangling) : Layered g.Depends (g.LiveSeed seedIds)
    cfg.horizon (fun v ↦ (g.windowCone cfg seedIds).depth[v]?)
    (· ∈ (g.windowCone cfg seedIds).next) := by
  have hfound := @Found.layers g g.causalAdjacency cfg.hopDecay _ 0
    (idSet (seedIds.filter g.isLive)) found_seedCone cfg.horizon
  rw [Found, steps_eq_depends hnon, liveSeed_eq, Nat.zero_add] at hfound
  exact hfound

theorem includes_iff (hnon : g.NonDangling) {id : Str} : (g.window cfg seedIds).Includes id d ↔
    (g.windowCone cfg seedIds).depth[id]? = some d := by
  obtain ⟨dropped, hcallers, _, hperm, _⟩ := @exists_dropped g g.causalAdjacency
    (idSet (seedIds.filter g.isLive)) cfg
  constructor
  · rintro ⟨entry, hentry, hrole, rfl, rfl⟩
    have hmem := hperm.mem_iff.mpr (List.mem_append_left dropped hentry)
    cases List.mem_append.mp hmem with
    | inl hcone =>
      obtain ⟨place, hplace, hplaced⟩ := List.mem_filterMap.mp hcone
      obtain ⟨node, _, rfl⟩ := Option.map_eq_some_iff.mp hplaced
      exact Std.ExtTreeMap.mem_toList_iff_getElem?_eq_some.mp hplace
    | inr hring => exact absurd (role_ringEntries entry hring) hrole
  · intro hdepth
    have hlive := isLive_of_isDistance (((layered_windowCone hnon).depth_iff id d).mp hdepth).2
    obtain ⟨node, hnode⟩ := exists_getElem?_of_mem (isLive_iff.mp hlive).1
    obtain ⟨entry, hplaced, hid, hd⟩ : ∃ entry, g.coneEntry (idSet (seedIds.filter g.isLive))
        (g.windowCone cfg seedIds) (id, d) = some entry ∧ entry.id = id ∧ entry.depth = d := by
      rw [coneEntry, hnode]
      exact ⟨_, rfl, rfl, rfl⟩
    have hmem : entry ∈ g.coneEntries g.causalAdjacency cfg (idSet (seedIds.filter g.isLive)) :=
      List.mem_filterMap.mpr
        ⟨(id, d), Std.ExtTreeMap.mem_toList_iff_getElem?_eq_some.mpr hdepth, hplaced⟩
    refine ⟨entry, ?_, role_coneEntry hplaced, hid, hd⟩
    refine (List.mem_append.mp (hperm.mem_iff.mp (List.mem_append_left _ hmem))).resolve_right ?_
    exact fun hdropped ↦ role_coneEntry hplaced (hcallers entry hdropped)

/-- What a cone leaves out is what its last layer depends on outside of it. -/
theorem mem_leftOut_iff (hnon : g.NonDangling) {v : Str} :
    v ∈ g.leftOut (g.window cfg seedIds) ↔
      v ∈ g.cutDeps g.causalAdjacency (g.windowCone cfg seedIds) := by
  have hcut := (@layered_windowCone g cfg seedIds hnon).cut_iff (v := v)
  have hout : (∀ d, ¬ (g.window cfg seedIds).Includes v d) ↔
      (g.windowCone cfg seedIds).depth[v]? = none := by
    rw [Option.eq_none_iff_forall_ne_some]
    exact forall_congr' fun d ↦ not_congr (includes_iff hnon)
  have hin : ∀ u, (∃ d, (g.window cfg seedIds).Includes u d) ↔
      (g.windowCone cfg seedIds).depth[u]? ≠ none := by
    intro u
    rw [Option.ne_none_iff_exists']
    exact exists_congr fun d ↦ includes_iff hnon
  rw [mem_cutDeps_iff, steps_eq_depends hnon, hcut, and_comm, leftOut, Set.mem_ofPred_eq, hout]
  refine and_congr_left fun _ ↦ exists_congr fun u ↦ ?_
  rw [exists_and_right, hin]

/-- What a window at a positive horizon counts is what it leaves out. -/
theorem mem_counted_iff (hnon : g.NonDangling)
    (hhonest : 0 < cfg.horizon ∨ ∀ s v, g.LiveSeed seedIds s → g.Depends s v → v ∈ seedIds)
    {v : Str} : v ∈ (if 0 < cfg.horizon then
        g.cutDeps g.causalAdjacency (g.windowCone cfg seedIds) else ∅) ↔
      v ∈ g.leftOut (g.window cfg seedIds) := by
  by_cases hpos : 0 < cfg.horizon
  · rw [if_pos hpos, mem_leftOut_iff hnon]
  · rw [if_neg hpos]
    refine ⟨fun hv ↦ absurd hv Std.ExtTreeMap.not_mem_empty, fun hv ↦ ?_⟩
    have hlayered := @layered_windowCone g cfg seedIds hnon
    have hzero : cfg.horizon = 0 := by omega
    rw [hzero] at hlayered
    rw [mem_leftOut_iff hnon, mem_cutDeps_iff, steps_eq_depends hnon] at hv
    obtain ⟨hnone, u, hu, hedge⟩ := hv
    have hseed := isDistance_zero_iff.mp ((hlayered.frontier_iff u).mp hu)
    have hmember : g.LiveSeed seedIds v :=
      ⟨hhonest.resolve_left hpos u v hseed hedge, hedge.2⟩
    have hdepth := (hlayered.depth_iff v 0).mpr ⟨le_rfl, isDistance_zero_iff.mpr hmember⟩
    rw [hnone] at hdepth
    cases hdepth

theorem size_eq_ncard {set : IdSet} {ids : Set Str} (hmem : ∀ id, id ∈ set ↔ id ∈ ids) :
    set.size = ids.ncard := by
  have hset : ids = (set.keys.toFinset : Set Str) := by
    ext id
    rw [Finset.mem_coe, List.mem_toFinset, Std.ExtTreeMap.mem_keys, hmem]
  rw [hset, Set.ncard_coe_finset, List.toFinset_card_of_nodup (nodup_keys set),
    Std.ExtTreeMap.length_keys]

/-- **Causal windows.**  The cone is exact at every horizon.  The flag and the count are honest
exactly if the horizon is positive or no seed depends on a node that is no seed. -/
theorem windowExact_iff (hnon : g.NonDangling) : g.WindowExact cfg seedIds ↔
    (0 < cfg.horizon ∨ ∀ s v, g.LiveSeed seedIds s → g.Depends s v → v ∈ seedIds) := by
  have hcone : ∀ id d, (g.window cfg seedIds).Includes id d ↔
      d ≤ cfg.horizon ∧ IsDistance g.Depends (g.LiveSeed seedIds) id d := fun id d ↦
    (includes_iff hnon).trans ((layered_windowCone hnon).depth_iff id d)
  constructor
  · intro hexact
    by_cases hpos : 0 < cfg.horizon
    · exact .inl hpos
    · refine .inr fun s v hs hedge ↦ ?_
      by_contra hv
      have hzero : cfg.horizon = 0 := by omega
      have hcomplete : (g.window cfg seedIds).complete = true := by
        rw [window, causalFlashWindowWith, coneCore, if_neg hpos]
        rfl
      have hleft : v ∈ g.leftOut (g.window cfg seedIds) := by
        refine ⟨⟨s, 0, (hcone s 0).mpr ⟨Nat.zero_le _, isDistance_zero_iff.mpr hs⟩, hedge⟩, ?_⟩
        intro d hd
        obtain ⟨hle, hdist⟩ := (hcone v d).mp hd
        have hd : d = 0 := by omega
        rw [hd] at hdist
        exact hv (isDistance_zero_iff.mp hdist).1
      rw [hexact.complete.mp hcomplete] at hleft
      exact hleft
  · intro hhonest
    have hcounted := @mem_counted_iff g cfg seedIds hnon hhonest
    refine ⟨hcone, ?_, ?_⟩
    · have hflag : (g.window cfg seedIds).complete = true ↔
          ∀ v, v ∉ (if 0 < cfg.horizon then
            g.cutDeps g.causalAdjacency (g.windowCone cfg seedIds) else ∅) :=
        Std.ExtTreeMap.isEmpty_iff.trans Std.ExtTreeMap.eq_empty_iff_forall_not_mem
      rw [hflag, Set.eq_empty_iff_forall_notMem]
      exact forall_congr' fun v ↦ not_congr hcounted
    · obtain ⟨dropped, hcallers, _, hperm, homitted⟩ := @exists_dropped g g.causalAdjacency
        (idSet (seedIds.filter g.isLive)) cfg
      obtain ⟨_, _, hnone, hall, _⟩ := @exists_dropped g g.causalAdjacency
        (idSet (seedIds.filter g.isLive)) { cfg with maxNodes := none }
      rw [hnone rfl, List.append_nil] at hall
      refine ⟨dropped, hcallers, hall.symm.trans hperm, ?_⟩
      rw [← size_eq_ncard fun v ↦ hcounted]
      exact homitted

/-! ## A seed with a dependency -/

/-- A node that depends on another one. -/
def loneDependency : MemoryGraph :=
  let node (id : Str) : GraphNode := freshNode id [] [] .unknown 0
  { MemoryGraph.new 2 with
    nodes := (Std.ExtTreeMap.empty.insert ['a'] (node ['a'])).insert ['b'] (node ['b'])
    edges := [{ source := ['a'], target := ['b'], weight := .finite 1, edgeType := .dependsOn
                createdAt := 0 }] }

def bareConfig (horizon : ℕ) : CausalFlashConfig where
  horizon := horizon
  includeLowTrustSeeds := false
  trustThreshold := .finite (1 / 2)
  decay := .finite (1 / 2)
  includeCallers := false
  maxNodes := none

theorem windowExact_loneDependency : loneDependency.WindowExact (bareConfig 1) [['a']] :=
  (windowExact_iff (by decide)).mpr (.inl Nat.one_pos)

/-- At horizon zero the window of a seed is complete although its dependency is left out. -/
theorem not_all_windowExact : ¬ ∀ (g : MemoryGraph) (cfg : CausalFlashConfig) (seedIds : List Str),
    g.NonDangling → g.WindowExact cfg seedIds := by
  intro hall
  have hexact := hall loneDependency (bareConfig 0) [['a']] (by decide)
  have hcomplete : (loneDependency.window (bareConfig 0) [['a']]).complete = true := by
    decide +kernel
  have hseed : ∃ entry ∈ (loneDependency.window (bareConfig 0) [['a']]).nodes,
      entry.role ≠ .caller ∧ entry.id = ['a'] ∧ entry.depth = 0 := by
    decide +kernel
  have hothers : ∀ entry ∈ (loneDependency.window (bareConfig 0) [['a']]).nodes,
      entry.id ≠ ['b'] := by
    decide +kernel
  have hedge : loneDependency.Depends ['a'] ['b'] :=
    ⟨⟨_, List.mem_singleton.mpr rfl, rfl, rfl, rfl⟩, by decide +kernel⟩
  have hleft : ['b'] ∈ loneDependency.leftOut (loneDependency.window (bareConfig 0) [['a']]) := by
    refine ⟨⟨['a'], 0, hseed, hedge⟩, fun d hd ↦ ?_⟩
    obtain ⟨entry, hentry, _, hid, _⟩ := hd
    exact hothers entry hentry hid
  rw [hexact.complete.mp hcomplete] at hleft
  exact hleft

end MemoryGraph

end SoulSystem.Ccos.Memory
