import Mathlib.Data.List.OfFn
import Mathlib.Data.List.Nodup
import Mathlib.Tactic

/-!
# Labellings and the partitions they name

The distinct elements of a list, in the order in which they first occur, number the elements of the
list.  The numbers depend only on which elements are equal, so they name the parts of a partition in
a canonical way.

A labelling of some points names a partition: two points are in one cluster if they have the same
label.  A partial labelling whose labels are the first so many numbers is extended point by point.
Up to names, every partition that extends it is reached if the next point takes each of the labels
and one new one, so no other label has to be tried.
-/

namespace SoulSystem.Library.FirstOccurrence

open Function

variable {α β : Type*} [DecidableEq α] [DecidableEq β]

/-- One more element at the end, if it is new. -/
def note (seen : List α) (a : α) : List α := if a ∈ seen then seen else seen ++ [a]

/-- The distinct elements in the order in which they first occur. -/
def firsts (as : List α) : List α := as.foldl note []

/-- The elements replaced by their numbers in the order of first occurrence. -/
def numbered (as : List α) : List ℕ := as.map fun a ↦ (firsts as).idxOf a

/-! ## The distinct elements -/

theorem mem_note {seen : List α} {a b : α} : b ∈ note seen a ↔ b ∈ seen ∨ b = a := by
  unfold note
  split_ifs with hseen
  · constructor
    · exact .inl
    · intro hor
      rcases hor with hmem | heq
      · exact hmem
      · rwa [heq]
  · rw [List.mem_append, List.mem_singleton]

theorem nodup_note {seen : List α} (hseen : seen.Nodup) (a : α) : (note seen a).Nodup := by
  unfold note
  split_ifs with hmem
  · exact hseen
  · exact List.nodup_append.mpr ⟨hseen, List.nodup_singleton a, fun b hb c hc heq ↦
      hmem (by rwa [← List.mem_singleton.mp hc, ← heq])⟩

theorem mem_foldl_note {as seen : List α} {b : α} :
    b ∈ as.foldl note seen ↔ b ∈ seen ∨ b ∈ as := by
  induction as generalizing seen with
  | nil => simp
  | cons a as ih => rw [List.foldl_cons, ih, mem_note, List.mem_cons, or_assoc]

theorem nodup_foldl_note {as seen : List α} (hseen : seen.Nodup) :
    (as.foldl note seen).Nodup := by
  induction as generalizing seen with
  | nil => exact hseen
  | cons a as ih => exact ih (nodup_note hseen a)

theorem prefix_foldl_note (as seen : List α) : seen <+: as.foldl note seen := by
  induction as generalizing seen with
  | nil => exact List.prefix_rfl
  | cons a as ih =>
    refine List.IsPrefix.trans ?_ (ih (note seen a))
    unfold note
    split_ifs
    · exact List.prefix_rfl
    · exact List.prefix_append seen [a]

theorem mem_firsts {as : List α} {a : α} : a ∈ firsts as ↔ a ∈ as := by
  rw [firsts, mem_foldl_note]
  simp

theorem nodup_firsts (as : List α) : (firsts as).Nodup := nodup_foldl_note List.nodup_nil

theorem idxOf_eq_of_append {as bs : List α} {a : α} (hstart : as <+: bs) (ha : a ∈ as) :
    bs.idxOf a = as.idxOf a := by
  obtain ⟨rest, rfl⟩ := hstart
  exact List.idxOf_append_of_mem ha

/-! ## Renaming -/

/-- A function that keeps the elements of a list apart. -/
def Separates (f : α → β) (as : List α) : Prop := ∀ a ∈ as, ∀ b ∈ as, f a = f b → a = b

theorem foldl_note_map {f : α → β} {as seen : List α} (hf : Separates f (seen ++ as)) :
    (as.map f).foldl note (seen.map f) = (as.foldl note seen).map f := by
  induction as generalizing seen with
  | nil => rfl
  | cons a as ih =>
    have hmem : f a ∈ seen.map f ↔ a ∈ seen := by
      constructor
      · intro hmap
        obtain ⟨b, hb, heq⟩ := List.mem_map.mp hmap
        have hba := hf b (List.mem_append_left _ hb) a
          (List.mem_append_right _ List.mem_cons_self) heq
        rwa [← hba]
      · exact List.mem_map_of_mem
    have hnote : note (seen.map f) (f a) = (note seen a).map f := by
      unfold note
      by_cases hseen : a ∈ seen
      · rw [if_pos hseen, if_pos (hmem.mpr hseen)]
      · rw [if_neg hseen, if_neg (mt hmem.mp hseen), List.map_append, List.map_singleton]
    have hrest : Separates f (note seen a ++ as) := by
      have hsub : ∀ b ∈ note seen a ++ as, b ∈ seen ++ a :: as := by
        intro b hb
        rw [List.mem_append, mem_note, or_assoc] at hb
        rwa [List.mem_append, List.mem_cons]
      exact fun b hb c hc ↦ hf b (hsub b hb) c (hsub c hc)
    rw [List.map_cons, List.foldl_cons, List.foldl_cons, hnote, ih hrest]

theorem firsts_map {f : α → β} {as : List α} (hf : Separates f as) :
    firsts (as.map f) = (firsts as).map f := by
  have hempty : Separates f ([] ++ as) := hf
  exact foldl_note_map hempty

theorem idxOf_map {f : α → β} {as : List α} {a : α} (hf : ∀ b ∈ as, f b = f a → b = a) :
    (as.map f).idxOf (f a) = as.idxOf a := by
  induction as with
  | nil => rfl
  | cons b as ih =>
    rw [List.forall_mem_cons] at hf
    rw [List.map_cons, List.idxOf_cons, List.idxOf_cons, ih hf.2]
    by_cases heq : b = a
    · rw [heq, beq_self_eq_true, beq_self_eq_true]
    · rw [beq_eq_false_iff_ne.mpr heq, beq_eq_false_iff_ne.mpr (mt hf.1 heq)]

/-- **Numbers do not depend on the names** of the elements. -/
theorem numbered_map {f : α → β} {as : List α} (hf : Separates f as) :
    numbered (as.map f) = numbered as := by
  rw [numbered, numbered, firsts_map hf, List.map_map]
  refine List.map_congr_left fun a ha ↦ ?_
  exact idxOf_map fun b hb ↦ hf b (mem_firsts.mp hb) a ha

theorem numbered_congr {n : ℕ} {c : Fin n → α} {c' : Fin n → β}
    (hsame : ∀ i j, c i = c j ↔ c' i = c' j) :
    numbered (List.ofFn c) = numbered (List.ofFn c') := by
  have hfst : List.ofFn c = (List.ofFn fun i ↦ (c i, c' i)).map Prod.fst := by
    rw [List.map_ofFn]
    rfl
  have hsnd : List.ofFn c' = (List.ofFn fun i ↦ (c i, c' i)).map Prod.snd := by
    rw [List.map_ofFn]
    rfl
  have hpairs : ∀ a ∈ List.ofFn fun i ↦ (c i, c' i), ∃ i, (c i, c' i) = a := by
    intro a ha
    exact (List.mem_ofFn' _ _).mp ha
  rw [hfst, hsnd, numbered_map, numbered_map]
  · intro a ha b hb heq
    obtain ⟨i, rfl⟩ := hpairs a ha
    obtain ⟨j, rfl⟩ := hpairs b hb
    exact Prod.ext ((hsame i j).mpr heq) heq
  · intro a ha b hb heq
    obtain ⟨i, rfl⟩ := hpairs a ha
    obtain ⟨j, rfl⟩ := hpairs b hb
    exact Prod.ext heq ((hsame i j).mp heq)

/-! ## The numbers -/

theorem separates_idxOf (as : List α) : Separates (fun a ↦ (firsts as).idxOf a) as := by
  intro a ha b hb heq
  exact (List.idxOf_inj (mem_firsts.mpr ha)).mp heq

theorem numbered_numbered (as : List α) : numbered (numbered as) = numbered as :=
  numbered_map (separates_idxOf as)

/-- The numbers first occur in their order. -/
theorem firsts_numbered (as : List α) : firsts (numbered as) = List.range (firsts as).length := by
  rw [numbered, firsts_map (separates_idxOf as)]
  refine List.ext_getElem (by rw [List.length_map, List.length_range]) fun i hi _ ↦ ?_
  rw [List.getElem_map, List.getElem_range]
  exact (nodup_firsts as).idxOf_getElem i _

end SoulSystem.Library.FirstOccurrence

namespace SoulSystem.Library.Labelling

open Finset Function

/-! ## Labellings and the partitions they name -/

variable {ι α β : Type*} [Fintype ι] [DecidableEq ι] [DecidableEq α] [DecidableEq β]

/-- Two labellings name the same partition. -/
def Same (c : ι → α) (c' : ι → β) : Prop := ∀ i j, c i = c j ↔ c' i = c' j

/-- The points with the label of a point. -/
def cluster (c : ι → α) (i : ι) : Finset ι := {j | c j = c i}

/-- The clusters of a labelling. -/
def clusters (c : ι → α) : Finset (Finset ι) := univ.image (cluster c)

/-! ## Clusters -/

omit [DecidableEq ι] in
theorem mem_cluster {c : ι → α} {i j : ι} : j ∈ cluster c i ↔ c j = c i := by
  rw [cluster, mem_filter_univ]

omit [DecidableEq ι] in
theorem cluster_congr {c : ι → α} {c' : ι → β} (hsame : Same c c') : cluster c = cluster c' := by
  funext i
  ext j
  rw [mem_cluster, mem_cluster]
  exact hsame j i

/-- **Clusters do not depend on the labels** that name them. -/
theorem clusters_congr {c : ι → α} {c' : ι → β} (hsame : Same c c') :
    clusters c = clusters c' := by
  rw [clusters, clusters, cluster_congr hsame]

/-- The clusters are the sets of points with a label. -/
theorem clusters_eq_image (c : ι → α) :
    clusters c = (univ.image c).image fun k ↦ ({i | c i = k} : Finset ι) := by
  rw [image_image]
  rfl

omit [DecidableEq ι] in
theorem injOn_label (c : ι → α) :
    Set.InjOn (fun k ↦ ({i | c i = k} : Finset ι)) (univ.image c : Finset α) := by
  intro k hk k' _ heq
  obtain ⟨i, -, rfl⟩ := mem_image.mp (mem_coe.mp hk)
  have hmem : i ∈ ({j | c j = c i} : Finset ι) := mem_filter.mpr ⟨mem_univ i, rfl⟩
  have hsets : ({j | c j = c i} : Finset ι) = ({j | c j = k'} : Finset ι) := heq
  rw [hsets] at hmem
  exact (mem_filter.mp hmem).2

theorem card_clusters (c : ι → α) : (clusters c).card = (univ.image c).card := by
  rw [clusters_eq_image, card_image_of_injOn (injOn_label c)]

theorem sum_clusters {M : Type*} [AddCommMonoid M] (c : ι → α) (f : Finset ι → M) :
    ∑ s ∈ clusters c, f s = ∑ k ∈ univ.image c, f {i | c i = k} := by
  rw [clusters_eq_image, sum_image (injOn_label c)]

/-- A set of points that are pairwise apart has at most one point in each cluster. -/
theorem card_le_clusters {c : ι → α} {s : Finset ι} (hs : Set.InjOn c s) :
    s.card ≤ (clusters c).card := by
  rw [card_clusters, ← card_image_of_injOn hs]
  exact card_le_card (image_subset_image (subset_univ s))

/-! ## Partial labellings -/

/-- A labelling that keeps together and apart what a partial one does. -/
def Extends (p : ι → Option ℕ) (c : ι → α) : Prop :=
  ∀ i j, p i ≠ none → p j ≠ none → (p i = p j ↔ c i = c j)

/-- The labels of a partial labelling are the numbers below a bound. -/
def Contiguous (p : ι → Option ℕ) (used : ℕ) : Prop := ∀ a, (∃ i, p i = some a) ↔ a < used

omit [Fintype ι] [DecidableEq ι] [DecidableEq α] in
theorem extends_none (c : ι → α) : Extends (fun _ ↦ none) c := fun _ _ h ↦ absurd rfl h

omit [Fintype ι] [DecidableEq ι] in
theorem contiguous_none : Contiguous (fun _ : ι ↦ none) 0 := fun a ↦
  iff_of_false (fun ⟨_, h⟩ ↦ Option.some_ne_none a h.symm) (Nat.not_lt_zero a)

omit [Fintype ι] [DecidableEq ι] [DecidableEq α] in
/-- A labelling that extends a complete one names the same partition. -/
theorem Extends.same {p : ι → Option ℕ} {c : ι → α} (hc : Extends p c)
    (hcomplete : ∀ i, p i ≠ none) : Same p c := fun i j ↦ hc i j (hcomplete i) (hcomplete j)

/-- A labelling has at least as many clusters as a partial one that it extends. -/
theorem Extends.used_le {p : ι → Option ℕ} {c : ι → α} {used : ℕ} (hc : Extends p c)
    (hp : Contiguous p used) : used ≤ (clusters c).card := by
  have hpoint : ∀ a : Fin used, ∃ i, p i = some a.val := fun a ↦ (hp a).mpr a.isLt
  choose point hpoint using hpoint
  have hinj : Function.Injective point := by
    intro a b heq
    have hlabels := hpoint b
    rw [← heq, hpoint a] at hlabels
    exact Fin.ext (Option.some_inj.mp hlabels)
  have hcard : (univ.image point).card = used := by
    rw [card_image_of_injective univ hinj, card_univ, Fintype.card_fin]
  rw [← hcard]
  refine card_le_clusters fun i hi j hj heq ↦ ?_
  obtain ⟨a, -, rfl⟩ := mem_image.mp (mem_coe.mp hi)
  obtain ⟨b, -, rfl⟩ := mem_image.mp (mem_coe.mp hj)
  have hlabels := (hc (point a) (point b) (by rw [hpoint]; exact Option.some_ne_none _)
    (by rw [hpoint]; exact Option.some_ne_none _)).mpr heq
  rw [hpoint, hpoint, Option.some_inj] at hlabels
  rw [Fin.ext hlabels]

omit [Fintype ι] in
theorem contiguous_update {p : ι → Option ℕ} {used : ℕ} (hp : Contiguous p used) {i : ι}
    (hi : p i = none) {a : ℕ} (ha : a ≤ used) :
    Contiguous (update p i (some a)) (max used (a + 1)) := by
  intro b
  constructor
  · intro hlabel
    obtain ⟨j, hj⟩ := hlabel
    by_cases hji : j = i
    · rw [hji, update_self, Option.some_inj] at hj
      omega
    · rw [update_of_ne hji] at hj
      have hb := (hp b).mp ⟨j, hj⟩
      omega
  · intro hb
    by_cases hba : b = a
    · exact ⟨i, by rw [hba, update_self]⟩
    · obtain ⟨j, hj⟩ := (hp b).mpr (by omega)
      have hji : j ≠ i := by
        intro heq
        rw [heq, hi] at hj
        exact Option.some_ne_none b hj.symm
      exact ⟨j, by rwa [update_of_ne hji]⟩

omit [Fintype ι] [DecidableEq α] in
/-- **No other label has to be tried**: the next point has one of the labels or the first new
one. -/
theorem Extends.exists_update {p : ι → Option ℕ} {c : ι → α} {used : ℕ} (hc : Extends p c)
    (hp : Contiguous p used) (i : ι) :
    ∃ a ≤ used, Extends (update p i (some a)) c := by
  have hextends : ∀ a : ℕ, (∀ j, p j ≠ none → (p j = some a ↔ c j = c i)) →
      Extends (update p i (some a)) c := by
    intro a ha j k hj hk
    by_cases hji : j = i
    · by_cases hki : k = i
      · rw [hji, hki]
        exact iff_of_true rfl rfl
      · rw [update_of_ne hki] at hk ⊢
        rw [hji, update_self, eq_comm, ha k hk, eq_comm]
    · rw [update_of_ne hji] at hj ⊢
      by_cases hki : k = i
      · rw [hki, update_self, ha j hj]
      · rw [update_of_ne hki] at hk ⊢
        exact hc j k hj hk
  by_cases hmate : ∃ j, p j ≠ none ∧ c j = c i
  · obtain ⟨j, hj, heq⟩ := hmate
    obtain ⟨a, ha⟩ := Option.ne_none_iff_exists'.mp hj
    refine ⟨a, ((hp a).mp ⟨j, ha⟩).le, hextends a fun k hk ↦ ?_⟩
    rw [← ha, hc k j hk hj, heq]
  · refine ⟨used, le_rfl, hextends used fun j hj ↦ iff_of_false ?_ fun heq ↦ hmate ⟨j, hj, heq⟩⟩
    intro hused
    exact absurd ((hp used).mp ⟨j, hused⟩) (lt_irrefl used)

end SoulSystem.Library.Labelling
