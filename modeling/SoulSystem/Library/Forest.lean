import Mathlib.Tactic

/-!
# Forests with links both ways

Every node names its parent and lists its children.  In a forest the two kinds of links mirror each
other without repetition, and a rank that grows from parent to child excludes cycles.  A new root
and a list of new children keep a forest a forest.
-/

namespace SoulSystem.Library

open List Function

/-- The links of one node. -/
structure NodeLinks (α : Type*) where
  parent : Option α
  children : List α

/-- The links of each node, and none for what is not a node. -/
abbrev LinkTable (α : Type*) := α → Option (NodeLinks α)

namespace LinkTable

variable {α : Type*}

/-- `p` is the parent of `c`. -/
def IsParent (links : LinkTable α) (p c : α) : Prop := ∃ l, links c = some l ∧ l.parent = some p

/-- A forest whose ranks are below a bound. -/
structure IsForest (links : LinkTable α) (rank : α → ℕ) (bound : ℕ) : Prop where
  nodup : ∀ x l, links x = some l → l.children.Nodup
  child : ∀ x l, links x = some l → ∀ c ∈ l.children, IsParent links x c
  parent : ∀ p c, IsParent links p c → ∃ l, links p = some l ∧ c ∈ l.children
  rank_lt : ∀ p c, IsParent links p c → rank p < rank c
  rank_lt_bound : ∀ x, (links x).isSome → rank x < bound

/-- The two kinds of links mirror each other. -/
structure Mirrored (links : LinkTable α) : Prop where
  child : ∀ x l, links x = some l → ∀ c ∈ l.children, IsParent links x c
  parent : ∀ p c, IsParent links p c → ∃ l, links p = some l ∧ c ∈ l.children

variable {links : LinkTable α} {rank : α → ℕ} {bound : ℕ}

theorem IsForest.mirrored (hforest : IsForest links rank bound) : Mirrored links :=
  ⟨hforest.child, hforest.parent⟩

theorem IsParent.unique {p q c : α} (hp : IsParent links p c) (hq : IsParent links q c) : p = q := by
  obtain ⟨l, hl, hlp⟩ := hp
  obtain ⟨l', hl', hlq⟩ := hq
  rw [Option.some.inj (hl.symm.trans hl')] at hlp
  exact Option.some.inj (hlp.symm.trans hlq)

namespace IsForest

theorem rank_lt_of_transGen (hforest : IsForest links rank bound) {a b : α}
    (hpath : Relation.TransGen (IsParent links) a b) : rank a < rank b := by
  induction hpath with
  | single hparent => exact hforest.rank_lt _ _ hparent
  | tail _ hparent ih => exact ih.trans (hforest.rank_lt _ _ hparent)

/-- The parent relation has no cycle. -/
theorem acyclic (hforest : IsForest links rank bound) (x : α) :
    ¬ Relation.TransGen (IsParent links) x x :=
  fun hcycle ↦ lt_irrefl _ (hforest.rank_lt_of_transGen hcycle)

theorem isSome_of_child (hforest : IsForest links rank bound) {x c : α} {l : NodeLinks α}
    (hl : links x = some l) (hc : c ∈ l.children) : (links c).isSome := by
  obtain ⟨lc, hlc, _⟩ := hforest.child x l hl c hc
  exact Option.isSome_of_eq_some hlc

theorem empty (rank : α → ℕ) (bound : ℕ) : IsForest (fun _ ↦ none) rank bound where
  nodup _ _ hl := nomatch hl
  child _ _ hl := nomatch hl
  parent _ _ hparent := nomatch hparent.choose_spec.1
  rank_lt _ _ hparent := nomatch hparent.choose_spec.1
  rank_lt_bound _ hx := nomatch hx

/-! ## New nodes -/

variable [DecidableEq α]

/-- The links after a new root. -/
def withRoot (links : LinkTable α) (x : α) : LinkTable α :=
  update links x (some ⟨none, []⟩)

/-- The links after a node has taken new children. -/
def adopt (links : LinkTable α) (p : α) (new : List α) : LinkTable α := fun x ↦
  if x ∈ new then some ⟨some p, []⟩
  else if x = p then (links p).map fun l ↦ { l with children := l.children ++ new }
  else links x

theorem isParent_withRoot {x p c : α} (hx : links x = none) :
    IsParent (withRoot links x) p c ↔ IsParent links p c := by
  by_cases heq : c = x
  · subst heq
    simp [IsParent, withRoot, hx]
  · simp [IsParent, withRoot, update_of_ne heq]

theorem withRoot_links {x : α} (hforest : IsForest links rank bound) (hx : links x = none) :
    IsForest (withRoot links x) (update rank x bound) (bound + 1) where
  nodup y l hl := by
    by_cases heq : y = x
    · rw [heq, withRoot, update_self] at hl
      rw [← Option.some.inj hl]
      exact nodup_nil
    · rw [withRoot, update_of_ne heq] at hl
      exact hforest.nodup y l hl
  child y l hl c hc := by
    rw [isParent_withRoot hx]
    by_cases heq : y = x
    · rw [heq, withRoot, update_self] at hl
      rw [← Option.some.inj hl] at hc
      exact absurd hc not_mem_nil
    · rw [withRoot, update_of_ne heq] at hl
      exact hforest.child y l hl c hc
  parent p c hparent := by
    rw [isParent_withRoot hx] at hparent
    obtain ⟨l, hl, hc⟩ := hforest.parent p c hparent
    have hne : p ≠ x := fun heq ↦ nomatch (heq ▸ hl).symm.trans hx
    exact ⟨l, by rw [withRoot, update_of_ne hne, hl], hc⟩
  rank_lt p c hparent := by
    rw [isParent_withRoot hx] at hparent
    obtain ⟨l, hl, hc⟩ := hforest.parent p c hparent
    have hp : p ≠ x := fun heq ↦ nomatch (heq ▸ hl).symm.trans hx
    have hc' : c ≠ x := by
      obtain ⟨lc, hlc, _⟩ := hparent
      exact fun heq ↦ nomatch (heq ▸ hlc).symm.trans hx
    rw [update_of_ne hp, update_of_ne hc']
    exact hforest.rank_lt p c hparent
  rank_lt_bound y hy := by
    by_cases heq : y = x
    · rw [heq, update_self]
      exact Nat.lt_succ_self bound
    · rw [withRoot, update_of_ne heq] at hy
      rw [update_of_ne heq]
      exact (hforest.rank_lt_bound y hy).trans (Nat.lt_succ_self bound)

section Adopt

variable {p : α} {new : List α} {lp : NodeLinks α}

theorem adopt_of_new {x : α} (hx : x ∈ new) : adopt links p new x = some ⟨some p, []⟩ :=
  if_pos hx

theorem adopt_self (hp : links p = some lp) (hnew : ∀ x ∈ new, links x = none) :
    adopt links p new p = some { lp with children := lp.children ++ new } := by
  have hnot : p ∉ new := fun hmem ↦ nomatch hp.symm.trans (hnew p hmem)
  rw [adopt, if_neg hnot, if_pos rfl, hp, Option.map_some]

theorem adopt_of_ne {x : α} (hx : x ∉ new) (hne : x ≠ p) : adopt links p new x = links x := by
  rw [adopt, if_neg hx, if_neg hne]

theorem isParent_adopt (hp : links p = some lp) (hnew : ∀ x ∈ new, links x = none) {q c : α} :
    IsParent (adopt links p new) q c ↔ (c ∈ new ∧ q = p) ∨ IsParent links q c := by
  by_cases hc : c ∈ new
  · simp [IsParent, adopt_of_new hc, hc, hnew c hc, eq_comm]
  · by_cases heq : c = p
    · subst heq
      simp [IsParent, adopt_self hp hnew, hc, hp]
    · simp [IsParent, adopt_of_ne hc heq, hc]

/-- New children keep the links mirrored. -/
theorem mirrored_adopt (hmirrored : Mirrored links) (hp : links p = some lp)
    (hnew : ∀ x ∈ new, links x = none) : Mirrored (adopt links p new) where
  child x l hl c hc := by
    rw [isParent_adopt hp hnew]
    by_cases hx : x ∈ new
    · rw [adopt_of_new hx] at hl
      rw [← Option.some.inj hl] at hc
      exact absurd hc not_mem_nil
    · by_cases heq : x = p
      · rw [heq, adopt_self hp hnew] at hl
        rw [← Option.some.inj hl] at hc
        cases List.mem_append.mp hc with
        | inl hold => exact Or.inr (heq ▸ hmirrored.child p lp hp c hold)
        | inr hadded => exact Or.inl ⟨hadded, heq⟩
      · rw [adopt_of_ne hx heq] at hl
        exact Or.inr (hmirrored.child x l hl c hc)
  parent q c hparent := by
    rw [isParent_adopt hp hnew] at hparent
    cases hparent with
    | inl hadded =>
      rw [hadded.2]
      exact ⟨_, adopt_self hp hnew, mem_append_right _ hadded.1⟩
    | inr hold =>
      obtain ⟨l, hl, hc⟩ := hmirrored.parent q c hold
      by_cases heq : q = p
      · subst heq
        rw [Option.some.inj (hl.symm.trans hp)] at hc
        exact ⟨_, adopt_self hp hnew, mem_append_left _ hc⟩
      · have hq : q ∉ new := fun hmem ↦ nomatch hl.symm.trans (hnew q hmem)
        exact ⟨l, by rw [adopt_of_ne hq heq, hl], hc⟩

/-- New children keep a forest a forest. -/
theorem adopt_links (hforest : IsForest links rank bound) (hp : links p = some lp)
    (hnew : ∀ x ∈ new, links x = none) (hnodup : new.Nodup) :
    IsForest (adopt links p new) (fun x ↦ if x ∈ new then bound else rank x)
      (bound + new.length) where
  nodup x l hl := by
    by_cases hx : x ∈ new
    · rw [adopt_of_new hx] at hl
      rw [← Option.some.inj hl]
      exact nodup_nil
    · by_cases heq : x = p
      · rw [heq, adopt_self hp hnew] at hl
        rw [← Option.some.inj hl]
        apply List.nodup_append.mpr
        refine ⟨hforest.nodup p lp hp, hnodup, fun a ha b hb hab ↦ ?_⟩
        have hold := hforest.isSome_of_child hp ha
        rw [hab, hnew b hb] at hold
        exact nomatch hold
      · rw [adopt_of_ne hx heq] at hl
        exact hforest.nodup x l hl
  child := (mirrored_adopt hforest.mirrored hp hnew).child
  parent := (mirrored_adopt hforest.mirrored hp hnew).parent
  rank_lt q c hparent := by
    rw [isParent_adopt hp hnew] at hparent
    cases hparent with
    | inl hadded =>
      have hnot : p ∉ new := fun hmem ↦ nomatch hp.symm.trans (hnew p hmem)
      rw [hadded.2, if_neg hnot, if_pos hadded.1]
      exact hforest.rank_lt_bound p (Option.isSome_of_eq_some hp)
    | inr hold =>
      obtain ⟨l, hl, _⟩ := hforest.parent q c hold
      obtain ⟨lc, hlc, _⟩ := id hold
      have hq : q ∉ new := fun hmem ↦ nomatch hl.symm.trans (hnew q hmem)
      have hc : c ∉ new := fun hmem ↦ nomatch hlc.symm.trans (hnew c hmem)
      rw [if_neg hq, if_neg hc]
      exact hforest.rank_lt q c hold
  rank_lt_bound x hx := by
    by_cases hmem : x ∈ new
    · rw [if_pos hmem]
      exact Nat.lt_add_of_pos_right (length_pos_of_mem hmem)
    · have hold : (links x).isSome := by
        by_cases heq : x = p
        · rw [heq, hp]
          rfl
        · rwa [adopt_of_ne hmem heq] at hx
      rw [if_neg hmem]
      exact (hforest.rank_lt_bound x hold).trans_le (Nat.le_add_right _ _)

end Adopt

end IsForest

end LinkTable

end SoulSystem.Library
