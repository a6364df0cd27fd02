import Mathlib.Combinatorics.SimpleGraph.Clique

/-!
# Branch and bound

A search keeps the best value that it has seen.  A stretch of it that is not cut short leaves a
value that none of the leaves in its charge beats.  It may skip a part whose leaves are no better
than what it has.

An enumeration of cliques keeps the candidates that may still be added and the vertices that are
excluded.  It needs to find the cliques that no vertex of either kind extends: every pivot has a
non-neighbour in such a clique, and it remains one when a member is taken out or a candidate that is
no member is excluded.
-/

namespace SoulSystem.Library

variable {β : Type*} [Preorder β]

/-- A stretch of a search from one value to another that has some leaves in its charge. -/
structure Covers (before after : β) (cut : Prop) (leaves : Set β) : Prop where
  le : after ≤ before
  leaf_le : ¬ cut → ∀ x ∈ leaves, after ≤ x

namespace Covers

variable {before mid after : β} {cut cut' : Prop} {leaves leaves' : Set β}

/-- Leaves that are no better need no visit. -/
theorem skip (hbound : ∀ x ∈ leaves, before ≤ x) : Covers before before cut leaves :=
  ⟨le_rfl, fun _ ↦ hbound⟩

/-- A search that is cut short is in charge of nothing. -/
theorem cut_short (hcut : cut) : Covers before before cut leaves :=
  ⟨le_rfl, fun h ↦ absurd hcut h⟩

/-- One stretch after the other. -/
theorem trans (hfirst : Covers before mid cut leaves) (hsecond : Covers mid after cut' leaves')
    (hcut : cut → cut') : Covers before after cut' (leaves ∪ leaves') where
  le := hsecond.le.trans hfirst.le
  leaf_le := by
    intro hrun x hx
    rcases hx with hx | hx
    · exact hsecond.le.trans (hfirst.leaf_le (mt hcut hrun) x hx)
    · exact hsecond.leaf_le hrun x hx

theorem mono (hcovers : Covers before after cut leaves) (hsub : leaves' ⊆ leaves) :
    Covers before after cut leaves' :=
  ⟨hcovers.le, fun hrun x hx ↦ hcovers.leaf_le hrun x (hsub hx)⟩

end Covers

end SoulSystem.Library

namespace SoulSystem.Library.Cliques

variable {V : Type*} {G : SimpleGraph V} {P X : Set V} {C : Finset V} {v : V}

/-- A clique of candidates that no candidate and no excluded vertex extends. -/
structure Saturated (G : SimpleGraph V) (P X : Set V) (C : Finset V) : Prop where
  isClique : G.IsClique C
  subset : ∀ c ∈ C, c ∈ P
  exists_not_adj : ∀ w ∈ P ∪ X, ∃ c ∈ C, ¬ G.Adj w c

/-- The members of such a clique beside one of them, among the neighbours of that one. -/
theorem Saturated.erase [DecidableEq V] (hC : Saturated G P X C) (hv : v ∈ C) :
    Saturated G {w | w ∈ P ∧ G.Adj v w} {w | w ∈ X ∧ G.Adj v w} (C.erase v) where
  isClique := hC.isClique.subset (Finset.coe_subset.mpr (Finset.erase_subset v C))
  subset c hc := by
    obtain ⟨hne, hmem⟩ := Finset.mem_erase.mp hc
    exact ⟨hC.subset c hmem, hC.isClique hv hmem hne.symm⟩
  exists_not_adj w hw := by
    have hadj : G.Adj v w := hw.elim And.right And.right
    have hmem : w ∈ P ∪ X := hw.imp And.left And.left
    obtain ⟨c, hc, hnot⟩ := hC.exists_not_adj w hmem
    refine ⟨c, Finset.mem_erase.mpr ⟨fun hsame ↦ ?_, hc⟩, hnot⟩
    exact hnot (hsame ▸ hadj.symm)

/-- A candidate that is no member may be excluded. -/
theorem Saturated.exclude (hC : Saturated G P X C) (hP : v ∈ P) (hv : v ∉ C) :
    Saturated G {w | w ∈ P ∧ w ≠ v} (insert v X) C where
  isClique := hC.isClique
  subset c hc := ⟨hC.subset c hc, fun hsame ↦ hv (hsame ▸ hc)⟩
  exists_not_adj w hw := by
    refine hC.exists_not_adj w ?_
    cases hw with
    | inl hcandidate => exact .inl hcandidate.1
    | inr hexcluded =>
      cases hexcluded with
      | inl hsame => exact .inl (hsame ▸ hP)
      | inr hmem => exact .inr hmem

theorem isClique_insert_of_adj [DecidableEq V] (hC : G.IsClique C) (hadj : ∀ c ∈ C, G.Adj v c) :
    G.IsClique (insert v C : Finset V) ∧ (insert v C).card = C.card + 1 := by
  have hnew : v ∉ C := fun hmem ↦ G.irrefl (hadj v hmem)
  refine ⟨?_, Finset.card_insert_of_notMem hnew⟩
  rw [Finset.coe_insert]
  exact hC.insert fun c hc _ ↦ hadj c hc

/-- No vertex at all extends a maximum clique. -/
theorem saturated_of_isMaximumClique [Finite V] (hC : G.IsMaximumClique C) :
    Saturated G Set.univ ∅ C where
  isClique := hC.isClique
  subset _ _ := Set.mem_univ _
  exists_not_adj w _ := by
    classical
    by_contra hall
    push Not at hall
    obtain ⟨hclique, hcard⟩ := isClique_insert_of_adj hC.isClique hall
    have hle := hC.maximum _ hclique
    omega

end SoulSystem.Library.Cliques
