import Mathlib.Order.Bounds.Basic
import Mathlib.Tactic

/-!
# Distances and layers

The distance of a vertex from some sources is the least number of steps of a walk from one of
them.  A breadth-first search finds one distance after the other: what is one step from the last
layer and was not met before is the next one.
-/

namespace SoulSystem.Library.Distance

variable {α : Type*}

/-- Walks with a number of steps. -/
inductive Walk (E : α → α → Prop) : ℕ → α → α → Prop where
  | refl (v : α) : Walk E 0 v v
  | step {n : ℕ} {u v w : α} (hwalk : Walk E n u v) (hedge : E v w) : Walk E (n + 1) u w

/-- The number of steps of a shortest walk from one of the sources. -/
def IsDistance (E : α → α → Prop) (sources : α → Prop) (v : α) (d : ℕ) : Prop :=
  IsLeast {n | ∃ s, sources s ∧ Walk E n s v} d

variable {E : α → α → Prop} {sources : α → Prop} {u v : α} {d k : ℕ}

theorem IsDistance.unique (hd : IsDistance E sources v d) (hk : IsDistance E sources v k) : d = k :=
  IsLeast.unique hd hk

theorem isDistance_zero_iff : IsDistance E sources v 0 ↔ sources v := by
  constructor
  · rintro ⟨⟨s, hs, hwalk⟩, _⟩
    cases hwalk
    exact hs
  · exact fun hv ↦ ⟨⟨v, hv, Walk.refl v⟩, fun n _ ↦ Nat.zero_le n⟩

/-- What a walk reaches has a distance, and the walk has at least as many steps. -/
theorem exists_isDistance {s : α} (hs : sources s) (hwalk : Walk E k s v) :
    ∃ d ≤ k, IsDistance E sources v d := by
  classical
  have hsome : ∃ n, ∃ s, sources s ∧ Walk E n s v := ⟨k, s, hs, hwalk⟩
  exact ⟨Nat.find hsome, Nat.find_le ⟨s, hs, hwalk⟩, Nat.find_spec hsome,
    fun n hn ↦ Nat.find_le hn⟩

/-- A vertex at a distance has a predecessor at the distance before. -/
theorem IsDistance.exists_pred (hv : IsDistance E sources v (d + 1)) :
    ∃ u, IsDistance E sources u d ∧ E u v := by
  obtain ⟨⟨s, hs, hwalk⟩, hleast⟩ := hv
  cases hwalk with
  | @step _ _ u _ hwalk hedge =>
    refine ⟨u, ⟨⟨s, hs, hwalk⟩, fun n hn ↦ ?_⟩, hedge⟩
    obtain ⟨t, ht, hshort⟩ := hn
    exact Nat.le_of_succ_le_succ (hleast ⟨t, ht, hshort.step hedge⟩)

/-- A step leads at most one layer further. -/
theorem IsDistance.exists_succ (hu : IsDistance E sources u d) (hedge : E u v) :
    ∃ k ≤ d + 1, IsDistance E sources v k := by
  obtain ⟨⟨s, hs, hwalk⟩, _⟩ := hu
  exact exists_isDistance hs (hwalk.step hedge)

/-! ## Layers -/

/-- A search that has found all distances up to one, and the layer at it. -/
structure Layered (E : α → α → Prop) (sources : α → Prop) (d : ℕ) (depth : α → Option ℕ)
    (frontier : α → Prop) : Prop where
  depth_iff : ∀ v k, depth v = some k ↔ k ≤ d ∧ IsDistance E sources v k
  frontier_iff : ∀ v, frontier v ↔ IsDistance E sources v d

namespace Layered

variable {depth depth' : α → Option ℕ} {frontier next : α → Prop}

theorem zero (hdepth : ∀ v k, depth v = some k ↔ k = 0 ∧ sources v) :
    Layered E sources 0 depth sources where
  depth_iff v k := by
    rw [hdepth, Nat.le_zero]
    constructor
    · rintro ⟨rfl, hv⟩
      exact ⟨rfl, isDistance_zero_iff.mpr hv⟩
    · rintro ⟨rfl, hv⟩
      exact ⟨rfl, isDistance_zero_iff.mp hv⟩
  frontier_iff v := isDistance_zero_iff.symm

/-- What is not met has no distance up to the layer. -/
theorem depth_eq_none_iff (hlayered : Layered E sources d depth frontier) :
    depth v = none ↔ ∀ k ≤ d, ¬ IsDistance E sources v k := by
  constructor
  · intro hnone k hk hdist
    rw [(hlayered.depth_iff v k).mpr ⟨hk, hdist⟩] at hnone
    cases hnone
  · intro hall
    cases hsome : depth v with
    | none => rfl
    | some k =>
      obtain ⟨hk, hdist⟩ := (hlayered.depth_iff v k).mp hsome
      exact absurd hdist (hall k hk)

/-- The next layer is what was not met and is one step from the last one. -/
theorem next_iff (hlayered : Layered E sources d depth frontier) :
    depth v = none ∧ (∃ u, frontier u ∧ E u v) ↔ IsDistance E sources v (d + 1) := by
  rw [hlayered.depth_eq_none_iff]
  constructor
  · rintro ⟨hnone, u, hu, hedge⟩
    obtain ⟨k, hk, hdist⟩ := ((hlayered.frontier_iff u).mp hu).exists_succ hedge
    have hlast : k = d + 1 := by
      by_contra hne
      exact hnone k (by omega) hdist
    exact hlast ▸ hdist
  · intro hdist
    obtain ⟨u, hu, hedge⟩ := hdist.exists_pred
    refine ⟨fun k hk hother ↦ ?_, u, (hlayered.frontier_iff u).mpr hu, hedge⟩
    have hsame := hdist.unique hother
    omega

theorem succ (hlayered : Layered E sources d depth frontier)
    (hnext : ∀ v, next v ↔ depth v = none ∧ ∃ u, frontier u ∧ E u v)
    (hdepth : ∀ v k, depth' v = some k ↔ depth v = some k ∨ next v ∧ k = d + 1) :
    Layered E sources (d + 1) depth' next where
  depth_iff v k := by
    rw [hdepth, hnext, hlayered.next_iff, hlayered.depth_iff]
    constructor
    · rintro (⟨hk, hdist⟩ | ⟨hdist, rfl⟩)
      · exact ⟨hk.trans (Nat.le_succ d), hdist⟩
      · exact ⟨le_rfl, hdist⟩
    · rintro ⟨hk, hdist⟩
      cases hk.lt_or_eq with
      | inl hlt => exact .inl ⟨Nat.le_of_lt_succ hlt, hdist⟩
      | inr heq => exact .inr ⟨heq ▸ hdist, heq⟩
  frontier_iff v := by rw [hnext, hlayered.next_iff]

/-- After an empty layer there is none. -/
theorem of_empty (hlayered : Layered E sources d depth frontier) (hempty : ∀ v, ¬ frontier v)
    (hd : d ≤ k) : Layered E sources k depth frontier := by
  have hnone : ∀ n, d ≤ n → ∀ v, ¬ IsDistance E sources v n := by
    intro n hn
    induction n, hn using Nat.le_induction with
    | base => exact fun v hdist ↦ hempty v ((hlayered.frontier_iff v).mpr hdist)
    | succ n _ ih =>
      intro v hdist
      obtain ⟨u, hu, _⟩ := hdist.exists_pred
      exact ih u hu
  refine ⟨fun v n ↦ ?_, fun v ↦ ⟨fun hv ↦ absurd hv (hempty v), fun hv ↦ absurd hv (hnone k hd v)⟩⟩
  rw [hlayered.depth_iff]
  refine ⟨fun h ↦ ⟨h.1.trans hd, h.2⟩, fun h ↦ ⟨?_, h.2⟩⟩
  by_contra hlate
  exact hnone n (by omega) v h.2

/-- What is one step from anything met, and was not met, is one step from the last layer. -/
theorem cut_iff (hlayered : Layered E sources d depth frontier) :
    depth v = none ∧ (∃ u, frontier u ∧ E u v) ↔
      depth v = none ∧ ∃ u, depth u ≠ none ∧ E u v := by
  refine and_congr_right fun hnone ↦ ⟨?_, ?_⟩
  · rintro ⟨u, hu, hedge⟩
    refine ⟨u, fun hu' ↦ ?_, hedge⟩
    exact hlayered.depth_eq_none_iff.mp hu' d le_rfl ((hlayered.frontier_iff u).mp hu)
  · rintro ⟨u, hu, hedge⟩
    obtain ⟨k, hk⟩ := Option.ne_none_iff_exists'.mp hu
    obtain ⟨hle, hdist⟩ := (hlayered.depth_iff u k).mp hk
    refine ⟨u, (hlayered.frontier_iff u).mpr ?_, hedge⟩
    obtain ⟨n, hn, hv⟩ := hdist.exists_succ hedge
    have hlast : k = d := by
      by_contra hne
      exact hlayered.depth_eq_none_iff.mp hnone n (by omega) hv
    exact hlast ▸ hdist

end Layered

end SoulSystem.Library.Distance
