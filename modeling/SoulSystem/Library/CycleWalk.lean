import Mathlib.GroupTheory.Perm.Sign

/-!
# Walks along the cycles of a permutation

A walk follows a permutation from a start until it meets a visited element.  What it has seen of the
permutation agrees with it on the visited elements, but for the one before the current element,
which goes back to the start.  Every step multiplies what is seen by a transposition, except for the
first step, which multiplies it by the identity.
-/

namespace SoulSystem.Library

open Equiv (Perm swap)

variable {α : Type*} {σ seen : Perm α} {Visited : α → Prop} {start current : α}

/-- What has been seen of a permutation is the permutation on the visited elements. -/
structure Walked (σ seen : Perm α) (Visited : α → Prop) : Prop where
  visited : ∀ x, Visited x → seen x = σ x
  fresh : ∀ x, ¬ Visited x → seen x = x

namespace Walked

theorem none : Walked σ 1 fun _ ↦ False where
  visited := fun _ hnone ↦ hnone.elim
  fresh := fun _ _ ↦ rfl

theorem eq_of_all (hwalked : Walked σ seen Visited) (hall : ∀ x, Visited x) : seen = σ := by
  ext x
  exact hwalked.visited x (hall x)

end Walked

variable [DecidableEq α]

/-- What a walk that has come to an element has seen of a permutation. -/
structure CycleWalk (σ seen : Perm α) (Visited : α → Prop) (start current : α) : Prop where
  visited : ∀ x, Visited x → seen x = if σ x = current then start else σ x
  fresh : ∀ x, ¬ Visited x → seen x = x
  reached : current = start ∨ ∃ x, Visited x ∧ σ x = current

namespace CycleWalk

theorem begin (hwalked : Walked σ seen Visited) (start : α) :
    CycleWalk σ seen Visited start start where
  visited := by
    intro x hx
    rw [hwalked.visited x hx]
    split
    case isTrue heq => exact heq
    case isFalse => rfl
  fresh := hwalked.fresh
  reached := .inl rfl

/-- The visited elements are mapped to visited elements. -/
theorem visited_seen (hwalk : CycleWalk σ seen Visited start current) {x : α} (hx : Visited x) :
    Visited (seen x) := by
  by_contra hfresh
  have hfixed : seen x = x := seen.injective (hwalk.fresh (seen x) hfresh)
  rw [hfixed] at hfresh
  exact hfresh hx

theorem visited_start (hwalk : CycleWalk σ seen Visited start current) (hne : current ≠ start) :
    Visited start := by
  obtain ⟨x, hx, hcurrent⟩ := hwalk.reached.resolve_left hne
  have hback := hwalk.visited_seen hx
  rwa [hwalk.visited x hx, if_pos hcurrent] at hback

/-- **A step** multiplies by the transposition of the start and the current element. -/
theorem step (hwalk : CycleWalk σ seen Visited start current) (hnew : ¬ Visited current) :
    CycleWalk σ (swap start current * seen) (fun x ↦ x = current ∨ Visited x) start
      (σ current) where
  visited := by
    intro x hx
    rw [Perm.mul_apply]
    by_cases hsame : x = current
    · rw [hsame, hwalk.fresh current hnew, Equiv.swap_apply_right, if_pos rfl]
    · have hold : Visited x := hx.resolve_left hsame
      have hnext : σ x ≠ σ current := fun heq ↦ hsame (σ.injective heq)
      rw [if_neg hnext, hwalk.visited x hold]
      by_cases hlast : σ x = current
      · rw [if_pos hlast, Equiv.swap_apply_left, hlast]
      · rw [if_neg hlast]
        refine Equiv.swap_apply_of_ne_of_ne ?_ hlast
        rcases hwalk.reached with hfirst | ⟨y, hy, hcurrent⟩
        · rwa [← hfirst]
        · intro hstart
          have hseen : seen x = seen y := by
            rw [hwalk.visited x hold, if_neg hlast, hstart, hwalk.visited y hy, if_pos hcurrent]
          rw [seen.injective hseen] at hlast
          exact hlast hcurrent
  fresh := by
    intro x hx
    rw [not_or] at hx
    rw [Perm.mul_apply, hwalk.fresh x hx.2]
    refine Equiv.swap_apply_of_ne_of_ne ?_ hx.1
    rintro rfl
    exact hx.2 (hwalk.visited_start (Ne.symm hx.1))
  reached := .inr ⟨current, .inl rfl, rfl⟩

/-- **A walk ends** where it began. -/
theorem eq_start (hwalk : CycleWalk σ seen Visited start current) (hend : Visited current) :
    current = start := by
  by_contra hne
  obtain ⟨x, hx⟩ := seen.surjective current
  have hold : Visited x := by
    by_contra hfresh
    rw [hwalk.fresh x hfresh] at hx
    rw [hx] at hfresh
    exact hfresh hend
  rw [hwalk.visited x hold] at hx
  split at hx
  case isTrue => exact hne hx.symm
  case isFalse hother => exact hother hx

theorem walked (hwalk : CycleWalk σ seen Visited start current) (hend : Visited current) :
    Walked σ seen Visited where
  visited := by
    intro x hx
    rw [hwalk.visited x hx]
    split
    case isTrue hlast => rw [hlast, hwalk.eq_start hend]
    case isFalse => rfl
  fresh := hwalk.fresh

end CycleWalk

end SoulSystem.Library
