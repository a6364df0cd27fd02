import Mathlib.Algebra.BigOperators.Intervals
import Mathlib.Data.Multiset.Basic
import Mathlib.Algebra.Order.BigOperators.Group.Finset
import Mathlib.Algebra.Order.Group.Multiset
import Mathlib.Tactic

/-!
# Slots, their owners and masks of them

Each of finitely many slots holds an item or nothing.  When one slot changes, the items of all of
them change by what it held and what it holds then.

Threads stand somewhere in what they do, and own there what no other thread owns.  A step
moves one of them.

A mask of 64 bits is the set of the positions of its bits.  The number of trailing ones is the first
position that is not in the set.
-/

namespace SoulSystem.Library.Slots

open Function

variable {κ α β M : Type*}

/-! ## Sums and the change of one summand -/

theorem sum_update_add [DecidableEq κ] [AddCommMonoid M] {indices : Finset κ} {i : κ}
    (hmem : i ∈ indices) (f : κ → M) (x : M) :
    ∑ j ∈ indices, update f i x j + f i = ∑ j ∈ indices, f j + x := by
  rw [Finset.sum_update_of_mem hmem, ← Finset.add_sum_erase _ f hmem,
    Finset.sdiff_singleton_eq_erase]
  abel

theorem sum_comp_update_add [DecidableEq κ] [AddCommMonoid M] {indices : Finset κ} {i : κ}
    (hmem : i ∈ indices) (g : β → M) (f : κ → β) (x : β) :
    ∑ j ∈ indices, g (update f i x j) + g (f i) = ∑ j ∈ indices, g (f j) + g x := by
  have hcomp : (fun j ↦ g (update f i x j)) = update (fun j ↦ g (f j)) i (g x) :=
    comp_update g f i x
  rw [hcomp]
  exact sum_update_add hmem (fun j ↦ g (f j)) (g x)

/-! ## Contents -/

/-- The items of a slot. -/
def ofSlot : Option α → Multiset α
  | none => 0
  | some item => {item}

/-- The items of the first slots. -/
@[irreducible]
def contents (size : ℕ) (slots : ℕ → Option α) : Multiset α :=
  ∑ place ∈ Finset.range size, ofSlot (slots place)

theorem contents_update {size place : ℕ} (hplace : place < size) (slots : ℕ → Option α)
    (item : Option α) :
    contents size (update slots place item) + ofSlot (slots place) =
      contents size slots + ofSlot item := by
  rw [contents, contents]
  exact sum_comp_update_add (Finset.mem_range.mpr hplace) ofSlot slots item

theorem ofSlot_le_contents {size place : ℕ} (hplace : place < size) (slots : ℕ → Option α) :
    ofSlot (slots place) ≤ contents size slots := by
  rw [contents, ← Finset.add_sum_erase _ _ (Finset.mem_range.mpr hplace)]
  exact Multiset.le_add_right _ _

theorem contents_none (size : ℕ) : contents size (fun _ ↦ (none : Option α)) = 0 := by
  rw [contents]
  exact Finset.sum_eq_zero fun _ _ ↦ rfl

theorem contents_congr {size : ℕ} {slots slots' : ℕ → Option α}
    (hsame : ∀ place < size, slots place = slots' place) :
    contents size slots = contents size slots' := by
  rw [contents, contents]
  exact Finset.sum_congr rfl fun place hplace ↦
    congrArg ofSlot (hsame place (Finset.mem_range.mp hplace))

end SoulSystem.Library.Slots

namespace SoulSystem.Library.Threads

variable {ι α β : Type*}

/-- No two threads own the same. -/
def Apart (owned : α → Option β) (pc : ι → α) : Prop :=
  ∀ i j x, owned (pc i) = some x → owned (pc j) = some x → i = j

def Owns (owned : α → Option β) (pc : ι → α) (x : β) : Prop := ∃ i, owned (pc i) = some x

variable [DecidableEq ι] {owned : α → Option β} {pc : ι → α} {i : ι} {new : α} {x : β}

theorem Apart.update (hapart : Apart owned pc)
    (hnew : ∀ x, owned new = some x → ∀ j, j ≠ i → owned (pc j) ≠ some x) :
    Apart owned (Function.update pc i new) := by
  intro j k x hj hk
  by_cases hji : j = i
  · by_cases hki : k = i
    · rw [hji, hki]
    · rw [hji, Function.update_self] at hj
      rw [Function.update_of_ne hki] at hk
      exact absurd hk (hnew x hj k hki)
  · rw [Function.update_of_ne hji] at hj
    by_cases hki : k = i
    · rw [hki, Function.update_self] at hk
      exact absurd hj (hnew x hk j hji)
    · rw [Function.update_of_ne hki] at hk
      exact hapart j k x hj hk

/-- A thread that goes on owning what it owned, or less, stays apart from the others. -/
theorem Apart.update_of_imp (hapart : Apart owned pc)
    (hkeep : ∀ x, owned new = some x → owned (pc i) = some x) :
    Apart owned (Function.update pc i new) :=
  hapart.update fun x hx j hne hj ↦ hne (hapart j i x hj (hkeep x hx))

/-- After a step is owned what the thread owns now, and what it has not owned before. -/
theorem Apart.owns_update (hapart : Apart owned pc) : Owns owned (Function.update pc i new) x ↔
    owned new = some x ∨ (Owns owned pc x ∧ owned (pc i) ≠ some x) := by
  rw [Owns, Function.exists_update_iff pc fun _ pc ↦ owned pc = some x]
  refine or_congr Iff.rfl ⟨fun ⟨j, hne, hj⟩ ↦ ⟨⟨j, hj⟩, fun hi ↦ hne (hapart j i x hj hi)⟩, ?_⟩
  rintro ⟨⟨j, hj⟩, hi⟩
  exact ⟨j, fun hsame ↦ hi (hsame ▸ hj), hj⟩

end SoulSystem.Library.Threads

namespace SoulSystem.Library.BitMask

def withBit (mask : BitVec 64) (i : ℕ) : BitVec 64 := mask ||| (1#64 <<< i)

def withoutBit (mask : BitVec 64) (i : ℕ) : BitVec 64 := mask &&& ~~~(1#64 <<< i)

def trailingOnes (mask : BitVec 64) : ℕ := Nat.findGreatest (fun n ↦ ∀ i < n, mask.getLsbD i) 64

variable {mask : BitVec 64} {i j n : ℕ}

theorem getLsbD_withBit (hj : j < 64) : (withBit mask j).getLsbD i = (mask.getLsbD i || decide (i = j)) := by
  rw [withBit, BitVec.getLsbD_or, BitVec.getLsbD_shiftLeft, BitVec.getLsbD_one]
  grind

theorem getLsbD_withoutBit : (withoutBit mask j).getLsbD i = (mask.getLsbD i && decide (i ≠ j)) := by
  have hrange : 64 ≤ i → mask.getLsbD i = false := BitVec.getLsbD_of_ge mask i
  rw [withoutBit, BitVec.getLsbD_and, BitVec.getLsbD_not, BitVec.getLsbD_shiftLeft,
    BitVec.getLsbD_one]
  grind

theorem getLsbD_of_lt_trailingOnes (hi : i < trailingOnes mask) : mask.getLsbD i = true :=
  Nat.findGreatest_spec (P := fun n ↦ ∀ i < n, mask.getLsbD i) (Nat.zero_le 64)
    (fun i hi ↦ absurd hi (Nat.not_lt_zero i)) i hi

theorem not_getLsbD_trailingOnes (hlt : trailingOnes mask < 64) :
    mask.getLsbD (trailingOnes mask) = false := by
  by_contra hset
  have hall : ∀ i < trailingOnes mask + 1, mask.getLsbD i := by
    intro i hi
    cases Nat.lt_succ_iff_lt_or_eq.mp hi with
    | inl hlt => exact getLsbD_of_lt_trailingOnes hlt
    | inr hsame => exact hsame ▸ Bool.eq_true_of_not_eq_false hset
  exact Nat.findGreatest_is_greatest (P := fun n ↦ ∀ i < n, mask.getLsbD i) (Nat.lt_succ_self _)
    hlt hall

/-- The trailing ones end at the first bit that is not set. -/
theorem trailingOnes_le_of_not (hnot : mask.getLsbD i = false) : trailingOnes mask ≤ i := by
  by_contra hlt
  rw [getLsbD_of_lt_trailingOnes (not_le.mp hlt)] at hnot
  cases hnot

end SoulSystem.Library.BitMask
