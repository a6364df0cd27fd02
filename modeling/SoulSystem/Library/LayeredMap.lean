import SoulSystem.Library.SortedMap

/-!
# Layered maps with tombstones

A layer answers a key with a live value, with a tombstone, or not at all.  A stack of layers, listed
from the oldest to the newest, answers with the newest layer that has the key, and its view hides
the tombstones.

Compacting a stack keeps the live part of its view and forgets the tombstones.  That is harmless
while the old layers disappear together.  When some of them stay below the compacted layer, the
view is unchanged exactly when the layers that stay show nothing for the keys that were dead.
-/

namespace SoulSystem.Library.LayeredMap

open List

variable {K V : Type}

abbrev Layer (K V : Type) := K → Option (Option V)

/-- The answer of the newest layer that has the key. -/
def lookup : List (Layer K V) → Layer K V
  | [], _ => none
  | layer :: newer, key => (lookup newer key).or (layer key)

attribute [grind =] lookup

/-- The live value under a key. -/
def view (layers : List (Layer K V)) (key : K) : Option V :=
  (lookup layers key).join

@[simp] theorem lookup_nil (key : K) : lookup ([] : List (Layer K V)) key = none := rfl

@[simp] theorem view_nil (key : K) : view ([] : List (Layer K V)) key = none := rfl

theorem lookup_append (older newer : List (Layer K V)) (key : K) :
    lookup (older ++ newer) key = (lookup newer key).or (lookup older key) := by
  induction older with
  | nil => simp
  | cons layer older ih =>
    rw [cons_append, lookup, lookup, ih, Option.or_assoc]

theorem lookup_concat (layers : List (Layer K V)) (layer : Layer K V) (key : K) :
    lookup (layers ++ [layer]) key = (layer key).or (lookup layers key) := by
  rw [lookup_append, lookup, lookup_nil, Option.none_or]

theorem view_concat_of_eq_some {layers : List (Layer K V)} {layer : Layer K V} {key : K}
    {slot : Option V} (hslot : layer key = some slot) : view (layers ++ [layer]) key = slot := by
  rw [view, lookup_concat, hslot, Option.some_or, Option.join_some]

theorem view_concat_of_eq_none {layers : List (Layer K V)} {layer : Layer K V} {key : K}
    (hslot : layer key = none) : view (layers ++ [layer]) key = view layers key := by
  rw [view, lookup_concat, hslot, Option.none_or, view]

theorem lookup_ne_none_iff {layers : List (Layer K V)} {key : K} :
    lookup layers key ≠ none ↔ ∃ layer ∈ layers, layer key ≠ none := by
  induction layers with
  | nil => simp
  | cons layer newer ih =>
    rw [lookup, ne_eq, Option.or_eq_none_iff, exists_mem_cons_iff, not_and_or, ← ne_eq, ih,
      or_comm]

theorem view_cons_eq_none_iff {layer : Layer K V} {newer : List (Layer K V)} {key : K} :
    view (layer :: newer) key = none ↔ view newer key = none ∧
      ∀ value, layer key = some (some value) → lookup newer key ≠ none := by
  rw [view, lookup, view]
  cases hnewer : lookup newer key with
  | none =>
    cases hlayer : layer key with
    | none => simp
    | some slot => simp [Option.eq_none_iff_forall_ne_some]
  | some slot => simp

/-- A key is dead exactly when every live value for it has a newer answer above it. -/
theorem view_eq_none_iff {layers : List (Layer K V)} {key : K} :
    view layers key = none ↔ ∀ older layer newer value, layers = older ++ layer :: newer →
      layer key = some (some value) → ∃ above ∈ newer, above key ≠ none := by
  induction layers with
  | nil => simp
  | cons layer newer ih =>
    refine view_cons_eq_none_iff.trans ⟨?_, ?_⟩
    · intro hdead older found above value hsplit hlive
      cases older with
      | nil =>
        rw [nil_append, List.cons.injEq] at hsplit
        rw [← hsplit.2]
        exact lookup_ne_none_iff.mp (hdead.2 value (hsplit.1 ▸ hlive))
      | cons first older =>
        rw [cons_append, List.cons.injEq] at hsplit
        exact ih.mp hdead.1 older found above value hsplit.2 hlive
    · intro hdead
      refine ⟨ih.mpr ?_, ?_⟩
      · intro older found above value hsplit hlive
        exact hdead (layer :: older) found above value (by rw [hsplit, cons_append]) hlive
      · intro value hlive
        exact lookup_ne_none_iff.mpr (hdead [] layer newer value rfl hlive)

/-! ## Compaction -/

/-- Layers that stay below a compacted top change nothing exactly when they show nothing for the
dead keys: the top answers live keys only. -/
theorem view_append_compacted_eq_iff {kept top : List (Layer K V)} {key : K} {shown : Option V}
    (htop : lookup top key = shown.map some) :
    view (kept ++ top) key = shown ↔ (shown = none → view kept key = none) := by
  rw [view, lookup_append, htop, view]
  cases shown with
  | none => simp
  | some value => simp

end SoulSystem.Library.LayeredMap
