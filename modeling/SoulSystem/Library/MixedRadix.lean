import Mathlib.Data.List.GetD
import Mathlib.Data.List.Nodup
import Mathlib.Data.List.Perm.Subperm
import Mathlib.Data.List.Range
import Mathlib.Algebra.BigOperators.Group.List.Basic
import Mathlib.Algebra.Order.BigOperators.Group.List

/-!
# Indices into a shape

A multi-index has one entry for each dimension of a shape.  Its row-major rank and the digits of a
rank are inverse to each other.  Axes that are permuted are put back by the inverse permutation.
-/

namespace SoulSystem.Library.MixedRadix

open List

/-! ## Ranks and digits -/

/-- There is one entry for each dimension, and it is less than that. -/
def Index (shape indices : List ℕ) : Prop := List.Forall₂ (· < ·) indices shape

/-- The number of entries behind one step along each axis. -/
def strides : List ℕ → List ℕ
  | [] => []
  | _ :: shape => shape.prod :: strides shape

/-- The place of an index in row-major order. -/
def rank : List ℕ → List ℕ → ℕ
  | _ :: shape, index :: indices => index * shape.prod + rank shape indices
  | _, _ => 0

def digits : List ℕ → ℕ → List ℕ
  | [], _ => []
  | _ :: shape, n => n / shape.prod :: digits shape (n % shape.prod)

variable {shape indices : List ℕ} {n : ℕ}

theorem rank_lt (hindex : Index shape indices) : rank shape indices < shape.prod := by
  induction hindex with
  | nil => exact Nat.one_pos
  | @cons index dim indices shape hlt _ ih =>
    calc
      index * shape.prod + rank shape indices
      _ < index * shape.prod + shape.prod := Nat.add_lt_add_left ih _
      _ = (index + 1) * shape.prod := (Nat.succ_mul _ _).symm
      _ ≤ dim * shape.prod := Nat.mul_le_mul_right _ hlt
      _ = (dim :: shape).prod := List.prod_cons.symm

theorem prod_pos_of_index (hindex : Index shape indices) : 0 < shape.prod :=
  (Nat.zero_le _).trans_lt (rank_lt hindex)

theorem tail_pos {dim : ℕ} (hn : n < (dim :: shape).prod) : 0 < shape.prod := by
  rw [prod_cons] at hn
  exact Nat.pos_of_mul_pos_left (Nat.zero_lt_of_lt hn)

theorem index_digits (hn : n < shape.prod) : Index shape (digits shape n) := by
  induction shape generalizing n with
  | nil => exact .nil
  | cons dim shape ih =>
    have hpos := tail_pos hn
    rw [prod_cons] at hn
    exact .cons ((Nat.div_lt_iff_lt_mul hpos).mpr hn) (ih (Nat.mod_lt n hpos))

theorem rank_digits (hn : n < shape.prod) : rank shape (digits shape n) = n := by
  induction shape generalizing n with
  | nil =>
    rw [prod_nil, Nat.lt_one_iff] at hn
    exact hn.symm
  | cons dim shape ih =>
    have hpos := tail_pos hn
    rw [digits, rank, ih (Nat.mod_lt n hpos)]
    exact Nat.div_add_mod' n shape.prod

theorem digits_rank (hindex : Index shape indices) :
    digits shape (rank shape indices) = indices := by
  induction hindex with
  | nil => rfl
  | @cons index dim indices shape _ hrest ih =>
    have hlt := rank_lt hrest
    have hpos := prod_pos_of_index hrest
    rw [rank, digits, Nat.add_comm, Nat.add_mul_div_right _ _ hpos, Nat.div_eq_of_lt hlt,
      Nat.zero_add, Nat.add_mul_mod_self_right, Nat.mod_eq_of_lt hlt, ih]

theorem length_strides (shape : List ℕ) : (strides shape).length = shape.length := by
  induction shape with
  | nil => rfl
  | cons dim shape ih => rw [strides, length_cons, length_cons, ih]

/-- In a shape with entries no stride is larger than their number. -/
theorem le_prod_of_mem_strides (hpos : 0 < shape.prod) {stride : ℕ}
    (hmem : stride ∈ strides shape) : stride ≤ shape.prod := by
  induction shape with
  | nil => cases hmem
  | cons dim shape ih =>
    rw [prod_cons] at hpos ⊢
    have hdim := Nat.pos_of_mul_pos_right hpos
    have htail : stride ≤ shape.prod := by
      cases List.mem_cons.mp hmem with
      | inl hhead => exact hhead.le
      | inr hrest => exact ih (Nat.pos_of_mul_pos_left hpos) hrest
    exact htail.trans (Nat.le_mul_of_pos_left _ hdim)

/-! ## Permuted axes -/

/-- The entries at the given places. -/
def pick (entries axes : List ℕ) : List ℕ := axes.map fun axis ↦ entries.getD axis 0

/-- The place of each axis in the permutation. -/
def inverse (axes : List ℕ) : List ℕ := (List.range axes.length).map axes.idxOf

/-- Each entry is stored at its place. -/
def scatter (axes entries out : List ℕ) : List ℕ :=
  (axes.zip entries).foldl (fun out pair ↦ out.set pair.1 pair.2) out

variable {axes entries : List ℕ}

theorem pick_range (entries : List ℕ) : pick entries (List.range entries.length) = entries := by
  refine ext_getElem (by rw [pick, length_map, length_range]) fun i hi hi' ↦ ?_
  simp only [pick, getElem_map, getElem_range]
  exact getD_eq_getElem _ _ hi'

theorem length_pick (entries axes : List ℕ) : (pick entries axes).length = axes.length :=
  length_map _

theorem pick_perm (hperm : axes.Perm (List.range entries.length)) :
    (pick entries axes).Perm entries := by
  have hmap := hperm.map fun axis ↦ entries.getD axis 0
  exact hmap.trans (.of_eq (pick_range entries))

theorem prod_pick (hperm : axes.Perm (List.range entries.length)) :
    (pick entries axes).prod = entries.prod :=
  (pick_perm hperm).prod_eq

theorem lt_of_mem (hperm : axes.Perm (List.range n)) {axis : ℕ} (hmem : axis ∈ axes) : axis < n :=
  List.mem_range.mp (hperm.mem_iff.mp hmem)

theorem mem_of_lt (hperm : axes.Perm (List.range n)) {axis : ℕ} (hlt : axis < n) : axis ∈ axes :=
  hperm.mem_iff.mpr (List.mem_range.mpr hlt)

theorem length_of_perm (hperm : axes.Perm (List.range n)) : axes.length = n :=
  hperm.length_eq.trans length_range

theorem nodup_of_perm (hperm : axes.Perm (List.range n)) : axes.Nodup :=
  hperm.nodup_iff.mpr nodup_range

theorem length_inverse (axes : List ℕ) : (inverse axes).length = axes.length := by
  rw [inverse, length_map, length_range]

theorem getElem_inverse {i : ℕ} (hi : i < (inverse axes).length) :
    (inverse axes)[i] = axes.idxOf i := by
  simp only [inverse, getElem_map, getElem_range]

theorem inverse_perm (hperm : axes.Perm (List.range n)) : (inverse axes).Perm (List.range n) := by
  have hlength := length_of_perm hperm
  have hnodup : (inverse axes).Nodup := by
    refine List.Nodup.map_on (fun a ha b hb heq ↦ ?_) nodup_range
    have hmem : a ∈ axes := mem_of_lt hperm (hlength ▸ List.mem_range.mp ha)
    exact (idxOf_inj hmem).mp heq
  have hsubset : inverse axes ⊆ List.range n := by
    intro place hplace
    obtain ⟨axis, haxis, rfl⟩ := List.mem_map.mp hplace
    have hmem : axis ∈ axes := mem_of_lt hperm (hlength ▸ List.mem_range.mp haxis)
    exact List.mem_range.mpr (hlength ▸ idxOf_lt_length_of_mem hmem)
  refine (subperm_of_subset hnodup hsubset).perm_of_length_le ?_
  rw [length_range, length_inverse, hlength]

theorem inverse_inverse (hperm : axes.Perm (List.range n)) : inverse (inverse axes) = axes := by
  have hlength := length_of_perm hperm
  refine ext_getElem (by rw [length_inverse, length_inverse]) fun i hi hi' ↦ ?_
  have hmem : axes[i] < (inverse axes).length := by
    rw [length_inverse, hlength]
    exact lt_of_mem hperm (getElem_mem hi')
  have hplace : (inverse axes)[axes[i]] = i := by
    rw [getElem_inverse hmem]
    exact (nodup_of_perm hperm).idxOf_getElem i hi'
  have hfound := (nodup_of_perm (inverse_perm hperm)).idxOf_getElem axes[i] hmem
  rw [getElem_inverse hi]
  exact (congrArg (List.idxOf · (inverse axes)) hplace).symm.trans hfound

theorem pick_pick_inverse (hperm : axes.Perm (List.range entries.length)) :
    pick (pick entries axes) (inverse axes) = entries := by
  have hlength := length_of_perm hperm
  refine ext_getElem (by rw [length_pick, length_inverse, hlength]) fun i hi hi' ↦ ?_
  have hmem : i ∈ axes := mem_of_lt hperm hi'
  have hplace : axes.idxOf i < (pick entries axes).length := by
    rw [length_pick]
    exact idxOf_lt_length_of_mem hmem
  simp only [pick, inverse, getElem_map, getElem_range]
  rw [pick, length_map] at hplace
  rw [getD_eq_getElem _ _ (by rwa [length_map]), getElem_map,
    getElem_idxOf hplace, getD_eq_getElem _ _ hi']

theorem index_pick (hindex : Index shape indices) (hinside : ∀ axis ∈ axes, axis < shape.length) :
    Index (pick shape axes) (pick indices axes) := by
  refine List.forall₂_map_left_iff.mpr (List.forall₂_map_right_iff.mpr ?_)
  refine List.forall₂_same.mpr fun axis haxis ↦ ?_
  have hshape := hinside axis haxis
  have hindices : axis < indices.length := by rwa [hindex.length_eq]
  rw [getD_eq_getElem _ _ hindices, getD_eq_getElem _ _ hshape]
  exact hindex.get hindices hshape

theorem length_scatter (axes entries out : List ℕ) :
    (scatter axes entries out).length = out.length := by
  induction axes generalizing entries out with
  | nil => rfl
  | cons axis axes ih =>
    cases entries with
    | nil => rfl
    | cons entry entries => exact (ih entries _).trans length_set

theorem getElem?_scatter {out : List ℕ} (hnodup : axes.Nodup)
    (hlength : entries.length = axes.length) {place : ℕ} (hplace : place < out.length) :
    (scatter axes entries out)[place]? =
      if place ∈ axes then entries[axes.idxOf place]? else out[place]? := by
  induction axes generalizing entries out with
  | nil => rfl
  | cons axis axes ih =>
    cases entries with
    | nil => cases hlength
    | cons entry entries =>
      have hrest := ih (List.nodup_cons.mp hnodup).2 (Nat.succ.inj hlength)
        (hplace.trans_eq List.length_set.symm : place < (out.set axis entry).length)
      refine hrest.trans ?_
      by_cases hsame : axis = place
      · subst hsame
        rw [if_neg (List.nodup_cons.mp hnodup).1, if_pos mem_cons_self,
          idxOf_cons_self, getElem?_set_self hplace]
        rfl
      · rw [getElem?_set_ne hsame, idxOf_cons_ne _ hsame]
        exact if_congr (by rw [mem_cons, or_iff_right (Ne.symm hsame)]) rfl rfl

/-- Storing each entry at its axis reads them by the inverse, whatever was stored before. -/
theorem scatter_eq {out : List ℕ} (hperm : axes.Perm (List.range n)) (hentries : entries.length = n)
    (hout : out.length = n) : scatter axes entries out = pick entries (inverse axes) := by
  have hlength := length_of_perm hperm
  refine ext_getElem? fun place ↦ ?_
  by_cases hplace : place < n
  · have hmem := mem_of_lt hperm hplace
    have hfound : axes.idxOf place < entries.length := by
      rw [hentries, ← hlength]
      exact idxOf_lt_length_of_mem hmem
    have hinside : place < (pick entries (inverse axes)).length := by
      rwa [length_pick, length_inverse, hlength]
    rw [getElem?_scatter (nodup_of_perm hperm) (hentries.trans hlength.symm)
      (hplace.trans_eq hout.symm), if_pos hmem, getElem?_eq_getElem hfound,
      getElem?_eq_getElem hinside]
    simp only [pick, inverse, getElem_map, getElem_range]
    rw [getD_eq_getElem _ _ hfound]
  · rw [getElem?_eq_none (by rw [length_scatter]; omega),
      getElem?_eq_none (by rw [length_pick, length_inverse]; omega)]

end SoulSystem.Library.MixedRadix
