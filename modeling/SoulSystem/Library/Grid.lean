import SoulSystem.Library.Outcome
import Mathlib.Algebra.BigOperators.Group.Finset.Basic
import Mathlib.Data.List.ProdSigma

/-!
# Grids

A row-major buffer is tabulated by its entries.  Every access is checked, and a loop that modifies
every place of a buffer once succeeds with the modified entries.
-/

namespace SoulSystem.Library.RowMajor

open List

variable {α : Type}

/-! ## Entries -/

/-- The buffer with the entries. -/
def grid (m n : ℕ) (f : ℕ → ℕ → α) : List α := tab m fun i ↦ (List.range n).map (f i)

variable {m n : ℕ} {f g : ℕ → ℕ → α}

theorem length_grid (m n : ℕ) (f : ℕ → ℕ → α) : (grid m n f).length = m * n :=
  length_tab fun i _ ↦ by rw [length_map, length_range]

theorem grid_congr (hentries : ∀ i < m, ∀ j < n, f i j = g i j) : grid m n f = grid m n g :=
  tab_congr fun i hi ↦ map_congr_left fun j hj ↦ hentries i hi j (List.mem_range.mp hj)

theorem getElem?_tab {w r j : ℕ} {rows : ℕ → List α} (hrows : ∀ r < n, (rows r).length = w)
    (hr : r < n) (hj : j < w) : (tab n rows)[r * w + j]? = (rows r)[j]? := by
  have hlength : (tab r rows).length = r * w := length_tab fun i hi ↦ hrows i (hi.trans hr)
  have hrow : j < (rows r).length := hj.trans_eq (hrows r hr).symm
  rw [tab_split hr, getElem?_append_right (by rw [hlength]; exact Nat.le_add_right _ _), hlength,
    Nat.add_sub_cancel_left, getElem?_append_left hrow]

theorem getElem?_grid {i j : ℕ} (hi : i < m) (hj : j < n) :
    (grid m n f)[i * n + j]? = some (f i j) := by
  rw [grid, getElem?_tab (fun r _ ↦ by rw [length_map, length_range]) hi hj,
    getElem?_map, getElem?_range hj, Option.map_some]

/-- A place of a grid lies in one row and one column. -/
theorem exists_place {place : ℕ} (hplace : place < m * n) :
    ∃ i < m, ∃ j < n, place = i * n + j := by
  have hn : 0 < n := Nat.pos_of_mul_pos_left (Nat.zero_lt_of_lt hplace)
  refine ⟨place / n, Nat.div_lt_of_lt_mul (by rwa [mul_comm]), place % n, Nat.mod_lt place hn, ?_⟩
  exact (Nat.div_add_mod' place n).symm

theorem place_lt {i j : ℕ} (hi : i < m) (hj : j < n) : i * n + j < m * n := by
  calc
    i * n + j < i * n + n := Nat.add_lt_add_left hj (i * n)
    _ = (i + 1) * n := (Nat.succ_mul i n).symm
    _ ≤ m * n := Nat.mul_le_mul_right n hi

theorem place_inj {i i' j j' : ℕ} (hj : j < n) (hj' : j' < n)
    (hsame : i * n + j = i' * n + j') : i = i' ∧ j = j' := by
  have hn : 0 < n := Nat.zero_lt_of_lt hj
  have hrow : ∀ k l, l < n → (k * n + l) / n = k := by
    intro k l hl
    rw [mul_comm, Nat.mul_add_div hn, Nat.div_eq_of_lt hl, add_zero]
  have hsameRow : i = i' := by rw [← hrow i j hj, hsame, hrow i' j' hj']
  subst hsameRow
  exact ⟨rfl, Nat.add_left_cancel hsame⟩

theorem eq_grid_of_getElem? {buf : List α} (hlength : buf.length = m * n)
    (hentries : ∀ i < m, ∀ j < n, buf[i * n + j]? = some (f i j)) : buf = grid m n f := by
  apply ext_getElem?
  intro place
  by_cases hplace : place < m * n
  · obtain ⟨i, hi, j, hj, rfl⟩ := exists_place hplace
    rw [hentries i hi j hj, getElem?_grid hi hj]
  · rw [getElem?_eq_none (by omega),
      getElem?_eq_none (by rw [length_grid]; exact not_lt.mp hplace)]

/-- A row of blocks. -/
theorem grid_blocks (m b c : ℕ) (f : ℕ → ℕ → α) :
    grid m (b * c) f = tab m fun i ↦ grid b c fun j k ↦ f i (j * c + k) := by
  refine tab_congr fun i _ ↦ eq_grid_of_getElem? (by rw [length_map, length_range]) ?_
  intro j hj k hk
  rw [getElem?_map, getElem?_range (place_lt hj hk), Option.map_some]

/-- A sum over the places of a grid. -/
theorem sum_range_places {M : Type} [AddCommMonoid M] (a b : ℕ) (f : ℕ → M) :
    ∑ place ∈ Finset.range (a * b), f place =
      ∑ i ∈ Finset.range a, ∑ j ∈ Finset.range b, f (i * b + j) := by
  induction a with
  | zero => rw [zero_mul, Finset.sum_range_zero, Finset.sum_range_zero]
  | succ a ih => rw [Nat.succ_mul, Finset.sum_range_add, ih, Finset.sum_range_succ]

/-! ## Checked accesses -/

variable {ε : Type} (failure : ε)

def readAt (buf : List α) (place : ℕ) : Except ε α :=
  match buf[place]? with
  | some x => .ok x
  | none => .error failure

def modifyAt (buf : List α) (place : ℕ) (f : α → α) : Except ε (List α) :=
  if place < buf.length then .ok (buf.modify place f) else .error failure

def sliceAt (buf : List α) (off len : ℕ) : Except ε (List α) :=
  if off + len ≤ buf.length then .ok (slice buf off len) else .error failure

variable {failure}

theorem readAt_of_getElem? {buf : List α} {place : ℕ} {x : α} (hx : buf[place]? = some x) :
    readAt failure buf place = .ok x := by
  rw [readAt, hx]

theorem readAt_of_lt {buf : List α} {place : ℕ} (hplace : place < buf.length) (default : α) :
    readAt failure buf place = .ok (buf.getD place default) := by
  rw [readAt, getElem?_eq_getElem hplace, getD_eq_getElem _ _ hplace]

theorem mapM_eq_map {β : Type} {f : β → Except ε α} {g : β → α} {xs : List β}
    (hxs : ∀ x ∈ xs, f x = .ok (g x)) : xs.mapM f = .ok (xs.map g) := by
  rw [Outcome.mapM_eq_ok]
  induction xs with
  | nil => exact List.Forall₂.nil
  | cons x xs ih =>
    exact List.Forall₂.cons (hxs x mem_cons_self) (ih fun y hy ↦ hxs y (mem_cons_of_mem x hy))

theorem tabM_eq_tab {rows : ℕ → List α} {f : ℕ → Except ε (List α)}
    (hrows : ∀ i < n, f i = .ok (rows i)) : Outcome.tabM n f = .ok (tab n rows) :=
  Outcome.tabM_eq_ok.mpr ⟨rows, hrows, rfl⟩

/-- A loop that modifies places of a buffer, each of them once. -/
theorem foldlM_modifyAt {ι : Type} {jobs : List ι} {place : ι → ℕ} {f : ι → α → α}
    {step : List α → ι → Except ε (List α)} {buf out : List α}
    (hstep : ∀ job ∈ jobs, ∀ buf, step buf job = modifyAt failure buf (place job) (f job))
    (hnodup : (jobs.map place).Nodup) (hlength : out.length = buf.length)
    (hin : ∀ job ∈ jobs, place job < buf.length)
    (hjobs : ∀ job ∈ jobs, out[place job]? = buf[place job]?.map (f job))
    (hrest : ∀ i, i ∉ jobs.map place → out[i]? = buf[i]?) : jobs.foldlM step buf = .ok out := by
  induction jobs generalizing buf with
  | nil =>
    have hsame : out = buf := ext_getElem? fun i ↦ hrest i not_mem_nil
    rw [hsame]
    rfl
  | cons job jobs ih =>
    rw [map_cons, nodup_cons] at hnodup
    have hother : ∀ later ∈ jobs, place job ≠ place later := by
      intro later hlater heq
      exact hnodup.1 (heq ▸ mem_map_of_mem hlater)
    rw [foldlM_cons, hstep job mem_cons_self, modifyAt, if_pos (hin job mem_cons_self),
      Outcome.ok_bind]
    apply ih (fun later hlater ↦ hstep later (mem_cons_of_mem job hlater)) hnodup.2
    · rw [length_modify, hlength]
    · intro later hlater
      rw [length_modify]
      exact hin later (mem_cons_of_mem job hlater)
    · intro later hlater
      rw [getElem?_modify_ne _ _ (hother later hlater)]
      exact hjobs later (mem_cons_of_mem job hlater)
    · intro i hi
      by_cases heq : place job = i
      · subst heq
        rw [getElem?_modify_eq]
        exact hjobs job mem_cons_self
      · rw [getElem?_modify_ne _ _ heq]
        refine hrest i fun hmem ↦ ?_
        cases List.mem_cons.mp hmem with
        | inl hhead => exact heq hhead.symm
        | inr htail => exact hi htail

/-- Two loops, one inside the other. -/
theorem foldlM_foldlM {β ι κ : Type} (xs : List ι) (ys : List κ) (f : β → ι × κ → Except ε β)
    (start : β) :
    xs.foldlM (fun acc x ↦ ys.foldlM (fun acc y ↦ f acc (x, y)) acc) start =
      (xs ×ˢ ys).foldlM f start := by
  induction xs generalizing start with
  | nil => rfl
  | cons x xs ih =>
    rw [foldlM_cons, product_cons, foldlM_append, foldlM_map]
    exact bind_congr fun acc ↦ ih acc

end SoulSystem.Library.RowMajor
