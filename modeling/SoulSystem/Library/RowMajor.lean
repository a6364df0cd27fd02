import Mathlib.Algebra.Order.Group.Nat
import Mathlib.Data.List.GetD
import Mathlib.Tactic.Ring

/-!
# Row-major buffers

A matrix is one list, row after row.  It is tabulated by its rows, and reading or overwriting a part
of a row is an operation on this row alone.
-/

namespace SoulSystem.Library.RowMajor

open List Function

variable {α : Type*}

/-! ## Parts of a buffer -/

def slice (buf : List α) (off len : ℕ) : List α := (buf.drop off).take len

/-- A part is overwritten. -/
def copyFromSlice (buf : List α) (off : ℕ) (data : List α) : List α :=
  buf.take off ++ (data ++ buf.drop (off + data.length))

theorem length_slice {buf : List α} {off len : ℕ} (hinside : off + len ≤ buf.length) :
    (slice buf off len).length = len := by
  rw [slice, length_take, length_drop]
  omega

theorem slice_zero (buf : List α) (len : ℕ) : slice buf 0 len = buf.take len := rfl

theorem slice_self {buf : List α} {len : ℕ} (hlength : buf.length = len) : slice buf 0 len = buf := by
  rw [slice_zero, ← hlength, take_length]

theorem copy_self {buf data : List α} (hlength : data.length = buf.length) :
    copyFromSlice buf 0 data = data := by
  rw [copyFromSlice, take_zero, nil_append, zero_add, hlength, drop_length,
    append_nil]

theorem length_copy {buf data : List α} {off : ℕ} (hinside : off + data.length ≤ buf.length) :
    (copyFromSlice buf off data).length = buf.length := by
  rw [copyFromSlice, length_append, length_append, length_take, length_drop]
  omega

theorem slice_append_mid {before mid after : List α} {off len : ℕ}
    (hinside : off + len ≤ mid.length) :
    slice (before ++ (mid ++ after)) (before.length + off) len = slice mid off len := by
  rw [slice, slice, drop_append, drop_eq_nil_of_le (Nat.le_add_right _ _), nil_append,
    Nat.add_sub_cancel_left, drop_append_of_le_length (by omega),
    take_append_of_le_length (by rw [length_drop]; omega)]

theorem copy_append_mid {before mid after data : List α} {off : ℕ}
    (hinside : off + data.length ≤ mid.length) :
    copyFromSlice (before ++ (mid ++ after)) (before.length + off) data =
      before ++ (copyFromSlice mid off data ++ after) := by
  have htake : (before ++ (mid ++ after)).take (before.length + off) = before ++ mid.take off := by
    rw [take_append, take_of_length_le (Nat.le_add_right _ _), Nat.add_sub_cancel_left,
      take_append_of_le_length (by omega)]
  have hdrop : (before ++ (mid ++ after)).drop (before.length + (off + data.length)) =
      mid.drop (off + data.length) ++ after := by
    rw [drop_append, drop_eq_nil_of_le (Nat.le_add_right _ _), nil_append,
      Nat.add_sub_cancel_left, drop_append_of_le_length hinside]
  rw [copyFromSlice, add_assoc, htake, hdrop, copyFromSlice, append_assoc, append_assoc,
    append_assoc]

/-! ## Tabulated buffers -/

/-- The buffer with the rows. -/
def tab (n : ℕ) (rows : ℕ → List α) : List α := (List.range n).flatMap rows

variable {n w r : ℕ} {rows rows' : ℕ → List α}

theorem tab_zero (rows : ℕ → List α) : tab 0 rows = [] := rfl

theorem tab_succ (n : ℕ) (rows : ℕ → List α) : tab (n + 1) rows = tab n rows ++ rows n := by
  rw [tab, range_succ, flatMap_append, flatMap_singleton, tab]

theorem tab_one (rows : ℕ → List α) : tab 1 rows = rows 0 := by
  rw [tab_succ, tab_zero, nil_append]

theorem tab_add (n m : ℕ) (rows : ℕ → List α) :
    tab (n + m) rows = tab n rows ++ tab m fun i ↦ rows (n + i) := by
  induction m with
  | zero => rw [add_zero, tab_zero, append_nil]
  | succ m ih => rw [← add_assoc, tab_succ, ih, tab_succ, append_assoc]

theorem tab_congr (hrows : ∀ r < n, rows r = rows' r) : tab n rows = tab n rows' := by
  induction n with
  | zero => rfl
  | succ n ih =>
    rw [tab_succ, tab_succ, ih fun r hr ↦ hrows r (Nat.lt_succ_of_lt hr), hrows n (Nat.lt_succ_self n)]

theorem length_tab (hrows : ∀ r < n, (rows r).length = w) : (tab n rows).length = n * w := by
  induction n with
  | zero => rw [tab_zero, length_nil, zero_mul]
  | succ n ih =>
    rw [tab_succ, length_append, ih fun r hr ↦ hrows r (Nat.lt_succ_of_lt hr),
      hrows n (Nat.lt_succ_self n), Nat.succ_mul]

/-- A row between the rows before and after it. -/
theorem tab_split (hr : r < n) (rows : ℕ → List α) :
    tab n rows = tab r rows ++ (rows r ++ tab (n - (r + 1)) fun i ↦ rows (r + 1 + i)) := by
  have hsplit : n = r + 1 + (n - (r + 1)) := by
    omega
  conv_lhs => rw [hsplit]
  rw [tab_add, tab_succ, append_assoc]

theorem take_tab (hrows : ∀ r < n, (rows r).length = w) (hr : r ≤ n) :
    (tab n rows).take (r * w) = tab r rows := by
  have hsplit : n = r + (n - r) := by
    omega
  have hlength : (tab r rows).length = r * w := length_tab fun i hi ↦ hrows i (hi.trans_le hr)
  rw [hsplit, tab_add]
  exact take_left' hlength

/-- A part of a row. -/
theorem slice_tab_row {off len : ℕ} (hrows : ∀ r < n, (rows r).length = w) (hr : r < n)
    (hinside : off + len ≤ w) : slice (tab n rows) (r * w + off) len = slice (rows r) off len := by
  have hlength : (tab r rows).length = r * w := length_tab fun i hi ↦ hrows i (hi.trans hr)
  rw [tab_split hr, ← hlength]
  exact slice_append_mid (hinside.trans_eq (hrows r hr).symm)

theorem slice_tab (hrows : ∀ r < n, (rows r).length = w) (hr : r < n) :
    slice (tab n rows) (r * w) w = rows r := by
  have hpart : slice (tab n rows) (r * w + 0) w = slice (rows r) 0 w :=
    slice_tab_row hrows hr (zero_add w).le
  rw [add_zero] at hpart
  exact hpart.trans (slice_self (hrows r hr))

/-- Only one row changes when a part of it is overwritten. -/
theorem copy_tab_row {off : ℕ} {data : List α} (hrows : ∀ r < n, (rows r).length = w) (hr : r < n)
    (hinside : off + data.length ≤ w) :
    copyFromSlice (tab n rows) (r * w + off) data =
      tab n (update rows r (copyFromSlice (rows r) off data)) := by
  have hlength : (tab r rows).length = r * w := length_tab fun i hi ↦ hrows i (hi.trans hr)
  rw [tab_split hr rows, ← hlength, copy_append_mid (hinside.trans_eq (hrows r hr).symm),
    tab_split hr (update rows r _), update_self]
  congr 1
  · exact tab_congr fun i hi ↦ (update_of_ne hi.ne _ _).symm
  · congr 1
    exact tab_congr fun i _ ↦ (update_of_ne (by omega) _ _).symm

/-- Every buffer of the right length is tabulated. -/
theorem eq_tab {buf : List α} (hlength : buf.length = n * w) :
    buf = tab n fun r ↦ slice buf (r * w) w := by
  induction n generalizing buf with
  | zero => exact eq_nil_of_length_eq_zero (hlength.trans (zero_mul w))
  | succ n ih =>
    rw [Nat.succ_mul] at hlength
    have hsplit := take_append_drop (n * w) buf
    have htake : (buf.take (n * w)).length = n * w := by
      rw [length_take]
      omega
    have hlast : slice buf (n * w) w = buf.drop (n * w) := by
      rw [slice]
      exact take_of_length_le (by rw [length_drop]; omega)
    have hrows : ∀ r < n, slice (buf.take (n * w)) (r * w) w = slice buf (r * w) w := by
      intro r hr
      have hinside : r * w + w ≤ n * w := by
        rw [← Nat.succ_mul]
        exact Nat.mul_le_mul_right w hr
      rw [slice, slice, drop_take, take_take, min_eq_left (by omega)]
    rw [tab_succ, hlast, ← tab_congr hrows, ← ih htake, hsplit]

/-- A part of each of the first rows is overwritten in turn. -/
theorem foldl_copy_tab {off len : ℕ} {data : ℕ → List α} (hrows : ∀ r < n, (rows r).length = w)
    (hdata : ∀ r < n, (data r).length = len) (hinside : off + len ≤ w) {m : ℕ} (hm : m ≤ n) :
    (List.range m).foldl (fun buf r ↦ copyFromSlice buf (r * w + off) (data r)) (tab n rows) =
      tab n fun r ↦ if r < m then copyFromSlice (rows r) off (data r) else rows r := by
  induction m with
  | zero => exact tab_congr fun r _ ↦ (if_neg (Nat.not_lt_zero r)).symm
  | succ m ih =>
    have hlength : ∀ r < n, (if r < m then copyFromSlice (rows r) off (data r) else rows r).length =
        w := by
      intro r hr
      split
      · rw [length_copy (by rw [hdata r hr, hrows r hr]; exact hinside), hrows r hr]
      · exact hrows r hr
    rw [range_succ, foldl_append, ih (Nat.le_of_succ_le hm), foldl_cons,
      foldl_nil, copy_tab_row hlength hm (by rw [hdata m hm]; exact hinside)]
    refine tab_congr fun r _ ↦ ?_
    by_cases hlast : r = m
    · rw [hlast, update_self, if_neg (lt_irrefl m), if_pos (Nat.lt_succ_self m)]
    · rw [update_of_ne hlast]
      exact if_congr (by omega) rfl rfl

theorem take_copy {buf data : List α} {off : ℕ} (hoff : off ≤ buf.length) :
    (copyFromSlice buf off data).take (off + data.length) = buf.take off ++ data := by
  rw [copyFromSlice, ← append_assoc]
  exact take_left' (by rw [length_append, length_take, min_eq_left hoff])

/-- The rows of a list one after the other. -/
theorem flatten_eq_tab (xs : List (List α)) : xs.flatten = tab xs.length fun r ↦ xs.getD r [] := by
  have hrows : xs = (List.range xs.length).map fun r ↦ xs.getD r [] := by
    refine ext_getElem (by rw [length_map, length_range]) fun r hr _ ↦ ?_
    rw [getElem_map, getElem_range, getD_eq_getElem _ _ hr]
  conv_lhs => rw [hrows]
  rw [← flatMap_def, tab]

/-! ## Columns of blocks -/

/-- The parts at one place of all rows. -/
theorem gather_tab {off len : ℕ} (hrows : ∀ r < n, (rows r).length = w) (hinside : off + len ≤ w) :
    (tab n fun r ↦ slice (tab n rows) (r * w + off) len) = tab n fun r ↦ slice (rows r) off len :=
  tab_congr fun _ hr ↦ slice_tab_row hrows hr hinside

theorem copy_tab {data : List α} (hrows : ∀ r < n, (rows r).length = w) (hr : r < n)
    (hdata : data.length = w) :
    copyFromSlice (tab n rows) (r * w) data = tab n (update rows r data) := by
  have hpart : copyFromSlice (tab n rows) (r * w + 0) data =
      tab n (update rows r (copyFromSlice (rows r) 0 data)) :=
    copy_tab_row hrows hr (by omega)
  rwa [add_zero, copy_self (hdata.trans (hrows r hr).symm)] at hpart

/-- One block of each row is overwritten. -/
theorem scatter_tab {h block : ℕ} {blocks : ℕ → ℕ → List α} {data : ℕ → List α} {head : ℕ}
    (hblocks : ∀ r < n, ∀ b < h, (blocks r b).length = block) (hhead : head < h)
    (hdata : ∀ r < n, (data r).length = block) :
    (List.range n).foldl (fun buf r ↦ copyFromSlice buf (r * (h * block) + head * block) (data r))
      (tab n fun r ↦ tab h (blocks r)) =
      tab n fun r ↦ tab h (update (blocks r) head (data r)) := by
  have hrows : ∀ r < n, (tab h (blocks r)).length = h * block := fun r hr ↦ length_tab (hblocks r hr)
  have hinside : head * block + block ≤ h * block := by
    rw [← Nat.succ_mul]
    exact Nat.mul_le_mul_right block hhead
  rw [foldl_copy_tab hrows hdata hinside le_rfl]
  refine tab_congr fun r hr ↦ ?_
  rw [if_pos hr, copy_tab (hblocks r hr) hhead (hdata r hr)]

theorem eq_tab_tab {h block : ℕ} {buf : List α} (hlength : buf.length = n * (h * block)) :
    ∃ blocks : ℕ → ℕ → List α, (∀ r < n, ∀ b < h, (blocks r b).length = block) ∧
      buf = tab n fun r ↦ tab h (blocks r) := by
  have hrow : ∀ r < n, (slice buf (r * (h * block)) (h * block)).length = h * block := by
    intro r hr
    refine length_slice ?_
    rw [hlength, ← Nat.succ_mul]
    exact Nat.mul_le_mul_right _ hr
  refine ⟨fun r b ↦ slice (slice buf (r * (h * block)) (h * block)) (b * block) block,
    fun r hr b hb ↦ length_slice ?_, ?_⟩
  · rw [hrow r hr, ← Nat.succ_mul]
    exact Nat.mul_le_mul_right _ hb
  · exact (eq_tab hlength).trans (tab_congr fun r hr ↦ eq_tab (hrow r hr))

/-- All blocks of all rows are overwritten, block by block. -/
theorem scatter_all {h block : ℕ} {buf : List α} {data : ℕ → ℕ → List α}
    (hlength : buf.length = n * (h * block)) (hdata : ∀ b < h, ∀ r < n, (data b r).length = block) :
    (List.range h).foldl (fun buf b ↦ (List.range n).foldl
      (fun buf r ↦ copyFromSlice buf (r * (h * block) + b * block) (data b r)) buf) buf =
      tab n fun r ↦ tab h fun b ↦ data b r := by
  obtain ⟨blocks, hblocks, hbuf⟩ := eq_tab_tab hlength
  have hmixed : ∀ count, ∀ r < n, ∀ b < h,
      (if b < count then data b r else blocks r b).length = block := by
    intro count r hr b hb
    split
    · exact hdata b hb r hr
    · exact hblocks r hr b hb
  have hloop : ∀ count ≤ h, (List.range count).foldl (fun buf b ↦ (List.range n).foldl
      (fun buf r ↦ copyFromSlice buf (r * (h * block) + b * block) (data b r)) buf)
      (tab n fun r ↦ tab h (blocks r)) =
        tab n fun r ↦ tab h fun b ↦ if b < count then data b r else blocks r b := by
    intro count hcount
    induction count with
    | zero => exact tab_congr fun r _ ↦ tab_congr fun b _ ↦ (if_neg (Nat.not_lt_zero b)).symm
    | succ count ih =>
      rw [range_succ, foldl_append, ih (Nat.le_of_succ_le hcount), foldl_cons,
        foldl_nil, scatter_tab (hmixed count) hcount (hdata count hcount)]
      refine tab_congr fun r _ ↦ tab_congr fun b _ ↦ ?_
      by_cases hlast : b = count
      · rw [hlast, update_self, if_pos (Nat.lt_succ_self count)]
      · rw [update_of_ne hlast]
        exact if_congr (by omega) rfl rfl
  rw [hbuf, hloop h le_rfl]
  exact tab_congr fun r _ ↦ tab_congr fun b hb ↦ if_pos hb

end SoulSystem.Library.RowMajor
