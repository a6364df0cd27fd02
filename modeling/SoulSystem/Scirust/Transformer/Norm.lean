import SoulSystem.Scirust.Transformer.Linear

/-!
# Normalisation and rotary positions

Both work on each row alone.  The rotation depends on the position of the row, and each head of a
row is rotated by itself.
-/

namespace SoulSystem.Scirust

open Library RowMajor Outcome List

variable {frac : ℕ}

/-! ## Normalisation -/

/-- A row is divided by the root of the mean of its squares and scaled. -/
def rmsnormRow (f : Scalars frac) (row gamma : List (Fixed 32 frac)) (d : ℕ) (eps : Fixed 32 frac) :
    Except Failure (List (Fixed 32 frac)) := do
  let meanSq ← orElse .undefined (checkedDiv (dot row row) (fromI32 (BitVec.ofNat 32 d)))
  let rms := f.sqrt (Fixed.wrappingAdd meanSq eps)
  (row.zip gamma).mapM fun pair ↦ do return mul (← orElse .undefined (checkedDiv pair.1 rms)) pair.2

def rmsnorm (f : Scalars frac) (x : List (Fixed 32 frac)) (rows d : ℕ) (gamma : List (Fixed 32 frac))
    (eps : Fixed 32 frac) : Except Failure (List (Fixed 32 frac)) := do
  require (x.length = rows * d)
  require (gamma.length = d)
  tabM rows fun r ↦ rmsnormRow f (slice x (r * d) d) gamma d eps

variable {f : Scalars frac} {gamma : List (Fixed 32 frac)} {d : ℕ} {eps : Fixed 32 frac}

theorem length_rmsnormRow {row out : List (Fixed 32 frac)} (hrow : row.length = d)
    (hgamma : gamma.length = d) (hok : rmsnormRow f row gamma d eps = .ok out) : out.length = d := by
  obtain ⟨_, -, hentries⟩ := bind_eq_ok.mp hok
  rw [length_of_mapM hentries, length_zip, hrow, hgamma, min_self]

/-- **The rows are normalised one by one.** -/
theorem rmsnorm_tab {n : ℕ} {x : ℕ → List (Fixed 32 frac)} {out : List (Fixed 32 frac)}
    (hx : ∀ r < n, (x r).length = d) (hgamma : gamma.length = d) :
    rmsnorm f (tab n x) n d gamma eps = .ok out ↔
      ∃ y, (∀ r < n, rmsnormRow f (x r) gamma d eps = .ok (y r)) ∧ out = tab n y := by
  rw [rmsnorm, require_bind (length_tab hx), require_bind hgamma, tabM_eq_ok]
  refine exists_congr fun y ↦ and_congr_left' (forall₂_congr fun r hr ↦ ?_)
  rw [slice_tab hx hr]

theorem rmsnorm_one {row : List (Fixed 32 frac)} (hrow : row.length = d) (hgamma : gamma.length = d) :
    rmsnorm f row 1 d gamma eps = rmsnormRow f row gamma d eps := by
  rw [rmsnorm, require_bind (hrow.trans (one_mul d).symm), require_bind hgamma, tabM_one, zero_mul,
    slice_self hrow]

/-! ## Rotary positions -/

/-- The angles of the pairs of a row for one step in position. -/
def thetas (f : Scalars frac) (base : Fixed 32 frac) (d : ℕ) : Except Failure (List (Fixed 32 frac)) :=
  (List.range (d / 2)).mapM fun i ↦ do
    let ratio ← orElse .panic
      (wrappingDiv (fromI32 (-2 * BitVec.ofNat 32 i)) (fromI32 (BitVec.ofNat 32 d)))
    return f.exp2 (mul ratio (f.log2 base))

/-- Each pair of a row is rotated. -/
def rotateRow (f : Scalars frac) (thetas : List (Fixed 32 frac)) (pos : ℕ)
    (row : List (Fixed 32 frac)) : List (Fixed 32 frac) :=
  thetas.zipIdx.foldl
    (fun row theta ↦
      let angle := mul (fromI32 (BitVec.ofNat 32 pos)) theta.1
      let s := f.sin angle
      let c := f.cos angle
      let a := row.getD (2 * theta.2) 0
      let b := row.getD (2 * theta.2 + 1) 0
      (row.set (2 * theta.2) (sub (mul a c) (mul b s))).set (2 * theta.2 + 1)
        (Fixed.wrappingAdd (mul a s) (mul b c)))
    row

def ropeApply (f : Scalars frac) (x : List (Fixed 32 frac)) (rows d : ℕ) (base : Fixed 32 frac)
    (posOffset : ℕ) : Except Failure (List (Fixed 32 frac)) := do
  require (x.length = rows * d)
  require (d % 2 = 0)
  let thetas ← thetas f base d
  return tab rows fun r ↦ rotateRow f thetas (posOffset + r) (slice x (r * d) d)

/-- Each head is extracted, rotated and written back. -/
def ropeApplyHeads (f : Scalars frac) (x : List (Fixed 32 frac)) (s h dHead : ℕ)
    (base : Fixed 32 frac) (posOffset : ℕ) : Except Failure (List (Fixed 32 frac)) := do
  let dm := h * dHead
  require (x.length = s * dm)
  (List.range h).foldlM
    (fun x head ↦ do
      let off := head * dHead
      let headBuf ← ropeApply f (tab s fun r ↦ slice x (r * dm + off) dHead) s dHead base posOffset
      return (List.range s).foldl
        (fun x r ↦ copyFromSlice x (r * dm + off) (slice headBuf (r * dHead) dHead)) x)
    x

theorem length_rotateRow (ths : List (Fixed 32 frac)) (pos : ℕ) (row : List (Fixed 32 frac)) :
    (rotateRow f ths pos row).length = row.length := by
  have hfold : ∀ (pairs : List (Fixed 32 frac × ℕ)) (step : List (Fixed 32 frac) →
      Fixed 32 frac × ℕ → List (Fixed 32 frac)), (∀ row pair, (step row pair).length = row.length) →
      ∀ row, (pairs.foldl step row).length = row.length := by
    intro pairs step hstep
    induction pairs with
    | nil => exact fun row ↦ rfl
    | cons pair pairs ih => exact fun row ↦ (ih _).trans (hstep row pair)
  refine hfold _ _ (fun row pair ↦ ?_) row
  rw [length_set, length_set]

/-! ## The divisor of the angles -/

/-- A positive number is not lost when it is scaled. -/
theorem fromI32_ne_zero (hfrac : frac < 32) {n : ℕ} (hn : 0 < n) (hfit : n < 2 ^ 31) :
    (fromI32 (BitVec.ofNat 32 n) : Fixed 32 frac).raw ≠ 0 := by
  have hvalue : (BitVec.ofNat 32 n).toInt = n := by
    rw [← BitVec.ofInt_natCast]
    exact toInt_ofInt_eq_self ⟨by omega, by omega⟩
  have hscale : (n : ℤ) * 2 ^ frac < 2 ^ 62 := by
    have hpow : (2 : ℤ) ^ frac ≤ 2 ^ 31 := pow_le_pow_right₀ (by norm_num) (by omega)
    have hint : (n : ℤ) < 2 ^ 31 := by exact_mod_cast hfit
    calc (n : ℤ) * 2 ^ frac ≤ n * 2 ^ 31 := by gcongr
      _ < 2 ^ 31 * 2 ^ 31 := by gcongr
      _ = 2 ^ 62 := by norm_num
  have hpos : 0 < (n : ℤ) * 2 ^ frac := by positivity
  have hlaws : LawfulStorage 32 (BitVec (2 * 32)) Id := inferInstance
  obtain ⟨wide, hwide, hval⟩ := hlaws.shl (toWide (BitVec.ofNat 32 n)) frac (by
    rw [hlaws.val_toWide, hvalue]
    exact ⟨by omega, by omega⟩)
  rw [hlaws.val_toWide, hvalue] at hval
  have hnarrow := Option.some.inj (narrow_eq (m := Id) wide .saturate)
  have hraw : (fromI32 (BitVec.ofNat 32 n) : Fixed 32 frac).raw =
      BitVec.ofInt 32 (max (-2 ^ 31) (min ((n : ℤ) * 2 ^ frac) (2 ^ 31 - 1))) := by
    rw [fromI32, ← hval]
    exact (congrArg (fun wide : BitVec (2 * 32) ↦ fromWideSaturating wide) hwide).trans hnarrow
  intro hzero
  have hint := congrArg BitVec.toInt (hraw.symm.trans hzero)
  rw [toInt_ofInt_eq_self ⟨by omega, by omega⟩, BitVec.ofNat_eq_ofNat, BitVec.toInt_zero] at hint
  omega

theorem wrappingDiv_eq_some {a b : Fixed 32 frac} (hb : b.raw ≠ 0) :
    ∃ q, wrappingDiv a b = some q := by
  rw [wrappingDiv, Fixed.wrappingDiv, Fixed.divRounded, if_neg hb]
  exact ⟨_, rfl⟩

theorem thetas_eq_ok (hfrac : frac < 32) (base : Fixed 32 frac) {dHead : ℕ} (hfit : dHead < 2 ^ 31) :
    ∃ ths, thetas f base dHead = .ok ths := by
  have hall : ∀ is : List ℕ, (∀ i ∈ is, 0 < dHead) → ∃ ths, (is.mapM fun i ↦ do
      let ratio ← orElse .panic
        (wrappingDiv (fromI32 (-2 * BitVec.ofNat 32 i)) (fromI32 (BitVec.ofNat 32 dHead)))
      return f.exp2 (mul ratio (f.log2 base)) : Except Failure (List (Fixed 32 frac))) = .ok ths := by
    intro is hpos
    induction is with
    | nil => exact ⟨[], rfl⟩
    | cons i is ih =>
      obtain ⟨rest, hrest⟩ := ih fun j hj ↦ hpos j (mem_cons_of_mem i hj)
      obtain ⟨ratio, hratio⟩ := wrappingDiv_eq_some (a := fromI32 (-2 * BitVec.ofNat 32 i))
        (fromI32_ne_zero hfrac (hpos i mem_cons_self) hfit)
      rw [mapM_cons, hratio, hrest]
      exact ⟨_, rfl⟩
  exact hall _ fun i hi ↦ by
    have hhalf := List.mem_range.mp hi
    omega

/-! ## Heads are rotated by themselves -/

/-- A row at a position, with its heads rotated. -/
def ropeRow (f : Scalars frac) (ths : List (Fixed 32 frac)) (h dHead pos : ℕ)
    (row : List (Fixed 32 frac)) : List (Fixed 32 frac) :=
  tab h fun head ↦ rotateRow f ths pos (slice row (head * dHead) dHead)

theorem length_ropeRow (ths : List (Fixed 32 frac)) {h dHead : ℕ} (pos : ℕ) {row : List (Fixed 32 frac)}
    (hrow : row.length = h * dHead) : (ropeRow f ths h dHead pos row).length = h * dHead := by
  refine length_tab fun head hhead ↦ ?_
  rw [length_rotateRow, length_slice]
  rw [hrow, ← Nat.succ_mul]
  exact Nat.mul_le_mul_right dHead hhead

theorem ropeApply_tab {ths : List (Fixed 32 frac)} {base : Fixed 32 frac} {n dHead off : ℕ}
    {x : ℕ → List (Fixed 32 frac)} (hths : thetas f base dHead = .ok ths) (heven : dHead % 2 = 0)
    (hx : ∀ r < n, (x r).length = dHead) :
    ropeApply f (tab n x) n dHead base off = .ok (tab n fun r ↦ rotateRow f ths (off + r) (x r)) := by
  rw [ropeApply, require_bind (length_tab hx), require_bind heven, hths]
  refine congrArg Except.ok (tab_congr fun r hr ↦ ?_)
  rw [slice_tab hx hr]

/-- **The rows are rotated one by one**, each by its position. -/
theorem ropeApplyHeads_tab {ths : List (Fixed 32 frac)} {base : Fixed 32 frac} {s h dHead off : ℕ}
    {x : ℕ → List (Fixed 32 frac)} (hths : thetas f base dHead = .ok ths) (heven : dHead % 2 = 0)
    (hx : ∀ r < s, (x r).length = h * dHead) :
    ropeApplyHeads f (tab s x) s h dHead base off =
      .ok (tab s fun r ↦ ropeRow f ths h dHead (off + r) (x r)) := by
  let blocks : ℕ → ℕ → ℕ → List (Fixed 32 frac) := fun count r head ↦
    if head < count then rotateRow f ths (off + r) (slice (x r) (head * dHead) dHead)
    else slice (x r) (head * dHead) dHead
  have hslice : ∀ r < s, ∀ head < h, (slice (x r) (head * dHead) dHead).length = dHead := by
    intro r hr head hhead
    refine length_slice ?_
    rw [hx r hr, ← Nat.succ_mul]
    exact Nat.mul_le_mul_right dHead hhead
  have hblocks : ∀ count, ∀ r < s, ∀ head < h, (blocks count r head).length = dHead := by
    intro count r hr head hhead
    simp only [blocks]
    split
    · rw [length_rotateRow, hslice r hr head hhead]
    · exact hslice r hr head hhead
  have hloop : ∀ count ≤ h, (List.range count).foldlM
      (fun x head ↦ do
        let headBuf ← ropeApply f (tab s fun r ↦ slice x (r * (h * dHead) + head * dHead) dHead) s
          dHead base off
        return (List.range s).foldl (fun x r ↦
          copyFromSlice x (r * (h * dHead) + head * dHead) (slice headBuf (r * dHead) dHead)) x)
      (tab s x) = (.ok (tab s fun r ↦ tab h (blocks count r)) : Except Failure _) := by
    intro count hcount
    induction count with
    | zero =>
      refine congrArg Except.ok (tab_congr fun r hr ↦ ?_)
      refine (eq_tab (hx r hr)).trans (tab_congr fun head _ ↦ ?_)
      exact (if_neg (Nat.not_lt_zero head)).symm
    | succ count ih =>
      have hinside : count * dHead + dHead ≤ h * dHead := by
        rw [← Nat.succ_mul]
        exact Nat.mul_le_mul_right dHead hcount
      have hrows : ∀ r < s, (tab h (blocks count r)).length = h * dHead := fun r hr ↦
        length_tab (hblocks count r hr)
      have hgather : (tab s fun r ↦ slice (tab s fun r ↦ tab h (blocks count r))
          (r * (h * dHead) + count * dHead) dHead) =
            tab s fun r ↦ slice (x r) (count * dHead) dHead := by
        rw [gather_tab hrows hinside]
        refine tab_congr fun r hr ↦ ?_
        rw [slice_tab (hblocks count r hr) hcount]
        exact if_neg (lt_irrefl count)
      have hrotated : ∀ r < s, (rotateRow f ths (off + r) (slice (x r) (count * dHead) dHead)).length =
          dHead := fun r hr ↦ by rw [length_rotateRow, hslice r hr count hcount]
      have hdata : ∀ r < s, slice (tab s fun r ↦ rotateRow f ths (off + r)
          (slice (x r) (count * dHead) dHead)) (r * dHead) dHead =
            rotateRow f ths (off + r) (slice (x r) (count * dHead) dHead) := fun r hr ↦
        slice_tab hrotated hr
      rw [range_succ, foldlM_append, ih (Nat.le_of_succ_le hcount), ok_bind,
        foldlM_cons, hgather, ropeApply_tab hths heven fun r hr ↦ hslice r hr count hcount]
      refine congrArg Except.ok ?_
      rw [scatter_tab (hblocks count) hcount fun r hr ↦ by rw [hdata r hr, hrotated r hr]]
      refine tab_congr fun r hr ↦ tab_congr fun head _ ↦ ?_
      by_cases hlast : head = count
      · rw [hlast, Function.update_self, hdata r hr]
        exact (if_pos (Nat.lt_succ_self count)).symm
      · rw [Function.update_of_ne hlast]
        exact if_congr (by omega) rfl rfl
  rw [ropeApplyHeads, require_bind (length_tab hx)]
  refine (hloop h le_rfl).trans (congrArg Except.ok (tab_congr fun r _ ↦ tab_congr fun head hhead ↦ ?_))
  exact if_pos hhead

end SoulSystem.Scirust
