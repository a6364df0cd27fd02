import SoulSystem.Scirust.Convolution.Gemm

/-!
# Convolutions

The sliding windows of the input are unfolded into the columns of a matrix, one matrix product with
the weights computes all output channels, and a last loop adds the biases.  A batch is one product
with the columns of all samples, whose result is stored again sample by sample.

Dimensions are unbounded numbers.  An assertion that fails, an access out of range and a subtraction
below zero are panics.

An entry of a convolution is a wrapped sum over the taps of the filter, and the bias.  The
unfolded columns are read back by the place of a tap among the rows and the place of a window
among the columns.

A kernel whose taps are spread is the kernel with zeros between its taps, because a rounded product
with zero is zero.
-/

namespace SoulSystem.Scirust

open Library RowMajor Outcome FixedReducible List

section Computed

/-! ## Shapes -/

structure Conv2dShape where
  inChannels : ℕ
  height : ℕ
  width : ℕ
  outChannels : ℕ
  kernelH : ℕ
  kernelW : ℕ
  strideH : ℕ
  strideW : ℕ

/-- The number of places of a window along one axis. -/
def windowsOut (size kernel stride : ℕ) : Except Failure ℕ := do
  require (1 ≤ stride)
  require (kernel ≤ size)
  return (size - kernel) / stride + 1

namespace Conv2dShape

variable (shape : Conv2dShape)

def heightOut : Except Failure ℕ := windowsOut shape.height shape.kernelH shape.strideH

def widthOut : Except Failure ℕ := windowsOut shape.width shape.kernelW shape.strideW

/-- The length of one sample. -/
def sampleLen : ℕ := shape.inChannels * shape.height * shape.width

/-- The number of taps of a filter. -/
def taps : ℕ := shape.inChannels * shape.kernelH * shape.kernelW

end Conv2dShape

structure DilatedConv2dShape extends Conv2dShape where
  dilationH : ℕ
  dilationW : ℕ

/-- The extent of a kernel whose taps are spread. -/
def effectiveKernel (dilation kernel : ℕ) : Except Failure ℕ := do
  require (1 ≤ kernel)
  return dilation * (kernel - 1) + 1

namespace DilatedConv2dShape

variable (shape : DilatedConv2dShape)

def effectiveKernelH : Except Failure ℕ := effectiveKernel shape.dilationH shape.kernelH

def effectiveKernelW : Except Failure ℕ := effectiveKernel shape.dilationW shape.kernelW

def heightOut : Except Failure ℕ := do
  require (1 ≤ shape.strideH)
  require (1 ≤ shape.dilationH)
  let eff ← shape.effectiveKernelH
  windowsOut shape.height eff shape.strideH

def widthOut : Except Failure ℕ := do
  require (1 ≤ shape.strideW)
  require (1 ≤ shape.dilationW)
  let eff ← shape.effectiveKernelW
  windowsOut shape.width eff shape.strideW

end DilatedConv2dShape

/-! ## Unfolded windows -/

section Unfold

variable {w frac : ℕ}

/-- The windows of an input as columns: a row for each tap, whose entries are read with the steps
between windows and between taps. -/
def unfoldWindows (x : List (Fixed w frac)) (shape : Conv2dShape) (stepH stepW heightOut widthOut : ℕ) :
    Except Failure (List (Fixed w frac)) :=
  tabM shape.inChannels fun ci ↦ tabM shape.kernelH fun kh ↦ tabM shape.kernelW fun kw ↦
    tabM heightOut fun oh ↦ (List.range widthOut).mapM fun ow ↦
      let h := oh * shape.strideH + kh * stepH
      let w := ow * shape.strideW + kw * stepW
      readAt Failure.panic x (ci * (shape.height * shape.width) + h * shape.width + w)

def im2col2d (x : List (Fixed w frac)) (shape : Conv2dShape) (heightOut widthOut : ℕ) :
    Except Failure (List (Fixed w frac)) :=
  unfoldWindows x shape 1 1 heightOut widthOut

def im2col2dDilated (x : List (Fixed w frac)) (shape : DilatedConv2dShape) (heightOut widthOut : ℕ) :
    Except Failure (List (Fixed w frac)) :=
  unfoldWindows x shape.toConv2dShape shape.dilationH shape.dilationW heightOut widthOut

def im2col2dBatch (x : List (Fixed w frac)) (batch : ℕ) (shape : Conv2dShape)
    (heightOut widthOut : ℕ) : Except Failure (List (Fixed w frac)) :=
  tabM shape.inChannels fun ci ↦ tabM shape.kernelH fun kh ↦ tabM shape.kernelW fun kw ↦
    tabM batch fun b ↦ do
      let xb ← sliceAt Failure.panic x (b * shape.sampleLen) shape.sampleLen
      tabM heightOut fun oh ↦ (List.range widthOut).mapM fun ow ↦
        let h := oh * shape.strideH + kh
        let w := ow * shape.strideW + kw
        readAt Failure.panic xb (ci * (shape.height * shape.width) + h * shape.width + w)

end Unfold

/-! ## Convolutions -/

section Convolutions

variable {w frac : ℕ}

/-- The biases are added channel by channel. -/
def addBias (y bias : List (Fixed w frac)) (spatialOut : ℕ) : Except Failure (List (Fixed w frac)) :=
  (List.range bias.length).foldlM
    (fun y co ↦ (List.range spatialOut).foldlM
      (fun y pos ↦ modifyAt Failure.panic y (co * spatialOut + pos)
        fun v ↦ Fixed.wrappingAdd v (entry bias co)) y) y

variable [FixedReducible w]

def conv2d (x weights bias : List (Fixed w frac)) (shape : Conv2dShape) :
    Except Failure (List (Fixed w frac)) := do
  let heightOut ← shape.heightOut
  let widthOut ← shape.widthOut
  require (x.length = shape.sampleLen)
  require (weights.length = shape.outChannels * shape.taps)
  require (bias.length = shape.outChannels)
  let col ← im2col2d x shape heightOut widthOut
  let spatialOut := heightOut * widthOut
  let y ← FixedReducible.matmul weights col shape.outChannels shape.taps spatialOut
  addBias y bias spatialOut

def dilatedConv2d (x weights bias : List (Fixed w frac)) (shape : DilatedConv2dShape) :
    Except Failure (List (Fixed w frac)) := do
  let heightOut ← shape.heightOut
  let widthOut ← shape.widthOut
  require (x.length = shape.sampleLen)
  require (weights.length = shape.outChannels * shape.taps)
  require (bias.length = shape.outChannels)
  let col ← im2col2dDilated x shape heightOut widthOut
  let spatialOut := heightOut * widthOut
  let y ← FixedReducible.matmul weights col shape.outChannels shape.taps spatialOut
  addBias y bias spatialOut

def conv2dBatch (x : List (Fixed w frac)) (batch : ℕ) (weights bias : List (Fixed w frac))
    (shape : Conv2dShape) : Except Failure (List (Fixed w frac)) := do
  let heightOut ← shape.heightOut
  let widthOut ← shape.widthOut
  let spatialOut := heightOut * widthOut
  require (x.length = batch * shape.sampleLen)
  require (weights.length = shape.outChannels * shape.taps)
  require (bias.length = shape.outChannels)
  let col ← im2col2dBatch x batch shape heightOut widthOut
  let gemm ← FixedReducible.matmul weights col shape.outChannels shape.taps (batch * spatialOut)
  let y := List.replicate (batch * shape.outChannels * spatialOut) ⟨0⟩
  (List.range bias.length).foldlM
    (fun y co ↦ (List.range batch).foldlM
      (fun y b ↦
        let src := co * (batch * spatialOut) + b * spatialOut
        let dst := b * (shape.outChannels * spatialOut) + co * spatialOut
        (List.range spatialOut).foldlM
          (fun y pos ↦ do
            let v ← readAt Failure.panic gemm (src + pos)
            modifyAt Failure.panic y (dst + pos) fun _ ↦ Fixed.wrappingAdd v (entry bias co)) y) y) y

end Convolutions

end Computed

/-! ## Direct definitions -/

section Definitions

variable {w frac : ℕ}

/-- A buffer of three dimensions by its entries. -/
def tensor {α : Type} (a b c : ℕ) (f : ℕ → ℕ → ℕ → α) : List α := tab a fun i ↦ grid b c (f i)

/-- The entry of an input under a tap in a window. -/
def windowPlace (shape : Conv2dShape) (stepH stepW ci kh kw oh ow : ℕ) : ℕ :=
  ci * (shape.height * shape.width) + (oh * shape.strideH + kh * stepH) * shape.width +
    (ow * shape.strideW + kw * stepW)

/-- The place of a tap of a filter among the weights. -/
def tapPlace (shape : Conv2dShape) (co ci kh kw : ℕ) : ℕ :=
  ((co * shape.inChannels + ci) * shape.kernelH + kh) * shape.kernelW + kw

/-- An entry of a convolution with steps between the taps. -/
def directAt (x weights bias : List (Fixed w frac)) (shape : Conv2dShape) (stepH stepW co oh ow : ℕ) :
    Fixed w frac :=
  Fixed.wrappingAdd
    ⟨∑ ci ∈ Finset.range shape.inChannels, ∑ kh ∈ Finset.range shape.kernelH,
      ∑ kw ∈ Finset.range shape.kernelW,
        (times (entry x (windowPlace shape stepH stepW ci kh kw oh ow))
          (entry weights (tapPlace shape co ci kh kw))).raw⟩
    (entry bias co)

end Definitions

variable {w frac : ℕ}

theorem times_comm (a b : Fixed w frac) : times a b = times b a := by
  have hwide : Fixed.mulWide (m := Id) (BitVec (2 * w)) a b = Fixed.mulWide (BitVec (2 * w)) b a :=
    mul_comm (toWide a.raw : BitVec (2 * w)) (toWide b.raw)
  rw [times, times, Fixed.wrappingMul, hwide]
  rfl

/-! ## Unfolded windows -/

section Unfolded

variable {shape : Conv2dShape} {x : List (Fixed w frac)} {stepH stepW heightOut widthOut : ℕ}

/-- All windows lie inside of the input. -/
structure Inside (shape : Conv2dShape) (stepH stepW heightOut widthOut : ℕ) : Prop where
  height : ∀ oh < heightOut, ∀ kh < shape.kernelH, oh * shape.strideH + kh * stepH < shape.height
  width : ∀ ow < widthOut, ∀ kw < shape.kernelW, ow * shape.strideW + kw * stepW < shape.width

theorem Inside.windowPlace_lt (hinside : Inside shape stepH stepW heightOut widthOut)
    {ci kh kw oh ow : ℕ} (hci : ci < shape.inChannels) (hkh : kh < shape.kernelH)
    (hkw : kw < shape.kernelW) (hoh : oh < heightOut) (how : ow < widthOut) :
    windowPlace shape stepH stepW ci kh kw oh ow < shape.sampleLen := by
  have hplane := place_lt (hinside.height oh hoh kh hkh) (hinside.width ow how kw hkw)
  have hplace := place_lt hci hplane
  rwa [← add_assoc, ← mul_assoc shape.inChannels] at hplace

/-- The columns of the windows. -/
def columns (x : List (Fixed w frac)) (shape : Conv2dShape) (stepH stepW heightOut widthOut : ℕ) :
    List (Fixed w frac) :=
  tab shape.inChannels fun ci ↦ tab shape.kernelH fun kh ↦ tab shape.kernelW fun kw ↦
    grid heightOut widthOut fun oh ow ↦ entry x (windowPlace shape stepH stepW ci kh kw oh ow)

theorem unfoldWindows_eq (hinside : Inside shape stepH stepW heightOut widthOut)
    (hx : x.length = shape.sampleLen) : unfoldWindows x shape stepH stepW heightOut widthOut =
      .ok (columns x shape stepH stepW heightOut widthOut) := by
  refine tabM_eq_tab fun ci hci ↦ tabM_eq_tab fun kh hkh ↦ tabM_eq_tab fun kw hkw ↦
    tabM_eq_tab fun oh hoh ↦ mapM_eq_map fun ow how ↦ readAt_of_lt ?_ _
  rw [hx]
  exact hinside.windowPlace_lt hci hkh hkw hoh (List.mem_range.mp how)

/-- A block of columns by the rows of the taps. -/
def tapRows (shape : Conv2dShape) (rows : ℕ → ℕ → ℕ → List (Fixed w frac)) : List (Fixed w frac) :=
  tab shape.inChannels fun ci ↦ tab shape.kernelH fun kh ↦ tab shape.kernelW (rows ci kh)

theorem length_tapRows {rows : ℕ → ℕ → ℕ → List (Fixed w frac)} {n : ℕ}
    (hrows : ∀ ci kh kw, (rows ci kh kw).length = n) : (tapRows shape rows).length = shape.taps * n := by
  have hlength : (tapRows shape rows).length =
      shape.inChannels * (shape.kernelH * (shape.kernelW * n)) :=
    length_tab fun ci _ ↦ length_tab fun kh _ ↦ length_tab fun kw _ ↦ hrows ci kh kw
  rw [hlength, Conv2dShape.taps]
  ring

theorem entry_tapRows {rows : ℕ → ℕ → ℕ → List (Fixed w frac)} {n ci kh kw p : ℕ}
    (hrows : ∀ ci kh kw, (rows ci kh kw).length = n) (hci : ci < shape.inChannels)
    (hkh : kh < shape.kernelH) (hkw : kw < shape.kernelW) (hp : p < n) :
    entry (tapRows shape rows) (((ci * shape.kernelH + kh) * shape.kernelW + kw) * n + p) =
      entry (rows ci kh kw) p := by
  have hplace : ((ci * shape.kernelH + kh) * shape.kernelW + kw) * n + p =
      ci * (shape.kernelH * (shape.kernelW * n)) + (kh * (shape.kernelW * n) + (kw * n + p)) := by
    ring
  have htap : kw * n + p < shape.kernelW * n := place_lt hkw hp
  have hrow : kh * (shape.kernelW * n) + (kw * n + p) < shape.kernelH * (shape.kernelW * n) :=
    place_lt hkh htap
  rw [entry, entry, getD_eq_getElem?_getD, getD_eq_getElem?_getD, hplace, tapRows,
    getElem?_tab (fun ci _ ↦ length_tab fun kh _ ↦ length_tab fun kw _ ↦ hrows ci kh kw) hci hrow,
    getElem?_tab (fun kh _ ↦ length_tab fun kw _ ↦ hrows ci kh kw) hkh htap,
    getElem?_tab (fun kw _ ↦ hrows ci kh kw) hkw hp]

theorem columns_eq_tapRows : columns x shape stepH stepW heightOut widthOut = tapRows shape fun ci kh kw ↦
    grid heightOut widthOut fun oh ow ↦ entry x (windowPlace shape stepH stepW ci kh kw oh ow) := rfl

theorem entry_grid {m n i j : ℕ} {f : ℕ → ℕ → Fixed w frac} (hi : i < m) (hj : j < n) :
    entry (grid m n f) (i * n + j) = f i j := by
  rw [entry, getD_eq_getElem?_getD, getElem?_grid hi hj, Option.getD_some]

end Unfolded

/-! ## The matrix product and the biases -/

section Products

variable {shape : Conv2dShape} {weights bias : List (Fixed w frac)}

/-- The sum over the taps of a filter, of what the rows have in a column. -/
def tapSum (shape : Conv2dShape) (weights : List (Fixed w frac))
    (rows : ℕ → ℕ → ℕ → List (Fixed w frac)) (co p : ℕ) : Fixed w frac :=
  ⟨∑ ci ∈ Finset.range shape.inChannels, ∑ kh ∈ Finset.range shape.kernelH,
    ∑ kw ∈ Finset.range shape.kernelW,
      (times (entry (rows ci kh kw) p) (entry weights (tapPlace shape co ci kh kw))).raw⟩

theorem matmul_tapRows [FixedReducible w] [LawfulReducible w] (hfrac : frac < w)
    {rows : ℕ → ℕ → ℕ → List (Fixed w frac)} {n : ℕ}
    (hweights : weights.length = shape.outChannels * shape.taps)
    (hrows : ∀ ci kh kw, (rows ci kh kw).length = n) :
    FixedReducible.matmul weights (tapRows shape rows) shape.outChannels shape.taps n =
      .ok (grid shape.outChannels n (tapSum shape weights rows)) := by
  rw [matmul_eq hfrac hweights (length_tapRows hrows)]
  refine congrArg Except.ok (grid_congr fun co _ p hp ↦ congrArg Fixed.mk ?_)
  rw [Conv2dShape.taps, sum_range_places, sum_range_places]
  refine Finset.sum_congr rfl fun ci hci ↦ Finset.sum_congr rfl fun kh hkh ↦
    Finset.sum_congr rfl fun kw hkw ↦ ?_
  have htap : co * (shape.inChannels * shape.kernelH * shape.kernelW) +
      ((ci * shape.kernelH + kh) * shape.kernelW + kw) = tapPlace shape co ci kh kw := by
    rw [tapPlace]
    ring
  rw [htap, entry_tapRows hrows (Finset.mem_range.mp hci) (Finset.mem_range.mp hkh)
    (Finset.mem_range.mp hkw) hp, times_comm]

theorem addBias_grid {m n : ℕ} (f : ℕ → ℕ → Fixed w frac) (hbias : bias.length = m) :
    addBias (grid m n f) bias n =
      .ok (grid m n fun co p ↦ Fixed.wrappingAdd (f co p) (entry bias co)) := by
  have hmem : ∀ job ∈ List.range m ×ˢ List.range n, job.1 < m ∧ job.2 < n := by
    intro job hjob
    rwa [mem_product, mem_range, mem_range] at hjob
  rw [addBias, hbias]
  refine (foldlM_foldlM _ _ (fun y job ↦ modifyAt Failure.panic y (job.1 * n + job.2)
    fun v ↦ Fixed.wrappingAdd v (entry bias job.1)) _).trans ?_
  refine foldlM_modifyAt (fun job _ buf ↦ rfl) ?_ (by rw [length_grid, length_grid]) ?_ ?_ ?_
  · refine List.Nodup.map_on ?_ (List.nodup_range.product nodup_range)
    intro job hjob job' hjob' hsame
    obtain ⟨hrow, hcol⟩ := place_inj (hmem job hjob).2 (hmem job' hjob').2 hsame
    exact Prod.ext hrow hcol
  · intro job hjob
    rw [length_grid]
    exact place_lt (hmem job hjob).1 (hmem job hjob).2
  · intro job hjob
    rw [getElem?_grid (hmem job hjob).1 (hmem job hjob).2,
      getElem?_grid (hmem job hjob).1 (hmem job hjob).2, Option.map_some]
  · intro place hplace
    have hout : m * n ≤ place := by
      by_contra hlt
      obtain ⟨co, hco, p, hp, rfl⟩ := exists_place (not_le.mp hlt)
      refine hplace (List.mem_map.mpr ⟨(co, p), ?_, rfl⟩)
      exact List.mem_product.mpr ⟨List.mem_range.mpr hco, List.mem_range.mpr hp⟩
    rw [getElem?_eq_none (by rwa [length_grid]), getElem?_eq_none (by rwa [length_grid])]

end Products

/-! ## Convolutions -/

section Convolutions

/-- The number of places of a window, where it fits. -/
def windows (size kernel stride : ℕ) : ℕ := (size - kernel) / stride + 1

theorem windowsOut_eq {size kernel stride : ℕ} (hstride : 1 ≤ stride) (hkernel : kernel ≤ size) :
    windowsOut size kernel stride = .ok (windows size kernel stride) := by
  rw [windowsOut, require_bind hstride, require_bind hkernel]
  rfl

theorem window_lt {size kernel stride place tap step : ℕ} (hkernel : kernel ≤ size)
    (htap : tap * step < kernel) (hplace : place < windows size kernel stride) :
    place * stride + tap * step < size := by
  have hlast : place * stride ≤ size - kernel := by
    calc
      place * stride ≤ (size - kernel) / stride * stride :=
        Nat.mul_le_mul_right stride (Nat.lt_succ_iff.mp hplace)
      _ ≤ size - kernel := Nat.div_mul_le_self _ _
  omega

/-- The lengths that a convolution asserts. -/
structure Conv2dShape.Lengths (shape : Conv2dShape) (x weights bias : List (Fixed w frac)) : Prop where
  input : x.length = shape.sampleLen
  weights : weights.length = shape.outChannels * shape.taps
  bias : bias.length = shape.outChannels

/-- The dimensions that a convolution asserts. -/
structure Conv2dShape.Fits (shape : Conv2dShape) : Prop where
  strideH : 1 ≤ shape.strideH
  strideW : 1 ≤ shape.strideW
  kernelH : shape.kernelH ≤ shape.height
  kernelW : shape.kernelW ≤ shape.width

namespace Conv2dShape

variable (shape : Conv2dShape)

def windowsH : ℕ := windows shape.height shape.kernelH shape.strideH

def windowsW : ℕ := windows shape.width shape.kernelW shape.strideW

end Conv2dShape

variable {shape : Conv2dShape} {x weights bias : List (Fixed w frac)} {stepH stepW heightOut widthOut : ℕ}

theorem Conv2dShape.Fits.inside (hfits : shape.Fits) : Inside shape 1 1 shape.windowsH shape.windowsW where
  height oh hoh kh hkh := window_lt hfits.kernelH (by omega) hoh
  width ow how kw hkw := window_lt hfits.kernelW (by omega) how

/-- The entries of a channel in all windows. -/
theorem grid_tapSum_columns :
    (grid shape.outChannels (heightOut * widthOut) fun co p ↦ Fixed.wrappingAdd
      (tapSum shape weights (fun ci kh kw ↦ grid heightOut widthOut fun oh ow ↦
        entry x (windowPlace shape stepH stepW ci kh kw oh ow)) co p) (entry bias co)) =
      tensor shape.outChannels heightOut widthOut
        (directAt x weights bias shape stepH stepW) := by
  rw [grid_blocks]
  refine tab_congr fun co _ ↦ grid_congr fun oh hoh ow how ↦ ?_
  simp only [tapSum, entry_grid hoh how]
  rfl

/-- The unfolded windows times the weights, and the biases. -/
theorem convolve_eq [FixedReducible w] [LawfulReducible w] (hfrac : frac < w)
    (hinside : Inside shape stepH stepW heightOut widthOut) (hlengths : shape.Lengths x weights bias) :
    (unfoldWindows x shape stepH stepW heightOut widthOut >>= fun col ↦
      FixedReducible.matmul weights col shape.outChannels shape.taps (heightOut * widthOut) >>= fun y ↦
        addBias y bias (heightOut * widthOut)) =
      .ok (tensor shape.outChannels heightOut widthOut
        (directAt x weights bias shape stepH stepW)) := by
  rw [unfoldWindows_eq hinside hlengths.input, ok_bind, columns_eq_tapRows,
    matmul_tapRows hfrac hlengths.weights fun _ _ _ ↦ length_grid _ _ _, ok_bind,
    addBias_grid _ hlengths.bias, grid_tapSum_columns]

variable [FixedReducible w] [LawfulReducible w]

/-- **A convolution** is computed entry by entry. -/
theorem conv2d_eq (hfrac : frac < w) (hfits : shape.Fits) (hlengths : shape.Lengths x weights bias) :
    conv2d x weights bias shape = .ok (tensor shape.outChannels shape.windowsH shape.windowsW
      (directAt x weights bias shape 1 1)) := by
  rw [conv2d, Conv2dShape.heightOut, windowsOut_eq hfits.strideH hfits.kernelH, ok_bind,
    Conv2dShape.widthOut, windowsOut_eq hfits.strideW hfits.kernelW, ok_bind,
    require_bind hlengths.input, require_bind hlengths.weights, require_bind hlengths.bias]
  exact convolve_eq hfrac hfits.inside hlengths

end Convolutions

end SoulSystem.Scirust
