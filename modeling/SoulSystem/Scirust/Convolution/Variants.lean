import SoulSystem.Scirust.Convolution.Conv2d

/-!
# Dilated and batched convolutions

A convolution whose taps are spread is the plain one with zeros between its taps, and a batch is the
convolutions of its samples one after the other.
-/

namespace SoulSystem.Scirust

open Library RowMajor Outcome FixedReducible List

variable {w frac : ℕ}

/-! ## Spread taps -/

/-- Only the multiples of the step contribute to a sum. -/
theorem sum_range_spread {M : Type} [AddCommMonoid M] {step count : ℕ} (hstep : 1 ≤ step)
    (hcount : 1 ≤ count) {f : ℕ → M} (hzero : ∀ i, i % step ≠ 0 → f i = 0) :
    ∑ i ∈ Finset.range (step * (count - 1) + 1), f i = ∑ k ∈ Finset.range count, f (k * step) := by
  have hinj : ∀ k l : ℕ, k * step = l * step → k = l := fun _ _ hsame ↦
    Nat.eq_of_mul_eq_mul_right hstep hsame
  have hsub : (Finset.range count).image (· * step) ⊆ Finset.range (step * (count - 1) + 1) := by
    intro i hi
    obtain ⟨k, hk, rfl⟩ := Finset.mem_image.mp hi
    rw [Finset.mem_range] at hk ⊢
    have hle : k * step ≤ (count - 1) * step := Nat.mul_le_mul_right step (by omega)
    rw [mul_comm step]
    omega
  rw [← Finset.sum_subset hsub, Finset.sum_image fun k _ l _ ↦ hinj k l]
  intro i hi hnot
  apply hzero
  intro hmultiple
  rw [Finset.mem_range] at hi
  refine hnot (Finset.mem_image.mpr ⟨i / step, Finset.mem_range.mpr ?_, ?_⟩)
  · have hlast : i / step ≤ count - 1 := by
      rw [Nat.div_le_iff_le_mul_add_pred hstep]
      omega
    omega
  · exact Nat.div_mul_cancel (Nat.dvd_of_mod_eq_zero hmultiple)

theorem times_zero [NeZero w] (hfrac : frac < w) (a : Fixed w frac) : times a ⟨0⟩ = ⟨0⟩ := by
  have hround : Rounding.towardZero.round (0 : ℚ) = 0 := by
    simpa using Rounding.round_intCast Rounding.towardZero 0
  rw [times, Fixed.wrappingMul_eq hfrac, BitVec.ofNat_eq_ofNat, BitVec.toInt_zero, Int.cast_zero,
    mul_zero, zero_div, hround]
  rfl

namespace DilatedConv2dShape

variable (shape : DilatedConv2dShape)

/-- The shape of the kernel with zeros between its taps. -/
def spread : Conv2dShape :=
  { shape.toConv2dShape with
    kernelH := shape.dilationH * (shape.kernelH - 1) + 1
    kernelW := shape.dilationW * (shape.kernelW - 1) + 1 }

/-- The dimensions that a dilated convolution asserts. -/
structure Fits : Prop where
  spread : shape.spread.Fits
  dilationH : 1 ≤ shape.dilationH
  dilationW : 1 ≤ shape.dilationW
  kernelH : 1 ≤ shape.kernelH
  kernelW : 1 ≤ shape.kernelW

/-- The kernel with zeros between its taps. -/
def spreadKernel (weights : List (Fixed w frac)) : List (Fixed w frac) :=
  tab shape.outChannels fun co ↦ tab shape.inChannels fun ci ↦
    grid shape.spread.kernelH shape.spread.kernelW fun a b ↦
      if a % shape.dilationH = 0 ∧ b % shape.dilationW = 0 then
        entry weights (tapPlace shape.toConv2dShape co ci (a / shape.dilationH) (b / shape.dilationW))
      else ⟨0⟩

variable {shape} {x weights bias : List (Fixed w frac)}

theorem length_spreadKernel :
    (shape.spreadKernel weights).length = shape.outChannels * shape.spread.taps := by
  have hlength : (shape.spreadKernel weights).length = shape.outChannels *
      (shape.inChannels * (shape.spread.kernelH * shape.spread.kernelW)) :=
    length_tab fun _ _ ↦ length_tab fun _ _ ↦ length_grid _ _ _
  rw [hlength, Conv2dShape.taps, mul_assoc]
  rfl

theorem entry_spreadKernel {co ci a b : ℕ} (hco : co < shape.outChannels)
    (hci : ci < shape.inChannels) (ha : a < shape.spread.kernelH) (hb : b < shape.spread.kernelW) :
    entry (shape.spreadKernel weights) (tapPlace shape.spread co ci a b) =
      if a % shape.dilationH = 0 ∧ b % shape.dilationW = 0 then
        entry weights (tapPlace shape.toConv2dShape co ci (a / shape.dilationH) (b / shape.dilationW))
      else ⟨0⟩ := by
  have hplace : tapPlace shape.spread co ci a b =
      co * (shape.inChannels * (shape.spread.kernelH * shape.spread.kernelW)) +
        (ci * (shape.spread.kernelH * shape.spread.kernelW) + (a * shape.spread.kernelW + b)) := by
    have hchannels : shape.spread.inChannels = shape.inChannels := rfl
    rw [tapPlace, hchannels]
    ring
  have htap : a * shape.spread.kernelW + b < shape.spread.kernelH * shape.spread.kernelW :=
    place_lt ha hb
  rw [entry, getD_eq_getElem?_getD, hplace, spreadKernel,
    getElem?_tab (fun _ _ ↦ length_tab fun _ _ ↦ length_grid _ _ _) hco (place_lt hci htap),
    getElem?_tab (fun _ _ ↦ length_grid _ _ _) hci htap, getElem?_grid ha hb, Option.getD_some]

/-- The zeros between the taps contribute nothing. -/
theorem directAt_spreadKernel [NeZero w] (hfrac : frac < w) (hfits : shape.Fits) {co oh ow : ℕ}
    (hco : co < shape.outChannels) :
    directAt x (shape.spreadKernel weights) bias shape.spread 1 1 co oh ow =
      directAt x weights bias shape.toConv2dShape shape.dilationH shape.dilationW co oh ow := by
  have hweight : ∀ ci ∈ Finset.range shape.inChannels, ∀ a ∈ Finset.range shape.spread.kernelH,
      ∀ b ∈ Finset.range shape.spread.kernelW,
        (times (entry x (windowPlace shape.spread 1 1 ci a b oh ow))
          (entry (shape.spreadKernel weights) (tapPlace shape.spread co ci a b))).raw =
        if a % shape.dilationH = 0 ∧ b % shape.dilationW = 0 then
          (times (entry x (windowPlace shape.spread 1 1 ci a b oh ow))
            (entry weights (tapPlace shape.toConv2dShape co ci (a / shape.dilationH)
              (b / shape.dilationW)))).raw
        else 0 := by
    intro ci hci a ha b hb
    rw [entry_spreadKernel hco (Finset.mem_range.mp hci) (Finset.mem_range.mp ha)
      (Finset.mem_range.mp hb)]
    split
    · rfl
    · rw [times_zero hfrac]
  refine congrArg (fun sum ↦ Fixed.wrappingAdd ⟨sum⟩ (entry bias co)) ?_
  refine Finset.sum_congr rfl fun ci hci ↦ ?_
  refine (Finset.sum_congr rfl fun a ha ↦ Finset.sum_congr rfl (hweight ci hci a ha)).trans ?_
  refine (sum_range_spread hfits.dilationH hfits.kernelH fun a ha ↦ ?_).trans ?_
  · exact Finset.sum_eq_zero fun b _ ↦ if_neg fun hboth ↦ ha hboth.1
  · refine Finset.sum_congr rfl fun kh _ ↦ ?_
    refine (sum_range_spread hfits.dilationW hfits.kernelW fun b hb ↦ ?_).trans ?_
    · exact if_neg fun hboth ↦ hb hboth.2
    · refine Finset.sum_congr rfl fun kw _ ↦ ?_
      rw [if_pos ⟨Nat.mul_mod_left _ _, Nat.mul_mod_left _ _⟩, Nat.mul_div_cancel _ hfits.dilationH,
        Nat.mul_div_cancel _ hfits.dilationW, windowPlace, windowPlace, mul_one, mul_one]
      rfl

theorem Fits.inside (hfits : shape.Fits) : Inside shape.toConv2dShape shape.dilationH shape.dilationW
    shape.spread.windowsH shape.spread.windowsW where
  height oh hoh kh hkh := by
    refine window_lt hfits.spread.kernelH (Nat.lt_succ_of_le ?_) hoh
    rw [mul_comm shape.dilationH]
    exact Nat.mul_le_mul_right _ (Nat.le_sub_one_of_lt hkh)
  width ow how kw hkw := by
    refine window_lt hfits.spread.kernelW (Nat.lt_succ_of_le ?_) how
    rw [mul_comm shape.dilationW]
    exact Nat.mul_le_mul_right _ (Nat.le_sub_one_of_lt hkw)

theorem effectiveKernel_eq {dilation kernel : ℕ} (hkernel : 1 ≤ kernel) :
    effectiveKernel dilation kernel = .ok (dilation * (kernel - 1) + 1) := by
  rw [effectiveKernel, require_bind hkernel]
  rfl

theorem Fits.heightOut_eq (hfits : shape.Fits) : shape.heightOut = .ok shape.spread.windowsH := by
  have hstride : 1 ≤ shape.strideH := hfits.spread.strideH
  rw [DilatedConv2dShape.heightOut, require_bind hstride, require_bind hfits.dilationH,
    effectiveKernelH, effectiveKernel_eq hfits.kernelH, ok_bind]
  exact windowsOut_eq hstride hfits.spread.kernelH

theorem Fits.widthOut_eq (hfits : shape.Fits) : shape.widthOut = .ok shape.spread.windowsW := by
  have hstride : 1 ≤ shape.strideW := hfits.spread.strideW
  rw [DilatedConv2dShape.widthOut, require_bind hstride, require_bind hfits.dilationW,
    effectiveKernelW, effectiveKernel_eq hfits.kernelW, ok_bind]
  exact windowsOut_eq hstride hfits.spread.kernelW

variable [NeZero w] [FixedReducible w] [LawfulReducible w]

/-- **A dilated convolution** is the plain one with zeros between the taps. -/
theorem dilatedConv2d_eq (hfrac : frac < w) (hfits : shape.Fits)
    (hlengths : shape.toConv2dShape.Lengths x weights bias) :
    dilatedConv2d x weights bias shape =
      conv2d x (shape.spreadKernel weights) bias shape.spread := by
  have hspread : shape.spread.Lengths x (shape.spreadKernel weights) bias :=
    ⟨hlengths.input, length_spreadKernel, hlengths.bias⟩
  rw [conv2d_eq hfrac hfits.spread hspread, dilatedConv2d, hfits.heightOut_eq, ok_bind,
    hfits.widthOut_eq, ok_bind, require_bind hlengths.input, require_bind hlengths.weights,
    require_bind hlengths.bias]
  refine (convolve_eq hfrac hfits.inside hlengths).trans (congrArg Except.ok ?_)
  exact tab_congr fun co hco ↦ grid_congr fun oh _ ow _ ↦ (directAt_spreadKernel hfrac hfits hco).symm

end DilatedConv2dShape

/-! ## Batches -/

section Batch

variable {shape : Conv2dShape} {batch : ℕ} {x weights bias : List (Fixed w frac)}

/-- The columns of the windows of all samples under one tap. -/
def batchRow (x : List (Fixed w frac)) (batch : ℕ) (shape : Conv2dShape) (ci kh kw : ℕ) :
    List (Fixed w frac) :=
  tab batch fun b ↦ grid shape.windowsH shape.windowsW fun oh ow ↦
    entry (slice x (b * shape.sampleLen) shape.sampleLen) (windowPlace shape 1 1 ci kh kw oh ow)

theorem sample_le {b : ℕ} (hb : b < batch) (hx : x.length = batch * shape.sampleLen) :
    b * shape.sampleLen + shape.sampleLen ≤ x.length := by
  rw [hx, ← Nat.succ_mul]
  exact Nat.mul_le_mul_right _ hb

theorem length_batchRow (ci kh kw : ℕ) : (batchRow x batch shape ci kh kw).length =
    batch * (shape.windowsH * shape.windowsW) :=
  length_tab fun _ _ ↦ length_grid _ _ _

theorem im2col2dBatch_eq (hfits : shape.Fits) (hx : x.length = batch * shape.sampleLen) :
    im2col2dBatch x batch shape shape.windowsH shape.windowsW =
      .ok (tapRows shape (batchRow x batch shape)) := by
  refine tabM_eq_tab fun ci hci ↦ tabM_eq_tab fun kh hkh ↦ tabM_eq_tab fun kw hkw ↦
    tabM_eq_tab fun b hb ↦ ?_
  have hsample := sample_le hb hx
  rw [sliceAt, if_pos hsample, ok_bind]
  refine tabM_eq_tab fun oh hoh ↦ mapM_eq_map fun ow how ↦ ?_
  have hplace := hfits.inside.windowPlace_lt hci hkh hkw hoh (List.mem_range.mp how)
  simp only [windowPlace, mul_one] at hplace ⊢
  refine readAt_of_lt ?_ _
  rwa [length_slice hsample]

theorem entry_batchRow {ci kh kw b p : ℕ} (hb : b < batch)
    (hp : p < shape.windowsH * shape.windowsW) :
    entry (batchRow x batch shape ci kh kw) (b * (shape.windowsH * shape.windowsW) + p) =
      entry (grid shape.windowsH shape.windowsW fun oh ow ↦
        entry (slice x (b * shape.sampleLen) shape.sampleLen)
          (windowPlace shape 1 1 ci kh kw oh ow)) p := by
  rw [entry, entry, getD_eq_getElem?_getD, getD_eq_getElem?_getD, batchRow,
    getElem?_tab (fun _ _ ↦ length_grid _ _ _) hb hp]

/-- The products of a channel are stored again sample by sample, with the bias. -/
theorem scatter_eq {m n : ℕ} (f : ℕ → ℕ → Fixed w frac) (hbias : bias.length = m) :
    (List.range bias.length).foldlM
      (fun y co ↦ (List.range batch).foldlM
        (fun y b ↦ (List.range n).foldlM
          (fun y pos ↦ do
            let v ← readAt Failure.panic (grid m (batch * n) f) (co * (batch * n) + b * n + pos)
            modifyAt Failure.panic y (b * (m * n) + co * n + pos)
              fun _ ↦ Fixed.wrappingAdd v (entry bias co)) y) y)
      (List.replicate (batch * m * n) ⟨0⟩) =
    .ok (tab batch fun b ↦ grid m n fun co pos ↦
      Fixed.wrappingAdd (f co (b * n + pos)) (entry bias co)) := by
  have hmem : ∀ job ∈ List.range m ×ˢ (List.range batch ×ˢ List.range n),
      job.1 < m ∧ job.2.1 < batch ∧ job.2.2 < n := by
    intro job hjob
    rwa [mem_product, mem_product, mem_range, mem_range, mem_range] at hjob
  have hplace : ∀ co b pos : ℕ, b * (m * n) + co * n + pos = b * (m * n) + (co * n + pos) :=
    fun co b pos ↦ add_assoc _ _ _
  have hlength : (tab batch fun b ↦ grid m n fun co pos ↦
      Fixed.wrappingAdd (f co (b * n + pos)) (entry bias co)).length = batch * (m * n) :=
    length_tab fun _ _ ↦ length_grid _ _ _
  have hloop : ∀ co y, (List.range batch).foldlM
      (fun y b ↦ (List.range n).foldlM
        (fun y pos ↦ do
          let v ← readAt Failure.panic (grid m (batch * n) f) (co * (batch * n) + b * n + pos)
          modifyAt Failure.panic y (b * (m * n) + co * n + pos)
            fun _ ↦ Fixed.wrappingAdd v (entry bias co)) y) y =
      (List.range batch ×ˢ List.range n).foldlM
        (fun y job ↦ do
          let v ← readAt Failure.panic (grid m (batch * n) f)
            (co * (batch * n) + job.1 * n + job.2)
          modifyAt Failure.panic y (job.1 * (m * n) + co * n + job.2)
            fun _ ↦ Fixed.wrappingAdd v (entry bias co)) y :=
    fun co y ↦ foldlM_foldlM _ _ (fun y job ↦ do
      let v ← readAt Failure.panic (grid m (batch * n) f) (co * (batch * n) + job.1 * n + job.2)
      modifyAt Failure.panic y (job.1 * (m * n) + co * n + job.2)
        fun _ ↦ Fixed.wrappingAdd v (entry bias co)) y
  simp only [hloop]
  rw [hbias]
  refine (foldlM_foldlM _ _ (fun y (job : ℕ × ℕ × ℕ) ↦ do
    let v ← readAt Failure.panic (grid m (batch * n) f)
      (job.1 * (batch * n) + job.2.1 * n + job.2.2)
    modifyAt Failure.panic y (job.2.1 * (m * n) + job.1 * n + job.2.2)
      fun _ ↦ Fixed.wrappingAdd v (entry bias job.1)) _).trans ?_
  refine @foldlM_modifyAt _ _ Failure.panic _ _
    (fun job : ℕ × ℕ × ℕ ↦ job.2.1 * (m * n) + (job.1 * n + job.2.2))
    (fun job _ ↦ Fixed.wrappingAdd (f job.1 (job.2.1 * n + job.2.2)) (entry bias job.1)) _ _ _
    ?_ ?_ ?_ ?_ ?_ ?_
  · intro job hjob buf
    obtain ⟨hco, hb, hpos⟩ := hmem job hjob
    rw [add_assoc, readAt_of_getElem? (getElem?_grid hco (place_lt hb hpos)), ok_bind, hplace]
  · refine List.Nodup.map_on ?_
      (List.nodup_range.product (List.nodup_range.product nodup_range))
    intro job hjob job' hjob' hsame
    obtain ⟨hco, hb, hpos⟩ := hmem job hjob
    obtain ⟨hco', hb', hpos'⟩ := hmem job' hjob'
    obtain ⟨hsample, hrest⟩ := place_inj (place_lt hco hpos) (place_lt hco' hpos') hsame
    obtain ⟨hchannel, hlast⟩ := place_inj hpos hpos' hrest
    exact Prod.ext hchannel (Prod.ext hsample hlast)
  · rw [hlength, length_replicate, mul_assoc]
  · intro job hjob
    obtain ⟨hco, hb, hpos⟩ := hmem job hjob
    rw [length_replicate, mul_assoc]
    exact place_lt hb (place_lt hco hpos)
  · intro job hjob
    obtain ⟨hco, hb, hpos⟩ := hmem job hjob
    have hin := place_lt hb (place_lt hco hpos)
    rw [getElem?_tab (fun _ _ ↦ length_grid _ _ _) hb (place_lt hco hpos), getElem?_grid hco hpos,
      getElem?_replicate, mul_assoc, if_pos hin, Option.map_some]
  · intro place hout
    have hlarge : batch * (m * n) ≤ place := by
      by_contra hlt
      obtain ⟨b, hb, rest, hrest, rfl⟩ := exists_place (not_le.mp hlt)
      obtain ⟨co, hco, pos, hpos, rfl⟩ := exists_place hrest
      refine hout (List.mem_map.mpr ⟨(co, b, pos), ?_, rfl⟩)
      exact List.mem_product.mpr ⟨List.mem_range.mpr hco,
        List.mem_product.mpr ⟨List.mem_range.mpr hb, List.mem_range.mpr hpos⟩⟩
    rw [getElem?_eq_none (by rwa [hlength]),
      getElem?_eq_none (by rwa [length_replicate, mul_assoc])]

variable [FixedReducible w] [LawfulReducible w]

/-- **A batch** is convolved sample by sample. -/
theorem conv2dBatch_eq (hfrac : frac < w) (hfits : shape.Fits)
    (hx : x.length = batch * shape.sampleLen)
    (hweights : weights.length = shape.outChannels * shape.taps)
    (hbias : bias.length = shape.outChannels) :
    conv2dBatch x batch weights bias shape = tabM batch fun b ↦
      conv2d (slice x (b * shape.sampleLen) shape.sampleLen) weights bias shape := by
  have hsamples : (tabM batch fun b ↦
      conv2d (slice x (b * shape.sampleLen) shape.sampleLen) weights bias shape) =
      .ok (tab batch fun b ↦ tensor shape.outChannels shape.windowsH shape.windowsW
        (directAt (slice x (b * shape.sampleLen) shape.sampleLen) weights bias shape 1 1)) :=
    tabM_eq_tab fun b hb ↦
      conv2d_eq hfrac hfits ⟨length_slice (sample_le hb hx), hweights, hbias⟩
  rw [hsamples, conv2dBatch, Conv2dShape.heightOut, windowsOut_eq hfits.strideH hfits.kernelH,
    ok_bind, Conv2dShape.widthOut, windowsOut_eq hfits.strideW hfits.kernelW, ok_bind,
    require_bind hx, require_bind hweights, require_bind hbias]
  refine (congrArg (· >>= _) (im2col2dBatch_eq hfits hx)).trans ?_
  rw [ok_bind]
  refine (congrArg (· >>= _) (matmul_tapRows hfrac hweights length_batchRow)).trans ?_
  rw [ok_bind]
  refine (scatter_eq _ hbias).trans (congrArg Except.ok (tab_congr fun b hb ↦ ?_))
  rw [← grid_tapSum_columns]
  refine grid_congr fun co hco pos hpos ↦ ?_
  simp only [tapSum, entry_batchRow hb hpos]

end Batch

/-! ## Both widths -/

/-- The convolutions of a width are what they are defined to be. -/
structure Convolves (w : ℕ) [FixedReducible w] : Prop where
  conv2d : ∀ {frac : ℕ} {shape : Conv2dShape} {x weights bias : List (Fixed w frac)}, frac < w →
    shape.Fits → shape.Lengths x weights bias →
    conv2d x weights bias shape = .ok (tensor shape.outChannels shape.windowsH shape.windowsW
      (directAt x weights bias shape 1 1))
  batch : ∀ {frac : ℕ} {shape : Conv2dShape} {batch : ℕ} {x weights bias : List (Fixed w frac)},
    frac < w → shape.Fits → x.length = batch * shape.sampleLen →
    weights.length = shape.outChannels * shape.taps → bias.length = shape.outChannels →
    conv2dBatch x batch weights bias shape = tabM batch fun b ↦
      Scirust.conv2d (slice x (b * shape.sampleLen) shape.sampleLen) weights bias shape
  dilated : ∀ {frac : ℕ} {shape : DilatedConv2dShape} {x weights bias : List (Fixed w frac)},
    frac < w → shape.Fits → shape.toConv2dShape.Lengths x weights bias →
    dilatedConv2d x weights bias shape =
      Scirust.conv2d x (shape.spreadKernel weights) bias shape.spread

theorem convolves (w : ℕ) [NeZero w] [FixedReducible w] [LawfulReducible w] : Convolves w where
  conv2d := conv2d_eq
  batch := conv2dBatch_eq
  dilated := DilatedConv2dShape.dilatedConv2d_eq

/-- **Convolutions** at 32 and at 64 bits. -/
theorem convolutions_eq : Convolves 32 ∧ Convolves 64 := ⟨convolves 32, convolves 64⟩

/-- Two samples of two columns each, a kernel of one column, and a last column that the
stride drops. -/
example : conv2dBatch [(⟨1⟩ : Fixed 64 0), ⟨2⟩, ⟨3⟩, ⟨4⟩] 2 [⟨5⟩] [⟨6⟩]
    { inChannels := 1, height := 1, width := 2, outChannels := 1, kernelH := 1, kernelW := 1,
      strideH := 1, strideW := 2 } = .ok [⟨11⟩, ⟨21⟩] := by
  decide +kernel

end SoulSystem.Scirust
