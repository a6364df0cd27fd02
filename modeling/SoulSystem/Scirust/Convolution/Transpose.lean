import SoulSystem.Scirust.Convolution.Conv2d

/-!
# Transposed convolutions

A transposed convolution scatters each entry of its input over a window of the output, weighted by
the kernel.  A buffer that is only added to is followed by a linear form: every addition shifts the
value of the form by what it adds, so the value at the end is the sum over all additions.  This is
the sum that the convolution with the same weights gathers.
-/

namespace SoulSystem.Scirust

open Library RowMajor Outcome FixedReducible List

/-! ## Shapes -/

structure Conv2dTransposeShape where
  inChannels : ℕ
  height : ℕ
  width : ℕ
  outChannels : ℕ
  kernelH : ℕ
  kernelW : ℕ
  strideH : ℕ
  strideW : ℕ

/-- The extent that the windows cover along one axis. -/
def extentOut (size kernel stride : ℕ) : Except Failure ℕ := do
  require (1 ≤ stride)
  require (1 ≤ size)
  return (size - 1) * stride + kernel

namespace Conv2dTransposeShape

variable (shape : Conv2dTransposeShape)

def heightOut : Except Failure ℕ := extentOut shape.height shape.kernelH shape.strideH

def widthOut : Except Failure ℕ := extentOut shape.width shape.kernelW shape.strideW

end Conv2dTransposeShape

/-! ## The scatter loop -/

section Scatter

variable {w frac : ℕ}

/-- An entry of a mutable part of a buffer is added to. -/
def addAt (buf : List (Fixed w frac)) (off len idx : ℕ) (contrib : Fixed w frac) :
    Except Failure (List (Fixed w frac)) := do
  require (off + len ≤ buf.length)
  require (idx < len)
  modifyAt Failure.panic buf (off + idx) fun v ↦ Fixed.wrappingAdd v contrib

/-- An entry of the input is spread over a window of one channel of the output. -/
def scatterWindow (y : List (Fixed w frac)) (xv : Fixed w frac) (wCo : List (Fixed w frac))
    (shape : Conv2dTransposeShape) (spatialOut widthOut ih iw co : ℕ) :
    Except Failure (List (Fixed w frac)) :=
  (List.range shape.kernelH).foldlM
    (fun y kh ↦
      let oh := ih * shape.strideH + kh
      (List.range shape.kernelW).foldlM
        (fun y kw ↦ do
          let ow := iw * shape.strideW + kw
          let tap ← readAt Failure.panic wCo (kh * shape.kernelW + kw)
          addAt y (co * spatialOut) spatialOut (oh * widthOut + ow) (times xv tap)) y) y

/-- An entry of the input is spread over a window of each channel of the output. -/
def scatterEntry (y : List (Fixed w frac)) (xv : Fixed w frac) (wCi : List (Fixed w frac))
    (shape : Conv2dTransposeShape) (spatialOut widthOut ih iw : ℕ) :
    Except Failure (List (Fixed w frac)) :=
  let kernelSize := shape.kernelH * shape.kernelW
  (List.range shape.outChannels).foldlM
    (fun y co ↦ do
      let wCo ← sliceAt Failure.panic wCi (co * kernelSize) kernelSize
      scatterWindow y xv wCo shape spatialOut widthOut ih iw co) y

/-- The entries of one channel of the input. -/
def scatterChannel (y x weights : List (Fixed w frac)) (shape : Conv2dTransposeShape)
    (spatialOut widthOut ci : ℕ) : Except Failure (List (Fixed w frac)) := do
  let channelSize := shape.height * shape.width
  let weightsPerIn := shape.outChannels * (shape.kernelH * shape.kernelW)
  let xCi ← sliceAt Failure.panic x (ci * channelSize) channelSize
  let wCi ← sliceAt Failure.panic weights (ci * weightsPerIn) weightsPerIn
  (List.range shape.height).foldlM
    (fun y ih ↦ (List.range shape.width).foldlM
      (fun y iw ↦ do
        let xv ← readAt Failure.panic xCi (ih * shape.width + iw)
        scatterEntry y xv wCi shape spatialOut widthOut ih iw) y) y

def conv2dTranspose (x weights bias : List (Fixed w frac)) (shape : Conv2dTransposeShape) :
    Except Failure (List (Fixed w frac)) := do
  let heightOut ← shape.heightOut
  let widthOut ← shape.widthOut
  require (x.length = shape.inChannels * shape.height * shape.width)
  require (weights.length =
    shape.inChannels * shape.outChannels * shape.kernelH * shape.kernelW)
  require (bias.length = shape.outChannels)
  let spatialOut := heightOut * widthOut
  let y := List.replicate (shape.outChannels * spatialOut) ⟨0⟩
  let y ← (List.range shape.inChannels).foldlM
    (fun y ci ↦ scatterChannel y x weights shape spatialOut widthOut ci) y
  addBias y bias spatialOut

end Scatter

/-! ## Linear forms of a buffer -/

section Forms

variable {w frac : ℕ}

/-- The value of a linear form at a buffer. -/
def form (f : ℕ → BitVec w) (buf : List (Fixed w frac)) : BitVec w :=
  ∑ p ∈ Finset.range buf.length, f p * (entry buf p).raw

/-- A step succeeds on every buffer of a length, and shifts the value of the form. -/
def Shifts (f : ℕ → BitVec w) (len : ℕ)
    (step : List (Fixed w frac) → Except Failure (List (Fixed w frac))) (amount : BitVec w) : Prop :=
  ∀ buf, buf.length = len →
    ∃ out, step buf = .ok out ∧ out.length = len ∧ form f out = form f buf + amount

variable {f : ℕ → BitVec w} {len : ℕ}

theorem entry_modify {buf : List (Fixed w frac)} {place : ℕ} (g : Fixed w frac → Fixed w frac)
    (hplace : place < buf.length) (p : ℕ) :
    entry (buf.modify place g) p = if p = place then g (entry buf p) else entry buf p := by
  rw [entry, entry, getD_eq_getElem?_getD, getD_eq_getElem?_getD]
  by_cases hp : p = place
  · rw [if_pos hp, hp, getElem?_modify_eq, getElem?_eq_getElem hplace]
    rfl
  · rw [if_neg hp, getElem?_modify_ne _ _ (Ne.symm hp)]

theorem form_replicate_zero : form f (List.replicate len (⟨0⟩ : Fixed w frac)) = 0 := by
  refine Finset.sum_eq_zero fun p _ ↦ ?_
  have hentry : entry (List.replicate len (⟨0⟩ : Fixed w frac)) p = ⟨0⟩ := by
    rw [entry, getD_eq_getElem?_getD, getElem?_replicate]
    split
    · rfl
    · rfl
  rw [hentry]
  exact mul_zero (f p)

theorem form_modify {buf : List (Fixed w frac)} {place : ℕ} (hplace : place < buf.length)
    (contrib : Fixed w frac) :
    form f (buf.modify place fun v ↦ Fixed.wrappingAdd v contrib) =
      form f buf + f place * contrib.raw := by
  have hterm : ∀ p, f p * (entry (buf.modify place fun v ↦ Fixed.wrappingAdd v contrib) p).raw =
      f p * (entry buf p).raw + if p = place then f p * contrib.raw else 0 := by
    intro p
    rw [entry_modify _ hplace]
    by_cases hp : p = place
    · rw [if_pos hp, if_pos hp]
      exact mul_add (f p) _ _
    · rw [if_neg hp, if_neg hp, add_zero]
  rw [form, length_modify, form]
  simp only [hterm]
  rw [Finset.sum_add_distrib, Finset.sum_ite_eq', if_pos (Finset.mem_range.mpr hplace)]

theorem shifts_modifyAt {place : ℕ} (hplace : place < len) (contrib : Fixed w frac) :
    Shifts f len (fun buf ↦ modifyAt Failure.panic buf place fun v ↦ Fixed.wrappingAdd v contrib)
      (f place * contrib.raw) := by
  intro buf hbuf
  have hinside : place < buf.length := hplace.trans_eq hbuf.symm
  exact ⟨_, if_pos hinside, (length_modify _ _ _).trans hbuf, form_modify hinside contrib⟩

theorem shifts_addAt {off part idx : ℕ} (hoff : off + part ≤ len) (hidx : idx < part)
    (contrib : Fixed w frac) :
    Shifts f len (fun buf ↦ addAt buf off part idx contrib) (f (off + idx) * contrib.raw) := by
  intro buf hbuf
  obtain ⟨out, hout, hshift⟩ := shifts_modifyAt (f := f) (show off + idx < len by omega) contrib buf hbuf
  have hadd : addAt buf off part idx contrib = .ok out := by
    rw [addAt, require_bind (hoff.trans_eq hbuf.symm), require_bind hidx]
    exact hout
  exact ⟨out, hadd, hshift⟩

/-- A loop shifts the form by the sum of what its turns shift it by. -/
theorem Shifts.loop {n : ℕ} {step : List (Fixed w frac) → ℕ → Except Failure (List (Fixed w frac))}
    {amount : ℕ → BitVec w} (hstep : ∀ i < n, Shifts f len (fun buf ↦ step buf i) (amount i)) :
    Shifts f len (fun buf ↦ (List.range n).foldlM step buf) (∑ i ∈ Finset.range n, amount i) := by
  intro buf hbuf
  induction n with
  | zero =>
    refine ⟨buf, rfl, hbuf, ?_⟩
    rw [Finset.sum_range_zero, add_zero]
  | succ n ih =>
    obtain ⟨mid, hmid, hlength, hform⟩ := ih fun i hi ↦ hstep i (Nat.lt_succ_of_lt hi)
    obtain ⟨out, hout, hlength', hform'⟩ := hstep n (Nat.lt_succ_self n) mid hlength
    change (List.range n).foldlM step buf = .ok mid at hmid
    change step mid n = .ok out at hout
    have hrun : (List.range (n + 1)).foldlM step buf = .ok out := by
      rw [range_succ, foldlM_append, hmid, ok_bind, foldlM_cons, hout]
      rfl
    refine ⟨out, hrun, hlength', ?_⟩
    rw [hform', hform, Finset.sum_range_succ, add_assoc]

/-- What is read before a step. -/
theorem Shifts.read {α : Type} {x : Except Failure α} {a : α} (hx : x = .ok a)
    {step : α → List (Fixed w frac) → Except Failure (List (Fixed w frac))} {amount : BitVec w}
    (hstep : Shifts f len (step a) amount) : Shifts f len (fun buf ↦ x >>= fun a ↦ step a buf) amount := by
  rw [hx]
  exact hstep

theorem shifts_addBias {bias : List (Fixed w frac)} {spatialOut : ℕ}
    (hlen : bias.length * spatialOut = len) :
    Shifts f len (fun buf ↦ addBias buf bias spatialOut)
      (∑ co ∈ Finset.range bias.length, ∑ pos ∈ Finset.range spatialOut,
        f (co * spatialOut + pos) * (entry bias co).raw) :=
  Shifts.loop fun co hco ↦ Shifts.loop fun _ hpos ↦
    shifts_modifyAt ((place_lt hco hpos).trans_eq hlen) (entry bias co)

end Forms

/-! ## The sum over all additions -/

section Sum

variable {w frac : ℕ}

theorem readAt_slice {buf : List (Fixed w frac)} {off len p : ℕ} (hinside : off + len ≤ buf.length)
    (hp : p < len) : readAt Failure.panic (slice buf off len) p = .ok (entry buf (off + p)) := by
  rw [readAt_of_lt (hp.trans_eq (length_slice hinside).symm) (⟨0⟩ : Fixed w frac), slice_eq_map hinside, getD_eq_getElem?_getD, getElem?_map,
    getElem?_range hp]
  rfl

theorem slice_slice {buf : List (Fixed w frac)} {off len off' len' : ℕ} (hinside : off' + len' ≤ len) :
    slice (slice buf off len) off' len' = slice buf (off + off') len' := by
  rw [slice, slice, slice, drop_take, take_take, drop_drop, min_eq_left (by omega)]

namespace Conv2dTransposeShape

variable (shape : Conv2dTransposeShape)

/-- The dimensions that a transposed convolution asserts. -/
structure Fits : Prop where
  strideH : 1 ≤ shape.strideH
  strideW : 1 ≤ shape.strideW
  height : 1 ≤ shape.height
  width : 1 ≤ shape.width

/-- The lengths that a transposed convolution asserts. -/
structure Lengths (x weights bias : List (Fixed w frac)) : Prop where
  input : x.length = shape.inChannels * shape.height * shape.width
  weights : weights.length = shape.inChannels * shape.outChannels * shape.kernelH * shape.kernelW
  bias : bias.length = shape.outChannels

def extentH : ℕ := (shape.height - 1) * shape.strideH + shape.kernelH

def extentW : ℕ := (shape.width - 1) * shape.strideW + shape.kernelW

/-- The length of an output. -/
def outLen : ℕ := shape.outChannels * (shape.extentH * shape.extentW)

/-- The place that a tap of a window scatters to. -/
def scatterPlace (co ih iw kh kw : ℕ) : ℕ :=
  co * (shape.extentH * shape.extentW) +
    ((ih * shape.strideH + kh) * shape.extentW + (iw * shape.strideW + kw))

/-- The place of a tap among the weights. -/
def tapPlace (ci co kh kw : ℕ) : ℕ :=
  ci * (shape.outChannels * (shape.kernelH * shape.kernelW)) +
    (co * (shape.kernelH * shape.kernelW) + (kh * shape.kernelW + kw))

/-- What a transposed convolution adds to an entry of its output, for a tap of a window. -/
def contrib (x weights : List (Fixed w frac)) (ci ih iw co kh kw : ℕ) : Fixed w frac :=
  times (entry x (ci * (shape.height * shape.width) + (ih * shape.width + iw)))
    (entry weights (shape.tapPlace ci co kh kw))

variable {shape} {x weights bias : List (Fixed w frac)} {f : ℕ → BitVec w}

theorem extent_lt {size kernel stride i k : ℕ} (hi : i < size) (hk : k < kernel) :
    i * stride + k < (size - 1) * stride + kernel := by
  have hrow : i * stride ≤ (size - 1) * stride := Nat.mul_le_mul_right stride (by omega)
  omega

theorem extentOut_eq {size kernel stride : ℕ} (hstride : 1 ≤ stride) (hsize : 1 ≤ size) :
    extentOut size kernel stride = .ok ((size - 1) * stride + kernel) := by
  rw [extentOut, require_bind hstride, require_bind hsize]
  rfl

theorem block_le {i n len : ℕ} (hi : i < n) : i * len + len ≤ n * len := by
  rw [← Nat.succ_mul]
  exact Nat.mul_le_mul_right len hi

theorem shifts_scatterWindow {off ih iw co : ℕ} (xv : Fixed w frac)
    (hoff : off + shape.kernelH * shape.kernelW ≤ weights.length) (hih : ih < shape.height)
    (hiw : iw < shape.width) (hco : co < shape.outChannels) :
    Shifts f shape.outLen
      (fun y ↦ scatterWindow y xv (slice weights off (shape.kernelH * shape.kernelW)) shape
        (shape.extentH * shape.extentW) shape.extentW ih iw co)
      (∑ kh ∈ Finset.range shape.kernelH, ∑ kw ∈ Finset.range shape.kernelW,
        f (shape.scatterPlace co ih iw kh kw) *
          (times xv (entry weights (off + (kh * shape.kernelW + kw)))).raw) :=
  Shifts.loop fun _ hkh ↦ Shifts.loop fun _ hkw ↦
    Shifts.read (readAt_slice hoff (place_lt hkh hkw)) <|
      shifts_addAt (block_le hco) (place_lt (extent_lt hih hkh) (extent_lt hiw hkw)) _

theorem shifts_scatterEntry {off ih iw : ℕ} (xv : Fixed w frac)
    (hoff : off + shape.outChannels * (shape.kernelH * shape.kernelW) ≤ weights.length)
    (hih : ih < shape.height) (hiw : iw < shape.width) :
    Shifts f shape.outLen
      (fun y ↦ scatterEntry y xv
        (slice weights off (shape.outChannels * (shape.kernelH * shape.kernelW))) shape
        (shape.extentH * shape.extentW) shape.extentW ih iw)
      (∑ co ∈ Finset.range shape.outChannels, ∑ kh ∈ Finset.range shape.kernelH,
        ∑ kw ∈ Finset.range shape.kernelW, f (shape.scatterPlace co ih iw kh kw) *
          (times xv (entry weights (off + (co * (shape.kernelH * shape.kernelW) +
            (kh * shape.kernelW + kw))))).raw) := by
  refine Shifts.loop fun co hco ↦ ?_
  have hinside : co * (shape.kernelH * shape.kernelW) + shape.kernelH * shape.kernelW ≤
      shape.outChannels * (shape.kernelH * shape.kernelW) := block_le hco
  have hslice : sliceAt Failure.panic
      (slice weights off (shape.outChannels * (shape.kernelH * shape.kernelW)))
      (co * (shape.kernelH * shape.kernelW)) (shape.kernelH * shape.kernelW) =
        .ok (slice weights (off + co * (shape.kernelH * shape.kernelW))
          (shape.kernelH * shape.kernelW)) := by
    rw [sliceAt, if_pos (hinside.trans_eq (length_slice hoff).symm), slice_slice hinside]
  have hpart : off + co * (shape.kernelH * shape.kernelW) + shape.kernelH * shape.kernelW ≤
      weights.length := by
    omega
  have hwindow := shifts_scatterWindow (f := f) xv hpart hih hiw hco
  simp only [add_assoc off] at hwindow
  exact Shifts.read hslice hwindow

theorem shifts_scatterChannel {ci : ℕ} (hlengths : shape.Lengths x weights bias)
    (hci : ci < shape.inChannels) :
    Shifts f shape.outLen
      (fun y ↦ scatterChannel y x weights shape (shape.extentH * shape.extentW) shape.extentW ci)
      (∑ ih ∈ Finset.range shape.height, ∑ iw ∈ Finset.range shape.width,
        ∑ co ∈ Finset.range shape.outChannels, ∑ kh ∈ Finset.range shape.kernelH,
          ∑ kw ∈ Finset.range shape.kernelW, f (shape.scatterPlace co ih iw kh kw) *
            (shape.contrib x weights ci ih iw co kh kw).raw) := by
  have hinput : ci * (shape.height * shape.width) + shape.height * shape.width ≤ x.length := by
    rw [hlengths.input, mul_assoc]
    exact block_le hci
  have hweights : ci * (shape.outChannels * (shape.kernelH * shape.kernelW)) +
      shape.outChannels * (shape.kernelH * shape.kernelW) ≤ weights.length := by
    rw [hlengths.weights, mul_assoc, mul_assoc]
    exact block_le hci
  exact Shifts.read (if_pos hinput) <| Shifts.read (if_pos hweights) <|
    Shifts.loop fun ih hih ↦ Shifts.loop fun iw hiw ↦
      Shifts.read (readAt_slice hinput (place_lt hih hiw)) <| shifts_scatterEntry _ hweights hih hiw

/-- **The value of a form** at a transposed convolution is a sum over all taps of all windows. -/
theorem form_conv2dTranspose (hfits : shape.Fits) (hlengths : shape.Lengths x weights bias) :
    ∃ out, conv2dTranspose x weights bias shape = .ok out ∧ out.length = shape.outLen ∧
      form f out =
        (∑ ci ∈ Finset.range shape.inChannels, ∑ ih ∈ Finset.range shape.height,
          ∑ iw ∈ Finset.range shape.width, ∑ co ∈ Finset.range shape.outChannels,
            ∑ kh ∈ Finset.range shape.kernelH, ∑ kw ∈ Finset.range shape.kernelW,
              f (shape.scatterPlace co ih iw kh kw) *
                (shape.contrib x weights ci ih iw co kh kw).raw) +
          ∑ co ∈ Finset.range bias.length, ∑ pos ∈ Finset.range (shape.extentH * shape.extentW),
            f (co * (shape.extentH * shape.extentW) + pos) * (entry bias co).raw := by
  have hscatter := Shifts.loop fun ci hci ↦ shifts_scatterChannel (f := f) hlengths hci
  have houtLen : bias.length * (shape.extentH * shape.extentW) = shape.outLen := by
    rw [hlengths.bias]
    rfl
  have hbias := shifts_addBias (f := f) houtLen
  obtain ⟨y, hy, hlength, hform⟩ :=
    hscatter (List.replicate shape.outLen ⟨0⟩) length_replicate
  obtain ⟨out, hout, hlength', hform'⟩ := hbias y hlength
  refine ⟨out, ?_, hlength', ?_⟩
  · rw [conv2dTranspose, heightOut, extentOut_eq hfits.strideH hfits.height, ok_bind, widthOut,
      extentOut_eq hfits.strideW hfits.width, ok_bind, require_bind hlengths.input,
      require_bind hlengths.weights, require_bind hlengths.bias]
    exact (congrArg (· >>= _) hy).trans hout
  · rw [hform', hform, form_replicate_zero, zero_add]

end Conv2dTransposeShape

end Sum

/-! ## The adjoint -/

/-- The output of a convolution is the input of the transposed one, and the channels change their
roles. -/
def Conv2dShape.transposed (shape : Conv2dShape) (heightOut widthOut : ℕ) : Conv2dTransposeShape where
  inChannels := shape.outChannels
  height := heightOut
  width := widthOut
  outChannels := shape.inChannels
  kernelH := shape.kernelH
  kernelW := shape.kernelW
  strideH := shape.strideH
  strideW := shape.strideW

/-- The windows of a convolution cover its input up to the last row and column. -/
structure Conv2dShape.Covers (shape : Conv2dShape) (heightOut widthOut : ℕ) : Prop where
  strideH : 1 ≤ shape.strideH
  strideW : 1 ≤ shape.strideW
  tall : 1 ≤ heightOut
  wide : 1 ≤ widthOut
  height : shape.height = (heightOut - 1) * shape.strideH + shape.kernelH
  width : shape.width = (widthOut - 1) * shape.strideW + shape.kernelW

def zeros (w n : ℕ) : List (Fixed w 0) := List.replicate n ⟨0⟩

section Adjoint

variable {w : ℕ} {shape : Conv2dShape} {heightOut widthOut : ℕ} {x y weights : List (Fixed w 0)}

/-- Without fraction bits, products are exact up to wrapping. -/
theorem raw_times (a b : Fixed w 0) : (times a b).raw = a.raw * b.raw := by
  have hproduct : (times a b).raw =
      (a.raw.signExtend (2 * w) * b.raw.signExtend (2 * w)).setWidth w := rfl
  rw [hproduct, BitVec.setWidth_mul _ _ (by omega)]
  have hback : ∀ v : BitVec w, (v.signExtend (2 * w)).setWidth w = v := fun v ↦ by
    rw [setWidth_eq_ofInt, BitVec.toInt_signExtend_of_le (by omega), BitVec.ofInt_toInt]
  rw [hback, hback]

theorem entry_zeros (n p : ℕ) : entry (zeros w n) p = ⟨0⟩ := by
  rw [entry, zeros, getD_eq_getElem?_getD, getElem?_replicate]
  split
  · rfl
  · rfl

theorem entry_tensor {frac a b c i j k : ℕ} {f : ℕ → ℕ → ℕ → Fixed w frac} (hi : i < a) (hj : j < b)
    (hk : k < c) : entry (tensor a b c f) (i * (b * c) + (j * c + k)) = f i j k := by
  rw [entry, getD_eq_getElem?_getD, tensor,
    getElem?_tab (fun i _ ↦ length_grid b c (f i)) hi (place_lt hj hk), getElem?_grid hj hk,
    Option.getD_some]

/-- An inner product is the value of a linear form. -/
theorem dot_eq_form [NeZero w] [FixedReducible w] [LawfulReducible w] {a b : List (Fixed w 0)}
    (hlength : a.length = b.length) : FixedReducible.dot a b = .ok ⟨form (fun p ↦ (entry a p).raw) b⟩ := by
  have hdot := dot_slices (NeZero.pos w) (show 0 + b.length ≤ a.length by omega)
    (show 0 + b.length ≤ b.length by omega)
  rw [slice_self hlength, slice_self rfl] at hdot
  rw [hdot, form]
  simp only [zero_add, raw_times]

theorem Conv2dShape.Covers.windowsH_eq (hcovers : shape.Covers heightOut widthOut) :
    shape.windowsH = heightOut ∧ shape.windowsW = widthOut := by
  have hwindows : ∀ {out kernel stride : ℕ}, 1 ≤ stride → 1 ≤ out →
      windows ((out - 1) * stride + kernel) kernel stride = out := fun hstride hout ↦ by
    rw [windows, Nat.add_sub_cancel, Nat.mul_div_cancel _ hstride, Nat.sub_add_cancel hout]
  rw [Conv2dShape.windowsH, Conv2dShape.windowsW, hcovers.height, hcovers.width]
  exact ⟨hwindows hcovers.strideH hcovers.tall, hwindows hcovers.strideW hcovers.wide⟩

theorem Conv2dShape.Covers.fits (hcovers : shape.Covers heightOut widthOut) : shape.Fits where
  strideH := hcovers.strideH
  strideW := hcovers.strideW
  kernelH := by
    rw [hcovers.height]
    exact Nat.le_add_left _ _
  kernelW := by
    rw [hcovers.width]
    exact Nat.le_add_left _ _

theorem form_tensor {a b c : ℕ} {g : ℕ → ℕ → ℕ → Fixed w 0} (hlength : y.length = a * (b * c)) :
    form (fun p ↦ (entry (tensor a b c g) p).raw) y =
      ∑ i ∈ Finset.range a, ∑ j ∈ Finset.range b, ∑ k ∈ Finset.range c,
        (g i j k).raw * (entry y (i * (b * c) + (j * c + k))).raw := by
  rw [form, hlength, sum_range_places]
  refine Finset.sum_congr rfl fun i hi ↦ ?_
  rw [sum_range_places]
  refine Finset.sum_congr rfl fun j hj ↦ Finset.sum_congr rfl fun k hk ↦ ?_
  rw [entry_tensor (Finset.mem_range.mp hi) (Finset.mem_range.mp hj) (Finset.mem_range.mp hk)]

/-- What a tap of a window contributes to both inner products. -/
theorem gather_eq_scatter (hcovers : shape.Covers heightOut widthOut) (co oh ow ci kh kw : ℕ) :
    (times (entry x (windowPlace shape 1 1 ci kh kw oh ow))
        (entry weights (tapPlace shape co ci kh kw))).raw *
        (entry y (co * (heightOut * widthOut) + (oh * widthOut + ow))).raw =
      (entry x ((shape.transposed heightOut widthOut).scatterPlace ci oh ow kh kw)).raw *
        ((shape.transposed heightOut widthOut).contrib y weights co oh ow ci kh kw).raw := by
  have hwindow : windowPlace shape 1 1 ci kh kw oh ow =
      (shape.transposed heightOut widthOut).scatterPlace ci oh ow kh kw := by
    rw [windowPlace, Conv2dTransposeShape.scatterPlace, Conv2dTransposeShape.extentH,
      Conv2dTransposeShape.extentW, hcovers.height, hcovers.width, Conv2dShape.transposed]
    ring
  have htap : tapPlace shape co ci kh kw =
      (shape.transposed heightOut widthOut).tapPlace co ci kh kw := by
    rw [tapPlace, Conv2dTransposeShape.tapPlace, Conv2dShape.transposed]
    ring
  rw [hwindow, htap, raw_times, Conv2dTransposeShape.contrib, raw_times, mul_assoc]
  exact congrArg _ (mul_comm _ _)

variable [NeZero w] [FixedReducible w] [LawfulReducible w]

/-- **The transposed convolution is the adjoint of the convolution.** -/
theorem conv2d_adjoint (hcovers : shape.Covers heightOut widthOut)
    (hx : x.length = shape.inChannels * shape.height * shape.width)
    (hy : y.length = shape.outChannels * heightOut * widthOut)
    (hweights : weights.length =
      shape.outChannels * shape.inChannels * shape.kernelH * shape.kernelW) :
    ∃ z u v, conv2d x weights (zeros w shape.outChannels) shape = .ok z ∧
      conv2dTranspose y weights (zeros w shape.inChannels)
        (shape.transposed heightOut widthOut) = .ok u ∧
      FixedReducible.dot z y = .ok v ∧ FixedReducible.dot x u = .ok v := by
  have hlengths : shape.Lengths x weights (zeros w shape.outChannels) := by
    refine ⟨hx, ?_, length_replicate⟩
    rw [hweights, Conv2dShape.taps]
    ring
  have hfits : (shape.transposed heightOut widthOut).Fits :=
    ⟨hcovers.strideH, hcovers.strideW, hcovers.tall, hcovers.wide⟩
  have hlengths' : (shape.transposed heightOut widthOut).Lengths y weights
      (zeros w shape.inChannels) := ⟨hy, hweights, length_replicate⟩
  obtain ⟨u, hu, hlength, hform⟩ := Conv2dTransposeShape.form_conv2dTranspose
    (f := fun p ↦ (entry x p).raw) hfits hlengths'
  have hz := conv2d_eq (NeZero.pos w) hcovers.fits hlengths
  rw [hcovers.windowsH_eq.1, hcovers.windowsH_eq.2] at hz
  have hzy : (tensor shape.outChannels heightOut widthOut
      (directAt x weights (zeros w shape.outChannels) shape 1 1)).length = y.length := by
    rw [hy, mul_assoc]
    exact length_tab fun i _ ↦ length_grid _ _ _
  have hxu : x.length = u.length := by
    rw [hlength, hx, Conv2dTransposeShape.outLen, mul_assoc, hcovers.height, hcovers.width]
    rfl
  refine ⟨_, u, _, hz, hu, dot_eq_form hzy, ?_⟩
  have hnone : ∀ (n : ℕ) (g : ℕ → ℕ → BitVec w), (∑ co ∈ Finset.range (zeros w n).length,
      ∑ pos ∈ Finset.range ((shape.transposed heightOut widthOut).extentH *
        (shape.transposed heightOut widthOut).extentW),
          g co pos * (entry (zeros w n) co).raw) = 0 := by
    intro n g
    refine Finset.sum_eq_zero fun co _ ↦ Finset.sum_eq_zero fun pos _ ↦ ?_
    rw [entry_zeros]
    exact mul_zero (g co pos)
  rw [dot_eq_form hxu, hform, hnone, add_zero, form_tensor (by rw [hy, mul_assoc])]
  refine congrArg (fun v : BitVec w ↦ Except.ok (Fixed.mk v)) (Eq.symm ?_)
  refine Finset.sum_congr rfl fun co _ ↦ Finset.sum_congr rfl fun oh _ ↦
    Finset.sum_congr rfl fun ow _ ↦ ?_
  have hdirect : (directAt x weights (zeros w shape.outChannels) shape 1 1 co oh ow).raw =
      ∑ ci ∈ Finset.range shape.inChannels, ∑ kh ∈ Finset.range shape.kernelH,
        ∑ kw ∈ Finset.range shape.kernelW,
          (times (entry x (windowPlace shape 1 1 ci kh kw oh ow))
            (entry weights (tapPlace shape co ci kh kw))).raw := by
    rw [directAt, entry_zeros]
    exact add_zero _
  rw [hdirect]
  simp only [Finset.sum_mul, gather_eq_scatter hcovers]
  rfl

/-- Two channels become one, with overlapping windows of two rows and a product that wraps. -/
theorem conv2d_adjoint_both_widths :
    (∃ z u v, conv2d [⟨1⟩, ⟨2⟩, ⟨3⟩, ⟨4⟩, ⟨5⟩, ⟨6⟩] [⟨7⟩, ⟨2147483647⟩, ⟨9⟩, ⟨10⟩] (zeros 32 1)
        { inChannels := 2, height := 3, width := 1, outChannels := 1, kernelH := 2, kernelW := 1,
          strideH := 1, strideW := 1 } = .ok z ∧
      conv2dTranspose [⟨11⟩, ⟨12⟩] [⟨7⟩, ⟨2147483647⟩, ⟨9⟩, ⟨10⟩] (zeros 32 2)
        { inChannels := 1, height := 2, width := 1, outChannels := 2, kernelH := 2, kernelW := 1,
          strideH := 1, strideW := 1 } = .ok u ∧
      FixedReducible.dot z [⟨11⟩, ⟨12⟩] = .ok v ∧
      FixedReducible.dot [⟨1⟩, ⟨2⟩, ⟨3⟩, ⟨4⟩, ⟨5⟩, ⟨6⟩] u = .ok v) ∧
    (∃ z u v, conv2d [⟨1⟩, ⟨2⟩, ⟨3⟩, ⟨4⟩, ⟨5⟩, ⟨6⟩] [⟨7⟩, ⟨8⟩, ⟨9⟩, ⟨10⟩] (zeros 64 1)
        { inChannels := 2, height := 3, width := 1, outChannels := 1, kernelH := 2, kernelW := 1,
          strideH := 1, strideW := 1 } = .ok z ∧
      conv2dTranspose [⟨11⟩, ⟨12⟩] [⟨7⟩, ⟨8⟩, ⟨9⟩, ⟨10⟩] (zeros 64 2)
        { inChannels := 1, height := 2, width := 1, outChannels := 2, kernelH := 2, kernelW := 1,
          strideH := 1, strideW := 1 } = .ok u ∧
      FixedReducible.dot z [⟨11⟩, ⟨12⟩] = .ok v ∧
      FixedReducible.dot [⟨1⟩, ⟨2⟩, ⟨3⟩, ⟨4⟩, ⟨5⟩, ⟨6⟩] u = .ok v) :=
  ⟨@conv2d_adjoint 32 _ 2 1 _ _ _ _ _ _ (by constructor <;> decide) rfl rfl rfl,
    @conv2d_adjoint 64 _ 2 1 _ _ _ _ _ _ (by constructor <;> decide) rfl rfl rfl⟩

end Adjoint

end SoulSystem.Scirust
