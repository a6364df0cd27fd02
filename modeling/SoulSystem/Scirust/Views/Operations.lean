import SoulSystem.Library.Ascii
import SoulSystem.Library.MixedRadix
import SoulSystem.Library.Outcome

/-!
# Operations on tensors of any rank

A tensor has its values, its shape and its strides.  The operations that copy values take every
place of the result apart by the strides of the result and put it together again by those of the
source.

`usize` has 64 bits; an overflow panics in a build with checks and wraps around without.
-/

namespace SoulSystem.Scirust.Views

open Library MixedRadix

/-! ## Failures -/

inductive SciRustError where
  | rankMismatch (op : String) (expected got : ℕ)
  | axisOutOfBounds (op : String) (axis rank : ℕ)
  | numelMismatch (op : String) (fromShape toShape : List ℕ)
  | broadcastIncompatible (op : String) (source target : List ℕ)
  | invalidConfig (message : String)
  deriving DecidableEq

/-- What the code panics of. -/
inductive Fault where
  | overflow
  | assertion
  | outOfRange
  | zeroDivision
  deriving DecidableEq

inductive Failure where
  | fault (fault : Fault)
  | error (error : SciRustError)
  deriving DecidableEq

/-! ## Machine arithmetic -/

def usizeRange : ℕ := 2 ^ 64

section Arithmetic

variable (checks : Bool) (a b : ℕ)

def plus : Except Failure ℕ :=
  if checks = true ∧ usizeRange ≤ a + b then .error (.fault .overflow)
  else .ok ((a + b) % usizeRange)

def times : Except Failure ℕ :=
  if checks = true ∧ usizeRange ≤ a * b then .error (.fault .overflow)
  else .ok (a * b % usizeRange)

def quotient : Except Failure ℕ :=
  if b = 0 then .error (.fault .zeroDivision) else .ok (a / b)

def remainder : Except Failure ℕ :=
  if b = 0 then .error (.fault .zeroDivision) else .ok (a % b)

end Arithmetic

def product (checks : Bool) (shape : List ℕ) : Except Failure ℕ :=
  shape.foldlM (times checks) 1

/-- From the last axis to the first. -/
def computeStrides (checks : Bool) : List ℕ → Except Failure (List ℕ)
  | [] => .ok []
  | [_] => .ok [1]
  | _ :: dim :: shape => do
      let strides ← computeStrides checks (dim :: shape)
      let stride ← times checks (strides.headD 1) dim
      return stride :: strides

def checkRank (op : String) (expected got : ℕ) : Except Failure Unit :=
  if expected ≠ got then .error (.error (.rankMismatch op expected got)) else .ok ()

def checkAxis (op : String) (axis rank : ℕ) : Except Failure Unit :=
  if rank ≤ axis then .error (.error (.axisOutOfBounds op axis rank)) else .ok ()

/-! ## Tensors -/

/-- The bits of an `f32`. -/
abbrev F32 := UInt32

def zero : F32 := 0

def one : F32 := 0x3f800000

structure TensorND where
  data : List F32
  shape : List ℕ
  strides : List ℕ
  deriving DecidableEq

/-- An index taken apart by strides. -/
def decompose : ℕ → List ℕ → Except Failure (List ℕ)
  | _, [] => .ok []
  | rem, stride :: strides => do
      let index ← quotient rem stride
      let rem ← remainder rem stride
      return index :: (← decompose rem strides)

def readAt (data : List F32) (place : ℕ) : Except Failure F32 :=
  match data[place]? with
  | some value => .ok value
  | none => .error (.fault .outOfRange)

/-- The loop over the indices and what they are checked against and multiplied by. -/
def offsetLoop (checks : Bool) : ℕ → List ℕ → List ℕ → List ℕ → Except Failure ℕ
  | off, [], _, _ => .ok off
  | off, index :: indices, dim :: shape, stride :: strides =>
    if dim ≤ index then .error (.fault .assertion)
    else do
      let next ← plus checks off (← times checks index stride)
      offsetLoop checks next indices shape strides
  | _, _, _, _ => .error (.fault .outOfRange)

/-- The place in the source of a place in a broadcast.  The source has no axis for the first ones of
the target, and an axis of size 1 is replicated. -/
def broadcastLoop (checks : Bool) :
    List ℕ → ℕ → ℕ → ℕ → List ℕ → List ℕ → Except Failure ℕ
  | [], _, _, srcFlat, _, _ => .ok srcFlat
  | stride :: outStrides, missing + 1, rem, srcFlat, shape, strides => do
      let _ ← quotient rem stride
      let rem ← remainder rem stride
      broadcastLoop checks outStrides missing rem srcFlat shape strides
  | stride :: outStrides, 0, rem, srcFlat, dim :: shape, srcStride :: strides => do
      let index ← quotient rem stride
      let rem ← remainder rem stride
      let srcIndex := if dim = 1 then 0 else index
      let next ← plus checks srcFlat (← times checks srcIndex srcStride)
      broadcastLoop checks outStrides 0 rem next shape strides
  | _, _, _, _, _, _ => .error (.fault .outOfRange)

/-- Each axis exists and is there once. -/
def checkAxes (rank : ℕ) : List ℕ → List Bool → Except Failure Unit
  | [], _ => .ok ()
  | axis :: axes, seen => do
      checkAxis "transpose" axis rank
      if seen.getD axis false = true then
        .error (.error (.invalidConfig s!"transpose: axis {axis} appears twice"))
      else checkAxes rank axes (seen.set axis true)

namespace TensorND

variable (checks : Bool)

/-! ## Constructors -/

def new (data : List F32) (shape : List ℕ) : Except Failure TensorND := do
  let numel ← product checks shape
  if data.length ≠ numel then .error (.fault .assertion)
  else do
    let strides ← computeStrides checks shape
    return { data, shape, strides }

def zeros (shape : List ℕ) : Except Failure TensorND := do
  let numel ← product checks shape
  let strides ← computeStrides checks shape
  return { data := List.replicate numel zero, shape, strides }

def ones (shape : List ℕ) : Except Failure TensorND := do
  let numel ← product checks shape
  let strides ← computeStrides checks shape
  return { data := List.replicate numel one, shape, strides }

def fromVec (data : List F32) (shape : List ℕ) : Except Failure TensorND :=
  new checks data shape

def fromMatrix (rows cols : ℕ) (data : List F32) : Except Failure TensorND :=
  new checks data [rows, cols]

variable (t : TensorND)

/-! ## Access -/

def ndim : ℕ := t.shape.length

def numel : ℕ := t.data.length

def offset (indices : List ℕ) : Except Failure ℕ :=
  if indices.length ≠ t.ndim then .error (.fault .assertion)
  else offsetLoop checks 0 indices t.shape t.strides

def get (indices : List ℕ) : Except Failure F32 := do
  readAt t.data (← t.offset checks indices)

def isContiguous : Except Failure Bool := do
  return t.strides = (← computeStrides checks t.shape)

/-! ## Operations -/

def reshape (newShape : List ℕ) : Except Failure TensorND := do
  let newNumel ← product checks newShape
  if newNumel ≠ t.numel then
    .error (.error (.numelMismatch "reshape" t.shape newShape))
  else do
    let strides ← computeStrides checks newShape
    return { data := t.data, shape := newShape, strides }

def flattenFrom (startAxis : ℕ) : Except Failure TensorND :=
  if t.ndim < startAxis then
    .error (.error (.axisOutOfBounds "flatten_from" startAxis t.ndim))
  else do
    let before ← product checks (t.shape.take startAxis)
    let behind ← product checks (t.shape.drop startAxis)
    t.reshape checks [before, behind]

/-- The scratch index is written over at every axis, so that it starts afresh. -/
def transpose (axes : List ℕ) : Except Failure TensorND := do
  checkRank "transpose" t.ndim axes.length
  checkAxes t.ndim axes (List.replicate t.ndim false)
  let newShape := axes.map fun axis ↦ t.shape.getD axis 0
  let newStrides ← computeStrides checks newShape
  let newNumel ← product checks newShape
  let newData ← (List.range newNumel).mapM fun flat ↦ do
    let newIndices ← decompose flat newStrides
    let oldIndices := scatter axes newIndices (List.replicate t.ndim 0)
    readAt t.data (← t.offset checks oldIndices)
  return { data := newData, shape := newShape, strides := newStrides }

def sliceAxis (axis start stop : ℕ) : Except Failure TensorND := do
  checkAxis "slice_axis" axis t.ndim
  let dim := t.shape.getD axis 0
  if stop < start ∨ dim < stop then
    .error (.error (.invalidConfig
      s!"slice_axis: invalid range [{start}, {stop}) for axis {axis} (dim {dim})"))
  else do
    let newShape := t.shape.set axis (stop - start)
    let newNumel ← product checks newShape
    let newStrides ← computeStrides checks newShape
    let newData ← (List.range newNumel).mapM fun flat ↦ do
      let newIndices ← decompose flat newStrides
      let moved ← plus checks (newIndices.getD axis 0) start
      readAt t.data (← t.offset checks (newIndices.set axis moved))
    return { data := newData, shape := newShape, strides := newStrides }

def canBroadcastTo (targetShape : List ℕ) : Bool :=
  t.ndim ≤ targetShape.length ∧
    ∀ dims ∈ t.shape.reverse.zip targetShape.reverse, dims.1 = dims.2 ∨ dims.1 = 1

def broadcastTo (targetShape : List ℕ) : Except Failure TensorND :=
  if t.canBroadcastTo targetShape = false then
    .error (.error (.broadcastIncompatible "broadcast_to" t.shape targetShape))
  else do
    let missing := targetShape.length - t.ndim
    let outStrides ← computeStrides checks targetShape
    let total ← product checks targetShape
    let data ← (List.range total).mapM fun flat ↦ do
      readAt t.data (← broadcastLoop checks outStrides missing flat 0 t.shape t.strides)
    return { data, shape := targetShape, strides := outStrides }

def toContiguous : Except Failure TensorND := do
  let contiguous ← t.isContiguous checks
  if contiguous = true then return t
  else do
    let newStrides ← computeStrides checks t.shape
    let newData ← (List.range t.numel).mapM fun flat ↦ do
      readAt t.data (← t.offset checks (← decompose flat newStrides))
    return { data := newData, shape := t.shape, strides := newStrides }

/-! ## Sequences of operations -/

inductive Operation where
  | transpose (axes : List ℕ)
  | sliceAxis (axis start stop : ℕ)
  | reshape (newShape : List ℕ)
  | flattenFrom (startAxis : ℕ)
  | broadcastTo (targetShape : List ℕ)
  | toContiguous

def apply : Operation → Except Failure TensorND
  | .transpose axes => t.transpose checks axes
  | .sliceAxis axis start stop => t.sliceAxis checks axis start stop
  | .reshape newShape => t.reshape checks newShape
  | .flattenFrom startAxis => t.flattenFrom checks startAxis
  | .broadcastTo targetShape => t.broadcastTo checks targetShape
  | .toContiguous => t.toContiguous checks

def run : List Operation → TensorND → Except Failure TensorND
  | [], t => .ok t
  | op :: ops, t => do run ops (← t.apply checks op)

end TensorND

end SoulSystem.Scirust.Views
