import SoulSystem.Library.ByteCursor

/-!
# Dense tensors

The two tensor types that a file can hold.  `Tensor` is a matrix and `TensorND` has any rank; both
keep their values in row-major order.  A value of either type was accepted by its constructor, which
multiplies the dimensions and asserts that there are as many values.

Values are kept as the bits of an `f32`, and `usize` has 64 bits.  A panic, an overflow and a slice
out of range are all a `fault`.
-/

namespace SoulSystem.Scirust.Safetensors

open Library List

/-- Why an operation has no result: an error of kind `InvalidData`, an error of the standard library
that is wrapped as one, or a fault. -/
inductive Failure where
  | invalidData (message : String)
  | utf8Error
  | parseIntError
  | fault
  deriving DecidableEq, Repr

/-- What has no result is a fault. -/
def orFault {α : Type} : Option α → Except Failure α
  | some value => .ok value
  | none => .error .fault

/-- What has no result is an error of kind `InvalidData`. -/
def orInvalid {α : Type} (message : String) : Option α → Except Failure α
  | some value => .ok value
  | none => .error (.invalidData message)

theorem orInvalid_eq_ok {α : Type} {message : String} {value : Option α} {result : α} :
    orInvalid message value = .ok result ↔ value = some result := by
  cases value <;> simp [orInvalid]

/-! ## Values -/

/-- The bits of an `f32`. -/
abbrev F32 := UInt32

namespace F32

def toLeBytes (x : F32) : Bytes := ByteCursor.leBytes 4 x.toNat

def fromLeBytes (bytes : Bytes) : F32 := UInt32.ofNat (ByteCursor.fromLeBytes bytes)

@[simp] theorem length_toLeBytes (x : F32) : (toLeBytes x).length = 4 :=
  ByteCursor.length_leBytes 4 x.toNat

@[simp] theorem fromLeBytes_toLeBytes (x : F32) : fromLeBytes (toLeBytes x) = x := by
  have hlt : x.toNat < 256 ^ 4 := x.toNat_lt
  rw [fromLeBytes, toLeBytes, ByteCursor.fromLeBytes_leBytes, Nat.mod_eq_of_lt hlt,
    UInt32.ofNat_toNat]

end F32

/-! ## Products of dimensions -/

def usizeRange : ℕ := 2 ^ 64

def checkedMul (a b : ℕ) : Option ℕ :=
  if a * b < usizeRange then some (a * b) else none

/-- The product of the dimensions from left to right. -/
def checkedProduct (shape : List ℕ) : Option ℕ :=
  shape.foldlM checkedMul 1

/-- Row-major strides, from the last axis to the first. -/
def computeStrides : List ℕ → Option (List ℕ)
  | [] => some []
  | _ :: axes =>
    match axes with
    | [] => some [1]
    | dim :: _ => do
        let strides ← computeStrides axes
        let stride ← checkedMul (strides.headD 1) dim
        return stride :: strides

theorem checkedMul_eq_some {a b product : ℕ} :
    checkedMul a b = some product ↔ a * b < usizeRange ∧ product = a * b := by
  unfold checkedMul
  split
  · rename_i hfits
    simp [hfits, eq_comm]
  · rename_i hfits
    simp [hfits]

theorem foldlM_checkedMul {shape : List ℕ} {acc product : ℕ}
    (hproduct : shape.foldlM checkedMul acc = some product) : product = acc * shape.prod := by
  induction shape generalizing acc with
  | nil =>
    rw [prod_nil, Nat.mul_one]
    exact (Option.some.inj hproduct).symm
  | cons dim shape ih =>
    rw [foldlM_cons, Option.bind_eq_bind, Option.bind_eq_some_iff] at hproduct
    obtain ⟨next, hnext, hrest⟩ := hproduct
    rw [prod_cons, ← Nat.mul_assoc, ← (checkedMul_eq_some.mp hnext).2]
    exact ih hrest

theorem prod_of_checkedProduct {shape : List ℕ} {product : ℕ}
    (hproduct : checkedProduct shape = some product) : shape.prod = product := by
  have heq := foldlM_checkedMul hproduct
  rw [Nat.one_mul] at heq
  exact heq.symm

/-- A stride is the number of values behind one step along its axis. -/
def StridesFit (shape : List ℕ) : Prop :=
  ∀ axis < shape.length, (shape.drop (axis + 1)).prod < usizeRange

instance (shape : List ℕ) : Decidable (StridesFit shape) :=
  inferInstanceAs (Decidable (∀ axis < shape.length, (shape.drop (axis + 1)).prod < usizeRange))

theorem stridesFit_cons {dim : ℕ} {axes : List ℕ} :
    StridesFit (dim :: axes) ↔ axes.prod < usizeRange ∧ StridesFit axes := by
  constructor
  · intro hfits
    refine ⟨hfits 0 (Nat.succ_pos _), fun axis haxis ↦ ?_⟩
    exact hfits (axis + 1) (Nat.succ_lt_succ haxis)
  · rintro ⟨hfirst, hrest⟩ axis haxis
    cases axis with
    | zero => exact hfirst
    | succ axis => exact hrest axis (Nat.lt_of_succ_lt_succ haxis)

/-- The strides are computed without an overflow exactly when each of them fits. -/
theorem computeStrides_spec (shape : List ℕ) :
    (StridesFit shape → ∃ strides, computeStrides shape = some strides ∧
      (shape ≠ [] → strides.headD 1 = shape.tail.prod)) ∧
    (¬ StridesFit shape → computeStrides shape = none) := by
  induction shape with
  | nil =>
    have hfits : StridesFit [] := fun axis haxis ↦ absurd haxis (Nat.not_lt_zero axis)
    exact ⟨fun _ ↦ ⟨[], rfl, fun hne ↦ absurd rfl hne⟩, fun hnot ↦ absurd hfits hnot⟩
  | cons dim axes ih =>
    cases axes with
    | nil =>
      refine ⟨fun _ ↦ ⟨[1], rfl, fun _ ↦ rfl⟩, fun hnot ↦ absurd ?_ hnot⟩
      refine stridesFit_cons.mpr ⟨by decide, fun axis haxis ↦ absurd haxis (Nat.not_lt_zero axis)⟩
    | cons next axes =>
      constructor
      · intro hfits
        obtain ⟨hfirst, hrest⟩ := stridesFit_cons.mp hfits
        obtain ⟨strides, hstrides, hhead⟩ := ih.1 hrest
        have hstride : strides.headD 1 * next = (next :: axes).prod := by
          rw [hhead (cons_ne_nil next axes), tail_cons, prod_cons, Nat.mul_comm]
        have hmul : checkedMul (strides.headD 1) next = some (next :: axes).prod :=
          checkedMul_eq_some.mpr ⟨by rwa [hstride], hstride.symm⟩
        refine ⟨(next :: axes).prod :: strides, ?_, fun _ ↦ rfl⟩
        rw [computeStrides, hstrides, Option.bind_eq_bind, Option.bind_some, hmul]
        rfl
      · intro hnot
        rw [computeStrides]
        by_cases hrest : StridesFit (next :: axes)
        · obtain ⟨strides, hstrides, hhead⟩ := ih.1 hrest
          have hlarge : ¬ (next :: axes).prod < usizeRange :=
            fun hfirst ↦ hnot (stridesFit_cons.mpr ⟨hfirst, hrest⟩)
          have hmul : checkedMul (strides.headD 1) next = none := by
            rw [checkedMul, if_neg]
            rwa [hhead (cons_ne_nil next axes), tail_cons, Nat.mul_comm,
              ← prod_cons]
          rw [hstrides, Option.bind_eq_bind, Option.bind_some, hmul]
          rfl
        · rw [ih.2 hrest]
          rfl

/-! ## Matrices -/

structure Tensor where
  rows : ℕ
  cols : ℕ
  data : List F32
  length_eq : data.length = rows * cols
  deriving DecidableEq

namespace Tensor

def fromVec (data : List F32) (rows cols : ℕ) : Except Failure Tensor :=
  match hlen : checkedMul rows cols with
  | none => .error .fault
  | some len =>
    if hdata : data.length = len then
      .ok { rows, cols, data, length_eq := by rw [hdata, (checkedMul_eq_some.mp hlen).2] }
    else
      .error .fault

theorem fromVec_self (t : Tensor) (hfits : t.rows * t.cols < usizeRange) :
    fromVec t.data t.rows t.cols = .ok t := by
  have hlen : checkedMul t.rows t.cols = some (t.rows * t.cols) :=
    checkedMul_eq_some.mpr ⟨hfits, rfl⟩
  unfold fromVec
  split
  · rename_i hnone
    rw [hlen] at hnone
    cases hnone
  · rename_i len hsome
    have hlength : t.data.length = len := t.length_eq.trans (Option.some.inj (hlen.symm.trans hsome))
    rw [dif_pos hlength]

end Tensor

/-! ## Tensors of any rank -/

structure TensorND where
  data : List F32
  shape : List ℕ
  strides : List ℕ
  numel : checkedProduct shape = some data.length
  contiguous : computeStrides shape = some strides
  deriving DecidableEq

namespace TensorND

def new (data : List F32) (shape : List ℕ) : Except Failure TensorND :=
  match hnumel : checkedProduct shape with
  | none => .error .fault
  | some numel =>
    if hlen : data.length = numel then
      match hstrides : computeStrides shape with
      | none => .error .fault
      | some strides =>
        .ok { data, shape, strides, numel := by rw [hnumel, hlen], contiguous := hstrides }
    else
      .error .fault

theorem new_self (t : TensorND) : new t.data t.shape = .ok t := by
  unfold new
  split
  · rename_i hnone
    rw [t.numel] at hnone
    cases hnone
  · rename_i numel hsome
    have hlength : t.data.length = numel := Option.some.inj (t.numel.symm.trans hsome)
    rw [dif_pos hlength]
    split
    · rename_i hnone
      rw [t.contiguous] at hnone
      cases hnone
    · rename_i strides hstrides
      have heq : strides = t.strides := Option.some.inj (hstrides.symm.trans t.contiguous)
      subst heq
      rfl

theorem new_fault {data : List F32} {shape : List ℕ} (hfits : ¬ StridesFit shape) :
    new data shape = .error .fault := by
  have hstrides := (computeStrides_spec shape).2 hfits
  unfold new
  split
  · rfl
  · split
    · split
      · rfl
      · rename_i hsome
        rw [hstrides] at hsome
        cases hsome
    · rfl

theorem new_of_fits {data : List F32} {shape : List ℕ}
    (hnumel : checkedProduct shape = some data.length) (hfits : StridesFit shape) :
    ∃ t, new data shape = .ok t ∧ t.data = data ∧ t.shape = shape := by
  obtain ⟨strides, hstrides, -⟩ := (computeStrides_spec shape).1 hfits
  exact ⟨⟨data, shape, strides, hnumel, hstrides⟩, new_self ⟨data, shape, strides, hnumel, hstrides⟩,
    rfl, rfl⟩

end TensorND

end SoulSystem.Scirust.Safetensors
