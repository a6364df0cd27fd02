import SoulSystem.Scirust.Fixed.Reductions
import SoulSystem.Library.Outcome

/-!
# Scalars, matrix products and linear layers

The elementary functions are parameters, except that the exponential is scaled, summed and divided
as the program does it.  A division by zero panics, and a normalisation may be undefined.

A layer is applied to one row by a product of its weights with the row, and to a batch of rows by
one matrix product.  The products take their arguments in two orders, and both ways compute the same
rows, except that a batch panics when the layer has no output.
-/

namespace SoulSystem.Scirust

open Library RowMajor List

section Functions

/-- A result is missing, or the program panics. -/
inductive Failure where
  | undefined
  | panic
  deriving DecidableEq

/-- The program panics unless the condition holds. -/
def require (p : Prop) [Decidable p] : Except Failure Unit :=
  if p then .ok () else .error .panic

theorem require_eq_ok {p : Prop} [Decidable p] {u : Unit} : require p = .ok u ↔ p := by
  rw [require]
  split
  case isTrue hp => exact iff_of_true rfl hp
  case isFalse hp => exact iff_of_false (fun hok ↦ nomatch hok) hp

theorem require_bind {α : Type} {p : Prop} [Decidable p] (hp : p) (f : Unit → Except Failure α) :
    (require p >>= f) = f () := by
  rw [require, if_pos hp]
  rfl

def orElse {α : Type} (failure : Failure) : Option α → Except Failure α
  | some a => .ok a
  | none => .error failure

/-- The elementary functions; the exponential is between integers with 32 fraction bits. -/
structure Scalars (frac : ℕ) where
  exp2Core : BitVec 64 → BitVec 128
  log2 : Fixed 32 frac → Fixed 32 frac
  sin : Fixed 32 frac → Fixed 32 frac
  cos : Fixed 32 frac → Fixed 32 frac
  sqrt : Fixed 32 frac → Fixed 32 frac

variable {frac : ℕ}

/-! ## Fixed-point operators -/

instance : Zero (Fixed 32 frac) := ⟨⟨0⟩⟩

instance : Inhabited (Fixed 32 frac) := ⟨0⟩

def one : Fixed 32 frac := ⟨1 <<< frac⟩

def mul (a b : Fixed 32 frac) : Fixed 32 frac :=
  Fixed.wrappingMul (m := Id) (BitVec (2 * 32)) a b

def sub (a b : Fixed 32 frac) : Fixed 32 frac := ⟨a.raw - b.raw⟩

def checkedDiv (a b : Fixed 32 frac) : Option (Fixed 32 frac) :=
  Fixed.checkedDiv (m := Id) (BitVec (2 * 32)) a b

/-- A division by zero is `none`. -/
def wrappingDiv (a b : Fixed 32 frac) : Option (Fixed 32 frac) :=
  Fixed.wrappingDiv (m := Id) (BitVec (2 * 32)) a b

def fromI32 (value : BitVec 32) : Fixed 32 frac :=
  let wide : BitVec (2 * 32) := shl (m := Id) (toWide value) frac
  ⟨fromWideSaturating wide⟩

def reciprocal (x : Fixed 32 frac) : Option (Fixed 32 frac) :=
  Fixed.divRounded (m := Id) (BitVec (2 * 32)) one x .towardZero .checked

def recip (x : Fixed 32 frac) : Fixed 32 frac :=
  (reciprocal x).getD (if x.raw.toInt < 0 then ⟨BitVec.intMin 32⟩ else ⟨BitVec.intMax 32⟩)

/-! ## Integers with 32 fraction bits -/

def toQ32 (x : Fixed 32 frac) : BitVec 64 := x.raw.signExtend 64 <<< (32 - frac)

def fromQ32 (v : BitVec 128) : Fixed 32 frac :=
  let shift := 32 - frac
  let rounded := min (v.toInt + 2 ^ (shift - 1)) (2 ^ 127 - 1) / 2 ^ shift
  if 2 ^ 31 - 1 < rounded then ⟨BitVec.intMax 32⟩
  else if rounded < -2 ^ 31 then ⟨BitVec.intMin 32⟩
  else ⟨BitVec.ofInt 32 rounded⟩

def mulQ (a b : BitVec 64) : BitVec 64 :=
  ((a.signExtend 128 * b.signExtend 128 + 1 <<< 31).sshiftRight 32).setWidth 64

def log2eQ32 : BitVec 64 := 6196328019

/-- The division of the widest integers. -/
def divI128 (a b : BitVec 128) : Except Failure (BitVec 128) := do
  require (b ≠ 0 ∧ ¬ (a = BitVec.intMin 128 ∧ b = -1))
  return a.sdiv b

namespace Scalars

variable (f : Scalars frac)

def exp2 (x : Fixed 32 frac) : Fixed 32 frac := fromQ32 (f.exp2Core (toQ32 x))

def sigmoid (x : Fixed 32 frac) : Except Failure (Fixed 32 frac) := do
  let e := f.exp2Core (mulQ (-toQ32 x) log2eQ32)
  let denom := BitVec.ofInt 128 (min (2 ^ 32 + e.toInt) (2 ^ 127 - 1))
  return fromQ32 (← divI128 (1 <<< 64) denom)

def silu (x : Fixed 32 frac) : Except Failure (Fixed 32 frac) := do
  return mul x (← f.sigmoid x)

/-- The exponentials of the differences to the maximum over their sum. -/
def softmaxInto (input : List (Fixed 32 frac)) : Except Failure (List (Fixed 32 frac)) :=
  match input with
  | [] => .ok []
  | first :: rest =>
    let m := rest.foldl (fun m x ↦ if m.raw.slt x.raw then x else m) first
    let e := fun x ↦ f.exp2Core (mulQ (toQ32 x - toQ32 m) log2eQ32)
    let sum := input.foldl (fun sum x ↦ sum + e x) 0
    input.mapM fun x ↦ do return fromQ32 (← divI128 (e x <<< 32) sum)

end Scalars

/-! ## The functions of the program -/

/-- Horner's rule, from the last coefficient. -/
def polyQ (x : BitVec 64) (coeffs : List (BitVec 64)) : BitVec 64 :=
  match coeffs.reverse with
  | [] => 0
  | last :: rest => rest.foldl (fun acc c ↦ mulQ acc x + c) last

def exp2C : List (BitVec 64) :=
  [4294967296, 2977044584, 1031765026, 238384739, 41308972, 5755442, 664776]

def log2C : List (BitVec 64) :=
  [-14711951260, 35024616741, -42980318503, 39882996028, -25827496272, 11333447405, -3214170635,
    531913241, -39036563]

def sinC : List (BitVec 64) := [2, 4294967230, 31, -715826377, -209, 35782944, 263, -834895]

def cosC : List (BitVec 64) := [4294967296, 0, -2147483648, 0, 178956912, 0, -5899877]

def exp2Core (y : BitVec 64) : BitVec 128 :=
  let k := (y + 1 <<< 31).sshiftRight 32
  let mantissa := (polyQ (y - k <<< 32) exp2C).signExtend 128
  if 62 < k.toInt then BitVec.intMax 128
  else if k.toInt < -62 then 0
  else if 0 ≤ k.toInt then mantissa <<< k.toInt.toNat
  else mantissa.sshiftRight (-k.toInt).toNat

def log2Core (x : BitVec 64) : BitVec 64 :=
  let k : ℤ := (Nat.log2 x.toNat : ℤ) - 32
  let m := if 0 ≤ k then x.sshiftRight k.toNat else x <<< (-k).toNat
  BitVec.ofInt 64 k <<< 32 + polyQ m log2C

def log2 (x : Fixed 32 frac) : Fixed 32 frac :=
  if x.raw.toInt ≤ 0 then ⟨BitVec.intMin 32⟩
  else fromQ32 ((log2Core (toQ32 x)).signExtend 128)

/-- The angle is reduced to a turn, then to an octant. -/
def sincosCore (x : BitVec 64) : BitVec 64 × BitVec 64 :=
  let turns := (mulQ x 683565276 + 1 <<< 31).sshiftRight 32
  let r := x.toInt - turns.toInt * 26986075409
  let m := ((mulQ (BitVec.ofInt 64 r) 2734261102 + 1 <<< 31).sshiftRight 32).toInt
  let r2 := BitVec.ofInt 64 (r - m * 6746518852)
  let s := polyQ r2 sinC
  let c := polyQ r2 cosC
  match (m.tmod 4 + 4).tmod 4 with
  | 0 => (s, c)
  | 1 => (c, -s)
  | 2 => (-s, -c)
  | _ => (-c, s)

def sin (x : Fixed 32 frac) : Fixed 32 frac := fromQ32 ((sincosCore (toQ32 x)).1.signExtend 128)

def cos (x : Fixed 32 frac) : Fixed 32 frac := fromQ32 ((sincosCore (toQ32 x)).2.signExtend 128)

/-- Newton's iteration from `x` with the next value `y`, for a number of rounds. -/
def isqrtFrom (n : ℕ) : ℕ → ℕ → ℕ → ℕ
  | 0, x, _ => x
  | rounds + 1, x, y => if y < x then isqrtFrom n rounds y ((y + n / y) / 2) else x

def wideIsqrt (n : ℕ) : ℕ := if n ≤ 1 then n else isqrtFrom n 64 n ((n + 1) / 2)

def sqrt (x : Fixed 32 frac) : Fixed 32 frac :=
  if x.raw.toInt ≤ 0 then 0
  else ⟨BitVec.ofNat 32 (min (wideIsqrt (x.raw.toNat * 2 ^ frac)) (2 ^ 31 - 1))⟩

/-- The elementary functions of the program. -/
def sourceScalars (frac : ℕ) : Scalars frac where
  exp2Core := exp2Core
  log2 := log2
  sin := sin
  cos := cos
  sqrt := sqrt

end Functions

open Outcome

variable {frac : ℕ}

/-! ## Matrix products -/

/-- The lengths are equal wherever this is called. -/
def dot (a b : List (Fixed 32 frac)) : Fixed 32 frac := reduceDot a b

def transpose (a : List (Fixed 32 frac)) (rows cols : ℕ) : Except Failure (List (Fixed 32 frac)) := do
  require (a.length = rows * cols)
  return tab cols fun j ↦ (List.range rows).map fun i ↦ a.getD (i * cols + j) 0

def matmulBt (a bt : List (Fixed 32 frac)) (m k n : ℕ) : Except Failure (List (Fixed 32 frac)) := do
  require (a.length = m * k)
  require (bt.length = n * k)
  return tab m fun i ↦ (List.range n).map fun j ↦ dot (slice a (i * k) k) (slice bt (j * k) k)

def matmul (a b : List (Fixed 32 frac)) (m k n : ℕ) : Except Failure (List (Fixed 32 frac)) := do
  require (a.length = m * k)
  require (b.length = k * n)
  let bt ← transpose b k n
  matmulBt a bt m k n

def matvec (a x : List (Fixed 32 frac)) (m k : ℕ) : Except Failure (List (Fixed 32 frac)) := do
  require (a.length = m * k)
  require (x.length = k)
  return (List.range m).map fun i ↦ dot (slice a (i * k) k) x

/-- The second list is added to the first, as far as both go. -/
def addInto : List (Fixed 32 frac) → List (Fixed 32 frac) → List (Fixed 32 frac)
  | x :: xs, y :: ys => Fixed.wrappingAdd x y :: addInto xs ys
  | xs, _ => xs

theorem length_addInto (xs ys : List (Fixed 32 frac)) : (addInto xs ys).length = xs.length := by
  fun_induction addInto xs ys with
  | case1 x xs y ys ih => rw [length_cons, ih, length_cons]
  | case2 xs ys hshort => rfl

theorem addInto_append {xs ys : List (Fixed 32 frac)} (hlength : xs.length = ys.length)
    (xs' ys' : List (Fixed 32 frac)) :
    addInto (xs ++ xs') (ys ++ ys') = addInto xs ys ++ addInto xs' ys' := by
  induction xs generalizing ys with
  | nil =>
    rw [eq_nil_of_length_eq_zero hlength.symm]
    cases xs' <;> rfl
  | cons x xs ih =>
    cases ys with
    | nil => cases hlength
    | cons y ys =>
      exact congrArg (Fixed.wrappingAdd x y :: ·) (ih (Nat.succ_injective hlength))

/-- Rows are added one by one. -/
theorem addInto_tab {n w : ℕ} {rows rows' : ℕ → List (Fixed 32 frac)}
    (hrows : ∀ r < n, (rows r).length = w) (hrows' : ∀ r < n, (rows' r).length = w) :
    addInto (tab n rows) (tab n rows') = tab n fun r ↦ addInto (rows r) (rows' r) := by
  induction n with
  | zero => rfl
  | succ n ih =>
    have hbefore : ∀ r < n, (rows r).length = w := fun r hr ↦ hrows r (Nat.lt_succ_of_lt hr)
    have hbefore' : ∀ r < n, (rows' r).length = w := fun r hr ↦ hrows' r (Nat.lt_succ_of_lt hr)
    rw [tab_succ, tab_succ, addInto_append (by rw [length_tab hbefore, length_tab hbefore']),
      ih hbefore hbefore', tab_succ]

/-! ## The scalar product commutes -/

theorem mul_comm_fixed (a b : Fixed 32 frac) : mul a b = mul b a := by
  have hwide : Fixed.mulWide (m := Id) (BitVec (2 * 32)) a b = Fixed.mulWide (BitVec (2 * 32)) b a :=
    mul_comm (toWide a.raw : BitVec (2 * 32)) (toWide b.raw)
  rw [mul, mul, Fixed.wrappingMul, hwide]
  rfl

theorem dot_comm (hfrac : frac < 32) {a b : List (Fixed 32 frac)} (hlength : a.length = b.length) :
    dot a b = dot b a := by
  have ha : (a.zip b).map Prod.fst = a := map_fst_zip hlength.le
  have hb : (a.zip b).map Prod.snd = b := map_snd_zip hlength.ge
  have hdot := reduceDot_eq hfrac (a.zip b)
  have hswap := reduceDot_eq hfrac ((a.zip b).map Prod.swap)
  rw [ha, hb] at hdot
  rw [map_map, map_map, map_map] at hswap
  have hfst : (a.zip b).map (Prod.fst ∘ Prod.swap) = b := hb
  have hsnd : (a.zip b).map (Prod.snd ∘ Prod.swap) = a := ha
  rw [hfst, hsnd] at hswap
  have hproduct : (a.zip b).map ((fun pair ↦ (product pair).raw) ∘ Prod.swap) =
      (a.zip b).map fun pair ↦ (product pair).raw :=
    map_congr_left fun pair _ ↦ congrArg Fixed.raw (mul_comm_fixed pair.2 pair.1)
  rw [dot, dot, hdot, hswap, hproduct]

/-! ## Linear layers -/

/-- Weights by rows of outputs, and a bias for each output.  A vector of 32-bit numbers has room for
less than `2 ^ 61` of them. -/
structure Linear (frac : ℕ) where
  weights : List (Fixed 32 frac)
  bias : List (Fixed 32 frac)
  outFeatures : ℕ
  inFeatures : ℕ
  length_weights : weights.length = outFeatures * inFeatures
  length_bias : bias.length = outFeatures
  weights_fit : weights.length < 2 ^ 61

namespace Linear

def forward (lin : Linear frac) (x : List (Fixed 32 frac)) : Except Failure (List (Fixed 32 frac)) := do
  require (x.length = lin.inFeatures)
  let y ← matvec lin.weights x lin.outFeatures lin.inFeatures
  return addInto y lin.bias

def forwardActivated (lin : Linear frac) (x : List (Fixed 32 frac))
    (f : Fixed 32 frac → Except Failure (Fixed 32 frac)) : Except Failure (List (Fixed 32 frac)) := do
  let y ← lin.forward x
  y.mapM f

/-- There are no chunks of size zero. -/
def forwardBatch (lin : Linear frac) (x : List (Fixed 32 frac)) (batch : ℕ) :
    Except Failure (List (Fixed 32 frac)) := do
  require (x.length = batch * lin.inFeatures)
  let y ← matmulBt x lin.weights batch lin.inFeatures lin.outFeatures
  require (lin.outFeatures ≠ 0)
  return (chunksExact lin.outFeatures y).flatMap (addInto · lin.bias) ++
    chunksRemainder lin.outFeatures y

def forwardBatchActivated (lin : Linear frac) (x : List (Fixed 32 frac)) (batch : ℕ)
    (f : Fixed 32 frac → Except Failure (Fixed 32 frac)) : Except Failure (List (Fixed 32 frac)) := do
  let y ← lin.forwardBatch x batch
  y.mapM f

/-- The outputs for one row. -/
def row (lin : Linear frac) (x : List (Fixed 32 frac)) : List (Fixed 32 frac) :=
  addInto ((List.range lin.outFeatures).map fun i ↦
    dot (slice lin.weights (i * lin.inFeatures) lin.inFeatures) x) lin.bias

variable (lin : Linear frac)

theorem length_row (x : List (Fixed 32 frac)) : (lin.row x).length = lin.outFeatures := by
  rw [row, length_addInto, length_map, length_range]

theorem forward_eq {x : List (Fixed 32 frac)} (hx : x.length = lin.inFeatures) :
    lin.forward x = .ok (lin.row x) := by
  rw [forward, matvec, require_bind hx, require_bind lin.length_weights, require_bind hx]
  rfl

end Linear

/-! ## Chunks of tabulated buffers -/

theorem chunksExact_tab {n w : ℕ} {rows : ℕ → List (Fixed 32 frac)} (hw : w ≠ 0)
    (hrows : ∀ r < n, (rows r).length = w) :
    chunksExact w (tab n rows) = (List.range n).map rows ∧ chunksRemainder w (tab n rows) = [] := by
  have hcount : (tab n rows).length / w = n := by
    rw [length_tab hrows, Nat.mul_div_cancel n (Nat.pos_of_ne_zero hw)]
  constructor
  · rw [chunksExact, hcount]
    refine map_congr_left fun r hr ↦ ?_
    rw [mul_comm]
    exact slice_tab hrows (List.mem_range.mp hr)
  · rw [chunksRemainder, hcount]
    exact drop_of_length_le (by rw [length_tab hrows, mul_comm])

theorem chunksExact_self {w : ℕ} {buf : List (Fixed 32 frac)} (hw : w ≠ 0) (hlength : buf.length = w) :
    chunksExact w buf = [buf] ∧ chunksRemainder w buf = [] := by
  have htab : tab 1 (fun _ ↦ buf) = buf := tab_one _
  have hchunks := chunksExact_tab hw (fun r (_ : r < 1) ↦ hlength)
  rwa [htab] at hchunks

namespace Linear

variable (lin : Linear frac)

/-- **A batch is computed row by row.** -/
theorem forwardBatch_tab (hfrac : frac < 32) {n : ℕ} {x : ℕ → List (Fixed 32 frac)}
    (hx : ∀ r < n, (x r).length = lin.inFeatures) (hout : lin.outFeatures ≠ 0) :
    lin.forwardBatch (tab n x) n = .ok (tab n fun r ↦ lin.row (x r)) := by
  have hproduct : ∀ r < n, ((List.range lin.outFeatures).map fun j ↦
      dot (slice (tab n x) (r * lin.inFeatures) lin.inFeatures)
        (slice lin.weights (j * lin.inFeatures) lin.inFeatures)) =
      (List.range lin.outFeatures).map fun j ↦
        dot (slice lin.weights (j * lin.inFeatures) lin.inFeatures) (x r) := by
    intro r hr
    refine map_congr_left fun j hj ↦ ?_
    have hinside : j * lin.inFeatures + lin.inFeatures ≤ lin.weights.length := by
      rw [lin.length_weights, ← Nat.succ_mul]
      exact Nat.mul_le_mul_right _ (List.mem_range.mp hj)
    rw [slice_tab hx hr]
    exact dot_comm hfrac ((hx r hr).trans (length_slice hinside).symm)
  have hlength : ∀ r < n, ((List.range lin.outFeatures).map fun j ↦
      dot (slice lin.weights (j * lin.inFeatures) lin.inFeatures) (x r)).length = lin.outFeatures :=
    fun r _ ↦ by rw [length_map, length_range]
  obtain ⟨hchunks, hrest⟩ := chunksExact_tab hout hlength
  rw [forwardBatch, matmulBt, require_bind (length_tab hx), require_bind (length_tab hx),
    require_bind lin.length_weights, tab_congr hproduct]
  refine (require_bind hout _).trans ?_
  rw [hchunks, hrest, append_nil, flatMap_map]
  rfl

/-- A layer without outputs panics on every batch. -/
theorem outFeatures_ne_zero_of_forwardBatch {x out : List (Fixed 32 frac)} {batch : ℕ}
    (hok : lin.forwardBatch x batch = .ok out) : lin.outFeatures ≠ 0 := by
  simp only [forwardBatch, bind_eq_ok] at hok
  obtain ⟨_, -, _, -, _, hout, -⟩ := hok
  exact require_eq_ok.mp hout

/-- With an activation that may fail, the batch succeeds when all rows do. -/
theorem forwardBatchActivated_tab (hfrac : frac < 32) {n : ℕ} {x : ℕ → List (Fixed 32 frac)}
    {f : Fixed 32 frac → Except Failure (Fixed 32 frac)} {out : List (Fixed 32 frac)}
    (hx : ∀ r < n, (x r).length = lin.inFeatures) (hout : lin.outFeatures ≠ 0) :
    lin.forwardBatchActivated (tab n x) n f = .ok out ↔
      ∃ y, (∀ r < n, (lin.row (x r)).mapM f = .ok (y r)) ∧ out = tab n y := by
  rw [forwardBatchActivated, lin.forwardBatch_tab hfrac hx hout, ok_bind, mapM_tab_eq_ok]

theorem forwardActivated_eq {x : List (Fixed 32 frac)} {f : Fixed 32 frac → Except Failure (Fixed 32 frac)}
    (hx : x.length = lin.inFeatures) : lin.forwardActivated x f = (lin.row x).mapM f := by
  rw [forwardActivated, lin.forward_eq hx, ok_bind]

end Linear

theorem length_of_mapM {α β : Type} {f : α → Except Failure β} {xs : List α} {ys : List β}
    (hok : xs.mapM f = .ok ys) : ys.length = xs.length := by
  induction xs generalizing ys with
  | nil =>
    cases hok
    rfl
  | cons x xs ih =>
    simp only [mapM_cons, bind_eq_ok, pure_eq_ok] at hok
    obtain ⟨y, -, rest, hrest, rfl⟩ := hok
    rw [length_cons, ih hrest, length_cons]

end SoulSystem.Scirust
