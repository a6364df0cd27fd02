import SoulSystem.Scirust.Fixed.Types

/-!
# Machine integers with 32 fraction bits

The elementary functions are computed on integers of 64 and of 128 bits.  An operation whose result
has no room is read in two ways: the result wraps around, or there is none.  A computation that has
one value under both readings has lost nothing.

A shift to the right is a division that rounds down, and never counts as a loss.
-/

namespace SoulSystem.Scirust.Transcendental

open List

/-! ## Readings -/

/-- What an operation returns when its result has no room. -/
inductive Reading where
  | wrapping
  | checked

/-- The result of an operation in a width. -/
def fit (r : Reading) (n : ℕ) (x : ℤ) : Option ℤ :=
  match r with
  | .wrapping => some (x.bmod (2 ^ n))
  | .checked => if InRange n x then some x else none

def i64 (r : Reading) (x : ℤ) : Option ℤ := fit r 64 x

def i128 (r : Reading) (x : ℤ) : Option ℤ := fit r 128 x

/-- The division of the widest integers; a division by zero panics. -/
def divI128 (r : Reading) (a b : ℤ) : Option ℤ := if b = 0 then none else i128 r (a.tdiv b)

/-- The largest integer of 128 bits. -/
def maxI128 : ℤ := 2 ^ 127 - 1

/-- One. -/
def oneQ : ℤ := 2 ^ 32

variable {r : Reading} {frac : ℕ}

theorem fit_eq {n : ℕ} {x : ℤ} (hx : InRange n x) : fit r n x = some x := by
  cases r with
  | wrapping => exact congrArg some (bmod_eq_self hx)
  | checked => exact if_pos hx

theorem i64_eq {x : ℤ} (hlow : -2 ^ 63 ≤ x) (hhigh : x < 2 ^ 63) : i64 r x = some x :=
  fit_eq ⟨by omega, by omega⟩

theorem i128_eq {x : ℤ} (hlow : -2 ^ 127 ≤ x) (hhigh : x < 2 ^ 127) : i128 r x = some x :=
  fit_eq ⟨by omega, by omega⟩

theorem i64_checked_eq_none {x : ℤ} (hout : x < -2 ^ 63 ∨ 2 ^ 63 ≤ x) : i64 .checked x = none := by
  refine if_neg fun hrange ↦ ?_
  obtain ⟨hlow, hhigh⟩ := hrange
  omega

/-! ## Products and polynomials -/

/-- A product with 32 fraction bits, rounded to the nearest. -/
def mulQ (r : Reading) (a b : ℤ) : Option ℤ := do
  let product ← i128 r (a * b)
  let nudged ← i128 r (product + 2 ^ 31)
  i64 r (nudged / 2 ^ 32)

/-- Horner's rule, from the last coefficient. -/
def polyQ (r : Reading) (x : ℤ) (coeffs : List ℤ) : Option ℤ :=
  match coeffs.reverse with
  | [] => none
  | last :: rest => rest.foldlM (fun acc c ↦ do i64 r ((← mulQ r acc x) + c)) last

/-- The rounded product. -/
def mulVal (a b : ℤ) : ℤ := (a * b + 2 ^ 31) / 2 ^ 32

/-- The value of Horner's rule. -/
def polyVal (x : ℤ) (coeffs : List ℤ) : ℤ := coeffs.foldr (fun c acc ↦ mulVal acc x + c) 0

theorem mulQ_eq {a b : ℤ} (hproduct : |a * b| ≤ 2 ^ 126) (hlow : -2 ^ 63 ≤ mulVal a b)
    (hhigh : mulVal a b < 2 ^ 63) : mulQ r a b = some (mulVal a b) := by
  obtain ⟨hbelow, habove⟩ := abs_le.mp hproduct
  rw [mulQ, i128_eq (by omega) (by omega), Option.bind_eq_bind, Option.bind_some,
    i128_eq (by omega) (by omega), Option.bind_some]
  exact i64_eq hlow hhigh

theorem abs_mulVal_le {a b bound : ℤ} (hproduct : |a * b| ≤ bound * 2 ^ 32) :
    |mulVal a b| ≤ bound := by
  obtain ⟨hbelow, habove⟩ := abs_le.mp hproduct
  rw [mulVal, abs_le]
  omega

/-- A product of bounded factors. -/
theorem mulQ_of_abs_le {a b bound : ℤ} (hproduct : |a * b| ≤ bound * 2 ^ 32)
    (hbound : bound < 2 ^ 63) : mulQ r a b = some (mulVal a b) ∧ |mulVal a b| ≤ bound := by
  have hle := abs_mulVal_le hproduct
  obtain ⟨hbelow, habove⟩ := abs_le.mp hle
  exact ⟨mulQ_eq (by omega) (by omega) (by omega), hle⟩

theorem polyVal_cons (x c : ℤ) (coeffs : List ℤ) :
    polyVal x (c :: coeffs) = mulVal (polyVal x coeffs) x + c := rfl

/-- Every coefficient at most doubles the bound. -/
theorem abs_polyVal_le {x : ℤ} (hx : |x| ≤ 2 ^ 33) {coeffs : List ℤ}
    (hcoeffs : ∀ c ∈ coeffs, |c| ≤ 2 ^ 36) :
    |polyVal x coeffs| ≤ (2 ^ coeffs.length - 1) * 2 ^ 37 := by
  induction coeffs with
  | nil => exact le_rfl
  | cons c coeffs ih =>
    rw [forall_mem_cons] at hcoeffs
    have hrest := ih hcoeffs.2
    have hproduct : |polyVal x coeffs * x| ≤ (2 * |polyVal x coeffs|) * 2 ^ 32 := by
      rw [abs_mul]
      nlinarith [abs_nonneg (polyVal x coeffs)]
    have hmul := abs_mulVal_le hproduct
    rw [polyVal_cons, length_cons, pow_succ]
    have hsum := abs_add_le (mulVal (polyVal x coeffs) x) c
    linarith [hcoeffs.1]

theorem polyQ_cons (x c : ℤ) {coeffs : List ℤ} (hcoeffs : coeffs ≠ []) :
    polyQ r x (c :: coeffs) =
      (polyQ r x coeffs).bind fun acc ↦ (mulQ r acc x).bind fun p ↦ i64 r (p + c) := by
  rw [polyQ, polyQ, reverse_cons]
  cases hreverse : coeffs.reverse with
  | nil => exact absurd (List.reverse_eq_nil_iff.mp hreverse) hcoeffs
  | cons last rest =>
    rw [cons_append]
    simp only [foldlM_append, foldlM_cons, foldlM_nil, Option.bind_eq_bind,
      Option.pure_def, Option.bind_fun_some]

/-- **Horner's rule** loses nothing for short lists of small coefficients. -/
theorem polyQ_eq {x : ℤ} (hx : |x| ≤ 2 ^ 33) {coeffs : List ℤ} (hne : coeffs ≠ [])
    (hlength : coeffs.length ≤ 21) (hcoeffs : ∀ c ∈ coeffs, |c| ≤ 2 ^ 36) :
    polyQ r x coeffs = some (polyVal x coeffs) := by
  induction coeffs with
  | nil => exact absurd rfl hne
  | cons c coeffs ih =>
    rw [length_cons] at hlength
    rw [forall_mem_cons] at hcoeffs
    have hpow : (2 : ℤ) ^ coeffs.length ≤ 2 ^ 20 := pow_le_pow_right₀ (by norm_num) (by omega)
    have hrest := abs_polyVal_le hx hcoeffs.2
    by_cases hlast : coeffs = []
    · subst hlast
      have hzero : polyVal x [c] = c := by
        rw [polyVal_cons]
        change mulVal 0 x + c = c
        rw [mulVal, zero_mul]
        norm_num
      rw [hzero]
      rfl
    · have hproduct : |polyVal x coeffs * x| ≤ 2 ^ 58 * 2 ^ 32 := by
        rw [abs_mul]
        nlinarith [abs_nonneg (polyVal x coeffs), abs_nonneg x]
      obtain ⟨hmul, hle⟩ := mulQ_of_abs_le (r := r) hproduct (by norm_num)
      obtain ⟨hbelow, habove⟩ := abs_le.mp hle
      obtain ⟨hlow, hhigh⟩ := abs_le.mp hcoeffs.1
      rw [polyQ_cons x c hlast, ih hlast (by omega) hcoeffs.2, Option.bind_some, hmul,
        Option.bind_some, polyVal_cons]
      exact i64_eq (by omega) (by omega)

/-! ## Computations without a loss -/

/-- A computation that has one value, with a property, whatever the reading. -/
def Lossless {α : Type*} (f : Reading → Option α) (P : α → Prop) : Prop :=
  ∃ a, P a ∧ ∀ r, f r = some a

namespace Lossless

variable {α β : Type} {f : Reading → Option α} {P P' : α → Prop}

theorem bind {g : Reading → α → Option β} {Q : β → Prop} (hf : Lossless f P)
    (hg : ∀ a, P a → Lossless (fun r ↦ g r a) Q) : Lossless (fun r ↦ f r >>= g r) Q := by
  obtain ⟨a, ha, hvalue⟩ := hf
  obtain ⟨b, hb, hresult⟩ := hg a ha
  refine ⟨b, hb, fun r ↦ ?_⟩
  change (f r).bind (g r) = some b
  rw [hvalue r, Option.bind_some]
  exact hresult r

theorem mono (hf : Lossless f P) (himp : ∀ a, P a → P' a) : Lossless f P' := by
  obtain ⟨a, ha, hvalue⟩ := hf
  exact ⟨a, himp a ha, hvalue⟩

theorem not_of_none (hnone : f .checked = none) : ¬ Lossless f P := by
  rintro ⟨a, -, hvalue⟩
  rw [hvalue] at hnone
  exact Option.some_ne_none a hnone

theorem pure (a : α) : Lossless (fun _ ↦ some a) fun b ↦ b = a := ⟨a, rfl, fun _ ↦ rfl⟩

theorem i64 {x : ℤ} (hlow : -2 ^ 63 ≤ x) (hhigh : x < 2 ^ 63) :
    Lossless (fun r ↦ Transcendental.i64 r x) fun v ↦ v = x := ⟨x, rfl, fun _ ↦ i64_eq hlow hhigh⟩

theorem i128 {x : ℤ} (hlow : -2 ^ 127 ≤ x) (hhigh : x < 2 ^ 127) :
    Lossless (fun r ↦ Transcendental.i128 r x) fun v ↦ v = x :=
  ⟨x, rfl, fun _ ↦ i128_eq hlow hhigh⟩

theorem divI128 {a b : ℤ} (hb : b ≠ 0) (hlow : -2 ^ 127 ≤ a.tdiv b) (hhigh : a.tdiv b < 2 ^ 127) :
    Lossless (fun r ↦ Transcendental.divI128 r a b) fun v ↦ v = a.tdiv b :=
  ⟨a.tdiv b, rfl, fun _ ↦ (if_neg hb).trans (i128_eq hlow hhigh)⟩

theorem mulQ (bound : ℤ) {a b : ℤ} (hproduct : |a * b| ≤ bound * 2 ^ 32)
    (hbound : bound < 2 ^ 63) :
    Lossless (fun r ↦ Transcendental.mulQ r a b) fun v ↦ v = mulVal a b ∧ |v| ≤ bound :=
  ⟨mulVal a b, ⟨rfl, abs_mulVal_le hproduct⟩, fun _ ↦ (mulQ_of_abs_le hproduct hbound).1⟩

theorem polyQ {x : ℤ} (hx : |x| ≤ 2 ^ 33) {coeffs : List ℤ} (hne : coeffs ≠ [])
    (hlength : coeffs.length ≤ 21) (hcoeffs : ∀ c ∈ coeffs, |c| ≤ 2 ^ 36) :
    Lossless (fun r ↦ Transcendental.polyQ r x coeffs)
      fun v ↦ |v| ≤ 2 ^ coeffs.length * 2 ^ 37 := by
  have hle := abs_polyVal_le hx hcoeffs
  exact ⟨polyVal x coeffs, by linarith, fun _ ↦ polyQ_eq hx hne hlength hcoeffs⟩

end Lossless

/-! ## Conversions -/

/-- A number with more fraction bits. -/
def toQ32 (r : Reading) (x : Fixed 32 frac) : Option ℤ := i64 r (x.raw.toInt * 2 ^ (32 - frac))

/-- Rounded to the nearest and saturated. -/
def fromQ32 (v : ℤ) : Fixed 32 frac :=
  let shift := 32 - frac
  let rounded := min (v + 2 ^ (shift - 1)) maxI128 / 2 ^ shift
  if 2 ^ 31 - 1 < rounded then ⟨BitVec.intMax 32⟩
  else if rounded < -2 ^ 31 then ⟨BitVec.intMin 32⟩
  else ⟨BitVec.ofInt 32 rounded⟩

/-- The integer with 32 fraction bits that a number stands for. -/
def q32 (x : Fixed 32 frac) : ℤ := x.raw.toInt * 2 ^ (32 - frac)

theorem toInt_bounds (x : BitVec 32) : -2 ^ 31 ≤ x.toInt ∧ x.toInt < 2 ^ 31 := by
  have hlow := BitVec.le_two_mul_toInt (x := x)
  have hhigh := BitVec.two_mul_toInt_lt (x := x)
  omega

theorem q32_bounds (x : Fixed 32 frac) :
    -2 ^ 63 ≤ q32 x ∧ q32 x < 2 ^ 63 := by
  obtain ⟨hlow, hhigh⟩ := toInt_bounds x.raw
  have hpos : (0 : ℤ) < 2 ^ (32 - frac) := by positivity
  have hle : (2 : ℤ) ^ (32 - frac) ≤ 2 ^ 32 := pow_le_pow_right₀ (by norm_num) (by omega)
  rw [q32]
  constructor
  · nlinarith
  · rcases le_or_gt 0 x.raw.toInt with hsign | hsign
    · nlinarith
    · nlinarith

theorem unit_mul_unit (hfrac : frac ≤ 31) : (2 : ℤ) ^ frac * 2 ^ (32 - frac) = 2 ^ 32 := by
  rw [← pow_add]
  congr 1
  omega

/-- A whole number has no fraction to round. -/
theorem add_half_div_unit (hfrac : frac ≤ 31) (n : ℤ) :
    (n * 2 ^ 32 + 2 ^ (31 - frac)) / 2 ^ (32 - frac) = n * 2 ^ frac := by
  have hpos : (0 : ℤ) < 2 ^ (32 - frac) := by positivity
  have hhalf : (2 : ℤ) ^ (31 - frac) < 2 ^ (32 - frac) := pow_lt_pow_right₀ (by norm_num) (by omega)
  rw [← unit_mul_unit hfrac, ← mul_assoc, add_comm, Int.add_mul_ediv_right _ _ hpos.ne',
    Int.ediv_eq_zero_of_lt (by positivity) hhalf, zero_add]

/-- The nearest number, if it is in range. -/
theorem toInt_fromQ32 (hfrac : frac ≤ 31) {v : ℤ} (hv : v + 2 ^ (31 - frac) ≤ maxI128) :
    (fromQ32 v : Fixed 32 frac).raw.toInt =
      max (-2 ^ 31) (min ((v + 2 ^ (31 - frac)) / 2 ^ (32 - frac)) (2 ^ 31 - 1)) := by
  have hshift : 32 - frac - 1 = 31 - frac := by omega
  rw [fromQ32]
  simp only [hshift, min_eq_left hv]
  split_ifs with hover hunder
  · rw [min_eq_right hover.le]
    rfl
  · rw [min_eq_left (by omega), max_eq_left hunder.le]
    rfl
  · rw [min_eq_left (not_lt.mp hover), max_eq_right (not_lt.mp hunder)]
    exact toInt_ofInt_eq_self ⟨by omega, by omega⟩

theorem toQ32_eq (x : Fixed 32 frac) : toQ32 r x = some (q32 x) :=
  i64_eq (q32_bounds x).1 (q32_bounds x).2

end SoulSystem.Scirust.Transcendental
