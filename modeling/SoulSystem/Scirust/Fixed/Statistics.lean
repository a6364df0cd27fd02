import SoulSystem.Scirust.Fixed.SquareRoot

/-!
# Means, variances and the cosine of two vectors

A sum is exact until it is narrowed, and the number of elements is clamped like any other number.  A
mean is between the extremes if neither of them loses anything, and a variance is not negative if
the squares have room.  A cosine divides by norms that were rounded down, so it may exceed one for
short vectors.
-/

namespace SoulSystem.Scirust

open Library FixedReducible List

/-! ## Definitions -/

/-- The widths of `FixedReducible`, with their sums. -/
class FixedSums (w : ℕ) extends FixedReducible w where
  reduceSum : ∀ {frac : ℕ}, List (Fixed w frac) → Fixed w frac

namespace FixedSums

variable {w frac : ℕ}

instance : FixedSums 32 where
  reduceSum := Scirust.reduceSum

/-- The sum of 64-bit numbers in 128 bits. -/
def reduceSum64 (data : List (Fixed 64 frac)) : Fixed 64 frac :=
  let total := data.foldl (fun total v ↦ total + v.raw.signExtend 128) (0 : BitVec 128)
  ⟨total.setWidth 64⟩

instance : FixedSums 64 where
  reduceSum := reduceSum64

/-- An integer clamped to the range of the numbers. -/
def fromIntSaturating (value : BitVec w) : Fixed w frac :=
  ⟨fromWideSaturating ((toWide value : BitVec (2 * w)) <<< frac)⟩

/-- A conversion through a float, which is exact for 32 bits. -/
def fromI32 (value : BitVec 32) : Fixed w frac := fromIntSaturating (value.signExtend w)

/-- The loop of the root ends within this budget. -/
def sqrt (x : Fixed w frac) : Fixed w frac :=
  (Fixed.sqrt (m := Id) (BitVec (2 * w)) (Fixed.widened x) x).getD ⟨0⟩

/-- `min` of a slice. -/
def minOf : List (Fixed w frac) → Option (Fixed w frac)
  | [] => none
  | first :: rest => some (rest.foldl (fun a b ↦ if a.raw.toInt ≤ b.raw.toInt then a else b) first)

/-- `max` of a slice. -/
def maxOf : List (Fixed w frac) → Option (Fixed w frac)
  | [] => none
  | first :: rest => some (rest.foldl (fun a b ↦ if b.raw.toInt ≤ a.raw.toInt then a else b) first)

/-- The sum of the squares of the differences. -/
def sumSqDev (data : List (Fixed w frac)) (m : Fixed w frac) : Fixed w frac :=
  data.foldl (fun total x ↦
    let d := Fixed.wrappingSub x m
    Fixed.wrappingAdd total (times d d)) ⟨0⟩

variable [FixedSums w]

def mean (data : List (Fixed w frac)) : Option (Fixed w frac) :=
  if data.isEmpty then none
  else quotient (reduceSum data) (fromI32 (BitVec.ofNat 32 data.length))

def variancePopulation (data : List (Fixed w frac)) : Option (Fixed w frac) := do
  let m ← mean data
  quotient (sumSqDev data m) (fromI32 (BitVec.ofNat 32 data.length))

def varianceSample (data : List (Fixed w frac)) : Option (Fixed w frac) :=
  if data.length < 2 then none
  else do
    let m ← mean data
    quotient (sumSqDev data m) (fromI32 (BitVec.ofNat 32 (data.length - 1)))

def l2Norm (a : List (Fixed w frac)) : Fixed w frac := sqrt (FixedReducible.reduceDot a a)

def cosineSimilarity (a b : List (Fixed w frac)) : Except Failure (Fixed w frac) := do
  let dotAb ← FixedReducible.dot a b
  let denom := times (l2Norm a) (l2Norm b)
  if denom = ⟨0⟩ then
    return ⟨0⟩
  else
    return (quotient dotAb denom).getD ⟨0⟩

/-! ## The sums -/

/-- A sum is the wrapped sum of the integers. -/
class LawfulSums (w : ℕ) [FixedSums w] : Prop extends LawfulReducible w where
  reduceSum_eq : ∀ {frac : ℕ} (data : List (Fixed w frac)),
    reduceSum data = ⟨(data.map Fixed.raw).sum⟩

instance : LawfulSums 32 where
  reduceSum_eq := Scirust.reduceSum_eq

instance : LawfulSums 64 where
  reduceSum_eq data := by
    have hfold := setWidth_foldl_signExtend (data.map Fixed.raw) 0
    rw [foldl_map] at hfold
    refine congrArg Fixed.mk (hfold.trans ?_)
    rw [BitVec.ofNat_eq_ofNat, BitVec.setWidth_zero, BitVec.zero_add]

section Sums

variable {w frac : ℕ}

theorem sum_eq_ofInt (raws : List (BitVec w)) :
    raws.sum = BitVec.ofInt w (raws.map BitVec.toInt).sum := by
  induction raws with
  | nil => rfl
  | cons x raws ih =>
    rw [sum_cons, ih, map_cons, sum_cons, BitVec.ofInt_add, BitVec.ofInt_toInt]

theorem sum_map_ofInt (values : List ℤ) :
    (values.map (BitVec.ofInt w)).sum = BitVec.ofInt w values.sum := by
  induction values with
  | nil => rfl
  | cons x values ih => rw [map_cons, sum_cons, ih, sum_cons, BitVec.ofInt_add]

/-- A sum that has room is exact. -/
theorem toInt_sum {raws : List (BitVec w)} (hroom : InRange w (raws.map BitVec.toInt).sum) :
    raws.sum.toInt = (raws.map BitVec.toInt).sum := by
  rw [sum_eq_ofInt, toInt_ofInt_eq_self hroom]

/-- A choice between two elements, repeated over a list, precedes every element. -/
theorem foldl_choose {α : Type} {r : α → α → Prop} [DecidableRel r] (hrefl : ∀ a, r a a)
    (htrans : ∀ a b c, r a b → r b c → r a c) (htotal : ∀ a b, ¬ r a b → r b a)
    (first : α) (rest : List α) :
    ∀ x ∈ first :: rest, r (rest.foldl (fun a b ↦ if r a b then a else b) first) x := by
  induction rest generalizing first with
  | nil =>
    intro x hx
    rw [List.mem_singleton.mp hx]
    exact hrefl first
  | cons y rest ih =>
    have hchoice := ih (if r first y then first else y)
    have hlow := hchoice _ mem_cons_self
    intro x hx
    rw [foldl_cons]
    rcases List.mem_cons.mp hx with hfirst | hrest
    · refine htrans _ _ _ hlow ?_
      rw [hfirst]
      split_ifs with hle
      · exact hrefl first
      · exact htotal _ _ hle
    · rcases List.mem_cons.mp hrest with hy | hrest
      · refine htrans _ _ _ hlow ?_
        rw [hy]
        split_ifs with hle
        · exact hle
        · exact hrefl y
      · exact hchoice x (mem_cons_of_mem _ hrest)

theorem minOf_le {data : List (Fixed w frac)} {lo : Fixed w frac} (hlo : minOf data = some lo) :
    ∀ x ∈ data, lo.raw.toInt ≤ x.raw.toInt := by
  cases data with
  | nil => cases hlo
  | cons first rest =>
    rw [← Option.some_inj.mp hlo]
    exact foldl_choose (r := fun a b : Fixed w frac ↦ a.raw.toInt ≤ b.raw.toInt)
      (fun _ ↦ le_rfl) (fun _ _ _ ↦ le_trans) (fun _ _ h ↦ (not_le.mp h).le) first rest

theorem le_maxOf {data : List (Fixed w frac)} {hi : Fixed w frac} (hhi : maxOf data = some hi) :
    ∀ x ∈ data, x.raw.toInt ≤ hi.raw.toInt := by
  cases data with
  | nil => cases hhi
  | cons first rest =>
    rw [← Option.some_inj.mp hhi]
    exact foldl_choose (r := fun a b : Fixed w frac ↦ b.raw.toInt ≤ a.raw.toInt)
      (fun _ ↦ le_rfl) (fun _ _ _ h h' ↦ h'.trans h) (fun _ _ h ↦ (not_le.mp h).le) first rest

theorem toInt_fromIntSaturating (hfrac : frac < w) (value : BitVec w) :
    (fromIntSaturating value : Fixed w frac).raw.toInt =
      max (-2 ^ (w - 1)) (min (value.toInt * 2 ^ frac) (2 ^ (w - 1) - 1)) := by
  have : NeZero w := ⟨by omega⟩
  have hsplit : (2 : ℤ) ^ w = 2 * 2 ^ (w - 1) := two_pow_split (NeZero.pos w)
  have hpos : (0 : ℤ) < 2 ^ (w - 1) := by positivity
  have hwide : ((toWide value : BitVec (2 * w)) <<< frac).toInt = value.toInt * 2 ^ frac := by
    rw [toInt_shl, show (toWide value : BitVec (2 * w)).toInt = value.toInt from
      BitVec.toInt_signExtend_of_le (by omega)]
    exact bmod_eq_self (inRange_of_abs (four_mul_abs_shl_le value hfrac))
  have hnarrow := narrow_eq ((toWide value : BitVec (2 * w)) <<< frac) .saturate
  rw [narrow, narrowed, Option.some_inj] at hnarrow
  have hval : LawfulWide.val Id ((toWide value : BitVec (2 * w)) <<< frac) =
      value.toInt * 2 ^ frac := hwide
  rw [fromIntSaturating, hnarrow, hval]
  exact toInt_ofInt_eq_self ⟨by omega, by omega⟩

/-- The number of elements, clamped to the range of the numbers. -/
theorem toInt_fromI32 (hw : 32 ≤ w) (hfrac : frac < w) {n : ℕ} (hn : n < 2 ^ 31) :
    (fromI32 (BitVec.ofNat 32 n) : Fixed w frac).raw.toInt =
      min ((n : ℤ) * 2 ^ frac) (2 ^ (w - 1) - 1) := by
  have hpos : (0 : ℤ) < 2 ^ (w - 1) := by positivity
  have hcount : (BitVec.ofNat 32 n).toInt = n := by
    rw [BitVec.toInt_ofNat', Int.bmod_eq_of_le (by omega) (by omega)]
  have hnonneg : (0 : ℤ) ≤ n * 2 ^ frac := by positivity
  rw [fromI32, toInt_fromIntSaturating hfrac, BitVec.toInt_signExtend_of_le hw, hcount]
  have hlow : -2 ^ (w - 1) ≤ min ((n : ℤ) * 2 ^ frac) (2 ^ (w - 1) - 1) :=
    le_min (by linarith) (by linarith)
  exact max_eq_right hlow

end Sums

/-! ## Means -/

section Means

variable {w frac : ℕ} [FixedSums w]

/-- A mean is between the smallest and the largest element. -/
def MeanInRange (data : List (Fixed w frac)) : Prop :=
  ∀ m lo hi, mean data = some m → minOf data = some lo → maxOf data = some hi →
    lo.raw.toInt ≤ m.raw.toInt ∧ m.raw.toInt ≤ hi.raw.toInt

/-- Neither the sum nor the number of elements loses anything. -/
structure MeanFits (data : List (Fixed w frac)) : Prop where
  sum : InRange w (data.map fun x ↦ x.raw.toInt).sum
  count : (data.length : ℤ) * 2 ^ frac < 2 ^ (w - 1)
  length : data.length < 2 ^ 31

omit [FixedSums w] in
/-- A quotient that has a value is the truncated quotient. -/
theorem toInt_quotient [NeZero w] (hfrac : frac < w) {a b c : Fixed w frac}
    (hc : quotient a b = some c) :
    c.raw.toInt = (a.raw.toInt * 2 ^ frac).tdiv b.raw.toInt := by
  have hb : b.raw ≠ 0 := by
    intro hzero
    rw [quotient_zero a hzero] at hc
    exact Option.some_ne_none c hc.symm
  rw [quotient_eq hfrac a hb] at hc
  split_ifs at hc with hrange
  rw [← Option.some_inj.mp hc]
  exact toInt_ofInt_eq_self hrange

theorem le_tdiv {a b lo : ℤ} (hb : 0 < b) (hle : lo * b ≤ a) : lo ≤ a.tdiv b := by
  have hdiv : lo ≤ a / b := (Int.le_ediv_iff_mul_le hb).mpr hle
  rw [Int.tdiv_eq_ediv]
  split_ifs
  · omega
  · have hsign := Int.sign_eq_one_of_pos hb
    omega

theorem tdiv_le {a b hi : ℤ} (hb : 0 < b) (hle : a ≤ hi * b) : a.tdiv b ≤ hi := by
  have hneg : -hi ≤ (-a).tdiv b := le_tdiv hb (by linarith)
  rw [Int.neg_tdiv] at hneg
  linarith

theorem sum_between {xs : List ℤ} {lo hi : ℤ} (hlo : ∀ x ∈ xs, lo ≤ x) (hhi : ∀ x ∈ xs, x ≤ hi) :
    lo * xs.length ≤ xs.sum ∧ xs.sum ≤ hi * xs.length := by
  induction xs with
  | nil => exact ⟨(mul_zero lo).le, (mul_zero hi).ge⟩
  | cons x xs ih =>
    rw [forall_mem_cons] at hlo hhi
    obtain ⟨hlow, hhigh⟩ := ih hlo.2 hhi.2
    rw [sum_cons, length_cons, Nat.cast_succ]
    constructor
    · linarith [hlo.1]
    · linarith [hhi.1]

variable [LawfulSums w]

/-- **A mean is between the extremes** if nothing is lost. -/
theorem meanInRange_of_fits (hw : 32 ≤ w) (hfrac : frac < w) {data : List (Fixed w frac)}
    (hfits : MeanFits data) : MeanInRange data := by
  have : NeZero w := ⟨by omega⟩
  intro m lo hi hm hlo hhi
  cases hdata : data with
  | nil =>
    rw [hdata] at hlo
    cases hlo
  | cons first rest =>
    have hpos : 0 < data.length := by
      rw [hdata]
      exact Nat.succ_pos _
    rw [mean, if_neg (by rw [hdata]; exact Bool.false_ne_true)] at hm
    have hvalue := toInt_quotient hfrac hm
    have hsum : (FixedSums.reduceSum data).raw.toInt = (data.map fun x ↦ x.raw.toInt).sum := by
      rw [LawfulSums.reduceSum_eq]
      have hroom : InRange w ((data.map Fixed.raw).map BitVec.toInt).sum := by
        rw [map_map]
        exact hfits.sum
      have hexact := toInt_sum hroom
      rw [map_map] at hexact
      exact hexact
    have hcount : (fromI32 (BitVec.ofNat 32 data.length) : Fixed w frac).raw.toInt =
        data.length * 2 ^ frac := by
      have hle : (data.length : ℤ) * 2 ^ frac ≤ 2 ^ (w - 1) - 1 := by linarith [hfits.count]
      rw [toInt_fromI32 hw hfrac hfits.length, min_eq_left hle]
    obtain ⟨hlow, hhigh⟩ := sum_between
      (List.forall_mem_map.mpr fun x hx ↦ minOf_le hlo x hx)
      (List.forall_mem_map.mpr fun x hx ↦ le_maxOf hhi x hx)
    rw [length_map] at hlow hhigh
    have hunit : (0 : ℤ) < 2 ^ frac := by positivity
    have hden : (0 : ℤ) < data.length * 2 ^ frac := by positivity
    rw [hvalue, hsum, hcount]
    constructor
    · refine le_tdiv hden ?_
      rw [← mul_assoc]
      exact mul_le_mul_of_nonneg_right hlow hunit.le
    · refine tdiv_le hden ?_
      rw [← mul_assoc]
      exact mul_le_mul_of_nonneg_right hhigh hunit.le

end Means

/-! ## Variances -/

section Variances

variable {w frac : ℕ} [FixedSums w]

/-- A variance is not negative. -/
def VarianceNonneg (data : List (Fixed w frac)) : Prop :=
  (∀ v, variancePopulation data = some v → 0 ≤ v.raw.toInt) ∧
    ∀ v, varianceSample data = some v → 0 ≤ v.raw.toInt

/-- The rounded squares of the differences have room for their sum. -/
structure SquaresFit (data : List (Fixed w frac)) : Prop where
  sum : ∀ m, mean data = some m →
    (data.map fun x ↦ (Fixed.wrappingSub x m).raw.toInt ^ 2 / 2 ^ frac).sum < 2 ^ (w - 1)
  length : data.length < 2 ^ 31

omit [FixedSums w] in
theorem raw_sumSqDev (data : List (Fixed w frac)) (m : Fixed w frac) :
    (sumSqDev data m).raw =
      (data.map fun x ↦ (times (Fixed.wrappingSub x m) (Fixed.wrappingSub x m)).raw).sum := by
  have hfold : ∀ start : Fixed w frac,
      (data.foldl (fun total x ↦
        let d := Fixed.wrappingSub x m
        Fixed.wrappingAdd total (times d d)) start).raw = start.raw +
        (data.map fun x ↦ (times (Fixed.wrappingSub x m) (Fixed.wrappingSub x m)).raw).sum := by
    induction data with
    | nil => exact fun start ↦ (add_zero _).symm
    | cons x data ih =>
      intro start
      rw [foldl_cons, ih, map_cons, sum_cons, ← add_assoc]
      rfl
  rw [sumSqDev, hfold, BitVec.ofNat_eq_ofNat, BitVec.zero_add]

omit [FixedSums w] in
/-- The square of a number that has room. -/
theorem toInt_times_self (hfrac : frac < w) {d : Fixed w frac}
    (hroom : d.raw.toInt ^ 2 / 2 ^ frac < 2 ^ (w - 1)) :
    (times d d).raw.toInt = d.raw.toInt ^ 2 / 2 ^ frac := by
  have : NeZero w := ⟨by omega⟩
  have hnonneg : 0 ≤ d.raw.toInt ^ 2 / 2 ^ frac := by positivity
  rw [raw_times_eq hfrac, ← sq, Int.tdiv_eq_ediv_of_nonneg (sq_nonneg _)]
  exact toInt_ofInt_eq_self (inRange_iff_abs (by rwa [abs_of_nonneg hnonneg]))

omit [FixedSums w] in
/-- A sum of squares that has room is exact. -/
theorem sum_times_self (hfrac : frac < w) {ds : List (Fixed w frac)}
    (hroom : (ds.map fun d ↦ d.raw.toInt ^ 2 / 2 ^ frac).sum < 2 ^ (w - 1)) :
    (ds.map fun d ↦ (times d d).raw).sum.toInt =
      (ds.map fun d ↦ d.raw.toInt ^ 2 / 2 ^ frac).sum := by
  have : NeZero w := ⟨by omega⟩
  have hnonneg : ∀ q ∈ ds.map fun d ↦ d.raw.toInt ^ 2 / 2 ^ frac, (0 : ℤ) ≤ q :=
    List.forall_mem_map.mpr fun d _ ↦ by positivity
  have hexact : (ds.map fun d ↦ (times d d).raw).map BitVec.toInt =
      ds.map fun d ↦ d.raw.toInt ^ 2 / 2 ^ frac := by
    rw [map_map]
    refine map_congr_left fun d hd ↦ toInt_times_self hfrac ?_
    exact (single_le_sum hnonneg _ (mem_map_of_mem hd)).trans_lt hroom
  have hrange : InRange w ((ds.map fun d ↦ (times d d).raw).map BitVec.toInt).sum := by
    rw [hexact]
    refine inRange_iff_abs ?_
    rwa [abs_of_nonneg (sum_nonneg hnonneg)]
  rw [toInt_sum hrange, hexact]

omit [FixedSums w] in
theorem toInt_sumSqDev_nonneg (hfrac : frac < w) {data : List (Fixed w frac)} {m : Fixed w frac}
    (hroom : (data.map fun x ↦ (Fixed.wrappingSub x m).raw.toInt ^ 2 / 2 ^ frac).sum <
      2 ^ (w - 1)) : 0 ≤ (sumSqDev data m).raw.toInt := by
  have hdeviations : data.map (fun x ↦ (Fixed.wrappingSub x m).raw.toInt ^ 2 / 2 ^ frac) =
      (data.map fun x ↦ Fixed.wrappingSub x m).map fun d ↦ d.raw.toInt ^ 2 / 2 ^ frac := by
    rw [map_map]
    rfl
  have hsquares : data.map (fun x ↦
      (times (Fixed.wrappingSub x m) (Fixed.wrappingSub x m)).raw) =
        (data.map fun x ↦ Fixed.wrappingSub x m).map fun d ↦ (times d d).raw := by
    rw [map_map]
    rfl
  rw [hdeviations] at hroom
  rw [raw_sumSqDev, hsquares, sum_times_self hfrac hroom]
  exact sum_nonneg (List.forall_mem_map.mpr fun d _ ↦ by positivity)

omit [FixedSums w] in
/-- A sum of squares divided by a number of elements. -/
theorem quotient_nonneg (hw : 32 ≤ w) (hfrac : frac < w) {total v : Fixed w frac}
    (htotal : 0 ≤ total.raw.toInt) {n : ℕ} (hn : n < 2 ^ 31)
    (hv : quotient total (fromI32 (BitVec.ofNat 32 n)) = some v) : 0 ≤ v.raw.toInt := by
  have : NeZero w := ⟨by omega⟩
  have hunit : (1 : ℤ) ≤ 2 ^ (w - 1) := one_le_pow₀ (by norm_num)
  have hcount : (0 : ℤ) ≤ min ((n : ℤ) * 2 ^ frac) (2 ^ (w - 1) - 1) :=
    le_min (by positivity) (by linarith)
  rw [toInt_quotient hfrac hv, toInt_fromI32 hw hfrac hn]
  exact Int.tdiv_nonneg (by positivity) hcount

/-- **A variance is not negative** if the squares have room. -/
theorem varianceNonneg_of_fits (hw : 32 ≤ w) (hfrac : frac < w) {data : List (Fixed w frac)}
    (hfits : SquaresFit data) : VarianceNonneg data := by
  constructor
  · intro v hv
    cases hmean : mean data with
    | none =>
      rw [variancePopulation, hmean] at hv
      cases hv
    | some m =>
      rw [variancePopulation, hmean] at hv
      exact quotient_nonneg hw hfrac (toInt_sumSqDev_nonneg hfrac (hfits.sum m hmean))
        hfits.length hv
  · intro v hv
    rw [varianceSample] at hv
    split_ifs at hv with hshort
    cases hmean : mean data with
    | none =>
      rw [hmean] at hv
      cases hv
    | some m =>
      rw [hmean] at hv
      exact quotient_nonneg hw hfrac (toInt_sumSqDev_nonneg hfrac (hfits.sum m hmean))
        ((Nat.sub_le _ _).trans_lt hfits.length) hv

end Variances

/-! ## Cosines -/

section Cosines

variable {w frac : ℕ} [FixedSums w]

/-- A cosine is between minus one and one. -/
def CosineInRange (a b : List (Fixed w frac)) : Prop :=
  ∀ c, cosineSimilarity a b = .ok c → |c.raw.toInt| ≤ (Fixed.one : Fixed w frac).raw.toInt

/-- The scalar product is dominated by the product of the norms, or there is no quotient. -/
def Dominated (a b : List (Fixed w frac)) : Prop :=
  let dot := (FixedReducible.reduceDot a b).raw.toInt
  let norms := (times (l2Norm a) (l2Norm b)).raw.toInt
  norms = 0 ∨ ¬ InRange w ((dot * 2 ^ frac).tdiv norms) ∨
    |dot| * 2 ^ frac < (2 ^ frac + 1) * |norms|

theorem cosineSimilarity_eq {a b : List (Fixed w frac)} (hlength : a.length = b.length) :
    cosineSimilarity a b = .ok (if times (l2Norm a) (l2Norm b) = ⟨0⟩ then ⟨0⟩ else
      (quotient (FixedReducible.reduceDot a b) (times (l2Norm a) (l2Norm b))).getD ⟨0⟩) := by
  rw [cosineSimilarity, FixedReducible.dot, require_bind hlength]
  by_cases hzero : times (l2Norm a) (l2Norm b) = ⟨0⟩
  · rw [if_pos hzero]
    exact if_pos hzero
  · rw [if_neg hzero]
    exact if_neg hzero

theorem abs_tdiv_le_iff {a b : ℤ} (hb : b ≠ 0) (c : ℤ) : |a.tdiv b| ≤ c ↔ |a| < (c + 1) * |b| := by
  rw [abs_tdiv, ← Int.lt_add_one_iff, Int.ediv_lt_iff_lt_mul (abs_pos.mpr hb)]

/-- **A cosine is in range** exactly if the product of the norms dominates the scalar product. -/
theorem cosineInRange_iff (hfrac : frac + 1 < w) {a b : List (Fixed w frac)}
    (hlength : a.length = b.length) : CosineInRange a b ↔ Dominated a b := by
  have : NeZero w := ⟨by omega⟩
  have hunit : (0 : ℤ) < 2 ^ frac := by positivity
  have hone : (Fixed.one : Fixed w frac).raw.toInt = 2 ^ frac := toInt_one (by omega)
  have hvalue : CosineInRange a b ↔ |(if times (l2Norm a) (l2Norm b) = ⟨0⟩ then ⟨0⟩ else
      (quotient (FixedReducible.reduceDot a b) (times (l2Norm a) (l2Norm b))).getD ⟨0⟩ :
        Fixed w frac).raw.toInt| ≤ 2 ^ frac := by
    rw [CosineInRange, cosineSimilarity_eq hlength, hone]
    exact ⟨fun h ↦ h _ rfl, fun h c hc ↦ Except.ok.inj hc ▸ h⟩
  have hzeroAbs : |((⟨0⟩ : Fixed w frac).raw.toInt)| ≤ 2 ^ frac := by
    rw [BitVec.ofNat_eq_ofNat, BitVec.toInt_zero, abs_zero]
    exact hunit.le
  rw [hvalue, Dominated]
  generalize times (l2Norm a) (l2Norm b) = norms
  generalize FixedReducible.reduceDot a b = dot
  by_cases hzero : norms = ⟨0⟩
  · rw [if_pos hzero]
    exact iff_of_true hzeroAbs (.inl (by rw [hzero, BitVec.ofNat_eq_ofNat, BitVec.toInt_zero]))
  have hraw : norms.raw ≠ 0 := fun h ↦ hzero (by cases norms; exact congrArg Fixed.mk h)
  have hden : norms.raw.toInt ≠ 0 := mt (raw_eq_zero_iff norms.raw).mpr hraw
  rw [if_neg hzero, quotient_eq (by omega) dot hraw]
  by_cases hrange : InRange w ((dot.raw.toInt * 2 ^ frac).tdiv norms.raw.toInt)
  · rw [if_pos hrange, Option.getD_some]
    change |(BitVec.ofInt w _).toInt| ≤ 2 ^ frac ↔ _
    rw [toInt_ofInt_eq_self hrange, abs_tdiv_le_iff hden, abs_mul, abs_of_pos hunit]
    exact ⟨fun h ↦ .inr (.inr h), fun h ↦ (h.resolve_left hden).resolve_left (not_not_intro hrange)⟩
  · rw [if_neg hrange, Option.getD_none]
    exact iff_of_true hzeroAbs (.inr (.inl hrange))

/-! ## Long vectors -/

/-- The squared norm of a vector in units of the last fraction bit, before it is rounded. -/
def squaredNorm (a : List (Fixed w frac)) : ℤ := (a.map fun x ↦ x.raw.toInt ^ 2).sum

/-- The sum of the rounded squares. -/
def roundedNorm (a : List (Fixed w frac)) : ℤ := (a.map fun x ↦ x.raw.toInt ^ 2 / 2 ^ frac).sum

/-- The squared norm of a vector has room, and it is at least 256, and at least eight for each
element. -/
structure Long (a : List (Fixed w frac)) : Prop where
  fits : roundedNorm a < 2 ^ (w - 1)
  norm : 256 * (2 ^ frac) ^ 2 ≤ squaredNorm a
  length : 8 * (a.length : ℤ) * (2 ^ frac) ^ 2 ≤ squaredNorm a

/-- The sum of the rounded products. -/
def roundedDot (a b : List (Fixed w frac)) : ℤ :=
  ((a.zip b).map fun p ↦ (p.1.raw.toInt * p.2.raw.toInt).tdiv (2 ^ frac)).sum

/-- Norms that lost little dominate a scalar product that respects the exact norms. -/
theorem lt_of_long {unit α β na nb p d : ℝ} (hunit : 1 ≤ unit) (hα : 16 * unit ≤ α)
    (hβ : 16 * unit ≤ β) (hna : α * (16 * unit - 3) ≤ na * (16 * unit))
    (hnb : β * (16 * unit - 3) ≤ nb * (16 * unit)) (hp : na * nb < p * unit + unit)
    (hd : d * unit ≤ α * β) : d * unit < (unit + 1) * p := by
  have hαβ : 256 * unit ^ 2 ≤ α * β := by nlinarith
  have hproduct : α * (16 * unit - 3) * (β * (16 * unit - 3)) ≤
      na * (16 * unit) * (nb * (16 * unit)) :=
    mul_le_mul hna hnb (by nlinarith) (by nlinarith)
  have hnorms : α * β * (8 * unit - 3) ≤ 8 * unit * (na * nb) := by
    have hscaled : α * β * (8 * unit - 3) * (32 * unit) ≤ 8 * unit * (na * nb) * (32 * unit) := by
      nlinarith [mul_nonneg (show 0 ≤ α by linarith) (show 0 ≤ β by linarith)]
    exact le_of_mul_le_mul_right hscaled (by linarith)
  have hdenom : α * β * (8 * unit - 97 / 32) < 8 * unit * (p * unit) := by nlinarith
  have hwhole : (d * unit) * (8 * unit * unit) < (unit + 1) * p * (8 * unit * unit) := by
    nlinarith
  exact lt_of_mul_lt_mul_right hwhole (by positivity)

omit [FixedSums w] in
theorem roundedNorm_bounds (a : List (Fixed w frac)) :
    0 ≤ roundedNorm a ∧ roundedNorm a * 2 ^ frac ≤ squaredNorm a ∧
      squaredNorm a ≤ roundedNorm a * 2 ^ frac + a.length * 2 ^ frac := by
  have hunit : (0 : ℤ) < 2 ^ frac := by positivity
  induction a with
  | nil =>
    rw [roundedNorm, squaredNorm, map_nil, map_nil, sum_nil, length_nil,
      Nat.cast_zero, zero_mul, add_zero]
    exact ⟨le_rfl, le_rfl, le_rfl⟩
  | cons x a ih =>
    obtain ⟨hnonneg, hlow, hhigh⟩ := ih
    have hquotient : 0 ≤ x.raw.toInt ^ 2 / 2 ^ frac := by positivity
    have hbelow := Int.ediv_mul_le (x.raw.toInt ^ 2) hunit.ne'
    have habove := Int.lt_ediv_add_one_mul_self (x.raw.toInt ^ 2) hunit
    have hrounded : roundedNorm (x :: a) = x.raw.toInt ^ 2 / 2 ^ frac + roundedNorm a :=
      sum_cons
    have hsquared : squaredNorm (x :: a) = x.raw.toInt ^ 2 + squaredNorm a := sum_cons
    rw [hrounded, hsquared, length_cons, Nat.cast_succ]
    refine ⟨by omega, by linarith, by linarith⟩

variable [LawfulSums w]

/-- The norm of a vector whose squared norm has room. -/
theorem toInt_l2Norm (hfrac : frac < w) {a : List (Fixed w frac)}
    (hfits : roundedNorm a < 2 ^ (w - 1)) :
    (l2Norm a).raw.toInt = Nat.sqrt ((roundedNorm a).toNat * 2 ^ frac) := by
  have : NeZero w := ⟨by omega⟩
  have hdot : (FixedReducible.reduceDot a a).raw.toInt = roundedNorm a := by
    have hsum := LawfulReducible.reduceDot_eq hfrac (a.map fun x ↦ (x, x))
    have hpairs : (a.map fun x ↦ (x, x)).map Prod.fst = a ∧
        (a.map fun x ↦ (x, x)).map Prod.snd = a := by
      rw [map_map, map_map]
      exact ⟨map_id a, map_id a⟩
    rw [hpairs.1, hpairs.2, map_map] at hsum
    rw [hsum]
    exact sum_times_self hfrac hfits
  have hnonneg := (roundedNorm_bounds a).1
  rw [l2Norm, sqrt]
  rcases eq_or_lt_of_le hnonneg with hzero | hpos
  · have hsqrt : Fixed.sqrt (m := Id) (BitVec (2 * w))
        (Fixed.widened (FixedReducible.reduceDot a a)) (FixedReducible.reduceDot a a) =
          some ⟨0⟩ := if_pos (by rw [hdot]; omega)
    rw [hsqrt, Option.getD_some, ← hzero, BitVec.ofNat_eq_ofNat, BitVec.toInt_zero,
      Int.toNat_zero, zero_mul, Nat.sqrt_zero, Nat.cast_zero]
  · have hsqrt := Fixed.sqrt_eq (m := Id) (BitVec (2 * w)) hfrac
      (x := FixedReducible.reduceDot a a) (by rwa [hdot]) le_rfl
    have hvalue := Fixed.toInt_sqrt hfrac (FixedReducible.reduceDot a a)
    rw [hsqrt]
    change (BitVec.ofInt w _).toInt = _
    rw [hvalue, Fixed.widened, hdot]

omit [FixedSums w] [LawfulSums w] in
/-- A long vector loses little of its norm. -/
theorem norm_lower {a : List (Fixed w frac)} (hlong : Long a) :
    16 * (2 : ℝ) ^ frac ≤ √(squaredNorm a) ∧
      √(squaredNorm a) * (16 * 2 ^ frac - 3) ≤
        Nat.sqrt ((roundedNorm a).toNat * 2 ^ frac) * (16 * 2 ^ frac) := by
  obtain ⟨hnonneg, -, hhigh⟩ := roundedNorm_bounds a
  have hunit : (1 : ℝ) ≤ 2 ^ frac := one_le_pow₀ (by norm_num)
  have hnorm : 256 * ((2 : ℝ) ^ frac) ^ 2 ≤ squaredNorm a := by exact_mod_cast hlong.norm
  have hlength : 8 * (a.length : ℝ) * ((2 : ℝ) ^ frac) ^ 2 ≤ squaredNorm a := by
    exact_mod_cast hlong.length
  have hhighReal : (squaredNorm a : ℝ) ≤ roundedNorm a * 2 ^ frac + a.length * 2 ^ frac := by
    exact_mod_cast hhigh
  have hroot : (roundedNorm a : ℝ) * 2 ^ frac <
      (Nat.sqrt ((roundedNorm a).toNat * 2 ^ frac) + 1) ^ 2 := by
    have hcast : ((roundedNorm a).toNat : ℤ) = roundedNorm a := Int.toNat_of_nonneg hnonneg
    have hlt := Nat.lt_succ_sqrt' ((roundedNorm a).toNat * 2 ^ frac)
    zify at hlt
    rw [hcast] at hlt
    exact_mod_cast hlt
  have hsquare : √(squaredNorm a) ^ 2 = squaredNorm a := Real.sq_sqrt (by nlinarith)
  have hα : 16 * (2 : ℝ) ^ frac ≤ √(squaredNorm a) := Real.le_sqrt_of_sq_le (by nlinarith)
  have hn : (0 : ℝ) ≤ Nat.sqrt ((roundedNorm a).toNat * 2 ^ frac) := Nat.cast_nonneg _
  refine ⟨hα, ?_⟩
  generalize √(squaredNorm a : ℝ) = α at hsquare hα ⊢
  generalize (Nat.sqrt ((roundedNorm a).toNat * 2 ^ frac) : ℝ) = n at hroot hn ⊢
  generalize (2 : ℝ) ^ frac = unit at *
  have hlost : α ^ 2 * (8 * unit - 1) < (n + 1) ^ 2 * (8 * unit) := by nlinarith
  have hnext : α * (8 * unit - 1) < (n + 1) * (8 * unit) := by
    by_contra hsmall
    have hle : ((n + 1) * (8 * unit)) ^ 2 ≤ (α * (8 * unit - 1)) ^ 2 :=
      pow_le_pow_left₀ (mul_nonneg (by linarith) (by linarith)) (not_lt.mp hsmall) 2
    have hscaled := mul_lt_mul_of_pos_right hlost (show 0 < 8 * unit by linarith)
    nlinarith [mul_nonneg (sq_nonneg α) (show 0 ≤ 8 * unit - 1 by linarith)]
  linarith

omit [FixedSums w] [LawfulSums w] in
/-- The norms of two vectors whose squared norms have room have a product that has room. -/
theorem toInt_times_norms (hfrac : frac < w) {a b : List (Fixed w frac)} {x y : Fixed w frac}
    (ha : roundedNorm a < 2 ^ (w - 1)) (hb : roundedNorm b < 2 ^ (w - 1))
    (hx : x.raw.toInt = Nat.sqrt ((roundedNorm a).toNat * 2 ^ frac))
    (hy : y.raw.toInt = Nat.sqrt ((roundedNorm b).toNat * 2 ^ frac)) :
    (times x y).raw.toInt = x.raw.toInt * y.raw.toInt / 2 ^ frac := by
  have : NeZero w := ⟨by omega⟩
  have hunit : (0 : ℤ) < 2 ^ frac := by positivity
  have hsquare : ∀ (c : List (Fixed w frac)) (z : Fixed w frac), roundedNorm c < 2 ^ (w - 1) →
      z.raw.toInt = Nat.sqrt ((roundedNorm c).toNat * 2 ^ frac) →
        0 ≤ z.raw.toInt ∧ z.raw.toInt * z.raw.toInt ≤ (2 ^ (w - 1) - 1) * 2 ^ frac := by
    intro c z hc hz
    have hle := Nat.sqrt_le ((roundedNorm c).toNat * 2 ^ frac)
    zify at hle
    rw [Int.toNat_of_nonneg (roundedNorm_bounds c).1] at hle
    rw [hz]
    exact ⟨Nat.cast_nonneg _, hle.trans (mul_le_mul_of_nonneg_right (by omega) hunit.le)⟩
  obtain ⟨hxNonneg, hxx⟩ := hsquare a x ha hx
  obtain ⟨hyNonneg, hyy⟩ := hsquare b y hb hy
  have hproduct : x.raw.toInt * y.raw.toInt ≤ (2 ^ (w - 1) - 1) * 2 ^ frac := by
    nlinarith [sq_nonneg (x.raw.toInt - y.raw.toInt)]
  have hnonneg : 0 ≤ x.raw.toInt * y.raw.toInt := mul_nonneg hxNonneg hyNonneg
  have hquotient : 0 ≤ x.raw.toInt * y.raw.toInt / 2 ^ frac := Int.ediv_nonneg hnonneg hunit.le
  have hroom : x.raw.toInt * y.raw.toInt / 2 ^ frac ≤ 2 ^ (w - 1) - 1 :=
    Int.ediv_le_of_le_mul hunit hproduct
  rw [raw_times_eq hfrac, Int.tdiv_eq_ediv_of_nonneg hnonneg]
  refine toInt_ofInt_eq_self (inRange_iff_abs ?_)
  rw [abs_of_nonneg hquotient]
  linarith

/-- The scalar products of lists of pairs. -/
theorem sum_abs_mul_le (ps : List (ℝ × ℝ)) : (ps.map fun p ↦ |p.1 * p.2|).sum ≤
    √(ps.map fun p ↦ p.1 ^ 2).sum * √(ps.map fun p ↦ p.2 ^ 2).sum := by
  have hindexed : ∀ f : ℝ × ℝ → ℝ, (ps.map f).sum = ∑ i : Fin ps.length, f ps[i] := by
    intro f
    rw [← sum_ofFn]
    congr 1
    exact (ofFn_getElem_eq_map ps f).symm
  rw [hindexed, hindexed, hindexed]
  have hcauchy := Real.sum_mul_le_sqrt_mul_sqrt Finset.univ (fun i : Fin ps.length ↦ |ps[i].1|)
    fun i ↦ |ps[i].2|
  simp only [sq_abs, ← abs_mul] at hcauchy
  exact hcauchy

omit [FixedSums w] [LawfulSums w] in
/-- The rounded products respect the exact norms. -/
theorem abs_roundedDot_le {a b : List (Fixed w frac)} (hlength : a.length = b.length) :
    |(roundedDot a b : ℝ)| * 2 ^ frac ≤ √(squaredNorm a) * √(squaredNorm b) := by
  have hunit : (0 : ℤ) < 2 ^ frac := by positivity
  have hrounded : ∀ ps : List (Fixed w frac × Fixed w frac),
      |(ps.map fun p ↦ (p.1.raw.toInt * p.2.raw.toInt).tdiv (2 ^ frac)).sum| * 2 ^ frac ≤
        (ps.map fun p ↦ |p.1.raw.toInt * p.2.raw.toInt|).sum := by
    intro ps
    induction ps with
    | nil =>
      rw [map_nil, map_nil, sum_nil, abs_zero, zero_mul]
    | cons p ps ih =>
      rw [map_cons, map_cons, sum_cons, sum_cons]
      have hterm : |(p.1.raw.toInt * p.2.raw.toInt).tdiv (2 ^ frac)| * 2 ^ frac ≤
          |p.1.raw.toInt * p.2.raw.toInt| := by
        rw [abs_tdiv, abs_of_pos hunit]
        exact Int.ediv_mul_le _ hunit.ne'
      have hsum := abs_add_le ((p.1.raw.toInt * p.2.raw.toInt).tdiv (2 ^ frac))
        (ps.map fun p ↦ (p.1.raw.toInt * p.2.raw.toInt).tdiv (2 ^ frac)).sum
      nlinarith
  have hle := hrounded (a.zip b)
  have hcast : |(roundedDot a b : ℝ)| * 2 ^ frac ≤
      (((a.zip b).map fun p ↦ |p.1.raw.toInt * p.2.raw.toInt|).sum : ℤ) := by
    exact_mod_cast hle
  refine hcast.trans ?_
  have hcauchy := sum_abs_mul_le
    ((a.zip b).map fun p ↦ ((p.1.raw.toInt : ℝ), (p.2.raw.toInt : ℝ)))
  rw [map_map, map_map, map_map] at hcauchy
  have hleft : ((squaredNorm a : ℤ) : ℝ) =
      ((a.zip b).map fun p ↦ (p.1.raw.toInt : ℝ) ^ 2).sum := by
    have hfst : (a.zip b).map Prod.fst = a := map_fst_zip hlength.le
    rw [squaredNorm]
    nth_rewrite 1 [← hfst]
    rw [map_map, Int.cast_list_sum, map_map]
    congr 1
    refine map_congr_left fun p _ ↦ ?_
    exact Int.cast_pow _ _
  have hright : ((squaredNorm b : ℤ) : ℝ) =
      ((a.zip b).map fun p ↦ (p.2.raw.toInt : ℝ) ^ 2).sum := by
    have hsnd : (a.zip b).map Prod.snd = b := map_snd_zip hlength.ge
    rw [squaredNorm]
    nth_rewrite 1 [← hsnd]
    rw [map_map, Int.cast_list_sum, map_map]
    congr 1
    refine map_congr_left fun p _ ↦ ?_
    exact Int.cast_pow _ _
  rw [hleft, hright, Int.cast_list_sum, map_map]
  have habs : ((a.zip b).map (Int.cast ∘ fun p ↦ |p.1.raw.toInt * p.2.raw.toInt|) : List ℝ) =
      (a.zip b).map ((fun p : ℝ × ℝ ↦ |p.1 * p.2|) ∘
        fun p ↦ ((p.1.raw.toInt : ℝ), (p.2.raw.toInt : ℝ))) := by
    refine map_congr_left fun p _ ↦ ?_
    rw [Function.comp_apply, Function.comp_apply, Int.cast_abs, Int.cast_mul]
  rw [habs]
  exact hcauchy

/-- A scalar product that has room is the sum of the rounded products. -/
theorem toInt_reduceDot (hfrac : frac < w) {a b : List (Fixed w frac)}
    (hlength : a.length = b.length) (hdot : InRange w (roundedDot a b)) :
    (FixedReducible.reduceDot a b).raw.toInt = roundedDot a b := by
  have : NeZero w := ⟨by omega⟩
  have hsum := LawfulReducible.reduceDot_eq hfrac (a.zip b)
  rw [map_fst_zip hlength.le, map_snd_zip hlength.ge] at hsum
  have hproducts : (a.zip b).map (fun p ↦ (times p.1 p.2).raw) =
      ((a.zip b).map fun p ↦ (p.1.raw.toInt * p.2.raw.toInt).tdiv (2 ^ frac)).map
        (BitVec.ofInt w) := by
    rw [map_map]
    exact map_congr_left fun p _ ↦ raw_times_eq hfrac p.1 p.2
  rw [hsum]
  change ((a.zip b).map fun p ↦ (times p.1 p.2).raw).sum.toInt = _
  rw [hproducts, sum_map_ofInt]
  exact toInt_ofInt_eq_self hdot

/-- **Long vectors** have a cosine in range. -/
theorem cosineInRange_of_long (hfrac : frac + 1 < w) {a b : List (Fixed w frac)}
    (hlength : a.length = b.length) (ha : Long a) (hb : Long b)
    (hdot : InRange w (roundedDot a b)) : CosineInRange a b := by
  have : NeZero w := ⟨by omega⟩
  have hunitPos : (0 : ℤ) < 2 ^ frac := by positivity
  have hunit : (1 : ℝ) ≤ 2 ^ frac := one_le_pow₀ (by norm_num)
  have hna := toInt_l2Norm (by omega) ha.fits
  have hnb := toInt_l2Norm (by omega) hb.fits
  have hproduct := toInt_times_norms (by omega) ha.fits hb.fits hna hnb
  have hnonneg : 0 ≤ (times (l2Norm a) (l2Norm b)).raw.toInt := by
    rw [hproduct, hna, hnb]
    positivity
  have hfloor := Int.lt_ediv_add_one_mul_self
    ((l2Norm a).raw.toInt * (l2Norm b).raw.toInt) hunitPos
  rw [← hproduct] at hfloor
  have hfloorReal : ((l2Norm a).raw.toInt : ℝ) * (l2Norm b).raw.toInt <
      (times (l2Norm a) (l2Norm b)).raw.toInt * 2 ^ frac + 2 ^ frac := by
    have hexpanded : (l2Norm a).raw.toInt * (l2Norm b).raw.toInt <
        (times (l2Norm a) (l2Norm b)).raw.toInt * 2 ^ frac + 2 ^ frac := by linarith
    exact_mod_cast hexpanded
  obtain ⟨hα, hlowA⟩ := norm_lower ha
  obtain ⟨hβ, hlowB⟩ := norm_lower hb
  have hcastA : ((l2Norm a).raw.toInt : ℝ) = Nat.sqrt ((roundedNorm a).toNat * 2 ^ frac) := by
    rw [hna, Int.cast_natCast]
  have hcastB : ((l2Norm b).raw.toInt : ℝ) = Nat.sqrt ((roundedNorm b).toNat * 2 ^ frac) := by
    rw [hnb, Int.cast_natCast]
  rw [← hcastA] at hlowA
  rw [← hcastB] at hlowB
  have hdominated := lt_of_long hunit hα hβ hlowA hlowB hfloorReal (abs_roundedDot_le hlength)
  rw [cosineInRange_iff hfrac hlength]
  refine .inr (.inr ?_)
  rw [toInt_reduceDot (by omega) hlength hdot, abs_of_nonneg hnonneg]
  exact_mod_cast hdominated

end Cosines

/-! ## The three statistics -/

/-- The long vectors of one element of value 16. -/
def sixteen : List (Fixed 32 16) := [⟨1048576⟩]

theorem long_sixteen : Long sixteen where
  fits := by decide
  norm := by decide
  length := by decide

end FixedSums

end SoulSystem.Scirust
