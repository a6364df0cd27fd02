import SoulSystem.Scirust.Transcendental.Machine

/-!
# The exponential and what is computed from it

An exponent is split into the nearest integer and a fraction of magnitude one half at most.  The
power of two of the fraction is a polynomial, which stays between one half and two, and the integer
shifts it.  The argument is multiplied before any range is checked, so the exponentials have a value
as long as the exponent has room for another half.
-/

namespace SoulSystem.Scirust.Transcendental

/-! ## Definitions -/

section Definitions

variable {frac : ℕ} (r : Reading)

def exp2C : List ℤ :=
  [4294967296, 2977044584, 1031765026, 238384739, 41308972, 5755442, 664776]

def log2eQ32 : ℤ := 6196328019

def exp2Core (y : ℤ) : Option ℤ := do
  let nudged ← i64 r (y + 2 ^ 31)
  let k := nudged / 2 ^ 32
  let whole ← i64 r (k * 2 ^ 32)
  let f ← i64 r (y - whole)
  let mantissa ← polyQ r f exp2C
  if 62 < k then
    return maxI128
  else if k < -62 then
    return 0
  else if 0 ≤ k then
    i128 r (mantissa * 2 ^ k.toNat)
  else do
    let shift ← i64 r (-k)
    return mantissa / 2 ^ shift.toNat

def exp2 (x : Fixed 32 frac) : Option (Fixed 32 frac) := do
  return fromQ32 (← exp2Core r (← toQ32 r x))

def exp (x : Fixed 32 frac) : Option (Fixed 32 frac) := do
  return fromQ32 (← exp2Core r (← mulQ r (← toQ32 r x) log2eQ32))

/-- The addition to one saturates. -/
def sigmoidCore (x : ℤ) : Option ℤ := do
  let negated ← i64 r (-x)
  let e ← exp2Core r (← mulQ r negated log2eQ32)
  let denom := min (oneQ + e) maxI128
  divI128 r (2 ^ 64) denom

def sigmoid (x : Fixed 32 frac) : Option (Fixed 32 frac) := do
  return fromQ32 (← sigmoidCore r (← toQ32 r x))

def tanh (x : Fixed 32 frac) : Option (Fixed 32 frac) := do
  let twice ← i64 r ((← toQ32 r x) * 2)
  let s ← sigmoidCore r twice
  let double ← i128 r (2 * s)
  return fromQ32 (← i128 r (double - oneQ))

def invSixQ32 : ℤ := 715827883

def besselI0C : List ℤ :=
  [715788226, -376392825, 299189561, -267060324, 253460958, -249788724, 252242846, -260744624,
    261332089, -229015587, 218606249, -285902485, 232410556, 3625489, 16653717, -268741689,
    166669234, 100839382, -53352819, -64278783, 34506419]

/-- The product with the exponential saturates. -/
def besselI0Core (x : ℤ) : Option ℤ := do
  let xAbs ← i64 r |x|
  let xDom := min xAbs (12 * oneQ)
  let u ← i64 r ((← mulQ r xDom invSixQ32) - oneQ)
  let g ← polyQ r u besselI0C
  let e ← exp2Core r (← mulQ r xAbs log2eQ32)
  let product := max (-2 ^ 127) (min (g * e) maxI128)
  return product / 2 ^ 32

def besselI0 (x : Fixed 32 frac) : Option (Fixed 32 frac) := do
  return fromQ32 (← besselI0Core r (← toQ32 r x))

end Definitions

/-! ## The power of two -/

/-- The nearest integer to an exponent. -/
def nearest (y : ℤ) : ℤ := (y + 2 ^ 31) / 2 ^ 32

/-- The power of two of what the nearest integer leaves. -/
def mantissa (y : ℤ) : ℤ := polyVal (y - nearest y * 2 ^ 32) exp2C

/-- The power of two of an exponent. -/
def exp2Val (y : ℤ) : ℤ :=
  if 62 < nearest y then maxI128
  else if nearest y < -62 then 0
  else if 0 ≤ nearest y then mantissa y * 2 ^ (nearest y).toNat
  else mantissa y / 2 ^ (-nearest y).toNat

section Power

variable {r : Reading} {y : ℤ}

theorem abs_fraction_le (y : ℤ) : |y - nearest y * 2 ^ 32| ≤ 2 ^ 31 := by
  rw [nearest, abs_le]
  omega

/-- The polynomial without its constant term, which is positive. -/
theorem abs_exp2_tail_le {f : ℤ} (hf : |f| ≤ 2 ^ 31) :
    0 < polyVal f exp2C.tail ∧ |mulVal (polyVal f exp2C.tail) f| ≤ 1779033697 := by
  have hstep : ∀ {c bound : ℤ} {coeffs : List ℤ}, |polyVal f coeffs| ≤ 2 * bound →
      |polyVal f (c :: coeffs)| ≤ bound + |c| := by
    intro c bound coeffs hrest
    have hproduct : |polyVal f coeffs * f| ≤ bound * 2 ^ 32 := by
      rw [abs_mul]
      nlinarith [abs_nonneg (polyVal f coeffs), abs_nonneg f]
    rw [polyVal_cons]
    exact (abs_add_le _ _).trans (add_le_add_left (abs_mulVal_le hproduct) _)
  have hnil : |polyVal f []| ≤ 2 * 0 := by
    rw [polyVal, List.foldr_nil]
    norm_num
  have h6 : |polyVal f [664776]| ≤ 2 * 332388 := by
    have hle := hstep (c := 664776) hnil
    norm_num at hle ⊢
    exact hle
  have h5 : |polyVal f [5755442, 664776]| ≤ 2 * 3043915 := by
    have hle := hstep (c := 5755442) h6
    norm_num at hle ⊢
    exact hle
  have h4 : |polyVal f [41308972, 5755442, 664776]| ≤ 2 * 22176444 := by
    have hle := hstep (c := 41308972) h5
    norm_num at hle ⊢
    linarith
  have h3 : |polyVal f [238384739, 41308972, 5755442, 664776]| ≤ 2 * 130280592 := by
    have hle := hstep (c := 238384739) h4
    norm_num at hle ⊢
    linarith
  have h2 : |polyVal f [1031765026, 238384739, 41308972, 5755442, 664776]| ≤ 2 * 581022809 := by
    have hle := hstep (c := 1031765026) h3
    norm_num at hle ⊢
    linarith
  have hproduct : ∀ {bound : ℤ} {coeffs : List ℤ}, |polyVal f coeffs| ≤ 2 * bound →
      |mulVal (polyVal f coeffs) f| ≤ bound := by
    intro bound coeffs hrest
    refine abs_mulVal_le ?_
    rw [abs_mul]
    nlinarith [abs_nonneg (polyVal f coeffs), abs_nonneg f]
  have h1 : |polyVal f exp2C.tail| ≤ 2 * 1779033697 := by
    have hle := hstep (c := 2977044584) h2
    norm_num at hle
    exact hle.trans (by norm_num)
  refine ⟨?_, hproduct h1⟩
  have hlow := (abs_le.mp (hproduct h2)).1
  change 0 < mulVal (polyVal f [1031765026, 238384739, 41308972, 5755442, 664776]) f + 2977044584
  omega

theorem mantissa_bounds (y : ℤ) : 2 ^ 31 < mantissa y ∧ mantissa y < 2 ^ 33 := by
  obtain ⟨hlow, hhigh⟩ := abs_le.mp (abs_exp2_tail_le (abs_fraction_le y)).2
  change 2 ^ 31 < mulVal (polyVal _ exp2C.tail) _ + 4294967296 ∧
    mulVal (polyVal _ exp2C.tail) _ + 4294967296 < 2 ^ 33
  omega

/-- The power of a fraction that is not negative is at least one. -/
theorem one_le_mantissa (hfraction : nearest y * 2 ^ 32 ≤ y) : 2 ^ 32 ≤ mantissa y := by
  have hpos := (abs_exp2_tail_le (abs_fraction_le y)).1
  have hproduct :
      0 ≤ mulVal (polyVal (y - nearest y * 2 ^ 32) exp2C.tail) (y - nearest y * 2 ^ 32) :=
    Int.ediv_nonneg (by nlinarith) (by norm_num)
  change 2 ^ 32 ≤ mulVal (polyVal _ exp2C.tail) _ + 4294967296
  omega

theorem shifted_bounds {n : ℕ} (hn : n ≤ 62) (y : ℤ) :
    0 < mantissa y * 2 ^ n ∧ mantissa y * 2 ^ n ≤ 2 ^ 95 := by
  obtain ⟨hlow, hhigh⟩ := mantissa_bounds y
  have hpow : (2 : ℤ) ^ n ≤ 2 ^ 62 := pow_le_pow_right₀ (by norm_num) hn
  have hpos : (0 : ℤ) < 2 ^ n := by positivity
  constructor
  · exact mul_pos (by omega) hpos
  · nlinarith

/-- **The power of two** loses nothing if the exponent has room for another half. -/
theorem exp2Core_eq (hlow : -2 ^ 63 ≤ y) (hhigh : y + 2 ^ 31 < 2 ^ 63) :
    exp2Core r y = some (exp2Val y) := by
  have hnearest : nearest y * 2 ^ 32 ≤ y + 2 ^ 31 ∧ y + 2 ^ 31 < nearest y * 2 ^ 32 + 2 ^ 32 := by
    rw [nearest]
    omega
  have hfraction := abs_fraction_le y
  obtain ⟨hbelow, habove⟩ := abs_le.mp hfraction
  have hpoly : polyQ r (y - nearest y * 2 ^ 32) exp2C = some (mantissa y) :=
    polyQ_eq (hfraction.trans (by norm_num)) (by decide) (by decide) (by decide)
  have hmantissa := mantissa_bounds y
  rw [exp2Core, i64_eq (by omega) hhigh, Option.bind_eq_bind, Option.bind_some]
  change (i64 r (nearest y * 2 ^ 32)).bind _ = _
  rw [i64_eq (by omega) (by omega), Option.bind_some, i64_eq (by omega) (by omega),
    Option.bind_some, hpoly, Option.bind_some, exp2Val]
  change (if 62 < nearest y then _ else if nearest y < -62 then _ else
    if 0 ≤ nearest y then _ else _) = _
  split_ifs with hover hunder hsign
  · rfl
  · rfl
  · obtain ⟨hpos, hle⟩ := shifted_bounds (show (nearest y).toNat ≤ 62 by omega) y
    change i128 r (mantissa y * 2 ^ (nearest y).toNat) = _
    exact i128_eq (by omega) (by omega)
  · change (i64 r (-nearest y)).bind _ = _
    rw [i64_eq (by omega) (by omega)]
    rfl

theorem exp2Core_eq_none (hhigh : 2 ^ 63 ≤ y + 2 ^ 31) : exp2Core .checked y = none := by
  rw [exp2Core, i64_checked_eq_none (.inr hhigh)]
  rfl

/-- The exponent of an argument has room for another half. -/
def Margin (v : ℤ) : Prop :=
  -2 ^ 63 ≤ mulVal v log2eQ32 ∧ mulVal v log2eQ32 + 2 ^ 31 < 2 ^ 63

theorem mulQ_log2e {v : ℤ} (hlow : -2 ^ 63 ≤ v) (hhigh : v ≤ 2 ^ 63) (hmargin : Margin v) :
    mulQ r v log2eQ32 = some (mulVal v log2eQ32) := by
  obtain ⟨hexponent, hexponent'⟩ := hmargin
  refine mulQ_eq ?_ hexponent (by omega)
  rw [log2eQ32, abs_le]
  omega

/-- **The exponential** of an argument whose exponent has no margin. -/
theorem exponential_eq_none {v : ℤ} (hlow : -2 ^ 63 ≤ v) (hhigh : v ≤ 2 ^ 63) (hout : ¬ Margin v) :
    (mulQ .checked v log2eQ32).bind (exp2Core .checked) = none := by
  have hproduct : -2 ^ 127 ≤ v * log2eQ32 ∧ v * log2eQ32 + 2 ^ 31 < 2 ^ 127 := by
    rw [log2eQ32]
    omega
  rw [mulQ, i128_eq hproduct.1 (by omega), Option.bind_eq_bind, Option.bind_some,
    i128_eq (by omega) hproduct.2, Option.bind_some]
  change (i64 .checked (mulVal v log2eQ32)).bind _ = none
  by_cases hrange : -2 ^ 63 ≤ mulVal v log2eQ32 ∧ mulVal v log2eQ32 < 2 ^ 63
  · rw [i64_eq hrange.1 hrange.2, Option.bind_some]
    exact exp2Core_eq_none (not_lt.mp fun hroom ↦ hout ⟨hrange.1, hroom⟩)
  · rw [i64_checked_eq_none (by omega)]
    rfl

/-- An argument of at most half the range has a margin. -/
theorem margin_of_abs_le {v : ℤ} (hv : |v| ≤ 2 ^ 62) : Margin v := by
  rw [abs_le] at hv
  rw [Margin, mulVal, log2eQ32]
  omega

theorem lt_of_margin {v : ℤ} (hmargin : Margin v) : v < 2 ^ 63 := by
  rw [Margin, mulVal, log2eQ32] at hmargin
  omega

/-- The whole numbers with a margin. -/
theorem margin_whole_iff (n : ℤ) : Margin (n * 2 ^ 32) ↔ |n| ≤ 1488522235 := by
  rw [Margin, mulVal, log2eQ32, abs_le]
  omega

theorem exp2Val_bounds (y : ℤ) : 0 ≤ exp2Val y ∧ exp2Val y ≤ maxI128 := by
  obtain ⟨hlow, hhigh⟩ := mantissa_bounds y
  rw [exp2Val, maxI128]
  split_ifs with hover hunder hsign
  · norm_num
  · norm_num
  · obtain ⟨hpos, hle⟩ := shifted_bounds (show (nearest y).toNat ≤ 62 by omega) y
    omega
  · have hle : mantissa y / 2 ^ (-nearest y).toNat ≤ mantissa y := Int.ediv_le_self _ (by omega)
    exact ⟨Int.ediv_nonneg (by omega) (by positivity), by omega⟩

end Power

/-! ## Saturation -/

section Saturation

variable {frac : ℕ} {r : Reading} {y v : ℤ}

theorem fromQ32_of_large (hfrac : frac ≤ 31) (hlarge : 2 ^ (63 - frac) ≤ v + 2 ^ (31 - frac)) :
    (fromQ32 v : Fixed 32 frac) = ⟨BitVec.intMax 32⟩ := by
  have hshift : 32 - frac - 1 = 31 - frac := by omega
  have hsplit : (2 : ℤ) ^ (63 - frac) = 2 ^ 31 * 2 ^ (32 - frac) := by
    rw [← pow_add]
    congr 1
    omega
  have hunit : (2 : ℤ) ^ (63 - frac) ≤ 2 ^ 63 := pow_le_pow_right₀ (by norm_num) (by omega)
  have hpos : (0 : ℤ) < 2 ^ (32 - frac) := by positivity
  have hrounded : 2 ^ 31 ≤ min (v + 2 ^ (32 - frac - 1)) maxI128 / 2 ^ (32 - frac) := by
    rw [Int.le_ediv_iff_mul_le hpos, ← hsplit, hshift]
    exact le_min hlarge (by rw [maxI128]; linarith)
  rw [fromQ32]
  exact if_pos (by omega)

theorem fromQ32_of_inside (hfrac : frac ≤ 31) (hlow : 0 ≤ v) (hhigh : v ≤ 2 ^ 32) :
    (fromQ32 v : Fixed 32 frac) =
      ⟨BitVec.ofInt 32 (min ((v + 2 ^ (31 - frac)) / 2 ^ (32 - frac)) (2 ^ 31 - 1))⟩ := by
  have hshift : 32 - frac - 1 = 31 - frac := by omega
  have hunit : (2 : ℤ) ^ (31 - frac) ≤ 2 ^ 31 := pow_le_pow_right₀ (by norm_num) (by omega)
  have hhalf : (0 : ℤ) < 2 ^ (31 - frac) := by positivity
  have hpos : (0 : ℤ) < 2 ^ (32 - frac) := by positivity
  have hmin : min (v + 2 ^ (31 - frac)) maxI128 = v + 2 ^ (31 - frac) :=
    min_eq_left (by rw [maxI128]; linarith)
  have hnonneg : 0 ≤ (v + 2 ^ (31 - frac)) / 2 ^ (32 - frac) :=
    Int.ediv_nonneg (by linarith) hpos.le
  rw [fromQ32]
  simp only [hshift, hmin]
  by_cases hover : 2 ^ 31 - 1 < (v + 2 ^ (31 - frac)) / 2 ^ (32 - frac)
  · rw [if_pos hover, min_eq_right hover.le]
    rfl
  · rw [if_neg hover, if_neg (by omega), min_eq_left (not_lt.mp hover)]

theorem fromQ32_of_small (hfrac : frac ≤ 31) (hlow : 0 ≤ v) (hsmall : v < 2 ^ (31 - frac)) :
    (fromQ32 v : Fixed 32 frac) = ⟨0⟩ := by
  have hunit : (2 : ℤ) ^ (31 - frac) ≤ 2 ^ 31 := pow_le_pow_right₀ (by norm_num) (by omega)
  have hdouble : (2 : ℤ) ^ (32 - frac) = 2 * 2 ^ (31 - frac) := by
    rw [← pow_succ']
    congr 1
    omega
  have hzero : (v + 2 ^ (31 - frac)) / 2 ^ (32 - frac) = 0 :=
    Int.ediv_eq_zero_of_lt (by positivity) (by linarith)
  rw [fromQ32_of_inside hfrac hlow (by linarith), hzero]
  rfl

/-- Powers that are out of range saturate at the top. -/
theorem fromQ32_exp2Val_of_large (hfrac : frac ≤ 31) (hy : (31 - frac) * 2 ^ 32 ≤ y) :
    (fromQ32 (exp2Val y) : Fixed 32 frac) = ⟨BitVec.intMax 32⟩ := by
  refine fromQ32_of_large hfrac ?_
  have hfracInt : (frac : ℤ) ≤ 31 := by exact_mod_cast hfrac
  have hnearest : 31 - (frac : ℤ) ≤ nearest y := by
    rw [nearest]
    omega
  have htop : (2 : ℤ) ^ (63 - frac) ≤ 2 ^ 63 := pow_le_pow_right₀ (by norm_num) (by omega)
  have hhalf : (0 : ℤ) < 2 ^ (31 - frac) := by positivity
  obtain ⟨hlow, -⟩ := mantissa_bounds y
  rw [exp2Val]
  split_ifs with hover hunder hsign
  · rw [maxI128]
    linarith
  · omega
  · rcases eq_or_lt_of_le hnearest with hexact | hmore
    · have hone : 2 ^ 32 ≤ mantissa y := one_le_mantissa (by rw [← hexact]; exact hy)
      have hsplit : (2 : ℤ) ^ (63 - frac) = 2 ^ 32 * 2 ^ (nearest y).toNat := by
        rw [← pow_add]
        congr 1
        omega
      rw [hsplit]
      nlinarith [show (0 : ℤ) < 2 ^ (nearest y).toNat by positivity]
    · have hpow : (2 : ℤ) ^ (32 - frac) ≤ 2 ^ (nearest y).toNat :=
        pow_le_pow_right₀ (by norm_num) (by omega)
      have hsplit : (2 : ℤ) ^ (63 - frac) = 2 ^ 31 * 2 ^ (32 - frac) := by
        rw [← pow_add]
        congr 1
        omega
      rw [hsplit]
      nlinarith [show (0 : ℤ) < 2 ^ (32 - frac) by positivity]
  · omega

/-- Powers that are too small are rounded to zero. -/
theorem exp2Val_lt (n : ℕ) (hy : y ≤ -((n : ℤ) + 2) * 2 ^ 32) :
    exp2Val y * 2 ^ (n + 1) < 2 ^ 32 := by
  have hnearest : nearest y ≤ -((n : ℤ) + 2) := by
    rw [nearest]
    omega
  obtain ⟨hlow, hhigh⟩ := mantissa_bounds y
  rw [exp2Val]
  split_ifs with hover hunder hsign
  · omega
  · norm_num
  · omega
  · have hpow : (2 : ℤ) ^ (n + 2) ≤ 2 ^ (-nearest y).toNat :=
      pow_le_pow_right₀ (by norm_num) (by omega)
    have hle := Int.ediv_mul_le (mantissa y) (show (2 : ℤ) ^ (-nearest y).toNat ≠ 0 by positivity)
    have hnonneg : 0 ≤ mantissa y / 2 ^ (-nearest y).toNat :=
      Int.ediv_nonneg (by omega) (by positivity)
    have hdouble : (2 : ℤ) ^ (n + 2) = 2 * 2 ^ (n + 1) := pow_succ' 2 (n + 1)
    nlinarith

theorem fromQ32_exp2Val_of_small (hfrac : frac ≤ 31) (hy : y ≤ -((frac : ℤ) + 2) * 2 ^ 32) :
    (fromQ32 (exp2Val y) : Fixed 32 frac) = ⟨0⟩ := by
  have hlt := exp2Val_lt frac hy
  have hsplit : (2 : ℤ) ^ 32 = 2 ^ (31 - frac) * 2 ^ (frac + 1) := by
    rw [← pow_add]
    congr 1
    omega
  rw [hsplit] at hlt
  exact fromQ32_of_small hfrac (exp2Val_bounds y).1 (lt_of_mul_lt_mul_right hlt (by positivity))

end Saturation

/-! ## The logistic function -/

section Logistic

variable {r : Reading} {x : ℤ}

/-- The value of the logistic function. -/
def sigmoidVal (x : ℤ) : ℤ := (2 ^ 64) / min (oneQ + exp2Val (mulVal (-x) log2eQ32)) maxI128

theorem sigmoidVal_bounds (x : ℤ) : 0 ≤ sigmoidVal x ∧ sigmoidVal x ≤ 2 ^ 32 := by
  obtain ⟨hlow, -⟩ := exp2Val_bounds (mulVal (-x) log2eQ32)
  have hdenom : 2 ^ 32 ≤ min (oneQ + exp2Val (mulVal (-x) log2eQ32)) maxI128 := by
    rw [oneQ, maxI128]
    omega
  constructor
  · exact Int.ediv_nonneg (by norm_num) (by omega)
  · refine Int.ediv_le_of_le_mul (by omega) ?_
    linarith

/-- **The logistic function** loses nothing if its exponent has a margin. -/
theorem sigmoidCore_eq (hlow : -2 ^ 63 < x) (hhigh : x < 2 ^ 63) (hmargin : Margin (-x)) :
    sigmoidCore r x = some (sigmoidVal x) := by
  obtain ⟨hnonneg, -⟩ := exp2Val_bounds (mulVal (-x) log2eQ32)
  have hdenom : 2 ^ 32 ≤ min (oneQ + exp2Val (mulVal (-x) log2eQ32)) maxI128 := by
    rw [oneQ, maxI128]
    omega
  obtain ⟨hquotient, hle⟩ := sigmoidVal_bounds x
  rw [sigmoidVal] at hquotient hle
  rw [sigmoidCore, i64_eq (by omega) (by omega), Option.bind_eq_bind, Option.bind_some,
    mulQ_log2e (by omega) (by omega) hmargin, Option.bind_some,
    exp2Core_eq hmargin.1 hmargin.2, Option.bind_some]
  change divI128 r (2 ^ 64) (min (oneQ + exp2Val (mulVal (-x) log2eQ32)) maxI128) = _
  rw [divI128, if_neg (by omega), Int.tdiv_eq_ediv_of_nonneg (by norm_num)]
  exact i128_eq (by omega) (by omega)

theorem sigmoidCore_eq_none (hlow : -2 ^ 63 ≤ x) (hhigh : x < 2 ^ 63) (hout : ¬ Margin (-x)) :
    sigmoidCore .checked x = none := by
  rw [sigmoidCore]
  rcases eq_or_lt_of_le hlow with hmin | hinside
  · rw [i64_checked_eq_none (.inr (by omega))]
    rfl
  · rw [i64_eq (by omega) (by omega), Option.bind_eq_bind, Option.bind_some, ← Option.bind_assoc,
      exponential_eq_none (by omega) (by omega) hout]
    rfl

theorem sigmoidVal_of_large (hx : 24 * 2 ^ 32 ≤ x) : sigmoidVal x = 2 ^ 32 := by
  have hexponent : mulVal (-x) log2eQ32 ≤ -((32 : ℕ) + 2 : ℤ) * 2 ^ 32 := by
    rw [mulVal, log2eQ32]
    omega
  have hlt := exp2Val_lt 32 hexponent
  have hzero : exp2Val (mulVal (-x) log2eQ32) = 0 := by
    have hnonneg := (exp2Val_bounds (mulVal (-x) log2eQ32)).1
    omega
  rw [sigmoidVal, hzero, oneQ, maxI128]
  norm_num

theorem sigmoidVal_of_small (hx : x ≤ -24 * 2 ^ 32) : sigmoidVal x = 0 := by
  have hnearest : 34 ≤ nearest (mulVal (-x) log2eQ32) := by
    rw [nearest, mulVal, log2eQ32]
    omega
  have hlarge : 2 ^ 65 ≤ exp2Val (mulVal (-x) log2eQ32) := by
    obtain ⟨hlow, -⟩ := mantissa_bounds (mulVal (-x) log2eQ32)
    rw [exp2Val, maxI128]
    split_ifs with hover hunder hsign
    · norm_num
    · omega
    · have hpow : (2 : ℤ) ^ 34 ≤ 2 ^ (nearest (mulVal (-x) log2eQ32)).toNat :=
        pow_le_pow_right₀ (by norm_num) (by omega)
      nlinarith
    · omega
  rw [sigmoidVal]
  refine Int.ediv_eq_zero_of_lt (by norm_num) (lt_min ?_ (by rw [maxI128]; norm_num))
  rw [oneQ]
  linarith

end Logistic

/-! ## The Bessel function -/

/-- **The Bessel function** may only lose something in its exponential. -/
theorem exists_besselI0Core {x : ℤ} (hx : |x| < 2 ^ 63) :
    ∃ g, ∀ r, besselI0Core r x = ((mulQ r |x| log2eQ32).bind (exp2Core r)).bind fun e ↦
      some (max (-2 ^ 127) (min (g * e) maxI128) / 2 ^ 32) := by
  have hnonneg := abs_nonneg x
  have hone : oneQ = 2 ^ 32 := rfl
  have hdomain : 0 ≤ min |x| (12 * oneQ) ∧ min |x| (12 * oneQ) ≤ 12 * 2 ^ 32 := by
    rw [oneQ]
    omega
  have hsixth : 0 ≤ mulVal (min |x| (12 * oneQ)) invSixQ32 ∧
      mulVal (min |x| (12 * oneQ)) invSixQ32 ≤ 2 ^ 33 + 2 ^ 32 := by
    rw [mulVal, invSixQ32]
    omega
  have hproduct : ∀ r, mulQ r (min |x| (12 * oneQ)) invSixQ32 =
      some (mulVal (min |x| (12 * oneQ)) invSixQ32) := fun r ↦ by
    refine mulQ_eq ?_ (by omega) (by omega)
    rw [invSixQ32, abs_le]
    omega
  refine ⟨polyVal (mulVal (min |x| (12 * oneQ)) invSixQ32 - oneQ) besselI0C, fun r ↦ ?_⟩
  rw [besselI0Core, i64_eq (by omega) hx, Option.bind_eq_bind, Option.bind_some]
  change (mulQ r (min |x| (12 * oneQ)) invSixQ32).bind _ = _
  rw [hproduct, Option.bind_some, i64_eq (by omega) (by omega), Option.bind_some,
    polyQ_eq (by rw [abs_le]; omega) (by decide) (by decide) (by decide), Option.bind_some,
    Option.bind_assoc]
  rfl

end SoulSystem.Scirust.Transcendental
