import SoulSystem.Scirust.Transcendental.Exponential
import SoulSystem.Scirust.Transcendental.Trigonometry

/-!
# Which calls of the elementary functions lose nothing

A call is sound if it has the same result under both readings and the result saturates to the
correct side.  With two fraction bits or more, every call is sound.  With fewer, the argument of an
exponential, or the magnitude of an argument, may have no room.
-/

namespace SoulSystem.Scirust.Transcendental

open SoulSystem.Scirust.Transcendental.Lossless

/-! ## Calls -/

/-- A call of one of the elementary functions. -/
inductive Call (frac : ℕ) where
  | exp (x : Fixed 32 frac)
  | exp2 (x : Fixed 32 frac)
  | ln (x : Fixed 32 frac)
  | log2 (x : Fixed 32 frac)
  | sin (x : Fixed 32 frac)
  | cos (x : Fixed 32 frac)
  | tanh (x : Fixed 32 frac)
  | sigmoid (x : Fixed 32 frac)
  | atan (x : Fixed 32 frac)
  | atan2 (y x : Fixed 32 frac)
  | asin (x : Fixed 32 frac)
  | acos (x : Fixed 32 frac)
  | erf (x : Fixed 32 frac)
  | erfc (x : Fixed 32 frac)
  | besselI0 (x : Fixed 32 frac)

namespace Call

variable {frac : ℕ}

/-- The result of a call. -/
def eval (r : Reading) : Call frac → Option (Fixed 32 frac)
  | .exp x => Transcendental.exp r x
  | .exp2 x => Transcendental.exp2 r x
  | .ln x => Transcendental.ln r x
  | .log2 x => Transcendental.log2 r x
  | .sin x => Transcendental.sin r x
  | .cos x => Transcendental.cos r x
  | .tanh x => Transcendental.tanh r x
  | .sigmoid x => Transcendental.sigmoid r x
  | .atan x => Transcendental.atan r x
  | .atan2 y x => Transcendental.atan2 r y x
  | .asin x => Transcendental.asin r x
  | .acos x => Transcendental.acos r x
  | .erf x => Transcendental.erf r x
  | .erfc x => Transcendental.erfc r x
  | .besselI0 x => Transcendental.besselI0 r x

/-- The result is on the correct side for an argument that is out of range.  The logarithm of two is
below 0.6932. -/
def Saturates : Call frac → Fixed 32 frac → Prop
  | .exp x, result =>
    (6932 * (31 - frac) * 2 ^ frac ≤ x.raw.toInt * 10000 → result = ⟨BitVec.intMax 32⟩) ∧
      (x.raw.toInt * 10000 ≤ -(6932 * (frac + 2) * 2 ^ frac) → result = ⟨0⟩)
  | .exp2 x, result =>
    ((31 - frac) * 2 ^ frac ≤ x.raw.toInt → result = ⟨BitVec.intMax 32⟩) ∧
      (x.raw.toInt ≤ -((frac + 2) * 2 ^ frac) → result = ⟨0⟩)
  | .tanh x, result =>
    (12 * 2 ^ frac ≤ x.raw.toInt → result.raw.toInt = min (2 ^ frac) (2 ^ 31 - 1)) ∧
      (x.raw.toInt ≤ -(12 * 2 ^ frac) → result.raw.toInt = -2 ^ frac)
  | .sigmoid x, result =>
    (24 * 2 ^ frac ≤ x.raw.toInt → result.raw.toInt = min (2 ^ frac) (2 ^ 31 - 1)) ∧
      (x.raw.toInt ≤ -(24 * 2 ^ frac) → result = ⟨0⟩)
  | _, _ => True

/-- A call loses nothing on the way, and saturates. -/
def Sound (c : Call frac) : Prop := Lossless (fun r ↦ c.eval r) c.Saturates

/-- The arguments that have room. -/
def Fits : Call frac → Prop
  | .exp x | .sigmoid x | .besselI0 x => frac = 0 → |x.raw.toInt| ≤ 1488522235
  | .tanh x =>
    (frac = 0 → |2 * x.raw.toInt| ≤ 1488522235) ∧ (frac = 1 → |x.raw.toInt| ≤ 1488522235)
  | .erf x | .erfc x => frac = 0 → x.raw.toInt ≠ -2 ^ 31
  | .atan2 y x =>
    frac = 0 → x.raw.toInt ≠ 0 → y.raw.toInt ≠ -2 ^ 31 ∧ x.raw.toInt ≠ -2 ^ 31
  | _ => True

end Call

/-! ## Arguments -/

section Arguments

variable {frac : ℕ} (x : Fixed 32 frac)

theorem toQ32_lossless : Lossless (fun r ↦ toQ32 r x) fun v ↦ v = q32 x :=
  ⟨q32 x, rfl, fun _ ↦ toQ32_eq x⟩

/-- An argument with a fraction bit takes at most half the range. -/
theorem abs_q32_le (hfrac : 1 ≤ frac) : |q32 x| ≤ 2 ^ 62 := by
  obtain ⟨hlow, hhigh⟩ := toInt_bounds x.raw
  have hraw : |x.raw.toInt| ≤ 2 ^ 31 := abs_le.mpr ⟨by omega, by omega⟩
  have hunit : (2 : ℤ) ^ (32 - frac) ≤ 2 ^ 31 := pow_le_pow_right₀ (by norm_num) (by omega)
  rw [q32, abs_mul, abs_of_pos (show (0 : ℤ) < 2 ^ (32 - frac) by positivity)]
  exact (mul_le_mul hraw hunit (by positivity) (by norm_num)).trans (by norm_num)

theorem q32_of_zero {x : Fixed 32 0} : q32 x = x.raw.toInt * 2 ^ 32 := rfl

theorem abs_q32_lt_iff : |q32 x| < 2 ^ 63 ↔ (frac = 0 → x.raw.toInt ≠ -2 ^ 31) := by
  rcases Nat.eq_zero_or_pos frac with hzero | hpos
  · subst hzero
    obtain ⟨hlow, hhigh⟩ := toInt_bounds x.raw
    rw [q32_of_zero, abs_lt]
    omega
  · have hle := abs_q32_le x hpos
    constructor
    · intro _ hzero
      omega
    · intro _
      omega

theorem margin_q32_iff : Margin (q32 x) ↔ (frac = 0 → |x.raw.toInt| ≤ 1488522235) := by
  rcases Nat.eq_zero_or_pos frac with hzero | hpos
  · subst hzero
    rw [q32_of_zero, margin_whole_iff]
    exact ⟨fun h _ ↦ h, fun h ↦ h rfl⟩
  · exact ⟨fun _ hzero ↦ absurd hzero hpos.ne', fun _ ↦ margin_of_abs_le (abs_q32_le x hpos)⟩

theorem margin_neg_q32_iff : Margin (-q32 x) ↔ (frac = 0 → |x.raw.toInt| ≤ 1488522235) := by
  rcases Nat.eq_zero_or_pos frac with hzero | hpos
  · subst hzero
    rw [q32_of_zero, ← neg_mul, margin_whole_iff, abs_neg]
    exact ⟨fun h _ ↦ h, fun h ↦ h rfl⟩
  · refine ⟨fun _ hzero ↦ absurd hzero hpos.ne', fun _ ↦ margin_of_abs_le ?_⟩
    rw [abs_neg]
    exact abs_q32_le x hpos

theorem margin_abs_q32_iff : Margin |q32 x| ↔ (frac = 0 → |x.raw.toInt| ≤ 1488522235) := by
  rcases Nat.eq_zero_or_pos frac with hzero | hpos
  · subst hzero
    rw [q32_of_zero, abs_mul, show |(2 : ℤ) ^ 32| = 2 ^ 32 by norm_num, margin_whole_iff, abs_abs]
    exact ⟨fun h _ ↦ h, fun h ↦ h rfl⟩
  · refine ⟨fun _ hzero ↦ absurd hzero hpos.ne', fun _ ↦ margin_of_abs_le ?_⟩
    rw [abs_abs]
    exact abs_q32_le x hpos

/-- Twice an argument has room and a margin. -/
theorem margin_twice_iff :
    (-2 ^ 63 ≤ q32 x * 2 ∧ q32 x * 2 < 2 ^ 63) ∧ Margin (-(q32 x * 2)) ↔ (Call.tanh x).Fits := by
  obtain ⟨hlow, hhigh⟩ := toInt_bounds x.raw
  rw [Call.Fits]
  rcases Nat.lt_or_ge frac 2 with hfew | hmany
  · interval_cases frac
    · have htwice : q32 x * 2 = 2 * x.raw.toInt * 2 ^ 32 := by
        rw [q32_of_zero]
        ring
      rw [htwice, ← neg_mul, margin_whole_iff, abs_neg, abs_le]
      omega
    · have htwice : q32 x * 2 = x.raw.toInt * 2 ^ 32 := by
        rw [q32]
        ring
      rw [htwice, ← neg_mul, margin_whole_iff, abs_neg, abs_le]
      omega
  · have hunit : (2 : ℤ) ^ (32 - frac) ≤ 2 ^ 30 := pow_le_pow_right₀ (by norm_num) (by omega)
    have hraw : |x.raw.toInt| ≤ 2 ^ 31 := abs_le.mpr ⟨by omega, by omega⟩
    have hle : |q32 x * 2| ≤ 2 ^ 62 := by
      rw [q32, abs_mul, abs_mul, abs_of_pos (show (0 : ℤ) < 2 ^ (32 - frac) by positivity)]
      have hproduct := mul_le_mul hraw hunit (by positivity) (by norm_num)
      norm_num at hproduct ⊢
      omega
    have hrange := abs_le.mp hle
    refine ⟨fun _ ↦ ⟨fun h ↦ absurd h (by omega), fun h ↦ absurd h (by omega)⟩, fun _ ↦ ?_⟩
    exact ⟨by omega, margin_of_abs_le (by rwa [abs_neg])⟩

end Arguments

/-! ## Limits -/

section Limits

variable {frac : ℕ}

theorem toInt_fromQ32_one (hfrac : frac ≤ 31) :
    (fromQ32 (2 ^ 32) : Fixed 32 frac).raw.toInt = min (2 ^ frac) (2 ^ 31 - 1) := by
  have hhalf : (2 : ℤ) ^ (31 - frac) ≤ 2 ^ 31 := pow_le_pow_right₀ (by norm_num) (by omega)
  have hunit : (0 : ℤ) < 2 ^ frac := by positivity
  have hquotient := add_half_div_unit hfrac 1
  rw [one_mul, one_mul] at hquotient
  rw [toInt_fromQ32 hfrac (by rw [maxI128]; omega), hquotient]
  omega

theorem toInt_fromQ32_neg_one (hfrac : frac ≤ 31) :
    (fromQ32 (-2 ^ 32) : Fixed 32 frac).raw.toInt = -2 ^ frac := by
  have hhalf : (2 : ℤ) ^ (31 - frac) ≤ 2 ^ 31 := pow_le_pow_right₀ (by norm_num) (by omega)
  have hunit : (2 : ℤ) ^ frac ≤ 2 ^ 31 := pow_le_pow_right₀ (by norm_num) hfrac
  have hpos : (0 : ℤ) < 2 ^ frac := by positivity
  have hquotient := add_half_div_unit hfrac (-1)
  rw [neg_one_mul, neg_one_mul] at hquotient
  rw [toInt_fromQ32 hfrac (by rw [maxI128]; omega), hquotient]
  omega

/-- An argument from a bound on its integer. -/
theorem le_q32 (hfrac : frac ≤ 31) {x : Fixed 32 frac} {n : ℤ} (hx : n * 2 ^ frac ≤ x.raw.toInt) :
    n * 2 ^ 32 ≤ q32 x := by
  rw [← unit_mul_unit hfrac, ← mul_assoc, q32]
  exact mul_le_mul_of_nonneg_right hx (by positivity)

theorem q32_le (hfrac : frac ≤ 31) {x : Fixed 32 frac} {n : ℤ}
    (hx : x.raw.toInt ≤ -(n * 2 ^ frac)) :
    q32 x ≤ -(n * 2 ^ 32) := by
  rw [← unit_mul_unit hfrac, ← mul_assoc, ← neg_mul, q32]
  exact mul_le_mul_of_nonneg_right hx (by positivity)

end Limits

/-! ## Exponentials -/

section Exponentials

variable {frac : ℕ} (x : Fixed 32 frac)

theorem exp2_sound (hfrac : frac ≤ 31) : (Call.exp2 x).Sound := by
  obtain ⟨hlow, hhigh⟩ := q32_bounds x
  have hroom : q32 x + 2 ^ 31 < 2 ^ 63 := by
    rcases Nat.eq_zero_or_pos frac with hzero | hpos
    · subst hzero
      rw [q32_of_zero] at hhigh ⊢
      omega
    · have hle := (abs_le.mp (abs_q32_le x hpos)).2
      omega
  refine ⟨fromQ32 (exp2Val (q32 x)), ⟨fun hlarge ↦ ?_, fun hsmall ↦ ?_⟩, fun r ↦ ?_⟩
  · exact fromQ32_exp2Val_of_large hfrac (le_q32 hfrac hlarge)
  · refine fromQ32_exp2Val_of_small hfrac ((q32_le hfrac hsmall).trans_eq ?_)
    ring
  · change (toQ32 r x).bind (fun v ↦ (exp2Core r v).bind fun e ↦ some (fromQ32 e)) = _
    rw [toQ32_eq, Option.bind_some, exp2Core_eq hlow hroom]
    rfl

/-- The exponent of a large argument: the logarithm of two is below 0.6932. -/
theorem le_mulVal_log2e (hfrac : frac ≤ 31) {n : ℤ} (hn : 0 ≤ n)
    (hx : 6932 * n * 2 ^ frac ≤ x.raw.toInt * 10000) : n * 2 ^ 32 ≤ mulVal (q32 x) log2eQ32 := by
  have hpos : (0 : ℤ) < 2 ^ (32 - frac) := by positivity
  have hargument : 6932 * n * 2 ^ 32 ≤ q32 x * 10000 := by
    rw [← unit_mul_unit hfrac, q32]
    nlinarith
  rw [mulVal, log2eQ32]
  omega

theorem mulVal_log2e_le (hfrac : frac ≤ 31) {n : ℤ} (hn : 0 < n)
    (hx : x.raw.toInt * 10000 ≤ -(6932 * n * 2 ^ frac)) :
    mulVal (q32 x) log2eQ32 ≤ -n * 2 ^ 32 := by
  have hpos : (0 : ℤ) < 2 ^ (32 - frac) := by positivity
  have hargument : q32 x * 10000 ≤ -(6932 * n * 2 ^ 32) := by
    rw [← unit_mul_unit hfrac, q32]
    nlinarith
  rw [mulVal, log2eQ32]
  omega

theorem exp_sound_iff (hfrac : frac ≤ 31) : (Call.exp x).Sound ↔ (Call.exp x).Fits := by
  obtain ⟨hlow, hhigh⟩ := q32_bounds x
  have hfracInt : (frac : ℤ) ≤ 31 := by exact_mod_cast hfrac
  have heval : ∀ r, (Call.exp x).eval r =
      ((mulQ r (q32 x) log2eQ32).bind (exp2Core r)).bind fun e ↦ some (fromQ32 e) := by
    intro r
    change (toQ32 r x).bind _ = _
    rw [toQ32_eq, Option.bind_some, Option.bind_assoc]
    rfl
  rw [Call.Fits, ← margin_q32_iff]
  constructor
  · intro hsound
    by_contra hout
    refine not_of_none ?_ hsound
    rw [heval, exponential_eq_none hlow hhigh.le hout]
    rfl
  · intro hmargin
    refine ⟨fromQ32 (exp2Val (mulVal (q32 x) log2eQ32)), ⟨fun hlarge ↦ ?_, fun hsmall ↦ ?_⟩,
      fun r ↦ ?_⟩
    · exact fromQ32_exp2Val_of_large hfrac (le_mulVal_log2e x hfrac (by omega) hlarge)
    · exact fromQ32_exp2Val_of_small hfrac (mulVal_log2e_le x hfrac (by omega) hsmall)
    · refine (heval r).trans ?_
      rw [mulQ_log2e hlow hhigh.le hmargin, Option.bind_some, exp2Core_eq hmargin.1 hmargin.2]
      rfl

theorem sigmoid_sound_iff (hfrac : frac ≤ 31) :
    (Call.sigmoid x).Sound ↔ (Call.sigmoid x).Fits := by
  obtain ⟨hlow, hhigh⟩ := q32_bounds x
  have heval : ∀ r, (Call.sigmoid x).eval r =
      (sigmoidCore r (q32 x)).bind fun s ↦ some (fromQ32 s) := by
    intro r
    change (toQ32 r x).bind _ = _
    rw [toQ32_eq]
    rfl
  rw [Call.Fits, ← margin_neg_q32_iff]
  constructor
  · intro hsound
    by_contra hout
    refine not_of_none ?_ hsound
    rw [heval, sigmoidCore_eq_none hlow hhigh hout]
    rfl
  · intro hmargin
    refine ⟨fromQ32 (sigmoidVal (q32 x)), ⟨fun hlarge ↦ ?_, fun hsmall ↦ ?_⟩, fun r ↦ ?_⟩
    · rw [sigmoidVal_of_large (le_q32 hfrac hlarge)]
      exact toInt_fromQ32_one hfrac
    · rw [sigmoidVal_of_small ((q32_le hfrac hsmall).trans_eq (by ring))]
      exact fromQ32_of_small hfrac le_rfl (by positivity)
    · refine (heval r).trans ?_
      rw [sigmoidCore_eq (neg_lt.mp (lt_of_margin hmargin)) hhigh hmargin]
      rfl

theorem tanh_sound_iff (hfrac : frac ≤ 31) : (Call.tanh x).Sound ↔ (Call.tanh x).Fits := by
  have heval : ∀ r, (Call.tanh x).eval r = (i64 r (q32 x * 2)).bind fun twice ↦
      (sigmoidCore r twice).bind fun s ↦ (i128 r (2 * s)).bind fun double ↦
        (i128 r (double - oneQ)).bind fun v ↦ some (fromQ32 v) := by
    intro r
    change (toQ32 r x).bind _ = _
    rw [toQ32_eq]
    rfl
  rw [← margin_twice_iff]
  constructor
  · intro hsound
    by_contra hout
    refine not_of_none ?_ hsound
    rw [heval]
    by_cases hrange : -2 ^ 63 ≤ q32 x * 2 ∧ q32 x * 2 < 2 ^ 63
    · rw [i64_eq hrange.1 hrange.2, Option.bind_some,
        sigmoidCore_eq_none hrange.1 hrange.2 fun hmargin ↦ hout ⟨hrange, hmargin⟩]
      rfl
    · rw [i64_checked_eq_none (by omega)]
      rfl
  · rintro ⟨⟨hlow, hhigh⟩, hmargin⟩
    obtain ⟨hnonneg, hle⟩ := sigmoidVal_bounds (q32 x * 2)
    have hone : oneQ = 2 ^ 32 := rfl
    refine ⟨fromQ32 (2 * sigmoidVal (q32 x * 2) - oneQ), ⟨fun hlarge ↦ ?_, fun hsmall ↦ ?_⟩,
      fun r ↦ ?_⟩
    · have hargument := le_q32 hfrac hlarge
      rw [sigmoidVal_of_large (by omega)]
      exact toInt_fromQ32_one hfrac
    · have hargument := q32_le hfrac hsmall
      rw [sigmoidVal_of_small (by omega)]
      exact toInt_fromQ32_neg_one hfrac
    · refine (heval r).trans ?_
      rw [i64_eq hlow hhigh, Option.bind_some,
        sigmoidCore_eq (neg_lt.mp (lt_of_margin hmargin)) hhigh hmargin, Option.bind_some,
        i128_eq (by omega) (by omega), Option.bind_some, i128_eq (by omega) (by omega)]
      rfl

theorem besselI0_sound_iff : (Call.besselI0 x).Sound ↔ (Call.besselI0 x).Fits := by
  obtain ⟨hlow, hhigh⟩ := q32_bounds x
  have heval : ∀ r, (Call.besselI0 x).eval r =
      (besselI0Core r (q32 x)).bind fun v ↦ some (fromQ32 v) := by
    intro r
    change (toQ32 r x).bind _ = _
    rw [toQ32_eq]
    rfl
  have hle : |q32 x| ≤ 2 ^ 63 := abs_le.mpr ⟨by omega, by omega⟩
  have hnonneg := abs_nonneg (q32 x)
  rw [Call.Fits, ← margin_abs_q32_iff]
  constructor
  · intro hsound
    by_contra hout
    refine not_of_none ?_ hsound
    rw [heval]
    rcases eq_or_lt_of_le hle with hmin | hinside
    · rw [besselI0Core, i64_checked_eq_none (.inr hmin.ge)]
      rfl
    · obtain ⟨g, hg⟩ := exists_besselI0Core hinside
      rw [hg, exponential_eq_none (by omega) hle hout]
      rfl
  · intro hmargin
    obtain ⟨g, hg⟩ := exists_besselI0Core (lt_of_margin hmargin)
    refine ⟨fromQ32 (max (-2 ^ 127) (min (g * exp2Val (mulVal |q32 x| log2eQ32)) maxI128) / 2 ^ 32),
      trivial, fun r ↦ (heval r).trans ?_⟩
    rw [hg, mulQ_log2e (by omega) hle hmargin, Option.bind_some, exp2Core_eq hmargin.1 hmargin.2]
    rfl

end Exponentials

/-! ## The other functions -/

section Others

variable {frac : ℕ} (x : Fixed 32 frac)

/-- A function of the converted argument whose result is converted back. -/
theorem converted_lossless {f : Reading → ℤ → Option ℤ} {P : ℤ → Prop}
    (hcore : Lossless (fun r ↦ f r (q32 x)) P) :
    Lossless (fun r ↦ do return (fromQ32 (← f r (← toQ32 r x)) : Fixed 32 frac))
      fun _ ↦ True := by
  refine bind (toQ32_lossless x) fun v hv ↦ ?_
  rw [hv]
  exact bind hcore fun w _ ↦ mono (pure _) fun _ _ ↦ trivial

theorem q32_pos (hpos : 0 < x.raw.toInt) : 0 < q32 x := mul_pos hpos (by positivity)

theorem log2_sound : (Call.log2 x).Sound := by
  by_cases hsign : x.raw.toInt ≤ 0
  · exact ⟨⟨BitVec.intMin 32⟩, trivial, fun r ↦ if_pos hsign⟩
  · obtain ⟨v, -, hv⟩ := converted_lossless x
      (log2Core_lossless (q32_pos x (not_le.mp hsign)) (q32_bounds x).2)
    exact ⟨v, trivial, fun r ↦ (if_neg hsign).trans (hv r)⟩

theorem ln_sound : (Call.ln x).Sound := by
  by_cases hsign : x.raw.toInt ≤ 0
  · exact ⟨⟨BitVec.intMin 32⟩, trivial, fun r ↦ if_pos hsign⟩
  · obtain ⟨v, -, hv⟩ := converted_lossless x
      (f := fun r z ↦ log2Core r z >>= fun v ↦ mulQ r v ln2Q32)
      (ln_lossless (q32_pos x (not_le.mp hsign)) (q32_bounds x).2)
    simp only [bind_assoc] at hv
    exact ⟨v, trivial, fun r ↦ (if_neg hsign).trans (hv r)⟩

theorem sin_sound : (Call.sin x).Sound := by
  refine bind (toQ32_lossless x) fun v hv ↦ ?_
  rw [hv]
  exact bind (sincosCore_lossless (q32_bounds x).1 (q32_bounds x).2) fun w _ ↦
    mono (pure _) fun _ _ ↦ trivial

theorem cos_sound : (Call.cos x).Sound := by
  refine bind (toQ32_lossless x) fun v hv ↦ ?_
  rw [hv]
  exact bind (sincosCore_lossless (q32_bounds x).1 (q32_bounds x).2) fun w _ ↦
    mono (pure _) fun _ _ ↦ trivial

theorem asin_sound : (Call.asin x).Sound := converted_lossless x (asinCore_lossless (q32 x))

theorem acos_sound : (Call.acos x).Sound := by
  have hsound := converted_lossless x (acos_lossless (q32 x))
    (f := fun r z ↦ asinCore r z >>= fun a ↦ i64 r (halfPiQ32 - a))
  simp only [bind_assoc] at hsound
  exact hsound

theorem atan_sound : (Call.atan x).Sound :=
  converted_lossless x (atanOfRatio_lossless (q32 x) (by decide) (by decide))

theorem erf_sound_iff : (Call.erf x).Sound ↔ (Call.erf x).Fits := by
  rw [Call.Fits, ← abs_q32_lt_iff]
  constructor
  · intro hsound
    by_contra hout
    refine not_of_none ?_ hsound
    change (toQ32 .checked x).bind _ = none
    rw [toQ32_eq, Option.bind_some, erfCore_checked_eq_none (not_lt.mp hout)]
    rfl
  · exact fun hroom ↦ converted_lossless x (erfCore_lossless hroom)

theorem erfc_sound_iff : (Call.erfc x).Sound ↔ (Call.erfc x).Fits := by
  rw [Call.Fits, ← abs_q32_lt_iff]
  constructor
  · intro hsound
    by_contra hout
    refine not_of_none ?_ hsound
    change (toQ32 .checked x).bind _ = none
    rw [toQ32_eq, Option.bind_some, erfCore_checked_eq_none (not_lt.mp hout)]
    rfl
  · intro hroom
    have hsound := converted_lossless x (erfc_lossless hroom)
      (f := fun r z ↦ erfCore r z >>= fun e ↦ i128 r (oneQ - e))
    simp only [bind_assoc] at hsound
    exact hsound

theorem q32_eq_zero_iff : q32 x = 0 ↔ x.raw.toInt = 0 := by
  rw [q32, mul_eq_zero_iff_right (by positivity)]

theorem atan2_sound_iff (y : Fixed 32 frac) :
    (Call.atan2 y x).Sound ↔ (Call.atan2 y x).Fits := by
  have heval : ∀ r, (Call.atan2 y x).eval r =
      (atan2Core r (q32 y) (q32 x)).bind fun v ↦ some (fromQ32 v) := by
    intro r
    change (toQ32 r y).bind (fun v ↦ (toQ32 r x).bind _) = _
    rw [toQ32_eq, Option.bind_some, toQ32_eq]
    rfl
  have hfits : (Call.atan2 y x).Fits ↔
      (q32 x ≠ 0 → |q32 y| < 2 ^ 63 ∧ |q32 x| < 2 ^ 63) := by
    have hzero := q32_eq_zero_iff x
    rw [Call.Fits, abs_q32_lt_iff, abs_q32_lt_iff]
    tauto
  rw [hfits]
  constructor
  · intro hsound hx
    by_contra hout
    refine not_of_none ?_ hsound
    rw [heval, atan2Core_checked_eq_none hx (by omega)]
    rfl
  · intro hroom
    obtain ⟨v, -, hv⟩ := atan2Core_lossless hroom
    refine ⟨fromQ32 v, trivial, fun r ↦ (heval r).trans ?_⟩
    have hvalue : atan2Core r (q32 y) (q32 x) = some v := hv r
    rw [hvalue]
    rfl

end Others

variable {frac : ℕ}

/-- **Soundness of the elementary functions.**  A call loses nothing on the way and saturates to the
correct side exactly if its argument has room, and every argument with two fraction bits has. -/
theorem transcendental_sound_iff (hfrac : frac ≤ 31) (c : Call frac) : c.Sound ↔ c.Fits := by
  cases c with
  | exp x => exact exp_sound_iff x hfrac
  | exp2 x => exact iff_of_true (exp2_sound x hfrac) trivial
  | ln x => exact iff_of_true (ln_sound x) trivial
  | log2 x => exact iff_of_true (log2_sound x) trivial
  | sin x => exact iff_of_true (sin_sound x) trivial
  | cos x => exact iff_of_true (cos_sound x) trivial
  | tanh x => exact tanh_sound_iff x hfrac
  | sigmoid x => exact sigmoid_sound_iff x hfrac
  | atan x => exact iff_of_true (atan_sound x) trivial
  | atan2 y x => exact atan2_sound_iff x y
  | asin x => exact iff_of_true (asin_sound x) trivial
  | acos x => exact iff_of_true (acos_sound x) trivial
  | erf x => exact erf_sound_iff x
  | erfc x => exact erfc_sound_iff x
  | besselI0 x => exact besselI0_sound_iff x

/-- The logistic function of an argument without fraction bits. -/
theorem transcendental_sound_iff_sigmoid :
    0 ≤ 31 ∧ ((Call.sigmoid (⟨7⟩ : Fixed 32 0)).Sound ↔ (Call.sigmoid (⟨7⟩ : Fixed 32 0)).Fits) :=
  ⟨by decide, transcendental_sound_iff (by decide) _⟩

/-- The exponential of the largest whole number overflows, and wraps around to zero. -/
theorem exp_wraps_to_zero :
    (Call.exp (⟨BitVec.intMax 32⟩ : Fixed 32 0)).eval .checked = none ∧
      (Call.exp (⟨BitVec.intMax 32⟩ : Fixed 32 0)).eval .wrapping = some ⟨0⟩ ∧
        ¬ ∀ frac ≤ 31, ∀ c : Call frac, c.Sound := by
  have hnone : (Call.exp (⟨BitVec.intMax 32⟩ : Fixed 32 0)).eval .checked = none := by
    decide +kernel
  refine ⟨hnone, by decide +kernel, fun hsound ↦ ?_⟩
  exact not_of_none hnone (hsound 0 (by decide) _)

end SoulSystem.Scirust.Transcendental
