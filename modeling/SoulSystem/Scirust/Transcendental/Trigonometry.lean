import SoulSystem.Library.Newton
import SoulSystem.Scirust.Fixed.Truncation
import SoulSystem.Scirust.Transcendental.Machine

/-!
# Logarithms, angles and the error function

The argument of a logarithm is scaled to between one and two.  An angle is reduced by whole turns
and by quarters of a turn.  An arc tangent divides the smaller of two numbers by the larger.  Each
of them bounds the argument of its polynomial, so none of the steps has a loss, with the exception
of the magnitude of the most negative integer, which has no room.
-/

namespace SoulSystem.Scirust.Transcendental

open Library SoulSystem.Scirust.Transcendental.Lossless

/-! ## Definitions -/

section Definitions

variable {frac : ℕ} (r : Reading)

def log2C : List ℤ :=
  [-14711951260, 35024616741, -42980318503, 39882996028, -25827496272, 11333447405, -3214170635,
    531913241, -39036563]

def ln2Q32 : ℤ := 2977044472

def log2Core (x : ℤ) : Option ℤ := do
  let msb : ℤ := Nat.log2 x.toNat
  let k := msb - 32
  let m ← if 0 ≤ k then some (x / 2 ^ k.toNat) else i64 r (x * 2 ^ (-k).toNat)
  let log2M ← polyQ r m log2C
  let whole ← i64 r (k * 2 ^ 32)
  i64 r (whole + log2M)

def log2 (x : Fixed 32 frac) : Option (Fixed 32 frac) :=
  if x.raw.toInt ≤ 0 then some ⟨BitVec.intMin 32⟩
  else do
    return fromQ32 (← log2Core r (← toQ32 r x))

def ln (x : Fixed 32 frac) : Option (Fixed 32 frac) :=
  if x.raw.toInt ≤ 0 then some ⟨BitVec.intMin 32⟩
  else do
    return fromQ32 (← mulQ r (← log2Core r (← toQ32 r x)) ln2Q32)

def sinC : List ℤ := [2, 4294967230, 31, -715826377, -209, 35782944, 263, -834895]

def cosC : List ℤ := [4294967296, 0, -2147483648, 0, 178956912, 0, -5899877]

def tauQ32 : ℤ := 26986075409

def invTauQ32 : ℤ := 683565276

def halfPiQ32 : ℤ := 6746518852

def piQ32 : ℤ := 13493037704

def twoOverPiQ32 : ℤ := 2734261102

/-- The sine and the cosine. -/
def sincosCore (x : ℤ) : Option (ℤ × ℤ) := do
  let turns ← i64 r ((← mulQ r x invTauQ32) + 2 ^ 31)
  let angle ← i128 r (x - (← i128 r (turns / 2 ^ 32 * tauQ32)))
  let quarters ← i64 r ((← mulQ r (← i64 r angle) twoOverPiQ32) + 2 ^ 31)
  let m := quarters / 2 ^ 32
  let rest ← i64 r (← i128 r (angle - (← i128 r (m * halfPiQ32))))
  let s ← polyQ r rest sinC
  let c ← polyQ r rest cosC
  match (m.tmod 4 + 4).tmod 4 with
  | 0 => return (s, c)
  | 1 => return (c, ← i64 r (-s))
  | 2 => return (← i64 r (-s), ← i64 r (-c))
  | _ => return (← i64 r (-c), s)

def sin (x : Fixed 32 frac) : Option (Fixed 32 frac) := do
  return fromQ32 (← sincosCore r (← toQ32 r x)).1

def cos (x : Fixed 32 frac) : Option (Fixed 32 frac) := do
  return fromQ32 (← sincosCore r (← toQ32 r x)).2

def atanC : List ℤ :=
  [4294966916, -1431602515, 857764031, -602558991, 427038257, -257288806, 105472057, -20531903]

def atanUnit (x : ℤ) : Option ℤ := do
  let sq ← mulQ r x x
  mulQ r x (← polyQ r sq atanC)

/-- The denominator is read without a sign. -/
def atanOfRatio (num den : ℤ) : Option ℤ :=
  if |num| ≤ den % 2 ^ 64 then do
    atanUnit r (← i64 r (← divI128 r (← i128 r (num * 2 ^ 32)) den))
  else do
    let a ← atanUnit r (← i64 r (← divI128 r (← i128 r (den * 2 ^ 32)) num))
    if 0 ≤ num then i64 r (halfPiQ32 - a) else i64 r (-halfPiQ32 - a)

def atanCore (x : ℤ) : Option ℤ := atanOfRatio r x oneQ

def atan2Core (y x : ℤ) : Option ℤ :=
  if x = 0 ∧ y = 0 then some 0
  else do
    let a ← if x = 0 then some halfPiQ32 else do
      atanOfRatio r (← i64 r |y|) (← i64 r |x|)
    match decide (0 ≤ x), decide (0 ≤ y) with
    | true, true => return a
    | false, true => i64 r (piQ32 - a)
    | false, false => i64 r (a - piQ32)
    | true, false => i64 r (-a)

/-- Rounds of Newton's iteration. -/
def newtonRounds (n : ℤ) : ℕ → ℤ → Option ℤ
  | 0, root => some root
  | rounds + 1, root => do
      newtonRounds n rounds ((← i128 r (root + (← divI128 r n root))) / 2)

/-- The loop that lowers a root until its square is small enough, with a budget. -/
def lowerRoot (n : ℤ) : ℕ → ℤ → Option ℤ
  | 0, _ => none
  | budget + 1, root => do
      if n < (← i128 r (root * root)) then
        lowerRoot n budget (← i128 r (root - 1))
      else
        return root

/-- The budget covers every root down to zero. -/
def sqrtQ32 (v : ℤ) : Option ℤ :=
  if v ≤ 0 then some 0
  else do
    let n ← i128 r (v * 2 ^ 32)
    let root ← newtonRounds r n 8 (2 ^ 32)
    i64 r (← lowerRoot r n (root.toNat + 1) root)

def asinCore (x : ℤ) : Option ℤ := do
  let clamped := max (-oneQ) (min x oneQ)
  let c ← i64 r (oneQ - (← mulQ r clamped clamped))
  atan2Core r clamped (← sqrtQ32 r c)

def atan (x : Fixed 32 frac) : Option (Fixed 32 frac) := do
  return fromQ32 (← atanCore r (← toQ32 r x))

def atan2 (y x : Fixed 32 frac) : Option (Fixed 32 frac) := do
  return fromQ32 (← atan2Core r (← toQ32 r y) (← toQ32 r x))

def asin (x : Fixed 32 frac) : Option (Fixed 32 frac) := do
  return fromQ32 (← asinCore r (← toQ32 r x))

def acos (x : Fixed 32 frac) : Option (Fixed 32 frac) := do
  return fromQ32 (← i64 r (halfPiQ32 - (← asinCore r (← toQ32 r x))))

def erfC : List ℤ :=
  [4274876578, 177528012, -710112339, 1656931672, -2367035341, 1798876738, 126155743, -1856765945,
    1750067221, -114967717, -1159211398, 930052540, 102002508, -612039641, 259475803, 197304778,
    -175892838, -30690111, 54451721, 1253280, -7294047]

def erfCore (x : ℤ) : Option ℤ := do
  let xAbs ← i64 r |x|
  let xDom := min xAbs (4 * oneQ)
  let u ← i64 r ((← mulQ r xDom (oneQ / 2)) - oneQ)
  let e ← polyQ r u erfC
  if x < 0 then i64 r (-e) else return e

def erf (x : Fixed 32 frac) : Option (Fixed 32 frac) := do
  return fromQ32 (← erfCore r (← toQ32 r x))

def erfc (x : Fixed 32 frac) : Option (Fixed 32 frac) := do
  return fromQ32 (← i128 r (oneQ - (← erfCore r (← toQ32 r x))))

end Definitions

/-! ## Logarithms -/

theorem log2Core_lossless {x : ℤ} (hpos : 0 < x) (hx : x < 2 ^ 63) :
    Lossless (fun r ↦ log2Core r x) fun v ↦ |v| ≤ 2 ^ 47 := by
  have hne : x.toNat ≠ 0 := by omega
  have hself : (2 : ℤ) ^ x.toNat.log2 ≤ x := by
    have hle := Nat.log2_self_le hne
    zify at hle
    omega
  have hless : x < 2 ^ (x.toNat.log2 + 1) := by
    have hlt := Nat.lt_log2_self (n := x.toNat)
    zify at hlt
    omega
  have hmsb : x.toNat.log2 < 63 := (Nat.log2_lt hne).mpr (by omega)
  have hrest : ∀ m : ℤ, |m| ≤ 2 ^ 33 → Lossless (fun r ↦ do
      let log2M ← polyQ r m log2C
      let whole ← i64 r ((x.toNat.log2 - 32) * 2 ^ 32)
      i64 r (whole + log2M)) fun v ↦ |v| ≤ 2 ^ 47 := by
    intro m hm
    refine bind (Lossless.polyQ hm (by decide) (by decide) (by decide)) fun p hp ↦ ?_
    have hp : |p| ≤ 2 ^ 9 * 2 ^ 37 := hp
    rw [abs_le] at hp
    refine bind (Lossless.i64 (by omega) (by omega)) fun whole hwhole ↦ ?_
    refine mono (Lossless.i64 (by omega) (by omega)) fun v hv ↦ ?_
    rw [abs_le]
    omega
  by_cases hsign : 0 ≤ (x.toNat.log2 : ℤ) - 32
  · simp only [log2Core, if_pos hsign]
    refine bind (pure _) fun m hm ↦ hrest m ?_
    rw [hm, abs_le]
    have hdiv : x / 2 ^ ((x.toNat.log2 : ℤ) - 32).toNat < 2 ^ 33 := by
      refine Int.ediv_lt_of_lt_mul (by positivity) ?_
      rw [← pow_add]
      refine hless.trans_eq ?_
      congr 1
      omega
    have hnonneg : 0 ≤ x / 2 ^ ((x.toNat.log2 : ℤ) - 32).toNat :=
      Int.ediv_nonneg hpos.le (by positivity)
    omega
  · simp only [log2Core, if_neg hsign]
    have hshift : x * 2 ^ (-((x.toNat.log2 : ℤ) - 32)).toNat < 2 ^ 33 := by
      have hsplit : (2 : ℤ) ^ 33 =
          2 ^ (x.toNat.log2 + 1) * 2 ^ (-((x.toNat.log2 : ℤ) - 32)).toNat := by
        rw [← pow_add]
        congr 1
        omega
      rw [hsplit]
      exact mul_lt_mul_of_pos_right hless (by positivity)
    have hnonneg : 0 ≤ x * 2 ^ (-((x.toNat.log2 : ℤ) - 32)).toNat := by positivity
    refine bind (Lossless.i64 (by omega) (by omega)) fun m hm ↦ hrest m ?_
    rw [hm, abs_le]
    omega

theorem ln_lossless {x : ℤ} (hpos : 0 < x) (hx : x < 2 ^ 63) :
    Lossless (fun r ↦ log2Core r x >>= fun v ↦ mulQ r v ln2Q32) fun _ ↦ True := by
  refine bind (log2Core_lossless hpos hx) fun v hv ↦ ?_
  refine mono (Lossless.mulQ (2 ^ 47) ?_ (by norm_num)) fun _ _ ↦ trivial
  rw [abs_le] at hv ⊢
  rw [ln2Q32]
  omega

/-! ## Angles -/

theorem sincosCore_lossless {x : ℤ} (hlow : -2 ^ 63 ≤ x) (hhigh : x < 2 ^ 63) :
    Lossless (fun r ↦ sincosCore r x) fun _ ↦ True := by
  unfold sincosCore
  refine bind (Lossless.mulQ (2 ^ 62) ?_ (by norm_num)) fun inTurns hinTurns ↦ ?_
  · rw [invTauQ32, abs_le]
    omega
  obtain ⟨hinTurns, hinTurnsLe⟩ := hinTurns
  rw [mulVal, invTauQ32] at hinTurns
  rw [abs_le] at hinTurnsLe
  refine bind (Lossless.i64 (by omega) (by omega)) fun turns hturns ↦ ?_
  rw [tauQ32]
  refine bind (Lossless.i128 (by omega) (by omega)) fun whole hwhole ↦ ?_
  refine bind (Lossless.i128 (by omega) (by omega)) fun angle hangle ↦ ?_
  have hangleLe : |angle| ≤ 2 ^ 35 := by
    rw [abs_le]
    omega
  clear hinTurns hturns hwhole hangle
  rw [abs_le] at hangleLe
  refine bind (Lossless.i64 (by omega) (by omega)) fun narrow hnarrow ↦ ?_
  refine bind (Lossless.mulQ (2 ^ 35) ?_ (by norm_num)) fun scaled hscaled ↦ ?_
  · rw [hnarrow, twoOverPiQ32, abs_le]
    omega
  obtain ⟨hscaled, hscaledLe⟩ := hscaled
  rw [mulVal, twoOverPiQ32, hnarrow] at hscaled
  rw [abs_le] at hscaledLe
  refine bind (Lossless.i64 (by omega) (by omega)) fun quarters hquarters ↦ ?_
  simp only [halfPiQ32]
  refine bind (Lossless.i128 (by omega) (by omega)) fun full hfull ↦ ?_
  refine bind (Lossless.i128 (by omega) (by omega)) fun left hleft ↦ ?_
  have hleftLe : |left| ≤ 2 ^ 33 := by
    rw [abs_le]
    omega
  clear hscaled hfull hleft
  have hleft := abs_le.mp hleftLe
  refine bind (Lossless.i64 (by omega) (by omega)) fun rest hrest ↦ ?_
  rw [← hrest] at hleftLe
  refine bind (Lossless.polyQ hleftLe (by decide) (by decide) (by decide)) fun s hs ↦ ?_
  refine bind (Lossless.polyQ hleftLe (by decide) (by decide) (by decide)) fun c hc ↦ ?_
  have hs : |s| ≤ 2 ^ 8 * 2 ^ 37 := hs
  have hc : |c| ≤ 2 ^ 7 * 2 ^ 37 := hc
  rw [abs_le] at hs hc
  split
  · exact mono (pure _) fun _ _ ↦ trivial
  · refine bind (Lossless.i64 (by omega) (by omega)) fun _ _ ↦ ?_
    exact mono (pure _) fun _ _ ↦ trivial
  · refine bind (Lossless.i64 (by omega) (by omega)) fun _ _ ↦ ?_
    refine bind (Lossless.i64 (by omega) (by omega)) fun _ _ ↦ ?_
    exact mono (pure _) fun _ _ ↦ trivial
  · refine bind (Lossless.i64 (by omega) (by omega)) fun _ _ ↦ ?_
    exact mono (pure _) fun _ _ ↦ trivial

/-! ## Arc tangents -/

theorem atanUnit_lossless {x : ℤ} (hx : |x| ≤ 2 ^ 32) :
    Lossless (fun r ↦ atanUnit r x) fun v ↦ |v| ≤ 2 ^ 45 := by
  have hsquare : |x * x| ≤ 2 ^ 32 * 2 ^ 32 := by
    rw [abs_mul]
    exact mul_le_mul hx hx (abs_nonneg x) (by norm_num)
  refine bind (Lossless.mulQ (2 ^ 32) hsquare (by norm_num)) fun sq hsq ↦ ?_
  have hunit := hsq.2.trans (show (2 : ℤ) ^ 32 ≤ 2 ^ 33 by norm_num)
  refine bind (Lossless.polyQ hunit (by decide) (by decide) (by decide)) fun p hp ↦ ?_
  have hp : |p| ≤ 2 ^ 8 * 2 ^ 37 := hp
  have hproduct : |x * p| ≤ 2 ^ 45 * 2 ^ 32 := by
    rw [abs_mul]
    nlinarith [abs_nonneg x, abs_nonneg p]
  exact mono (Lossless.mulQ _ hproduct (by norm_num)) fun v hv ↦ hv.2

/-- The quotient of a number by one that is not smaller. -/
theorem ratio_lossless {num den : ℤ} (hden : den ≠ 0) (hle : |num| ≤ |den|)
    (hnum : |num| < 2 ^ 63) :
    Lossless (fun r ↦ do atanUnit r (← i64 r (← divI128 r (← i128 r (num * 2 ^ 32)) den)))
      fun v ↦ |v| ≤ 2 ^ 45 := by
  have hquotient : |(num * 2 ^ 32).tdiv den| ≤ 2 ^ 32 := by
    refine abs_tdiv_le hden ?_
    rw [abs_mul]
    norm_num
    nlinarith [abs_pos.mpr hden]
  rw [abs_lt] at hnum
  refine bind (Lossless.i128 (by omega) (by omega)) fun shifted hshifted ↦ ?_
  rw [hshifted]
  have hrange := abs_le.mp hquotient
  refine bind (Lossless.divI128 hden (by omega) (by omega)) fun quotient heq ↦ ?_
  refine bind (Lossless.i64 (by omega) (by omega)) fun narrow hnarrow ↦ ?_
  exact atanUnit_lossless (by rw [hnarrow, heq]; exact hquotient)

theorem atanOfRatio_lossless (num : ℤ) {den : ℤ} (hpos : 0 < den) (hden : den < 2 ^ 63) :
    Lossless (fun r ↦ atanOfRatio r num den) fun v ↦ |v| ≤ 2 ^ 46 := by
  have hmod : den % 2 ^ 64 = den := Int.emod_eq_of_lt hpos.le (by omega)
  by_cases hle : |num| ≤ den
  · simp only [atanOfRatio, hmod, if_pos hle]
    refine mono (ratio_lossless hpos.ne' ?_ (hle.trans_lt hden)) fun v hv ↦ ?_
    · rwa [abs_of_pos hpos]
    · exact hv.trans (by norm_num)
  · simp only [atanOfRatio, hmod, if_neg hle]
    have hsigned : ∀ a : ℤ, |a| ≤ 2 ^ 45 → Lossless
        (fun r ↦ if 0 ≤ num then i64 r (halfPiQ32 - a) else i64 r (-halfPiQ32 - a))
          fun v ↦ |v| ≤ 2 ^ 46 := by
      intro a ha
      rw [abs_le] at ha
      rw [halfPiQ32]
      split_ifs with hsign
      · refine mono (Lossless.i64 (by omega) (by omega)) fun v hv ↦ ?_
        rw [hv, abs_le]
        omega
      · refine mono (Lossless.i64 (by omega) (by omega)) fun v hv ↦ ?_
        rw [hv, abs_le]
        omega
    have hnumNe : num ≠ 0 := by
      intro hzero
      rw [hzero, abs_zero] at hle
      omega
    have hswapped := bind (ratio_lossless hnumNe
      (by rw [abs_of_pos hpos]; omega) (by rwa [abs_of_pos hpos])) hsigned
    simp only [bind_assoc] at hswapped
    exact hswapped

theorem atan2Core_lossless {y x : ℤ} (hroom : x ≠ 0 → |y| < 2 ^ 63 ∧ |x| < 2 ^ 63) :
    Lossless (fun r ↦ atan2Core r y x) fun v ↦ |v| ≤ 2 ^ 47 := by
  have hplaced : ∀ a : ℤ, |a| ≤ 2 ^ 46 → Lossless
      (fun r ↦ match decide (0 ≤ x), decide (0 ≤ y) with
        | true, true => some a
        | false, true => i64 r (piQ32 - a)
        | false, false => i64 r (a - piQ32)
        | true, false => i64 r (-a)) fun v ↦ |v| ≤ 2 ^ 47 := by
    intro a ha
    rw [abs_le] at ha
    rw [piQ32]
    split
    · refine mono (pure a) fun v hv ↦ ?_
      rw [hv, abs_le]
      omega
    all_goals
      refine mono (Lossless.i64 (by omega) (by omega)) fun v hv ↦ ?_
      rw [hv, abs_le]
      omega
  by_cases horigin : x = 0 ∧ y = 0
  · simp only [atan2Core, if_pos horigin]
    refine mono (pure 0) fun v hv ↦ ?_
    rw [hv]
    norm_num
  by_cases hvertical : x = 0
  · simp only [atan2Core, if_neg horigin, if_pos hvertical]
    refine bind (pure _) fun a ha ↦ hplaced a ?_
    rw [ha, halfPiQ32]
    norm_num
  · simp only [atan2Core, if_neg horigin, if_neg hvertical]
    obtain ⟨hy, hx⟩ := hroom hvertical
    have hpos : 0 < |x| := abs_pos.mpr hvertical
    have hynonneg := abs_nonneg y
    refine bind (Lossless.i64 (by omega) hy) fun num hnum ↦ ?_
    refine bind (Lossless.i64 (by omega) hx) fun den hden ↦ ?_
    rw [hnum, hden]
    exact bind (atanOfRatio_lossless |y| hpos hx) hplaced

/-- The magnitudes of both coordinates must have room. -/
theorem atan2Core_checked_eq_none {y x : ℤ} (hx : x ≠ 0) (hout : 2 ^ 63 ≤ |y| ∨ 2 ^ 63 ≤ |x|) :
    atan2Core .checked y x = none := by
  simp only [atan2Core, if_neg (fun horigin : x = 0 ∧ y = 0 ↦ hx horigin.1), if_neg hx]
  by_cases hy : 2 ^ 63 ≤ |y|
  · rw [i64_checked_eq_none (.inr hy)]
    rfl
  · have hnonneg := abs_nonneg y
    rw [i64_eq (by omega) (by omega), i64_checked_eq_none (.inr (hout.resolve_left hy))]
    rfl

/-! ## Square roots -/

/-- A root between one and the largest, whose successor is too large. -/
def Above (n root : ℤ) : Prop := 0 < root ∧ root ≤ 2 ^ 32 + 2 ∧ n < (root + 1) * (root + 1)

theorem newtonRounds_lossless {n : ℤ} (hn : 0 < n) (hle : n ≤ 2 ^ 64) (rounds : ℕ) {root : ℤ}
    (habove : Above n root) : Lossless (fun r ↦ newtonRounds r n rounds root) (Above n) := by
  induction rounds generalizing root with
  | zero => exact mono (pure root) fun v hv ↦ hv ▸ habove
  | succ rounds ih =>
    obtain ⟨hpos, hroot, hupper⟩ := habove
    have hnonneg : 0 ≤ n / root := Int.ediv_nonneg hn.le hpos.le
    have hquotient : n / root ≤ 2 ^ 32 + 2 := by
      rcases le_or_gt (2 ^ 32) root with hlarge | hsmall
      · refine Int.ediv_le_of_le_mul hpos ?_
        nlinarith
      · exact (Newton.div_le_of_lt_sq hpos hupper).trans (by omega)
    have hdiv : n.tdiv root = n / root := Int.tdiv_eq_ediv_of_nonneg hn.le
    refine bind (Lossless.divI128 hpos.ne' (by omega) (by omega)) fun q hq ↦ ?_
    rw [hq, hdiv]
    refine bind (Lossless.i128 (by omega) (by omega)) fun sum hsum ↦ ?_
    rw [hsum]
    refine ih ⟨Newton.newtonStep_pos hn hpos, ?_, Newton.lt_newtonStep_sq hpos hn.le⟩
    omega

theorem lowerRoot_lossless {n : ℤ} (hn : 0 ≤ n) (budget : ℕ) {root : ℤ} (hroot : 0 ≤ root)
    (hle : root ≤ 2 ^ 32 + 2) (hbudget : root < budget) :
    Lossless (fun r ↦ lowerRoot r n budget root) fun v ↦ 0 ≤ v ∧ v * v ≤ n ∧ v ≤ 2 ^ 32 + 2 := by
  induction budget generalizing root with
  | zero => omega
  | succ budget ih =>
    have hsquare : root * root ≤ (2 ^ 32 + 2) * (2 ^ 32 + 2) :=
      mul_le_mul hle hle hroot (by norm_num)
    have hnonneg : 0 ≤ root * root := mul_nonneg hroot hroot
    refine bind (Lossless.i128 (by omega) (by omega)) fun square hsq ↦ ?_
    rw [hsq]
    by_cases hlarge : n < root * root
    · have hpos : 0 < root := by
        rcases eq_or_lt_of_le hroot with hzero | hpos
        · rw [← hzero] at hlarge
          omega
        · exact hpos
      simp only [if_pos hlarge]
      refine bind (Lossless.i128 (by omega) (by omega)) fun next hnext ↦ ?_
      exact ih (by omega) (by omega) (by omega)
    · simp only [if_neg hlarge]
      exact mono (pure root) fun v hv ↦ hv ▸ ⟨hroot, not_lt.mp hlarge, hle⟩

theorem sqrtQ32_lossless {v : ℤ} (hv : v ≤ 2 ^ 32) :
    Lossless (fun r ↦ sqrtQ32 r v) fun root ↦ 0 ≤ root ∧ root ≤ 2 ^ 33 := by
  by_cases hpos : v ≤ 0
  · simp only [sqrtQ32, if_pos hpos]
    exact mono (pure 0) fun root hroot ↦ by omega
  · simp only [sqrtQ32, if_neg hpos]
    refine bind (Lossless.i128 (by omega) (by omega)) fun n hn ↦ ?_
    have habove : Above n (2 ^ 32) := ⟨by norm_num, by norm_num, by omega⟩
    refine bind (newtonRounds_lossless (by omega) (by omega) 8 habove) fun root hroot ↦ ?_
    refine bind (lowerRoot_lossless (by omega) _ hroot.1.le hroot.2.1 ?_) fun low hlow ↦ ?_
    · rw [Nat.cast_succ, Int.toNat_of_nonneg hroot.1.le]
      exact lt_add_one root
    · refine mono (Lossless.i64 (by omega) (by omega)) fun result hresult ↦ ?_
      omega

theorem asinCore_lossless (x : ℤ) : Lossless (fun r ↦ asinCore r x) fun v ↦ |v| ≤ 2 ^ 47 := by
  have hone : oneQ = 2 ^ 32 := rfl
  have hclamped : |max (-oneQ) (min x oneQ)| ≤ 2 ^ 32 := by
    rw [abs_le]
    omega
  have hsquare : |max (-oneQ) (min x oneQ) * max (-oneQ) (min x oneQ)| ≤ 2 ^ 32 * 2 ^ 32 := by
    rw [abs_mul]
    exact mul_le_mul hclamped hclamped (abs_nonneg _) (by norm_num)
  have hnonneg : 0 ≤ mulVal (max (-oneQ) (min x oneQ)) (max (-oneQ) (min x oneQ)) :=
    Int.ediv_nonneg (add_nonneg (mul_self_nonneg _) (by norm_num)) (by norm_num)
  simp only [asinCore]
  refine bind (Lossless.mulQ (2 ^ 32) hsquare (by norm_num)) fun square hsq ↦ ?_
  rw [← hsq.1] at hnonneg
  have hle := abs_le.mp hsq.2
  refine bind (Lossless.i64 (by omega) (by omega)) fun c hc ↦ ?_
  refine bind (sqrtQ32_lossless (by omega)) fun root hroot ↦ ?_
  refine atan2Core_lossless fun _ ↦ ⟨hclamped.trans_lt (by norm_num), ?_⟩
  rw [abs_of_nonneg hroot.1]
  omega

theorem acos_lossless (x : ℤ) :
    Lossless (fun r ↦ asinCore r x >>= fun a ↦ i64 r (halfPiQ32 - a)) fun _ ↦ True := by
  refine bind (asinCore_lossless x) fun a ha ↦ ?_
  rw [abs_le] at ha
  rw [halfPiQ32]
  exact mono (Lossless.i64 (by omega) (by omega)) fun _ _ ↦ trivial

/-! ## The error function -/

theorem erfCore_lossless {x : ℤ} (hx : |x| < 2 ^ 63) :
    Lossless (fun r ↦ erfCore r x) fun v ↦ |v| ≤ 2 ^ 58 := by
  have hone : oneQ = 2 ^ 32 := rfl
  have hnonneg := abs_nonneg x
  refine bind (Lossless.i64 (by omega) hx) fun magnitude hmagnitude ↦ ?_
  have hproduct : |min magnitude (4 * oneQ) * (oneQ / 2)| ≤ 2 ^ 33 * 2 ^ 32 := by
    rw [hone, abs_le]
    omega
  refine bind (Lossless.mulQ _ hproduct (by norm_num)) fun half hhalf ↦ ?_
  obtain ⟨hhalf, hhalfLe⟩ := hhalf
  rw [abs_le] at hhalfLe
  have hhalfNonneg : 0 ≤ half := by
    rw [hhalf]
    refine Int.ediv_nonneg (add_nonneg (mul_nonneg ?_ (by decide)) (by norm_num)) (by norm_num)
    omega
  refine bind (Lossless.i64 (by omega) (by omega)) fun u hu ↦ ?_
  have huLe : |u| ≤ 2 ^ 33 := by
    rw [abs_le]
    omega
  refine bind (Lossless.polyQ huLe (by decide) (by decide) (by decide)) fun e he ↦ ?_
  have he : |e| ≤ 2 ^ 21 * 2 ^ 37 := he
  split_ifs with hsign
  · have hrange := abs_le.mp he
    refine mono (Lossless.i64 (by omega) (by omega)) fun v hv ↦ ?_
    rw [hv, abs_neg]
    exact he.trans (by norm_num)
  · refine mono (pure e) fun v hv ↦ ?_
    rw [hv]
    exact he.trans (by norm_num)

theorem erfc_lossless {x : ℤ} (hx : |x| < 2 ^ 63) :
    Lossless (fun r ↦ erfCore r x >>= fun e ↦ i128 r (oneQ - e)) fun _ ↦ True := by
  refine bind (erfCore_lossless hx) fun e he ↦ ?_
  have hone : oneQ = 2 ^ 32 := rfl
  rw [abs_le] at he
  exact mono (Lossless.i128 (by omega) (by omega)) fun _ _ ↦ trivial

theorem erfCore_checked_eq_none {x : ℤ} (hx : 2 ^ 63 ≤ |x|) : erfCore .checked x = none := by
  rw [erfCore, i64_checked_eq_none (.inr hx)]
  rfl

end SoulSystem.Scirust.Transcendental
