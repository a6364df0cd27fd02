import SoulSystem.Library.DecimalLiteral
import SoulSystem.Scirust.Fixed.Types

/-!
# Decimal formatting

A number is written exactly.  The digits after the point come from a loop that multiplies what is
left by ten and takes the bits above the point.  Each pass leaves a multiple of a higher power of
two, so nothing is left after as many passes as there are fraction bits.
-/

namespace SoulSystem.Scirust

open Library Library.Str List

/-! ## Definitions -/

/-- An accumulator that is written in decimal. -/
class DisplayWide (W : Type) where
  format : W → Str

instance (n : ℕ) : DisplayWide (BitVec n) where
  format := fun x ↦ signedDecimal x.toInt

instance (n : ℕ) : DisplayWide (Exact n) where
  format := fun x ↦ signedDecimal x.value

/-- What has been written and what is left to write. -/
structure DigitState (W : Type) where
  out : Str
  fracRaw : W
  guard : ℕ

namespace Fixed

variable {w frac : ℕ} (W : Type) {m : Type → Type} [Monad m] [WideInt W m] [FixedStorage w W]
  [DisplayWide W]

variable {W} in
def digitStep (frac : ℕ) (s : DigitState W) : m (DigitState W) := do
  let scaled ← WideInt.wrappingAdd (← shl s.fracRaw 3) (← shl s.fracRaw 1)
  let digit ← shr scaled frac
  let fracRaw ← wrappingSub scaled (← shl digit frac)
  return ⟨s.out ++ DisplayWide.format digit, fracRaw, s.guard + 1⟩

variable {W} in
/-- The guard admits one pass more than there are fraction bits. -/
def digitLoop (frac : ℕ) : ℕ → DigitState W → m (DigitState W)
  | 0, s => return s
  | passes + 1, s =>
    if s.fracRaw ≠ WideInt.zero ∧ s.guard ≤ frac then do
      digitLoop frac passes (← digitStep frac s)
    else
      return s

/-- `fmt`, with what is left at its end. -/
def fmtState (x : Fixed w frac) : m (DigitState W) := do
  let neg := x.raw.slt 0
  let mag : W ← wideAbs (toWide x.raw)
  let intPart ← shr mag frac
  let fracRaw ← wrappingSub mag (← shl intPart frac)
  let out := (if neg then ['-'] else []) ++ DisplayWide.format intPart
  if fracRaw ≠ WideInt.zero then
    digitLoop frac (frac + 1) ⟨out ++ ['.'], fracRaw, 0⟩
  else
    return ⟨out, fracRaw, 0⟩

def fmt (x : Fixed w frac) : m Str := do
  return (← fmtState W x).out

end Fixed

/-! ## The digit loop -/

/-- The format of an accumulator is its value in decimal. -/
class LawfulDisplay (W : Type) {m : Type → Type} [Monad m] [WideInt W m] [DisplayWide W] {n : ℕ}
    (hlaws : LawfulWide W m n) : Prop where
  format_eq : ∀ x : W, DisplayWide.format x = signedDecimal (hlaws.val x)

instance (w : ℕ) [NeZero w] :
    LawfulDisplay (BitVec (2 * w)) (m := Id) LawfulStorage.toLawfulWide where
  format_eq := fun _ ↦ rfl

instance (w : ℕ) [NeZero w] :
    LawfulDisplay (Exact (2 * w)) (m := Option) LawfulStorage.toLawfulWide where
  format_eq := fun _ ↦ rfl

/-- Some digits write a fraction of `2^frac`, without a zero at the end. -/
structure Writes (frac : ℕ) (rest : ℤ) (digits : Str) : Prop where
  value : fractionValue digits = rest / 2 ^ frac
  isDigit : ∀ c ∈ digits, c.isDigit
  last : digits.getLast? ≠ some '0'

namespace Writes

variable {frac : ℕ} {rest : ℤ} {digits : Str}

theorem nil : Writes frac 0 [] where
  value := by rw [fractionValue_nil, Int.cast_zero, zero_div]
  isDigit := fun _ hc ↦ absurd hc not_mem_nil
  last := Option.some_ne_none _ |>.symm

theorem ne_nil (hdigits : Writes frac rest digits) (hrest : rest ≠ 0) : digits ≠ [] := by
  intro hnil
  have hvalue := hdigits.value
  rw [hnil, fractionValue_nil, eq_comm, div_eq_zero_iff] at hvalue
  exact hvalue.elim (fun h ↦ hrest (Int.cast_eq_zero.mp h)) (pow_ne_zero frac two_ne_zero)

/-- One more digit in front, which takes what is above the point. -/
theorem cons {d : ℕ} (hd : d < 10) (hrest : rest ≠ 0)
    (hdigits : Writes frac (rest * 10 - d * 2 ^ frac) digits) :
    Writes frac rest (d.digitChar :: digits) where
  value := by
    rw [fractionValue_cons hd, hdigits.value]
    push_cast
    field_simp
    ring
  isDigit := by
    rw [forall_mem_cons]
    exact ⟨Nat.isDigit_digitChar.trans (decide_eq_true hd), hdigits.isDigit⟩
  last := by
    cases digits with
    | nil =>
      have hempty := mt hdigits.ne_nil (not_not_intro rfl)
      have hd0 : d ≠ 0 := by
        intro hzero
        rw [hzero, Nat.cast_zero, zero_mul, sub_zero] at hempty
        exact hempty (mul_ne_zero hrest (by norm_num))
      exact fun hlast ↦ digitChar_ne_zero hd hd0 (Option.some_inj.mp hlast)
    | cons c digits =>
      rw [getLast?_cons_cons]
      exact hdigits.last

end Writes

namespace Fixed

section Loop

variable {W : Type} {m : Type → Type} [Monad m] [LawfulMonad m] [WideInt W m] [DisplayWide W]
  {n frac : ℕ} [hlaws : LawfulWide W m n] [hdisplay : LawfulDisplay W hlaws]

/-- One pass writes the digit above the point of ten times what is left. -/
theorem digitStep_eq (hroom : 20 * (2 : ℤ) ^ frac < 2 ^ n) {s : DigitState W}
    (hlow : 0 ≤ hlaws.val s.fracRaw) (hhigh : hlaws.val s.fracRaw < 2 ^ frac) :
    ∃ (d : ℕ) (left : W), d < 10 ∧
      digitStep frac s = pure ⟨s.out ++ [d.digitChar], left, s.guard + 1⟩ ∧
      hlaws.val left = hlaws.val s.fracRaw * 10 - d * 2 ^ frac ∧
      0 ≤ hlaws.val left ∧ hlaws.val left < 2 ^ frac := by
  have hunit : (0 : ℤ) < 2 ^ frac := by positivity
  obtain ⟨eight, height, hvalEight⟩ := hlaws.shl s.fracRaw 3 ⟨by linarith, by linarith⟩
  obtain ⟨twice, htwice, hvalTwice⟩ := hlaws.shl s.fracRaw 1 ⟨by linarith, by linarith⟩
  obtain ⟨scaled, hscaled, hvalScaled⟩ := hlaws.add eight twice
    (by rw [hvalEight, hvalTwice]; exact ⟨by linarith, by linarith⟩)
  have hten : hlaws.val scaled = hlaws.val s.fracRaw * 10 := by
    rw [hvalScaled, hvalEight, hvalTwice]
    ring
  obtain ⟨digit, hdigit, hvalDigit⟩ := hlaws.shr scaled frac
  rw [hten] at hvalDigit
  have hfloor := Int.ediv_mul_le (hlaws.val s.fracRaw * 10) hunit.ne'
  have hceil := Int.lt_ediv_add_one_mul_self (hlaws.val s.fracRaw * 10) hunit
  have hnonneg : 0 ≤ hlaws.val s.fracRaw * 10 / 2 ^ frac := by positivity
  have hdigitLt : hlaws.val s.fracRaw * 10 / 2 ^ frac < 10 := by
    rw [Int.ediv_lt_iff_lt_mul hunit]
    linarith
  rw [← hvalDigit] at hfloor hceil hnonneg hdigitLt
  have hmul : 0 ≤ hlaws.val digit * 2 ^ frac := mul_nonneg hnonneg hunit.le
  obtain ⟨shifted, hshifted, hvalShifted⟩ := hlaws.shl digit frac ⟨by linarith, by linarith⟩
  obtain ⟨left, hleft, hvalLeft⟩ := hlaws.sub scaled shifted
    (by rw [hten, hvalShifted]; exact ⟨by linarith, by linarith⟩)
  have hcast : ((hlaws.val digit).toNat : ℤ) = hlaws.val digit := Int.toNat_of_nonneg hnonneg
  have hdLt : (hlaws.val digit).toNat < 10 := by omega
  have hformat : DisplayWide.format digit = [(hlaws.val digit).toNat.digitChar] := by
    have hnat : (hlaws.val digit).natAbs = (hlaws.val digit).toNat := by omega
    rw [hdisplay.format_eq, signedDecimal, if_neg (not_lt.mpr hnonneg), hnat,
      decimal_of_lt_ten hdLt]
  refine ⟨(hlaws.val digit).toNat, left, hdLt, ?_, ?_, ?_, ?_⟩
  · rw [digitStep, height, pure_bind, htwice, pure_bind, hscaled, pure_bind, hdigit, pure_bind,
      hshifted, pure_bind, hleft, pure_bind, hformat]
  · rw [hvalLeft, hten, hvalShifted, hcast]
  · rw [hvalLeft, hten, hvalShifted]
    linarith
  · rw [hvalLeft, hten, hvalShifted]
    linarith

/-- **The digit loop** ends with nothing left, and before its guard does. -/
theorem digitLoop_eq (hroom : 20 * (2 : ℤ) ^ frac < 2 ^ n) (passes : ℕ) {s : DigitState W}
    (hlow : 0 ≤ hlaws.val s.fracRaw) (hhigh : hlaws.val s.fracRaw < 2 ^ frac)
    (hguard : s.guard + passes = frac) (hdvd : (2 : ℤ) ^ s.guard ∣ hlaws.val s.fracRaw) :
    ∃ digits, Writes frac (hlaws.val s.fracRaw) digits ∧ digits.length ≤ passes ∧
      digitLoop frac (passes + 1) s =
        pure ⟨s.out ++ digits, WideInt.zero, s.guard + digits.length⟩ := by
  have hdone : ∀ (passes : ℕ) {s : DigitState W}, hlaws.val s.fracRaw = 0 →
      digitLoop frac (passes + 1) s = pure ⟨s.out ++ [], WideInt.zero, s.guard + 0⟩ := by
    intro passes s hzero
    have heq : s.fracRaw = WideInt.zero := hlaws.val_injective (hzero.trans hlaws.val_zero.symm)
    rw [digitLoop, if_neg (fun h ↦ h.1 heq), append_nil, Nat.add_zero, ← heq]
  induction passes generalizing s with
  | zero =>
    have hzero : hlaws.val s.fracRaw = 0 := by
      rw [Nat.add_zero] at hguard
      rw [hguard] at hdvd
      exact Int.eq_zero_of_dvd_of_nonneg_of_lt hlow hhigh hdvd
    refine ⟨[], ?_, le_rfl, hdone 0 hzero⟩
    rw [hzero]
    exact Writes.nil
  | succ passes ih =>
    by_cases hzero : hlaws.val s.fracRaw = 0
    · refine ⟨[], ?_, Nat.zero_le _, hdone _ hzero⟩
      rw [hzero]
      exact Writes.nil
    · obtain ⟨d, left, hd, hstep, hleft, hlowLeft, hhighLeft⟩ := digitStep_eq hroom hlow hhigh
      have hnext : (2 : ℤ) ^ (s.guard + 1) ∣ hlaws.val left := by
        rw [hleft]
        refine dvd_sub ?_ ?_
        · rw [pow_succ]
          exact mul_dvd_mul hdvd (by norm_num)
        · exact Dvd.dvd.mul_left (pow_dvd_pow 2 (by omega)) _
      obtain ⟨digits, hdigits, hlength, hrun⟩ := ih
        (s := ⟨s.out ++ [d.digitChar], left, s.guard + 1⟩) hlowLeft hhighLeft
        (by change s.guard + 1 + passes = frac; omega) hnext
      have hcontinue : s.fracRaw ≠ WideInt.zero ∧ s.guard ≤ frac :=
        ⟨(ne_zero_iff s.fracRaw).mpr hzero, by omega⟩
      rw [hleft] at hdigits
      refine ⟨d.digitChar :: digits, hdigits.cons hd hzero, Nat.succ_le_succ hlength, ?_⟩
      rw [digitLoop, if_pos hcontinue, hstep, pure_bind, hrun, append_assoc,
        length_cons, Nat.add_assoc, Nat.add_comm 1]
      rfl

end Loop

/-! ## The text -/

/-- A text writes the exact value of a raw integer, without a zero at its end. -/
structure ExactText (frac : ℕ) (raw : ℤ) (text : Str) : Prop where
  value : decimalValue text = some ((raw : ℚ) / 2 ^ frac)
  length : (fractionDigits text).length ≤ frac
  last : (fractionDigits text).getLast? ≠ some '0'

/-- The integer part without a point, or with one and some digits. -/
def withFraction (whole digits : Str) : Str :=
  if digits = [] then whole else whole ++ '.' :: digits

/-- A sign, an integer part and the digits of a fraction write their value. -/
theorem exactText_of_parts {frac whole : ℕ} {raw rest : ℤ} {digits : Str}
    (habs : |raw| = whole * 2 ^ frac + rest) (hdigits : Writes frac rest digits)
    (hlength : digits.length ≤ frac) :
    ExactText frac raw
      (withFraction ((if decide (raw < 0) then ['-'] else []) ++ decimal whole) digits) := by
  have hpoint := point_notMem_sign (decide (raw < 0)) whole
  have hrational : (|raw| : ℚ) / 2 ^ frac = whole + fractionValue digits := by
    have hcast : (|raw| : ℚ) = whole * 2 ^ frac + rest := by exact_mod_cast habs
    rw [hdigits.value, hcast]
    field_simp
  have hsigned : (if decide (raw < 0) then -((whole : ℚ) + fractionValue digits)
      else whole + fractionValue digits) = raw / 2 ^ frac := by
    rw [← hrational]
    by_cases hneg : raw < 0
    · have hcast : (raw : ℚ) < 0 := by exact_mod_cast hneg
      rw [if_pos (decide_eq_true hneg), abs_of_neg hcast]
      ring
    · have hcast : (0 : ℚ) ≤ raw := by exact_mod_cast not_lt.mp hneg
      rw [if_neg (by rwa [decide_eq_true_iff]), abs_of_nonneg hcast]
  by_cases hnil : digits = []
  · have hsign := decimalValue_sign (decide (raw < 0)) whole []
    rw [hnil, fractionValue_nil, add_zero] at hsigned
    rw [append_nil, unsignedValue_decimal, Option.map_some, hsigned] at hsign
    rw [withFraction, if_pos hnil]
    have hempty := fractionDigits_whole hpoint
    refine ⟨hsign, ?_, ?_⟩
    · rw [hempty]
      exact Nat.zero_le frac
    · rw [hempty]
      exact (Option.some_ne_none _).symm
  · have hsign := decimalValue_sign (decide (raw < 0)) whole ('.' :: digits)
    rw [unsignedValue_point whole ⟨hnil, hdigits.isDigit⟩, Option.map_some, hsigned] at hsign
    rw [withFraction, if_neg hnil]
    have hfraction := fractionDigits_point hpoint digits
    refine ⟨by rw [append_assoc]; exact hsign, ?_, ?_⟩
    · rw [hfraction]
      exact hlength
    · rw [hfraction]
      exact hdigits.last

section Text

variable {w frac : ℕ} (W : Type) {m : Type → Type} [Monad m] [LawfulMonad m] [WideInt W m]
  [FixedStorage w W] [DisplayWide W] [hlaws : LawfulStorage w W m]
  [hdisplay : LawfulDisplay W hlaws.toLawfulWide]

/-- **What is written** is the exact value, and nothing is left. -/
theorem fmtState_eq (hw : 4 ≤ w) (hfrac : frac < w) (x : Fixed w frac) :
    ∃ s : DigitState W, fmtState W x = pure s ∧ s.fracRaw = WideInt.zero ∧ s.guard ≤ frac ∧
      ExactText frac x.raw.toInt s.out := by
  have hunit : (0 : ℤ) < 2 ^ frac := by positivity
  obtain ⟨hlowRaw, hhighRaw⟩ := inRange_toInt x.raw
  have hsquare : (2 : ℤ) ^ (2 * w) = 2 ^ w * 2 ^ w := by rw [two_mul, pow_add]
  have hsixteen : (16 : ℤ) ≤ 2 ^ w := by
    have hpow : (2 : ℤ) ^ 4 ≤ 2 ^ w := pow_le_pow_right₀ (by norm_num) hw
    linarith
  have hhalf : 2 * (2 : ℤ) ^ frac ≤ 2 ^ w := by
    have hpow : (2 : ℤ) ^ (frac + 1) ≤ 2 ^ w := pow_le_pow_right₀ (by norm_num) hfrac
    rwa [pow_succ'] at hpow
  have hwide : 16 * (2 : ℤ) ^ w ≤ 2 ^ (2 * w) := by
    rw [hsquare]
    exact mul_le_mul_of_nonneg_right hsixteen (by positivity)
  have habs : 2 * |x.raw.toInt| ≤ 2 ^ w := by
    rcases abs_cases x.raw.toInt with ⟨heq, -⟩ | ⟨heq, -⟩
    · linarith
    · linarith
  have hnonneg := abs_nonneg x.raw.toInt
  have hval := hlaws.val_toWide x.raw
  obtain ⟨mag, hmag, hvalMag⟩ := wideAbs_eq (toWide x.raw : W)
    (by rw [hval]; exact ⟨by linarith, by linarith⟩)
  rw [hval] at hvalMag
  obtain ⟨whole, hwhole, hvalWhole⟩ := hlaws.shr mag frac
  rw [hvalMag] at hvalWhole
  have hfloor := Int.ediv_mul_le |x.raw.toInt| hunit.ne'
  have hceil := Int.lt_ediv_add_one_mul_self |x.raw.toInt| hunit
  have hwholeNonneg : 0 ≤ |x.raw.toInt| / 2 ^ frac := by positivity
  rw [← hvalWhole] at hfloor hceil hwholeNonneg
  have hscaled : 0 ≤ hlaws.val whole * 2 ^ frac := mul_nonneg hwholeNonneg hunit.le
  obtain ⟨shifted, hshifted, hvalShifted⟩ := hlaws.shl whole frac ⟨by linarith, by linarith⟩
  obtain ⟨rest, hrest, hvalRest⟩ := hlaws.sub mag shifted
    (by rw [hvalMag, hvalShifted]; exact ⟨by linarith, by linarith⟩)
  rw [hvalMag, hvalShifted] at hvalRest
  have hnat : ((hlaws.val whole).natAbs : ℤ) = hlaws.val whole := Int.natAbs_of_nonneg hwholeNonneg
  have hparts : |x.raw.toInt| = (hlaws.val whole).natAbs * 2 ^ frac + hlaws.val rest := by
    rw [hnat, hvalRest]
    ring
  have hformat : DisplayWide.format whole = decimal (hlaws.val whole).natAbs := by
    rw [hdisplay.format_eq, signedDecimal, if_neg (not_lt.mpr hwholeNonneg)]
  have hneg : x.raw.slt 0 = decide (x.raw.toInt < 0) := by
    rw [BitVec.slt, BitVec.ofNat_eq_ofNat, BitVec.toInt_zero]
  rw [fmtState, hmag, pure_bind, hwhole, pure_bind, hshifted, pure_bind, hrest, pure_bind, hformat,
    hneg]
  by_cases hzero : rest = WideInt.zero
  · have hvalZero : hlaws.val rest = 0 := by rw [hzero, hlaws.val_zero]
    rw [hvalZero] at hparts
    have htext := exactText_of_parts hparts Writes.nil (Nat.zero_le frac)
    rw [withFraction, if_pos rfl] at htext
    refine ⟨_, if_neg (not_not_intro hzero), hzero, Nat.zero_le frac, htext⟩
  · have hlow : 0 ≤ hlaws.val rest := by linarith
    have hhigh : hlaws.val rest < 2 ^ frac := by linarith
    obtain ⟨digits, hdigits, hlength, hrun⟩ := digitLoop_eq (by linarith) frac
      (s := ⟨(if decide (x.raw.toInt < 0) then ['-'] else []) ++
        decimal (hlaws.val whole).natAbs ++ ['.'], rest, 0⟩)
      hlow hhigh (Nat.zero_add frac) (by exact one_dvd _)
    have htext := exactText_of_parts hparts hdigits hlength
    have hne := hdigits.ne_nil ((ne_zero_iff rest).mp hzero)
    rw [withFraction, if_neg hne] at htext
    refine ⟨_, (if_pos hzero).trans hrun, rfl, ?_, ?_⟩
    · change 0 + digits.length ≤ frac
      rwa [Nat.zero_add]
    · change ExactText _ _ (_ ++ ['.'] ++ digits)
      rw [append_assoc, singleton_append]
      exact htext

/-- **Decimal formatting is exact** for every width of at least four bits: the literal has the value
of the number, at most as many digits after the point as there are fraction bits, and no zero at its
end.  The digit loop ends with nothing left before its guard does, and different numbers are written
differently. -/
theorem fmt_exact (hw : 4 ≤ w) (hfrac : frac < w) : ∃ text : Fixed w frac → Str,
    (∀ x, fmt W x = pure (text x)) ∧ Function.Injective text ∧
      ∀ x, ExactText frac x.raw.toInt (text x) ∧
        ∃ s : DigitState W, fmtState W x = pure s ∧ s.fracRaw = WideInt.zero ∧ s.guard ≤ frac := by
  choose s hs using fun x : Fixed w frac ↦ fmtState_eq W hw hfrac x
  refine ⟨fun x ↦ (s x).out, ?_, ?_, ?_⟩
  · intro x
    rw [fmt, (hs x).1, pure_bind]
  · intro x y heq
    have hx := (hs x).2.2.2.value
    have hy := (hs y).2.2.2.value
    change (s x).out = (s y).out at heq
    rw [heq, hy, Option.some_inj, div_left_inj' (pow_ne_zero frac two_ne_zero)] at hx
    cases x
    cases y
    exact congrArg Fixed.mk (BitVec.eq_of_toInt_eq (by exact_mod_cast hx.symm))
  · intro x
    exact ⟨(hs x).2.2.2, s x, (hs x).1, (hs x).2.1, (hs x).2.2.1⟩

theorem fmt_exact_words :
    (∃ text : Fixed 32 31 → Str, (∀ x, fmt (m := Id) (BitVec (2 * 32)) x = text x) ∧
      Function.Injective text) ∧
    ∃ text : Fixed 64 63 → Str, (∀ x, fmt (m := Option) (Exact (2 * 64)) x = some (text x)) ∧
      Function.Injective text := by
  have hnarrow := @fmt_exact 32 31 (BitVec (2 * 32)) Id _ _ _ _ _ _ _ (by decide) (by decide)
  have hwide := @fmt_exact 64 63 (Exact (2 * 64)) Option _ _ _ _ _ _ _ (by decide) (by decide)
  obtain ⟨text, htext, hinjective, -⟩ := hnarrow
  obtain ⟨wideText, hwideText, hwideInjective, -⟩ := hwide
  exact ⟨⟨text, htext, hinjective⟩, wideText, hwideText, hwideInjective⟩

/-- The smallest number with 31 fraction bits, and three eighths below zero. -/
example :
    fmt (m := Option) (Exact (2 * 32)) (⟨BitVec.intMin 32⟩ : Fixed 32 31) = some "-1".toList ∧
      fmt (m := Option) (Exact (2 * 32)) (⟨-3⟩ : Fixed 32 3) = some "-0.375".toList := by
  decide +kernel

end Text

end Fixed

end SoulSystem.Scirust
