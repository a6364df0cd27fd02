import SoulSystem.Library.TextSlices

/-!
# Decimal literals

A decimal literal is a numeral, perhaps with a sign before it and with a point and a second numeral
after it.  Its value is a rational.  The numeral after the point may be read digit by digit: what
each digit leaves is ten times smaller.
-/

namespace SoulSystem.Library.Str

/-! ## Values -/

/-- A non-empty text of digits. -/
def IsNumeral (text : Str) : Prop := text ≠ [] ∧ ∀ c ∈ text, c.isDigit

instance : DecidablePred IsNumeral := fun text ↦
  inferInstanceAs (Decidable (text ≠ [] ∧ ∀ c ∈ text, c.isDigit))

/-- The value of the digits after a point. -/
def fractionValue (digits : Str) : ℚ := Nat.ofDigitChars 10 digits 0 / 10 ^ digits.length

/-- The value of a literal without a sign. -/
def unsignedValue (text : Str) : Option ℚ :=
  match splitOnce ['.'] text with
  | none => if IsNumeral text then some (Nat.ofDigitChars 10 text 0) else none
  | some (whole, fraction) =>
    if IsNumeral whole ∧ IsNumeral fraction then
      some (Nat.ofDigitChars 10 whole 0 + fractionValue fraction)
    else
      none

/-- The value of a literal. -/
def decimalValue : Str → Option ℚ
  | '-' :: text => (unsignedValue text).map fun value ↦ -value
  | text => unsignedValue text

/-- The digits after the point. -/
def fractionDigits (text : Str) : Str := ((splitOnce ['.'] text).map Prod.snd).getD []

/-- An integer as it is formatted. -/
def signedDecimal (value : ℤ) : Str :=
  if value < 0 then '-' :: decimal value.natAbs else decimal value.natAbs

/-! ## Digit by digit -/

theorem fractionValue_nil : fractionValue [] = 0 := by
  rw [fractionValue, Nat.ofDigitChars_nil, Nat.cast_zero, zero_div]

theorem fractionValue_cons {d : ℕ} (hd : d < 10) (digits : Str) :
    fractionValue (d.digitChar :: digits) = (d + fractionValue digits) / 10 := by
  have hvalue : Nat.ofDigitChars 10 (d.digitChar :: digits) 0 =
      10 ^ digits.length * d + Nat.ofDigitChars 10 digits 0 := by
    rw [Nat.ofDigitChars_cons_digitChar_of_lt_ten hd, Nat.mul_zero, Nat.zero_add,
      Nat.ofDigitChars_eq_ofDigitChars_zero]
  rw [fractionValue, fractionValue, hvalue, List.length_cons]
  push_cast
  field_simp
  ring

theorem decimal_of_lt_ten {d : ℕ} (hd : d < 10) : decimal d = [d.digitChar] :=
  Nat.toDigits_of_lt_base hd

theorem digitChar_ne_zero {d : ℕ} (hd : d < 10) (hne : d ≠ 0) : d.digitChar ≠ '0' := by
  interval_cases d
  · exact absurd rfl hne
  all_goals decide

/-! ## Literals from their parts -/

theorem isNumeral_decimal (n : ℕ) : IsNumeral (decimal n) :=
  ⟨Nat.toDigits_ne_nil, fun _ hc ↦ Nat.isDigit_of_mem_toDigits (by decide) (by decide) hc⟩

theorem splitOnce_whole {whole : Str} (hpoint : '.' ∉ whole) : splitOnce ['.'] whole = none := by
  have hnone : splitOnce ['.'] (whole ++ []) = none := splitOnce_append_of_notMem hpoint
  rw [List.append_nil] at hnone
  exact hnone

theorem splitOnce_point {whole : Str} (hpoint : '.' ∉ whole) (fraction : Str) :
    splitOnce ['.'] (whole ++ '.' :: fraction) = some (whole, fraction) := by
  have hself : splitOnce ['.'] ('.' :: fraction) = some ([], fraction) := splitOnce_self
  rw [splitOnce_append_of_notMem hpoint, hself, Option.map_some, List.append_nil]

theorem unsignedValue_decimal (n : ℕ) : unsignedValue (decimal n) = some (n : ℚ) := by
  rw [unsignedValue, splitOnce_whole (not_mem_decimal (by decide) n)]
  change (if IsNumeral (decimal n) then _ else _) = _
  rw [if_pos (isNumeral_decimal n), decimal, Nat.ofDigitChars_ten_toDigits]

theorem unsignedValue_point (n : ℕ) {fraction : Str} (hfraction : IsNumeral fraction) :
    unsignedValue (decimal n ++ '.' :: fraction) = some (n + fractionValue fraction) := by
  rw [unsignedValue, splitOnce_point (not_mem_decimal (by decide) n)]
  change (if IsNumeral (decimal n) ∧ IsNumeral fraction then _ else _) = _
  rw [if_pos ⟨isNumeral_decimal n, hfraction⟩, decimal, Nat.ofDigitChars_ten_toDigits]

/-- A sign before a text that starts with a number. -/
theorem decimalValue_sign (negative : Bool) (n : ℕ) (rest : Str) :
    decimalValue ((if negative then ['-'] else []) ++ (decimal n ++ rest)) =
      (unsignedValue (decimal n ++ rest)).map fun value ↦ if negative then -value else value := by
  cases negative with
  | true => rfl
  | false =>
    have hsign := not_mem_decimal (c := '-') (by decide) n
    have hne := (isNumeral_decimal n).1
    cases htext : decimal n with
    | nil => exact absurd htext hne
    | cons c digits =>
      rw [htext] at hsign
      have hc : c ≠ '-' := fun heq ↦ hsign (heq ▸ List.mem_cons_self)
      have hunsigned : decimalValue (c :: (digits ++ rest)) =
          unsignedValue (c :: (digits ++ rest)) := by
        unfold decimalValue
        split
        · rename_i heq
          exact absurd (List.cons.inj heq).1 hc
        · rfl
      exact hunsigned.trans Option.map_id'.symm

theorem point_notMem_sign (negative : Bool) (n : ℕ) :
    '.' ∉ (if negative then ['-'] else []) ++ decimal n := by
  intro hmem
  rcases List.mem_append.mp hmem with hsign | hdigit
  · cases negative with
    | true => exact absurd (List.mem_singleton.mp hsign) (by decide)
    | false => cases hsign
  · exact not_mem_decimal (by decide) n hdigit

theorem fractionDigits_whole {whole : Str} (hpoint : '.' ∉ whole) : fractionDigits whole = [] := by
  rw [fractionDigits, splitOnce_whole hpoint]
  rfl

theorem fractionDigits_point {whole : Str} (hpoint : '.' ∉ whole) (fraction : Str) :
    fractionDigits (whole ++ '.' :: fraction) = fraction := by
  rw [fractionDigits, splitOnce_point hpoint]
  rfl

end SoulSystem.Library.Str
