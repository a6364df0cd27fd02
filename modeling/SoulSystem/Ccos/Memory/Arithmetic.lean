import SoulSystem.Library.Rounding
import SoulSystem.Ccos.Memory.Graph

/-!
# Arithmetic on 64-bit floats

Sums, products and quotients are rounded to the nearest float.  A zero has no sign here, so a
division by zero takes the sign of what is divided.

Products of numbers between zero and one stay there, and stay below a representable bound that the
exact product does not exceed.
-/

namespace SoulSystem.Ccos.Memory

open Library

namespace F64

/-- The float of a rational. -/
def ofRat (q : ℚ) : F64 :=
  let rounded := Binary64.round q
  if Binary64.limit ≤ |rounded| then .infinite (decide (rounded < 0)) else .finite rounded

def add : F64 → F64 → F64
  | .finite a, .finite b => ofRat (a + b)
  | .infinite s, .infinite t => if s = t then .infinite s else .nan
  | .infinite s, .finite _ | .finite _, .infinite s => .infinite s
  | .nan, _ | .finite _, .nan | .infinite _, .nan => .nan

def mul : F64 → F64 → F64
  | .finite a, .finite b => ofRat (a * b)
  | .infinite s, .infinite t => .infinite (s != t)
  | .infinite s, .finite a | .finite a, .infinite s =>
    if a = 0 then .nan else .infinite (s != decide (a < 0))
  | .nan, _ | .finite _, .nan | .infinite _, .nan => .nan

def div : F64 → F64 → F64
  | .finite a, .finite b =>
    if b = 0 then if a = 0 then .nan else .infinite (decide (a < 0)) else ofRat (a / b)
  | .finite _, .infinite _ => .finite 0
  | .infinite s, .finite b => .infinite (s != decide (b < 0))
  | .infinite _, .infinite _ => .nan
  | .nan, _ | .finite _, .nan | .infinite _, .nan => .nan

def lt : F64 → F64 → Bool
  | .finite a, .finite b => decide (a < b)
  | .finite _, .infinite t => !t
  | .infinite s, .finite _ => s
  | .infinite s, .infinite t => s && !t
  | .nan, _ | .finite _, .nan | .infinite _, .nan => false

/-- `f64::max`: of a NaN and a number the number. -/
def max (a b : F64) : F64 :=
  if a = .nan then b else if a.lt b then b else a

/-- `f64::min`: of a NaN and a number the number. -/
def min (a b : F64) : F64 :=
  if a = .nan then b else if b.lt a then b else a

def abs : F64 → F64
  | .finite a => .finite |a|
  | .infinite _ => .infinite false
  | .nan => .nan

/-- `f64::clamp`: a NaN stays one. -/
def clamp (x low high : F64) : F64 :=
  if x.lt low then low else if high.lt x then high else x

/-- Repeated squaring, with the product so far, the square that is next and the bits that
are left. -/
def powLoop : ℕ → F64 → F64 → ℕ → F64
  | 0, product, _, _ => product
  | fuel + 1, product, square, bits =>
    let product := if bits % 2 = 1 then product.mul square else product
    if bits / 2 = 0 then product else powLoop fuel product (square.mul square) (bits / 2)

/-- `f64::powi`. -/
def powi (a : F64) (n : ℤ) : F64 :=
  let power := powLoop 32 (.finite 1) a n.natAbs
  if n < 0 then div (.finite 1) power else power

/-! ## Bounds -/

/-- Between zero and a bound. -/
def Within (bound : ℚ) : F64 → Prop
  | .finite value => 0 ≤ value ∧ value ≤ bound
  | .nan | .infinite _ => False

instance (bound : ℚ) (x : F64) : Decidable (x.Within bound) :=
  match x with
  | .finite value => inferInstanceAs (Decidable (0 ≤ value ∧ value ≤ bound))
  | .nan | .infinite _ => isFalse id

abbrev InUnit (x : F64) : Prop := x.Within 1

/-- A bound that rounding keeps. -/
structure Sharp (bound : ℚ) : Prop where
  representable : Binary64.Representable bound
  le_one : bound ≤ 1

theorem sharp_one : Sharp 1 where
  representable := by
    simpa using Binary64.representable_dyadic (show 1 < 2 ^ 53 by norm_num) (Nat.zero_le 1074)
  le_one := le_rfl

variable {a b : F64} {bound bound' : ℚ}

theorem Within.mono (ha : a.Within bound) (hle : bound ≤ bound') : a.Within bound' := by
  cases a with
  | nan => cases ha
  | infinite => cases ha
  | finite value => exact ⟨ha.1, ha.2.trans hle⟩

theorem Within.ne_nan (ha : a.Within bound) : a ≠ .nan := by
  rintro rfl
  exact ha

theorem within_ofRat {q : ℚ} (hsharp : Sharp bound) (hq : 0 ≤ q) (hle : q ≤ bound) :
    (ofRat q).Within bound := by
  have hlow := Binary64.round_nonneg hq
  have hhigh := Binary64.round_le hq hle hsharp.representable
  have hlimit : (1 : ℚ) < Binary64.limit := one_lt_zpow₀ one_lt_two (by norm_num)
  have hfinite : ¬ Binary64.limit ≤ |Binary64.round q| := by
    rw [abs_of_nonneg hlow, not_le]
    exact (hhigh.trans hsharp.le_one).trans_lt hlimit
  rw [ofRat, if_neg hfinite]
  exact ⟨hlow, hhigh⟩

/-- A product is bounded by the product of the bounds. -/
theorem Within.mul (ha : a.Within bound) (hb : b.Within bound') (hsharp : Sharp (bound * bound')) :
    (a.mul b).Within (bound * bound') := by
  cases a with
  | nan => cases ha
  | infinite => cases ha
  | finite x =>
    cases b with
    | nan => cases hb
    | infinite => cases hb
    | finite y =>
      apply within_ofRat hsharp (mul_nonneg ha.1 hb.1)
      exact mul_le_mul ha.2 hb.2 hb.1 (ha.1.trans ha.2)

theorem InUnit.mul (ha : a.InUnit) (hb : b.Within bound) (hsharp : Sharp bound) :
    (a.mul b).Within bound := by
  have hproduct := Within.mul ha hb (by rwa [one_mul])
  rwa [one_mul] at hproduct

theorem Within.mul_unit (ha : a.Within bound) (hb : b.InUnit) (hsharp : Sharp bound) :
    (a.mul b).Within bound := by
  have hproduct := Within.mul ha hb (by rwa [mul_one])
  rwa [mul_one] at hproduct

theorem inUnit_powLoop (fuel : ℕ) {product square : F64} (hproduct : product.InUnit)
    (hsquare : square.InUnit) (bits : ℕ) : (powLoop fuel product square bits).InUnit := by
  induction fuel generalizing product square bits with
  | zero => exact hproduct
  | succ fuel ih =>
    have hnext : (if bits % 2 = 1 then product.mul square else product).InUnit := by
      split
      · exact hproduct.mul hsquare sharp_one
      · exact hproduct
    rw [powLoop]
    split
    · exact hnext
    · exact ih hnext (hsquare.mul hsquare sharp_one) _

theorem inUnit_powi {n : ℕ} (ha : a.InUnit) : (powi a n).InUnit := by
  rw [powi, if_neg (not_lt.mpr (Int.natCast_nonneg n))]
  exact inUnit_powLoop 32 (by decide) ha _

/-- The eighth power is squared three times. -/
theorem powi_eight : powi a 8 =
    mul (.finite 1) (((a.mul a).mul (a.mul a)).mul ((a.mul a).mul (a.mul a))) := rfl

/-- At least a number, or infinite. -/
def AtLeast (low : ℚ) (x : F64) : Prop :=
  x = .infinite false ∨ ∃ value, x = .finite value ∧ low ≤ value

theorem atLeast_ofRat {q : ℚ} (hq : 0 ≤ q) : (ofRat q).AtLeast 0 := by
  have hlow := Binary64.round_nonneg hq
  unfold ofRat
  simp only []
  split
  · rw [decide_eq_false (not_lt.mpr hlow)]
    exact .inl rfl
  · exact .inr ⟨_, rfl, hlow⟩

theorem AtLeast.max (ha : a.AtLeast 0) (low : ℚ) : (max a (.finite low)).AtLeast low := by
  rcases ha with rfl | ⟨value, rfl, -⟩
  · exact .inl rfl
  · by_cases hlt : value < low
    · have hmax : F64.max (.finite value) (.finite low) = .finite low := by
        simp [F64.max, lt, hlt]
      rw [hmax]
      exact .inr ⟨low, rfl, le_rfl⟩
    · have hmax : F64.max (.finite value) (.finite low) = .finite value := by
        simp [F64.max, lt, hlt]
      rw [hmax]
      exact .inr ⟨value, rfl, not_lt.mp hlt⟩

/-- A positive number over one that is not smaller. -/
theorem AtLeast.inUnit_div {q : ℚ} (hq : 0 < q) (hb : b.AtLeast q) :
    (div (.finite q) b).InUnit := by
  rcases hb with rfl | ⟨r, rfl, hr⟩
  · exact ⟨le_rfl, zero_le_one⟩
  · have hpos : 0 < r := hq.trans_le hr
    rw [div, if_neg hpos.ne']
    exact within_ofRat sharp_one (div_nonneg hq.le hpos.le) ((div_le_one hpos).mpr hr)

theorem inUnit_min_one (ha : a.InUnit) : (min a (.finite 1)).InUnit := by
  rw [min, if_neg ha.ne_nan]
  split
  · exact ⟨zero_le_one, le_rfl⟩
  · exact ha

theorem Within.add_ne_nan (ha : a.Within bound) (hb : b.Within bound') : a.add b ≠ .nan := by
  cases a with
  | nan => cases ha
  | infinite => cases ha
  | finite x =>
    cases b with
    | nan => cases hb
    | infinite => cases hb
    | finite y =>
      unfold add ofRat
      simp only []
      split
      · exact F64.noConfusion
      · exact F64.noConfusion

end F64

end SoulSystem.Ccos.Memory
