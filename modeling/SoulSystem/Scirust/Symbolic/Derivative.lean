import SoulSystem.Scirust.Symbolic.Expr

/-!
# Symbolic and dual derivatives

An expression is differentiated by rules on its tree, or by evaluating it in dual numbers, whose
tangents are carried along.  The rules fold constants and so may drop an operand, but only one that
is multiplied by zero, whatever its own value is.

A power is differentiated by the rule for constant exponents if its exponent is a constant in the
one case, and if the tangent of its exponent is zero in the other.  Both rules agree where both can
be applied.
-/

namespace SoulSystem.Scirust.Symbolic

open Library Outcome

/-! ## Rules on trees -/

section Derivative

variable {F : Type} [Field F] [LinearOrder F]

def diff (x : Str) : Expr F → Expr F
  | .const _ => .const 0
  | .var v => if v = x then .const 1 else .const 0
  | .add a b => diff x a + diff x b
  | .sub a b => diff x a - diff x b
  | .mul a b => diff x a * b + a * diff x b
  | .div a b => (diff x a * b - a * diff x b) / .pow b (.const 2)
  | .neg a => -diff x a
  | .pow a (.const n) => .const n * .pow a (.const (n - 1)) * diff x a
  | .pow a b => .mul (.pow a b) (diff x b * .ln a + b * diff x a / a)
  | .sin a => .mul (.cos a) (diff x a)
  | .cos a => .mul (.neg (.sin a)) (diff x a)
  | .exp a => .mul (.exp a) (diff x a)
  | .ln a => .div (diff x a) a
  | .sqrt a => .div (diff x a) (.mul (.const 2) (.sqrt a))
  | .abs a => .mul (.div a (.abs a)) (diff x a)

theorem diff_pow {x : Str} {a b : Expr F} (hb : ∀ n, b ≠ .const n) :
    diff x (.pow a b) = .mul (.pow a b) (diff x b * .ln a + b * diff x a / a) := by
  cases b with
  | const n => exact absurd rfl (hb n)
  | _ => rfl

/-! ## Dual numbers -/

/-- A value and the derivative that is carried along. -/
structure Dual (F : Type) where
  primal : F
  tangent : F

namespace Dual

variable (f : Functions F) (overZero : F → F)

/-- What a quotient by zero is, which is no number of the field, is left open. -/
def quotient (a b : F) : F := if b = 0 then overZero a else a / b

def ofPrimal (c : F) : Dual F := ⟨c, 0⟩

def ofVar (v : F) : Dual F := ⟨v, 1⟩

def signum (x : F) : F := if x < 0 then -1 else 1

def sin (a : Dual F) : Dual F := ⟨f.sin a.primal, f.cos a.primal * a.tangent⟩

def cos (a : Dual F) : Dual F := ⟨f.cos a.primal, -f.sin a.primal * a.tangent⟩

def exp (a : Dual F) : Dual F := ⟨f.exp a.primal, f.exp a.primal * a.tangent⟩

def ln (a : Dual F) : Dual F := ⟨f.ln a.primal, quotient overZero a.tangent a.primal⟩

def sqrt (a : Dual F) : Dual F :=
  ⟨f.sqrt a.primal, quotient overZero a.tangent (2 * f.sqrt a.primal)⟩

def abs (a : Dual F) : Dual F := ⟨|a.primal|, signum a.primal * a.tangent⟩

def powf (a b : Dual F) : Dual F :=
  let v := f.powf a.primal b.primal
  ⟨v, if b.tangent = 0 then b.primal * f.powf a.primal (b.primal - 1) * a.tangent
    else v * (b.tangent * f.ln a.primal + quotient overZero (b.primal * a.tangent) a.primal)⟩

def add (a b : Dual F) : Dual F := ⟨a.primal + b.primal, a.tangent + b.tangent⟩

def sub (a b : Dual F) : Dual F := ⟨a.primal - b.primal, a.tangent - b.tangent⟩

def mul (a b : Dual F) : Dual F :=
  ⟨a.primal * b.primal, a.primal * b.tangent + a.tangent * b.primal⟩

def div (a b : Dual F) : Dual F :=
  ⟨quotient overZero a.primal b.primal,
    quotient overZero (a.tangent * b.primal - a.primal * b.tangent) (b.primal * b.primal)⟩

def neg (a : Dual F) : Dual F := ⟨-a.primal, -a.tangent⟩

end Dual

variable (f : Functions F) (overZero : F → F) (x : Str) (vars : Str → Option F)

/-- An expression in dual numbers, of which one variable has a tangent. -/
def evalDual : Expr F → Option (Dual F)
  | .const c => some (.ofPrimal c)
  | .var v => (vars v).map fun value ↦ if v = x then .ofVar value else .ofPrimal value
  | .add a b => do return .add (← evalDual a) (← evalDual b)
  | .sub a b => do return .sub (← evalDual a) (← evalDual b)
  | .mul a b => do return .mul (← evalDual a) (← evalDual b)
  | .div a b => do return .div overZero (← evalDual a) (← evalDual b)
  | .neg a => do return .neg (← evalDual a)
  | .pow a b => do return .powf f overZero (← evalDual a) (← evalDual b)
  | .sin a => do return .sin f (← evalDual a)
  | .cos a => do return .cos f (← evalDual a)
  | .exp a => do return .exp f (← evalDual a)
  | .ln a => do return .ln f overZero (← evalDual a)
  | .sqrt a => do return .sqrt f overZero (← evalDual a)
  | .abs a => do return .abs (← evalDual a)

/-- If an expression has a value, it is this one. -/
def ValueIs (e : Expr F) (u : F) : Prop := ∀ v, eval f vars e = .ok v → v = u

variable {f overZero x vars} {a b : Expr F} {u w : F}

theorem ValueIs.of_eval (hu : eval f vars a = .ok u) : ValueIs f vars a u :=
  fun _ hv ↦ Except.ok.inj (hv.symm.trans hu)

theorem ValueIs.add (ha : ValueIs f vars a u) (hb : ValueIs f vars b w) :
    ValueIs f vars (a + b) (u + w) := by
  intro v hv
  rw [eval_plus] at hv
  obtain ⟨p, hp, q, hq, hvalue⟩ := eval_add_eq_ok.mp hv
  rw [hvalue, ha p hp, hb q hq]

theorem ValueIs.sub (ha : ValueIs f vars a u) (hb : ValueIs f vars b w) :
    ValueIs f vars (a - b) (u - w) := by
  intro v hv
  rw [eval_minus] at hv
  obtain ⟨p, hp, q, hq, hvalue⟩ := eval_sub_eq_ok.mp hv
  rw [hvalue, ha p hp, hb q hq]

theorem ValueIs.neg (ha : ValueIs f vars a u) : ValueIs f vars (-a) (-u) := by
  intro v hv
  rw [eval_negated] at hv
  obtain ⟨p, hp, hvalue⟩ := eval_neg_eq_ok.mp hv
  rw [hvalue, ha p hp]

theorem ValueIs.product (ha : ValueIs f vars a u) (hb : ValueIs f vars b w) :
    ValueIs f vars (.mul a b) (u * w) := by
  intro v hv
  obtain ⟨p, hp, q, hq, hvalue⟩ := eval_mul_eq_ok.mp hv
  rw [hvalue, ha p hp, hb q hq]

/-- A factor that is dropped is multiplied by zero. -/
theorem ValueIs.mul (ha : ValueIs f vars a u) (hb : ValueIs f vars b w) :
    ValueIs f vars (a * b) (u * w) := by
  intro v hv
  rcases of_eval_times hv with ⟨rfl | rfl, hzero⟩ | hproduct
  · rw [hzero, ← ha 0 rfl, zero_mul]
  · rw [hzero, ← hb 0 rfl, mul_zero]
  · exact ha.product hb v hproduct

theorem ValueIs.div (ha : ValueIs f vars a u) (hb : ValueIs f vars b w) :
    ValueIs f vars (a / b) (u / w) := by
  intro v hv
  rcases of_eval_dividedBy hv with ⟨rfl, hzero⟩ | hquotient
  · rw [hzero, ← ha 0 rfl, zero_div]
  · obtain ⟨q, hq, -, p, hp, hvalue⟩ := eval_div_eq_ok.mp hquotient
    rw [hvalue, ha p hp, hb q hq]

theorem Dual.quotient_of_ne {u w : F} (hw : w ≠ 0) : Dual.quotient overZero u w = u / w :=
  if_neg hw

theorem ValueIs.ln (ha : ValueIs f vars a u) : ValueIs f vars (.ln a) (f.ln u) := by
  intro v hv
  obtain ⟨p, hp, -, hvalue⟩ := eval_ln_eq_ok.mp hv
  rw [hvalue, ha p hp]

/-! ## The rules agree -/

/-- Squares are products, and a power of a number other than zero comes from the one below it. -/
structure PowerRules (f : Functions F) : Prop where
  powf_two : ∀ x, f.powf x 2 = x * x
  powf_step : ∀ x y, x ≠ 0 → f.powf x y = f.powf x (y - 1) * x

variable {p q s t : F}

/-- The rule for a quotient, whose denominator is squared as a power. -/
theorem ValueIs.quotient (hf : PowerRules f) (hb : eval f vars b = .ok q) (hq : q ≠ 0)
    (ha : ValueIs f vars a u) :
    ValueIs f vars (a / .pow b (.const 2)) (Dual.quotient overZero u (q * q)) := by
  have hsquare : ValueIs f vars (.pow b (.const 2)) (q * q) := by
    intro v hv
    obtain ⟨q', hq', y, hy, hvalue⟩ := eval_pow_eq_ok.mp hv
    rw [hvalue, ← Except.ok.inj hy, hf.powf_two, ← Except.ok.inj (hb.symm.trans hq')]
  rw [Dual.quotient_of_ne (mul_ne_zero hq hq)]
  exact ha.div hsquare

/-- The general rule for a power. -/
theorem ValueIs.power (hf : PowerRules f) {da db : Expr F} (ha : eval f vars a = .ok p)
    (hb : eval f vars b = .ok q) (hda : ValueIs f vars da s) (hdb : ValueIs f vars db t) :
    ValueIs f vars (.mul (.pow a b) (db * .ln a + b * da / a))
      (Dual.powf f overZero ⟨p, s⟩ ⟨q, t⟩).tangent := by
  intro d hd
  obtain ⟨v, hv, sum, hsum, hvalue⟩ := eval_mul_eq_ok.mp hd
  obtain ⟨p', hp', q', hq', hpower⟩ := eval_pow_eq_ok.mp hv
  rw [eval_plus] at hsum
  obtain ⟨first, hfirst, second, hsecond, hparts⟩ := eval_add_eq_ok.mp hsum
  have hproduct : ValueIs f vars (b * da) (q * s) := (ValueIs.of_eval hb).mul hda
  have hfirstValue : first = t * f.ln p := (hdb.mul (ValueIs.of_eval ha).ln) first hfirst
  have hsecondValue : second = q * s / p := (hproduct.div (ValueIs.of_eval ha)) second hsecond
  have hpv : v = f.powf p q := by
    rw [hpower, Except.ok.inj (hp'.symm.trans ha), Except.ok.inj (hq'.symm.trans hb)]
  have hpositive : t ≠ 0 → 0 < p := by
    intro ht
    rcases of_eval_times hfirst with ⟨rfl | hln, -⟩ | hboth
    · exact absurd (hdb 0 rfl).symm ht
    · exact nomatch hln
    · obtain ⟨-, -, l, hl, -⟩ := eval_mul_eq_ok.mp hboth
      obtain ⟨p'', hp'', hpos, -⟩ := eval_ln_eq_ok.mp hl
      rwa [Except.ok.inj (hp''.symm.trans ha)] at hpos
  have hvanishes : p = 0 → q * s = 0 := by
    intro hzero
    rcases of_eval_dividedBy hsecond with ⟨heq, -⟩ | hquotient
    · exact (hproduct 0 (by rw [heq, eval])).symm
    · obtain ⟨p'', hp'', hne, -⟩ := eval_div_eq_ok.mp hquotient
      exact absurd ((Except.ok.inj (hp''.symm.trans ha)).trans hzero) hne
  rw [hvalue, hparts, hfirstValue, hsecondValue, hpv]
  change f.powf p q * (t * f.ln p + q * s / p) = if t = 0 then q * f.powf p (q - 1) * s
    else f.powf p q * (t * f.ln p + Dual.quotient overZero (q * s) p)
  by_cases ht : t = 0
  · rw [if_pos ht, ht, zero_mul, zero_add, mul_right_comm]
    by_cases hp : p = 0
    · rw [hvanishes hp, zero_div, mul_zero, zero_mul]
    · rw [hf.powf_step p q hp, mul_assoc, mul_div_cancel₀ _ hp, mul_comm]
  · rw [if_neg ht, Dual.quotient_of_ne (hpositive ht).ne']

/-- The sign of a number is its quotient by its absolute value. -/
theorem div_abs_self [IsStrictOrderedRing F] (hp : |p| ≠ 0) : p / |p| = Dual.signum p := by
  rw [Dual.signum]
  split_ifs with hneg
  · rw [abs_of_neg hneg, div_neg, div_self hneg.ne]
  · have hne : p ≠ 0 := abs_ne_zero.mp hp
    rw [abs_of_nonneg (not_lt.mp hneg), div_self hne]

/-- The tangent of an expression with a value is the value of its derivative, if this has one. -/
theorem exists_tangent [IsStrictOrderedRing F] (hf : PowerRules f) {e : Expr F} {v : F}
    (hv : eval f vars e = .ok v) :
    ∃ t, evalDual f overZero x vars e = some ⟨v, t⟩ ∧ ValueIs f vars (diff x e) t := by
  induction e generalizing v with
  | const c =>
    rw [← Except.ok.inj hv]
    exact ⟨0, rfl, .of_eval rfl⟩
  | var y =>
    have hy : vars y = some v := eval_var_eq_ok.mp hv
    rw [evalDual, hy, diff]
    by_cases hyx : y = x
    · rw [if_pos hyx]
      exact ⟨1, congrArg some (if_pos hyx), .of_eval rfl⟩
    · rw [if_neg hyx]
      exact ⟨0, congrArg some (if_neg hyx), .of_eval rfl⟩
  | add a b iha ihb =>
    obtain ⟨p, hp, q, hq, rfl⟩ := eval_add_eq_ok.mp hv
    obtain ⟨s, ha, hs⟩ := iha hp
    obtain ⟨t, hb, ht⟩ := ihb hq
    refine ⟨s + t, ?_, hs.add ht⟩
    rw [evalDual, ha, hb]
    rfl
  | sub a b iha ihb =>
    obtain ⟨p, hp, q, hq, rfl⟩ := eval_sub_eq_ok.mp hv
    obtain ⟨s, ha, hs⟩ := iha hp
    obtain ⟨t, hb, ht⟩ := ihb hq
    refine ⟨s - t, ?_, hs.sub ht⟩
    rw [evalDual, ha, hb]
    rfl
  | mul a b iha ihb =>
    obtain ⟨p, hp, q, hq, rfl⟩ := eval_mul_eq_ok.mp hv
    obtain ⟨s, ha, hs⟩ := iha hp
    obtain ⟨t, hb, ht⟩ := ihb hq
    refine ⟨p * t + s * q, ?_, ?_⟩
    · rw [evalDual, ha, hb]
      rfl
    · rw [add_comm, diff]
      exact (hs.mul (.of_eval hq)).add ((ValueIs.of_eval hp).mul ht)
  | div a b iha ihb =>
    obtain ⟨q, hq, hne, p, hp, rfl⟩ := eval_div_eq_ok.mp hv
    obtain ⟨s, ha, hs⟩ := iha hp
    obtain ⟨t, hb, ht⟩ := ihb hq
    refine ⟨Dual.quotient overZero (s * q - p * t) (q * q), ?_, ?_⟩
    · have hquotient : Dual.quotient overZero p q = p / q := Dual.quotient_of_ne hne
      rw [evalDual, ha, hb, ← hquotient]
      rfl
    · exact .quotient hf hq hne ((hs.mul (.of_eval hq)).sub ((ValueIs.of_eval hp).mul ht))
  | neg a iha =>
    obtain ⟨p, hp, rfl⟩ := eval_neg_eq_ok.mp hv
    obtain ⟨s, ha, hs⟩ := iha hp
    refine ⟨-s, ?_, hs.neg⟩
    rw [evalDual, ha]
    rfl
  | pow a b iha ihb =>
    obtain ⟨p, hp, q, hq, rfl⟩ := eval_pow_eq_ok.mp hv
    obtain ⟨s, ha, hs⟩ := iha hp
    obtain ⟨t, hb, ht⟩ := ihb hq
    refine ⟨(Dual.powf f overZero ⟨p, s⟩ ⟨q, t⟩).tangent, by rw [evalDual, ha, hb]; rfl, ?_⟩
    by_cases hconst : ∃ n, b = .const n
    · obtain ⟨n, rfl⟩ := hconst
      have hn : n = q := Except.ok.inj hq
      have hzero : t = 0 := (ht 0 rfl).symm
      have hpower : ValueIs f vars (.pow a (.const (n - 1))) (f.powf p (n - 1)) :=
        .of_eval (eval_pow_eq_ok.mpr ⟨p, hp, n - 1, rfl, rfl⟩)
      have hrule := ((ValueIs.of_eval (a := .const n) rfl).mul hpower).mul hs
      rwa [Dual.powf, if_pos hzero, ← hn]
    · rw [diff_pow fun n hn ↦ hconst ⟨n, hn⟩]
      exact .power hf hp hq hs ht
  | sin a iha =>
    obtain ⟨p, hp, rfl⟩ := eval_sin_eq_ok.mp hv
    obtain ⟨s, ha, hs⟩ := iha hp
    refine ⟨f.cos p * s, by rw [evalDual, ha]; rfl, ?_⟩
    exact (ValueIs.of_eval (eval_cos_eq_ok.mpr ⟨p, hp, rfl⟩)).product hs
  | cos a iha =>
    obtain ⟨p, hp, rfl⟩ := eval_cos_eq_ok.mp hv
    obtain ⟨s, ha, hs⟩ := iha hp
    refine ⟨-f.sin p * s, by rw [evalDual, ha]; rfl, ?_⟩
    have hsin : eval f vars (.sin a) = .ok (f.sin p) := eval_sin_eq_ok.mpr ⟨p, hp, rfl⟩
    exact (ValueIs.of_eval (eval_neg_eq_ok.mpr ⟨_, hsin, rfl⟩)).product hs
  | exp a iha =>
    obtain ⟨p, hp, rfl⟩ := eval_exp_eq_ok.mp hv
    obtain ⟨s, ha, hs⟩ := iha hp
    refine ⟨f.exp p * s, by rw [evalDual, ha]; rfl, ?_⟩
    exact (ValueIs.of_eval hv).product hs
  | ln a iha =>
    obtain ⟨p, hp, hpos, rfl⟩ := eval_ln_eq_ok.mp hv
    obtain ⟨s, ha, hs⟩ := iha hp
    refine ⟨Dual.quotient overZero s p, by rw [evalDual, ha]; rfl, fun d hd ↦ ?_⟩
    obtain ⟨p', hp', -, s', hs', rfl⟩ := eval_div_eq_ok.mp hd
    rw [Dual.quotient_of_ne hpos.ne', hs s' hs', Except.ok.inj (hp'.symm.trans hp)]
  | sqrt a iha =>
    obtain ⟨p, hp, hnonneg, rfl⟩ := eval_sqrt_eq_ok.mp hv
    obtain ⟨s, ha, hs⟩ := iha hp
    refine ⟨Dual.quotient overZero s (2 * f.sqrt p), by rw [evalDual, ha]; rfl, fun d hd ↦ ?_⟩
    obtain ⟨r, hr, hne, s', hs', rfl⟩ := eval_div_eq_ok.mp hd
    have hroot : r = 2 * f.sqrt p :=
      ((ValueIs.of_eval (a := .const 2) rfl).product (.of_eval hv)) r hr
    rw [hroot] at hne
    rw [Dual.quotient_of_ne hne, hs s' hs', hroot]
  | abs a iha =>
    obtain ⟨p, hp, rfl⟩ := eval_abs_eq_ok.mp hv
    obtain ⟨s, ha, hs⟩ := iha hp
    refine ⟨Dual.signum p * s, by rw [evalDual, ha]; rfl, fun d hd ↦ ?_⟩
    obtain ⟨sign, hsign, s', hs', rfl⟩ := eval_mul_eq_ok.mp hd
    obtain ⟨r, hr, hne, p', hp', rfl⟩ := eval_div_eq_ok.mp hsign
    rw [Except.ok.inj (hr.symm.trans hv)] at hne ⊢
    rw [Except.ok.inj (hp'.symm.trans hp), div_abs_self hne, hs s' hs']

/-- **Both derivatives agree** wherever the symbolic one has a value. -/
theorem diff_eq_tangent [IsStrictOrderedRing F] (hf : PowerRules f) {e : Expr F} {v d : F}
    (hv : eval f vars e = .ok v) (hd : eval f vars (diff x e) = .ok d) :
    evalDual f overZero x vars e = some ⟨v, d⟩ := by
  have hexists : ∃ t, evalDual f overZero x vars e = some ⟨v, t⟩ ∧ ValueIs f vars (diff x e) t :=
    exists_tangent hf hv
  obtain ⟨t, htangent, hvalue⟩ := hexists
  rw [htangent, hvalue d hd]

end Derivative

theorem powerRules_real : PowerRules realFunctions where
  powf_two x := (Real.rpow_two x).trans (sq x)
  powf_step x y hx := by
    change x ^ y = x ^ (y - 1) * x
    rw [Real.rpow_sub_one hx, div_mul_cancel₀ _ hx]

/-- The derivative of a square at a negative number. -/
theorem diff_eq_tangent_square : evalDual realFunctions (fun _ ↦ 0) "x".toList
    (fun _ ↦ some (-3)) (.pow (.var "x".toList) (.const 2)) = some ⟨9, -6⟩ := by
  have hx : eval realFunctions (fun _ ↦ some (-3)) (.var "x".toList) = .ok (-3) := rfl
  have hsquare : eval realFunctions (fun _ ↦ some (-3)) (.pow (.var "x".toList) (.const 2)) =
      .ok 9 := by
    refine eval_pow_eq_ok.mpr ⟨-3, hx, 2, rfl, ?_⟩
    rw [powerRules_real.powf_two]
    norm_num
  have hfirst : realFunctions.powf (-3) (2 - 1) = -3 := by
    change (-3 : ℝ) ^ ((2 : ℝ) - 1) = -3
    norm_num
  have hpower : eval realFunctions (fun _ ↦ some (-3))
      (.pow (.var "x".toList) (.const (2 - 1))) = .ok (-3) :=
    eval_pow_eq_ok.mpr ⟨-3, hx, 2 - 1, rfl, hfirst.symm⟩
  refine diff_eq_tangent powerRules_real hsquare ?_
  rw [diff, diff, if_pos rfl]
  refine eval_times (eval_mul_eq_ok.mpr ⟨-6, ?_, 1, rfl, by norm_num⟩)
  exact eval_times (eval_mul_eq_ok.mpr ⟨2, rfl, -3, hpower, by norm_num⟩)

end SoulSystem.Scirust.Symbolic
