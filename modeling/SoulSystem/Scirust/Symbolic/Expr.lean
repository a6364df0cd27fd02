import Mathlib.Analysis.SpecialFunctions.Pow.Real
import SoulSystem.Library.Outcome
import SoulSystem.Library.Str

/-!
# Expressions

Trees of constants, variables, the arithmetic operations and some functions, with an evaluation that
fails for an undefined variable and outside the domains of the division, the logarithm and the root.
The operators on expressions fold constants and drop neutral operands.

Numbers are the elements of an ordered field, which has no rounding, no infinities and one zero.
The functions of the standard library are left open.

Two expressions are compared at twenty bindings of their variables.  They are taken for different
as soon as one of them has no value there.  So a true identity is accepted exactly if both sides
have values at all samples.
-/

namespace SoulSystem.Scirust.Symbolic

open Library Outcome List Function

/-! ## Expressions and their values -/

inductive Expr (F : Type) where
  | const (c : F)
  | var (v : Str)
  | add (a b : Expr F)
  | sub (a b : Expr F)
  | mul (a b : Expr F)
  | div (a b : Expr F)
  | neg (a : Expr F)
  | pow (a b : Expr F)
  | sin (a : Expr F)
  | cos (a : Expr F)
  | exp (a : Expr F)
  | ln (a : Expr F)
  | sqrt (a : Expr F)
  | abs (a : Expr F)
  deriving DecidableEq

/-- The functions of a number type. -/
structure Functions (F : Type) where
  sin : F → F
  cos : F → F
  exp : F → F
  ln : F → F
  sqrt : F → F
  powf : F → F → F

/-- The functions of the real numbers. -/
noncomputable def realFunctions : Functions ℝ where
  sin := Real.sin
  cos := Real.cos
  exp := Real.exp
  ln := Real.log
  sqrt := Real.sqrt
  powf x y := x ^ y

section Values

variable {F : Type} [Field F] [LinearOrder F] (f : Functions F) (vars : Str → Option F)

def eval : Expr F → Except Str F
  | .const c => .ok c
  | .var v =>
    match vars v with
    | some value => .ok value
    | none => .error ("Undefined variable: ".toList ++ v)
  | .add a b => do return (← eval a) + (← eval b)
  | .sub a b => do return (← eval a) - (← eval b)
  | .mul a b => do return (← eval a) * (← eval b)
  | .div a b => do
      let den ← eval b
      if den = 0 then .error "Division by zero".toList else return (← eval a) / den
  | .neg a => do return -(← eval a)
  | .pow a b => do return f.powf (← eval a) (← eval b)
  | .sin a => do return f.sin (← eval a)
  | .cos a => do return f.cos (← eval a)
  | .exp a => do return f.exp (← eval a)
  | .ln a => do
      let v ← eval a
      if v ≤ 0 then .error "ln of non-positive number".toList else return f.ln v
  | .sqrt a => do
      let v ← eval a
      if v < 0 then .error "sqrt of negative number".toList else return f.sqrt v
  | .abs a => do return |← eval a|

attribute [grind =] eval

variable {f vars} {a b : Expr F} {v : F}

theorem eval_var_eq_ok {x : Str} : eval f vars (.var x) = .ok v ↔ vars x = some v := by
  rw [eval]
  cases vars x with
  | none => exact iff_of_false (fun h ↦ nomatch h) (fun h ↦ nomatch h)
  | some value => rw [Except.ok.injEq, Option.some_inj]

theorem eval_add_eq_ok : eval f vars (.add a b) = .ok v ↔
    ∃ x, eval f vars a = .ok x ∧ ∃ y, eval f vars b = .ok y ∧ v = x + y :=
  map₂_eq_ok

theorem eval_sub_eq_ok : eval f vars (.sub a b) = .ok v ↔
    ∃ x, eval f vars a = .ok x ∧ ∃ y, eval f vars b = .ok y ∧ v = x - y :=
  map₂_eq_ok

theorem eval_mul_eq_ok : eval f vars (.mul a b) = .ok v ↔
    ∃ x, eval f vars a = .ok x ∧ ∃ y, eval f vars b = .ok y ∧ v = x * y :=
  map₂_eq_ok

theorem eval_div_eq_ok : eval f vars (.div a b) = .ok v ↔
    ∃ y, eval f vars b = .ok y ∧ y ≠ 0 ∧ ∃ x, eval f vars a = .ok x ∧ v = x / y := by
  simp only [eval, bind_eq_ok]
  refine exists_congr fun y ↦ and_congr_right fun _ ↦ ?_
  by_cases hy : y = 0
  · rw [if_pos hy]
    exact iff_of_false (fun h ↦ nomatch h) fun h ↦ h.1 hy
  · rw [if_neg hy, and_iff_right hy]
    simp only [bind_eq_ok, pure_eq_ok]

theorem eval_neg_eq_ok :
    eval f vars (.neg a) = .ok v ↔ ∃ x, eval f vars a = .ok x ∧ v = -x :=
  map_eq_ok

theorem eval_pow_eq_ok : eval f vars (.pow a b) = .ok v ↔
    ∃ x, eval f vars a = .ok x ∧ ∃ y, eval f vars b = .ok y ∧ v = f.powf x y :=
  map₂_eq_ok

theorem eval_sin_eq_ok :
    eval f vars (.sin a) = .ok v ↔ ∃ x, eval f vars a = .ok x ∧ v = f.sin x :=
  map_eq_ok

theorem eval_cos_eq_ok :
    eval f vars (.cos a) = .ok v ↔ ∃ x, eval f vars a = .ok x ∧ v = f.cos x :=
  map_eq_ok

theorem eval_exp_eq_ok :
    eval f vars (.exp a) = .ok v ↔ ∃ x, eval f vars a = .ok x ∧ v = f.exp x :=
  map_eq_ok

theorem eval_ln_eq_ok :
    eval f vars (.ln a) = .ok v ↔ ∃ x, eval f vars a = .ok x ∧ 0 < x ∧ v = f.ln x := by
  simp only [eval, bind_eq_ok]
  refine exists_congr fun x ↦ and_congr_right fun _ ↦ ?_
  by_cases hx : x ≤ 0
  · rw [if_pos hx]
    exact iff_of_false (fun h ↦ nomatch h) fun h ↦ not_lt.mpr hx h.1
  · rw [if_neg hx, and_iff_right (not_le.mp hx), pure_eq_ok]

theorem eval_sqrt_eq_ok :
    eval f vars (.sqrt a) = .ok v ↔ ∃ x, eval f vars a = .ok x ∧ 0 ≤ x ∧ v = f.sqrt x := by
  simp only [eval, bind_eq_ok]
  refine exists_congr fun x ↦ and_congr_right fun _ ↦ ?_
  by_cases hx : x < 0
  · rw [if_pos hx]
    exact iff_of_false (fun h ↦ nomatch h) fun h ↦ not_lt.mpr h.1 hx
  · rw [if_neg hx, and_iff_right (not_lt.mp hx), pure_eq_ok]

theorem eval_abs_eq_ok :
    eval f vars (.abs a) = .ok v ↔ ∃ x, eval f vars a = .ok x ∧ v = |x| :=
  map_eq_ok

end Values

/-! ## Operators that fold -/

section Operators

variable {F : Type} [Field F] [LinearOrder F]

namespace Expr

def plus : Expr F → Expr F → Expr F
  | const x, const y => const (x + y)
  | a, b => if a = const 0 then b else if b = const 0 then a else add a b

def minus : Expr F → Expr F → Expr F
  | const x, const y => const (x - y)
  | a, b => if b = const 0 then a else sub a b

/-- Neutral and absorbing operands come before two constants. -/
def times (a b : Expr F) : Expr F :=
  if a = const 0 ∨ b = const 0 then const 0
  else if a = const 1 then b
  else if b = const 1 then a
  else
    match a, b with
    | const x, const y => const (x * y)
    | a, b => mul a b

def dividedBy (a b : Expr F) : Expr F :=
  if a = const 0 then const 0
  else if b = const 1 then a
  else
    match a, b with
    | const x, const y => if y ≠ 0 then const (x / y) else div (const x) (const y)
    | a, b => div a b

def negated : Expr F → Expr F
  | const c => const (-c)
  | neg a => a
  | a => neg a

end Expr

instance : Add (Expr F) := ⟨Expr.plus⟩

instance : Sub (Expr F) := ⟨Expr.minus⟩

instance : Mul (Expr F) := ⟨Expr.times⟩

instance : Div (Expr F) := ⟨Expr.dividedBy⟩

instance : Neg (Expr F) := ⟨Expr.negated⟩

variable (a b : Expr F)

theorem add_cases : (∃ x y, a = .const x ∧ b = .const y ∧ a + b = .const (x + y)) ∨
    (a = .const 0 ∧ a + b = b) ∨ (b = .const 0 ∧ a + b = a) ∨ a + b = .add a b := by
  change (∃ x y, a = .const x ∧ b = .const y ∧ Expr.plus a b = .const (x + y)) ∨
    (a = .const 0 ∧ Expr.plus a b = b) ∨ (b = .const 0 ∧ Expr.plus a b = a) ∨
      Expr.plus a b = .add a b
  unfold Expr.plus
  split
  · exact .inl ⟨_, _, rfl, rfl, rfl⟩
  · split_ifs with ha hb
    · exact .inr (.inl ⟨ha, rfl⟩)
    · exact .inr (.inr (.inl ⟨hb, rfl⟩))
    · exact .inr (.inr (.inr rfl))

theorem sub_cases : (∃ x y, a = .const x ∧ b = .const y ∧ a - b = .const (x - y)) ∨
    (b = .const 0 ∧ a - b = a) ∨ a - b = .sub a b := by
  change (∃ x y, a = .const x ∧ b = .const y ∧ Expr.minus a b = .const (x - y)) ∨
    (b = .const 0 ∧ Expr.minus a b = a) ∨ Expr.minus a b = .sub a b
  unfold Expr.minus
  split
  · exact .inl ⟨_, _, rfl, rfl, rfl⟩
  · split_ifs with hb
    · exact .inr (.inl ⟨hb, rfl⟩)
    · exact .inr (.inr rfl)

theorem mul_cases : ((a = .const 0 ∨ b = .const 0) ∧ a * b = .const 0) ∨
    (a = .const 1 ∧ a * b = b) ∨ (b = .const 1 ∧ a * b = a) ∨
    (∃ x y, a = .const x ∧ b = .const y ∧ a * b = .const (x * y)) ∨ a * b = .mul a b := by
  change ((a = .const 0 ∨ b = .const 0) ∧ Expr.times a b = .const 0) ∨
    (a = .const 1 ∧ Expr.times a b = b) ∨ (b = .const 1 ∧ Expr.times a b = a) ∨
    (∃ x y, a = .const x ∧ b = .const y ∧ Expr.times a b = .const (x * y)) ∨
      Expr.times a b = .mul a b
  unfold Expr.times
  split_ifs with hzero ha hb
  · exact .inl ⟨hzero, rfl⟩
  · exact .inr (.inl ⟨ha, rfl⟩)
  · exact .inr (.inr (.inl ⟨hb, rfl⟩))
  · split
    · exact .inr (.inr (.inr (.inl ⟨_, _, rfl, rfl, rfl⟩)))
    · exact .inr (.inr (.inr (.inr rfl)))

theorem div_cases : (a = .const 0 ∧ a / b = .const 0) ∨ (b = .const 1 ∧ a / b = a) ∨
    (∃ x y, a = .const x ∧ b = .const y ∧ y ≠ 0 ∧ a / b = .const (x / y)) ∨
      a / b = .div a b := by
  change (a = .const 0 ∧ Expr.dividedBy a b = .const 0) ∨ (b = .const 1 ∧ Expr.dividedBy a b = a) ∨
    (∃ x y, a = .const x ∧ b = .const y ∧ y ≠ 0 ∧ Expr.dividedBy a b = .const (x / y)) ∨
      Expr.dividedBy a b = .div a b
  unfold Expr.dividedBy
  split_ifs with ha hb
  · exact .inl ⟨ha, rfl⟩
  · exact .inr (.inl ⟨hb, rfl⟩)
  · split
    · split_ifs with hy
      · exact .inr (.inr (.inl ⟨_, _, rfl, rfl, hy, rfl⟩))
      · exact .inr (.inr (.inr rfl))
    · exact .inr (.inr (.inr rfl))

omit [LinearOrder F] in
theorem neg_cases : (∃ x, a = .const x ∧ -a = .const (-x)) ∨ (∃ x, a = .neg x ∧ -a = x) ∨
    -a = .neg a := by
  change (∃ x, a = .const x ∧ Expr.negated a = .const (-x)) ∨
    (∃ x, a = .neg x ∧ Expr.negated a = x) ∨ Expr.negated a = .neg a
  unfold Expr.negated
  split
  · exact .inl ⟨_, rfl, rfl⟩
  · exact .inr (.inl ⟨_, rfl, rfl⟩)
  · exact .inr (.inr rfl)

variable {f : Functions F} {vars : Str → Option F} {a b} {v : F}

theorem eval_plus : eval f vars (a + b) = eval f vars (.add a b) := by
  rcases add_cases a b with ⟨x, y, rfl, rfl, heq⟩ | ⟨rfl, heq⟩ | ⟨rfl, heq⟩ | heq
  · rw [heq]
    rfl
  · rw [heq, eval, eval, ok_bind]
    cases eval f vars b with
    | error message => rfl
    | ok y => exact congrArg Except.ok (zero_add y).symm
  · rw [heq, eval, eval]
    cases eval f vars a with
    | error message => rfl
    | ok x => exact congrArg Except.ok (add_zero x).symm
  · rw [heq]

theorem eval_minus : eval f vars (a - b) = eval f vars (.sub a b) := by
  rcases sub_cases a b with ⟨x, y, rfl, rfl, heq⟩ | ⟨rfl, heq⟩ | heq
  · rw [heq]
    rfl
  · rw [heq, eval, eval]
    cases eval f vars a with
    | error message => rfl
    | ok x => exact congrArg Except.ok (sub_zero x).symm
  · rw [heq]

theorem eval_negated : eval f vars (-a) = eval f vars (.neg a) := by
  rcases neg_cases a with ⟨x, rfl, heq⟩ | ⟨x, rfl, heq⟩ | heq
  · rw [heq]
    rfl
  · rw [heq, eval, eval]
    cases eval f vars x with
    | error message => rfl
    | ok x => exact congrArg Except.ok (neg_neg x).symm
  · rw [heq]

/-- A product may drop a factor, and with it an error, for a constant zero. -/
theorem eval_times (hv : eval f vars (.mul a b) = .ok v) : eval f vars (a * b) = .ok v := by
  obtain ⟨x, hx, y, hy, hvalue⟩ := eval_mul_eq_ok.mp hv
  rcases mul_cases a b with ⟨hzero, heq⟩ | ⟨rfl, heq⟩ | ⟨rfl, heq⟩ | ⟨x', y', rfl, rfl, heq⟩ | heq
  · have hproduct : x * y = 0 := by
      rcases hzero with rfl | rfl
      · rw [← Except.ok.inj hx, zero_mul]
      · rw [← Except.ok.inj hy, mul_zero]
    rw [heq, eval, hvalue, hproduct]
  · rw [heq, hy, hvalue, ← Except.ok.inj hx, one_mul]
  · rw [heq, hx, hvalue, ← Except.ok.inj hy, mul_one]
  · rw [heq, eval, hvalue, ← Except.ok.inj hx, ← Except.ok.inj hy]
  · rw [heq, hv]

theorem eval_dividedBy (hv : eval f vars (.div a b) = .ok v) : eval f vars (a / b) = .ok v := by
  obtain ⟨y, hy, -, x, hx, hvalue⟩ := eval_div_eq_ok.mp hv
  rcases div_cases a b with ⟨rfl, heq⟩ | ⟨rfl, heq⟩ | ⟨x', y', rfl, rfl, -, heq⟩ | heq
  · rw [heq, eval, hvalue, ← Except.ok.inj hx, zero_div]
  · rw [heq, hx, hvalue, ← Except.ok.inj hy, div_one]
  · rw [heq, eval, hvalue, ← Except.ok.inj hx, ← Except.ok.inj hy]
  · rw [heq, hv]

/-- What a folded product comes from. -/
theorem of_eval_times (hv : eval f vars (a * b) = .ok v) :
    ((a = .const 0 ∨ b = .const 0) ∧ v = 0) ∨ eval f vars (.mul a b) = .ok v := by
  rcases mul_cases a b with ⟨hzero, heq⟩ | ⟨rfl, heq⟩ | ⟨rfl, heq⟩ | ⟨x, y, rfl, rfl, heq⟩ | heq
  · rw [heq] at hv
    exact .inl ⟨hzero, (Except.ok.inj hv).symm⟩
  · rw [heq] at hv
    exact .inr (eval_mul_eq_ok.mpr ⟨1, rfl, v, hv, (one_mul v).symm⟩)
  · rw [heq] at hv
    exact .inr (eval_mul_eq_ok.mpr ⟨v, hv, 1, rfl, (mul_one v).symm⟩)
  · rw [heq] at hv
    exact .inr (eval_mul_eq_ok.mpr ⟨x, rfl, y, rfl, (Except.ok.inj hv).symm⟩)
  · exact .inr (heq ▸ hv)

/-- What a folded quotient comes from. -/
theorem of_eval_dividedBy (hv : eval f vars (a / b) = .ok v) :
    (a = .const 0 ∧ v = 0) ∨ eval f vars (.div a b) = .ok v := by
  rcases div_cases a b with ⟨rfl, heq⟩ | ⟨rfl, heq⟩ | ⟨x, y, rfl, rfl, hy, heq⟩ | heq
  · rw [heq] at hv
    exact .inl ⟨rfl, (Except.ok.inj hv).symm⟩
  · rw [heq] at hv
    exact .inr (eval_div_eq_ok.mpr ⟨1, rfl, one_ne_zero, v, hv, (div_one v).symm⟩)
  · rw [heq] at hv
    exact .inr (eval_div_eq_ok.mpr ⟨y, rfl, hy, x, rfl, (Except.ok.inj hv).symm⟩)
  · exact .inr (heq ▸ hv)

end Operators

/-! ## Equality by samples -/

section Equality

variable {F : Type} [Field F] [LinearOrder F] (f : Functions F)

/-- A name is inserted into an ascending list without repetitions. -/
def insertName (v : Str) (names : List Str) : List Str :=
  if v ∈ names then names else names.orderedInsert (fun a b ↦ (compare a b).isLE = true) v

def collectVars : Expr F → List Str → List Str
  | .const _, out => out
  | .var v, out => insertName v out
  | .add a b, out => collectVars b (collectVars a out)
  | .sub a b, out => collectVars b (collectVars a out)
  | .mul a b, out => collectVars b (collectVars a out)
  | .div a b, out => collectVars b (collectVars a out)
  | .pow a b, out => collectVars b (collectVars a out)
  | .neg a, out => collectVars a out
  | .sin a, out => collectVars a out
  | .cos a, out => collectVars a out
  | .exp a, out => collectVars a out
  | .ln a, out => collectVars a out
  | .sqrt a, out => collectVars a out
  | .abs a, out => collectVars a out

/-- A number of thousandths, reduced modulo twenty and centred. -/
def sampleValue (i j : ℕ) : F := ((i * 7919 + j * 6271 + 127) % 20000 : ℕ) / 1000 - 10

def bindings (names : List Str) (i : ℕ) : Str → Option F :=
  names.zipIdx.foldl (fun (bound : Str → Option F) entry ↦
    update bound entry.1 (some (sampleValue i entry.2))) fun _ ↦ none

/-- The variables of both expressions. -/
def commonVars (a b : Expr F) : List Str := collectVars b (collectVars a [])

def proveEqual (a b : Expr F) : Bool :=
  (List.range 20).all fun i ↦
    match eval f (bindings (commonVars a b) i) a, eval f (bindings (commonVars a b) i) b with
    | .ok va, .ok vb => !decide (1 / 10 ^ 8 < |va - vb|)
    | _, _ => false

/-- Both expressions have the same value, or none, however their variables are bound. -/
def Identical (a b : Expr F) : Prop :=
  ∀ vars : Str → Option F, (∀ v ∈ commonVars a b, vars v ≠ none) →
    ∀ value, eval f vars a = .ok value ↔ eval f vars b = .ok value

omit [LinearOrder F] in
theorem bindings_ne_none {names : List Str} {i : ℕ} {v : Str} (hv : v ∈ names) :
    bindings (F := F) names i v ≠ none := by
  have hfold : ∀ (entries : List (Str × ℕ)) (bound : Str → Option F),
      (v ∈ entries.map Prod.fst ∨ bound v ≠ none) →
        entries.foldl (fun (bound : Str → Option F) entry ↦
          update bound entry.1 (some (sampleValue i entry.2))) bound v ≠ none := by
    intro entries
    induction entries with
    | nil => exact fun bound hbound ↦ hbound.resolve_left not_mem_nil
    | cons entry entries ih =>
      intro bound hbound
      refine ih _ ?_
      change v ∈ entries.map Prod.fst ∨
        update bound entry.1 (some (sampleValue i entry.2)) v ≠ none
      by_cases heq : v = entry.1
      · refine .inr ?_
        rw [heq, update_self]
        exact Option.some_ne_none _
      · rw [update_of_ne heq]
        rcases hbound with hmem | hbound
        · exact .inl ((List.mem_cons.mp hmem).resolve_left heq)
        · exact .inr hbound
  refine hfold _ _ (.inl ?_)
  rwa [zipIdx_map_fst]

variable {f} {a b : Expr F}

/-- **A true identity** is accepted exactly if it has values at all samples. -/
theorem proveEqual_iff [IsStrictOrderedRing F] (hab : Identical f a b) : proveEqual f a b = true ↔
    ∀ i < 20, ∃ value, eval f (bindings (commonVars a b) i) a = .ok value := by
  rw [proveEqual, all_eq_true]
  refine forall_congr' fun i ↦ ?_
  rw [mem_range]
  refine imp_congr_right fun _ ↦ ?_
  have hsame := hab (bindings (commonVars a b) i) fun v hv ↦ bindings_ne_none hv
  cases ha : eval f (bindings (commonVars a b) i) a with
  | error message =>
    refine iff_of_false Bool.false_ne_true ?_
    exact fun hvalue ↦ nomatch hvalue
  | ok value =>
    have hb : eval f (bindings (commonVars a b) i) b = .ok value := (hsame value).mp ha
    refine iff_of_true ?_ ⟨value, rfl⟩
    rw [hb]
    change (!decide (1 / 10 ^ 8 < |value - value|)) = true
    rw [sub_self, abs_zero, Bool.not_eq_true', decide_eq_false_iff_not, not_lt]
    positivity

end Equality

/-- A variable is equal to itself. -/
theorem proveEqual_var : proveEqual realFunctions (.var "x".toList) (.var "x".toList) = true := by
  refine (proveEqual_iff fun _ _ _ ↦ Iff.rfl).mpr fun i _ ↦ ?_
  have hname : "x".toList ∈ commonVars (F := ℝ) (.var "x".toList) (.var "x".toList) := by decide
  obtain ⟨value, hvalue⟩ :=
    Option.ne_none_iff_exists'.mp (bindings_ne_none (F := ℝ) (i := i) hname)
  exact ⟨value, eval_var_eq_ok.mpr hvalue⟩

/-- A logarithm is not found equal to itself, because a sample is negative. -/
theorem proveEqual_ln : Identical realFunctions (.ln (.var "x".toList)) (.ln (.var "x".toList)) ∧
    proveEqual realFunctions (.ln (.var "x".toList)) (.ln (.var "x".toList)) = false := by
  refine ⟨fun _ _ _ ↦ Iff.rfl, ?_⟩
  have hnames : commonVars (F := ℝ) (.ln (.var "x".toList)) (.ln (.var "x".toList)) =
      ["x".toList] := by
    decide
  rw [← Bool.not_eq_true, proveEqual_iff fun _ _ _ ↦ Iff.rfl, hnames]
  intro hall
  obtain ⟨value, hvalue⟩ := hall 0 (by norm_num)
  obtain ⟨sample, hsample, hpos, -⟩ := eval_ln_eq_ok.mp hvalue
  have heq : bindings (F := ℝ) ["x".toList] 0 "x".toList = some (sampleValue 0 0) := by
    rw [bindings, zipIdx_singleton, foldl_cons, foldl_nil, update_self]
  rw [eval_var_eq_ok, heq, Option.some_inj] at hsample
  rw [← hsample, sampleValue] at hpos
  norm_num at hpos

end SoulSystem.Scirust.Symbolic
