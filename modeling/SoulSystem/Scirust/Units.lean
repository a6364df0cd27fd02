import Mathlib.Analysis.Real.Sqrt
import SoulSystem.Library.Outcome

/-!
# Quantities with dimensions

A quantity has a magnitude and the exponents of the seven base dimensions, each in 8 bits.  Products
and quotients add and subtract exponents, where an overflow panics in a build with checks and wraps
around without.  A power multiplies in 32 bits and keeps the last 8.

An expression of quantities is compared with its exact exponents.
-/

namespace SoulSystem.Scirust.Units

open Library Outcome

/-! ## Dimensions -/

structure Dimension where
  exponents : Fin 7 → Int8
  deriving DecidableEq

inductive UnitsError where
  | incompatibleDimensions (left right : Dimension)
  | divisionByZero
  | nonSquareDimension (dim : Dimension)

/-- A panic or an error. -/
inductive Failure where
  | overflow
  | units (error : UnitsError)

def FitsI8 (x : ℤ) : Prop := -2 ^ 7 ≤ x ∧ x < 2 ^ 7

def FitsI32 (x : ℤ) : Prop := -2 ^ 31 ≤ x ∧ x < 2 ^ 31

instance : DecidablePred FitsI8 := fun x ↦
  inferInstanceAs (Decidable (-2 ^ 7 ≤ x ∧ x < 2 ^ 7))

instance : DecidablePred FitsI32 := fun x ↦
  inferInstanceAs (Decidable (-2 ^ 31 ≤ x ∧ x < 2 ^ 31))

namespace Dimension

def dimensionless : Dimension := ⟨fun _ ↦ 0⟩

def length : Dimension := ⟨fun i ↦ if i = 0 then 1 else 0⟩

/-- The exponents as integers. -/
def exact (dim : Dimension) (i : Fin 7) : ℤ := (dim.exponents i).toInt

variable (checks : Bool) (dim other : Dimension)

def mul : Except Failure Dimension :=
  if checks = true ∧ ∃ i, ¬ FitsI8 (dim.exact i + other.exact i) then .error .overflow
  else .ok ⟨fun i ↦ dim.exponents i + other.exponents i⟩

def div : Except Failure Dimension :=
  if checks = true ∧ ∃ i, ¬ FitsI8 (dim.exact i - other.exact i) then .error .overflow
  else .ok ⟨fun i ↦ dim.exponents i - other.exponents i⟩

/-- The product is an `i32` and then cut to an `i8`. -/
def powi (n : Int32) : Except Failure Dimension :=
  if checks = true ∧ ∃ i, ¬ FitsI32 (dim.exact i * n.toInt) then .error .overflow
  else .ok ⟨fun i ↦ ((dim.exponents i).toInt32 * n).toInt8⟩

def trySqrt : Except Failure Dimension :=
  if ∃ i, dim.exponents i % 2 ≠ 0 then .error (.units (.nonSquareDimension dim))
  else .ok ⟨fun i ↦ dim.exponents i / 2⟩

end Dimension

/-! ## Quantities -/

/-- The arithmetic of the magnitudes. -/
structure Magnitudes (V : Type) where
  add : V → V → V
  sub : V → V → V
  mul : V → V → V
  div : V → V → V
  powi : V → Int32 → V
  sqrt : V → V
  isZero : V → Prop
  decidableZero : DecidablePred isZero

structure Quantity (V : Type) where
  value : V
  dim : Dimension

section Quantities

variable {V : Type} (m : Magnitudes V) (checks : Bool)

namespace Quantity

variable (q other : Quantity V)

def tryAdd : Except Failure (Quantity V) :=
  if q.dim ≠ other.dim then .error (.units (.incompatibleDimensions q.dim other.dim))
  else .ok ⟨m.add q.value other.value, q.dim⟩

def trySub : Except Failure (Quantity V) :=
  if q.dim ≠ other.dim then .error (.units (.incompatibleDimensions q.dim other.dim))
  else .ok ⟨m.sub q.value other.value, q.dim⟩

def mul : Except Failure (Quantity V) := do
  return ⟨m.mul q.value other.value, ← q.dim.mul checks other.dim⟩

def div : Except Failure (Quantity V) :=
  have := m.decidableZero
  if m.isZero other.value then .error (.units .divisionByZero)
  else do return ⟨m.div q.value other.value, ← q.dim.div checks other.dim⟩

def scale (factor : V) : Quantity V := ⟨m.mul q.value factor, q.dim⟩

def powi (n : Int32) : Except Failure (Quantity V) := do
  return ⟨m.powi q.value n, ← q.dim.powi checks n⟩

def trySqrt : Except Failure (Quantity V) := do
  let dim ← q.dim.trySqrt
  return ⟨m.sqrt q.value, dim⟩

end Quantity

/-! ## Expressions of quantities -/

inductive Expression (V : Type) where
  | quantity (q : Quantity V)
  | mul (a b : Expression V)
  | div (a b : Expression V)
  | powi (a : Expression V) (n : Int32)
  | trySqrt (a : Expression V)
  | tryAdd (a b : Expression V)
  | trySub (a b : Expression V)
  | scale (a : Expression V) (factor : V)

def eval : Expression V → Except Failure (Quantity V)
  | .quantity q => .ok q
  | .mul a b => do (← eval a).mul m checks (← eval b)
  | .div a b => do (← eval a).div m checks (← eval b)
  | .powi a n => do (← eval a).powi m checks n
  | .trySqrt a => do (← eval a).trySqrt m
  | .tryAdd a b => do (← eval a).tryAdd m (← eval b)
  | .trySub a b => do (← eval a).trySub m (← eval b)
  | .scale a factor => do return (← eval a).scale m factor

attribute [grind =] eval

/-- The integer exponents, where they exist. -/
def exactDimension : Expression V → Option (Fin 7 → ℤ)
  | .quantity q => some q.dim.exact
  | .mul a b => do
      let left ← exactDimension a
      let right ← exactDimension b
      return fun i ↦ left i + right i
  | .div a b => do
      let left ← exactDimension a
      let right ← exactDimension b
      return fun i ↦ left i - right i
  | .powi a n => do
      let base ← exactDimension a
      return fun i ↦ base i * n.toInt
  | .trySqrt a => do
      let square ← exactDimension a
      if ∀ i, 2 ∣ square i then some fun i ↦ square i / 2 else none
  | .tryAdd a b => do
      let left ← exactDimension a
      let right ← exactDimension b
      if left = right then some left else none
  | .trySub a b => do
      let left ← exactDimension a
      let right ← exactDimension b
      if left = right then some left else none
  | .scale a _ => exactDimension a

/-- The evaluation with integer exponents.  It stops where a build with checks panics. -/
def exactEval : Expression V → Option (V × (Fin 7 → ℤ))
  | .quantity q => some (q.value, q.dim.exact)
  | .mul a b => do
      let (x, left) ← exactEval a
      let (y, right) ← exactEval b
      if checks = true ∧ ∃ i, ¬ FitsI8 (left i + right i) then none
      else some (m.mul x y, fun i ↦ left i + right i)
  | .div a b => do
      let (x, left) ← exactEval a
      let (y, right) ← exactEval b
      have := m.decidableZero
      if m.isZero y ∨ checks = true ∧ ∃ i, ¬ FitsI8 (left i - right i) then none
      else some (m.div x y, fun i ↦ left i - right i)
  | .powi a n => do
      let (x, base) ← exactEval a
      if checks = true ∧ ∃ i, ¬ FitsI32 (base i * n.toInt) then none
      else some (m.powi x n, fun i ↦ base i * n.toInt)
  | .trySqrt a => do
      let (x, square) ← exactEval a
      if ∀ i, 2 ∣ square i then some (m.sqrt x, fun i ↦ square i / 2) else none
  | .tryAdd a b => do
      let (x, left) ← exactEval a
      let (y, right) ← exactEval b
      if left = right then some (m.add x y, left) else none
  | .trySub a b => do
      let (x, left) ← exactEval a
      let (y, right) ← exactEval b
      if left = right then some (m.sub x y, left) else none
  | .scale a factor => do
      let (x, dim) ← exactEval a
      return (m.mul x factor, dim)

attribute [grind =] exactEval

def children : Expression V → List (Expression V)
  | .quantity _ => []
  | .mul a b => [a, b]
  | .div a b => [a, b]
  | .powi a _ => [a]
  | .trySqrt a => [a]
  | .tryAdd a b => [a, b]
  | .trySub a b => [a, b]
  | .scale a _ => [a]

/-- What holds of an expression and everything that it is made of. -/
inductive Everywhere (P : Expression V → Prop) : Expression V → Prop
  | intro {e : Expression V} (hself : P e) (hchildren : ∀ s ∈ children e, Everywhere P s) :
      Everywhere P e

/-- The exponents of every value that the evaluation gets to are the exact ones. -/
def KeepsDimensions (e : Expression V) : Prop :=
  Everywhere (fun s ↦ ∀ q, eval m checks s = .ok q → exactDimension s = some q.dim.exact) e

/-- The exact exponents of every value that the evaluation gets to have 8 bits. -/
def StaysInRange (e : Expression V) : Prop :=
  Everywhere (fun s ↦ ∀ x, exactEval m checks s = some x → ∀ i, FitsI8 (x.2 i)) e

end Quantities

/-! ## Exponents in range -/

namespace Dimension

variable {checks : Bool} {a b dim : Dimension}

theorem exact_injective : Function.Injective exact := by
  intro a b heq
  have hexponents : a.exponents = b.exponents := by
    funext i
    exact Int8.toInt_inj.mp (congrFun heq i)
  cases a
  cases b
  exact congrArg _ hexponents

theorem fits_exact (dim : Dimension) (i : Fin 7) : FitsI8 (dim.exact i) :=
  ⟨Int8.le_toInt _, Int8.toInt_lt _⟩

theorem bmod_of_fits {x : ℤ} (hx : FitsI8 x) : x.bmod (2 ^ 8) = x :=
  Int.bmod_eq_of_le_mul_two (by have := hx.1; omega) (by have := hx.2; omega)

theorem exact_of_mul (hok : a.mul checks b = .ok dim)
    (hfits : ∀ i, FitsI8 (a.exact i + b.exact i)) : dim.exact = fun i ↦ a.exact i + b.exact i := by
  rw [mul, if_neg fun h ↦ h.2.elim fun i hi ↦ hi (hfits i)] at hok
  cases hok
  funext i
  exact (Int8.toInt_add _ _).trans (bmod_of_fits (hfits i))

theorem exact_of_div (hok : a.div checks b = .ok dim)
    (hfits : ∀ i, FitsI8 (a.exact i - b.exact i)) : dim.exact = fun i ↦ a.exact i - b.exact i := by
  rw [div, if_neg fun h ↦ h.2.elim fun i hi ↦ hi (hfits i)] at hok
  cases hok
  funext i
  exact (Int8.toInt_sub _ _).trans (bmod_of_fits (hfits i))

theorem exact_of_powi {n : Int32} (hok : a.powi checks n = .ok dim)
    (hfits : ∀ i, FitsI8 (a.exact i * n.toInt)) : dim.exact = fun i ↦ a.exact i * n.toInt := by
  have hwide : ∀ i, FitsI32 (a.exact i * n.toInt) := by
    intro i
    have hi := hfits i
    simp only [FitsI8, FitsI32] at hi ⊢
    omega
  rw [powi, if_neg fun h ↦ h.2.elim fun i hi ↦ hi (hwide i)] at hok
  cases hok
  funext i
  calc
    ((a.exponents i).toInt32 * n).toInt8.toInt
    _ = ((a.exact i * n.toInt).bmod (2 ^ 32)).bmod (2 ^ 8) := by
      rw [Int32.toInt_toInt8, Int32.toInt_mul, Int8.toInt_toInt32, exact]
    _ = (a.exact i * n.toInt).bmod (2 ^ 8) := Int.bmod_bmod_of_dvd (by decide)
    _ = a.exact i * n.toInt := bmod_of_fits (hfits i)

theorem even_iff (i : Fin 7) : a.exponents i % 2 = 0 ↔ 2 ∣ a.exact i := by
  rw [← Int8.toInt_inj, Int8.toInt_mod, exact]
  exact Int.dvd_iff_tmod_eq_zero.symm

theorem exact_of_trySqrt (hok : a.trySqrt = .ok dim) :
    (∀ i, 2 ∣ a.exact i) ∧ dim.exact = fun i ↦ a.exact i / 2 := by
  have heven : ¬ ∃ i, a.exponents i % 2 ≠ 0 := by
    intro hodd
    rw [trySqrt, if_pos hodd] at hok
    cases hok
  rw [trySqrt, if_neg heven] at hok
  cases hok
  push Not at heven
  refine ⟨fun i ↦ even_iff i |>.mp (heven i), ?_⟩
  funext i
  have hdvd := (even_iff i).mp (heven i)
  have hfits := fits_exact a i
  have hhalf : FitsI8 (a.exact i / 2) := by
    simp only [FitsI8] at hfits ⊢
    omega
  calc
    (a.exponents i / 2).toInt
    _ = ((a.exact i).tdiv 2).bmod (2 ^ 8) := Int8.toInt_div _ _
    _ = (a.exact i / 2).bmod (2 ^ 8) := by rw [Int.tdiv_eq_ediv_of_dvd hdvd]
    _ = a.exact i / 2 := bmod_of_fits hhalf

theorem exists_trySqrt (heven : ∀ i, 2 ∣ a.exact i) : ∃ dim, a.trySqrt = .ok dim :=
  ⟨_, if_neg fun hodd ↦ hodd.elim fun i hi ↦ hi ((even_iff i).mpr (heven i))⟩

end Dimension

/-! ## Values of expressions -/

section Values

variable {V : Type} {m : Magnitudes V} {checks : Bool} {e a b : Expression V} {q : Quantity V}

/-- The code and the evaluation with integers get to the same values. -/
def Agrees (m : Magnitudes V) (checks : Bool) (e : Expression V) : Prop :=
  (∀ q, eval m checks e = .ok q → exactEval m checks e = some (q.value, q.dim.exact)) ∧
    ∀ x, exactEval m checks e = some x → ∃ q, eval m checks e = .ok q

theorem Agrees.exists_eval (hagrees : Agrees m checks e) {x : V} {dim : Fin 7 → ℤ}
    (hx : exactEval m checks e = some (x, dim)) :
    ∃ q, eval m checks e = .ok q ∧ q.value = x ∧ q.dim.exact = dim := by
  obtain ⟨q, hq⟩ := hagrees.2 _ hx
  have hsame := (hagrees.1 q hq).symm.trans hx
  cases hsame
  exact ⟨q, hq, rfl, rfl⟩

/-- The evaluation with integers keeps the exact exponents. -/
theorem exactDimension_of_exactEval {x : V} {dim : Fin 7 → ℤ}
    (hx : exactEval m checks e = some (x, dim)) : exactDimension e = some dim := by
  induction e generalizing x dim with
  | quantity q =>
    cases hx
    rfl
  | mul a b iha ihb =>
    obtain ⟨⟨y, left⟩, ha, hx⟩ := Option.bind_eq_some_iff.mp hx
    obtain ⟨⟨z, right⟩, hb, hx⟩ := Option.bind_eq_some_iff.mp hx
    dsimp only at hx
    split_ifs at hx
    cases hx
    rw [exactDimension, iha ha, ihb hb]
    rfl
  | div a b iha ihb =>
    obtain ⟨⟨y, left⟩, ha, hx⟩ := Option.bind_eq_some_iff.mp hx
    obtain ⟨⟨z, right⟩, hb, hx⟩ := Option.bind_eq_some_iff.mp hx
    dsimp only at hx
    split_ifs at hx
    cases hx
    rw [exactDimension, iha ha, ihb hb]
    rfl
  | powi a n ih =>
    obtain ⟨⟨y, base⟩, ha, hx⟩ := Option.bind_eq_some_iff.mp hx
    dsimp only at hx
    split_ifs at hx
    cases hx
    rw [exactDimension, ih ha]
    rfl
  | trySqrt a ih =>
    obtain ⟨⟨y, square⟩, ha, hx⟩ := Option.bind_eq_some_iff.mp hx
    dsimp only at hx
    split_ifs at hx with heven
    cases hx
    rw [exactDimension, ih ha]
    exact if_pos heven
  | tryAdd a b iha ihb =>
    obtain ⟨⟨y, left⟩, ha, hx⟩ := Option.bind_eq_some_iff.mp hx
    obtain ⟨⟨z, right⟩, hb, hx⟩ := Option.bind_eq_some_iff.mp hx
    dsimp only at hx
    split_ifs at hx with hsame
    cases hx
    rw [exactDimension, iha ha, ihb hb]
    exact if_pos hsame
  | trySub a b iha ihb =>
    obtain ⟨⟨y, left⟩, ha, hx⟩ := Option.bind_eq_some_iff.mp hx
    obtain ⟨⟨z, right⟩, hb, hx⟩ := Option.bind_eq_some_iff.mp hx
    dsimp only at hx
    split_ifs at hx with hsame
    cases hx
    rw [exactDimension, iha ha, ihb hb]
    exact if_pos hsame
  | scale a factor ih =>
    obtain ⟨⟨y, base⟩, ha, hx⟩ := Option.bind_eq_some_iff.mp hx
    cases hx
    exact ih ha

/-- A value of the evaluation with integers is one of the code, if it is for the operands. -/
theorem exists_eval_of_exactEval (hchildren : ∀ s ∈ children e, Agrees m checks s)
    {x : V × (Fin 7 → ℤ)} (hx : exactEval m checks e = some x) : ∃ q, eval m checks e = .ok q := by
  cases e with
  | quantity q => exact ⟨q, rfl⟩
  | mul a b =>
    obtain ⟨⟨y, left⟩, ha, hx⟩ := Option.bind_eq_some_iff.mp hx
    obtain ⟨⟨z, right⟩, hb, hx⟩ := Option.bind_eq_some_iff.mp hx
    obtain ⟨p, hp, rfl, rfl⟩ := (hchildren a (by simp [children])).exists_eval ha
    obtain ⟨q, hq, rfl, rfl⟩ := (hchildren b (by simp [children])).exists_eval hb
    dsimp only at hx
    split_ifs at hx with hoverflow
    rw [eval, hp, hq, ok_bind, ok_bind, Quantity.mul, Dimension.mul, if_neg hoverflow]
    exact ⟨_, rfl⟩
  | div a b =>
    obtain ⟨⟨y, left⟩, ha, hx⟩ := Option.bind_eq_some_iff.mp hx
    obtain ⟨⟨z, right⟩, hb, hx⟩ := Option.bind_eq_some_iff.mp hx
    obtain ⟨p, hp, rfl, rfl⟩ := (hchildren a (by simp [children])).exists_eval ha
    obtain ⟨q, hq, rfl, rfl⟩ := (hchildren b (by simp [children])).exists_eval hb
    dsimp only at hx
    split_ifs at hx with hbad
    obtain ⟨hzero, hoverflow⟩ := not_or.mp hbad
    rw [eval, hp, hq, ok_bind, ok_bind, Quantity.div, if_neg hzero, Dimension.div,
      if_neg hoverflow]
    exact ⟨_, rfl⟩
  | powi a n =>
    obtain ⟨⟨y, base⟩, ha, hx⟩ := Option.bind_eq_some_iff.mp hx
    obtain ⟨p, hp, rfl, rfl⟩ := (hchildren a (by simp [children])).exists_eval ha
    dsimp only at hx
    split_ifs at hx with hoverflow
    rw [eval, hp, ok_bind, Quantity.powi, Dimension.powi, if_neg hoverflow]
    exact ⟨_, rfl⟩
  | trySqrt a =>
    obtain ⟨⟨y, square⟩, ha, hx⟩ := Option.bind_eq_some_iff.mp hx
    obtain ⟨p, hp, rfl, rfl⟩ := (hchildren a (by simp [children])).exists_eval ha
    dsimp only at hx
    split_ifs at hx with heven
    obtain ⟨dim, hdim⟩ := Dimension.exists_trySqrt heven
    rw [eval, hp, ok_bind, Quantity.trySqrt, hdim]
    exact ⟨_, rfl⟩
  | tryAdd a b =>
    obtain ⟨⟨y, left⟩, ha, hx⟩ := Option.bind_eq_some_iff.mp hx
    obtain ⟨⟨z, right⟩, hb, hx⟩ := Option.bind_eq_some_iff.mp hx
    obtain ⟨p, hp, rfl, rfl⟩ := (hchildren a (by simp [children])).exists_eval ha
    obtain ⟨q, hq, rfl, rfl⟩ := (hchildren b (by simp [children])).exists_eval hb
    dsimp only at hx
    split_ifs at hx with hsame
    have hdim := Dimension.exact_injective hsame
    rw [eval, hp, hq, ok_bind, ok_bind, Quantity.tryAdd, if_neg (not_not.mpr hdim)]
    exact ⟨_, rfl⟩
  | trySub a b =>
    obtain ⟨⟨y, left⟩, ha, hx⟩ := Option.bind_eq_some_iff.mp hx
    obtain ⟨⟨z, right⟩, hb, hx⟩ := Option.bind_eq_some_iff.mp hx
    obtain ⟨p, hp, rfl, rfl⟩ := (hchildren a (by simp [children])).exists_eval ha
    obtain ⟨q, hq, rfl, rfl⟩ := (hchildren b (by simp [children])).exists_eval hb
    dsimp only at hx
    split_ifs at hx with hsame
    have hdim := Dimension.exact_injective hsame
    rw [eval, hp, hq, ok_bind, ok_bind, Quantity.trySub, if_neg (not_not.mpr hdim)]
    exact ⟨_, rfl⟩
  | scale a factor =>
    obtain ⟨⟨y, base⟩, ha, hx⟩ := Option.bind_eq_some_iff.mp hx
    obtain ⟨p, hp, rfl, rfl⟩ := (hchildren a (by simp [children])).exists_eval ha
    rw [eval, hp]
    exact ⟨_, rfl⟩

/-- A value in range is exact, if the operands are. -/
theorem exactEval_of_eval (hchildren : ∀ s ∈ children e, Agrees m checks s)
    (hrange : ∀ x, exactEval m checks e = some x → ∀ i, FitsI8 (x.2 i))
    (hq : eval m checks e = .ok q) : exactEval m checks e = some (q.value, q.dim.exact) := by
  cases e with
  | quantity p =>
    cases hq
    rfl
  | mul a b =>
    obtain ⟨p, hp, hq⟩ := bind_eq_ok.mp hq
    obtain ⟨r, hr, hq⟩ := bind_eq_ok.mp hq
    obtain ⟨dim, hdim, hpure⟩ := bind_eq_ok.mp hq
    cases hpure
    have hoverflow : ¬ (checks = true ∧ ∃ i, ¬ FitsI8 (p.dim.exact i + r.dim.exact i)) := by
      intro hoverflow
      rw [Dimension.mul, if_pos hoverflow] at hdim
      cases hdim
    have hexact : exactEval m checks (.mul a b) =
        some (m.mul p.value r.value, fun i ↦ p.dim.exact i + r.dim.exact i) := by
      rw [exactEval, (hchildren a (by simp [children])).1 p hp,
        (hchildren b (by simp [children])).1 r hr]
      exact if_neg hoverflow
    rw [hexact, Dimension.exact_of_mul hdim (hrange _ hexact)]
  | div a b =>
    obtain ⟨p, hp, hq⟩ := bind_eq_ok.mp hq
    obtain ⟨r, hr, hq⟩ := bind_eq_ok.mp hq
    have hzero : ¬ m.isZero r.value := by
      intro hzero
      rw [Quantity.div, if_pos hzero] at hq
      cases hq
    rw [Quantity.div, if_neg hzero] at hq
    obtain ⟨dim, hdim, hpure⟩ := bind_eq_ok.mp hq
    cases hpure
    have hoverflow : ¬ (checks = true ∧ ∃ i, ¬ FitsI8 (p.dim.exact i - r.dim.exact i)) := by
      intro hoverflow
      rw [Dimension.div, if_pos hoverflow] at hdim
      cases hdim
    have hexact : exactEval m checks (.div a b) =
        some (m.div p.value r.value, fun i ↦ p.dim.exact i - r.dim.exact i) := by
      rw [exactEval, (hchildren a (by simp [children])).1 p hp,
        (hchildren b (by simp [children])).1 r hr]
      exact if_neg (not_or.mpr ⟨hzero, hoverflow⟩)
    rw [hexact, Dimension.exact_of_div hdim (hrange _ hexact)]
  | powi a n =>
    obtain ⟨p, hp, hq⟩ := bind_eq_ok.mp hq
    obtain ⟨dim, hdim, hpure⟩ := bind_eq_ok.mp hq
    cases hpure
    have hoverflow : ¬ (checks = true ∧ ∃ i, ¬ FitsI32 (p.dim.exact i * n.toInt)) := by
      intro hoverflow
      rw [Dimension.powi, if_pos hoverflow] at hdim
      cases hdim
    have hexact : exactEval m checks (.powi a n) =
        some (m.powi p.value n, fun i ↦ p.dim.exact i * n.toInt) := by
      rw [exactEval, (hchildren a (by simp [children])).1 p hp]
      exact if_neg hoverflow
    rw [hexact, Dimension.exact_of_powi hdim (hrange _ hexact)]
  | trySqrt a =>
    obtain ⟨p, hp, hq⟩ := bind_eq_ok.mp hq
    obtain ⟨dim, hdim, hpure⟩ := bind_eq_ok.mp hq
    cases hpure
    obtain ⟨heven, hexact⟩ := Dimension.exact_of_trySqrt hdim
    rw [exactEval, (hchildren a (by simp [children])).1 p hp, hexact]
    exact if_pos heven
  | tryAdd a b =>
    obtain ⟨p, hp, hq⟩ := bind_eq_ok.mp hq
    obtain ⟨r, hr, hq⟩ := bind_eq_ok.mp hq
    have hsame : p.dim = r.dim := by
      by_contra hother
      rw [Quantity.tryAdd, if_pos hother] at hq
      cases hq
    rw [Quantity.tryAdd, if_neg (not_not.mpr hsame)] at hq
    cases hq
    rw [exactEval, (hchildren a (by simp [children])).1 p hp,
      (hchildren b (by simp [children])).1 r hr]
    exact if_pos (congrArg Dimension.exact hsame)
  | trySub a b =>
    obtain ⟨p, hp, hq⟩ := bind_eq_ok.mp hq
    obtain ⟨r, hr, hq⟩ := bind_eq_ok.mp hq
    have hsame : p.dim = r.dim := by
      by_contra hother
      rw [Quantity.trySub, if_pos hother] at hq
      cases hq
    rw [Quantity.trySub, if_neg (not_not.mpr hsame)] at hq
    cases hq
    rw [exactEval, (hchildren a (by simp [children])).1 p hp,
      (hchildren b (by simp [children])).1 r hr]
    exact if_pos (congrArg Dimension.exact hsame)
  | scale a factor =>
    obtain ⟨p, hp, hpure⟩ := bind_eq_ok.mp hq
    cases hpure
    rw [exactEval, (hchildren a (by simp [children])).1 p hp]
    rfl

/-- In range throughout, the code and the evaluation with integers agree. -/
theorem agrees_of_staysInRange (hrange : StaysInRange m checks e) : Agrees m checks e := by
  induction hrange with
  | intro hself _ ih =>
    exact ⟨fun q hq ↦ exactEval_of_eval ih hself hq, fun x hx ↦ exists_eval_of_exactEval ih hx⟩

theorem Everywhere.self {P : Expression V → Prop} (h : Everywhere P e) : P e := by
  cases h with
  | intro hself _ => exact hself

theorem keepsDimensions_of_staysInRange (hrange : StaysInRange m checks e) :
    KeepsDimensions m checks e := by
  induction hrange with
  | @intro e hself hchildren ih =>
    have hagrees := agrees_of_staysInRange (.intro hself hchildren)
    exact .intro (fun q hq ↦ exactDimension_of_exactEval (hagrees.1 q hq)) ih

theorem staysInRange_of_keepsDimensions (hkeeps : KeepsDimensions m checks e) :
    StaysInRange m checks e := by
  induction hkeeps with
  | @intro e hself _ ih =>
    refine .intro (fun x hx i ↦ ?_) ih
    obtain ⟨q, hq⟩ := exists_eval_of_exactEval (fun s hs ↦ agrees_of_staysInRange (ih s hs)) hx
    have hexact : q.dim.exact = x.2 :=
      Option.some_inj.mp ((hself q hq).symm.trans (exactDimension_of_exactEval hx))
    exact hexact ▸ q.dim.fits_exact i

/-- The exponents are the exact ones exactly as long as these have 8 bits. -/
theorem keepsDimensions_iff : KeepsDimensions m checks e ↔ StaysInRange m checks e :=
  ⟨staysInRange_of_keepsDimensions, keepsDimensions_of_staysInRange⟩

/-- In range, a sum has two terms of the same exact exponents. -/
theorem exactDimension_of_tryAdd (hrange : StaysInRange m checks (.tryAdd a b))
    (hq : eval m checks (.tryAdd a b) = .ok q) :
    exactDimension a = some q.dim.exact ∧ exactDimension b = some q.dim.exact := by
  have hexact := (keepsDimensions_of_staysInRange hrange).self q hq
  obtain ⟨left, ha, hexact⟩ := Option.bind_eq_some_iff.mp hexact
  obtain ⟨right, hb, hexact⟩ := Option.bind_eq_some_iff.mp hexact
  split_ifs at hexact with hsame
  cases hexact
  exact ⟨ha, hsame ▸ hb⟩

end Values

/-! ## A power of a length plus a number -/

noncomputable def realMagnitudes : Magnitudes ℝ where
  add x y := x + y
  sub x y := x - y
  mul x y := x * y
  div x y := x / y
  powi x n := x ^ n.toInt
  sqrt := Real.sqrt
  isZero x := x = 0
  decidableZero x := Classical.propDecidable (x = 0)

def metre : Quantity ℝ := ⟨1, .length⟩

theorem staysInRange_metres :
    StaysInRange realMagnitudes true (.tryAdd (.quantity metre) (.quantity metre)) := by
  have hmetre : StaysInRange realMagnitudes true (.quantity metre) := by
    refine .intro (fun x hx i ↦ ?_) fun s hs ↦ absurd hs List.not_mem_nil
    cases hx
    exact Dimension.fits_exact _ i
  refine .intro (fun x hx i ↦ ?_) fun s hs ↦ ?_
  · have hsum : exactEval realMagnitudes true (.tryAdd (.quantity metre) (.quantity metre)) =
        some (realMagnitudes.add 1 1, metre.dim.exact) := by
      simp only [exactEval, Option.bind_eq_bind, Option.bind_some, if_true]
      rfl
    cases hsum.symm.trans hx
    exact Dimension.fits_exact _ i
  · rcases List.mem_pair.mp hs with rfl | rfl <;> exact hmetre

theorem exactDimension_of_tryAdd_metres :
    exactDimension (.quantity metre) = some metre.dim.exact ∧
      exactDimension (.quantity metre) = some metre.dim.exact :=
  @exactDimension_of_tryAdd _ _ true _ _ ⟨realMagnitudes.add 1 1, .length⟩ staysInRange_metres <| by
    rw [eval, eval, ok_bind, ok_bind]
    exact if_neg (not_not.mpr rfl)

theorem powi_length_256 (checks : Bool) :
    Dimension.length.powi checks 256 = .ok .dimensionless := by
  have hwide : ∀ i, FitsI32 (Dimension.length.exact i * (256 : Int32).toInt) := by decide +kernel
  rw [Dimension.powi, if_neg fun h ↦ h.2.elim fun i hi ↦ hi (hwide i)]
  refine congrArg Except.ok (congrArg Dimension.mk ?_)
  decide +kernel

/-- The sum of the 256th power of a length and of a number. -/
def powerPlusNumber : Expression ℝ :=
  .tryAdd (.powi (.quantity metre) 256) (.quantity ⟨1, .dimensionless⟩)

theorem eval_powerPlusNumber (checks : Bool) :
    eval realMagnitudes checks powerPlusNumber =
      .ok ⟨realMagnitudes.add (realMagnitudes.powi 1 256) 1, .dimensionless⟩ := by
  have hpower : eval realMagnitudes checks (.powi (.quantity metre) 256) =
      .ok ⟨realMagnitudes.powi 1 256, .dimensionless⟩ := by
    rw [eval, eval, ok_bind, Quantity.powi, metre, powi_length_256]
    rfl
  rw [powerPlusNumber, eval, hpower, eval, ok_bind, ok_bind]
  exact if_neg (not_not.mpr rfl)

theorem exactDimension_powerPlusNumber : exactDimension powerPlusNumber = none := by
  have hother : (fun i ↦ metre.dim.exact i * (256 : Int32).toInt) ≠
      Dimension.dimensionless.exact := by
    intro hsame
    have hfirst := congrFun hsame 0
    revert hfirst
    decide +kernel
  calc
    exactDimension powerPlusNumber
    _ = if (fun i ↦ metre.dim.exact i * (256 : Int32).toInt) = Dimension.dimensionless.exact then
        some (fun i ↦ metre.dim.exact i * (256 : Int32).toInt) else none := rfl
    _ = none := if_neg hother

/-- In both builds the 256th power of a length is added to a number. -/
theorem not_keepsDimensions_powerPlusNumber :
    ¬ KeepsDimensions realMagnitudes true powerPlusNumber ∧
      ¬ KeepsDimensions realMagnitudes false powerPlusNumber := by
  have hboth : ∀ checks, ¬ KeepsDimensions realMagnitudes checks powerPlusNumber := by
    intro checks hkeeps
    have hexact := hkeeps.self _ (eval_powerPlusNumber checks)
    rw [exactDimension_powerPlusNumber] at hexact
    cases hexact
  exact ⟨hboth true, hboth false⟩

end SoulSystem.Scirust.Units
