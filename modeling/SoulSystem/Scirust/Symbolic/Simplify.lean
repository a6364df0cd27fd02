import SoulSystem.Scirust.Symbolic.Expr

/-!
# Simplification

The operands are simplified, those of the arithmetic operations twice, and the root is folded.  No
node is ever added, so the recursion ends.  A simplified expression is normal: no fold applies to
any of its nodes.  It is therefore its own simplification, and the second one of an operand changes
nothing.
-/

namespace SoulSystem.Scirust.Symbolic

open Library Outcome

section Simplify

variable {F : Type} [Field F] [LinearOrder F] (f : Functions F)

/-! ## The recursion -/

/-- The root of a power of simplified expressions. -/
def simplifyPow : Expr F → Expr F → Expr F
  | .const c, .const n => .const (f.powf c n)
  | sa, sb => if sb = .const 0 then .const 1 else if sb = .const 1 then sa else .pow sa sb

/-- A function of a constant in its domain. -/
def foldConst (domain : F → Prop) [DecidablePred domain] (g : F → F) (node : Expr F → Expr F) :
    Expr F → Expr F
  | .const c => if domain c then .const (g c) else node (.const c)
  | sa => node sa

/-- One call, for which the calls on smaller expressions are known. -/
def simplifyStep (recurse : Expr F → Expr F) : Expr F → Expr F
  | .const c => .const c
  | .var v => .var v
  | .add a b => recurse (recurse a) + recurse (recurse b)
  | .sub a b => recurse (recurse a) - recurse (recurse b)
  | .mul a b => recurse (recurse a) * recurse (recurse b)
  | .div a b => recurse (recurse a) / recurse (recurse b)
  | .neg a => -recurse (recurse a)
  | .pow a b => simplifyPow f (recurse a) (recurse b)
  | .sin a => foldConst (fun _ ↦ True) f.sin .sin (recurse a)
  | .cos a => foldConst (fun _ ↦ True) f.cos .cos (recurse a)
  | .exp a => foldConst (fun _ ↦ True) f.exp .exp (recurse a)
  | .ln a => foldConst (fun c ↦ 0 < c) f.ln .ln (recurse a)
  | .sqrt a => foldConst (fun c ↦ 0 ≤ c) f.sqrt .sqrt (recurse a)
  | .abs a => foldConst (fun _ ↦ True) (fun c ↦ |c|) .abs (recurse a)

def Expr.size : Expr F → ℕ
  | const _ => 1
  | var _ => 1
  | add a b => a.size + b.size + 1
  | sub a b => a.size + b.size + 1
  | mul a b => a.size + b.size + 1
  | div a b => a.size + b.size + 1
  | pow a b => a.size + b.size + 1
  | neg a => a.size + 1
  | sin a => a.size + 1
  | cos a => a.size + 1
  | exp a => a.size + 1
  | ln a => a.size + 1
  | sqrt a => a.size + 1
  | abs a => a.size + 1

/-- Calls that are nested up to some depth. -/
def simplifyWithin : ℕ → Expr F → Expr F
  | 0, e => e
  | depth + 1, e => simplifyStep f (simplifyWithin depth) e

/-- `simplify` of the source, whose calls are never nested deeper than the size. -/
def simplify (e : Expr F) : Expr F := simplifyWithin f e.size e

/-! ## The size -/

omit [Field F] [LinearOrder F] in
theorem one_le_size (e : Expr F) : 1 ≤ e.size := by
  cases e <;> exact Nat.le_add_left _ _

variable (a b : Expr F)

theorem size_add_le : (a + b).size ≤ a.size + b.size + 1 := by
  have ha : 1 ≤ a.size := one_le_size a
  rcases add_cases a b with ⟨x, y, -, -, heq⟩ | ⟨-, heq⟩ | ⟨-, heq⟩ | heq <;> rw [heq]
  · exact Nat.le_add_left _ _
  · omega
  · omega
  · exact le_rfl

theorem size_sub_le : (a - b).size ≤ a.size + b.size + 1 := by
  rcases sub_cases a b with ⟨x, y, -, -, heq⟩ | ⟨-, heq⟩ | heq <;> rw [heq]
  · exact Nat.le_add_left _ _
  · omega
  · exact le_rfl

theorem size_mul_le : (a * b).size ≤ a.size + b.size + 1 := by
  rcases mul_cases a b with ⟨-, heq⟩ | ⟨-, heq⟩ | ⟨-, heq⟩ | ⟨x, y, -, -, heq⟩ | heq <;> rw [heq]
  · exact Nat.le_add_left _ _
  · omega
  · omega
  · exact Nat.le_add_left _ _
  · exact le_rfl

theorem size_div_le : (a / b).size ≤ a.size + b.size + 1 := by
  rcases div_cases a b with ⟨-, heq⟩ | ⟨-, heq⟩ | ⟨x, y, -, -, -, heq⟩ | heq <;> rw [heq]
  · exact Nat.le_add_left _ _
  · omega
  · exact Nat.le_add_left _ _
  · exact le_rfl

omit [LinearOrder F] in
theorem size_neg_le : (-a).size ≤ a.size + 1 := by
  rcases neg_cases a with ⟨x, -, heq⟩ | ⟨x, rfl, heq⟩ | heq <;> rw [heq]
  · exact Nat.le_add_left _ _
  · exact Nat.le_add_right _ 2
  · exact le_rfl

theorem simplifyPow_cases : (∃ c n, a = .const c ∧ b = .const n ∧
      simplifyPow f a b = .const (f.powf c n)) ∨ (b = .const 0 ∧ simplifyPow f a b = .const 1) ∨
    (b = .const 1 ∧ simplifyPow f a b = a) ∨ simplifyPow f a b = .pow a b := by
  unfold simplifyPow
  split
  · exact .inl ⟨_, _, rfl, rfl, rfl⟩
  · split_ifs with hzero hone
    · exact .inr (.inl ⟨hzero, rfl⟩)
    · exact .inr (.inr (.inl ⟨hone, rfl⟩))
    · exact .inr (.inr (.inr rfl))

theorem size_simplifyPow_le : (simplifyPow f a b).size ≤ a.size + b.size + 1 := by
  rcases simplifyPow_cases f a b with ⟨c, n, -, -, heq⟩ | ⟨-, heq⟩ | ⟨-, heq⟩ | heq <;> rw [heq]
  · exact Nat.le_add_left _ _
  · exact Nat.le_add_left _ _
  · omega
  · exact le_rfl

omit [Field F] [LinearOrder F] in
theorem size_foldConst_le {domain : F → Prop} [DecidablePred domain] {g : F → F}
    {node : Expr F → Expr F} (hnode : ∀ a, (node a).size = a.size + 1) :
    (foldConst domain g node a).size ≤ a.size + 1 := by
  unfold foldConst
  split
  · split_ifs
    · exact Nat.le_add_left _ _
    · exact (hnode _).le
  · exact (hnode _).le

variable {f a b}

/-- A call depends on the calls on smaller expressions only, and it adds no node to what they
return. -/
theorem simplifyStep_congr {recurse recurse' : Expr F → Expr F} {e : Expr F}
    (hsame : ∀ e' : Expr F, e'.size < e.size →
      recurse e' = recurse' e' ∧ (recurse e').size ≤ e'.size) :
    simplifyStep f recurse e = simplifyStep f recurse' e ∧
      (simplifyStep f recurse e).size ≤ e.size := by
  have htwice : ∀ a : Expr F, a.size < e.size → recurse (recurse a) = recurse' (recurse' a) ∧
      (recurse (recurse a)).size ≤ a.size := by
    intro a ha
    obtain ⟨hfirst, hsize⟩ := hsame a ha
    obtain ⟨hsecond, hsize'⟩ := hsame (recurse a) (hsize.trans_lt ha)
    exact ⟨by rw [hsecond, hfirst], hsize'.trans hsize⟩
  have hleft : ∀ a b : Expr F, a.size < a.size + b.size + 1 := fun a b ↦ by omega
  have hright : ∀ a b : Expr F, b.size < a.size + b.size + 1 := fun a b ↦ by omega
  have hfold : ∀ {domain : F → Prop} [DecidablePred domain] {g : F → F} {node : Expr F → Expr F}
      {a : Expr F}, (∀ a, (node a).size = a.size + 1) → a.size < e.size →
      foldConst domain g node (recurse a) = foldConst domain g node (recurse' a) ∧
        (foldConst domain g node (recurse a)).size ≤ a.size + 1 := by
    intro domain _ g node a hnode ha
    obtain ⟨heq, hsize⟩ := hsame a ha
    exact ⟨by rw [heq], (size_foldConst_le _ hnode).trans (Nat.succ_le_succ hsize)⟩
  cases e with
  | const c => exact ⟨rfl, le_rfl⟩
  | var v => exact ⟨rfl, le_rfl⟩
  | add a b =>
    obtain ⟨ha, hsa⟩ := htwice a (hleft a b)
    obtain ⟨hb, hsb⟩ := htwice b (hright a b)
    refine ⟨by rw [simplifyStep, simplifyStep, ha, hb], (size_add_le _ _).trans ?_⟩
    exact Nat.succ_le_succ (Nat.add_le_add hsa hsb)
  | sub a b =>
    obtain ⟨ha, hsa⟩ := htwice a (hleft a b)
    obtain ⟨hb, hsb⟩ := htwice b (hright a b)
    refine ⟨by rw [simplifyStep, simplifyStep, ha, hb], (size_sub_le _ _).trans ?_⟩
    exact Nat.succ_le_succ (Nat.add_le_add hsa hsb)
  | mul a b =>
    obtain ⟨ha, hsa⟩ := htwice a (hleft a b)
    obtain ⟨hb, hsb⟩ := htwice b (hright a b)
    refine ⟨by rw [simplifyStep, simplifyStep, ha, hb], (size_mul_le _ _).trans ?_⟩
    exact Nat.succ_le_succ (Nat.add_le_add hsa hsb)
  | div a b =>
    obtain ⟨ha, hsa⟩ := htwice a (hleft a b)
    obtain ⟨hb, hsb⟩ := htwice b (hright a b)
    refine ⟨by rw [simplifyStep, simplifyStep, ha, hb], (size_div_le _ _).trans ?_⟩
    exact Nat.succ_le_succ (Nat.add_le_add hsa hsb)
  | neg a =>
    obtain ⟨ha, hsa⟩ := htwice a (Nat.lt_succ_self _)
    refine ⟨by rw [simplifyStep, simplifyStep, ha], (size_neg_le _).trans ?_⟩
    exact Nat.succ_le_succ hsa
  | pow a b =>
    obtain ⟨ha, hsa⟩ := hsame a (hleft a b)
    obtain ⟨hb, hsb⟩ := hsame b (hright a b)
    refine ⟨by rw [simplifyStep, simplifyStep, ha, hb], (size_simplifyPow_le _ _ _).trans ?_⟩
    exact Nat.succ_le_succ (Nat.add_le_add hsa hsb)
  | sin a => exact hfold (fun _ ↦ rfl) (Nat.lt_succ_self _)
  | cos a => exact hfold (fun _ ↦ rfl) (Nat.lt_succ_self _)
  | exp a => exact hfold (fun _ ↦ rfl) (Nat.lt_succ_self _)
  | ln a => exact hfold (fun _ ↦ rfl) (Nat.lt_succ_self _)
  | sqrt a => exact hfold (fun _ ↦ rfl) (Nat.lt_succ_self _)
  | abs a => exact hfold (fun _ ↦ rfl) (Nat.lt_succ_self _)

/-- The depth does not matter as soon as it is the size. -/
theorem simplifyWithin_eq {depth : ℕ} {e : Expr F} (hdepth : e.size ≤ depth) :
    simplifyWithin f depth e = simplify f e ∧ (simplifyWithin f depth e).size ≤ e.size := by
  induction depth using Nat.strong_induction_on generalizing e with
  | h depth ih =>
    obtain ⟨size, hsize⟩ : ∃ size, e.size = size + 1 :=
      Nat.exists_eq_succ_of_ne_zero (Nat.one_le_iff_ne_zero.mp (one_le_size e))
    obtain ⟨depth, rfl⟩ : ∃ depth', depth = depth' + 1 :=
      Nat.exists_eq_succ_of_ne_zero (by omega)
    have hsmaller : ∀ e' : Expr F, e'.size < e.size → simplifyWithin f depth e' =
        simplifyWithin f size e' ∧ (simplifyWithin f depth e').size ≤ e'.size := by
      intro e' he'
      obtain ⟨hdeep, hle⟩ := ih depth (Nat.lt_succ_self depth) (e := e') (by omega)
      obtain ⟨hshallow, -⟩ := ih size (by omega) (e := e') (by omega)
      exact ⟨by rw [hdeep, hshallow], hle⟩
    rw [simplify, hsize]
    rw [hsize] at hsmaller
    have hstep := simplifyStep_congr (f := f) (e := e) (hsize ▸ hsmaller)
    rw [hsize] at hstep
    exact hstep

theorem size_simplify_le (e : Expr F) : (simplify f e).size ≤ e.size := (simplifyWithin_eq le_rfl).2

/-- **The recursion of the source.** -/
theorem simplify_eq (e : Expr F) : simplify f e = simplifyStep f (simplify f) e := by
  rw [← (simplifyWithin_eq (Nat.le_succ e.size)).1, simplifyWithin]
  refine (simplifyStep_congr fun e' he' ↦ ?_).1
  exact simplifyWithin_eq he'.le

/-! ## Normal expressions -/

variable (f) in
/-- No fold applies to any node. -/
def Normal : Expr F → Prop
  | .const _ => True
  | .var _ => True
  | .add a b => Normal a ∧ Normal b ∧ a + b = .add a b
  | .sub a b => Normal a ∧ Normal b ∧ a - b = .sub a b
  | .mul a b => Normal a ∧ Normal b ∧ a * b = .mul a b
  | .div a b => Normal a ∧ Normal b ∧ a / b = .div a b
  | .neg a => Normal a ∧ -a = .neg a
  | .pow a b => Normal a ∧ Normal b ∧ simplifyPow f a b = .pow a b
  | .sin a => Normal a ∧ foldConst (fun _ ↦ True) f.sin .sin a = .sin a
  | .cos a => Normal a ∧ foldConst (fun _ ↦ True) f.cos .cos a = .cos a
  | .exp a => Normal a ∧ foldConst (fun _ ↦ True) f.exp .exp a = .exp a
  | .ln a => Normal a ∧ foldConst (fun c ↦ 0 < c) f.ln .ln a = .ln a
  | .sqrt a => Normal a ∧ foldConst (fun c ↦ 0 ≤ c) f.sqrt .sqrt a = .sqrt a
  | .abs a => Normal a ∧ foldConst (fun _ ↦ True) (fun c ↦ |c|) .abs a = .abs a

/-- Normal expressions are their own simplifications. -/
theorem simplify_of_normal {e : Expr F} (he : Normal f e) : simplify f e = e := by
  induction e with
  | const c => rfl
  | var v => rfl
  | add a b iha ihb =>
    rw [simplify_eq, simplifyStep, iha he.1, iha he.1, ihb he.2.1, ihb he.2.1, he.2.2]
  | sub a b iha ihb =>
    rw [simplify_eq, simplifyStep, iha he.1, iha he.1, ihb he.2.1, ihb he.2.1, he.2.2]
  | mul a b iha ihb =>
    rw [simplify_eq, simplifyStep, iha he.1, iha he.1, ihb he.2.1, ihb he.2.1, he.2.2]
  | div a b iha ihb =>
    rw [simplify_eq, simplifyStep, iha he.1, iha he.1, ihb he.2.1, ihb he.2.1, he.2.2]
  | neg a iha => rw [simplify_eq, simplifyStep, iha he.1, iha he.1, he.2]
  | pow a b iha ihb => rw [simplify_eq, simplifyStep, iha he.1, ihb he.2.1, he.2.2]
  | sin a iha => rw [simplify_eq, simplifyStep, iha he.1, he.2]
  | cos a iha => rw [simplify_eq, simplifyStep, iha he.1, he.2]
  | exp a iha => rw [simplify_eq, simplifyStep, iha he.1, he.2]
  | ln a iha => rw [simplify_eq, simplifyStep, iha he.1, he.2]
  | sqrt a iha => rw [simplify_eq, simplifyStep, iha he.1, he.2]
  | abs a iha => rw [simplify_eq, simplifyStep, iha he.1, he.2]

theorem normal_foldConst {domain : F → Prop} [DecidablePred domain] {g : F → F}
    {node : Expr F → Expr F}
    (hnode : ∀ a, Normal f (node a) ↔ Normal f a ∧ foldConst domain g node a = node a)
    (ha : Normal f a) : Normal f (foldConst domain g node a) := by
  cases a with
  | const c =>
    by_cases hdomain : domain c
    · rw [foldConst, if_pos hdomain]
      trivial
    · have heq : foldConst domain g node (.const c) = node (.const c) := if_neg hdomain
      rw [heq]
      exact (hnode _).mpr ⟨ha, heq⟩
  | _ => exact (hnode _).mpr ⟨ha, rfl⟩

theorem normal_simplifyPow (ha : Normal f a) (hb : Normal f b) : Normal f (simplifyPow f a b) := by
  rcases simplifyPow_cases f a b with ⟨c, n, -, -, heq⟩ | ⟨-, heq⟩ | ⟨-, heq⟩ | heq
  · rw [heq]
    trivial
  · rw [heq]
    trivial
  · rwa [heq]
  · rw [heq]
    exact ⟨ha, hb, heq⟩

/-- **A simplified expression is normal.** -/
theorem normal_simplify (e : Expr F) : Normal f (simplify f e) := by
  induction hsize : e.size using Nat.strong_induction_on generalizing e with
  | h size ih =>
    have hchild : ∀ a : Expr F, a.size < e.size → Normal f (simplify f a) :=
      fun a ha ↦ ih a.size (hsize ▸ ha) a rfl
    have htwice : ∀ a : Expr F, a.size < e.size → Normal f (simplify f (simplify f a)) := by
      intro a ha
      rw [simplify_of_normal (hchild a ha)]
      exact hchild a ha
    have hleft : ∀ a b : Expr F, a.size < a.size + b.size + 1 := fun a b ↦ by omega
    have hright : ∀ a b : Expr F, b.size < a.size + b.size + 1 := fun a b ↦ by omega
    rw [simplify_eq]
    cases e with
    | const c => trivial
    | var v => trivial
    | add a b =>
      have ha := htwice a (hleft a b)
      have hb := htwice b (hright a b)
      rw [simplifyStep]
      rcases add_cases (simplify f (simplify f a)) (simplify f (simplify f b)) with
        ⟨x, y, -, -, heq⟩ | ⟨-, heq⟩ | ⟨-, heq⟩ | heq
      · rw [heq]
        trivial
      · rwa [heq]
      · rwa [heq]
      · rw [heq]
        exact ⟨ha, hb, heq⟩
    | sub a b =>
      have ha := htwice a (hleft a b)
      have hb := htwice b (hright a b)
      rw [simplifyStep]
      rcases sub_cases (simplify f (simplify f a)) (simplify f (simplify f b)) with
        ⟨x, y, -, -, heq⟩ | ⟨-, heq⟩ | heq
      · rw [heq]
        trivial
      · rwa [heq]
      · rw [heq]
        exact ⟨ha, hb, heq⟩
    | mul a b =>
      have ha := htwice a (hleft a b)
      have hb := htwice b (hright a b)
      rw [simplifyStep]
      rcases mul_cases (simplify f (simplify f a)) (simplify f (simplify f b)) with
        ⟨-, heq⟩ | ⟨-, heq⟩ | ⟨-, heq⟩ | ⟨x, y, -, -, heq⟩ | heq
      · rw [heq]
        trivial
      · rwa [heq]
      · rwa [heq]
      · rw [heq]
        trivial
      · rw [heq]
        exact ⟨ha, hb, heq⟩
    | div a b =>
      have ha := htwice a (hleft a b)
      have hb := htwice b (hright a b)
      rw [simplifyStep]
      rcases div_cases (simplify f (simplify f a)) (simplify f (simplify f b)) with
        ⟨-, heq⟩ | ⟨-, heq⟩ | ⟨x, y, -, -, -, heq⟩ | heq
      · rw [heq]
        trivial
      · rwa [heq]
      · rw [heq]
        trivial
      · rw [heq]
        exact ⟨ha, hb, heq⟩
    | neg a =>
      have ha := htwice a (Nat.lt_succ_self _)
      rw [simplifyStep]
      rcases neg_cases (simplify f (simplify f a)) with ⟨x, -, heq⟩ | ⟨x, hx, heq⟩ | heq
      · rw [heq]
        trivial
      · rw [hx] at ha
        rw [heq]
        exact ha.1
      · rw [heq]
        exact ⟨ha, heq⟩
    | pow a b => exact normal_simplifyPow (hchild a (hleft a b)) (hchild b (hright a b))
    | sin a => exact normal_foldConst (fun _ ↦ Iff.rfl) (hchild a (Nat.lt_succ_self _))
    | cos a => exact normal_foldConst (fun _ ↦ Iff.rfl) (hchild a (Nat.lt_succ_self _))
    | exp a => exact normal_foldConst (fun _ ↦ Iff.rfl) (hchild a (Nat.lt_succ_self _))
    | ln a => exact normal_foldConst (fun _ ↦ Iff.rfl) (hchild a (Nat.lt_succ_self _))
    | sqrt a => exact normal_foldConst (fun _ ↦ Iff.rfl) (hchild a (Nat.lt_succ_self _))
    | abs a => exact normal_foldConst (fun _ ↦ Iff.rfl) (hchild a (Nat.lt_succ_self _))

/-- The second simplification of an operand changes nothing. -/
theorem simplify_simplify (e : Expr F) : simplify f (simplify f e) = simplify f e :=
  simplify_of_normal (normal_simplify e)

/-! ## Values -/

/-- Powers with the exponents zero and one. -/
structure LawfulPowers (f : Functions F) : Prop where
  powf_zero : ∀ x, f.powf x 0 = 1
  powf_one : ∀ x, f.powf x 1 = x

variable {vars : Str → Option F} {v : F}

theorem eval_simplifyPow (hf : LawfulPowers f) (hv : eval f vars (.pow a b) = .ok v) :
    eval f vars (simplifyPow f a b) = .ok v := by
  obtain ⟨x, hx, y, hy, hvalue⟩ := eval_pow_eq_ok.mp hv
  rcases simplifyPow_cases f a b with ⟨c, n, rfl, rfl, heq⟩ | ⟨rfl, heq⟩ | ⟨rfl, heq⟩ | heq
  · rw [heq, eval, hvalue, ← Except.ok.inj hx, ← Except.ok.inj hy]
  · rw [heq, eval, hvalue, ← Except.ok.inj hy, hf.powf_zero]
  · rw [heq, hx, hvalue, ← Except.ok.inj hy, hf.powf_one]
  · rw [heq, hv]

/-- A function is folded where its value is that of the node. -/
theorem eval_foldConst {domain : F → Prop} [DecidablePred domain] {g : F → F}
    {node : Expr F → Expr F}
    (hnode : ∀ c, domain c → eval f vars (node (.const c)) = .ok (g c))
    (hv : eval f vars (node a) = .ok v) : eval f vars (foldConst domain g node a) = .ok v := by
  cases a with
  | const c =>
    by_cases hdomain : domain c
    · rw [foldConst, if_pos hdomain, eval, ← hnode c hdomain, hv]
    · rwa [foldConst, if_neg hdomain]
  | _ => exact hv

/-- **The value is preserved.** -/
theorem eval_simplify (hf : LawfulPowers f) {e : Expr F} (hv : eval f vars e = .ok v) :
    eval f vars (simplify f e) = .ok v := by
  induction e generalizing v with
  | const c => exact hv
  | var x => exact hv
  | add a b iha ihb =>
    obtain ⟨x, hx, y, hy, hvalue⟩ := eval_add_eq_ok.mp hv
    rw [simplify_eq, simplifyStep, simplify_simplify, simplify_simplify, eval_plus]
    exact eval_add_eq_ok.mpr ⟨x, iha hx, y, ihb hy, hvalue⟩
  | sub a b iha ihb =>
    obtain ⟨x, hx, y, hy, hvalue⟩ := eval_sub_eq_ok.mp hv
    rw [simplify_eq, simplifyStep, simplify_simplify, simplify_simplify, eval_minus]
    exact eval_sub_eq_ok.mpr ⟨x, iha hx, y, ihb hy, hvalue⟩
  | mul a b iha ihb =>
    obtain ⟨x, hx, y, hy, hvalue⟩ := eval_mul_eq_ok.mp hv
    rw [simplify_eq, simplifyStep, simplify_simplify, simplify_simplify]
    exact eval_times (eval_mul_eq_ok.mpr ⟨x, iha hx, y, ihb hy, hvalue⟩)
  | div a b iha ihb =>
    obtain ⟨y, hy, hne, x, hx, hvalue⟩ := eval_div_eq_ok.mp hv
    rw [simplify_eq, simplifyStep, simplify_simplify, simplify_simplify]
    exact eval_dividedBy (eval_div_eq_ok.mpr ⟨y, ihb hy, hne, x, iha hx, hvalue⟩)
  | neg a iha =>
    obtain ⟨x, hx, hvalue⟩ := eval_neg_eq_ok.mp hv
    rw [simplify_eq, simplifyStep, simplify_simplify, eval_negated]
    exact eval_neg_eq_ok.mpr ⟨x, iha hx, hvalue⟩
  | pow a b iha ihb =>
    obtain ⟨x, hx, y, hy, hvalue⟩ := eval_pow_eq_ok.mp hv
    rw [simplify_eq, simplifyStep]
    exact eval_simplifyPow hf (eval_pow_eq_ok.mpr ⟨x, iha hx, y, ihb hy, hvalue⟩)
  | sin a iha =>
    obtain ⟨x, hx, hvalue⟩ := eval_sin_eq_ok.mp hv
    rw [simplify_eq, simplifyStep]
    exact eval_foldConst (fun _ _ ↦ rfl) (eval_sin_eq_ok.mpr ⟨x, iha hx, hvalue⟩)
  | cos a iha =>
    obtain ⟨x, hx, hvalue⟩ := eval_cos_eq_ok.mp hv
    rw [simplify_eq, simplifyStep]
    exact eval_foldConst (fun _ _ ↦ rfl) (eval_cos_eq_ok.mpr ⟨x, iha hx, hvalue⟩)
  | exp a iha =>
    obtain ⟨x, hx, hvalue⟩ := eval_exp_eq_ok.mp hv
    rw [simplify_eq, simplifyStep]
    exact eval_foldConst (fun _ _ ↦ rfl) (eval_exp_eq_ok.mpr ⟨x, iha hx, hvalue⟩)
  | ln a iha =>
    obtain ⟨x, hx, hpos, hvalue⟩ := eval_ln_eq_ok.mp hv
    rw [simplify_eq, simplifyStep]
    refine eval_foldConst (fun c hc ↦ ?_) (eval_ln_eq_ok.mpr ⟨x, iha hx, hpos, hvalue⟩)
    exact eval_ln_eq_ok.mpr ⟨c, rfl, hc, rfl⟩
  | sqrt a iha =>
    obtain ⟨x, hx, hnonneg, hvalue⟩ := eval_sqrt_eq_ok.mp hv
    rw [simplify_eq, simplifyStep]
    refine eval_foldConst (fun c hc ↦ ?_) (eval_sqrt_eq_ok.mpr ⟨x, iha hx, hnonneg, hvalue⟩)
    exact eval_sqrt_eq_ok.mpr ⟨c, rfl, hc, rfl⟩
  | abs a iha =>
    obtain ⟨x, hx, hvalue⟩ := eval_abs_eq_ok.mp hv
    rw [simplify_eq, simplifyStep]
    exact eval_foldConst (fun _ _ ↦ rfl) (eval_abs_eq_ok.mpr ⟨x, iha hx, hvalue⟩)

variable (f) in
/-- What simplification and the operators that fold promise. -/
structure PreservesValues : Prop where
  simplify : ∀ e vars v, eval f vars e = .ok v → eval f vars (simplify f e) = .ok v
  idempotent : ∀ e, Symbolic.simplify f (Symbolic.simplify f e) = Symbolic.simplify f e
  add : ∀ a b vars v, eval f vars (.add a b) = .ok v → eval f vars (a + b) = .ok v
  sub : ∀ a b vars v, eval f vars (.sub a b) = .ok v → eval f vars (a - b) = .ok v
  mul : ∀ a b vars v, eval f vars (.mul a b) = .ok v → eval f vars (a * b) = .ok v
  div : ∀ a b vars v, eval f vars (.div a b) = .ok v → eval f vars (a / b) = .ok v
  neg : ∀ a vars v, eval f vars (.neg a) = .ok v → eval f vars (-a) = .ok v

/-- **Simplification** preserves every value, and so do the operators. -/
theorem preservesValues (hf : LawfulPowers f) : PreservesValues f where
  simplify _ _ _ := eval_simplify hf
  idempotent := simplify_simplify
  add _ _ _ _ hv := eval_plus.trans hv
  sub _ _ _ _ hv := eval_minus.trans hv
  mul _ _ _ _ := eval_times
  div _ _ _ _ := eval_dividedBy
  neg _ _ _ hv := eval_negated.trans hv

end Simplify

theorem preservesValues_real : PreservesValues realFunctions :=
  preservesValues ⟨Real.rpow_zero, Real.rpow_one⟩

end SoulSystem.Scirust.Symbolic
