import SoulSystem.Scirust.Fixed.Truncation
import SoulSystem.Scirust.Transcendental.Exponential

/-!
# The softmax of a list

The weight of an element is the exponential of its difference to the maximum.  The maximum itself
has the weight one, and no weight is larger.  A share is the weight divided by the sum of all
weights, and rounded twice.  Each share is off by at most one unit, so their sum is off by at most
their number.
-/

namespace SoulSystem.Scirust.Transcendental

open List

/-! ## Definitions -/

section Definitions

variable {frac : ℕ} (r : Reading)

/-- The first maximum. -/
def maximum (first : Fixed 32 frac) (rest : List (Fixed 32 frac)) : Fixed 32 frac :=
  rest.foldl (fun m x ↦ if m.raw.toInt < x.raw.toInt then x else m) first

/-- The exponential of the difference to the maximum. -/
def weight (mQ : ℤ) (x : Fixed 32 frac) : Option ℤ := do
  let difference ← i64 r ((← toQ32 r x) - mQ)
  exp2Core r (← mulQ r difference log2eQ32)

/-- The list that is written.  Lists of different lengths panic. -/
def softmaxInto (input out : List (Fixed 32 frac)) : Option (List (Fixed 32 frac)) :=
  if input.length ≠ out.length then none
  else
    match input with
    | [] => some out
    | first :: rest => do
        let mQ ← toQ32 r (maximum first rest)
        let sum ← input.foldlM (fun sum x ↦ do i128 r (sum + (← weight r mQ x))) 0
        input.mapM fun x ↦ do
          let e ← weight r mQ x
          return fromQ32 (← divI128 r (← i128 r (e * 2 ^ 32)) sum)

end Definitions

/-! ## Weights -/

/-- An element that no element exceeds. -/
def IsMaximum {frac : ℕ} (m : Fixed 32 frac) (input : List (Fixed 32 frac)) : Prop :=
  m ∈ input ∧ ∀ x ∈ input, x.raw.toInt ≤ m.raw.toInt

section Weights

variable {frac : ℕ} {r : Reading}

theorem isMaximum_maximum (first : Fixed 32 frac) (rest : List (Fixed 32 frac)) :
    IsMaximum (maximum first rest) (first :: rest) := by
  induction rest generalizing first with
  | nil =>
    refine ⟨mem_singleton_self first, fun x hx ↦ ?_⟩
    rw [List.mem_singleton.mp hx]
    exact le_rfl
  | cons x rest ih =>
    rw [maximum, foldl_cons]
    by_cases hless : first.raw.toInt < x.raw.toInt
    · rw [if_pos hless]
      obtain ⟨hmem, hmax⟩ := ih x
      refine ⟨mem_cons_of_mem first hmem, fun y hy ↦ ?_⟩
      rcases List.mem_cons.mp hy with hfirst | hrest
      · rw [hfirst]
        exact hless.le.trans (hmax x mem_cons_self)
      · exact hmax y hrest
    · rw [if_neg hless]
      obtain ⟨hmem, hmax⟩ := ih first
      refine ⟨?_, fun y hy ↦ ?_⟩
      · rcases List.mem_cons.mp hmem with hfirst | hrest
        · exact List.mem_cons.mpr (.inl hfirst)
        · exact mem_cons_of_mem first (mem_cons_of_mem x hrest)
      · rcases List.mem_cons.mp hy with hfirst | hrest
        · exact hmax y (List.mem_cons.mpr (.inl hfirst))
        · rcases List.mem_cons.mp hrest with hx | hrest
          · rw [hx]
            exact (not_lt.mp hless).trans (hmax first mem_cons_self)
          · exact hmax y (mem_cons_of_mem first hrest)

theorem IsMaximum.unique {m m' : Fixed 32 frac} {input : List (Fixed 32 frac)}
    (hm : IsMaximum m input) (hm' : IsMaximum m' input) : m = m' := by
  have hraw : m.raw = m'.raw := BitVec.eq_of_toInt_eq (le_antisymm (hm'.2 m hm.1) (hm.2 m' hm'.1))
  cases m
  cases m'
  exact congrArg Fixed.mk hraw

/-- The value of a weight. -/
def weightVal (m x : Fixed 32 frac) : ℤ := exp2Val (mulVal (q32 x - q32 m) log2eQ32)

theorem exp2Val_le_one {y : ℤ} (hy : y ≤ 0) : exp2Val y ≤ 2 ^ 32 := by
  have hnearest : nearest y ≤ 0 := by
    rw [nearest]
    omega
  obtain ⟨hlow, hhigh⟩ := mantissa_bounds y
  rw [exp2Val]
  split_ifs with hover hunder hsign
  · omega
  · norm_num
  · have hzero : nearest y = 0 := le_antisymm hnearest hsign
    have hpos := (abs_exp2_tail_le (abs_fraction_le y)).1
    have hproduct :
        mulVal (polyVal (y - nearest y * 2 ^ 32) exp2C.tail) (y - nearest y * 2 ^ 32) ≤ 0 := by
      rw [mulVal]
      rw [hzero] at hpos ⊢
      have hneg : polyVal (y - 0 * 2 ^ 32) exp2C.tail * (y - 0 * 2 ^ 32) ≤ 0 := by nlinarith
      omega
    rw [hzero]
    change (mulVal (polyVal _ exp2C.tail) _ + 4294967296) * 2 ^ 0 ≤ 2 ^ 32
    omega
  · have htwo : (2 : ℤ) ^ 1 ≤ 2 ^ (-nearest y).toNat := pow_le_pow_right₀ (by norm_num) (by omega)
    refine Int.ediv_le_of_le_mul (by positivity) ?_
    nlinarith

theorem weightVal_self (m : Fixed 32 frac) : weightVal m m = 2 ^ 32 := by
  rw [weightVal, sub_self]
  decide +kernel

theorem weightVal_bounds {m x : Fixed 32 frac} (hle : x.raw.toInt ≤ m.raw.toInt) :
    0 ≤ weightVal m x ∧ weightVal m x ≤ 2 ^ 32 := by
  refine ⟨(exp2Val_bounds _).1, exp2Val_le_one ?_⟩
  have hdifference : q32 x ≤ q32 m := mul_le_mul_of_nonneg_right hle (by positivity)
  rw [mulVal, log2eQ32]
  omega

/-- A weight has a value if the difference has a margin. -/
theorem weight_eq {m x : Fixed 32 frac} (hle : x.raw.toInt ≤ m.raw.toInt)
    (hmargin : Margin (q32 x - q32 m)) : weight r (q32 m) x = some (weightVal m x) := by
  have hdifference : q32 x ≤ q32 m := mul_le_mul_of_nonneg_right hle (by positivity)
  have hlow : -2 ^ 63 ≤ q32 x - q32 m := by
    rw [Margin, mulVal, log2eQ32] at hmargin
    omega
  rw [weight, toQ32_eq, Option.bind_eq_bind, Option.bind_some, i64_eq hlow (by omega),
    Option.bind_some, mulQ_log2e hlow (by omega) hmargin, Option.bind_some,
    exp2Core_eq hmargin.1 hmargin.2]
  rfl

end Weights

/-! ## Shares -/

section Shares

variable {frac : ℕ} {r : Reading} {m : Fixed 32 frac} {input : List (Fixed 32 frac)}

/-- The sum of the weights. -/
def total (m : Fixed 32 frac) (input : List (Fixed 32 frac)) : ℤ := (input.map (weightVal m)).sum

/-- The share of an element. -/
def share (m : Fixed 32 frac) (input : List (Fixed 32 frac)) (x : Fixed 32 frac) : Fixed 32 frac :=
  fromQ32 (weightVal m x * 2 ^ 32 / total m input)

theorem total_cons (first : Fixed 32 frac) (rest : List (Fixed 32 frac)) :
    total m (first :: rest) = weightVal m first + total m rest := sum_cons

theorem total_bounds (hmax : ∀ x ∈ input, x.raw.toInt ≤ m.raw.toInt) :
    0 ≤ total m input ∧ total m input ≤ input.length * 2 ^ 32 ∧
      ∀ x ∈ input, weightVal m x ≤ total m input := by
  induction input with
  | nil => exact ⟨le_rfl, (zero_mul _).ge, fun x hx ↦ absurd hx not_mem_nil⟩
  | cons first rest ih =>
    rw [forall_mem_cons] at hmax
    obtain ⟨hnonneg, hle⟩ := weightVal_bounds hmax.1
    obtain ⟨hrest, hrestLe, hmem⟩ := ih hmax.2
    rw [total_cons, length_cons, Nat.cast_succ]
    refine ⟨by omega, by omega, List.forall_mem_cons.mpr ⟨by omega, fun x hx ↦ ?_⟩⟩
    have hx := hmem x hx
    omega

/-- The sum is accumulated without a loss. -/
theorem foldlM_weight (hmax : ∀ x ∈ input, x.raw.toInt ≤ m.raw.toInt)
    (hmargin : ∀ x ∈ input, Margin (q32 x - q32 m)) {acc : ℤ} (hacc : 0 ≤ acc)
    (hroom : acc + total m input < 2 ^ 127) :
    input.foldlM (fun sum x ↦ do i128 r (sum + (← weight r (q32 m) x))) acc =
      some (acc + total m input) := by
  induction input generalizing acc with
  | nil => exact congrArg some (add_zero acc).symm
  | cons first rest ih =>
    rw [forall_mem_cons] at hmax hmargin
    have hnonneg := (weightVal_bounds hmax.1).1
    have hrest := (total_bounds hmax.2).1
    rw [total_cons] at hroom ⊢
    have hstep : (do i128 r (acc + (← weight r (q32 m) first))) =
        some (acc + weightVal m first) := by
      rw [weight_eq hmax.1 hmargin.1, Option.bind_eq_bind, Option.bind_some]
      exact i128_eq (by omega) (by omega)
    rw [foldlM_cons, hstep]
    refine (ih hmax.2 hmargin.2 (by omega) (by omega)).trans ?_
    rw [add_assoc]

/-- **The softmax of a list** has no loss if every difference has a margin. -/
theorem softmaxInto_eq (hmax : IsMaximum m input) (hmargin : ∀ x ∈ input, Margin (q32 x - q32 m))
    (hlength : input.length < 2 ^ 62) {out : List (Fixed 32 frac)}
    (hout : input.length = out.length) :
    softmaxInto r input out = some (input.map (share m input)) := by
  obtain ⟨hnonneg, hle, hmem⟩ := total_bounds hmax.2
  have hself := hmem m hmax.1
  rw [weightVal_self] at hself
  have hlengthInt : (input.length : ℤ) < 2 ^ 62 := by exact_mod_cast hlength
  have hroom : 0 + total m input < 2 ^ 127 := by omega
  cases input with
  | nil => exact absurd hmax.1 not_mem_nil
  | cons first rest =>
    unfold softmaxInto
    rw [if_neg (not_not_intro hout)]
    have hfirst : maximum first rest = m := (isMaximum_maximum first rest).unique hmax
    simp only [hfirst]
    rw [toQ32_eq, Option.bind_eq_bind, Option.bind_some,
      foldlM_weight hmax.2 hmargin le_rfl hroom, Option.bind_some, zero_add]
    refine Library.Outcome.mapM_some fun x hx ↦ ?_
    obtain ⟨hweight, hweightLe⟩ := weightVal_bounds (hmax.2 x hx)
    have hquotient :
        0 ≤ weightVal m x * 2 ^ 32 / total m (first :: rest) ∧
          weightVal m x * 2 ^ 32 / total m (first :: rest) ≤ 2 ^ 64 :=
      ⟨Int.ediv_nonneg (by omega) (by omega), Int.ediv_le_of_le_mul (by omega) (by nlinarith)⟩
    rw [weight_eq (hmax.2 x hx) (hmargin x hx), Option.bind_eq_bind, Option.bind_some,
      i128_eq (by omega) (by omega), Option.bind_some, divI128, if_neg (by omega),
      Int.tdiv_eq_ediv_of_nonneg (by omega), i128_eq (by omega) (by omega)]
    rfl

/-- A share before the last rounding. -/
theorem quotient_bounds (hmax : IsMaximum m input) {x : Fixed 32 frac} (hx : x ∈ input) :
    0 < total m input ∧ 0 ≤ weightVal m x * 2 ^ 32 / total m input ∧
      weightVal m x * 2 ^ 32 / total m input ≤ 2 ^ 32 := by
  obtain ⟨-, -, hmem⟩ := total_bounds hmax.2
  have hself := hmem m hmax.1
  rw [weightVal_self] at hself
  have hweight := (weightVal_bounds (hmax.2 x hx)).1
  have hle := hmem x hx
  refine ⟨by omega, Int.ediv_nonneg (by omega) (by omega), ?_⟩
  refine Int.ediv_le_of_le_mul (by omega) ?_
  linarith

theorem toInt_share (hfrac : frac ≤ 31) (hmax : IsMaximum m input) {x : Fixed 32 frac}
    (hx : x ∈ input) : (share m input x).raw.toInt =
      min ((weightVal m x * 2 ^ 32 / total m input + 2 ^ (31 - frac)) / 2 ^ (32 - frac))
        (2 ^ 31 - 1) := by
  obtain ⟨htotal, hnonneg, hle⟩ := quotient_bounds hmax hx
  have hhalf : (2 : ℤ) ^ (31 - frac) ≤ 2 ^ 31 := pow_le_pow_right₀ (by norm_num) (by omega)
  have hhalfPos : (0 : ℤ) < 2 ^ (31 - frac) := by positivity
  have hrounded :
      0 ≤ (weightVal m x * 2 ^ 32 / total m input + 2 ^ (31 - frac)) / 2 ^ (32 - frac) :=
    Int.ediv_nonneg (by omega) (by positivity)
  rw [share, toInt_fromQ32 hfrac (by rw [maxI128]; omega)]
  omega

/-- A share is between zero and one. -/
theorem share_bounds (hfrac : frac ≤ 30) (hmax : IsMaximum m input) {x : Fixed 32 frac}
    (hx : x ∈ input) :
    0 ≤ (share m input x).raw.toInt ∧ (share m input x).raw.toInt ≤ 2 ^ frac := by
  obtain ⟨htotal, hnonneg, hle⟩ := quotient_bounds hmax hx
  have hhalfPos : (0 : ℤ) < 2 ^ (31 - frac) := by positivity
  have hrounded :
      0 ≤ (weightVal m x * 2 ^ 32 / total m input + 2 ^ (31 - frac)) / 2 ^ (32 - frac) :=
    Int.ediv_nonneg (by omega) (by positivity)
  have hone := @add_half_div_unit frac (by omega) 1
  have hquotient : (weightVal m x * 2 ^ 32 / total m input + 2 ^ (31 - frac)) / 2 ^ (32 - frac) ≤
      (1 * 2 ^ 32 + 2 ^ (31 - frac)) / 2 ^ (32 - frac) :=
    Int.ediv_le_ediv (by positivity) (by omega)
  rw [toInt_share (by omega) hmax hx]
  omega

/-- A quotient `q` that is rounded to a coarser unit is off by at most one of these units. -/
theorem abs_rounded_sub_le {e s q out unit half : ℤ} (hs : 0 < s) (hhalf : 0 < half)
    (hbelow : q * s ≤ e * (unit * (2 * half))) (habove : e * (unit * (2 * half)) < (q + 1) * s)
    (hlow : out * (2 * half) ≤ q + half) (hhigh : q + half < (out + 1) * (2 * half)) :
    |out * s - e * unit| ≤ s := by
  rw [abs_le]
  constructor
  · have hstep : (q + 1) * s ≤ (out + 1) * (2 * half) * s :=
      mul_le_mul_of_nonneg_right (by omega) hs.le
    have hscaled : e * unit * (2 * half) < (out + 1) * s * (2 * half) := by linarith
    have hless := lt_of_mul_lt_mul_right hscaled (by omega)
    linarith
  · have hstep : out * (2 * half) * s ≤ (q + half) * s := mul_le_mul_of_nonneg_right hlow hs.le
    have hscaled : out * s * (2 * half) ≤ (e * unit + s) * (2 * half) := by
      nlinarith [mul_pos hhalf hs]
    have hle := le_of_mul_le_mul_right hscaled (by omega)
    linarith

/-- A share is off by at most one unit. -/
theorem share_close (hfrac : frac ≤ 30) (hmax : IsMaximum m input) {x : Fixed 32 frac}
    (hx : x ∈ input) :
    |(share m input x).raw.toInt * total m input - weightVal m x * 2 ^ frac| ≤ total m input := by
  obtain ⟨htotal, hnonneg, hle⟩ := quotient_bounds hmax hx
  have hunit : (0 : ℤ) < 2 ^ (32 - frac) := by positivity
  have hhalf : (2 : ℤ) ^ (32 - frac) = 2 * 2 ^ (31 - frac) := by
    rw [← pow_succ']
    congr 1
    omega
  have hone := @add_half_div_unit frac (by omega) 1
  have hquotient : (weightVal m x * 2 ^ 32 / total m input + 2 ^ (31 - frac)) / 2 ^ (32 - frac) ≤
      (1 * 2 ^ 32 + 2 ^ (31 - frac)) / 2 ^ (32 - frac) :=
    Int.ediv_le_ediv hunit (by omega)
  have hpow : (2 : ℤ) ^ frac ≤ 2 ^ 30 := pow_le_pow_right₀ (by norm_num) hfrac
  have hshare := toInt_share (by omega) hmax hx
  rw [min_eq_left (by omega)] at hshare
  have hsplit : (2 : ℤ) ^ 32 = 2 ^ frac * (2 * 2 ^ (31 - frac)) := by
    rw [← hhalf, unit_mul_unit (by omega)]
  refine abs_rounded_sub_le htotal (show (0 : ℤ) < 2 ^ (31 - frac) by positivity)
    (q := weightVal m x * 2 ^ 32 / total m input) ?_ ?_ ?_ ?_
  · rw [← hsplit]
    exact Int.ediv_mul_le _ htotal.ne'
  · rw [← hsplit]
    exact Int.lt_ediv_add_one_mul_self _ htotal
  · rw [← hhalf, hshare]
    exact Int.ediv_mul_le _ hunit.ne'
  · rw [← hhalf, hshare]
    exact Int.lt_ediv_add_one_mul_self _ hunit

/-- Shares that are each off by at most one unit add up to the whole. -/
theorem abs_sum_sub_le {n : ℕ} {e y : Fin n → ℤ} {s unit : ℤ} (hs : 0 < s) (hsum : ∑ i, e i = s)
    (hclose : ∀ i, |y i * s - e i * unit| ≤ s) : |∑ i, y i - unit| ≤ n := by
  have hfactor : (∑ i, y i - unit) * s = ∑ i, (y i * s - e i * unit) := by
    rw [Finset.sum_sub_distrib, ← Finset.sum_mul, ← Finset.sum_mul, hsum]
    ring
  have htotal : |∑ i, y i - unit| * s ≤ n * s := by
    calc
      |∑ i, y i - unit| * s = |∑ i, (y i * s - e i * unit)| := by
        rw [← hfactor, abs_mul, abs_of_pos hs]
      _ ≤ ∑ i, |y i * s - e i * unit| := Finset.abs_sum_le_sum_abs _ _
      _ ≤ ∑ _i : Fin n, s := Finset.sum_le_sum fun i _ ↦ hclose i
      _ = n * s := by rw [Finset.sum_const, Finset.card_univ, Fintype.card_fin, nsmul_eq_mul]
  exact le_of_mul_le_mul_right htotal hs

end Shares

/-! ## Probability vectors -/

section Probability

variable {frac : ℕ} {n : ℕ}

/-- With two fraction bits or more, every difference has a margin. -/
theorem margin_difference (hfrac : 2 ≤ frac) (x m : Fixed 32 frac) : Margin (q32 x - q32 m) := by
  obtain ⟨hxlow, hxhigh⟩ := toInt_bounds x.raw
  obtain ⟨hmlow, hmhigh⟩ := toInt_bounds m.raw
  have hunit : (2 : ℤ) ^ (32 - frac) ≤ 2 ^ 30 := pow_le_pow_right₀ (by norm_num) (by omega)
  have hraw : |x.raw.toInt - m.raw.toInt| ≤ 2 ^ 32 := abs_le.mpr ⟨by omega, by omega⟩
  refine margin_of_abs_le ?_
  rw [q32, q32, ← sub_mul, abs_mul, abs_of_pos (show (0 : ℤ) < 2 ^ (32 - frac) by positivity)]
  exact (mul_le_mul hraw hunit (by positivity) (by norm_num)).trans (by norm_num)

theorem exists_isMaximum {input : List (Fixed 32 frac)} (hne : input ≠ []) :
    ∃ m, IsMaximum m input := by
  cases input with
  | nil => exact absurd rfl hne
  | cons first rest => exact ⟨maximum first rest, isMaximum_maximum first rest⟩

theorem total_perm {m : Fixed 32 frac} {input input' : List (Fixed 32 frac)}
    (hperm : input.Perm input') : total m input = total m input' := (hperm.map _).sum_eq

/-- **The softmax is a probability vector** that follows its input: it has no loss, every entry is
between zero and one, the sum is off by at most the number of entries, equal inputs have equal
entries, and a permutation of the input permutes the entries. -/
theorem softmaxInto_probability (hlow : 2 ≤ frac) (hhigh : frac ≤ 30) (hpos : 0 < n)
    (hn : n < 2 ^ 20) (x : Fin n → Fixed 32 frac) :
    ∃ y : Fin n → Fixed 32 frac,
      (∀ r out, out.length = n → softmaxInto r (List.ofFn x) out = some (List.ofFn y)) ∧
        (∀ i, 0 ≤ (y i).raw.toInt ∧
          (y i).raw.toInt ≤ (Fixed.one : Fixed 32 frac).raw.toInt) ∧
        |∑ i, (y i).raw.toInt - 2 ^ frac| ≤ n ∧
        (∀ i j, x i = x j → y i = y j) ∧
        ∀ (σ : Equiv.Perm (Fin n)) r out, out.length = n →
          softmaxInto r (List.ofFn (x ∘ σ)) out = some (List.ofFn (y ∘ σ)) := by
  have hne : List.ofFn x ≠ [] := fun hnil ↦ hpos.ne' (List.ofFn_eq_nil_iff.mp hnil)
  obtain ⟨m, hmax⟩ := exists_isMaximum hne
  have hmem : ∀ i, x i ∈ List.ofFn x := fun i ↦ List.mem_ofFn.mpr ⟨i, rfl⟩
  have hperm : ∀ σ : Equiv.Perm (Fin n), (List.ofFn (x ∘ σ)).Perm (List.ofFn x) :=
    fun σ ↦ σ.ofFn_comp_perm x
  have hrun : ∀ (σ : Equiv.Perm (Fin n)) r (out : List (Fixed 32 frac)), out.length = n →
      softmaxInto r (List.ofFn (x ∘ σ)) out =
        some (List.ofFn ((fun i ↦ share m (List.ofFn x) (x i)) ∘ σ)) := by
    intro σ r out hout
    have hmax' : IsMaximum m (List.ofFn (x ∘ σ)) :=
      ⟨(hperm σ).mem_iff.mpr hmax.1, fun y hy ↦ hmax.2 y ((hperm σ).mem_iff.mp hy)⟩
    have hshare : share m (List.ofFn (x ∘ σ)) = share m (List.ofFn x) := by
      funext y
      rw [share, share, total_perm (hperm σ)]
    rw [softmaxInto_eq hmax' (fun y _ ↦ margin_difference hlow y m)
      (by rw [length_ofFn]; omega) (by rw [length_ofFn, hout]), hshare, map_ofFn]
    rfl
  refine ⟨fun i ↦ share m (List.ofFn x) (x i), hrun 1, fun i ↦ ?_, ?_, fun i j hij ↦ ?_, hrun⟩
  · rw [toInt_one (by omega)]
    exact share_bounds hhigh hmax (hmem i)
  · have htotal : ∑ i, weightVal m (x i) = total m (List.ofFn x) := by
      rw [total, map_ofFn, sum_ofFn]
      rfl
    exact abs_sum_sub_le (quotient_bounds hmax hmax.1).1 htotal
      fun i ↦ share_close hhigh hmax (hmem i)
  · change share m _ (x i) = share m _ (x j)
    rw [hij]

/-- The softmax of two numbers with sixteen fraction bits. -/
theorem softmaxInto_probability_two :
    ∃ y : Fin 2 → Fixed 32 16,
      (∀ r out, out.length = 2 → softmaxInto r (List.ofFn ![⟨3⟩, ⟨5⟩]) out = some (List.ofFn y)) ∧
        |∑ i, (y i).raw.toInt - 2 ^ 16| ≤ ((2 : ℕ) : ℤ) := by
  obtain ⟨y, hrun, -, hsum, -⟩ := softmaxInto_probability (show 2 ≤ 16 by decide) (by decide)
    (show 0 < 2 by decide) (by decide) ![⟨3⟩, ⟨5⟩]
  exact ⟨y, hrun, hsum⟩

end Probability

end SoulSystem.Scirust.Transcendental
