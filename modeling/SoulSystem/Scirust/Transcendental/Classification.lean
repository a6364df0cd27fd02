import SoulSystem.Scirust.Transcendental.Softmax

/-!
# The class of an input and the probabilities of the classes

The class is the first maximum of the outputs of a layer.  The exponentials and the shares never
change the order of two outputs, but they may be rounded to the same number.  The class is the first
maximum of the probabilities exactly if the share of every earlier class is rounded to a smaller
number than the share of the maximum.
-/

namespace SoulSystem.Scirust.Transcendental

open List

variable {frac : ℕ}

/-! ## The first maximum -/

/-- The first maximum, with its index. -/
def bestOf (data : List (Fixed 32 frac)) : Option (Fixed 32 frac × ℕ) :=
  data.zipIdx.foldl (fun best v ↦
    match best with
    | none => some v
    | some b => if b.1.raw.toInt < v.1.raw.toInt then some v else some b) none

/-- The index of the first maximum. -/
def argmax (data : List (Fixed 32 frac)) : Option ℕ := (bestOf data).map Prod.snd

def predictClass (lin : Linear frac) (x : List (Fixed 32 frac)) : Except Failure (Option ℕ) := do
  return argmax (← lin.forward x)

/-- There is no list if the softmax has no value. -/
def predictProba (lin : Linear frac) (r : Reading) (x : List (Fixed 32 frac)) :
    Except Failure (Option (List (Fixed 32 frac))) := do
  let logits ← lin.forward x
  return softmaxInto r logits (List.replicate logits.length 0)

/-- The class is the first maximum of the probabilities, whatever the reading. -/
def Agrees (lin : Linear frac) (x : List (Fixed 32 frac)) : Prop :=
  ∀ r, (do return (← predictProba lin r x).map argmax) =
    (do return some (← predictClass lin x) : Except Failure (Option (Option ℕ)))

/-- The integer of an entry. -/
def rawAt (data : List (Fixed 32 frac)) (i : ℕ) : ℤ := (data.getD i ⟨0⟩).raw.toInt

/-- No entry is larger, and no earlier entry is as large. -/
def IsFirstMax (data : List (Fixed 32 frac)) (i : ℕ) : Prop :=
  i < data.length ∧ (∀ j < data.length, rawAt data j ≤ rawAt data i) ∧
    ∀ j < i, rawAt data j < rawAt data i

theorem IsFirstMax.unique {data : List (Fixed 32 frac)} {i j : ℕ} (hi : IsFirstMax data i)
    (hj : IsFirstMax data j) : i = j := by
  rcases lt_trichotomy i j with hless | heq | hmore
  · exact absurd (hi.2.1 j hj.1) (not_le.mpr (hj.2.2 i hless))
  · exact heq
  · exact absurd (hj.2.1 i hi.1) (not_le.mpr (hi.2.2 j hmore))

theorem rawAt_append_left {data : List (Fixed 32 frac)} {j : ℕ} (hj : j < data.length)
    (x : Fixed 32 frac) : rawAt (data ++ [x]) j = rawAt data j := by
  rw [rawAt, rawAt, getD_append _ _ _ _ hj]

theorem rawAt_append_last (data : List (Fixed 32 frac)) (x : Fixed 32 frac) :
    rawAt (data ++ [x]) data.length = x.raw.toInt := by
  rw [rawAt, getD_append_right _ _ _ _ le_rfl, Nat.sub_self]
  rfl

theorem bestOf_concat (data : List (Fixed 32 frac)) (x : Fixed 32 frac) :
    bestOf (data ++ [x]) =
      match bestOf data with
      | none => some (x, data.length)
      | some b => if b.1.raw.toInt < x.raw.toInt then some (x, data.length) else some b := by
  rw [bestOf, zipIdx_append, foldl_append, Nat.zero_add]
  rfl

theorem bestOf_spec {data : List (Fixed 32 frac)} (hne : data ≠ []) :
    ∃ b, bestOf data = some b ∧ b.1.raw.toInt = rawAt data b.2 ∧ IsFirstMax data b.2 := by
  induction data using List.reverseRecOn with
  | nil => exact absurd rfl hne
  | append_singleton data x ih =>
    have hlast := rawAt_append_last data x
    rw [bestOf_concat]
    by_cases hempty : data = []
    · subst hempty
      refine ⟨(x, 0), rfl, rfl, Nat.one_pos, fun j hj ↦ ?_,
        fun j hj ↦ absurd hj (Nat.not_lt_zero j)⟩
      rw [Nat.lt_one_iff.mp hj]
    · obtain ⟨b, hb, hraw, hlt, hmax, hfirst⟩ := ih hempty
      rw [hb]
      by_cases hless : b.1.raw.toInt < x.raw.toInt
      · refine ⟨(x, data.length), if_pos hless, hlast.symm, ?_, fun j hj ↦ ?_, fun j hj ↦ ?_⟩
        · rw [length_append]
          exact Nat.lt_succ_self _
        · rw [length_append, length_singleton] at hj
          rcases Nat.lt_succ_iff_lt_or_eq.mp hj with hbefore | hequal
          · rw [hlast, rawAt_append_left hbefore]
            have hle := hmax j hbefore
            omega
          · rw [hequal]
        · rw [hlast, rawAt_append_left hj]
          have hle := hmax j hj
          omega
      · have hbest := rawAt_append_left hlt x
        refine ⟨b, if_neg hless, by rw [hbest, hraw], ?_, fun j hj ↦ ?_, fun j hj ↦ ?_⟩
        · rw [length_append]
          exact Nat.lt_succ_of_lt hlt
        · rw [length_append, length_singleton] at hj
          rcases Nat.lt_succ_iff_lt_or_eq.mp hj with hbefore | hequal
          · rw [hbest, rawAt_append_left hbefore]
            exact hmax j hbefore
          · rw [hequal, hlast, hbest]
            omega
        · rw [hbest, rawAt_append_left (hj.trans hlt)]
          exact hfirst j hj

theorem exists_argmax {data : List (Fixed 32 frac)} (hne : data ≠ []) :
    ∃ c, argmax data = some c ∧ IsFirstMax data c := by
  obtain ⟨b, hb, -, hfirst⟩ := bestOf_spec hne
  exact ⟨b.2, by rw [argmax, hb]; rfl, hfirst⟩

theorem argmax_eq_some_iff {data : List (Fixed 32 frac)} {c : ℕ} :
    argmax data = some c ↔ IsFirstMax data c := by
  by_cases hne : data = []
  · subst hne
    exact ⟨fun h ↦ absurd h (Option.some_ne_none c).symm, fun h ↦ absurd h.1 (Nat.not_lt_zero c)⟩
  · obtain ⟨c', hc', hfirst⟩ := exists_argmax hne
    rw [hc', Option.some_inj]
    exact ⟨fun h ↦ h ▸ hfirst, fun h ↦ hfirst.unique h⟩

/-! ## Losses -/

section Losses

variable {m : Fixed 32 frac} {input : List (Fixed 32 frac)}

/-- The distance from the maximum leaves the exponent a margin. -/
def Near (m z : Fixed 32 frac) : Prop :=
  (frac = 0 → m.raw.toInt - z.raw.toInt ≤ 1488522235) ∧
    (frac = 1 → m.raw.toInt - z.raw.toInt ≤ 2977044471)

theorem margin_iff_near {z : Fixed 32 frac} (hle : z.raw.toInt ≤ m.raw.toInt) :
    Margin (q32 z - q32 m) ↔ Near m z := by
  rcases Nat.lt_or_ge frac 2 with hfew | hmany
  · interval_cases frac
    · rw [Margin, Near, q32, q32, mulVal, log2eQ32]
      omega
    · rw [Margin, Near, q32, q32, mulVal, log2eQ32]
      omega
  · refine iff_of_true (margin_difference hmany z m) ⟨fun h ↦ ?_, fun h ↦ ?_⟩
    · omega
    · omega

theorem weight_eq_none {z : Fixed 32 frac} (hle : z.raw.toInt ≤ m.raw.toInt)
    (hout : ¬ Margin (q32 z - q32 m)) : weight .checked (q32 m) z = none := by
  have hdifference : q32 z ≤ q32 m := mul_le_mul_of_nonneg_right hle (by positivity)
  rw [weight, toQ32_eq, Option.bind_eq_bind, Option.bind_some]
  by_cases hlow : -2 ^ 63 ≤ q32 z - q32 m
  · rw [i64_eq hlow (by omega), Option.bind_some]
    exact exponential_eq_none hlow (by omega) hout
  · rw [i64_checked_eq_none (.inl (not_le.mp hlow))]
    rfl

theorem foldlM_weight_eq_none (hmax : ∀ z ∈ input, z.raw.toInt ≤ m.raw.toInt) {z : Fixed 32 frac}
    (hz : z ∈ input) (hout : ¬ Margin (q32 z - q32 m)) (acc : ℤ) :
    input.foldlM (fun sum x ↦ do i128 .checked (sum + (← weight .checked (q32 m) x))) acc =
      none := by
  induction input generalizing acc with
  | nil => exact absurd hz not_mem_nil
  | cons first rest ih =>
    rw [forall_mem_cons] at hmax
    rw [foldlM_cons]
    rcases List.mem_cons.mp hz with hfirst | hrest
    · rw [← hfirst, weight_eq_none (hfirst ▸ hmax.1) hout]
      rfl
    · cases hstep : (do i128 .checked (acc + (← weight .checked (q32 m) first)) : Option ℤ) with
      | none => rfl
      | some next => exact ih hmax.2 hrest next

theorem softmaxInto_eq_none (hmax : IsMaximum m input) {z : Fixed 32 frac} (hz : z ∈ input)
    (hout : ¬ Margin (q32 z - q32 m)) (out : List (Fixed 32 frac)) :
    softmaxInto .checked input out = none := by
  cases input with
  | nil => exact absurd hz not_mem_nil
  | cons first rest =>
    unfold softmaxInto
    by_cases hlength : (first :: rest).length ≠ out.length
    · exact if_pos hlength
    · have hfirst : maximum first rest = m := (isMaximum_maximum first rest).unique hmax
      rw [if_neg hlength]
      simp only [hfirst]
      rw [toQ32_eq, Option.bind_eq_bind, Option.bind_some,
        foldlM_weight_eq_none hmax.2 hz hout]
      rfl

end Losses

/-! ## Agreement -/

section Agreement

variable {m : Fixed 32 frac} {input : List (Fixed 32 frac)}

/-- A boundary of rounding is above the share of `z`, and not above the share of the maximum. -/
def Separated (m : Fixed 32 frac) (input : List (Fixed 32 frac)) (z : Fixed 32 frac) : Prop :=
  ∃ t : ℤ, t < 2 ^ 31 ∧
    weightVal m z * 2 ^ 32 < (t * 2 ^ (32 - frac) - 2 ^ (31 - frac)) * total m input ∧
      (t * 2 ^ (32 - frac) - 2 ^ (31 - frac)) * total m input ≤ 2 ^ 32 * 2 ^ 32

theorem share_le (hfrac : frac ≤ 31) (hmax : IsMaximum m input) {z : Fixed 32 frac}
    (hz : z ∈ input) : (share m input z).raw.toInt ≤ (share m input m).raw.toInt := by
  have htotal := (quotient_bounds hmax hz).1
  have hweight := (weightVal_bounds (hmax.2 z hz)).2
  rw [toInt_share hfrac hmax hz, toInt_share hfrac hmax hmax.1, weightVal_self]
  refine min_le_min_right _ (Int.ediv_le_ediv (by positivity) ?_)
  have hquotient := Int.ediv_le_ediv htotal
    (mul_le_mul_of_nonneg_right hweight (show (0 : ℤ) ≤ 2 ^ 32 by norm_num))
  linarith

/-- Two shares are different exactly if a boundary separates them. -/
theorem share_lt_iff (hfrac : frac ≤ 31) (hmax : IsMaximum m input) {z : Fixed 32 frac}
    (hz : z ∈ input) :
    (share m input z).raw.toInt < (share m input m).raw.toInt ↔ Separated m input z := by
  have htotal := (quotient_bounds hmax hz).1
  have hunit : (0 : ℤ) < 2 ^ (32 - frac) := by positivity
  have hboundary : ∀ (e t : ℤ), t ≤ (e / total m input + 2 ^ (31 - frac)) / 2 ^ (32 - frac) ↔
      (t * 2 ^ (32 - frac) - 2 ^ (31 - frac)) * total m input ≤ e := by
    intro e t
    rw [Int.le_ediv_iff_mul_le hunit, ← sub_le_iff_le_add, Int.le_ediv_iff_mul_le htotal]
  rw [toInt_share hfrac hmax hz, toInt_share hfrac hmax hmax.1, weightVal_self]
  constructor
  · intro hless
    refine ⟨min ((2 ^ 32 * 2 ^ 32 / total m input + 2 ^ (31 - frac)) / 2 ^ (32 - frac))
      (2 ^ 31 - 1), by omega, ?_, ?_⟩
    · rw [← not_le, ← hboundary]
      omega
    · rw [← hboundary]
      omega
  · rintro ⟨t, ht, habove, hbelow⟩
    rw [← not_le, ← hboundary] at habove
    rw [← hboundary] at hbelow
    omega

theorem rawAt_map {f : Fixed 32 frac → Fixed 32 frac} {j : ℕ} (hj : j < input.length) :
    rawAt (input.map f) j = (f (input.getD j ⟨0⟩)).raw.toInt := by
  rw [rawAt, getD_eq_getElem _ _ (by rwa [length_map]), getElem_map,
    getD_eq_getElem _ _ hj]

theorem isMaximum_of_isFirstMax {c : ℕ} (hfirst : IsFirstMax input c) :
    IsMaximum (input.getD c ⟨0⟩) input := by
  obtain ⟨hlt, hmax, -⟩ := hfirst
  refine ⟨?_, fun x hx ↦ ?_⟩
  · rw [getD_eq_getElem _ _ hlt]
    exact getElem_mem hlt
  · obtain ⟨j, hj, hget⟩ := getElem_of_mem hx
    have hle := hmax j hj
    rwa [rawAt, rawAt, getD_eq_getElem _ _ hj, hget] at hle

/-- The first maximum of the shares. -/
theorem argmax_map_share_iff (hfrac : frac ≤ 31) {c : ℕ} (hfirst : IsFirstMax input c) :
    argmax (input.map (share (input.getD c ⟨0⟩) input)) = some c ↔
      ∀ j < c, Separated (input.getD c ⟨0⟩) input (input.getD j ⟨0⟩) := by
  have hmax := isMaximum_of_isFirstMax hfirst
  have hmem : ∀ {j : ℕ}, j < input.length → input.getD j ⟨0⟩ ∈ input := fun hj ↦ by
    rw [getD_eq_getElem _ _ hj]
    exact getElem_mem hj
  rw [argmax_eq_some_iff, IsFirstMax, length_map]
  constructor
  · rintro ⟨hlt, -, hbefore⟩ j hj
    have hless := hbefore j hj
    rw [rawAt_map hlt, rawAt_map (hj.trans hlt)] at hless
    exact (share_lt_iff hfrac hmax (hmem (hj.trans hlt))).mp hless
  · intro hseparated
    refine ⟨hfirst.1, fun j hj ↦ ?_, fun j hj ↦ ?_⟩
    · rw [rawAt_map hj, rawAt_map hfirst.1]
      exact share_le hfrac hmax (hmem hj)
    · rw [rawAt_map (hj.trans hfirst.1), rawAt_map hfirst.1]
      exact (share_lt_iff hfrac hmax (hmem (hj.trans hfirst.1))).mpr (hseparated j hj)

end Agreement

/-- Every output is near the maximum, and its share is separated from every earlier share. -/
def Distinguishes (lin : Linear frac) (x : List (Fixed 32 frac)) : Prop :=
  x.length = lin.inFeatures → ∀ c, IsFirstMax (lin.row x) c →
    (∀ z ∈ lin.row x, Near ((lin.row x).getD c ⟨0⟩) z) ∧
      ∀ j < c, Separated ((lin.row x).getD c ⟨0⟩) (lin.row x) ((lin.row x).getD j ⟨0⟩)

/-- Agreement about the outputs of a layer. -/
theorem agrees_row_iff (hfrac : frac ≤ 31) {logits : List (Fixed 32 frac)}
    (hlength : logits.length < 2 ^ 61) :
    (∀ r, (softmaxInto r logits (List.replicate logits.length 0)).map argmax =
        some (argmax logits)) ↔
      ∀ c, IsFirstMax logits c → (∀ z ∈ logits, Near (logits.getD c ⟨0⟩) z) ∧
        ∀ j < c, Separated (logits.getD c ⟨0⟩) logits (logits.getD j ⟨0⟩) := by
  by_cases hempty : logits = []
  · subst hempty
    exact iff_of_true (fun r ↦ rfl) fun c hc ↦ absurd hc.1 (Nat.not_lt_zero c)
  obtain ⟨c, hc, hfirst⟩ := exists_argmax hempty
  have hmax := isMaximum_of_isFirstMax hfirst
  have hrun : (∀ z ∈ logits, Near (logits.getD c ⟨0⟩) z) → ∀ r,
      softmaxInto r logits (List.replicate logits.length 0) =
        some (logits.map (share (logits.getD c ⟨0⟩) logits)) := fun hnear r ↦
    softmaxInto_eq hmax (fun z hz ↦ (margin_iff_near (hmax.2 z hz)).mpr (hnear z hz)) (by omega)
      List.length_replicate.symm
  constructor
  · intro hagrees c' hc'
    rw [hc'.unique hfirst]
    have hnear : ∀ z ∈ logits, Near (logits.getD c ⟨0⟩) z := by
      intro z hz
      by_contra hfar
      have hnone := softmaxInto_eq_none hmax hz (mt (margin_iff_near (hmax.2 z hz)).mp hfar)
        (List.replicate logits.length 0)
      have hchecked := hagrees .checked
      rw [hnone] at hchecked
      exact Option.some_ne_none _ hchecked.symm
    have hshares := hagrees .checked
    rw [hrun hnear, Option.map_some, Option.some_inj, hc] at hshares
    exact ⟨hnear, (argmax_map_share_iff hfrac hfirst).mp hshares⟩
  · intro hdistinct r
    obtain ⟨hnear, hseparated⟩ := hdistinct c hfirst
    rw [hrun hnear, Option.map_some, (argmax_map_share_iff hfrac hfirst).mpr hseparated, hc]

/-- **The class agrees with the probabilities** exactly if the layer distinguishes the classes of an
input.  A bias is a vector of 32-bit numbers, which has room for less than `2 ^ 61` of them. -/
theorem agrees_iff_distinguishes (hfrac : frac ≤ 31) (lin : Linear frac)
    (hbias : lin.bias.length < 2 ^ 61) (x : List (Fixed 32 frac)) :
    (Agrees lin x ↔ Distinguishes lin x) ∧
      (x.length = lin.inFeatures → lin.outFeatures = 0 → predictClass lin x = .ok none) := by
  have hlength : (lin.row x).length < 2 ^ 61 := by
    rw [lin.length_row, ← lin.length_bias]
    exact hbias
  constructor
  · by_cases hx : x.length = lin.inFeatures
    · have hforward := lin.forward_eq hx
      have hagrees : Agrees lin x ↔ ∀ r,
          (softmaxInto r (lin.row x) (List.replicate (lin.row x).length 0)).map argmax =
            some (argmax (lin.row x)) := by
        refine forall_congr' fun r ↦ ?_
        rw [predictProba, predictClass, hforward]
        exact ⟨fun h ↦ Except.ok.inj h, fun h ↦ congrArg Except.ok h⟩
      rw [hagrees, agrees_row_iff hfrac hlength]
      exact ⟨fun h _ ↦ h, fun h ↦ h hx⟩
    · have hforward : lin.forward x = .error .panic := by
        rw [Linear.forward, require, if_neg hx]
        rfl
      refine iff_of_true (fun r ↦ ?_) fun h ↦ absurd h hx
      rw [predictProba, predictClass, hforward]
      rfl
  · intro hx hnone
    have hempty : lin.row x = [] := eq_nil_of_length_eq_zero ((lin.length_row x).trans hnone)
    rw [predictClass, lin.forward_eq hx, hempty]
    rfl

/-- A layer with two outputs that are the biases. -/
def biasLayer (first second : BitVec 32) : Linear 16 where
  weights := [⟨0⟩, ⟨0⟩]
  bias := [⟨first⟩, ⟨second⟩]
  outFeatures := 2
  inFeatures := 1
  length_weights := rfl
  length_bias := rfl
  weights_fit := by decide

/-- The layer is asked for a whole unit of difference. -/
theorem agrees_iff_distinguishes_unit :
    16 ≤ 31 ∧ (biasLayer 0 65536).bias.length < 2 ^ 61 ∧
      (Agrees (biasLayer 0 65536) [⟨0⟩] ↔ Distinguishes (biasLayer 0 65536) [⟨0⟩]) :=
  ⟨by decide, by decide, (agrees_iff_distinguishes (by decide) (biasLayer 0 65536) (by decide) _).1⟩

/-- A difference of the smallest number vanishes in the probabilities. -/
theorem close_biases_disagree :
    predictClass (biasLayer 0 1) [⟨0⟩] = .ok (some 1) ∧
      (∀ r, predictProba (biasLayer 0 1) r [⟨0⟩] = .ok (some [⟨32768⟩, ⟨32768⟩])) ∧
        argmax [(⟨32768⟩ : Fixed 32 16), ⟨32768⟩] = some 0 ∧
          ¬ ∀ (lin : Linear 16) (x : List (Fixed 32 16)), Agrees lin x := by
  have hclass : predictClass (biasLayer 0 1) [⟨0⟩] = .ok (some 1) := by decide +kernel
  have hproba : ∀ r, predictProba (biasLayer 0 1) r [⟨0⟩] = .ok (some [⟨32768⟩, ⟨32768⟩]) := by
    intro r
    cases r with
    | wrapping => decide +kernel
    | checked => decide +kernel
  have hfirst : argmax [(⟨32768⟩ : Fixed 32 16), ⟨32768⟩] = some 0 := by decide +kernel
  refine ⟨hclass, hproba, hfirst, fun hagrees ↦ ?_⟩
  have hequal := hagrees (biasLayer 0 1) [⟨0⟩] .checked
  rw [hproba, hclass] at hequal
  have hindex : some (argmax [(⟨32768⟩ : Fixed 32 16), ⟨32768⟩]) = some (some 1) :=
    Except.ok.inj hequal
  rw [hfirst] at hindex
  cases hindex

end SoulSystem.Scirust.Transcendental
