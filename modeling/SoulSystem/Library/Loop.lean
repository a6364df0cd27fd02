import Mathlib.Tactic

/-!
# Loops with a budget

A loop that runs its body while a test holds, at most a given number of times.  When every turn
keeps an invariant and lowers a measure, and the budget covers the measure, the loop ends because
its test fails, with the invariant in force.

A loop over sweeps that stops after the first sweep without an addition ends there, or has added at
least as much as it had rounds.

A loop over rounds that may be left in the middle ends well exactly when no round that it enters is
bad, if every round that goes on is a good one.
-/

namespace SoulSystem.Library

variable {σ : Type*}

def loopWhile (test : σ → Prop) [DecidablePred test] (body : σ → σ) : ℕ → σ → σ
  | 0, s => s
  | budget + 1, s => if test s then loopWhile test body budget (body s) else s

namespace Loop

variable {test : σ → Prop} [DecidablePred test] {body : σ → σ} {Inv : σ → Prop} {s : σ} {budget : ℕ}

/-- **The loop rule.** -/
theorem inv_and_exit (measure : σ → ℕ)
    (hturn : ∀ s, Inv s → test s → Inv (body s) ∧ measure (body s) < measure s)
    (hinv : Inv s) (hbudget : measure s ≤ budget) :
    Inv (loopWhile test body budget s) ∧ ¬ test (loopWhile test body budget s) := by
  induction budget generalizing s with
  | zero =>
    refine ⟨hinv, fun htest ↦ ?_⟩
    have hlower := (hturn s hinv htest).2
    omega
  | succ budget ih =>
    by_cases htest : test s
    · obtain ⟨hnext, hlower⟩ := hturn s hinv htest
      rw [loopWhile, if_pos htest]
      exact ih hnext (by omega)
    · rw [loopWhile, if_neg htest]
      exact ⟨hinv, htest⟩

theorem of_not_test (htest : ¬ test s) : loopWhile test body budget s = s := by
  cases budget with
  | zero => rfl
  | succ budget => rw [loopWhile, if_neg htest]

/-- More budget changes nothing about a loop that has ended. -/
theorem eq_of_exit {more : ℕ} (hmore : budget ≤ more)
    (hexit : ¬ test (loopWhile test body budget s)) :
    loopWhile test body more s = loopWhile test body budget s := by
  induction budget generalizing s more with
  | zero => exact of_not_test hexit
  | succ budget ih =>
    cases more with
    | zero => omega
    | succ more =>
      by_cases htest : test s
      · rw [loopWhile, if_pos htest] at hexit
        rw [loopWhile, loopWhile, if_pos htest, if_pos htest]
        exact ih (by omega) hexit
      · rw [of_not_test htest, of_not_test htest]

/-! ## Sweeps -/

/-- Sweeps until one adds nothing, with the number of additions. -/
def untilQuiet (sweep : σ → σ × ℕ) : ℕ → σ → σ × ℕ
  | 0, s => (s, 0)
  | rounds + 1, s =>
    let swept := sweep s
    if swept.2 = 0 then (swept.1, 0)
    else
      let rest := untilQuiet sweep rounds swept.1
      (rest.1, swept.2 + rest.2)

variable {sweep : σ → σ × ℕ}

theorem quiet_or_rounds_le (hquiet : ∀ s, (sweep s).2 = 0 → (sweep (sweep s).1).2 = 0) (rounds : ℕ)
    (s : σ) : (sweep (untilQuiet sweep rounds s).1).2 = 0 ∨ rounds ≤ (untilQuiet sweep rounds s).2 := by
  induction rounds generalizing s with
  | zero => exact .inr (Nat.zero_le _)
  | succ rounds ih =>
    by_cases hnone : (sweep s).2 = 0
    · rw [untilQuiet, if_pos hnone]
      exact .inl (hquiet s hnone)
    · rw [untilQuiet, if_neg hnone]
      refine (ih (sweep s).1).imp_right fun hle ↦ ?_
      have hsome : 1 ≤ (sweep s).2 := Nat.one_le_iff_ne_zero.mpr hnone
      simp only []
      omega

/-! ## Rounds -/

/-- A number of rounds, each of which goes on or leaves the loop. -/
def forRounds (round : σ → ForInStep σ) : ℕ → σ → σ
  | 0, s => s
  | rounds + 1, s =>
    match round s with
    | .done t => t
    | .yield t => forRounds round rounds t

/-- The states in which a round is entered. -/
def entered (round : σ → ForInStep σ) : ℕ → σ → List σ
  | 0, _ => []
  | rounds + 1, s =>
    s :: match round s with
      | .done _ => []
      | .yield t => entered round rounds t

variable {round : σ → ForInStep σ} {Good Bad : σ → Prop}

/-- **The rule of rounds.** -/
theorem good_forRounds_iff (hgood : ∀ s, Inv s → Good s)
    (hyield : ∀ s t, Inv s → round s = .yield t → Inv t ∧ ¬ Bad s)
    (hdone : ∀ s t, Inv s → round s = .done t → (Good t ↔ ¬ Bad s)) (rounds : ℕ) (hinv : Inv s) :
    Good (forRounds round rounds s) ↔ ∀ t ∈ entered round rounds s, ¬ Bad t := by
  induction rounds generalizing s with
  | zero => exact iff_of_true (hgood s hinv) fun _ hmem ↦ absurd hmem List.not_mem_nil
  | succ rounds ih =>
    rw [forRounds, entered, List.forall_mem_cons]
    cases hround : round s with
    | done t =>
      rw [hdone s t hinv hround]
      exact (and_iff_left fun _ hmem ↦ absurd hmem List.not_mem_nil).symm
    | yield t =>
      obtain ⟨hnext, hbad⟩ := hyield s t hinv hround
      rw [and_iff_right hbad]
      exact ih hnext

end Loop

end SoulSystem.Library
