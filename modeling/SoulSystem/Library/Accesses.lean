import Mathlib.Tactic

/-!
# Accesses to a store that may fail

A computation reads and writes a store by accesses.  As many of them succeed as the meter has
left; the next one fails, and with it the computation, which leaves the store as the accesses
before made it.  The rules say what holds of the store after a computation that returns and after
one that fails.
-/

namespace SoulSystem.Library

/-- A store, and how many accesses succeed before one fails. -/
structure Metered (σ : Type) where
  store : σ
  left : ℕ

/-- A computation with accesses to a store.  It gives nothing when it runs out of calls. -/
abbrev Accessing (ε σ α : Type) := ExceptT ε (StateT (Metered σ) Option) α

namespace Accessing

variable {ε σ α β : Type}

/-- One access to the store. -/
def access (failure : ε) (effect : σ → α × σ) : Accessing ε σ α := ExceptT.mk fun d ↦
  match d.left with
  | 0 => some (.error failure, d)
  | left + 1 => some (.ok (effect d.store).1, ⟨(effect d.store).2, left⟩)

/-- A computation that has no calls to spend. -/
def outOfCalls : Accessing ε σ α := ExceptT.mk fun _ ↦ none

/-- What a computation gives from a metered store. -/
def runFrom (m : Accessing ε σ α) (d : Metered σ) : Option (Except ε α × Metered σ) := m.run.run d

section Runs

variable {m : Accessing ε σ α} {d d' : Metered σ} {failure : ε} {s : σ} {left : ℕ}

@[simp] theorem runFrom_pure (a : α) (d : Metered σ) :
    (pure a : Accessing ε σ α).runFrom d = some (.ok a, d) := rfl

@[simp] theorem runFrom_throw (failure : ε) (d : Metered σ) :
    (throw failure : Accessing ε σ α).runFrom d = some (.error failure, d) := rfl

@[simp] theorem runFrom_outOfCalls : (outOfCalls : Accessing ε σ α).runFrom d = none := rfl

@[simp] theorem runFrom_access_zero (effect : σ → α × σ) :
    (access failure effect).runFrom ⟨s, 0⟩ = some (.error failure, ⟨s, 0⟩) := rfl

@[simp] theorem runFrom_access_succ (effect : σ → α × σ) :
    (access failure effect).runFrom ⟨s, left + 1⟩ =
      some (.ok (effect s).1, ⟨(effect s).2, left⟩) := rfl

theorem runFrom_bind (m : Accessing ε σ α) (f : α → Accessing ε σ β) (d : Metered σ) :
    (m >>= f).runFrom d = (m.runFrom d).bind fun result ↦
      match result with
      | (.error failure, d) => some (.error failure, d)
      | (.ok a, d) => (f a).runFrom d := by
  rw [runFrom, ExceptT.run_bind, StateT.run_bind]
  apply congrArg (Option.bind (m.runFrom d))
  funext ⟨result, d⟩
  cases result with
  | error failure => rfl
  | ok a => rfl

theorem runFrom_bind_ok {a : α} (f : α → Accessing ε σ β) (hok : m.runFrom d = some (.ok a, d')) :
    (m >>= f).runFrom d = (f a).runFrom d' := by
  rw [runFrom_bind, hok, Option.bind_some]

theorem runFrom_bind_error (f : α → Accessing ε σ β)
    (herror : m.runFrom d = some (.error failure, d')) :
    (m >>= f).runFrom d = some (.error failure, d') := by
  rw [runFrom_bind, herror, Option.bind_some]

theorem runFrom_bind_eq_ok {f : α → Accessing ε σ β} {b : β} :
    (m >>= f).runFrom d = some (.ok b, d') ↔
      ∃ a next, m.runFrom d = some (.ok a, next) ∧ (f a).runFrom next = some (.ok b, d') := by
  rw [runFrom_bind, Option.bind_eq_some_iff]
  constructor
  · rintro ⟨⟨result, next⟩, hm, hf⟩
    cases result with
    | error failure => cases hf
    | ok a => exact ⟨a, next, hm, hf⟩
  · rintro ⟨a, next, hm, hf⟩
    exact ⟨_, hm, hf⟩

theorem runFrom_bind_eq_error {f : α → Accessing ε σ β} :
    (m >>= f).runFrom d = some (.error failure, d') ↔
      m.runFrom d = some (.error failure, d') ∨
      ∃ a next, m.runFrom d = some (.ok a, next) ∧ (f a).runFrom next = some (.error failure, d') := by
  rw [runFrom_bind, Option.bind_eq_some_iff]
  constructor
  · rintro ⟨⟨result, next⟩, hm, hf⟩
    cases result with
    | error failure' =>
      cases hf
      exact .inl hm
    | ok a => exact .inr ⟨a, next, hm, hf⟩
  · rintro (hm | ⟨a, next, hm, hf⟩)
    · exact ⟨_, hm, rfl⟩
    · exact ⟨_, hm, hf⟩

end Runs

/-! ## Rules -/

/-- From a store with `P`, what returns leaves a store with `Q`, and what fails leaves one
with `E`. -/
structure Triple (P : σ → Prop) (m : Accessing ε σ α) (Q : α → σ → Prop) (E : σ → Prop) : Prop where
  ok : ∀ d a d', P d.store → m.runFrom d = some (.ok a, d') → Q a d'.store
  error : ∀ d failure d', P d.store → m.runFrom d = some (.error failure, d') → E d'.store

namespace Triple

variable {P P' : σ → Prop} {Q Q' : α → σ → Prop} {R : β → σ → Prop} {E : σ → Prop}
  {m : Accessing ε σ α} {f : α → Accessing ε σ β}

theorem weaken (hpre : ∀ s, P' s → P s) (hm : Triple P m Q E) (hpost : ∀ a s, Q a s → Q' a s) :
    Triple P' m Q' E where
  ok d a d' hd hrun := hpost a d'.store (hm.ok d a d' (hpre d.store hd) hrun)
  error d failure d' hd hrun := hm.error d failure d' (hpre d.store hd) hrun

/-- What a precondition says beside the store may be assumed. -/
theorem lift {φ : Prop} (hm : φ → Triple P m Q E) : Triple (fun s ↦ P s ∧ φ) m Q E where
  ok d a d' hd hrun := (hm hd.2).ok d a d' hd.1 hrun
  error d failure d' hd hrun := (hm hd.2).error d failure d' hd.1 hrun

theorem pure {a : α} (hpost : ∀ s, P s → Q a s) : Triple P (pure a : Accessing ε σ α) Q E where
  ok d b d' hd hrun := by
    rw [runFrom_pure] at hrun
    cases hrun
    exact hpost d.store hd
  error d failure d' hd hrun := by
    rw [runFrom_pure] at hrun
    cases hrun

theorem throw {failure : ε} (hpost : ∀ s, P s → E s) :
    Triple P (throw failure : Accessing ε σ α) Q E where
  ok d b d' hd hrun := by
    rw [runFrom_throw] at hrun
    cases hrun
  error d failure d' hd hrun := by
    rw [runFrom_throw] at hrun
    cases hrun
    exact hpost d.store hd

theorem outOfCalls : Triple P (outOfCalls : Accessing ε σ α) Q E where
  ok d b d' _ hrun := by
    rw [runFrom_outOfCalls] at hrun
    cases hrun
  error d failure d' _ hrun := by
    rw [runFrom_outOfCalls] at hrun
    cases hrun

theorem access {failure : ε} {effect : σ → α × σ} (hfail : ∀ s, P s → E s)
    (hpost : ∀ s, P s → Q (effect s).1 (effect s).2) : Triple P (access failure effect) Q E where
  ok d a d' hd hrun := by
    obtain ⟨s, left⟩ := d
    cases left with
    | zero => cases hrun
    | succ left =>
      cases hrun
      exact hpost s hd
  error d failure d' hd hrun := by
    obtain ⟨s, left⟩ := d
    cases left with
    | zero =>
      cases hrun
      exact hfail s hd
    | succ left => cases hrun

theorem bind (hm : Triple P m Q E) (hf : ∀ a, Triple (Q a) (f a) R E) : Triple P (m >>= f) R E where
  ok d b d' hd hrun := by
    obtain ⟨a, next, hfirst, hrest⟩ := runFrom_bind_eq_ok.mp hrun
    exact (hf a).ok next b d' (hm.ok d a next hd hfirst) hrest
  error d failure d' hd hrun := by
    cases runFrom_bind_eq_error.mp hrun with
    | inl hfirst => exact hm.error d failure d' hd hfirst
    | inr hnext =>
      obtain ⟨a, next, hfirst, hrest⟩ := hnext
      exact (hf a).error next failure d' (hm.ok d a next hd hfirst) hrest

/-- A loop over a list keeps what each of its rounds keeps. -/
theorem foldlM {γ : Type} {step : β → γ → Accessing ε σ β} {I : List γ → β → σ → Prop} {xs : List γ}
    {b : β} (hstep : ∀ x rest b, Triple (I (x :: rest) b) (step b x) (I rest) E) :
    Triple (I xs b) (xs.foldlM step b) (I []) E := by
  induction xs generalizing b with
  | nil => exact Triple.pure fun _ hs ↦ hs
  | cons x xs ih =>
    rw [List.foldlM_cons]
    exact (hstep x xs b).bind fun _ ↦ ih

end Triple

/-! ## Computations that end -/

/-- With less than `bound` accesses left, the computation does not run out of calls. -/
def Ends (bound : ℕ) (m : Accessing ε σ α) : Prop :=
  ∀ d, d.left < bound → ∃ result d', m.runFrom d = some (result, d') ∧ d'.left ≤ d.left

section Ends

variable {m : Accessing ε σ α} {f : α → Accessing ε σ β} {bound : ℕ}

theorem ends_pure (a : α) : Ends bound (pure a : Accessing ε σ α) := fun d _ ↦ ⟨_, d, rfl, le_rfl⟩

theorem ends_throw (failure : ε) : Ends bound (throw failure : Accessing ε σ α) :=
  fun d _ ↦ ⟨_, d, rfl, le_rfl⟩

theorem ends_access (failure : ε) (effect : σ → α × σ) : Ends bound (access failure effect) := by
  rintro ⟨s, left⟩ _
  cases left with
  | zero => exact ⟨_, _, rfl, le_rfl⟩
  | succ left => exact ⟨_, _, rfl, Nat.le_succ left⟩

theorem Ends.bind (hm : Ends bound m) (hf : ∀ a, Ends bound (f a)) : Ends bound (m >>= f) := by
  intro d hd
  obtain ⟨result, next, hfirst, hnext⟩ := hm d hd
  cases result with
  | error failure => exact ⟨_, next, runFrom_bind_error f hfirst, hnext⟩
  | ok a =>
    obtain ⟨result, d', hrest, hd'⟩ := hf a next (hnext.trans_lt hd)
    exact ⟨result, d', (runFrom_bind_ok f hfirst).trans hrest, hd'.trans hnext⟩

/-- An access pays for one more call. -/
theorem ends_access_bind {failure : ε} {effect : σ → α × σ} (hf : ∀ a, Ends bound (f a)) :
    Ends (bound + 1) (access failure effect >>= f) := by
  rintro ⟨s, left⟩ hleft
  cases left with
  | zero => exact ⟨_, _, runFrom_bind_error f (runFrom_access_zero effect), le_rfl⟩
  | succ left =>
    obtain ⟨result, d', hrest, hd'⟩ :=
      hf (effect s).1 ⟨(effect s).2, left⟩ (Nat.lt_of_succ_lt_succ hleft)
    exact ⟨result, d', (runFrom_bind_ok f (runFrom_access_succ effect)).trans hrest,
      hd'.trans (Nat.le_succ left)⟩

theorem ends_foldlM {γ : Type} {step : β → γ → Accessing ε σ β} (hstep : ∀ b x, Ends bound (step b x))
    (xs : List γ) (b : β) : Ends bound (xs.foldlM step b) := by
  induction xs generalizing b with
  | nil => exact ends_pure b
  | cons x xs ih =>
    rw [List.foldlM_cons]
    exact (hstep b x).bind ih

end Ends

end Accessing

end SoulSystem.Library
