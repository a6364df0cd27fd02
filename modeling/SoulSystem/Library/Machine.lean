import Mathlib.Tactic

/-!
# Machines and their runs

A machine takes one event at a time, or refuses it.  An invariant that every step keeps holds after
every run, also when the steps are only known to keep it under a condition and all of them meet it.
A map of the states under which each event is one event of another machine, or none, carries runs to
runs.
-/

namespace SoulSystem.Library

open List

/-- What an event does to a state, if it can happen there. -/
structure Machine (σ ε : Type*) where
  step : σ → ε → Option σ

namespace Machine

variable {σ ε : Type*} (M : Machine σ ε)

def run : σ → List ε → Option σ
  | s, [] => some s
  | s, e :: events => (M.step s e).bind fun next ↦ run next events

/-- Every step of a run meets a condition on the state before it. -/
def Meets (ok : σ → ε → Prop) : σ → List ε → Prop
  | _, [] => True
  | s, e :: events => ok s e ∧ ∀ next, M.step s e = some next → Meets ok next events

instance decidableMeets (ok : σ → ε → Prop) [∀ s e, Decidable (ok s e)] :
    ∀ (s : σ) (events : List ε), Decidable (M.Meets ok s events)
  | _, [] => isTrue trivial
  | s, e :: events =>
    have : Decidable (∀ next, M.step s e = some next → M.Meets ok next events) :=
      match M.step s e with
      | none => isTrue fun _ hnext ↦ nomatch hnext
      | some next =>
        have := decidableMeets ok next events
        decidable_of_iff (M.Meets ok next events)
          ⟨fun hmeets _ hnext ↦ Option.some.inj hnext ▸ hmeets, fun hmeets ↦ hmeets next rfl⟩
    inferInstanceAs (Decidable (_ ∧ _))

variable {M}

theorem run_cons {s s' : σ} {e : ε} {events : List ε} (hrun : M.run s (e :: events) = some s') :
    ∃ next, M.step s e = some next ∧ M.run next events = some s' :=
  Option.bind_eq_some_iff.mp hrun

theorem run_append {s s' : σ} {before after : List ε} (hrun : M.run s before = some s') :
    M.run s (before ++ after) = M.run s' after := by
  induction before generalizing s with
  | nil =>
    cases hrun
    rfl
  | cons e before ih =>
    obtain ⟨next, hstep, hrest⟩ := run_cons hrun
    rw [cons_append, run, hstep, Option.bind_some]
    exact ih hrest

theorem Meets.mono {ok ok' : σ → ε → Prop} (himp : ∀ s e, ok s e → ok' s e) {s : σ}
    {events : List ε} (hmeets : M.Meets ok s events) : M.Meets ok' s events := by
  induction events generalizing s with
  | nil => trivial
  | cons e events ih => exact ⟨himp s e hmeets.1, fun next hnext ↦ ih (hmeets.2 next hnext)⟩

theorem Meets.and {ok ok' : σ → ε → Prop} {s : σ} {events : List ε} (hmeets : M.Meets ok s events)
    (hmeets' : M.Meets ok' s events) : M.Meets (fun s e ↦ ok s e ∧ ok' s e) s events := by
  induction events generalizing s with
  | nil => trivial
  | cons e events ih =>
    exact ⟨⟨hmeets.1, hmeets'.1⟩, fun next hnext ↦ ih (hmeets.2 next hnext) (hmeets'.2 next hnext)⟩

theorem meets_append {ok : σ → ε → Prop} {s : σ} {before after : List ε}
    (hmeets : M.Meets ok s (before ++ after)) : M.Meets ok s before := by
  induction before generalizing s with
  | nil => trivial
  | cons e before ih => exact ⟨hmeets.1, fun next hnext ↦ ih (hmeets.2 next hnext)⟩

/-- What the last event of a run meets. -/
theorem Meets.last {ok : σ → ε → Prop} {s s' : σ} {events : List ε} {e : ε}
    (hmeets : M.Meets ok s (events ++ [e])) (hrun : M.run s events = some s') : ok s' e := by
  induction events generalizing s with
  | nil =>
    cases hrun
    exact hmeets.1
  | cons first events ih =>
    obtain ⟨next, hnext, hrest⟩ := run_cons hrun
    exact ih (hmeets.2 next hnext) hrest

theorem meets_of_forall {ok : ε → Prop} {s : σ} {events : List ε} (hall : ∀ e ∈ events, ok e) :
    M.Meets (fun _ e ↦ ok e) s events := by
  induction events generalizing s with
  | nil => trivial
  | cons e events ih =>
    exact ⟨hall e mem_cons_self, fun _ _ ↦
      ih fun e' he' ↦ hall e' (mem_cons_of_mem e he')⟩

/-- **The run rule.** -/
theorem inv_of_run {ok : σ → ε → Prop} {Inv : σ → Prop}
    (hstep : ∀ s e s', Inv s → ok s e → M.step s e = some s' → Inv s') {s s' : σ} {events : List ε}
    (hinv : Inv s) (hmeets : M.Meets ok s events) (hrun : M.run s events = some s') : Inv s' := by
  induction events generalizing s with
  | nil =>
    cases hrun
    exact hinv
  | cons e events ih =>
    obtain ⟨next, hnext, hrest⟩ := run_cons hrun
    exact ih (hstep s e next hinv hmeets.1 hnext) (hmeets.2 next hnext) hrest

/-- Conditions that agree on the steps a run takes are met by the same runs. -/
theorem meets_iff_of_run {ok p q : σ → ε → Prop}
    (hiff : ∀ s e s', ok s e → M.step s e = some s' → (p s e ↔ q s e)) {s s' : σ} {events : List ε}
    (hmeets : M.Meets ok s events) (hrun : M.run s events = some s') :
    M.Meets p s events ↔ M.Meets q s events := by
  induction events generalizing s with
  | nil => exact Iff.rfl
  | cons e events ih =>
    obtain ⟨next, hnext, hrest⟩ := run_cons hrun
    have htail : ∀ follow, M.step s e = some follow →
        (M.Meets p follow events ↔ M.Meets q follow events) := by
      intro follow hfollow
      rw [hnext] at hfollow
      cases hfollow
      exact ih (hmeets.2 next hnext) hrest
    exact and_congr (hiff s e next hmeets.1 hnext) (forall₂_congr htail)

/-- A condition that every step from a state of an invariant meets is met by every run. -/
theorem meets_of_inv {ok ok' : σ → ε → Prop} {Inv : σ → Prop}
    (hstep : ∀ s e s', Inv s → ok s e → M.step s e = some s' → Inv s')
    (hok : ∀ s e, Inv s → ok s e → ok' s e) {s : σ} {events : List ε} (hinv : Inv s)
    (hmeets : M.Meets ok s events) : M.Meets ok' s events := by
  induction events generalizing s with
  | nil => trivial
  | cons e events ih =>
    exact ⟨hok s e hinv hmeets.1, fun next hnext ↦
      ih (hstep s e next hinv hmeets.1 hnext) (hmeets.2 next hnext)⟩

/-- A machine that refuses no event meets a condition in a run only with events that can meet it. -/
theorem forall_of_meets {ok : σ → ε → Prop} {Inv : σ → Prop} {admits : ε → Prop}
    (htotal : ∀ s e, ∃ s', M.step s e = some s')
    (hstep : ∀ s e s', Inv s → ok s e → M.step s e = some s' → Inv s')
    (hok : ∀ s e, Inv s → ok s e → admits e) {s : σ} {events : List ε} (hinv : Inv s)
    (hmeets : M.Meets ok s events) : ∀ e ∈ events, admits e := by
  induction events generalizing s with
  | nil => exact fun _ hmem ↦ absurd hmem not_mem_nil
  | cons e events ih =>
    obtain ⟨next, hnext⟩ := htotal s e
    have htail := ih (hstep s e next hinv hmeets.1 hnext) (hmeets.2 next hnext)
    intro e' hmem
    cases List.mem_cons.mp hmem with
    | inl hhead => exact hhead ▸ hok s e hinv hmeets.1
    | inr hmem => exact htail e' hmem

/-- Where a step keeps an invariant exactly if it leaves a good state, the runs that meet its
condition are those that go through good states only. -/
theorem meets_iff_forall_prefix {ok : σ → ε → Prop} {Inv good : σ → Prop}
    (hgood : ∀ s, Inv s → good s)
    (hstep : ∀ s e s', Inv s → ok s e → M.step s e = some s' → Inv s')
    (hbad : ∀ s e, Inv s → ¬ ok s e → ∃ s', M.step s e = some s' ∧ ¬ good s') {s : σ}
    {events : List ε} (hinv : Inv s) :
    M.Meets ok s events ↔
      ∀ (before : List ε) (s' : σ), before <+: events → M.run s before = some s' → good s' := by
  constructor
  · rintro hmeets before s' ⟨after, rfl⟩ hrun
    exact hgood s' (inv_of_run hstep hinv (meets_append hmeets) hrun)
  · intro hall
    induction events generalizing s with
    | nil => trivial
    | cons e events ih =>
      have hok : ok s e := by
        by_contra hnot
        obtain ⟨s', hs', hbad'⟩ := hbad s e hinv hnot
        have hrun : M.run s [e] = some s' := by rw [run, hs', Option.bind_some, run]
        exact hbad' (hall [e] s' (prefix_append [e] events) hrun)
      refine ⟨hok, fun next hnext ↦ ih (hstep s e next hinv hok hnext) ?_⟩
      intro before s' hprefix hrun
      apply hall (e :: before) s' ((prefix_cons_inj e).mpr hprefix)
      rw [run, hnext]
      exact hrun

/-! ## Simulations -/

/-- **The simulation rule.**  When every step from related states is a step of another machine to
related states, every run is one of the other machine. -/
theorem run_of_simulates {σ' : Type*} {N : Machine σ' ε} {ok : σ → ε → Prop} {Rel : σ → σ' → Prop}
    (hstep : ∀ s t e s', Rel s t → ok s e → M.step s e = some s' →
      ∃ t', N.step t e = some t' ∧ Rel s' t') {s s' : σ} {t : σ'} {events : List ε} (hrel : Rel s t)
    (hmeets : M.Meets ok s events) (hrun : M.run s events = some s') :
    ∃ t', N.run t events = some t' ∧ Rel s' t' := by
  induction events generalizing s t with
  | nil =>
    cases hrun
    exact ⟨t, rfl, hrel⟩
  | cons e events ih =>
    obtain ⟨next, hnext, hrest⟩ := run_cons hrun
    obtain ⟨follow, hfollow, hfollows⟩ := hstep s t e next hrel hmeets.1 hnext
    obtain ⟨t', ht', hrel'⟩ := ih hfollows (hmeets.2 next hnext) hrest
    exact ⟨t', Option.bind_eq_some_iff.mpr ⟨follow, hfollow, ht'⟩, hrel'⟩

/-! ## Projections -/

variable {σ' ε' : Type*} {N : Machine σ' ε'}

/-- The events that another machine takes in a run. -/
def projectRun (M : Machine σ ε) (project : σ → ε → Option ε') : σ → List ε → List ε'
  | _, [] => []
  | s, e :: events =>
    (project s e).toList ++ (M.step s e).elim [] fun next ↦ projectRun M project next events

/-- A state follows another one by an event, or stays when there is none. -/
def Follows (N : Machine σ' ε') (t : σ') : Option ε' → σ' → Prop
  | none, t' => t' = t
  | some e, t' => N.step t e = some t'

/-- From the states of an invariant each step is one of the other machine, or none. -/
structure Projects (M : Machine σ ε) (N : Machine σ' ε') (Inv : σ → Prop) (view : σ → σ')
    (project : σ → ε → Option ε') : Prop where
  inv : ∀ s e s', Inv s → M.step s e = some s' → Inv s'
  step : ∀ s e s', Inv s → M.step s e = some s' → N.Follows (view s) (project s e) (view s')

variable {Inv : σ → Prop} {view : σ → σ'} {project : σ → ε → Option ε'}

theorem Projects.run (hprojects : Projects M N Inv view project) {s s' : σ} {events : List ε}
    (hinv : Inv s) (hrun : M.run s events = some s') :
    N.run (view s) (M.projectRun project s events) = some (view s') := by
  induction events generalizing s with
  | nil =>
    cases hrun
    rfl
  | cons e events ih =>
    obtain ⟨next, hnext, hrest⟩ := run_cons hrun
    have hfollows := hprojects.step s e next hinv hnext
    have htail := ih (hprojects.inv s e next hinv hnext) hrest
    cases hproject : project s e with
    | none =>
      have hsame : view next = view s := by
        rwa [hproject] at hfollows
      rw [projectRun, hproject, hnext, ← hsame]
      exact htail
    | some e' =>
      have hstep : N.step (view s) e' = some (view next) := by
        rwa [hproject] at hfollows
      rw [projectRun, hproject, hnext]
      exact Option.bind_eq_some_iff.mpr ⟨view next, hstep, htail⟩

theorem Projects.meets (hprojects : Projects M N Inv view project) {ok : σ' → ε' → Prop}
    {s s' : σ} {events : List ε} (hinv : Inv s) (hrun : M.run s events = some s')
    (hmeets : M.Meets (fun s e ↦ ∀ e', project s e = some e' → ok (view s) e') s events) :
    N.Meets ok (view s) (M.projectRun project s events) := by
  induction events generalizing s with
  | nil => trivial
  | cons e events ih =>
    obtain ⟨next, hnext, hrest⟩ := run_cons hrun
    have hfollows := hprojects.step s e next hinv hnext
    have htail := ih (hprojects.inv s e next hinv hnext) hrest (hmeets.2 next hnext)
    cases hproject : project s e with
    | none =>
      have hsame : view next = view s := by
        rwa [hproject] at hfollows
      rw [projectRun, hproject, hnext, ← hsame]
      exact htail
    | some e' =>
      have hstep : N.step (view s) e' = some (view next) := by
        rwa [hproject] at hfollows
      rw [projectRun, hproject, hnext]
      refine ⟨hmeets.1 e' hproject, fun next' hnext' ↦ ?_⟩
      rw [hstep] at hnext'
      cases hnext'
      exact htail

end Machine

end SoulSystem.Library
