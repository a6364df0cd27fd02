import SoulSystem.Library.RowMajor
import Mathlib.Data.List.Monad
import Mathlib.Data.List.Basic
import Mathlib.Data.List.Forall2

/-!
# Computations that may fail

A loop over rows succeeds exactly when it succeeds for each row, and then its result is made of the
results for the rows.
-/

namespace SoulSystem.Library.Outcome

open RowMajor List Function

variable {ε α β : Type}

theorem bind_eq_ok {x : Except ε α} {f : α → Except ε β} {b : β} :
    (x >>= f) = .ok b ↔ ∃ a, x = .ok a ∧ f a = .ok b := by
  cases x with
  | error error =>
    constructor
    · intro hok
      cases hok
    · rintro ⟨a, ha, -⟩
      cases ha
  | ok a =>
    constructor
    · exact fun hok ↦ ⟨a, rfl, hok⟩
    · rintro ⟨a', ha', hok⟩
      cases ha'
      exact hok

theorem pure_eq_ok {a b : α} : (pure a : Except ε α) = .ok b ↔ b = a :=
  ⟨fun hok ↦ (Except.ok.inj hok).symm, fun heq ↦ congrArg Except.ok heq.symm⟩

theorem ok_bind (a : α) (f : α → Except ε β) : (Except.ok a >>= f) = f a := rfl

/-- A function of one result. -/
theorem map_eq_ok {x : Except ε α} {g : α → β} {b : β} :
    (x >>= fun a ↦ pure (g a)) = .ok b ↔ ∃ a, x = .ok a ∧ b = g a := by
  simp only [bind_eq_ok, pure_eq_ok]

/-- A function of two results. -/
theorem map₂_eq_ok {γ : Type} {x : Except ε α} {y : Except ε β} {g : α → β → γ} {c : γ} :
    (x >>= fun a ↦ y >>= fun b ↦ pure (g a b)) = .ok c ↔
      ∃ a, x = .ok a ∧ ∃ b, y = .ok b ∧ c = g a b := by
  simp only [bind_eq_ok, pure_eq_ok]

theorem bind_eq_error {x : Except ε α} {f : α → Except ε β} {failure : ε} :
    (x >>= f) = .error failure ↔ x = .error failure ∨ ∃ a, x = .ok a ∧ f a = .error failure := by
  cases x with
  | error failure' =>
    constructor
    · exact fun herror ↦ .inl (congrArg Except.error (Except.error.inj herror))
    · rintro (herror | ⟨a, ha, -⟩)
      · exact congrArg Except.error (Except.error.inj herror)
      · cases ha
  | ok a =>
    constructor
    · exact fun herror ↦ .inr ⟨a, rfl, herror⟩
    · rintro (herror | ⟨a', ha', herror⟩)
      · cases herror
      · cases ha'
        exact herror

/-- What follows a result needs to agree on the result only. -/
theorem bind_congr_ok {x : Except ε α} {f g : α → Except ε β} (hfg : ∀ a, x = .ok a → f a = g a) :
    (x >>= f) = x >>= g := by
  cases x with
  | error failure => rfl
  | ok a => exact hfg a rfl

/-! ## Loops over a list -/

theorem mapM_some {f : α → Option β} {g : α → β} {xs : List α}
    (hf : ∀ x ∈ xs, f x = some (g x)) : xs.mapM f = some (xs.map g) := by
  induction xs with
  | nil => rfl
  | cons x xs ih =>
    rw [forall_mem_cons] at hf
    rw [mapM_cons, hf.1, ih hf.2]
    rfl

theorem mapM_eq_ok {f : α → Except ε β} {xs : List α} {ys : List β} :
    xs.mapM f = .ok ys ↔ List.Forall₂ (fun x y ↦ f x = .ok y) xs ys := by
  induction xs generalizing ys with
  | nil =>
    rw [mapM_nil, pure_eq_ok, forall₂_nil_left_iff]
  | cons x xs ih =>
    simp only [mapM_cons, bind_eq_ok, pure_eq_ok, ih, forall₂_cons_left_iff]
    constructor
    · rintro ⟨y, hy, ys, hys, rfl⟩
      exact ⟨y, ys, hy, hys, rfl⟩
    · rintro ⟨y, ys, hy, hys, rfl⟩
      exact ⟨y, hy, ys, hys, rfl⟩

/-- A loop whose turns have results has one. -/
theorem exists_mapM {f : α → Except ε β} {xs : List α} (hf : ∀ x ∈ xs, ∃ y, f x = .ok y) :
    ∃ ys, xs.mapM f = .ok ys := by
  induction xs with
  | nil => exact ⟨[], rfl⟩
  | cons x xs ih =>
    rw [forall_mem_cons] at hf
    obtain ⟨y, hy⟩ := hf.1
    obtain ⟨ys, hys⟩ := ih hf.2
    exact ⟨y :: ys, by rw [mapM_cons, hy, ok_bind, hys, ok_bind]; rfl⟩

theorem exists_of_mem_mapM {f : α → Except ε β} {xs : List α} {ys : List β} {x : α}
    (hok : xs.mapM f = .ok ys) (hx : x ∈ xs) : ∃ y ∈ ys, f x = .ok y := by
  induction mapM_eq_ok.mp hok with
  | nil => cases hx
  | cons hy hrest ih =>
    cases List.mem_cons.mp hx with
    | inl hhead => exact ⟨_, mem_cons_self, hhead ▸ hy⟩
    | inr htail =>
      obtain ⟨y', hmem, hy'⟩ := ih (mapM_eq_ok.mpr hrest) htail
      exact ⟨y', mem_cons_of_mem _ hmem, hy'⟩

theorem exists_of_mem_result {f : α → Except ε β} {xs : List α} {ys : List β} {y : β}
    (hok : xs.mapM f = .ok ys) (hy : y ∈ ys) : ∃ x ∈ xs, f x = .ok y := by
  induction mapM_eq_ok.mp hok with
  | nil => cases hy
  | cons hx hrest ih =>
    cases List.mem_cons.mp hy with
    | inl hhead => exact ⟨_, mem_cons_self, hhead ▸ hx⟩
    | inr htail =>
      obtain ⟨x', hmem, hx'⟩ := ih (mapM_eq_ok.mpr hrest) htail
      exact ⟨x', mem_cons_of_mem _ hmem, hx'⟩

theorem mem_mapM_iff {f : α → Except ε β} {xs : List α} {ys : List β} {y : β}
    (hok : xs.mapM f = .ok ys) : y ∈ ys ↔ ∃ x ∈ xs, f x = .ok y := by
  constructor
  · exact exists_of_mem_result hok
  · rintro ⟨x, hx, hy⟩
    obtain ⟨y', hmem, hy'⟩ := exists_of_mem_mapM hok hx
    rwa [Except.ok.inj (hy.symm.trans hy')]

/-- What the results have in common with the elements. -/
theorem map_eq_of_mapM {γ : Type} {f : α → Except ε β} {g : α → γ} {h : β → γ} {xs : List α} {ys : List β}
    (hok : xs.mapM f = .ok ys) (hsame : ∀ x y, f x = .ok y → h y = g x) : ys.map h = xs.map g := by
  induction mapM_eq_ok.mp hok with
  | nil => rfl
  | cons hx hrest ih =>
    rw [map_cons, map_cons, hsame _ _ hx, ih (mapM_eq_ok.mpr hrest)]

/-- A loop fails where the first of its turns does. -/
theorem mapM_eq_error {f : α → Except ε β} {xs : List α} {failure : ε} :
    xs.mapM f = .error failure ↔ ∃ before x after, xs = before ++ x :: after ∧
      (∀ y ∈ before, ∃ result, f y = .ok result) ∧ f x = .error failure := by
  induction xs with
  | nil =>
    constructor
    · intro herror
      cases herror
    · rintro ⟨before, x, after, hxs, -⟩
      cases before <;> cases hxs
  | cons x xs ih =>
    simp only [mapM_cons, bind_eq_error, ih]
    constructor
    · rintro (hx | ⟨y, hy, ⟨before, x', after, rfl, hbefore, hx'⟩ | ⟨ys, -, hpure⟩⟩)
      · exact ⟨[], x, xs, rfl, by simp, hx⟩
      · refine ⟨x :: before, x', after, rfl, fun z hz ↦ ?_, hx'⟩
        cases List.mem_cons.mp hz with
        | inl hhead => exact ⟨y, hhead ▸ hy⟩
        | inr htail => exact hbefore z htail
      · cases hpure
    · rintro ⟨before, x', after, hxs, hbefore, hx'⟩
      cases before with
      | nil =>
        cases hxs
        exact .inl hx'
      | cons z before =>
        cases hxs
        obtain ⟨y, hy⟩ := hbefore x mem_cons_self
        refine .inr ⟨y, hy, .inl ⟨before, x', after, rfl, fun w hw ↦ ?_, hx'⟩⟩
        exact hbefore w (mem_cons_of_mem x hw)

theorem forM_eq_ok {f : α → Except ε Unit} {xs : List α} :
    forM xs f = .ok () ↔ ∀ x ∈ xs, f x = .ok () := by
  induction xs with
  | nil => exact iff_of_true rfl fun _ hx ↦ absurd hx not_mem_nil
  | cons x xs ih =>
    rw [forM_cons, bind_eq_ok, forall_mem_cons, ih]
    constructor
    · rintro ⟨⟨⟩, hx, hrest⟩
      exact ⟨hx, hrest⟩
    · rintro ⟨hx, hrest⟩
      exact ⟨(), hx, hrest⟩

/-! ## Loops over rows -/

/-- The rows are computed in turn and stored one after the other. -/
def tabM (n : ℕ) (f : ℕ → Except ε (List α)) : Except ε (List α) := do
  let rows ← (List.range n).mapM f
  return rows.flatten

theorem tabM_zero (f : ℕ → Except ε (List α)) : tabM 0 f = .ok [] := rfl

theorem tabM_succ (n : ℕ) (f : ℕ → Except ε (List α)) :
    tabM (n + 1) f = tabM n f >>= fun rows ↦ f n >>= fun row ↦ pure (rows ++ row) := by
  simp only [tabM, range_succ, mapM_append, mapM_cons, mapM_nil, bind_assoc,
    pure_bind, flatten_append, flatten_cons, flatten_nil, append_nil]

theorem tabM_one (f : ℕ → Except ε (List α)) : tabM 1 f = f 0 := by
  rw [tabM_succ, tabM_zero]
  exact bind_pure (f 0)

theorem tabM_eq_ok {n : ℕ} {f : ℕ → Except ε (List α)} {out : List α} :
    tabM n f = .ok out ↔ ∃ rows, (∀ i < n, f i = .ok (rows i)) ∧ out = tab n rows := by
  induction n generalizing out with
  | zero =>
    rw [tabM_zero]
    refine ⟨fun hok ↦ ⟨fun _ ↦ [], fun i hi ↦ absurd hi (Nat.not_lt_zero i), ?_⟩, ?_⟩
    · exact (Except.ok.inj hok).symm
    · rintro ⟨rows, -, hout⟩
      exact congrArg Except.ok hout.symm
  | succ n ih =>
    simp only [tabM_succ, bind_eq_ok, pure_eq_ok, ih]
    constructor
    · rintro ⟨_, ⟨rows, hrows, rfl⟩, row, hrow, rfl⟩
      refine ⟨update rows n row, fun i hi ↦ ?_, ?_⟩
      · by_cases hlast : i = n
        · rw [hlast, update_self, hrow]
        · rw [update_of_ne hlast, hrows i (by omega)]
      · rw [tab_succ, update_self]
        exact congrArg (· ++ row) (tab_congr fun i hi ↦ (update_of_ne hi.ne _ _).symm)
    · rintro ⟨rows, hrows, rfl⟩
      exact ⟨_, ⟨rows, fun i hi ↦ hrows i (Nat.lt_succ_of_lt hi), rfl⟩, rows n,
        hrows n (Nat.lt_succ_self n), tab_succ n rows⟩

/-- Rows that exist one by one exist together. -/
theorem exists_rows {n : ℕ} {p : ℕ → List α → Prop} (hrows : ∀ r < n, ∃ row, p r row) :
    ∃ rows : ℕ → List α, ∀ r < n, p r (rows r) := by
  have hall : ∀ r, ∃ row : List α, r < n → p r row := by
    intro r
    by_cases hr : r < n
    · obtain ⟨row, hrow⟩ := hrows r hr
      exact ⟨row, fun _ ↦ hrow⟩
    · exact ⟨[], fun hlt ↦ absurd hlt hr⟩
  choose rows hrows using hall
  exact ⟨rows, hrows⟩

/-- A partial function of the entries, over all rows. -/
theorem mapM_tab_eq_ok {n : ℕ} {f : α → Except ε β} {rows : ℕ → List α} {out : List β} :
    (tab n rows).mapM f = .ok out ↔
      ∃ rows', (∀ i < n, (rows i).mapM f = .ok (rows' i)) ∧ out = tab n rows' := by
  have htabM : (tab n rows).mapM f = tabM n fun i ↦ (rows i).mapM f := by
    induction n with
    | zero => rfl
    | succ n ih => rw [tab_succ, mapM_append, ih, tabM_succ]
  rw [htabM, tabM_eq_ok]

/-- A loop that computes something each time around and stores it. -/
theorem foldlM_eq_ok {n : ℕ} {f : ℕ → Except ε (List α)} {g : β → ℕ → List α → β} {start out : β} :
    (List.range n).foldlM (fun out i ↦ f i >>= fun row ↦ pure (g out i row)) start = .ok out ↔
      ∃ rows : ℕ → List α, (∀ i < n, f i = .ok (rows i)) ∧
        out = (List.range n).foldl (fun out i ↦ g out i (rows i)) start := by
  induction n generalizing out with
  | zero =>
    refine ⟨fun hok ↦ ⟨fun _ ↦ [], fun i hi ↦ absurd hi (Nat.not_lt_zero i), ?_⟩, ?_⟩
    · exact (Except.ok.inj hok).symm
    · rintro ⟨rows, -, hout⟩
      exact congrArg Except.ok hout.symm
  | succ n ih =>
    simp only [range_succ, foldlM_append, foldlM_cons, foldlM_nil, bind_eq_ok,
      pure_eq_ok, ih, foldl_append, foldl_cons, foldl_nil]
    constructor
    · rintro ⟨_, ⟨rows, hrows, rfl⟩, _, ⟨row, hrow, rfl⟩, rfl⟩
      have hbefore : ∀ i ∈ List.range n, update rows n row i = rows i := fun i hi ↦
        update_of_ne (List.mem_range.mp hi).ne _ _
      refine ⟨update rows n row, fun i hi ↦ ?_, ?_⟩
      · by_cases hlast : i = n
        · rw [hlast, update_self, hrow]
        · rw [update_of_ne hlast, hrows i (by omega)]
      · rw [update_self]
        congr 1
        exact foldl_ext _ _ _ fun out i hi ↦ by rw [hbefore i hi]
    · rintro ⟨rows, hrows, rfl⟩
      exact ⟨_, ⟨rows, fun i hi ↦ hrows i (Nat.lt_succ_of_lt hi), rfl⟩, _,
        ⟨rows n, hrows n (Nat.lt_succ_self n), rfl⟩, rfl⟩

end SoulSystem.Library.Outcome
