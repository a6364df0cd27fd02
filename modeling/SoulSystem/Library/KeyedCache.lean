import Mathlib.Tactic

/-!
# Caches keyed on a proxy

A cell holds a value computed from some state together with a key of that state, and the value is
computed again only when the key of the present state is another one.  Where the key does not
determine the value, an answer is right exactly when the state that filled the cell has another key
or the same value.
-/

namespace SoulSystem.Library.KeyedCache

variable {σ κ β : Type*} [DecidableEq κ] (key : σ → κ) (value : σ → β)

/-- The cell before its value is read in a state. -/
def refreshed (cell : Option (κ × β)) (state : σ) : κ × β :=
  match cell with
  | some (found, cached) => if found = key state then (found, cached) else (key state, value state)
  | none => (key state, value state)

/-- What happens to a cell. -/
inductive Event (σ : Type*) where
  | read (state : σ)
  | clear

def after (cell : Option (κ × β)) : Event σ → Option (κ × β)
  | .read state => some (refreshed key value cell state)
  | .clear => none

/-- The state that the value of the cell was computed from. -/
def origin (state : Option σ) : Event σ → Option σ
  | .read present =>
    match state with
    | some filled => if key filled = key present then some filled else some present
    | none => some present
  | .clear => none

/-- The cell of a known origin. -/
def cellOf (state : Option σ) : Option (κ × β) :=
  state.map fun filled ↦ (key filled, value filled)

variable {key value}

theorem after_cellOf (state : Option σ) (event : Event σ) :
    after key value (cellOf key value state) event = cellOf key value (origin key state event) := by
  cases event with
  | clear => rfl
  | read present =>
    cases state with
    | none => rfl
    | some filled =>
      unfold after origin cellOf refreshed
      simp only [Option.map_some]
      split
      · rfl
      · rfl

/-- A cell follows its origin through all events. -/
theorem foldl_after_cellOf (events : List (Event σ)) (state : Option σ) :
    events.foldl (after key value) (cellOf key value state) =
      cellOf key value (events.foldl (origin key) state) := by
  induction events generalizing state with
  | nil => rfl
  | cons event events ih => rw [List.foldl_cons, List.foldl_cons, after_cellOf, ih]

/-- An answer is the value of the present state, unless the cell was filled from a state with the
same key and another value. -/
theorem refreshed_eq_iff (state : Option σ) (present : σ) (R : β → Prop)
    (hpresent : R (value present)) :
    R (refreshed key value (cellOf key value state) present).2 ↔
      ∀ filled, state = some filled → key filled = key present → R (value filled) := by
  cases state with
  | none =>
    constructor
    · intro _ filled hfilled
      cases hfilled
    · exact fun _ ↦ hpresent
  | some filled =>
    unfold refreshed cellOf
    simp only [Option.map_some]
    split
    · rename_i hkey
      constructor
      · rintro hfilled _ ⟨⟩ _
        exact hfilled
      · exact fun hall ↦ hall filled rfl hkey
    · rename_i hkey
      constructor
      · rintro _ _ ⟨⟩ hsame
        exact absurd hsame hkey
      · exact fun _ ↦ hpresent

/-! ## Cells keyed on a version -/

/-- A cell was filled at a version that has been, and what it holds of the present one is as it
should be. -/
def Dated (version : ℕ) (P : β → Prop) (cell : Option (ℕ × β)) : Prop :=
  ∀ found cached, cell = some (found, cached) → found ≤ version ∧ (found = version → P cached)

theorem Dated.none {version : ℕ} {P : β → Prop} : Dated version P none :=
  fun _ _ hcell ↦ nomatch hcell

/-- A later version makes the cell useless, whatever it should hold now. -/
theorem Dated.later {version later : ℕ} {P Q : β → Prop} {cell : Option (ℕ × β)}
    (hdated : Dated version P cell) (hlater : version < later) : Dated later Q cell := by
  intro found cached hcell
  have hfound := (hdated found cached hcell).1.trans_lt hlater
  exact ⟨hfound.le, fun heq ↦ absurd heq hfound.ne⟩

/-- A cell that is filled now. -/
theorem Dated.filled {version : ℕ} {P : β → Prop} {cached : β} (hcached : P cached) :
    Dated version P (some (version, cached)) := by
  intro found other hcell
  cases hcell
  exact ⟨le_rfl, fun _ ↦ hcached⟩

theorem refreshed_of_dated {version : σ → ℕ} {value : σ → β} {cell : Option (ℕ × β)} {state : σ}
    (hdated : Dated (version state) (· = value state) cell) :
    refreshed version value cell state = (version state, value state) := by
  cases cell with
  | none => rfl
  | some held =>
    obtain ⟨found, cached⟩ := held
    simp only [refreshed]
    split
    · rename_i hkey
      exact Prod.ext hkey ((hdated found cached rfl).2 hkey)
    · rfl

end SoulSystem.Library.KeyedCache
