import SoulSystem.Library.Outcome

/-!
# Pipelines of layers with states

A layer turns elements into elements and keeps a state.  A sequence goes through the layers one by
one, or each of its elements goes through all layers before the next: both ways succeed for the same
sequences, with the same results.
-/

namespace SoulSystem.Library.Pipeline

open Outcome List

variable {ε σ α : Type}

abbrev Layer (ε σ α : Type) := σ → α → Except ε (α × σ)

/-- A sequence through one layer. -/
def through (layer : Layer ε σ α) : σ → List α → Except ε (List α)
  | _, [] => .ok []
  | s, x :: xs => do
      let out ← layer s x
      let rest ← through layer out.2 xs
      return out.1 :: rest

/-- A sequence through the layers one by one, each with its state. -/
def layerwise : List (Layer ε σ α × σ) → List α → Except ε (List α)
  | [], xs => .ok xs
  | (layer, s) :: layers, xs => do
      let ys ← through layer s xs
      layerwise layers ys

/-- One element through all layers. -/
def pass : List (Layer ε σ α × σ) → α → Except ε (α × List (Layer ε σ α × σ))
  | [], x => .ok (x, [])
  | (layer, s) :: layers, x => do
      let out ← layer s x
      let last ← pass layers out.1
      return (last.1, (layer, out.2) :: last.2)

/-- The elements through all layers one by one. -/
def elementwise : List (Layer ε σ α × σ) → List α → Except ε (List α)
  | _, [] => .ok []
  | layers, x :: xs => do
      let out ← pass layers x
      let rest ← elementwise out.2 xs
      return out.1 :: rest

/-- Layers that keep a property of the elements keep it for sequences. -/
theorem forall_through {p : α → Prop} {layer : Layer ε σ α}
    (hlayer : ∀ s x out, p x → layer s x = .ok out → p out.1) {s : σ} {xs ys : List α}
    (hxs : ∀ x ∈ xs, p x) (hok : through layer s xs = .ok ys) :
    ys.length = xs.length ∧ ∀ y ∈ ys, p y := by
  induction xs generalizing s ys with
  | nil =>
    cases hok
    exact ⟨rfl, forall_mem_nil _⟩
  | cons x xs ih =>
    simp only [through, bind_eq_ok, pure_eq_ok] at hok
    obtain ⟨out, hout, rest, hrest, rfl⟩ := hok
    obtain ⟨hx, hxs⟩ := List.forall_mem_cons.mp hxs
    obtain ⟨hlength, hall⟩ := ih hxs hrest
    exact ⟨congrArg Nat.succ hlength, List.forall_mem_cons.mpr ⟨hlayer s x out hx hout, hall⟩⟩

theorem forall_layerwise {p : α → Prop} {layers : List (Layer ε σ α × σ)}
    (hlayers : ∀ layer ∈ layers, ∀ s x out, p x → layer.1 s x = .ok out → p out.1) {xs ys : List α}
    (hxs : ∀ x ∈ xs, p x) (hok : layerwise layers xs = .ok ys) :
    ys.length = xs.length ∧ ∀ y ∈ ys, p y := by
  induction layers generalizing xs with
  | nil =>
    cases hok
    exact ⟨rfl, hxs⟩
  | cons head layers ih =>
    obtain ⟨hhead, hlayers⟩ := List.forall_mem_cons.mp hlayers
    obtain ⟨zs, hzs, hrest⟩ := bind_eq_ok.mp hok
    obtain ⟨hlength, hall⟩ := forall_through hhead hxs hzs
    obtain ⟨hlength', hall'⟩ := ih hlayers hall hrest
    exact ⟨hlength'.trans hlength, hall'⟩

theorem elementwise_nil (xs : List α) : elementwise ([] : List (Layer ε σ α × σ)) xs = .ok xs := by
  induction xs with
  | nil => rfl
  | cons x xs ih =>
    rw [elementwise, pass]
    exact congrArg (· >>= fun rest ↦ pure (x :: rest)) ih

/-- The first layer can be run on the whole sequence before the others. -/
theorem elementwise_cons {layer : Layer ε σ α} {s : σ} {layers : List (Layer ε σ α × σ)}
    {xs ys : List α} : elementwise ((layer, s) :: layers) xs = .ok ys ↔
      ∃ zs, through layer s xs = .ok zs ∧ elementwise layers zs = .ok ys := by
  induction xs generalizing s layers ys with
  | nil =>
    refine ⟨fun hok ↦ ⟨[], rfl, hok⟩, ?_⟩
    rintro ⟨zs, hzs, hok⟩
    cases hzs
    exact hok
  | cons x xs ih =>
    simp only [elementwise, pass, through, bind_eq_ok, pure_eq_ok]
    constructor
    · rintro ⟨_, ⟨out, hout, last, hlast, rfl⟩, rest, hrest, rfl⟩
      obtain ⟨zs, hzs, hok⟩ := ih.mp hrest
      refine ⟨out.1 :: zs, ⟨out, hout, zs, hzs, rfl⟩, ?_⟩
      simp only [elementwise, bind_eq_ok, pure_eq_ok]
      exact ⟨last, hlast, rest, hok, rfl⟩
    · rintro ⟨_, ⟨out, hout, zs, hzs, rfl⟩, hok⟩
      simp only [elementwise, bind_eq_ok, pure_eq_ok] at hok
      obtain ⟨last, hlast, rest, hrest, rfl⟩ := hok
      exact ⟨_, ⟨out, hout, last, hlast, rfl⟩, rest, ih.mpr ⟨zs, hzs, hrest⟩, rfl⟩

/-- **Layer by layer or element by element, the results are the same.** -/
theorem layerwise_iff_elementwise {layers : List (Layer ε σ α × σ)} {xs ys : List α} :
    layerwise layers xs = .ok ys ↔ elementwise layers xs = .ok ys := by
  induction layers generalizing xs with
  | nil => rw [layerwise, elementwise_nil]
  | cons head layers ih =>
    rw [layerwise, bind_eq_ok, elementwise_cons]
    exact exists_congr fun zs ↦ and_congr_right' ih

/-! ## Layers with a history -/

section History

variable {β κ : Type}

/-- An entry is computed from an element and its position, and the result from the history with this
entry. -/
def historyLayer (project : ℕ → α → Except ε (β × κ)) (finish : α → β → List κ → Except ε α) :
    Layer ε (List κ) α := fun history x ↦ do
  let entry ← project history.length x
  let y ← finish x entry.1 (history ++ [entry.2])
  return (y, history ++ [entry.2])

variable {project : ℕ → α → Except ε (β × κ)} {finish : α → β → List κ → Except ε α}

theorem historyLayer_eq_ok {history : List κ} {x : α} {out : α × List κ} :
    historyLayer project finish history x = .ok out ↔ ∃ b entry,
      project history.length x = .ok (b, entry) ∧
        finish x b (history ++ [entry]) = .ok out.1 ∧ out.2 = history ++ [entry] := by
  simp only [historyLayer, bind_eq_ok, pure_eq_ok]
  constructor
  · rintro ⟨⟨b, entry⟩, hproject, y, hfinish, rfl⟩
    exact ⟨b, entry, hproject, hfinish, rfl⟩
  · rintro ⟨b, entry, hproject, hfinish, hhistory⟩
    exact ⟨(b, entry), hproject, out.1, hfinish, Prod.ext rfl hhistory⟩

variable [Inhabited β] [Inhabited κ]

theorem through_history {history : List κ} {xs ys : List α} :
    through (historyLayer project finish) history xs = .ok ys ↔
      ys.length = xs.length ∧ ∃ (b : ℕ → β) (entry : ℕ → κ),
        (∀ t x, xs[t]? = some x → project (history.length + t) x = .ok (b t, entry t)) ∧
        ∀ t x y, xs[t]? = some x → ys[t]? = some y →
          finish x (b t) (history ++ (List.range (t + 1)).map entry) = .ok y := by
  induction xs generalizing history ys with
  | nil =>
    constructor
    · intro hok
      cases hok
      exact ⟨rfl, fun _ ↦ default, fun _ ↦ default, fun t x hx ↦ absurd hx (by simp),
        fun t x y hx ↦ absurd hx (by simp)⟩
    · rintro ⟨hlength, -⟩
      rw [eq_nil_of_length_eq_zero hlength]
      rfl
  | cons x xs ih =>
    have hposition : ∀ (entry : κ) t,
        (history ++ [entry]).length + t = history.length + (t + 1) := by
      intro entry t
      rw [length_append, length_singleton]
      omega
    have hentries : ∀ (entry : ℕ → κ) t,
        (history ++ [entry 0]) ++ (List.range (t + 1)).map (fun t ↦ entry (t + 1)) =
          history ++ (List.range (t + 1 + 1)).map entry := by
      intro entry t
      have hrange : List.range (t + 1 + 1) = 0 :: (List.range (t + 1)).map Nat.succ :=
        range_succ_eq_map
      rw [hrange, map_cons, map_map, append_assoc]
      rfl
    simp only [through, bind_eq_ok, pure_eq_ok, historyLayer_eq_ok]
    constructor
    · rintro ⟨⟨y, next⟩, ⟨b₀, entry₀, hproject, hfinish, rfl⟩, rest, hrest, rfl⟩
      obtain ⟨hlength, b, entry, hprojects, hfinishes⟩ := ih.mp hrest
      refine ⟨congrArg Nat.succ hlength, fun t ↦ t.casesOn b₀ b, fun t ↦ t.casesOn entry₀ entry,
        fun t x' hx ↦ ?_, fun t x' y' hx hy ↦ ?_⟩
      · cases t with
        | zero =>
          cases hx
          exact hproject
        | succ t => exact hposition entry₀ t ▸ hprojects t x' hx
      · cases t with
        | zero =>
          cases hx
          cases hy
          exact hfinish
        | succ t =>
          exact (hentries (fun t ↦ t.casesOn entry₀ entry) t) ▸ hfinishes t x' y' hx hy
    · rintro ⟨hlength, b, entry, hprojects, hfinishes⟩
      cases ys with
      | nil => cases hlength
      | cons y ys =>
        refine ⟨(y, history ++ [entry 0]), ⟨b 0, entry 0, hprojects 0 x rfl,
          hfinishes 0 x y rfl rfl, rfl⟩, ys, ih.mpr ⟨Nat.succ_injective hlength,
            fun t ↦ b (t + 1), fun t ↦ entry (t + 1), fun t x' hx ↦ ?_, fun t x' y' hx hy ↦ ?_⟩, rfl⟩
        · exact (hposition (entry 0) t).symm ▸ hprojects (t + 1) x' hx
        · exact (hentries entry t).symm ▸ hfinishes (t + 1) x' y' hx hy

/-- A tabulated sequence goes through a layer that starts without a history. -/
theorem through_history_range [Inhabited α] {n : ℕ} {x : ℕ → α} {ys : List α} :
    through (historyLayer project finish) [] ((List.range n).map x) = .ok ys ↔
      ∃ (b : ℕ → β) (entry : ℕ → κ) (y : ℕ → α),
        (∀ t < n, project t (x t) = .ok (b t, entry t)) ∧
        (∀ t < n, finish (x t) (b t) ((List.range (t + 1)).map entry) = .ok (y t)) ∧
        ys = (List.range n).map y := by
  have hget : ∀ (g : ℕ → α) (t : ℕ) (z : α), ((List.range n).map g)[t]? = some z ↔ t < n ∧ z = g t := by
    intro g t z
    rw [getElem?_map, Option.map_eq_some_iff]
    constructor
    · rintro ⟨i, hi, rfl⟩
      obtain ⟨hlt, hsame⟩ := List.getElem?_eq_some_iff.mp hi
      rw [getElem_range] at hsame
      exact ⟨by simpa using hlt, hsame ▸ rfl⟩
    · rintro ⟨ht, rfl⟩
      exact ⟨t, getElem?_range ht, rfl⟩
  rw [through_history]
  constructor
  · rintro ⟨hlength, b, entry, hprojects, hfinishes⟩
    rw [length_map, length_range] at hlength
    refine ⟨b, entry, fun t ↦ ys.getD t default, fun t ht ↦ ?_, fun t ht ↦ ?_, ?_⟩
    · have hproject := hprojects t _ ((hget x t _).mpr ⟨ht, rfl⟩)
      rwa [length_nil, zero_add] at hproject
    · have hy : ys[t]? = some (ys.getD t default) := by
        rw [getD_eq_getElem _ _ (hlength ▸ ht), getElem?_eq_getElem]
      exact hfinishes t _ _ ((hget x t _).mpr ⟨ht, rfl⟩) hy
    · refine ext_getElem (by rw [length_map, length_range, hlength]) fun t ht _ ↦ ?_
      rw [getElem_map, getElem_range, getD_eq_getElem _ _ ht]
  · rintro ⟨b, entry, y, hprojects, hfinishes, rfl⟩
    refine ⟨by rw [length_map, length_map], b, entry, fun t x' hx ↦ ?_,
      fun t x' y' hx hy ↦ ?_⟩
    · obtain ⟨ht, rfl⟩ := (hget x t x').mp hx
      rw [length_nil, zero_add]
      exact hprojects t ht
    · obtain ⟨ht, rfl⟩ := (hget x t x').mp hx
      obtain ⟨-, rfl⟩ := (hget y t y').mp hy
      exact hfinishes t ht

end History

end SoulSystem.Library.Pipeline
