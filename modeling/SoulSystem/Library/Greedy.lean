import Mathlib.Tactic

/-!
# Greedy grouping and greedy packing

Each item that is not taken yet starts a group and takes into it every later item that is like it
and not taken yet.  Whatever the likeness is, every item ends up in exactly one group.

Items are packed into a budget one after another, each that still fits.  Those that are left out
may be spilled into a larger budget, which holds them all only if they are counted there.
-/

namespace SoulSystem.Library.Greedy

open List Function

variable {α : Type*} (similar : α → α → Bool)

/-- The items that a seed takes from a list of items with their positions, and what is
taken then. -/
def gather (seed : α) : (ℕ → Bool) → List (α × ℕ) → List α × (ℕ → Bool)
  | used, [] => ([], used)
  | used, (x, i) :: rest =>
    if used i then gather seed used rest
    else if similar seed x then
      let (mates, taken) := gather seed (update used i true) rest
      (x :: mates, taken)
    else gather seed used rest

/-- The groups, each with its seed first. -/
def groupsFrom : (ℕ → Bool) → List (α × ℕ) → List (α × List α)
  | _, [] => []
  | used, (x, i) :: rest =>
    if used i then groupsFrom used rest
    else
      let (mates, taken) := gather similar x (update used i true) rest
      (x, mates) :: groupsFrom taken rest

def groups (xs : List α) : List (α × List α) := groupsFrom similar (fun _ ↦ false) xs.zipIdx

/-- The members of all groups, group after group. -/
def members (gs : List (α × List α)) : List α := gs.flatMap fun g ↦ g.1 :: g.2

variable {similar} {seed : α} {used : ℕ → Bool} {items : List (α × ℕ)}

/-- The items of a list that are not taken yet. -/
def free (used : ℕ → Bool) (items : List (α × ℕ)) : List (α × ℕ) := items.filter fun p ↦ !used p.2

theorem free_cons_of_used {x : α} {i : ℕ} (hused : used i = true) :
    free used ((x, i) :: items) = free used items := by
  rw [free, filter_cons_of_neg (by simp [hused]), free]

theorem free_cons_of_not_used {x : α} {i : ℕ} (hused : used i = false) :
    free used ((x, i) :: items) = (x, i) :: free used items := by
  rw [free, filter_cons_of_pos (by simp [hused]), free]

theorem free_update_of_notMem {i : ℕ} (hi : i ∉ items.map Prod.snd) :
    free (update used i true) items = free used items := by
  apply filter_congr
  intro p hp
  have hne : p.2 ≠ i := fun heq ↦ hi (heq ▸ mem_map_of_mem hp)
  rw [update_of_ne hne]

/-- A seed takes items out of those that are free, and the others stay free. -/
theorem gather_perm (hnodup : (items.map Prod.snd).Nodup) :
    ((gather similar seed used items).1 ++
      (free (gather similar seed used items).2 items).map Prod.fst).Perm
        ((free used items).map Prod.fst) ∧
      ∀ i, i ∉ items.map Prod.snd → (gather similar seed used items).2 i = used i := by
  induction items generalizing used with
  | nil => exact ⟨List.Perm.refl _, fun _ _ ↦ rfl⟩
  | cons p rest ih =>
    obtain ⟨x, i⟩ := p
    obtain ⟨hi, hrest⟩ := List.nodup_cons.mp hnodup
    have hi : i ∉ rest.map Prod.snd := hi
    cases hused : used i with
    | true =>
      obtain ⟨hperm, hframe⟩ := @ih used hrest
      have htaken : (gather similar seed used rest).2 i = true := by
        rw [hframe i hi, hused]
      rw [gather, if_pos hused, free_cons_of_used htaken, free_cons_of_used hused]
      exact ⟨hperm, fun j hj ↦ hframe j fun hmem ↦ hj (mem_cons_of_mem i hmem)⟩
    | false =>
      by_cases hsimilar : similar seed x
      · obtain ⟨hperm, hframe⟩ := @ih (update used i true) hrest
        have htaken : (gather similar seed (update used i true) rest).2 i = true := by
          rw [hframe i hi, update_self]
        rw [free_update_of_notMem hi] at hperm
        rw [gather, if_neg (by simp [hused]), if_pos hsimilar]
        dsimp only
        rw [free_cons_of_used htaken, free_cons_of_not_used hused, map_cons,
          cons_append]
        refine ⟨hperm.cons x, fun j hj ↦ ?_⟩
        have hne : j ≠ i := fun heq ↦ hj (heq ▸ mem_cons_self)
        rw [hframe j fun hmem ↦ hj (mem_cons_of_mem i hmem), update_of_ne hne]
      · obtain ⟨hperm, hframe⟩ := @ih used hrest
        have hfree : (gather similar seed used rest).2 i = false := by
          rw [hframe i hi, hused]
        rw [gather, if_neg (by simp [hused]), if_neg hsimilar, free_cons_of_not_used hfree,
          free_cons_of_not_used hused, map_cons, map_cons]
        exact ⟨List.perm_middle.trans (hperm.cons x),
          fun j hj ↦ hframe j fun hmem ↦ hj (mem_cons_of_mem i hmem)⟩

theorem members_groupsFrom_perm (hnodup : (items.map Prod.snd).Nodup) :
    (members (groupsFrom similar used items)).Perm ((free used items).map Prod.fst) := by
  induction items generalizing used with
  | nil => exact List.Perm.refl _
  | cons p rest ih =>
    obtain ⟨x, i⟩ := p
    obtain ⟨hi, hrest⟩ := List.nodup_cons.mp hnodup
    cases hused : used i with
    | true =>
      rw [groupsFrom, if_pos hused, free_cons_of_used hused]
      exact ih hrest
    | false =>
      rw [groupsFrom, if_neg (by simp [hused]), free_cons_of_not_used hused]
      have htaken := (@gather_perm α similar x (update used i true) rest hrest).1
      rw [free_update_of_notMem hi] at htaken
      apply List.Perm.cons x
      exact ((ih hrest).append_left _).trans htaken

/-- **Grouping is a partition.** -/
theorem members_groups_perm (similar : α → α → Bool) (xs : List α) :
    (members (groups similar xs)).Perm xs := by
  have hpositions : (xs.zipIdx.map Prod.snd).Nodup := by
    rw [zipIdx_map_snd]
    exact nodup_range'
  have hfree : free (fun _ ↦ false) xs.zipIdx = xs.zipIdx := List.filter_eq_self.mpr fun _ _ ↦ rfl
  have hperm := @members_groupsFrom_perm α similar (fun _ ↦ false) xs.zipIdx hpositions
  rwa [hfree, zipIdx_map_fst] at hperm

/-! ## First fit -/

/-- What is packed of some costs, on top of what was packed before. -/
def firstFit (budget : ℕ) : ℕ → List ℕ → ℕ
  | packed, [] => packed
  | packed, cost :: costs =>
    firstFit budget (if packed + cost ≤ budget then packed + cost else packed) costs

/-- The costs that are left out, and fit a larger budget beside what is packed before them. -/
def spilled (budget extended : ℕ) : ℕ → List ℕ → ℕ
  | _, [] => 0
  | packed, cost :: costs =>
    if packed + cost ≤ budget then spilled budget extended (packed + cost) costs
    else if packed + cost ≤ extended then cost + spilled budget extended packed costs
    else spilled budget extended packed costs

variable {budget extended packed cost : ℕ} {costs : List ℕ}

theorem firstFit_cons_of_le (hfits : packed + cost ≤ budget) :
    firstFit budget packed (cost :: costs) = firstFit budget (packed + cost) costs := by
  rw [firstFit, if_pos hfits]

theorem firstFit_cons_of_lt (hfull : budget < packed + cost) :
    firstFit budget packed (cost :: costs) = firstFit budget packed costs := by
  rw [firstFit, if_neg (Nat.not_le.mpr hfull)]

theorem le_firstFit : packed ≤ firstFit budget packed costs := by
  induction costs generalizing packed with
  | nil => exact le_rfl
  | cons cost costs ih =>
    cases Nat.lt_or_ge budget (packed + cost) with
    | inl hfull => rw [firstFit_cons_of_lt hfull]; exact ih
    | inr hfits => rw [firstFit_cons_of_le hfits]; exact (Nat.le_add_right _ _).trans ih

/-- Every cost that fits the larger budget beside what the smaller one has packed also fits it
beside what the larger one has packed. -/
def FitsBoth (budget extended packed total : ℕ) (costs : List ℕ) : Prop :=
  ∀ before cost after, costs = before ++ cost :: after →
    firstFit budget packed before + cost ≤ extended →
    firstFit extended total before + cost ≤ extended

theorem fitsBoth_cons_iff {total packed' total' : ℕ}
    (hpacked : ∀ later, firstFit budget packed (cost :: later) = firstFit budget packed' later)
    (htotal : ∀ later, firstFit extended total (cost :: later) = firstFit extended total' later) :
    FitsBoth budget extended packed total (cost :: costs) ↔
      (packed + cost ≤ extended → total + cost ≤ extended) ∧
        FitsBoth budget extended packed' total' costs := by
  constructor
  · intro hfits
    refine ⟨hfits [] cost costs rfl, fun before next after hsplit ↦ ?_⟩
    rw [← hpacked, ← htotal]
    exact hfits (cost :: before) next after (by rw [hsplit, cons_append])
  · rintro ⟨hfirst, hrest⟩ before next after hsplit
    cases before with
    | nil =>
      obtain ⟨rfl, rfl⟩ := List.cons.inj hsplit
      exact hfirst
    | cons head before =>
      obtain ⟨rfl, htail⟩ := List.cons.inj hsplit
      rw [hpacked, htotal]
      exact hrest before next after htail

theorem packed_add_spilled_le_iff_from (hbudget : budget ≤ extended) {total : ℕ}
    (hpacked : packed ≤ total) (htotal : total ≤ extended) :
    total + firstFit budget packed costs + spilled budget extended packed costs ≤
        extended + packed ↔ FitsBoth budget extended packed total costs := by
  induction costs generalizing packed total with
  | nil =>
    refine iff_of_true (Nat.add_le_add_right htotal packed) fun before _ _ hsplit ↦ ?_
    cases before <;> cases hsplit
  | cons cost costs ih =>
    rw [spilled]
    by_cases hroom : total + cost ≤ extended
    · have htotal' (later : List ℕ) : firstFit extended total (cost :: later) =
          firstFit extended (total + cost) later := firstFit_cons_of_le hroom
      by_cases hfits : packed + cost ≤ budget
      · have hpacked' (later : List ℕ) : firstFit budget packed (cost :: later) =
            firstFit budget (packed + cost) later := firstFit_cons_of_le hfits
        rw [fitsBoth_cons_iff hpacked' htotal', if_pos hfits, hpacked', ← ih (by omega) hroom]
        omega
      · have hpacked' (later : List ℕ) : firstFit budget packed (cost :: later) =
            firstFit budget packed later := firstFit_cons_of_lt (Nat.lt_of_not_le hfits)
        rw [fitsBoth_cons_iff hpacked' htotal', if_neg hfits, hpacked',
          if_pos (by omega), ← ih (by omega) hroom]
        omega
    · have hfull : extended < total + cost := Nat.lt_of_not_le hroom
      by_cases hspill : packed + cost ≤ extended
      · refine iff_of_false (fun hle ↦ ?_) fun hall ↦ hroom (hall [] cost costs rfl hspill)
        by_cases hfits : packed + cost ≤ budget
        · rw [if_pos hfits, firstFit_cons_of_le hfits] at hle
          have hgrow : packed + cost ≤ firstFit budget (packed + cost) costs := le_firstFit
          omega
        · rw [if_neg hfits, if_pos hspill, firstFit_cons_of_lt (Nat.lt_of_not_le hfits)] at hle
          have hgrow : packed ≤ firstFit budget packed costs := le_firstFit
          omega
      · have hfits : ¬ packed + cost ≤ budget := fun h ↦ hspill (h.trans hbudget)
        have hpacked' (later : List ℕ) : firstFit budget packed (cost :: later) =
            firstFit budget packed later := firstFit_cons_of_lt (Nat.lt_of_not_le hfits)
        have htotal' (later : List ℕ) : firstFit extended total (cost :: later) =
            firstFit extended total later := firstFit_cons_of_lt hfull
        rw [fitsBoth_cons_iff hpacked' htotal', if_neg hfits, if_neg hspill, hpacked',
          ih hpacked htotal]
        exact (and_iff_right fun h ↦ absurd h hspill).symm

/-- **Two budgets.**  What is packed and what is spilled fit the larger budget together exactly if
each cost that fits it beside what is packed fits it beside a first fit of the larger budget. -/
theorem packed_add_spilled_le_iff (hbudget : budget ≤ extended) :
    firstFit budget 0 costs + spilled budget extended 0 costs ≤ extended ↔
      FitsBoth budget extended 0 0 costs := by
  rw [← packed_add_spilled_le_iff_from hbudget le_rfl (Nat.zero_le extended), Nat.zero_add,
    Nat.add_zero]

end SoulSystem.Library.Greedy
