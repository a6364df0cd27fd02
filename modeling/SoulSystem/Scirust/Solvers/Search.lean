import SoulSystem.Library.BranchAndBound
import SoulSystem.Scirust.Solvers.Objective

/-!
# The branch and bound over colourings

A stretch of the search is in charge of the partitions that extend a partial colouring.  Its
incumbent never gets worse, and unless the search is cut short no partition in its charge is better
than the incumbent that it leaves.  What replaces an incumbent is a partition with its true count
and cost.
-/

namespace SoulSystem.Scirust.Solvers

open Library FirstOccurrence Labelling List Function

section Colourings

variable {n : ℕ} {incompatible : Fin n → Fin n → Bool}

/-- No two vertices of a colour are incompatible. -/
def Proper {α : Type} (incompatible : Fin n → Fin n → Bool) (c : Fin n → α) : Prop :=
  ∀ i j, c i = c j → incompatible i j = false

/-- A candidate is a partition, and its count is true. -/
structure Counted (incompatible : Fin n → Fin n → Bool) (a : Candidate n) : Prop where
  complete : ∀ i, a.colors i ≠ none
  proper : Proper incompatible a.colors
  count : a.count = (clusters a.colors).card

/-- A candidate is a partition, and its count and its cost are true. -/
structure Honest (distance : Fin n → Fin n → ℚ) (incompatible : Fin n → Fin n → Bool)
    (a : Candidate n) : Prop extends Counted incompatible a where
  cost : a.cost = totalCost distance a.colors

/-- The colours are the numbers below a bound, nothing incompatible shares one, and some vertices
have none. -/
structure Partial (incompatible : Fin n → Fin n → Bool) (p : Colors n) (used uncolored : ℕ) :
    Prop where
  contiguous : Contiguous p used
  proper : ∀ i j, p i ≠ none → p i = p j → incompatible i j = false
  uncolored : (Finset.univ.filter fun i ↦ p i = none).card = uncolored

/-- The objectives of the partitions that extend a partial colouring. -/
def completions (distance : Fin n → Fin n → ℚ) (incompatible : Fin n → Fin n → Bool)
    (p : Colors n) : Set Objective :=
  {x | ∃ c : Fin n → ℕ, Proper incompatible c ∧ Extends p c ∧ objective distance c = x}

variable {distance : Fin n → Fin n → ℚ} {p : Colors n} {used uncolored : ℕ}

theorem Honest.objective_eq {a : Candidate n} (ha : Honest distance incompatible a) :
    a.objective = objective distance a.colors := by
  rw [Candidate.objective, objective, ha.count, ha.cost]

theorem partial_none : Partial incompatible (fun _ ↦ none) 0 n where
  contiguous := contiguous_none
  proper := fun _ _ h ↦ absurd rfl h
  uncolored := by simp

theorem usedColors_le_iff {bound : ℕ} :
    usedColors p ≤ bound ↔ ∀ i a, p i = some a → a < bound := by
  have hfold : ∀ (colors : List ℕ) (start : ℕ),
      colors.foldl (fun bound c ↦ max bound (c + 1)) start ≤ bound ↔
      start ≤ bound ∧ ∀ a ∈ colors, a < bound := by
    intro colors
    induction colors with
    | nil => simp
    | cons c colors ih =>
      intro start
      rw [foldl_cons, ih, max_le_iff, forall_mem_cons, and_assoc, Nat.succ_le_iff]
  rw [usedColors, hfold, and_iff_right (Nat.zero_le bound)]
  constructor
  · exact fun h i a hi ↦ h a (List.mem_filterMap.mpr ⟨p i, (mem_ofFn' _ _).mpr ⟨i, rfl⟩, hi⟩)
  · intro h a ha
    obtain ⟨color, hcolor, heq⟩ := List.mem_filterMap.mp ha
    obtain ⟨i, hi⟩ := (mem_ofFn' _ _).mp hcolor
    exact h i a (hi.trans heq)

theorem Partial.usedColors_eq (hp : Partial incompatible p used uncolored) :
    usedColors p = used := by
  apply le_antisymm
  · exact usedColors_le_iff.mpr fun i a hi ↦ (hp.contiguous a).mp ⟨i, hi⟩
  · by_contra hlt
    obtain ⟨i, hi⟩ := (hp.contiguous (usedColors p)).mpr (not_le.mp hlt)
    exact absurd (usedColors_le_iff.mp le_rfl i _ hi) (lt_irrefl _)

theorem feasible_iff {vertex : Fin n} {color : ℕ} :
    feasible incompatible p vertex color = true ↔
      ∀ j, p j = some color → incompatible vertex j = false := by
  simp [feasible, members, imp_iff_not_or]

/-- A vertex takes a colour that nothing incompatible has. -/
theorem proper_update (hsymm : ∀ i j, incompatible i j = incompatible j i)
    (hself : ∀ i, incompatible i i = false) {vertex : Fin n} {color : ℕ}
    (hp : ∀ i j, p i ≠ none → p i = p j → incompatible i j = false)
    (hcolor : ∀ j, j ≠ vertex → p j = some color → incompatible vertex j = false) :
    ∀ i j, update p vertex (some color) i ≠ none →
      update p vertex (some color) i = update p vertex (some color) j →
      incompatible i j = false := by
  intro i j hi heq
  by_cases hiv : i = vertex
  · by_cases hjv : j = vertex
    · rw [hiv, hjv]
      exact hself vertex
    · rw [hiv, update_self, update_of_ne hjv] at heq
      rw [hiv]
      exact hcolor j hjv heq.symm
  · rw [update_of_ne hiv] at hi heq
    by_cases hjv : j = vertex
    · rw [hjv, update_self] at heq
      rw [hjv, hsymm]
      exact hcolor i hiv heq
    · rw [update_of_ne hjv] at heq
      exact hp i j hi heq

/-- One more coloured vertex. -/
theorem Partial.update (hp : Partial incompatible p used (uncolored + 1))
    (hsymm : ∀ i j, incompatible i j = incompatible j i)
    (hself : ∀ i, incompatible i i = false) {vertex : Fin n} (hvertex : p vertex = none) {color : ℕ}
    (hcolor : color ≤ used) (hfeasible : feasible incompatible p vertex color = true) :
    Partial incompatible (Function.update p vertex (some color)) (max used (color + 1))
      uncolored where
  contiguous := contiguous_update hp.contiguous hvertex hcolor
  proper := proper_update hsymm hself hp.proper fun j _ hj ↦ feasible_iff.mp hfeasible j hj
  uncolored := by
    have herase : (Finset.univ.filter fun i ↦ Function.update p vertex (some color) i = none) =
        (Finset.univ.filter fun i ↦ p i = none).erase vertex := by
      ext i
      rw [Finset.mem_filter_univ, Finset.mem_erase, Finset.mem_filter_univ]
      by_cases hiv : i = vertex
      · rw [hiv, update_self]
        simp
      · rw [update_of_ne hiv]
        simp [hiv]
    have hmem : vertex ∈ Finset.univ.filter fun i ↦ p i = none :=
      (Finset.mem_filter_univ vertex).mpr hvertex
    rw [herase, Finset.card_erase_of_mem hmem, hp.uncolored, Nat.add_sub_cancel]

theorem Partial.complete (hp : Partial incompatible p used 0) (i : Fin n) : p i ≠ none := by
  have hempty := Finset.card_eq_zero.mp hp.uncolored
  intro hi
  have hmem : i ∈ Finset.univ.filter fun i ↦ p i = none := (Finset.mem_filter_univ i).mpr hi
  rw [hempty] at hmem
  exact absurd hmem (Finset.notMem_empty i)

/-- The candidate of a complete colouring is honest. -/
theorem Partial.honest (hp : Partial incompatible p used 0) :
    Honest distance incompatible ⟨p, countUsed p, partitionCost distance p (countUsed p)⟩ where
  complete := hp.complete
  proper := fun i j ↦ hp.proper i j (hp.complete i)
  count := countUsed_eq p
  cost := by
    refine partitionCost_eq fun i ↦ ?_
    obtain ⟨label, hlabel⟩ := Option.ne_none_iff_exists'.mp (hp.complete i)
    have hlt := (hp.contiguous label).mp ⟨i, hlabel⟩
    have hle : used ≤ countUsed p := by
      rw [countUsed_eq]
      exact Extends.used_le (fun i j _ _ ↦ Iff.rfl) hp.contiguous
    exact ⟨label, hlt.le.trans hle, hlabel⟩

/-- What has fewer clusters than a partial colouring has colours is better than all that extends
it. -/
theorem le_completions {a : Candidate n} (hp : Contiguous p used) (hcount : a.count < used) :
    ∀ x ∈ completions distance incompatible p, a.objective ≤ x := by
  rintro x ⟨c, -, hc, rfl⟩
  have hlt : a.count < (clusters c).card := hcount.trans_le (hc.used_le hp)
  exact (Prod.Lex.toLex_lt_toLex.mpr (.inl hlt)).le

/-- A colour that is not feasible has no completions. -/
theorem completions_of_infeasible {vertex : Fin n} (hvertex : p vertex = none) {color : ℕ}
    (hinfeasible : ¬ feasible incompatible p vertex color = true) :
    completions distance incompatible (update p vertex (some color)) = ∅ := by
  rw [Set.eq_empty_iff_forall_notMem]
  rintro x ⟨c, hproper, hc, -⟩
  refine hinfeasible (feasible_iff.mpr fun j hj ↦ hproper vertex j ?_)
  have hjv : j ≠ vertex := by
    intro heq
    rw [heq, hvertex] at hj
    exact Option.some_ne_none color hj.symm
  refine (hc vertex j ?_ ?_).mp ?_
  · rw [update_self]
    exact Option.some_ne_none color
  · rw [update_of_ne hjv, hj]
    exact Option.some_ne_none color
  · rw [update_self, update_of_ne hjv, hj]

/-- The next vertex has one of the colours or a new one. -/
theorem completions_subset (hp : Contiguous p used) (vertex : Fin n) :
    completions distance incompatible p ⊆
      {x | ∃ color ∈ List.range used,
        x ∈ completions distance incompatible (update p vertex (some color))} ∪
      completions distance incompatible (update p vertex (some used)) := by
  rintro x ⟨c, hproper, hc, hx⟩
  obtain ⟨color, hle, hextends⟩ := hc.exists_update hp vertex
  have hmem : x ∈ completions distance incompatible (update p vertex (some color)) :=
    ⟨c, hproper, hextends, hx⟩
  rcases hle.lt_or_eq with hlt | heq
  · exact .inl ⟨color, List.mem_range.mpr hlt, hmem⟩
  · exact .inr (heq ▸ hmem)

end Colourings

/-! ## The vertex of a node -/

section Selection

theorem maxBy_eq_some {α : Type} (cmp : α → α → Ordering) {l : List α} (hl : l ≠ []) :
    ∃ a ∈ l, maxBy cmp l = some a := by
  cases l with
  | nil => exact absurd rfl hl
  | cons a as =>
    have hfold : ∀ (as : List α) (best : α),
        as.foldl (fun best a ↦ if cmp best a = .gt then best else a) best ∈ best :: as := by
      intro as
      induction as with
      | nil => exact fun best ↦ mem_singleton_self best
      | cons b as ih =>
        intro best
        rw [foldl_cons]
        rcases List.mem_cons.mp (ih (if cmp best b = .gt then best else b)) with heq | hmem
        · rw [heq]
          split_ifs
          · exact mem_cons_self
          · exact mem_cons_of_mem _ mem_cons_self
        · exact mem_cons_of_mem _ (mem_cons_of_mem _ hmem)
    exact ⟨_, hfold as a, rfl⟩

variable {n : ℕ} [NeZero n] {incompatible : Fin n → Fin n → Bool}

theorem select_uncolored {p : Colors n} {used uncolored : ℕ}
    (hp : Partial incompatible p used (uncolored + 1)) (degrees : Fin n → ℕ) :
    p (select incompatible degrees p) = none := by
  have hne : (List.finRange n).filter (fun v ↦ p v = none) ≠ [] := by
    intro hnil
    have hempty : (Finset.univ.filter fun i ↦ p i = none) = ∅ := by
      rw [Finset.filter_eq_empty_iff]
      intro i _ hi
      have hmem : i ∈ (List.finRange n).filter fun v ↦ p v = none :=
        List.mem_filter.mpr ⟨mem_finRange i, decide_eq_true hi⟩
      rw [hnil] at hmem
      exact absurd hmem not_mem_nil
    have hcard := hp.uncolored
    rw [hempty, Finset.card_empty] at hcard
    omega
  obtain ⟨vertex, hmem, heq⟩ := maxBy_eq_some (fun a b ↦
    ((compare (saturation incompatible p a) (saturation incompatible p b)).then
      (compare (degrees a) (degrees b))).then (compare b a)) hne
  rw [select, heq, Option.getD_some]
  exact of_decide_eq_true (List.mem_filter.mp hmem).2

end Selection

/-! ## Stretches of the search -/

/-- What a stretch of the search does that has some partitions in its charge. -/
structure Stretch {n : ℕ} (distance : Fin n → Fin n → ℚ) (incompatible : Fin n → Fin n → Bool)
    (nodeBudget : ℕ) (leaves : Set Objective) (s t : Search n) : Prop where
  covers : Covers s.incumbent.objective t.incumbent.objective (t.exhaustedBudget = true) leaves
  keeps : t.incumbent = s.incumbent ∨ Honest distance incompatible t.incumbent
  stays : s.exhaustedBudget = true → t.exhaustedBudget = true
  explored : s.exploredNodes ≤ t.exploredNodes
  within : t.exploredNodes ≤ max s.exploredNodes nodeBudget
  cut : t.exhaustedBudget = true → s.exhaustedBudget = true ∨ nodeBudget ≤ t.exploredNodes

section Stretches

variable {n : ℕ} {distance : Fin n → Fin n → ℚ} {incompatible : Fin n → Fin n → Bool}
  {nodeBudget : ℕ} {leaves leaves' : Set Objective} {s t u : Search n}

namespace Stretch

/-- A search that has been cut short does nothing more. -/
theorem of_exhausted (hs : s.exhaustedBudget = true) :
    Stretch distance incompatible nodeBudget leaves s s where
  covers := Covers.cut_short hs
  keeps := .inl rfl
  stays := id
  explored := le_rfl
  within := le_max_left _ _
  cut := .inl

/-- Partitions that are no better need no visit, and only the numbers of nodes change. -/
theorem skip (hbound : ∀ x ∈ leaves, s.incumbent.objective ≤ x)
    (hincumbent : t.incumbent = s.incumbent) (hexhausted : t.exhaustedBudget = s.exhaustedBudget)
    (hexplored : s.exploredNodes ≤ t.exploredNodes)
    (hwithin : t.exploredNodes ≤ max s.exploredNodes nodeBudget) :
    Stretch distance incompatible nodeBudget leaves s t where
  covers := by
    rw [hincumbent]
    exact Covers.skip hbound
  keeps := .inl hincumbent
  stays := fun h ↦ hexhausted.trans h
  explored := hexplored
  within := hwithin
  cut := fun h ↦ .inl (hexhausted.symm.trans h)

theorem trans (hfirst : Stretch distance incompatible nodeBudget leaves s t)
    (hsecond : Stretch distance incompatible nodeBudget leaves' t u) :
    Stretch distance incompatible nodeBudget (leaves ∪ leaves') s u where
  covers := hfirst.covers.trans hsecond.covers hsecond.stays
  keeps := by
    rcases hsecond.keeps with heq | hhonest
    · rw [heq]
      exact hfirst.keeps
    · exact .inr hhonest
  stays := hsecond.stays ∘ hfirst.stays
  explored := hfirst.explored.trans hsecond.explored
  within := hsecond.within.trans (max_le hfirst.within (le_max_right _ _))
  cut := by
    intro hu
    rcases hsecond.cut hu with ht | hbudget
    · rcases hfirst.cut ht with hs | hbudget
      · exact .inl hs
      · exact .inr (hbudget.trans hsecond.explored)
    · exact .inr hbudget

theorem mono (hstretch : Stretch distance incompatible nodeBudget leaves s t)
    (hsub : leaves' ⊆ leaves) : Stretch distance incompatible nodeBudget leaves' s t :=
  { hstretch with covers := hstretch.covers.mono hsub }

end Stretch

/-- The colours of a vertex, one after the other. -/
theorem stretch_foldl {charge : ℕ → Set Objective} {visit : Search n → ℕ → Search n}
    (colors : List ℕ) (hvisit : ∀ color ∈ colors, ∀ s : Search n,
      Stretch distance incompatible nodeBudget (charge color) s (visit s color)) (s : Search n) :
    Stretch distance incompatible nodeBudget {x | ∃ color ∈ colors, x ∈ charge color} s
      (colors.foldl visit s) := by
  induction colors generalizing s with
  | nil =>
    exact Stretch.skip (fun _ ⟨_, h, _⟩ ↦ absurd h not_mem_nil) rfl rfl le_rfl
      (le_max_left _ _)
  | cons color colors ih =>
    rw [forall_mem_cons] at hvisit
    refine ((hvisit.1 s).trans (ih hvisit.2 (visit s color))).mono ?_
    rintro x ⟨b, hb, hx⟩
    rcases List.mem_cons.mp hb with heq | hmem
    · exact .inl (heq ▸ hx)
    · exact .inr ⟨b, hmem, hx⟩

/-- **A leaf** is the only partition that extends its colouring. -/
theorem stretch_visitLeaf {p : Colors n} {used : ℕ} (hp : Partial incompatible p used 0) :
    Stretch distance incompatible nodeBudget (completions distance incompatible p) s
      (visitLeaf distance p s) := by
  have hhonest : Honest distance incompatible
      ⟨p, countUsed p, partitionCost distance p (countUsed p)⟩ := hp.honest
  have hleaves : ∀ x ∈ completions distance incompatible p, objective distance p = x := by
    rintro x ⟨c, -, hc, rfl⟩
    exact objective_congr (hc.same hp.complete)
  have hobjective := hhonest.objective_eq
  rw [visitLeaf]
  by_cases hbeats : Candidate.beats
      ⟨p, countUsed p, partitionCost distance p (countUsed p)⟩ s.incumbent = true
  · rw [if_pos hbeats]
    exact {
      covers := ⟨((beats_iff _ _).mp hbeats).le, fun _ x hx ↦ (hobjective.trans (hleaves x hx)).le⟩
      keeps := .inr hhonest
      stays := id
      explored := le_rfl
      within := le_max_left _ _
      cut := .inl }
  · rw [if_neg hbeats]
    refine Stretch.skip (fun x hx ↦ ?_) rfl rfl le_rfl (le_max_left _ _)
    rw [← hleaves x hx, ← hobjective]
    exact not_lt.mp (mt (beats_iff _ _).mpr hbeats)

end Stretches

section Branch

variable {n : ℕ} [NeZero n] {distance : Fin n → Fin n → ℚ} {incompatible : Fin n → Fin n → Bool}
  {degrees : Fin n → ℕ} {nodeBudget : ℕ}

/-- **The branch and bound** is in charge of all partitions that extend a partial colouring. -/
theorem stretch_branch (hsymm : ∀ i j, incompatible i j = incompatible j i)
    (hself : ∀ i, incompatible i i = false) (uncolored : ℕ) {p : Colors n} {used : ℕ}
    (hp : Partial incompatible p used uncolored) (s : Search n) :
    Stretch distance incompatible nodeBudget (completions distance incompatible p) s
      (branch distance incompatible degrees nodeBudget uncolored p s) := by
  induction uncolored generalizing p used s with
  | zero =>
    rw [branch]
    by_cases hexhausted : s.exhaustedBudget = true
    · rw [if_pos hexhausted]
      exact Stretch.of_exhausted hexhausted
    · rw [if_neg hexhausted]
      exact stretch_visitLeaf hp
  | succ uncolored ih =>
    have hvertex := select_uncolored hp degrees
    rw [branch, hp.usedColors_eq]
    generalize select incompatible degrees p = vertex at hvertex ⊢
    by_cases hexhausted : s.exhaustedBudget = true
    · rw [if_pos hexhausted]
      exact Stretch.of_exhausted hexhausted
    rw [if_neg hexhausted]
    by_cases hbudget : nodeBudget ≤ s.exploredNodes
    · rw [if_pos hbudget]
      exact {
        covers := Covers.cut_short rfl
        keeps := .inl rfl
        stays := fun _ ↦ rfl
        explored := le_rfl
        within := le_max_left _ _
        cut := fun _ ↦ .inr hbudget }
    rw [if_neg hbudget]
    have hwithin : s.exploredNodes + 1 ≤ max s.exploredNodes nodeBudget :=
      le_max_of_le_right (Nat.succ_le_of_lt (not_le.mp hbudget))
    by_cases hprune : s.incumbent.count < used
    · refine Stretch.skip (le_completions hp.contiguous hprune) ?_ ?_ ?_ ?_
      all_goals rw [if_pos hprune]
      · exact Nat.le_succ _
      · exact hwithin
    rw [if_neg hprune]
    have hcolors : min used s.incumbent.count = used := min_eq_left (not_lt.mp hprune)
    have hentered : Stretch distance incompatible nodeBudget ∅ s
        { s with exploredNodes := s.exploredNodes + 1 } :=
      Stretch.skip (fun _ h ↦ absurd h (Set.notMem_empty _)) rfl rfl (Nat.le_succ _) hwithin
    have hvisit : ∀ color ∈ List.range used, ∀ s : Search n,
        Stretch distance incompatible nodeBudget
          (completions distance incompatible (update p vertex (some color))) s
          (if s.exhaustedBudget then s
          else if feasible incompatible p vertex color then
            branch distance incompatible degrees nodeBudget uncolored
              (update p vertex (some color)) s
          else s) := by
      intro color hcolor s
      have hlt := List.mem_range.mp hcolor
      by_cases hexhausted : s.exhaustedBudget = true
      · rw [if_pos hexhausted]
        exact Stretch.of_exhausted hexhausted
      rw [if_neg hexhausted]
      by_cases hfeasible : feasible incompatible p vertex color = true
      · rw [if_pos hfeasible]
        exact ih (hp.update hsymm hself hvertex hlt.le hfeasible) s
      · rw [if_neg hfeasible, completions_of_infeasible hvertex hfeasible]
        exact Stretch.skip (fun _ h ↦ absurd h (Set.notMem_empty _)) rfl rfl le_rfl
          (le_max_left _ _)
    have hloop := stretch_foldl (List.range used) hvisit
      { s with exploredNodes := s.exploredNodes + 1 }
    have hfirst := hentered.trans hloop
    rw [hcolors]
    generalize (List.range used).foldl _ _ = tried at hfirst ⊢
    have hfresh : feasible incompatible p vertex used = true :=
      feasible_iff.mpr fun j hj ↦ absurd ((hp.contiguous used).mp ⟨j, hj⟩) (lt_irrefl used)
    have hupdate := hp.update hsymm hself hvertex le_rfl hfresh
    have hlast : Stretch distance incompatible nodeBudget
        (completions distance incompatible (update p vertex (some used))) tried
        (if tried.exhaustedBudget then tried
        else if used < tried.incumbent.count then
          branch distance incompatible degrees nodeBudget uncolored
            (update p vertex (some used)) tried
        else { tried with prunedNodes := tried.prunedNodes + 1 }) := by
      by_cases hexhausted : tried.exhaustedBudget = true
      · rw [if_pos hexhausted]
        exact Stretch.of_exhausted hexhausted
      rw [if_neg hexhausted]
      by_cases hmore : used < tried.incumbent.count
      · rw [if_pos hmore]
        exact ih hupdate tried
      · rw [if_neg hmore]
        refine Stretch.skip (le_completions hupdate.contiguous ?_) rfl rfl le_rfl
          (le_max_left _ _)
        rw [max_eq_right (Nat.le_succ used)]
        exact Nat.lt_succ_of_le (not_lt.mp hmore)
    refine (hfirst.trans hlast).mono ?_
    rw [Set.empty_union]
    exact completions_subset hp.contiguous vertex

end Branch

end SoulSystem.Scirust.Solvers
