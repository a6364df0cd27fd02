import SoulSystem.Library.Forest
import SoulSystem.Library.Machine
import SoulSystem.Goals.GoalTree

/-!
# The goal forest and its progress

The links of the stored goals form a forest, which completing goals leaves alone.  Completing one
goal can only unsettle its parent, and the walk up the tree carries this one exception along until
it is gone.  The ranks of the forest bound the number of calls.
-/

namespace SoulSystem.Goals.GoalStore

open Library Std LinkTable List ExtTreeMap

/-! ## Links and completion -/

def links (s : GoalStore) : LinkTable Str := fun id ↦
  (s.loadGoal id).map fun goal ↦ ⟨goal.parentId, goal.childrenIds⟩

/-- Every goal is stored under its own id. -/
def Keyed (s : GoalStore) : Prop := ∀ id goal, s.loadGoal id = some goal → goal.id = id

/-- A goal with children that are all completed is completed itself. -/
def Settled (s : GoalStore) (id : Str) : Prop :=
  ∀ goal, s.loadGoal id = some goal → goal.childrenIds ≠ [] →
    (∀ c ∈ goal.childrenIds, s.isCompleted c = true) → goal.status = .completed

def status (s : GoalStore) (id : Str) : Option GoalStatus :=
  (s.loadGoal id).map PersistentGoal.status

variable {s : GoalStore} {now : ℤ} {id other : Str} {goal : PersistentGoal} {rank : Str → ℕ}
  {bound : ℕ}

theorem isCompleted_iff : s.isCompleted id = true ↔ s.status id = some .completed := by
  rw [isCompleted, status]
  cases s.loadGoal id with
  | none => simp
  | some goal => simp

theorem links_of_loadGoal (hload : s.loadGoal id = some goal) :
    s.links id = some ⟨goal.parentId, goal.childrenIds⟩ := by
  rw [links, hload, Option.map_some]

theorem links_eq_none_iff : s.links id = none ↔ s.loadGoal id = none := Option.map_eq_none_iff

theorem loadGoal_saveGoal : (s.saveGoal goal).loadGoal id =
    if goal.id = id then some goal else s.loadGoal id := by
  rw [loadGoal, saveGoal, ExtTreeMap.getElem?_insert]
  simp only [LawfulEqCmp.compare_eq_iff_eq, loadGoal]

theorem loadGoal_saveGoal_self : (s.saveGoal goal).loadGoal goal.id = some goal := by
  rw [loadGoal_saveGoal, if_pos rfl]

theorem loadGoal_saveGoal_ne (hne : goal.id ≠ id) :
    (s.saveGoal goal).loadGoal id = s.loadGoal id := by
  rw [loadGoal_saveGoal, if_neg hne]

/-! ## Completing one goal -/

theorem loadGoal_completeGoal (hkeyed : s.Keyed) (result : Str) :
    (completeGoal now s id result).loadGoal other =
      if id = other then (s.loadGoal id).map fun goal ↦
        { goal with status := .completed, result := some result, updatedAt := now }
      else s.loadGoal other := by
  rw [completeGoal]
  cases hload : s.loadGoal id with
  | none =>
    by_cases heq : id = other
    · rw [if_pos heq, ← heq]
      exact hload
    · rw [if_neg heq]
  | some goal =>
    dsimp only
    rw [loadGoal_saveGoal, Option.map_some]
    dsimp only
    rw [hkeyed id goal hload]

theorem links_completeGoal (hkeyed : s.Keyed) (result : Str) :
    (completeGoal now s id result).links = s.links := by
  funext other
  rw [links, loadGoal_completeGoal hkeyed]
  split
  · next heq =>
      rw [← heq, Option.map_map, links]
      rfl
  · rfl

theorem keyed_completeGoal (hkeyed : s.Keyed) (result : Str) :
    (completeGoal now s id result).Keyed := by
  intro other goal hload
  rw [loadGoal_completeGoal hkeyed] at hload
  split at hload
  · next heq =>
      obtain ⟨old, hold, rfl⟩ := Option.map_eq_some_iff.mp hload
      exact (hkeyed id old hold).trans heq
  · exact hkeyed other goal hload

theorem status_completeGoal_ne (hkeyed : s.Keyed) (result : Str) (hne : id ≠ other) :
    (completeGoal now s id result).status other = s.status other := by
  rw [status, loadGoal_completeGoal hkeyed, if_neg hne, status]

theorem isCompleted_completeGoal_ne (hkeyed : s.Keyed) (result : Str) (hne : id ≠ other) :
    (completeGoal now s id result).isCompleted other = s.isCompleted other := by
  rw [Bool.eq_iff_iff, isCompleted_iff, isCompleted_iff, status_completeGoal_ne hkeyed result hne]

theorem size_completeGoal (hkeyed : s.Keyed) (result : Str) :
    (completeGoal now s id result).size = s.size := by
  rw [completeGoal]
  cases hload : s.loadGoal id with
  | none => rfl
  | some goal =>
    have hmem : goal.id ∈ s := by
      rw [hkeyed id goal hload]
      exact SortedMap.mem_of_getElem?_eq_some hload
    dsimp only
    rw [saveGoal, size_insert]
    exact if_pos (ExtTreeMap.contains_iff_mem.mpr hmem)

/-- Completing a goal can only unsettle its parent. -/
theorem settled_completeGoal (hforest : IsForest s.links rank bound) (hkeyed : s.Keyed)
    (result : Str) (hsettled : other ≠ id → s.Settled other)
    (hparent : ¬ IsParent s.links other id) : (completeGoal now s id result).Settled other := by
  intro goal hload hne hall
  rw [loadGoal_completeGoal hkeyed] at hload
  split at hload
  · obtain ⟨old, _, rfl⟩ := Option.map_eq_some_iff.mp hload
    rfl
  · next hother =>
      apply hsettled (Ne.symm hother) goal hload hne
      intro c hc
      have hchild := hforest.child other _ (links_of_loadGoal hload) c hc
      have hdifferent : id ≠ c := fun heq ↦ hparent (heq ▸ hchild)
      rw [← isCompleted_completeGoal_ne hkeyed result hdifferent]
      exact hall c hc

/-! ## The walk up the tree -/

/-- What a walk that starts at `start` leaves: the same links, every goal settled, and no other
status changed than those of `start` and its ancestors. -/
structure Progress (s s' : GoalStore) (start : Str) : Prop where
  keyed : s'.Keyed
  links : s'.links = s.links
  size : s'.size = s.size
  settled : ∀ id, s'.Settled id
  status : ∀ id, s'.status id ≠ s.status id →
    id = start ∨ Relation.TransGen (IsParent s.links) id start

/-- A walk that goes on from the parent of a goal just completed. -/
theorem Progress.of_parent {s' : GoalStore} {parentId result : Str} (hkeyed : s.Keyed)
    (hparent : IsParent s.links parentId id)
    (hprogress : Progress (completeGoal now s id result) s' parentId) : Progress s s' id where
  keyed := hprogress.keyed
  links := hprogress.links.trans (links_completeGoal hkeyed result)
  size := hprogress.size.trans (size_completeGoal hkeyed result)
  settled := hprogress.settled
  status other hchanged := by
    by_cases heq : other = id
    · exact Or.inl heq
    · right
      rw [← status_completeGoal_ne hkeyed result (Ne.symm heq)] at hchanged
      have hpath := hprogress.status other hchanged
      rw [links_completeGoal hkeyed] at hpath
      cases hpath with
      | inl hsame => exact Relation.TransGen.single (hsame ▸ hparent)
      | inr htail => exact htail.tail hparent

/-- A walk that ends with a goal just completed. -/
theorem Progress.of_root {result : Str} (hkeyed : s.Keyed)
    (hsettled : ∀ other, (completeGoal now s id result).Settled other) :
    Progress s (completeGoal now s id result) id where
  keyed := keyed_completeGoal hkeyed result
  links := links_completeGoal hkeyed result
  size := size_completeGoal hkeyed result
  settled := hsettled
  status other hchanged := by
    by_cases heq : other = id
    · exact Or.inl heq
    · exact absurd (status_completeGoal_ne hkeyed result (Ne.symm heq)) hchanged

/-- The count of the completed children reaches their number if and only if all are completed. -/
theorem completed_eq_total_iff (cs : List Str) :
    (cs.filter s.isCompleted).length = cs.length ↔ ∀ c ∈ cs, s.isCompleted c = true := by
  rw [← filter_eq_self]
  exact ⟨fun hlength ↦ List.filter_sublist.eq_of_length hlength, congrArg List.length⟩

/-- A walk that completes a goal and goes on with its parent, if there is one. -/
theorem exists_progress_of_walk {result : Str} {up : Option Str} {children : List Str}
    {walk : Str → Option GoalStore} (hforest : IsForest s.links rank bound) (hkeyed : s.Keyed)
    (hsettled : ∀ other, other ≠ id → s.Settled other) (hlinks : s.links id = some ⟨up, children⟩)
    (hwalk : ∀ parentId, IsParent s.links parentId id →
      (∀ other, other ≠ parentId → (completeGoal now s id result).Settled other) →
      ∃ s', walk parentId = some s' ∧ Progress (completeGoal now s id result) s' parentId) :
    ∃ s', (match up with
      | none => some (completeGoal now s id result)
      | some parentId => walk parentId) = some s' ∧ Progress s s' id := by
  cases up with
  | none =>
    refine ⟨_, rfl, Progress.of_root hkeyed fun other ↦ ?_⟩
    apply settled_completeGoal hforest hkeyed _ (hsettled other)
    rintro ⟨l, hl, hl'⟩
    rw [hlinks] at hl
    cases hl
    exact nomatch hl'
  | some parentId =>
    have hparent : IsParent s.links parentId id := ⟨_, hlinks, rfl⟩
    have hnext : ∀ other, other ≠ parentId → (completeGoal now s id result).Settled other :=
      fun other hne ↦ settled_completeGoal hforest hkeyed _ (hsettled other)
        fun hother ↦ hne (hother.unique hparent)
    obtain ⟨s', hs', hprogress⟩ := hwalk parentId hparent hnext
    exact ⟨s', hs', hprogress.of_parent hkeyed hparent⟩

/-- **Completion propagates.**  From a forest that is settled but for one goal, the walk from that
goal ends within the calls that its rank bounds, and settles it. -/
theorem exists_updateParentProgress {calls : ℕ} (hforest : IsForest s.links rank bound)
    (hkeyed : s.Keyed) (hsettled : ∀ other, other ≠ id → s.Settled other) (hcalls : rank id < calls) :
    ∃ s', updateParentProgress now calls s id = some s' ∧ Progress s s' id := by
  induction calls generalizing s id with
  | zero => exact absurd hcalls (Nat.not_lt_zero _)
  | succ calls ih =>
    rw [updateParentProgress]
    cases hload : s.loadGoal id with
    | none =>
      refine ⟨s, rfl, hkeyed, rfl, rfl, fun other ↦ ?_, fun _ hchanged ↦ absurd rfl hchanged⟩
      by_cases heq : other = id
      · intro goal hgoal
        rw [heq, hload] at hgoal
        exact nomatch hgoal
      · exact hsettled other heq
    | some parent =>
      have hlinks := links_of_loadGoal hload
      dsimp only
      split
      · apply exists_progress_of_walk hforest hkeyed hsettled hlinks
        intro grandparentId hparent hnext
        have hlower := hforest.rank_lt _ _ hparent
        exact ih ((links_completeGoal hkeyed _).symm ▸ hforest) (keyed_completeGoal hkeyed _)
          hnext (by omega)
      · next hopen =>
          refine ⟨s, rfl, hkeyed, rfl, rfl, fun other ↦ ?_, fun _ hchanged ↦ absurd rfl hchanged⟩
          by_cases heq : other = id
          · intro goal hgoal hne hall
            rw [heq, hload] at hgoal
            cases hgoal
            exact absurd ⟨List.length_pos_iff.mpr hne, (completed_eq_total_iff _).mpr hall⟩ hopen
          · exact hsettled other heq

theorem exists_complete {calls : ℕ} (hforest : IsForest s.links rank bound) (hkeyed : s.Keyed)
    (hsettled : ∀ other, s.Settled other) (hcalls : bound ≤ calls) (result : Str) :
    ∃ s', complete now calls s id result = some s' ∧ Progress s s' id := by
  have hlinks : (completeGoal now s id result).links = s.links := links_completeGoal hkeyed result
  rw [complete]
  cases hload : (completeGoal now s id result).loadGoal id with
  | none =>
    refine ⟨_, rfl, Progress.of_root hkeyed fun other ↦ ?_⟩
    apply settled_completeGoal hforest hkeyed _ fun _ ↦ hsettled other
    rintro ⟨l, hl, _⟩
    rw [← hlinks, links_eq_none_iff.mpr hload] at hl
    exact nomatch hl
  | some goal =>
    apply exists_progress_of_walk hforest hkeyed (fun other _ ↦ hsettled other)
      (hlinks ▸ links_of_loadGoal hload)
    intro parentId hparent hnext
    obtain ⟨l, hl, _⟩ := hforest.parent _ _ hparent
    have hrank := hforest.rank_lt_bound parentId (Option.isSome_of_eq_some hl)
    exact exists_updateParentProgress (hlinks.symm ▸ hforest) (keyed_completeGoal hkeyed result)
      hnext (hrank.trans_le hcalls)

/-! ## The number of calls does not matter -/

theorem updateParentProgress_succ {calls : ℕ} {s' : GoalStore}
    (hwalk : updateParentProgress now calls s id = some s') :
    updateParentProgress now (calls + 1) s id = some s' := by
  induction calls generalizing s id with
  | zero => exact nomatch hwalk
  | succ calls ih =>
    rw [updateParentProgress] at hwalk ⊢
    cases hload : s.loadGoal id with
    | none => rwa [hload] at hwalk
    | some parent =>
      rw [hload] at hwalk
      dsimp only at hwalk ⊢
      split
      · next hdone =>
          rw [if_pos hdone] at hwalk
          cases hup : parent.parentId with
          | none => rwa [hup] at hwalk
          | some grandparentId =>
            rw [hup] at hwalk
            exact ih hwalk
      · next hopen => rwa [if_neg hopen] at hwalk

theorem complete_of_le {calls calls' : ℕ} {s' : GoalStore} {result : Str}
    (hwalk : complete now calls s id result = some s') (hle : calls ≤ calls') :
    complete now calls' s id result = some s' := by
  induction calls', hle using Nat.le_induction with
  | base => exact hwalk
  | succ calls' _ ih =>
    rw [complete] at ih ⊢
    cases hload : (completeGoal now s id result).loadGoal id with
    | none => rwa [hload] at ih
    | some goal =>
      rw [hload] at ih
      dsimp only at ih ⊢
      cases hup : goal.parentId with
      | none => rwa [hup] at ih
      | some parentId =>
        rw [hup] at ih
        exact updateParentProgress_succ ih

/-! ## New goals -/

theorem foldl_addChild {subs : List SubGoal} {parentId : Str} {parent : PersistentGoal}
    {nodes : List GoalNode} :
    (subs.foldl (fun state sub ↦ addChild now state parentId sub) (s, parent, nodes)).1 =
      subs.foldl (fun s sub ↦ s.saveGoal (newGoal now (some parentId) sub)) s ∧
    (subs.foldl (fun state sub ↦ addChild now state parentId sub) (s, parent, nodes)).2.1 =
      { parent with childrenIds := parent.childrenIds ++ subs.map SubGoal.id } := by
  induction subs generalizing s parent nodes with
  | nil => exact ⟨rfl, by rw [map_nil, append_nil]; rfl⟩
  | cons sub subs ih =>
    obtain ⟨hstore, hparent⟩ := @ih (s.saveGoal (newGoal now (some parentId) sub))
      { parent with childrenIds := parent.childrenIds ++ [sub.id] }
      (nodes ++ [GoalNode.from (newGoal now (some parentId) sub)])
    refine ⟨hstore, hparent.trans ?_⟩
    dsimp only
    rw [append_assoc, singleton_append, map_cons]

theorem loadGoal_foldl_saveGoal {up : Option Str} (subs : List SubGoal) (s : GoalStore) :
    (∀ x ∈ subs.map SubGoal.id, ∃ sub ∈ subs, sub.id = x ∧
      (subs.foldl (fun s sub ↦ s.saveGoal (newGoal now up sub)) s).loadGoal x =
        some (newGoal now up sub)) ∧
    ∀ x, x ∉ subs.map SubGoal.id →
      (subs.foldl (fun s sub ↦ s.saveGoal (newGoal now up sub)) s).loadGoal x = s.loadGoal x := by
  induction subs generalizing s with
  | nil => exact ⟨fun _ hx ↦ absurd hx not_mem_nil, fun _ _ ↦ rfl⟩
  | cons sub subs ih =>
    obtain ⟨hnew, hframe⟩ := ih (s.saveGoal (newGoal now up sub))
    rw [foldl_cons]
    constructor
    · intro x hx
      by_cases hlater : x ∈ subs.map SubGoal.id
      · obtain ⟨other, hother, hid, hload⟩ := hnew x hlater
        exact ⟨other, mem_cons_of_mem sub hother, hid, hload⟩
      · have hid : sub.id = x := by
          cases List.mem_cons.mp hx with
          | inl heq => exact heq.symm
          | inr hmem => exact absurd hmem hlater
        refine ⟨sub, mem_cons_self, hid, ?_⟩
        rw [hframe x hlater, ← hid]
        exact loadGoal_saveGoal_self
    · intro x hx
      rw [map_cons, mem_cons, not_or] at hx
      rw [hframe x hx.2]
      exact loadGoal_saveGoal_ne (Ne.symm hx.1)

theorem size_saveGoal_of_none (hfresh : s.loadGoal goal.id = none) :
    (s.saveGoal goal).size = s.size + 1 := by
  have hnot : goal.id ∉ s := SortedMap.getElem?_eq_none_iff.mp hfresh
  rw [saveGoal, size_insert]
  exact if_neg (mt ExtTreeMap.contains_iff_mem.mp hnot)

theorem size_foldl_saveGoal {up : Option Str} {subs : List SubGoal}
    (hnodup : (subs.map SubGoal.id).Nodup) (hfresh : ∀ sub ∈ subs, s.loadGoal sub.id = none) :
    (subs.foldl (fun s sub ↦ s.saveGoal (newGoal now up sub)) s).size = s.size + subs.length := by
  induction subs generalizing s with
  | nil => rfl
  | cons sub subs ih =>
    obtain ⟨hsub, hrest⟩ := List.nodup_cons.mp hnodup
    have hnext : ∀ other ∈ subs, (s.saveGoal (newGoal now up sub)).loadGoal other.id = none := by
      intro other hother
      have hne : sub.id ≠ other.id := fun heq ↦ hsub (heq ▸ mem_map_of_mem hother)
      rw [loadGoal_saveGoal_ne hne]
      exact hfresh other (mem_cons_of_mem sub hother)
    have hsize : (s.saveGoal (newGoal now up sub)).size = s.size + 1 :=
      size_saveGoal_of_none (hfresh sub mem_cons_self)
    rw [foldl_cons, ih hrest hnext, hsize, length_cons]
    omega

/-- What a decomposition stores. -/
structure Decomposed (s s' : GoalStore) (now : ℤ) (parentId : Str) (subs : List SubGoal) : Prop where
  child : ∀ x ∈ subs.map SubGoal.id, ∃ sub ∈ subs, sub.id = x ∧
    s'.loadGoal x = some (newGoal now (some parentId) sub)
  parent : ∀ goal, s.loadGoal parentId = some goal → s'.loadGoal parentId = some { goal with
    childrenIds := goal.childrenIds ++ subs.map SubGoal.id
    updatedAt := now }
  frame : ∀ x, x ∉ subs.map SubGoal.id → x ≠ parentId → s'.loadGoal x = s.loadGoal x
  size : s'.size = s.size + subs.length

theorem exists_decompose {subs : List SubGoal} (hkeyed : s.Keyed) (hload : s.loadGoal id = some goal)
    (hnodup : (subs.map SubGoal.id).Nodup) (hfresh : ∀ sub ∈ subs, s.loadGoal sub.id = none) :
    ∃ s' nodes, decompose now s id subs = .ok (s', nodes) ∧ Decomposed s s' now id subs := by
  obtain ⟨hstore, hparent⟩ := @foldl_addChild s now subs id goal []
  obtain ⟨hnew, hframe⟩ := @loadGoal_foldl_saveGoal now (some id) subs s
  have hid : goal.id = id := hkeyed id goal hload
  have hnot : id ∉ subs.map SubGoal.id := by
    intro hmem
    obtain ⟨sub, hsub, heq⟩ := List.mem_map.mp hmem
    have hnone := hfresh sub hsub
    rw [heq, hload] at hnone
    exact nomatch hnone
  let stored : GoalStore := subs.foldl (fun s sub ↦ s.saveGoal (newGoal now (some id) sub)) s
  let extended : PersistentGoal := { goal with
    childrenIds := goal.childrenIds ++ subs.map SubGoal.id
    updatedAt := now }
  have hdecompose : ∃ nodes, decompose now s id subs = .ok (stored.saveGoal extended, nodes) := by
    rw [decompose, hload]
    dsimp only
    rw [hstore, hparent]
    exact ⟨_, rfl⟩
  have hother : ∀ x, x ≠ id → (stored.saveGoal extended).loadGoal x = stored.loadGoal x :=
    fun x hne ↦ loadGoal_saveGoal_ne (hid.trans_ne (Ne.symm hne))
  obtain ⟨nodes, hdecompose⟩ := hdecompose
  refine ⟨_, nodes, hdecompose, ?_⟩
  constructor
  · intro x hx
    obtain ⟨sub, hsub, heq, hchild⟩ := hnew x hx
    refine ⟨sub, hsub, heq, ?_⟩
    rw [hother x fun hsame ↦ hnot (hsame ▸ hx)]
    exact hchild
  · intro other hsame
    cases hload.symm.trans hsame
    rw [loadGoal_saveGoal]
    exact if_pos hid
  · intro x hx hne
    rw [hother x hne]
    exact hframe x hx
  · have hstored : goal.id ∈ stored := by
      have hgoal : stored.loadGoal goal.id = some goal := by
        rw [hid]
        exact (hframe id hnot).trans hload
      exact SortedMap.mem_of_getElem?_eq_some hgoal
    rw [← size_foldl_saveGoal hnodup hfresh, saveGoal, size_insert]
    exact if_pos (ExtTreeMap.contains_iff_mem.mpr hstored)

/-! ## Runs -/

/-- A forest of settled goals whose ranks are below the number of goals. -/
structure Inv (s : GoalStore) (rank : Str → ℕ) : Prop where
  forest : IsForest s.links rank s.size
  keyed : s.Keyed
  settled : ∀ id, s.Settled id

theorem inv_empty (rank : Str → ℕ) : Inv (∅ : GoalStore) rank := by
  have hload : ∀ id, loadGoal ∅ id = none := fun _ ↦ getElem?_empty
  have hlinks : links ∅ = fun _ ↦ none := by
    funext id
    exact links_eq_none_iff.mpr (hload id)
  constructor
  · rw [hlinks]
    exact IsForest.empty rank _
  · exact fun id goal hgoal ↦ nomatch (hload id).symm.trans hgoal
  · exact fun id goal hgoal ↦ nomatch (hload id).symm.trans hgoal

/-- What is not a goal is no child of one. -/
theorem Inv.ne_of_child (hinv : Inv s rank) (hload : s.loadGoal id = some goal)
    (hfresh : s.loadGoal other = none) : ∀ c ∈ goal.childrenIds, c ≠ other := by
  intro c hc heq
  have hsome := hinv.forest.isSome_of_child (links_of_loadGoal hload) hc
  rw [heq, links_eq_none_iff.mpr hfresh] at hsome
  exact nomatch hsome

theorem isCompleted_congr {s' : GoalStore} (hload : s'.loadGoal id = s.loadGoal id) :
    s'.isCompleted id = s.isCompleted id := by
  rw [isCompleted, isCompleted, hload]

theorem Inv.createRoot (hinv : Inv s rank) {sub : SubGoal} (hfresh : s.loadGoal sub.id = none)
    (now : ℤ) (tags : List Str) :
    Inv (s.createRoot now sub tags).1 (Function.update rank sub.id s.size) := by
  have hid : (newGoal now none sub).id = sub.id := rfl
  have hlinks : (s.saveGoal (newGoal now none sub)).links =
      IsForest.withRoot s.links sub.id := by
    funext id
    rw [links, loadGoal_saveGoal, hid, IsForest.withRoot]
    by_cases heq : sub.id = id
    · rw [if_pos heq, heq, Function.update_self]
      rfl
    · rw [if_neg heq, Function.update_of_ne (Ne.symm heq), links]
  rw [GoalStore.createRoot]
  constructor
  · rw [hlinks, size_saveGoal_of_none hfresh]
    exact hinv.forest.withRoot_links (links_eq_none_iff.mpr hfresh)
  · intro id goal hgoal
    rw [loadGoal_saveGoal] at hgoal
    split at hgoal
    · next heq => rw [← Option.some.inj hgoal, heq]
    · exact hinv.keyed id goal hgoal
  · intro id goal hgoal hne hall
    rw [loadGoal_saveGoal] at hgoal
    split at hgoal
    · rw [← Option.some.inj hgoal] at hne
      exact absurd rfl hne
    · apply hinv.settled id goal hgoal hne
      intro c hc
      have hother : sub.id ≠ c := Ne.symm (hinv.ne_of_child hgoal hfresh c hc)
      have hsame : (s.saveGoal (newGoal now none sub)).loadGoal c = s.loadGoal c :=
        loadGoal_saveGoal_ne hother
      rw [← isCompleted_congr hsame]
      exact hall c hc

theorem Decomposed.links_eq {s' : GoalStore} {subs : List SubGoal}
    (hdecomposed : Decomposed s s' now id subs) (hload : s.loadGoal id = some goal) :
    s'.links = IsForest.adopt s.links id (subs.map SubGoal.id) := by
  funext x
  by_cases hx : x ∈ subs.map SubGoal.id
  · obtain ⟨sub, _, _, hchild⟩ := hdecomposed.child x hx
    rw [links_of_loadGoal hchild, IsForest.adopt_of_new hx, newGoal]
  · by_cases heq : x = id
    · subst heq
      rw [links_of_loadGoal (hdecomposed.parent goal hload), IsForest.adopt, if_neg hx, if_pos rfl,
        links_of_loadGoal hload, Option.map_some]
    · rw [IsForest.adopt_of_ne hx heq, links, hdecomposed.frame x hx heq, links]

theorem Inv.decomposed {s' : GoalStore} {subs : List SubGoal} (hinv : Inv s rank)
    (hload : s.loadGoal id = some goal) (hnodup : (subs.map SubGoal.id).Nodup)
    (hfresh : ∀ sub ∈ subs, s.loadGoal sub.id = none)
    (hdecomposed : Decomposed s s' now id subs) :
    ∃ rank', Inv s' rank' := by
  have hnew : ∀ x ∈ subs.map SubGoal.id, s.loadGoal x = none := by
    intro x hx
    obtain ⟨sub, hsub, rfl⟩ := List.mem_map.mp hx
    exact hfresh sub hsub
  have hnewLinks : ∀ x ∈ subs.map SubGoal.id, s.links x = none :=
    fun x hx ↦ links_eq_none_iff.mpr (hnew x hx)
  have hforest := hinv.forest.adopt_links (links_of_loadGoal hload) hnewLinks hnodup
  rw [← hdecomposed.links_eq hload, length_map, ← hdecomposed.size] at hforest
  refine ⟨_, hforest, ?_, ?_⟩
  · intro x found hfound
    by_cases hx : x ∈ subs.map SubGoal.id
    · obtain ⟨sub, _, heq, hchild⟩ := hdecomposed.child x hx
      cases hchild.symm.trans hfound
      exact heq
    · by_cases heq : x = id
      · subst heq
        cases (hdecomposed.parent goal hload).symm.trans hfound
        exact hinv.keyed x goal hload
      · rw [hdecomposed.frame x hx heq] at hfound
        exact hinv.keyed x found hfound
  · intro x found hfound hne hall
    by_cases hx : x ∈ subs.map SubGoal.id
    · obtain ⟨sub, _, _, hchild⟩ := hdecomposed.child x hx
      cases hchild.symm.trans hfound
      exact absurd rfl hne
    · have hold : ∀ c, s.loadGoal c ≠ none → s'.isCompleted c = s.isCompleted c := by
        intro c hc
        have hc' : c ∉ subs.map SubGoal.id := fun hmem ↦ hc (hnew c hmem)
        by_cases heq : c = id
        · subst heq
          rw [isCompleted, isCompleted, hdecomposed.parent goal hload, hload]
        · exact isCompleted_congr (hdecomposed.frame c hc' heq)
      have hthere : ∀ y known, s.loadGoal y = some known → ∀ c ∈ known.childrenIds,
          s.loadGoal c ≠ none := by
        intro y known hknown c hc hnone
        exact hinv.ne_of_child hknown hnone c hc rfl
      by_cases heq : x = id
      · subst heq
        cases (hdecomposed.parent goal hload).symm.trans hfound
        dsimp only at hne hall ⊢
        cases hsubs : subs with
        | nil =>
          rw [hsubs, map_nil, append_nil] at hne hall
          apply hinv.settled x goal hload hne
          intro c hc
          rw [← hold c (hthere x goal hload c hc)]
          exact hall c hc
        | cons sub rest =>
          have hmem : sub.id ∈ subs.map SubGoal.id := by
            rw [hsubs]
            exact mem_cons_self
          have hcompleted := hall sub.id (mem_append_right _ hmem)
          obtain ⟨other, _, _, hchild⟩ := hdecomposed.child sub.id hmem
          rw [isCompleted, hchild] at hcompleted
          exact nomatch hcompleted
      · rw [hdecomposed.frame x hx heq] at hfound
        apply hinv.settled x found hfound hne
        intro c hc
        rw [← hold c (hthere x found hfound c hc)]
        exact hall c hc

inductive Event where
  | createRoot (now : ℤ) (goal : SubGoal) (tags : List Str)
  | decompose (now : ℤ) (parentId : Str) (subs : List SubGoal)
  | complete (now : ℤ) (id result : Str)

/-- Calls of the goal tree, with as many rounds for a walk as there are goals. -/
def machine : Machine GoalStore Event where
  step s
    | .createRoot now goal tags => some (s.createRoot now goal tags).1
    | .decompose now parentId subs =>
      match s.decompose now parentId subs with
      | .error _ => some s
      | .ok (s', _) => some s'
    | .complete now id result => s.complete now s.size id result

/-- The ids that a call draws are new and distinct. -/
def Event.fresh (s : GoalStore) : Event → Prop
  | .createRoot _ goal _ => s.loadGoal goal.id = none
  | .decompose _ _ subs =>
    (subs.map SubGoal.id).Nodup ∧ ∀ sub ∈ subs, s.loadGoal sub.id = none
  | .complete _ _ _ => True

instance decidableFresh (s : GoalStore) : ∀ event : Event, Decidable (event.fresh s)
  | .createRoot _ goal _ => inferInstanceAs (Decidable (s.loadGoal goal.id = none))
  | .decompose _ _ subs => inferInstanceAs
      (Decidable ((subs.map SubGoal.id).Nodup ∧ ∀ sub ∈ subs, s.loadGoal sub.id = none))
  | .complete _ _ _ => isTrue trivial

theorem Inv.exists_step {event : Event} (hinv : Inv s rank) (hfresh : event.fresh s) :
    ∃ s' rank', machine.step s event = some s' ∧ Inv s' rank' := by
  cases event with
  | createRoot now goal tags => exact ⟨_, _, rfl, hinv.createRoot hfresh now tags⟩
  | decompose now parentId subs =>
    cases hload : s.loadGoal parentId with
    | none =>
      refine ⟨s, rank, ?_, hinv⟩
      rw [machine]
      dsimp only
      rw [GoalStore.decompose, hload]
    | some goal =>
      obtain ⟨s', nodes, hdecompose, hdecomposed⟩ :=
        @exists_decompose s now parentId goal subs hinv.keyed hload hfresh.1 hfresh.2
      obtain ⟨rank', hinv'⟩ := hinv.decomposed hload hfresh.1 hfresh.2 hdecomposed
      refine ⟨s', rank', ?_, hinv'⟩
      rw [machine]
      dsimp only
      rw [hdecompose]
  | complete now id result =>
    obtain ⟨s', hwalk, hprogress⟩ :=
      @exists_complete s now id rank s.size s.size hinv.forest hinv.keyed hinv.settled le_rfl result
    refine ⟨s', rank, hwalk, ?_, hprogress.keyed, hprogress.settled⟩
    rw [hprogress.links, hprogress.size]
    exact hinv.forest

/-- What a reachable store looks like, and what `complete` does to it. -/
structure Consistent (s : GoalStore) : Prop where
  child_parent : ∀ id goal, s.loadGoal id = some goal → ∀ c ∈ goal.childrenIds,
    ∃ child, s.loadGoal c = some child ∧ child.parentId = some id
  parent_child : ∀ c child id, s.loadGoal c = some child → child.parentId = some id →
    ∃ goal, s.loadGoal id = some goal ∧ c ∈ goal.childrenIds
  nodup : ∀ id goal, s.loadGoal id = some goal → goal.childrenIds.Nodup
  acyclic : ∀ id, ¬ Relation.TransGen (IsParent s.links) id id
  settled : ∀ id, s.Settled id
  complete : ∀ now id result, ∃ s', (∀ calls ≥ s.size, s.complete now calls id result = some s') ∧
    ∀ other, s'.status other ≠ s.status other →
      other = id ∨ Relation.TransGen (IsParent s.links) other id

theorem isParent_iff : IsParent s.links id other ↔
    ∃ child, s.loadGoal other = some child ∧ child.parentId = some id := by
  simp [IsParent, links]

theorem Inv.consistent (hinv : Inv s rank) : Consistent s where
  child_parent id goal hload c hc :=
    isParent_iff.mp (hinv.forest.child id _ (links_of_loadGoal hload) c hc)
  parent_child c child id hload hup := by
    obtain ⟨l, hl, hc⟩ := hinv.forest.parent id c (isParent_iff.mpr ⟨child, hload, hup⟩)
    obtain ⟨goal, hgoal, rfl⟩ := Option.map_eq_some_iff.mp hl
    exact ⟨goal, hgoal, hc⟩
  nodup id goal hload := hinv.forest.nodup id _ (links_of_loadGoal hload)
  acyclic := hinv.forest.acyclic
  settled := hinv.settled
  complete now id result := by
    obtain ⟨s', hwalk, hprogress⟩ :=
      @exists_complete s now id rank s.size s.size hinv.forest hinv.keyed hinv.settled le_rfl result
    exact ⟨s', fun calls hcalls ↦ complete_of_le hwalk hcalls, hprogress.status⟩

theorem Inv.exists_run {events : List Event} (hinv : Inv s rank)
    (hfresh : machine.Meets (fun s event ↦ event.fresh s) s events) :
    ∃ s' rank', machine.run s events = some s' ∧ Inv s' rank' := by
  induction events generalizing s rank with
  | nil => exact ⟨s, rank, rfl, hinv⟩
  | cons event events ih =>
    obtain ⟨next, rank', hstep, hnext⟩ := hinv.exists_step hfresh.1
    obtain ⟨s', rank'', hrun, hinv'⟩ := ih hnext (hfresh.2 next hstep)
    exact ⟨s', rank'', Option.bind_eq_some_iff.mpr ⟨next, hstep, hrun⟩, hinv'⟩

/-- **The goal forest is consistent** after every run of calls that draw new ids. -/
theorem run_consistent {events : List Event}
    (hfresh : machine.Meets (fun s event ↦ event.fresh s) ∅ events) :
    ∃ s, machine.run ∅ events = some s ∧ Consistent s := by
  obtain ⟨s, rank, hrun, hinv⟩ := (inv_empty fun _ ↦ 0).exists_run hfresh
  exact ⟨s, hrun, hinv.consistent⟩

/-- A root, two sub-goals, and both completed. -/
def twoSubGoals : List Event :=
  [.createRoot 0 ⟨"r".toList, "Root".toList, 5⟩ [],
    .decompose 1 "r".toList [⟨"a".toList, "Sub A".toList, 3⟩, ⟨"b".toList, "Sub B".toList, 4⟩],
    .complete 2 "a".toList "A done".toList, .complete 3 "b".toList "B done".toList]

theorem fresh_twoSubGoals :
    machine.Meets (fun s event ↦ event.fresh s) ∅ twoSubGoals := by
  decide +kernel

theorem run_consistent_twoSubGoals : ∃ s, machine.run ∅ twoSubGoals = some s ∧ Consistent s :=
  run_consistent fresh_twoSubGoals

example : ((machine.run ∅ twoSubGoals).map fun s ↦ s.isCompleted "r".toList) = some true := by
  decide +kernel

end SoulSystem.Goals.GoalStore
