import SoulSystem.Library.Accesses
import SoulSystem.Goals.Progress

/-!
# Calls on a store that fails

Every read of a goal, every insertion and every flush is an access to the store that may fail, and
the failure ends the call.  A call that returns does what the goal tree does.  A call that fails has
completed some goals, or saved some sub-goals one by one.

Completing goals leaves the links alone whatever access fails.  A decomposition saves the sub-goals
before the goal that lists them, so a failure after the insertion of the first sub-goal and before
that of the goal leaves sub-goals that nobody lists.
-/

namespace SoulSystem.Goals.GoalStore

open Library Std LinkTable List

/-- A call on the stored goals. -/
abbrev Accesses (α : Type) := Accessing GoalTreeError GoalStore α

namespace Accesses

open Accessing

/-! ## The store -/

def saveGoal (goal : PersistentGoal) : Accesses Unit := do
  access .persist fun s ↦ ((), s.saveGoal goal)
  access .persist fun s ↦ ((), s)

def loadGoal (id : Str) : Accesses (Option PersistentGoal) :=
  access .persist fun s ↦ (s.loadGoal id, s)

def completeGoal (now : ℤ) (id result : Str) : Accesses Unit := do
  match ← loadGoal id with
  | none => pure ()
  | some goal =>
    saveGoal { goal with status := .completed, result := some result, updatedAt := now }

/-! ## Decomposing a goal -/

/-- One round of the loop over the sub-goals: the parent and the nodes so far. -/
def addChild (now : ℤ) (parentId : Str) (state : PersistentGoal × List GoalNode) (sub : SubGoal) :
    Accesses (PersistentGoal × List GoalNode) := do
  let childGoal := newGoal now (some parentId) sub
  saveGoal childGoal
  pure ({ state.1 with childrenIds := state.1.childrenIds ++ [childGoal.id] },
    state.2 ++ [GoalNode.from childGoal])

def decompose (now : ℤ) (parentId : Str) (subs : List SubGoal) : Accesses (List GoalNode) := do
  match ← loadGoal parentId with
  | none => throw (.notFound parentId)
  | some parent =>
    let state ← subs.foldlM (addChild now parentId) (parent, [])
    saveGoal { state.1 with updatedAt := now }
    pure state.2

/-! ## Completing goals -/

def countCompleted (childrenIds : List Str) : Accesses ℕ :=
  childrenIds.foldlM (fun completed childId ↦ do
    match ← loadGoal childId with
    | none => pure completed
    | some child => pure (if child.status == .completed then completed + 1 else completed)) 0

def updateParentProgress (now : ℤ) : ℕ → Str → Accesses Unit
  | 0, _ => outOfCalls
  | calls + 1, parentId => do
      match ← loadGoal parentId with
      | none => pure ()
      | some parent =>
        let completed ← countCompleted parent.childrenIds
        if 0 < parent.childrenIds.length ∧ completed = parent.childrenIds.length then
          completeGoal now parentId "All sub-goals completed".toList
          match parent.parentId with
          | none => pure ()
          | some grandparentId => updateParentProgress now calls grandparentId
        else pure ()

def complete (now : ℤ) (calls : ℕ) (id result : Str) : Accesses Unit := do
  completeGoal now id result
  match ← loadGoal id with
  | none => pure ()
  | some goal =>
    match goal.parentId with
    | none => pure ()
    | some parentId => updateParentProgress now calls parentId

/-! ## What a call leaves -/

section Rules

variable {now : ℤ} {id result : Str} {s : GoalStore} {E : GoalStore → Prop}

theorem triple_saveGoal {goal : PersistentGoal} (hbefore : E s) (hafter : E (s.saveGoal goal)) :
    Triple (· = s) (saveGoal goal) (fun _ s' ↦ s' = s.saveGoal goal) E := by
  have hinsert : Triple (· = s) (access GoalTreeError.persist fun s ↦ ((), s.saveGoal goal))
      (fun _ s' ↦ s' = s.saveGoal goal) E :=
    Triple.access (fun _ hs ↦ hs ▸ hbefore) fun _ hs ↦ congrArg (GoalStore.saveGoal · goal) hs
  exact hinsert.bind fun _ ↦ Triple.access (fun _ hs ↦ hs ▸ hafter) fun _ hs ↦ hs

theorem triple_loadGoal (hstore : E s) :
    Triple (· = s) (loadGoal id) (fun found s' ↦ s' = s ∧ found = s.loadGoal id) E :=
  Triple.access (fun _ hs ↦ hs ▸ hstore) fun _ hs ↦ ⟨hs, congrArg (GoalStore.loadGoal · id) hs⟩

/-- A call that goes on with the goal it has read. -/
theorem triple_loadGoal_bind {α : Type} {f : Option PersistentGoal → Accesses α}
    {Q : α → GoalStore → Prop} (hstore : E s) (hf : Triple (· = s) (f (s.loadGoal id)) Q E) :
    Triple (· = s) (loadGoal id >>= f) Q E := by
  apply (triple_loadGoal hstore).bind
  intro found
  apply Triple.lift
  intro hfound
  rw [hfound]
  exact hf

theorem triple_completeGoal (hbefore : E s) (hafter : E (GoalStore.completeGoal now s id result)) :
    Triple (· = s) (completeGoal now id result)
      (fun _ s' ↦ s' = GoalStore.completeGoal now s id result) E := by
  apply triple_loadGoal_bind hbefore
  rw [GoalStore.completeGoal] at hafter ⊢
  cases hload : s.loadGoal id with
  | none => exact Triple.pure fun _ hs ↦ hs
  | some goal =>
    rw [hload] at hafter
    exact triple_saveGoal hbefore hafter

theorem triple_countCompleted (hstore : E s) (childrenIds : List Str) :
    Triple (· = s) (countCompleted childrenIds)
      (fun completed s' ↦ s' = s ∧ completed = (childrenIds.filter s.isCompleted).length) E := by
  let I : List Str → ℕ → GoalStore → Prop := fun rest completed s' ↦
    s' = s ∧ completed + (rest.filter s.isCompleted).length =
      (childrenIds.filter s.isCompleted).length
  have hloop : Triple (I childrenIds 0) (countCompleted childrenIds) (I []) E := by
    apply Triple.foldlM
    intro childId rest completed
    apply Triple.lift
    intro hcount
    apply triple_loadGoal_bind hstore
    cases hload : s.loadGoal childId with
    | none =>
      have hopen : s.isCompleted childId = false := by rw [isCompleted, hload]
      rw [filter_cons_of_neg (by rw [hopen]; exact Bool.false_ne_true)] at hcount
      exact Triple.pure fun _ hs ↦ ⟨hs, hcount⟩
    | some child =>
      have hchild : s.isCompleted childId = (child.status == .completed) := by
        rw [isCompleted, hload]
      apply Triple.pure
      intro s' hs
      refine ⟨hs, ?_⟩
      rw [filter_cons, hchild] at hcount
      split at hcount
      · next hdone =>
          rw [if_pos hdone]
          rw [length_cons] at hcount
          omega
      · next hopen => rwa [if_neg hopen]
  exact hloop.weaken (fun _ hs ↦ ⟨hs, Nat.zero_add _⟩) fun _ _ hs ↦ hs

/-- A call leaves the links as they were. -/
def SameLinks (s s' : GoalStore) : Prop := s'.links = s.links

theorem SameLinks.eq {s' : GoalStore} (hsame : SameLinks s s') : SameLinks s' = SameLinks s := by
  funext other
  rw [SameLinks, SameLinks, hsame]

/-- The walk up the tree does what `update_parent_progress` does, and a walk that fails leaves the
links alone. -/
theorem triple_updateParentProgress (hkeyed : s.Keyed) (calls : ℕ) :
    Triple (· = s) (updateParentProgress now calls id)
      (fun _ s' ↦ GoalStore.updateParentProgress now calls s id = some s') (SameLinks s) := by
  induction calls generalizing s id with
  | zero => exact Triple.outOfCalls
  | succ calls ih =>
    have hsame : SameLinks s s := rfl
    apply triple_loadGoal_bind hsame
    rw [GoalStore.updateParentProgress]
    cases hload : s.loadGoal id with
    | none => exact Triple.pure fun _ hs ↦ hs ▸ rfl
    | some parent =>
      apply (triple_countCompleted hsame parent.childrenIds).bind
      intro completed
      apply Triple.lift
      intro hcompleted
      rw [hcompleted]
      dsimp only
      split
      · have hlinks : SameLinks s
            (GoalStore.completeGoal now s id "All sub-goals completed".toList) :=
          links_completeGoal hkeyed _
        apply (triple_completeGoal hsame hlinks).bind
        intro _
        cases parent.parentId with
        | none => exact Triple.pure fun _ hs ↦ hs ▸ rfl
        | some grandparentId =>
          rw [← hlinks.eq]
          exact ih (keyed_completeGoal hkeyed _)
      · exact Triple.pure fun _ hs ↦ hs ▸ rfl

theorem triple_complete (hkeyed : s.Keyed) (calls : ℕ) :
    Triple (· = s) (complete now calls id result)
      (fun _ s' ↦ GoalStore.complete now calls s id result = some s') (SameLinks s) := by
  have hsame : SameLinks s s := rfl
  have hlinks : SameLinks s (GoalStore.completeGoal now s id result) := links_completeGoal hkeyed _
  apply (triple_completeGoal hsame hlinks).bind
  intro _
  apply triple_loadGoal_bind hlinks
  rw [GoalStore.complete]
  cases (GoalStore.completeGoal now s id result).loadGoal id with
  | none => exact Triple.pure fun _ hs ↦ hs ▸ rfl
  | some goal =>
    cases hup : goal.parentId with
    | none =>
      dsimp only
      rw [hup]
      exact Triple.pure fun _ hs ↦ hs ▸ rfl
    | some parentId =>
      dsimp only
      rw [hup, ← hlinks.eq]
      exact triple_updateParentProgress (keyed_completeGoal hkeyed result) calls

end Rules

/-! ## What a decomposition leaves -/

section Decompose

variable {now : ℤ} {id : Str} {s : GoalStore} {goal : PersistentGoal} {left : ℕ}

/-- The store after the sub-goals are saved. -/
def saveChildren (now : ℤ) (id : Str) (subs : List SubGoal) (s : GoalStore) : GoalStore :=
  subs.foldl (fun s sub ↦ s.saveGoal (newGoal now (some id) sub)) s

/-- The goal that lists the sub-goals. -/
def withChildren (now : ℤ) (goal : PersistentGoal) (subs : List SubGoal) : PersistentGoal :=
  { goal with childrenIds := goal.childrenIds ++ subs.map SubGoal.id, updatedAt := now }

theorem runFrom_addChild (state : PersistentGoal × List GoalNode) (sub : SubGoal) :
    (addChild now id state sub).runFrom ⟨s, left + 2⟩ =
      some (.ok ({ state.1 with childrenIds := state.1.childrenIds ++ [sub.id] },
        state.2 ++ [GoalNode.from (newGoal now (some id) sub)]),
        ⟨s.saveGoal (newGoal now (some id) sub), left⟩) := rfl

/-- The loop over the sub-goals saves them one by one. -/
theorem runFrom_addChildren (subs : List SubGoal) (nodes : List GoalNode) :
    (subs.foldlM (addChild now id) (goal, nodes)).runFrom ⟨s, left + 2 * subs.length⟩ =
      some (.ok ({ goal with childrenIds := goal.childrenIds ++ subs.map SubGoal.id },
        nodes ++ subs.map fun sub ↦ GoalNode.from (newGoal now (some id) sub)),
        ⟨saveChildren now id subs s, left⟩) := by
  induction subs generalizing s goal nodes with
  | nil => simp [saveChildren]
  | cons sub subs ih =>
    have hfirst := @runFrom_addChild now id s (left + 2 * subs.length) (goal, nodes) sub
    rw [foldlM_cons, length_cons, Nat.mul_succ, ← Nat.add_assoc,
      runFrom_bind_ok _ hfirst, ih]
    simp [saveChildren]

/-- A loop that fails has saved the sub-goals before the access that fails. -/
theorem runFrom_addChildren_fails (subs : List SubGoal) (nodes : List GoalNode)
    (hleft : left < 2 * subs.length) :
    (subs.foldlM (addChild now id) (goal, nodes)).runFrom ⟨s, left⟩ =
      some (.error .persist, ⟨saveChildren now id (subs.take ((left + 1) / 2)) s, 0⟩) := by
  induction subs generalizing s goal nodes left with
  | nil => exact absurd hleft (Nat.not_lt_zero left)
  | cons sub subs ih =>
    rw [foldlM_cons]
    match left with
    | 0 => rfl
    | 1 => rfl
    | left + 2 =>
      have hrest : left < 2 * subs.length := by
        rw [length_cons] at hleft
        omega
      have hhalf : (left + 2 + 1) / 2 = (left + 1) / 2 + 1 := by omega
      rw [runFrom_bind_ok _ (runFrom_addChild (goal, nodes) sub), ih _ hrest, hhalf,
        take_succ_cons]
      rfl

theorem runFrom_decompose_none (subs : List SubGoal) (hload : s.loadGoal id = none) :
    (decompose now id subs).runFrom ⟨s, left + 1⟩ = some (.error (.notFound id), ⟨s, left⟩) := by
  have hfirst : (loadGoal id).runFrom ⟨s, left + 1⟩ = some (.ok none, ⟨s, left⟩) := by
    rw [← hload]
    rfl
  rw [decompose, runFrom_bind_ok _ hfirst]
  rfl

/-- A decomposition goes on with the goal that it has read. -/
theorem runFrom_decompose_succ (subs : List SubGoal) (hload : s.loadGoal id = some goal) :
    (decompose now id subs).runFrom ⟨s, left + 1⟩ =
      (subs.foldlM (addChild now id) (goal, []) >>= fun state ↦ do
        saveGoal { state.1 with updatedAt := now }
        pure state.2).runFrom ⟨s, left⟩ := by
  have hfirst : (loadGoal id).runFrom ⟨s, left + 1⟩ = some (.ok (some goal), ⟨s, left⟩) := by
    rw [← hload]
    rfl
  rw [decompose, runFrom_bind_ok _ hfirst]

/-- A failure up to the insertion of the goal leaves sub-goals only. -/
theorem runFrom_decompose_of_le (subs : List SubGoal) (hload : s.loadGoal id = some goal)
    (hleft : left ≤ 2 * subs.length + 1) :
    (decompose now id subs).runFrom ⟨s, left⟩ =
      some (.error .persist, ⟨saveChildren now id (subs.take (left / 2)) s, 0⟩) := by
  cases left with
  | zero => rfl
  | succ left =>
    rw [runFrom_decompose_succ subs hload]
    by_cases hloop : left < 2 * subs.length
    · exact runFrom_bind_error _ (runFrom_addChildren_fails subs [] hloop)
    · have hall : left = 0 + 2 * subs.length := by omega
      have hhalf : (0 + 2 * subs.length + 1) / 2 = subs.length := by omega
      rw [hall, runFrom_bind_ok _ (runFrom_addChildren subs []), hhalf, take_length]
      rfl

/-- A failure after the insertion of the goal leaves the whole decomposition. -/
theorem runFrom_decompose_flush (subs : List SubGoal) (hload : s.loadGoal id = some goal) :
    (decompose now id subs).runFrom ⟨s, 2 * subs.length + 2⟩ =
      some (.error .persist,
        ⟨(saveChildren now id subs s).saveGoal (withChildren now goal subs), 0⟩) := by
  have hcount : 2 * subs.length + 2 = 1 + 2 * subs.length + 1 := by omega
  rw [hcount, runFrom_decompose_succ subs hload, runFrom_bind_ok _ (runFrom_addChildren subs [])]
  rfl

theorem runFrom_decompose_of_lt (subs : List SubGoal) (hload : s.loadGoal id = some goal)
    (hleft : 2 * subs.length + 2 < left) :
    (decompose now id subs).runFrom ⟨s, left⟩ =
      some (.ok (subs.map fun sub ↦ GoalNode.from (newGoal now (some id) sub)),
        ⟨(saveChildren now id subs s).saveGoal (withChildren now goal subs),
          left - (2 * subs.length + 3)⟩) := by
  obtain ⟨rest, rfl⟩ := Nat.exists_eq_add_of_lt hleft
  have hcount : 2 * subs.length + 2 + rest + 1 = rest + 2 + 2 * subs.length + 1 := by omega
  have hrest : 2 * subs.length + 2 + rest + 1 - (2 * subs.length + 3) = rest := by omega
  rw [hrest, hcount, runFrom_decompose_succ subs hload,
    runFrom_bind_ok _ (runFrom_addChildren subs [])]
  rfl

theorem foldl_addChild_nodes (subs : List SubGoal) (nodes : List GoalNode) :
    (subs.foldl (fun state sub ↦ GoalStore.addChild now state id sub) (s, goal, nodes)).2.2 =
      nodes ++ subs.map fun sub ↦ GoalNode.from (newGoal now (some id) sub) := by
  induction subs generalizing s goal nodes with
  | nil => rw [foldl_nil, map_nil, append_nil]
  | cons sub subs ih =>
    rw [foldl_cons, GoalStore.addChild, ih, append_assoc, singleton_append,
      map_cons]

/-- What the decomposition on the goal tree gives. -/
theorem decompose_eq (subs : List SubGoal) (hload : s.loadGoal id = some goal) :
    s.decompose now id subs = .ok
      ((saveChildren now id subs s).saveGoal (withChildren now goal subs),
        subs.map fun sub ↦ GoalNode.from (newGoal now (some id) sub)) := by
  obtain ⟨hstore, hparent⟩ := @foldl_addChild s now subs id goal []
  rw [GoalStore.decompose, hload]
  dsimp only
  rw [hstore, hparent, foldl_addChild_nodes, nil_append, withChildren, saveChildren]

end Decompose

/-! ## A failure ends every call -/

section Ends

variable {now : ℤ} {bound : ℕ} {id result : Str}

theorem ends_saveGoal (goal : PersistentGoal) : Ends bound (saveGoal goal) :=
  (ends_access _ _).bind fun _ ↦ ends_access _ _

theorem ends_completeGoal : Ends bound (completeGoal now id result) := by
  apply (ends_access _ _).bind
  intro found
  cases found with
  | none => exact ends_pure ()
  | some goal => exact ends_saveGoal _

theorem ends_countCompleted (childrenIds : List Str) : Ends bound (countCompleted childrenIds) := by
  apply ends_foldlM
  intro completed childId
  apply (ends_access _ _).bind
  intro found
  cases found with
  | none => exact ends_pure completed
  | some child => exact ends_pure _

theorem ends_decompose (subs : List SubGoal) : Ends bound (decompose now id subs) := by
  apply (ends_access _ _).bind
  intro found
  cases found with
  | none => exact ends_throw _
  | some parent =>
    apply (ends_foldlM _ subs _).bind
    · exact fun state ↦ (ends_saveGoal _).bind fun _ ↦ ends_pure _
    · exact fun state sub ↦ (ends_saveGoal _).bind fun _ ↦ ends_pure _

/-- Every call of the walk reads a goal, so the walk makes no more calls than accesses succeed. -/
theorem ends_updateParentProgress (calls : ℕ) : Ends calls (updateParentProgress now calls id) := by
  induction calls generalizing id with
  | zero => exact fun d hd ↦ absurd hd (Nat.not_lt_zero d.left)
  | succ calls ih =>
    apply ends_access_bind
    intro found
    cases found with
    | none => exact ends_pure ()
    | some parent =>
      apply (ends_countCompleted parent.childrenIds).bind
      intro completed
      split
      · apply ends_completeGoal.bind
        intro _
        cases parent.parentId with
        | none => exact ends_pure ()
        | some grandparentId => exact ih
      · exact ends_pure ()

theorem ends_complete (calls : ℕ) : Ends calls (complete now calls id result) := by
  apply ends_completeGoal.bind
  intro _
  apply (ends_access _ _).bind
  intro found
  cases found with
  | none => exact ends_pure ()
  | some goal =>
    dsimp only
    cases goal.parentId with
    | none => exact ends_pure ()
    | some parentId => exact ends_updateParentProgress calls

end Ends

end Accesses

/-! ## Failures and the tree -/

section Whole

variable {now : ℤ} {id : Str} {s s' : GoalStore} {goal : PersistentGoal} {subs : List SubGoal}

/-- No tree is half built: a goal with a parent is listed by it, and what is listed exists. -/
structure Whole (s : GoalStore) : Prop where
  listed : ∀ c child id, s.loadGoal c = some child → child.parentId = some id →
    ∃ goal, s.loadGoal id = some goal ∧ c ∈ goal.childrenIds
  exist : ∀ id goal, s.loadGoal id = some goal → ∀ c ∈ goal.childrenIds, (s.loadGoal c).isSome

/-- Parents and children mirror each other. -/
structure MirroredGoals (s : GoalStore) : Prop where
  parent_child : ∀ c child id, s.loadGoal c = some child → child.parentId = some id →
    ∃ goal, s.loadGoal id = some goal ∧ c ∈ goal.childrenIds
  child_parent : ∀ id goal, s.loadGoal id = some goal → ∀ c ∈ goal.childrenIds,
    ∃ child, s.loadGoal c = some child ∧ child.parentId = some id

theorem MirroredGoals.links (hmirrored : s.MirroredGoals) : Mirrored s.links where
  child id l hl c hc := by
    obtain ⟨goal, hload, rfl⟩ := Option.map_eq_some_iff.mp hl
    exact isParent_iff.mpr (hmirrored.child_parent id goal hload c hc)
  parent id c hparent := by
    obtain ⟨child, hload, hup⟩ := isParent_iff.mp hparent
    obtain ⟨goal, hgoal, hc⟩ := hmirrored.parent_child c child id hload hup
    exact ⟨_, links_of_loadGoal hgoal, hc⟩

theorem whole_of_mirrored (hmirrored : Mirrored s.links) : s.Whole where
  listed c child id hload hup := by
    obtain ⟨l, hl, hc⟩ := hmirrored.parent id c (isParent_iff.mpr ⟨child, hload, hup⟩)
    obtain ⟨goal, hgoal, rfl⟩ := Option.map_eq_some_iff.mp hl
    exact ⟨goal, hgoal, hc⟩
  exist id goal hload c hc := by
    obtain ⟨child, hchild, _⟩ :=
      isParent_iff.mp (hmirrored.child id _ (links_of_loadGoal hload) c hc)
    exact Option.isSome_of_eq_some hchild

/-- The whole decomposition keeps the links mirrored. -/
theorem whole_of_decomposed (hkeyed : s.Keyed) (hmirrored : s.MirroredGoals)
    (hload : s.loadGoal id = some goal) (hnodup : (subs.map SubGoal.id).Nodup)
    (hfresh : ∀ sub ∈ subs, s.loadGoal sub.id = none) :
    ((Accesses.saveChildren now id subs s).saveGoal
      (Accesses.withChildren now goal subs)).Whole := by
  obtain ⟨s', nodes, hdecompose, hdecomposed⟩ :=
    @exists_decompose s now id goal subs hkeyed hload hnodup hfresh
  rw [Accesses.decompose_eq subs hload] at hdecompose
  cases hdecompose
  apply whole_of_mirrored
  rw [hdecomposed.links_eq hload]
  apply IsForest.mirrored_adopt hmirrored.links (links_of_loadGoal hload)
  intro x hx
  obtain ⟨sub, hsub, rfl⟩ := List.mem_map.mp hx
  exact links_eq_none_iff.mpr (hfresh sub hsub)

/-- Sub-goals that are saved without the goal that lists them leave a tree half built. -/
theorem whole_saveChildren_iff (hmirrored : s.MirroredGoals) (hload : s.loadGoal id = some goal)
    (hfresh : ∀ sub ∈ subs, s.loadGoal sub.id = none) :
    (Accesses.saveChildren now id subs s).Whole ↔ subs = [] := by
  constructor
  · intro hwhole
    by_contra hsubs
    obtain ⟨sub, hsub⟩ := exists_mem_of_ne_nil subs hsubs
    obtain ⟨hnew, hframe⟩ := @loadGoal_foldl_saveGoal now (some id) subs s
    obtain ⟨other, _, _, hchild⟩ := hnew sub.id (mem_map_of_mem hsub)
    obtain ⟨parent, hparent, hlisted⟩ := hwhole.listed sub.id _ id hchild rfl
    have hid : id ∉ subs.map SubGoal.id := by
      intro hmem
      obtain ⟨sub', hsub', heq⟩ := List.mem_map.mp hmem
      have hnone := hfresh sub' hsub'
      rw [heq, hload] at hnone
      cases hnone
    have hstored : s.loadGoal id = some parent := (hframe id hid).symm.trans hparent
    obtain ⟨child, hold, _⟩ := hmirrored.child_parent id parent hstored sub.id hlisted
    rw [hfresh sub hsub] at hold
    cases hold
  · intro hsubs
    rw [hsubs]
    exact whole_of_mirrored hmirrored.links

end Whole

/-! ## Failed calls -/

/-- A call of the goal tree, with the ids that it draws. -/
inductive Call where
  | decompose (now : ℤ) (parentId : Str) (subs : List SubGoal)
  | complete (now : ℤ) (id result : Str)
  deriving DecidableEq

namespace Call

/-- The call on a store, whose access number `failing` fails.  A walk up the tree has a number of
calls to spend. -/
def runFailing (s : GoalStore) (failing calls : ℕ) :
    Call → Option (Except GoalTreeError Unit × Metered GoalStore)
  | .decompose now parentId subs =>
    (Accesses.decompose now parentId subs >>= fun _ ↦ pure ()).runFrom ⟨s, failing⟩
  | .complete now id result => (Accesses.complete now calls id result).runFrom ⟨s, failing⟩

/-- The ids that a call draws are new and distinct. -/
def Fresh (s : GoalStore) : Call → Prop
  | .decompose _ _ subs => (subs.map SubGoal.id).Nodup ∧ ∀ sub ∈ subs, s.loadGoal sub.id = none
  | .complete _ _ _ => True

/-- What a call that returns an error leaves is whole. -/
def FailsWhole (s : GoalStore) (failing : ℕ) (call : Call) : Prop :=
  ∀ calls error d, call.runFailing s failing calls = some (.error error, d) → d.store.Whole

/-- No access fails from the flush of the first sub-goal to the insertion of the goal that
lists it. -/
def FailsOutside (s : GoalStore) (failing : ℕ) : Call → Prop
  | .decompose _ parentId subs =>
    s.loadGoal parentId = none ∨ failing < 2 ∨ 2 * subs.length + 1 < failing
  | .complete _ _ _ => True

instance decidableFailsOutside (s : GoalStore) (failing : ℕ) :
    ∀ call : Call, Decidable (call.FailsOutside s failing)
  | .decompose _ parentId subs => inferInstanceAs (Decidable
      (s.loadGoal parentId = none ∨ failing < 2 ∨ 2 * subs.length + 1 < failing))
  | .complete _ _ _ => isTrue trivial

end Call

section Failing

variable {now : ℤ} {id result : Str} {s : GoalStore} {failing : ℕ} {subs : List SubGoal}

theorem failsWhole_complete (hkeyed : s.Keyed) (hmirrored : s.MirroredGoals) :
    (Call.complete now id result).FailsWhole s failing := by
  intro calls error d hrun
  have hlinks : d.store.links = s.links :=
    (Accesses.triple_complete hkeyed calls).error ⟨s, failing⟩ error d rfl hrun
  apply whole_of_mirrored
  rw [hlinks]
  exact hmirrored.links

theorem runFailing_decompose_eq_error {error : GoalTreeError} {calls : ℕ} {d : Metered GoalStore} :
    (Call.decompose now id subs).runFailing s failing calls = some (.error error, d) ↔
      (Accesses.decompose now id subs).runFrom ⟨s, failing⟩ = some (.error error, d) := by
  rw [Call.runFailing, Accessing.runFrom_bind_eq_error]
  apply or_iff_left
  rintro ⟨nodes, next, _, hpure⟩
  cases hpure

theorem failsWhole_decompose_iff (hkeyed : s.Keyed) (hmirrored : s.MirroredGoals)
    (hnodup : (subs.map SubGoal.id).Nodup) (hfresh : ∀ sub ∈ subs, s.loadGoal sub.id = none) :
    (Call.decompose now id subs).FailsWhole s failing ↔
      (Call.decompose now id subs).FailsOutside s failing := by
  simp only [Call.FailsWhole, runFailing_decompose_eq_error, Call.FailsOutside]
  cases hload : s.loadGoal id with
  | none =>
    refine iff_of_true (fun _ error d hrun ↦ ?_) (.inl rfl)
    have hstore : d.store = s := by
      cases failing with
      | zero =>
        cases hrun
        rfl
      | succ left =>
        rw [Accesses.runFrom_decompose_none subs hload] at hrun
        cases hrun
        rfl
    rw [hstore]
    exact whole_of_mirrored hmirrored.links
  | some goal =>
    rw [or_iff_right (Option.some_ne_none goal)]
    rcases Nat.lt_trichotomy failing (2 * subs.length + 2) with hlt | heq | hlt
    · have hrun := @Accesses.runFrom_decompose_of_le now id s goal failing subs hload
        (Nat.le_of_lt_succ hlt)
      have htake : ∀ sub ∈ subs.take (failing / 2), s.loadGoal sub.id = none :=
        fun sub hsub ↦ hfresh sub (mem_of_mem_take hsub)
      have hempty : subs.take (failing / 2) = [] ↔ failing < 2 := by
        rw [take_eq_nil_iff, ← length_eq_zero_iff]
        omega
      rw [or_iff_left (Nat.not_lt.mpr (Nat.le_of_lt_succ hlt)), ← hempty,
        ← @whole_saveChildren_iff now id s goal _ hmirrored hload htake]
      constructor
      · exact fun hwhole ↦ hwhole 0 _ _ hrun
      · intro hwhole _ error d hfail
        cases hrun.symm.trans hfail
        exact hwhole
    · refine iff_of_true (fun _ error d hrun ↦ ?_) (.inr (heq ▸ Nat.lt_succ_self _))
      rw [heq, Accesses.runFrom_decompose_flush subs hload] at hrun
      cases hrun
      exact whole_of_decomposed hkeyed hmirrored hload hnodup hfresh
    · refine iff_of_true (fun _ error d hrun ↦ ?_) (.inr (Nat.lt_of_succ_lt hlt))
      rw [Accesses.runFrom_decompose_of_lt subs hload hlt] at hrun
      cases hrun

/-- Whatever access fails, the call returns. -/
theorem exists_runFailing {calls : ℕ} (call : Call) (hcalls : failing < calls) :
    ∃ outcome d, call.runFailing s failing calls = some (outcome, d) := by
  cases call with
  | decompose now parentId subs =>
    have hends := (@Accesses.ends_decompose now calls parentId subs).bind
      fun _ ↦ Accessing.ends_pure ()
    obtain ⟨outcome, d, hrun, _⟩ := hends ⟨s, failing⟩ hcalls
    exact ⟨outcome, d, hrun⟩
  | complete now id result =>
    obtain ⟨outcome, d, hrun, _⟩ := @Accesses.ends_complete now id result calls ⟨s, failing⟩ hcalls
    exact ⟨outcome, d, hrun⟩

/-- **Failed calls and half-built trees.**  A failed call leaves no tree half built if and
only if it is no decomposition that fails between the insertion of the first sub-goal and that
of the goal. -/
theorem failsWhole_iff {call : Call} (hkeyed : s.Keyed) (hmirrored : s.MirroredGoals)
    (hfresh : call.Fresh s) : call.FailsWhole s failing ↔ call.FailsOutside s failing := by
  cases call with
  | decompose now parentId subs =>
    exact failsWhole_decompose_iff hkeyed hmirrored hfresh.1 hfresh.2
  | complete now id result =>
    exact iff_of_true (failsWhole_complete hkeyed hmirrored) trivial

end Failing

theorem Inv.mirroredGoals {s : GoalStore} {rank : Str → ℕ} (hinv : Inv s rank) : s.MirroredGoals :=
  ⟨hinv.consistent.parent_child, hinv.consistent.child_parent⟩

/-- A store with one root. -/
def rootStore : GoalStore :=
  ((∅ : GoalStore).createRoot 0 ⟨"r".toList, "Root".toList, 5⟩ []).1

theorem exists_inv_rootStore : ∃ rank, Inv rootStore rank :=
  ⟨_, (inv_empty fun _ ↦ 0).createRoot ExtTreeMap.getElem?_empty 0 []⟩

/-- A decomposition of the root into two sub-goals. -/
def splitRoot : Call :=
  .decompose 1 "r".toList [⟨"a".toList, "Sub A".toList, 3⟩, ⟨"b".toList, "Sub B".toList, 4⟩]

theorem fresh_splitRoot : splitRoot.Fresh rootStore := by
  constructor
  · decide +kernel
  · decide +kernel

theorem failsWhole_splitRoot_flush : splitRoot.FailsWhole rootStore 6 := by
  obtain ⟨rank, hinv⟩ := exists_inv_rootStore
  exact (failsWhole_iff hinv.keyed hinv.mirroredGoals fresh_splitRoot).mpr (by decide +kernel)

/-- The insertion of the second sub-goal fails, and nobody lists the first. -/
theorem not_all_failsWhole : ¬ ∀ (s : GoalStore) (failing : ℕ) (call : Call), s.Keyed →
    s.MirroredGoals → call.Fresh s → call.FailsWhole s failing := by
  intro hall
  obtain ⟨rank, hinv⟩ := exists_inv_rootStore
  have hwhole := hall rootStore 3 splitRoot hinv.keyed hinv.mirroredGoals fresh_splitRoot
  rw [splitRoot, failsWhole_decompose_iff hinv.keyed hinv.mirroredGoals fresh_splitRoot.1
    fresh_splitRoot.2] at hwhole
  exact absurd hwhole (by decide +kernel)

end SoulSystem.Goals.GoalStore
