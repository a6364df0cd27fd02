import SoulSystem.Goals.Progress

/-!
# The tree under a goal

`get_tree` walks down the links from a goal to its children.  Without a cycle among these links the
walk ends, and what it returns is known for every goal: the stored ids of the children, and after
them the ids of the children that were found.
-/

namespace SoulSystem.Goals.GoalStore

open Library Std LinkTable List

variable {s : GoalStore} {id : Str} {goal : PersistentGoal} {rank : Str → ℕ} {bound : ℕ}

/-! ## Links from a goal to its children -/

/-- `c` is listed as a child of the stored goal `p`. -/
def IsChild (s : GoalStore) (c p : Str) : Prop :=
  ∃ goal, s.loadGoal p = some goal ∧ c ∈ goal.childrenIds

/-- No goal is below itself. -/
def Acyclic (s : GoalStore) : Prop := ∀ id, ¬ Relation.TransGen s.IsChild id id

/-- A forest has no cycle. -/
theorem acyclic_of_isForest (hforest : IsForest s.links rank bound) : s.Acyclic := by
  have hparent : ∀ c p, s.IsChild c p → Function.swap (IsParent s.links) c p := by
    rintro c p ⟨goal, hload, hc⟩
    exact hforest.child p _ (links_of_loadGoal hload) c hc
  intro id hcycle
  exact hforest.acyclic id (Relation.transGen_swap.mp (Relation.TransGen.mono hparent _ _ hcycle))

theorem finite_stored (s : GoalStore) : Finite {id // (s.loadGoal id).isSome} := by
  have hkeys : {id | (s.loadGoal id).isSome} ⊆ {id | id ∈ s.keys} := by
    intro id hid
    obtain ⟨goal, hgoal⟩ := Option.isSome_iff_exists.mp hid
    exact ExtTreeMap.mem_keys.mpr (SortedMap.mem_of_getElem?_eq_some hgoal)
  exact (finite_toSet s.keys).subset hkeys

/-- What holds of a stored goal when it holds of the stored goals below it holds of all. -/
theorem Acyclic.induction (hacyclic : s.Acyclic) {P : Str → Prop}
    (hstep : ∀ id goal, s.loadGoal id = some goal →
      (∀ c ∈ goal.childrenIds, (s.loadGoal c).isSome → P c) → P id)
    (hload : s.loadGoal id = some goal) : P id := by
  let Below (a b : {id // (s.loadGoal id).isSome}) : Prop := Relation.TransGen s.IsChild a b
  have : Finite {id // (s.loadGoal id).isSome} := finite_stored s
  have : IsTrans _ Below := ⟨fun _ _ _ ↦ Relation.TransGen.trans⟩
  have : Std.Irrefl Below := ⟨fun a ↦ hacyclic a⟩
  have hall : ∀ a : {id // (s.loadGoal id).isSome}, P a := by
    intro a
    induction a using (Finite.wellFounded_of_trans_of_irrefl Below).induction with
    | _ a ih =>
      obtain ⟨goal, hgoal⟩ := Option.isSome_iff_exists.mp a.property
      exact hstep a goal hgoal fun c hc hstored ↦
        ih ⟨c, hstored⟩ (Relation.TransGen.single ⟨goal, hgoal, hc⟩)
  exact hall ⟨id, Option.isSome_of_eq_some hload⟩

/-! ## What the walk returns -/

/-- The node for a goal: its stored children, and after them those that are found. -/
def treeNode (s : GoalStore) (goal : PersistentGoal) : GoalNode :=
  { GoalNode.from goal with
    childrenIds :=
      goal.childrenIds ++ (goal.childrenIds.filterMap s.loadGoal).map PersistentGoal.id }

theorem childrenIds_treeNode (s : GoalStore) (goal : PersistentGoal) :
    (s.treeNode goal).childrenIds =
      goal.childrenIds ++ (goal.childrenIds.filterMap s.loadGoal).map PersistentGoal.id := rfl

theorem childrenIds_treeNode_eq_iff : (s.treeNode goal).childrenIds = goal.childrenIds ↔
    ∀ c ∈ goal.childrenIds, s.loadGoal c = none := by
  rw [childrenIds_treeNode, append_right_eq_self, map_eq_nil_iff,
    filterMap_eq_nil_iff]

def treeResult (s : GoalStore) (id : Str) : Except GoalTreeError GoalNode :=
  match s.loadGoal id with
  | none => .error (.notFound id)
  | some goal => .ok (s.treeNode goal)

/-- The walk from a goal ends with enough calls. -/
def Ends (s : GoalStore) (id : Str) : Prop :=
  ∃ enough, ∀ calls, enough ≤ calls → s.getTree calls id = some (s.treeResult id)

theorem addFound_treeResult (s : GoalStore) (node : GoalNode) (c : Str) :
    addFound node (s.treeResult c) = { node with
      childrenIds := node.childrenIds ++ ([c].filterMap s.loadGoal).map PersistentGoal.id } := by
  rw [treeResult]
  cases hload : s.loadGoal c with
  | none => simp [addFound, hload]
  | some goal => simp [addFound, hload, treeNode, GoalNode.from]

/-- The loop over children whose walks end. -/
theorem exists_foldlM_addFound {cs : List Str} (hends : ∀ c ∈ cs, s.Ends c) :
    ∃ enough, ∀ calls, enough ≤ calls → ∀ node : GoalNode,
      cs.foldlM (fun node childId ↦ (s.getTree calls childId).map (addFound node)) node =
        some { node with
          childrenIds := node.childrenIds ++ (cs.filterMap s.loadGoal).map PersistentGoal.id } := by
  induction cs with
  | nil => exact ⟨0, fun _ _ node ↦ by simp⟩
  | cons c cs ih =>
    obtain ⟨enough, hfirst⟩ := hends c mem_cons_self
    obtain ⟨enough', hrest⟩ := ih fun c' hc' ↦ hends c' (mem_cons_of_mem c hc')
    refine ⟨max enough enough', fun calls hcalls node ↦ ?_⟩
    have hc := hfirst calls ((le_max_left _ _).trans hcalls)
    have hcs := hrest calls ((le_max_right _ _).trans hcalls)
    have hsplit : (c :: cs).filterMap s.loadGoal =
        [c].filterMap s.loadGoal ++ cs.filterMap s.loadGoal :=
      @filterMap_append _ _ [c] cs s.loadGoal
    rw [foldlM_cons, hc, Option.map_some, Option.bind_eq_bind, Option.bind_some, hcs,
      addFound_treeResult, hsplit, map_append, ← append_assoc]

theorem ends_of_none (hnone : s.loadGoal id = none) : s.Ends id := by
  refine ⟨1, fun calls hcalls ↦ ?_⟩
  obtain ⟨calls, rfl⟩ := Nat.exists_eq_add_of_le' hcalls
  rw [getTree, treeResult, hnone]

theorem ends_of_children (hload : s.loadGoal id = some goal)
    (hends : ∀ c ∈ goal.childrenIds, s.Ends c) : s.Ends id := by
  obtain ⟨enough, hloop⟩ := exists_foldlM_addFound hends
  refine ⟨enough + 1, fun calls hcalls ↦ ?_⟩
  obtain ⟨calls, rfl⟩ := Nat.exists_eq_add_of_le' ((Nat.le_add_left 1 enough).trans hcalls)
  have hloop := hloop calls (Nat.le_of_succ_le_succ hcalls) (GoalNode.from goal)
  rw [getTree, treeResult, hload]
  dsimp only
  exact congrArg (Option.map Except.ok) hloop

/-- **The walk ends.** -/
theorem Acyclic.ends (hacyclic : s.Acyclic) (id : Str) : s.Ends id := by
  cases hload : s.loadGoal id with
  | none => exact ends_of_none hload
  | some goal =>
    refine hacyclic.induction (fun id goal hload hbelow ↦ ?_) hload
    refine ends_of_children hload fun c hc ↦ ?_
    cases hchild : s.loadGoal c with
    | none => exact ends_of_none hchild
    | some child => exact hbelow c hc (Option.isSome_of_eq_some hchild)

/-- Without a cycle the walk from a stored goal ends with a node, whose children are the stored
children, each once and in order, if and only if none of them is found. -/
theorem getTree_childrenIds_iff (hacyclic : s.Acyclic) (hload : s.loadGoal id = some goal) :
    ∃ node, (∃ enough, ∀ calls, enough ≤ calls → s.getTree calls id = some (.ok node)) ∧
      (node.childrenIds = goal.childrenIds ↔ ∀ c ∈ goal.childrenIds, s.loadGoal c = none) := by
  have hends := hacyclic.ends id
  rw [Ends, treeResult, hload] at hends
  exact ⟨s.treeNode goal, hends, childrenIds_treeNode_eq_iff⟩

/-! ## The trees of reachable stores -/

theorem Inv.treeNode_eq (hinv : Inv s rank) (hload : s.loadGoal id = some goal) :
    s.treeNode goal =
      { GoalNode.from goal with childrenIds := goal.childrenIds ++ goal.childrenIds } := by
  have hids : ∀ cs : List Str, (∀ c ∈ cs, c ∈ goal.childrenIds) →
      (cs.filterMap s.loadGoal).map PersistentGoal.id = cs := by
    intro cs hcs
    induction cs with
    | nil => rfl
    | cons c cs ih =>
      obtain ⟨hc, hrest⟩ := forall_mem_cons.mp hcs
      obtain ⟨child, hchild, -⟩ := hinv.consistent.child_parent id goal hload c hc
      rw [filterMap_cons_some hchild, map_cons, ih hrest, hinv.keyed c child hchild]
  rw [treeNode, hids _ fun c hc ↦ hc]

/-- **Every tree that can be stored is walked to its end**, and each goal comes back with its stored
children twice. -/
theorem exists_getTree_run {events : List Event}
    (hfresh : machine.Meets (fun s event ↦ event.fresh s) ∅ events) :
    ∃ s, machine.run ∅ events = some s ∧ ∀ id goal, s.loadGoal id = some goal →
      ∃ enough, ∀ calls, enough ≤ calls → s.getTree calls id = some (.ok
        { GoalNode.from goal with childrenIds := goal.childrenIds ++ goal.childrenIds }) := by
  obtain ⟨s, rank, hrun, hinv⟩ := (inv_empty fun _ ↦ 0).exists_run hfresh
  refine ⟨s, hrun, fun id goal hload ↦ ?_⟩
  obtain ⟨enough, hends⟩ := (acyclic_of_isForest hinv.forest).ends id
  refine ⟨enough, fun calls hcalls ↦ ?_⟩
  rw [hends calls hcalls, treeResult, hload, ← hinv.treeNode_eq hload]

theorem exists_getTree_run_twoSubGoals : ∃ s, machine.run ∅ twoSubGoals = some s ∧
    ∀ id goal, s.loadGoal id = some goal → ∃ enough, ∀ calls, enough ≤ calls →
      s.getTree calls id = some (.ok
        { GoalNode.from goal with childrenIds := goal.childrenIds ++ goal.childrenIds }) :=
  exists_getTree_run fresh_twoSubGoals

/-! ## A goal with one child -/

/-- A root that was decomposed into one goal. -/
def rootWithChild : GoalStore :=
  let child := newGoal 0 (some "r".toList) ⟨"c".toList, "child".toList, 1⟩
  let root := newGoal 0 none ⟨"r".toList, "root".toList, 1⟩
  ((∅ : GoalStore).saveGoal child).saveGoal { root with childrenIds := ["c".toList] }

theorem loadGoal_rootWithChild {id : Str} {goal : PersistentGoal}
    (hload : rootWithChild.loadGoal id = some goal) :
    (id = "r".toList ∧ goal.childrenIds = ["c".toList]) ∨
      (id = "c".toList ∧ goal.childrenIds = []) := by
  rw [rootWithChild, loadGoal_saveGoal, loadGoal_saveGoal] at hload
  split at hload
  · next hroot => exact Or.inl ⟨hroot.symm, Option.some.inj hload ▸ rfl⟩
  · split at hload
    · next hchild => exact Or.inr ⟨hchild.symm, Option.some.inj hload ▸ rfl⟩
    · rw [loadGoal, ExtTreeMap.getElem?_empty] at hload
      cases hload

theorem acyclic_rootWithChild : rootWithChild.Acyclic := by
  have hchild : ∀ c p, rootWithChild.IsChild c p → c = "c".toList ∧ p = "r".toList := by
    rintro c p ⟨goal, hload, hc⟩
    cases loadGoal_rootWithChild hload with
    | inl hroot => exact ⟨List.mem_singleton.mp (hroot.2 ▸ hc), hroot.1⟩
    | inr hleaf => exact absurd (hleaf.2 ▸ hc) not_mem_nil
  intro id hcycle
  have htop : ∀ a b, Relation.TransGen rootWithChild.IsChild a b → b = "r".toList := by
    intro a b hpath
    cases hpath with
    | single hlink => exact (hchild _ _ hlink).2
    | tail _ hlink => exact (hchild _ _ hlink).2
  have hbottom : ∀ a b, Relation.TransGen rootWithChild.IsChild a b → a = "c".toList := by
    intro a b hpath
    induction hpath with
    | single hlink => exact (hchild _ _ hlink).1
    | tail _ _ ih => exact ih
  exact absurd ((hbottom id id hcycle).symm.trans (htop id id hcycle)) (by decide)

theorem loadGoal_rootWithChild_root :
    ∃ goal, rootWithChild.loadGoal "r".toList = some goal ∧ goal.childrenIds = ["c".toList] :=
  ⟨_, loadGoal_saveGoal_self, rfl⟩

theorem getTree_childrenIds_iff_rootWithChild :
    ∃ (goal : PersistentGoal) (node : GoalNode), (∃ enough, ∀ calls, enough ≤ calls →
        rootWithChild.getTree calls "r".toList = some (.ok node)) ∧
      (node.childrenIds = goal.childrenIds ↔
        ∀ c ∈ goal.childrenIds, rootWithChild.loadGoal c = none) := by
  obtain ⟨goal, hload, _⟩ := loadGoal_rootWithChild_root
  exact ⟨goal, getTree_childrenIds_iff acyclic_rootWithChild hload⟩

/-- The child of the root is returned twice. -/
theorem not_getTree_childrenIds : ¬ ∀ (s : GoalStore) (id : Str) (goal : PersistentGoal),
    s.Acyclic → s.loadGoal id = some goal →
    ∃ node, (∃ enough, ∀ calls, enough ≤ calls → s.getTree calls id = some (.ok node)) ∧
      node.childrenIds = goal.childrenIds := by
  intro hall
  obtain ⟨goal, hload, hchildren⟩ := loadGoal_rootWithChild_root
  obtain ⟨node, ⟨enough, htree⟩, hsame⟩ := hall _ _ goal acyclic_rootWithChild hload
  obtain ⟨enough', hends⟩ := acyclic_rootWithChild.ends "r".toList
  have htwice := (htree _ (le_max_left enough enough')).symm.trans
    (hends _ (le_max_right enough enough'))
  rw [treeResult, hload] at htwice
  cases htwice
  obtain ⟨child, hchild⟩ : ∃ child, rootWithChild.loadGoal "c".toList = some child :=
    ⟨_, (loadGoal_saveGoal_ne (by decide)).trans loadGoal_saveGoal_self⟩
  rw [childrenIds_treeNode_eq_iff, hchildren] at hsame
  exact nomatch (hsame _ (mem_singleton_self _)).symm.trans hchild

end SoulSystem.Goals.GoalStore
