import SoulSystem.Library.Str
import SoulSystem.Library.SortedMap

/-!
# The goal tree

Goals are kept in a map from id to goal.  `create_root` and `decompose` store new goals, `complete`
completes one and walks up the tree as long as all children of the next goal are completed.

The walk of `update_parent_progress` up the tree and that of `get_tree` down the tree are recursions
without a bound in the code; here they have a number of calls to spend and give nothing when these
run out.  A new id is part of the call that draws it.
-/

namespace SoulSystem.Goals

open Library Std

/-! ## Data model -/

inductive GoalStatus where
  | active
  | running
  | completed
  | failed
  | deferred
  deriving DecidableEq, Repr

structure PersistentGoal where
  id : Str
  description : Str
  priority : ℕ
  status : GoalStatus
  createdAt : ℤ
  updatedAt : ℤ
  parentId : Option Str
  childrenIds : List Str
  result : Option Str
  deriving DecidableEq, Repr

structure GoalNode where
  id : Str
  description : Str
  priority : ℕ
  status : GoalStatus
  createdAt : ℤ
  updatedAt : ℤ
  parentId : Option Str
  childrenIds : List Str
  result : Option Str
  dependencies : List Str
  estimatedEffort : Option ℚ
  actualEffort : Option ℚ
  notes : List Str
  tags : List Str

def GoalNode.from (goal : PersistentGoal) : GoalNode where
  id := goal.id
  description := goal.description
  priority := goal.priority
  status := goal.status
  createdAt := goal.createdAt
  updatedAt := goal.updatedAt
  parentId := goal.parentId
  childrenIds := goal.childrenIds
  result := goal.result
  dependencies := []
  estimatedEffort := none
  actualEffort := none
  notes := []
  tags := []

inductive GoalTreeError where
  | notFound (id : Str)
  | persist
  deriving DecidableEq, Repr

/-- A sub-goal to create, with the id that is drawn for it. -/
structure SubGoal where
  id : Str
  description : Str
  priority : ℕ
  deriving DecidableEq, Repr

/-- The tree of goals in the store. -/
abbrev GoalStore := ExtTreeMap Str PersistentGoal

namespace GoalStore

/-! ## The store -/

def saveGoal (s : GoalStore) (goal : PersistentGoal) : GoalStore := s.insert goal.id goal

def loadGoal (s : GoalStore) (id : Str) : Option PersistentGoal := s[id]?

def completeGoal (now : ℤ) (s : GoalStore) (id result : Str) : GoalStore :=
  match s.loadGoal id with
  | none => s
  | some goal =>
    s.saveGoal { goal with status := .completed, result := some result, updatedAt := now }

/-! ## Creating goals -/

/-- A goal as it is created, without children. -/
def newGoal (now : ℤ) (parentId : Option Str) (sub : SubGoal) : PersistentGoal where
  id := sub.id
  description := sub.description
  priority := sub.priority
  status := .active
  createdAt := now
  updatedAt := now
  parentId := parentId
  childrenIds := []
  result := none

/-- Create a root goal. -/
def createRoot (now : ℤ) (s : GoalStore) (goal : SubGoal) (tags : List Str) :
    GoalStore × GoalNode :=
  let goal := newGoal now none goal
  (s.saveGoal goal, { GoalNode.from goal with tags })

/-- One round of the loop over the sub-goals: the store, the parent and the nodes so far. -/
def addChild (now : ℤ) (state : GoalStore × PersistentGoal × List GoalNode) (parentId : Str)
    (sub : SubGoal) : GoalStore × PersistentGoal × List GoalNode :=
  let (s, parent, children) := state
  let childGoal := newGoal now (some parentId) sub
  (s.saveGoal childGoal, { parent with childrenIds := parent.childrenIds ++ [childGoal.id] },
    children ++ [GoalNode.from childGoal])

/-- Decompose a goal into sub-goals. -/
def decompose (now : ℤ) (s : GoalStore) (parentId : Str) (subs : List SubGoal) :
    Except GoalTreeError (GoalStore × List GoalNode) :=
  match s.loadGoal parentId with
  | none => .error (.notFound parentId)
  | some parent =>
    let (s, parent, children) :=
      subs.foldl (fun state sub ↦ addChild now state parentId sub) (s, parent, [])
    .ok (s.saveGoal { parent with updatedAt := now }, children)

/-! ## Completing goals -/

/-- Whether a goal is there and completed. -/
def isCompleted (s : GoalStore) (id : Str) : Bool :=
  match s.loadGoal id with
  | none => false
  | some goal => goal.status == .completed

/-- Complete a goal whose children are all completed, and go on with its parent. -/
def updateParentProgress (now : ℤ) : ℕ → GoalStore → Str → Option GoalStore
  | 0, _, _ => none
  | calls + 1, s, parentId =>
    match s.loadGoal parentId with
    | none => some s
    | some parent =>
      let completed := (parent.childrenIds.filter s.isCompleted).length
      let total := parent.childrenIds.length
      if 0 < total ∧ completed = total then
        let s := completeGoal now s parentId "All sub-goals completed".toList
        match parent.parentId with
        | none => some s
        | some grandparentId => updateParentProgress now calls s grandparentId
      else some s

/-- Complete a goal and update parent progress. -/
def complete (now : ℤ) (calls : ℕ) (s : GoalStore) (id result : Str) : Option GoalStore :=
  let s := completeGoal now s id result
  match s.loadGoal id with
  | none => some s
  | some goal =>
    match goal.parentId with
    | none => some s
    | some parentId => updateParentProgress now calls s parentId

/-! ## Reading a tree -/

/-- One round of the loop over the children: a child that is found adds its id. -/
def addFound (node : GoalNode) : Except GoalTreeError GoalNode → GoalNode
  | .ok child => { node with childrenIds := node.childrenIds ++ [child.id] }
  | .error _ => node

/-- Get full tree from root. -/
def getTree (s : GoalStore) : ℕ → Str → Option (Except GoalTreeError GoalNode)
  | 0, _ => none
  | calls + 1, rootId =>
    match s.loadGoal rootId with
    | none => some (.error (.notFound rootId))
    | some goal =>
      let node := GoalNode.from goal
      (node.childrenIds.foldlM (fun node childId ↦
        (getTree s calls childId).map (addFound node)) node).map .ok

end GoalStore

end SoulSystem.Goals
