import SoulSystem.Library.Loop

/-!
# Depth-first search

A search with three colours and a stack of frames, each of them a vertex and the index of its next
child.  A child that is on the path to the top of the stack closes a cycle.

The colours say where a vertex stands: on the path, or done with all that can be reached from
it.  As long as no cycle was met, a vertex that is done has no endless walk below it.

An order of the nodes of a graph is topological if every edge leads forward in it.  A graph with
such an order has no cycle, and a partial map of the nodes that every edge lifts along keeps an
order topological.
-/

namespace SoulSystem.Library.DepthFirst

open Relation List Function

/-! ## The search -/

inductive Color where
  | unvisited
  | onPath
  | done
  deriving DecidableEq

/-- A search under way, the top of its stack first. -/
structure Walk (α : Type) where
  color : α → Color
  stack : List (α × ℕ)
  path : List α
  cycles : List (List α)

section Search

variable {α : Type} [DecidableEq α] (children : α → List α)

namespace Walk

variable (s : Walk α)

/-- A child met for the first time, over the frames. -/
def push (child : α) (stack : List (α × ℕ)) : Walk α :=
  { s with
    color := update s.color child .onPath
    stack := (child, 0) :: stack
    path := s.path ++ [child] }

/-- A child that is on the path: a cycle spans the path from it on. -/
def back (child : α) (stack : List (α × ℕ)) : Walk α :=
  { s with
    stack
    cycles := s.cycles ++ ((s.path.findIdx? (· = child)).map s.path.drop).toList }

/-- A child that is done. -/
def skip (stack : List (α × ℕ)) : Walk α := { s with stack }

/-- A vertex without further children. -/
def pop (node : α) (stack : List (α × ℕ)) : Walk α :=
  { s with
    color := update s.color node .done
    stack
    path := s.path.dropLast }

end Walk

/-- One turn, over the frame on top. -/
def turn (s : Walk α) : Walk α :=
  match s.stack with
  | [] => s
  | (node, i) :: rest =>
    match (children node)[i]? with
    | some child =>
      match s.color child with
      | .unvisited => s.push child ((node, i + 1) :: rest)
      | .onPath => s.back child ((node, i + 1) :: rest)
      | .done => s.skip ((node, i + 1) :: rest)
    | none => s.pop node rest

/-- A search that enters a vertex. -/
def enter (s : Walk α) (start : α) : Walk α :=
  { s with color := update s.color start .onPath, stack := [(start, 0)], path := [start] }

/-- The search from one vertex, unless it was met before; nothing if the fuel runs out. -/
def searchFrom (fuel : ℕ) (s : Walk α) (start : α) : Option (Walk α) :=
  if s.color start = .unvisited then
    let s := loopWhile (fun s : Walk α ↦ s.stack ≠ []) (turn children) fuel (enter s start)
    if s.stack = [] then some s else none
  else some s

def blank : Walk α where
  color := fun _ ↦ .unvisited
  stack := []
  path := []
  cycles := []

/-- The cycles that the searches from some vertices meet, one after the other. -/
def findCycles (fuel : ℕ) (starts : List α) : Option (List (List α)) :=
  (starts.foldlM (searchFrom children fuel) blank).map Walk.cycles

end Search

/-! ## Cycles -/

section Cycles

variable {α : Type}

/-- Distinct vertices, each with an edge to the next one and the last with one to the first. -/
structure IsCycle (E : α → α → Prop) (cycle : List α) : Prop where
  nonempty : cycle ≠ []
  distinct : cycle.Nodup
  consecutive : cycle.IsChain E
  closing : E (cycle.getLast nonempty) (cycle.head nonempty)

theorem IsCycle.transGen {E : α → α → Prop} {cycle : List α} (hcycle : IsCycle E cycle) :
    TransGen E (cycle.head hcycle.nonempty) (cycle.head hcycle.nonempty) :=
  TransGen.tail' (relationReflTransGen_of_exists_isChain cycle hcycle.consecutive
    hcycle.nonempty) hcycle.closing

/-- What has no endless walk below it is on no cycle. -/
theorem not_transGen_of_acc {E : α → α → Prop} {v : α} (hacc : Acc (fun c v ↦ E v c) v) :
    ¬ TransGen E v v := by
  have hswap : Acc (TransGen (fun c v ↦ E v c)) v := hacc.transGen
  induction hswap with
  | intro v _ ih =>
    intro hcycle
    have hback : TransGen (fun c v ↦ E v c) v v := transGen_swap.mpr hcycle
    exact ih v hback (hacc.inv_of_transGen hback) hcycle

/-- What lies on the path from a vertex on, closes a cycle with an edge back to it. -/
theorem isCycle_drop {E : α → α → Prop} {path : List α} {last child : α} {pos : ℕ}
    (hdistinct : path.Nodup) (hlinked : path.IsChain E) (hlast : path.getLast? = some last)
    (hpos : path[pos]? = some child) (hedge : E last child) : IsCycle E (path.drop pos) := by
  obtain ⟨hlt, hget⟩ := List.getElem?_eq_some_iff.mp hpos
  have hnonempty : path.drop pos ≠ [] := by
    rw [ne_eq, drop_eq_nil_iff]
    exact not_le.mpr hlt
  have hhead : (path.drop pos).head hnonempty = child := by
    rw [head_drop, hget]
  have hend : (path.drop pos).getLast hnonempty = last := by
    have hall := getLast?_eq_some_getLast hnonempty
    rw [getLast?_drop, if_neg (not_le.mpr hlt), hlast] at hall
    exact (Option.some.inj hall).symm
  exact ⟨hnonempty, hdistinct.sublist (drop_sublist pos path), hlinked.drop pos, by
    rwa [hhead, hend]⟩

end Cycles

/-! ## What a search keeps -/

section Invariant

variable {α : Type} (children : α → List α)

/-- The children before the index of each frame are done, but for the one that the frame above is
about. -/
def Settled (color : α → Color) : Option α → List (α × ℕ) → Prop
  | _, [] => True
  | above, frame :: rest =>
    (∀ child ∈ (children frame.1).take frame.2, color child = .done ∨ above = some child) ∧
      Settled color (some frame.1) rest

/-- The invariant of a search among some vertices. -/
structure Searching (vertices : Finset α) (s : Walk α) : Prop where
  path : s.path = (s.stack.map Prod.fst).reverse
  colored : ∀ v, s.color v = .onPath ↔ v ∈ s.path
  distinct : s.path.Nodup
  linked : s.path.IsChain fun v child ↦ child ∈ children v
  resident : ∀ v ∈ s.path, v ∈ vertices
  sound : ∀ cycle ∈ s.cycles, IsCycle (fun v child ↦ child ∈ children v) cycle
  settled : s.cycles = [] → Settled children s.color none s.stack
  grounded : s.cycles = [] → ∀ v, s.color v = .done → Acc (fun child v ↦ child ∈ children v) v

variable {children} {vertices : Finset α} {s : Walk α}

/-- Settled frames stay settled when more vertices are done, and under a frame of their own. -/
theorem Settled.mono {color color' : α → Color} {above above' : Option α} {stack : List (α × ℕ)}
    (hsettled : Settled children color above stack)
    (hdone : ∀ v, color v = .done → color' v = .done)
    (habove : ∀ v, above = some v → color' v = .done ∨ above' = some v) :
    Settled children color' above' stack := by
  induction stack generalizing above above' with
  | nil => trivial
  | cons frame rest ih =>
    refine ⟨fun child hchild ↦ ?_, ih hsettled.2 fun v hv ↦ .inr hv⟩
    cases hsettled.1 child hchild with
    | inl hcolor => exact .inl (hdone child hcolor)
    | inr heq => exact habove child heq

/-- The index of the frame on top moves past a child. -/
theorem Settled.advance {color : α → Color} {node child : α} {i : ℕ} {above : Option α}
    {rest : List (α × ℕ)} (hsettled : Settled children color none ((node, i) :: rest))
    (hchild : (children node)[i]? = some child) (habove : color child = .done ∨ above = some child) :
    Settled children color above ((node, i + 1) :: rest) := by
  refine ⟨fun other hother ↦ ?_, hsettled.2⟩
  rw [take_add_one, hchild, Option.toList_some, mem_append, mem_singleton] at hother
  cases hother with
  | inl hbefore =>
    exact .inl ((hsettled.1 other hbefore).resolve_right (Option.some_ne_none other ∘ Eq.symm))
  | inr hlast => exact hlast ▸ habove

theorem Searching.path_eq (hs : Searching children vertices s) {node : α} {i : ℕ}
    {rest : List (α × ℕ)} (hstack : s.stack = (node, i) :: rest) :
    s.path = (rest.map Prod.fst).reverse ++ [node] := by
  rw [hs.path, hstack, map_cons, reverse_cons]

theorem Searching.skip (hs : Searching children vertices s) {node child : α} {i : ℕ}
    {rest : List (α × ℕ)} (hstack : s.stack = (node, i) :: rest)
    (hchild : (children node)[i]? = some child) (hcolor : s.color child = .done) :
    Searching children vertices (s.skip ((node, i + 1) :: rest)) := by
  refine ⟨?_, hs.colored, hs.distinct, hs.linked, hs.resident, hs.sound, ?_, hs.grounded⟩
  · simp only [Walk.skip, map_cons, reverse_cons]
    exact hs.path_eq hstack
  · intro hnone
    have hsettled := hs.settled hnone
    rw [hstack] at hsettled
    exact hsettled.advance hchild (.inl hcolor)

/-- A search between two starts: everything met is done. -/
structure Resting (children : α → List α) (vertices : Finset α) (s : Walk α) : Prop
    extends Searching children vertices s where
  idle : s.stack = []

theorem Resting.done (hs : Resting children vertices s) {v : α} (hv : s.color v ≠ .unvisited) :
    s.color v = .done := by
  have hpath : v ∉ s.path := by
    rw [hs.path, hs.idle]
    exact not_mem_nil
  cases hcolor : s.color v with
  | unvisited => exact absurd hcolor hv
  | onPath => exact absurd ((hs.colored v).mp hcolor) hpath
  | done => rfl

theorem resting_blank : Resting children vertices (blank : Walk α) where
  path := rfl
  colored _ := ⟨Color.noConfusion, fun hv ↦ absurd hv not_mem_nil⟩
  distinct := nodup_nil
  linked := isChain_nil
  resident _ hv := absurd hv not_mem_nil
  sound _ hcycle := absurd hcycle not_mem_nil
  settled _ := trivial
  grounded _ _ hv := Color.noConfusion hv
  idle := rfl

variable [DecidableEq α]

theorem Searching.push (hs : Searching children vertices s) {node child : α} {i : ℕ}
    {rest : List (α × ℕ)} (hstack : s.stack = (node, i) :: rest)
    (hchild : (children node)[i]? = some child) (hcolor : s.color child = .unvisited)
    (hresident : child ∈ vertices) :
    Searching children vertices (s.push child ((node, i + 1) :: rest)) := by
  have hnew : child ∉ s.path := by
    rw [← hs.colored, hcolor]
    exact Color.noConfusion
  have hpath := hs.path_eq hstack
  have hdone : ∀ v, s.color v = .done → update s.color child .onPath v = .done := by
    intro v hv
    rwa [update_of_ne]
    rintro rfl
    rw [hcolor] at hv
    cases hv
  constructor
  · simp only [Walk.push, map_cons, reverse_cons]
    rw [← hpath]
  · intro v
    change update s.color child .onPath v = .onPath ↔ v ∈ s.path ++ [child]
    rw [mem_append, mem_singleton]
    by_cases hv : v = child
    · rw [hv, update_self]
      exact ⟨fun _ ↦ .inr rfl, fun _ ↦ rfl⟩
    · rw [update_of_ne hv, hs.colored]
      exact ⟨.inl, fun hor ↦ hor.resolve_right hv⟩
  · exact List.nodup_append.mpr ⟨hs.distinct, nodup_singleton child, by
      rintro v hv other hother rfl
      exact hnew (List.mem_singleton.mp hother ▸ hv)⟩
  · refine hs.linked.append (isChain_singleton child) fun v hv other hother ↦ ?_
    rw [hpath, getLast?_concat, Option.mem_some_iff] at hv
    rw [head?_singleton, Option.mem_some_iff] at hother
    rw [← hv, ← hother]
    exact mem_of_getElem? hchild
  · intro v hv
    cases List.mem_append.mp hv with
    | inl hold => exact hs.resident v hold
    | inr hlast => exact List.mem_singleton.mp hlast ▸ hresident
  · exact hs.sound
  · intro hnone
    have hsettled := hs.settled hnone
    rw [hstack] at hsettled
    refine ⟨fun other hother ↦ ?_, ?_⟩
    · rw [take_zero] at hother
      cases hother
    · exact (hsettled.advance hchild (.inr rfl)).mono hdone fun v hv ↦ .inr hv
  · intro hnone v hv
    change update s.color child .onPath v = .done at hv
    refine hs.grounded hnone v ?_
    by_cases heq : v = child
    · rw [heq, update_self] at hv
      cases hv
    · rwa [update_of_ne heq] at hv

theorem Searching.back (hs : Searching children vertices s) {node child : α} {i : ℕ}
    {rest : List (α × ℕ)} (hstack : s.stack = (node, i) :: rest)
    (hchild : (children node)[i]? = some child) (hcolor : s.color child = .onPath) :
    Searching children vertices (s.back child ((node, i + 1) :: rest)) := by
  have hon : child ∈ s.path := (hs.colored child).mp hcolor
  have hfound : (s.path.findIdx? (· = child)).isSome := by
    rw [findIdx?_isSome, any_eq_true]
    exact ⟨child, hon, decide_eq_true rfl⟩
  obtain ⟨pos, hpos⟩ := Option.isSome_iff_exists.mp hfound
  have hat : s.path[pos]? = some child := by
    have hof := of_findIdx?_eq_some hpos
    cases hget : s.path[pos]? with
    | none =>
      rw [hget] at hof
      cases hof
    | some other =>
      rw [hget] at hof
      exact congrArg some (of_decide_eq_true hof)
  have hcycle : IsCycle (fun v child ↦ child ∈ children v) (s.path.drop pos) := by
    refine isCycle_drop hs.distinct hs.linked ?_ hat (mem_of_getElem? hchild)
    rw [hs.path_eq hstack, getLast?_concat]
  have hback : s.back child ((node, i + 1) :: rest) =
      { s with stack := (node, i + 1) :: rest, cycles := s.cycles ++ [s.path.drop pos] } := by
    rw [Walk.back, hpos, Option.map_some, Option.toList_some]
  have hsome : s.cycles ++ [s.path.drop pos] ≠ [] :=
    append_ne_nil_of_right_ne_nil _ (cons_ne_nil _ _)
  rw [hback]
  constructor
  · simp only [map_cons, reverse_cons]
    exact hs.path_eq hstack
  · exact hs.colored
  · exact hs.distinct
  · exact hs.linked
  · exact hs.resident
  · intro cycle hmem
    cases List.mem_append.mp hmem with
    | inl hold => exact hs.sound cycle hold
    | inr hnew => exact List.mem_singleton.mp hnew ▸ hcycle
  · exact fun hnone ↦ absurd hnone hsome
  · exact fun hnone ↦ absurd hnone hsome

theorem Searching.pop (hs : Searching children vertices s) {node : α} {i : ℕ}
    {rest : List (α × ℕ)} (hstack : s.stack = (node, i) :: rest)
    (hend : (children node)[i]? = none) : Searching children vertices (s.pop node rest) := by
  have hpath := hs.path_eq hstack
  have hrest : s.path.dropLast = (rest.map Prod.fst).reverse := by
    rw [hpath, dropLast_concat]
  have hnode : node ∉ (rest.map Prod.fst).reverse := by
    have hdistinct := hs.distinct
    rw [hpath, nodup_append] at hdistinct
    exact fun hmem ↦ hdistinct.2.2 node hmem node (List.mem_singleton.mpr rfl) rfl
  have hdone : ∀ v, s.color v = .done → update s.color node .done v = .done := by
    intro v hv
    by_cases heq : v = node
    · rw [heq, update_self]
    · rwa [update_of_ne heq]
  have hall : s.cycles = [] → ∀ child ∈ children node, s.color child = .done := by
    intro hnone child hchild
    have hsettled := hs.settled hnone
    rw [hstack] at hsettled
    refine (hsettled.1 child ?_).resolve_right (Option.some_ne_none child ∘ Eq.symm)
    rwa [take_of_length_le (List.getElem?_eq_none_iff.mp hend)]
  constructor
  · exact hrest
  · intro v
    change update s.color node .done v = .onPath ↔ v ∈ s.path.dropLast
    rw [hrest]
    by_cases heq : v = node
    · rw [heq, update_self]
      exact ⟨Color.noConfusion, fun hmem ↦ absurd hmem hnode⟩
    · rw [update_of_ne heq, hs.colored, hpath, mem_append, mem_singleton]
      exact ⟨fun hor ↦ hor.resolve_right heq, .inl⟩
  · exact hs.distinct.sublist (dropLast_sublist s.path)
  · exact hs.linked.dropLast
  · exact fun v hv ↦ hs.resident v (mem_of_mem_dropLast hv)
  · exact hs.sound
  · intro hnone
    have hsettled := hs.settled hnone
    rw [hstack] at hsettled
    refine hsettled.2.mono hdone fun v hv ↦ .inl ?_
    rw [← Option.some.inj hv]
    exact update_self node Color.done s.color
  · intro hnone v hv
    change update s.color node .done v = .done at hv
    by_cases heq : v = node
    · rw [heq]
      exact Acc.intro node fun child hchild ↦ hs.grounded hnone child (hall hnone child hchild)
    · rw [update_of_ne heq] at hv
      exact hs.grounded hnone v hv

/-! ## Whole searches -/

/-- The turns of the vertices not yet met. -/
def unmet (children : α → List α) (vertices : Finset α) (color : α → Color) : ℕ :=
  ∑ v ∈ vertices with color v = .unvisited, ((children v).length + 1)

/-- How many turns are left. -/
def pending (children : α → List α) (vertices : Finset α) (s : Walk α) : ℕ :=
  unmet children vertices s.color +
    (s.stack.map fun frame ↦ (children frame.1).length - frame.2 + 1).sum

/-- The children of vertices are vertices. -/
def Closed (children : α → List α) (vertices : Finset α) : Prop :=
  ∀ v ∈ vertices, ∀ child ∈ children v, child ∈ vertices

/-- A vertex that is met gives up its turns. -/
theorem unmet_push {color : α → Color} {child : α} (hchild : child ∈ vertices)
    (hcolor : color child = .unvisited) :
    (children child).length + 1 + unmet children vertices (update color child .onPath) =
      unmet children vertices color := by
  have herase : vertices.filter (fun v ↦ update color child .onPath v = .unvisited) =
      (vertices.filter fun v ↦ color v = .unvisited).erase child := by
    ext v
    rw [Finset.mem_erase, Finset.mem_filter, Finset.mem_filter]
    by_cases hv : v = child
    · rw [hv, update_self]
      exact ⟨fun h ↦ absurd h.2 (by decide), fun h ↦ absurd rfl h.1⟩
    · rw [update_of_ne hv]
      exact ⟨fun h ↦ ⟨hv, h⟩, And.right⟩
  rw [unmet, herase]
  exact Finset.add_sum_erase _ (fun v ↦ (children v).length + 1)
    (Finset.mem_filter.mpr ⟨hchild, hcolor⟩)

/-- A vertex on the path was met before. -/
theorem unmet_pop {color : α → Color} {node : α} (hcolor : color node = .onPath) :
    unmet children vertices (update color node .done) = unmet children vertices color := by
  refine Finset.sum_congr (Finset.filter_congr fun v _ ↦ ?_) fun _ _ ↦ rfl
  by_cases hv : v = node
  · rw [hv, update_self, hcolor]
    exact ⟨Color.noConfusion, Color.noConfusion⟩
  · rw [update_of_ne hv]

/-- **One turn** keeps the invariant and uses up one of the turns that were left. -/
theorem Searching.turn (hclosed : Closed children vertices) (hs : Searching children vertices s)
    (hstack : s.stack ≠ []) : Searching children vertices (turn children s) ∧
      pending children vertices (turn children s) < pending children vertices s := by
  obtain ⟨⟨node, i⟩, rest, hcons⟩ := exists_cons_of_ne_nil hstack
  have hnode : node ∈ s.path := by
    rw [hs.path_eq hcons]
    exact mem_append_right _ (List.mem_singleton.mpr rfl)
  cases hchild : (children node)[i]? with
  | none =>
    have hturn : DepthFirst.turn children s = s.pop node rest := by
      simp only [DepthFirst.turn, hcons, hchild]
    have hmet := @unmet_pop _ children vertices _ s.color node ((hs.colored node).mpr hnode)
    rw [hturn]
    refine ⟨hs.pop hcons hchild, ?_⟩
    simp only [pending, Walk.pop, hcons, map_cons, sum_cons]
    omega
  | some child =>
    have hlt : i < (children node).length := (List.getElem?_eq_some_iff.mp hchild).1
    cases hcolor : s.color child with
    | unvisited =>
      have hturn : DepthFirst.turn children s = s.push child ((node, i + 1) :: rest) := by
        simp only [DepthFirst.turn, hcons, hchild, hcolor]
      have hresident := hclosed node (hs.resident node hnode) child (mem_of_getElem? hchild)
      have hmet := @unmet_push _ children _ _ _ _ hresident hcolor
      rw [hturn]
      refine ⟨hs.push hcons hchild hcolor hresident, ?_⟩
      simp only [pending, Walk.push, hcons, map_cons, sum_cons]
      omega
    | onPath =>
      have hturn : DepthFirst.turn children s = s.back child ((node, i + 1) :: rest) := by
        simp only [DepthFirst.turn, hcons, hchild, hcolor]
      rw [hturn]
      refine ⟨hs.back hcons hchild hcolor, ?_⟩
      simp only [pending, Walk.back, hcons, map_cons, sum_cons]
      omega
    | done =>
      have hturn : DepthFirst.turn children s = s.skip ((node, i + 1) :: rest) := by
        simp only [DepthFirst.turn, hcons, hchild, hcolor]
      rw [hturn]
      refine ⟨hs.skip hcons hchild hcolor, ?_⟩
      simp only [pending, Walk.skip, hcons, map_cons, sum_cons]
      omega

/-- What was met stays so. -/
theorem met_turn {v : α} (hv : s.color v ≠ .unvisited) :
    (DepthFirst.turn children s).color v ≠ .unvisited := by
  have hupdate : ∀ (u : α) (color : Color), color ≠ .unvisited →
      update s.color u color v ≠ .unvisited := by
    intro u color hcolor
    by_cases heq : v = u
    · rwa [heq, update_self]
    · rwa [update_of_ne heq]
  unfold DepthFirst.turn
  split
  · exact hv
  · split
    · split
      · exact hupdate _ _ Color.noConfusion
      · exact hv
      · exact hv
    · exact hupdate _ _ Color.noConfusion

theorem Resting.enter (hs : Resting children vertices s) {start : α}
    (hstart : start ∈ vertices) : Searching children vertices (enter s start) where
  path := rfl
  colored v := by
    change update s.color start .onPath v = .onPath ↔ v ∈ [start]
    rw [mem_singleton]
    by_cases hv : v = start
    · rw [hv, update_self]
      exact ⟨fun _ ↦ rfl, fun _ ↦ rfl⟩
    · have hnone : v ∉ s.path := by
        rw [hs.path, hs.idle]
        exact not_mem_nil
      rw [update_of_ne hv, hs.colored]
      exact ⟨fun hmem ↦ absurd hmem hnone, fun heq ↦ absurd heq hv⟩
  distinct := nodup_singleton start
  linked := isChain_singleton start
  resident v hv := List.mem_singleton.mp hv ▸ hstart
  sound := hs.sound
  settled _ := ⟨fun child hchild ↦ absurd hchild not_mem_nil, trivial⟩
  grounded hnone v hv := by
    change update s.color start .onPath v = .done at hv
    refine hs.grounded hnone v ?_
    by_cases heq : v = start
    · rw [heq, update_self] at hv
      cases hv
    · rwa [update_of_ne heq] at hv

/-- The turns that any search takes at most. -/
def turnsBound (children : α → List α) (vertices : Finset α) : ℕ :=
  ∑ v ∈ vertices, ((children v).length + 1)

theorem pending_enter {start : α} (hstart : start ∈ vertices)
    (hcolor : s.color start = .unvisited) :
    pending children vertices (DepthFirst.enter s start) ≤ turnsBound children vertices := by
  have hmet := @unmet_push _ children _ _ _ _ hstart hcolor
  have hle : unmet children vertices s.color ≤ turnsBound children vertices :=
    Finset.sum_le_sum_of_subset (Finset.filter_subset _ _)
  simp only [pending, DepthFirst.enter, map_singleton, sum_singleton]
  omega

/-- **A search from one start** ends, at rest, with the start done. -/
theorem Resting.searchFrom (hclosed : Closed children vertices) (hs : Resting children vertices s)
    {start : α} (hstart : start ∈ vertices) : ∃ t, Resting children vertices t ∧
      (∀ fuel ≥ turnsBound children vertices, searchFrom children fuel s start = some t) ∧
      t.color start = .done ∧ ∀ v, s.color v = .done → t.color v = .done := by
  by_cases hcolor : s.color start = .unvisited
  · let Inv (t : Walk α) : Prop := Searching children vertices t ∧
      ∀ v, (DepthFirst.enter s start).color v ≠ .unvisited → t.color v ≠ .unvisited
    have hturn : ∀ t, Inv t → t.stack ≠ [] → Inv (DepthFirst.turn children t) ∧
        pending children vertices (DepthFirst.turn children t) < pending children vertices t := by
      intro t ht hstack
      obtain ⟨hkept, hlower⟩ := ht.1.turn hclosed hstack
      exact ⟨⟨hkept, fun v hv ↦ met_turn (ht.2 v hv)⟩, hlower⟩
    obtain ⟨⟨hsearch, hmet⟩, hexit⟩ := Loop.inv_and_exit (pending children vertices) hturn
      ⟨hs.enter hstart, fun v hv ↦ hv⟩ (pending_enter hstart hcolor)
    have hrest := Resting.mk hsearch (not_not.mp hexit)
    have hdone : ∀ v, v = start ∨ s.color v = .done → (loopWhile (fun s : Walk α ↦ s.stack ≠ [])
        (DepthFirst.turn children) (turnsBound children vertices)
        (DepthFirst.enter s start)).color v = .done := by
      intro v hv
      refine hrest.done (hmet v ?_)
      change update s.color start .onPath v ≠ .unvisited
      by_cases heq : v = start
      · rw [heq, update_self]
        exact Color.noConfusion
      · rw [update_of_ne heq, hv.resolve_left heq]
        exact Color.noConfusion
    refine ⟨_, hrest, fun fuel hfuel ↦ ?_, hdone start (.inl rfl), fun v hv ↦ hdone v (.inr hv)⟩
    rw [DepthFirst.searchFrom, if_pos hcolor, Loop.eq_of_exit hfuel hexit]
    exact if_pos (not_not.mp hexit)
  · refine ⟨s, hs, fun fuel _ ↦ ?_, hs.done hcolor, fun v hv ↦ hv⟩
    rw [DepthFirst.searchFrom, if_neg hcolor]

theorem Resting.foldlM (hclosed : Closed children vertices) (hs : Resting children vertices s)
    {starts : List α} (hstarts : ∀ start ∈ starts, start ∈ vertices) :
    ∃ t, Resting children vertices t ∧
      (∀ fuel ≥ turnsBound children vertices,
        starts.foldlM (DepthFirst.searchFrom children fuel) s = some t) ∧
      (∀ start ∈ starts, t.color start = .done) ∧ ∀ v, s.color v = .done → t.color v = .done := by
  induction starts generalizing s with
  | nil => exact ⟨s, hs, fun _ _ ↦ rfl, fun _ hmem ↦ absurd hmem not_mem_nil, fun _ hv ↦ hv⟩
  | cons start starts ih =>
    obtain ⟨t, ht, hfirst, hstart, hold⟩ := hs.searchFrom hclosed (hstarts start mem_cons_self)
    obtain ⟨u, hu, hothers, hrest, hkept⟩ :=
      ih ht fun other hother ↦ hstarts other (mem_cons_of_mem start hother)
    refine ⟨u, hu, fun fuel hfuel ↦ ?_, fun v hv ↦ ?_, fun v hv ↦ hkept v (hold v hv)⟩
    · rw [foldlM_cons, hfirst fuel hfuel]
      exact hothers fuel hfuel
    · cases List.mem_cons.mp hv with
      | inl hhead => exact hhead ▸ hkept start hstart
      | inr htail => exact hrest v htail

/-- **The searches from all vertices** end, and what they meet are cycles.  If they meet none, there
is none. -/
theorem exists_findCycles (hclosed : Closed children vertices) {starts : List α}
    (hstarts : ∀ v, v ∈ starts ↔ v ∈ vertices) : ∃ cycles,
      (∀ fuel ≥ turnsBound children vertices, findCycles children fuel starts = some cycles) ∧
      (∀ cycle ∈ cycles, IsCycle (fun v child ↦ child ∈ children v) cycle) ∧
      (cycles = [] → ∀ v ∈ vertices, ¬ TransGen (fun v child ↦ child ∈ children v) v v) := by
  obtain ⟨t, ht, hsearch, hdone, _⟩ :=
    resting_blank.foldlM hclosed fun start hstart ↦ (hstarts start).mp hstart
  refine ⟨t.cycles, fun fuel hfuel ↦ ?_, ht.sound, fun hnone v hv ↦ ?_⟩
  · rw [findCycles, hsearch fuel hfuel, Option.map_some]
  · exact not_transGen_of_acc (ht.grounded hnone v (hdone v ((hstarts v).mpr hv)))

end Invariant

end SoulSystem.Library.DepthFirst

namespace SoulSystem.Library

open List Function

variable {α β : Type*}

/-- All nodes, each one after the nodes that have an edge to it. -/
structure IsTopological (nodes : List α) (edge : α → α → Prop) (order : List α) : Prop where
  perm : order.Perm nodes
  forward : ∀ pre b post, order = pre ++ b :: post → ∀ a, edge a b → a ∈ pre

namespace IsTopological

variable {nodes order : List α} {edge : α → α → Prop}

theorem idxOf_lt [DecidableEq α] (horder : IsTopological nodes edge order) (hnodup : nodes.Nodup)
    {a b : α} (hedge : edge a b) (hb : b ∈ nodes) : order.idxOf a < order.idxOf b := by
  obtain ⟨pre, post, hsplit⟩ := append_of_mem (horder.perm.mem_iff.mpr hb)
  have ha : a ∈ pre := horder.forward pre b post hsplit a hedge
  have hnodup' : (pre ++ b :: post).Nodup := hsplit ▸ horder.perm.nodup_iff.mpr hnodup
  have hb' : b ∉ pre := fun hmem ↦
    disjoint_of_nodup_append hnodup' hmem mem_cons_self
  rw [hsplit, idxOf_append_of_mem ha, idxOf_append_of_notMem hb', idxOf_cons_self]
  exact idxOf_lt_length_of_mem ha

/-- A graph with a topological order has no cycle. -/
theorem acyclic (horder : IsTopological nodes edge order) (hnodup : nodes.Nodup)
    (hnodes : ∀ a b, edge a b → b ∈ nodes) (x : α) : ¬ Relation.TransGen edge x x := by
  classical
  have hlt : ∀ a b, Relation.TransGen edge a b → order.idxOf a < order.idxOf b := by
    intro a b hpath
    induction hpath with
    | single hedge => exact horder.idxOf_lt hnodup hedge (hnodes _ _ hedge)
    | tail _ hedge ih => exact ih.trans (horder.idxOf_lt hnodup hedge (hnodes _ _ hedge))
  exact fun hcycle ↦ lt_irrefl _ (hlt x x hcycle)

/-- A partial map of the nodes that edges lift along keeps the order topological. -/
theorem filterMap {f : α → Option β} {edge' : β → β → Prop} (horder : IsTopological nodes edge order)
    (hlift : ∀ j b, f j = some b → ∀ a, edge' a b → ∃ i, edge i j ∧ f i = some a) :
    IsTopological (nodes.filterMap f) edge' (order.filterMap f) where
  perm := horder.perm.filterMap f
  forward pre b post hsplit a hedge := by
    obtain ⟨front, back, rfl, hfront, hback⟩ := List.filterMap_eq_append_iff.mp hsplit
    obtain ⟨skipped, j, rest, rfl, hskipped, hj, _⟩ := List.filterMap_eq_cons_iff.mp hback
    obtain ⟨i, hi, hf⟩ := hlift j b hj a hedge
    have hbefore : i ∈ front ++ skipped := horder.forward (front ++ skipped) j rest
      (append_assoc front skipped (j :: rest)).symm i hi
    cases List.mem_append.mp hbefore with
    | inl hmem =>
      rw [← hfront]
      exact List.mem_filterMap.mpr ⟨i, hmem, hf⟩
    | inr hmem =>
      rw [hskipped i hmem] at hf
      cases hf

end IsTopological

end SoulSystem.Library
