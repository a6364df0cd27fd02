import SoulSystem.Ccos.Memory.Arithmetic
import SoulSystem.Ccos.Memory.EdgeIndex
import SoulSystem.Library.Loop
import Mathlib.Data.List.Destutter

/-!
# Beliefs and their propagation

The belief of a claim is folded over its incoming evidence.  A sweep collects one derived edge for
every resolved cause, sorts them, drops repetitions and offers them to `add_edge`; sweeps are
repeated until one adds nothing.

An edge that is offered a second time is refused, also by an index that was out of step at first,
because an index that holds a key never loses it as long as edges are only added.  So each cause
contributes at most one edge for each polarity, whatever the beliefs do in between.
-/

namespace SoulSystem.Ccos.Memory

open Library Loop List

/-! ## Arithmetic -/

/-- How weights are added, subtracted, multiplied and divided, and their square roots. -/
structure WeightArithmetic where
  add : F64 → F64 → F64
  sub : F64 → F64 → F64
  mul : F64 → F64 → F64
  div : F64 → F64 → F64
  sqrt : F64 → F64

namespace WeightArithmetic

/-- An operation without rounding. -/
def unrounded (op : ℚ → ℚ → ℚ) (special : F64 → F64 → F64) : F64 → F64 → F64
  | .finite a, .finite b => .finite (op a b)
  | a, b => special a b

/-- Weights as exact rationals. -/
def exact (sqrt : F64 → F64) : WeightArithmetic where
  add := unrounded (· + ·) F64.add
  sub := unrounded (· - ·) fun a b ↦ F64.add a (F64.mul (.finite (-1)) b)
  mul := unrounded (· * ·) F64.mul
  div a b := if b = .finite 0 then F64.div a b else unrounded (· / ·) F64.div a b
  sqrt := sqrt

end WeightArithmetic

/-! ## Beliefs -/

structure QBelief where
  support : F64
  contradiction : F64
  belief : F64
  conflict : F64

/-- The strength of the neutral prior. -/
def beliefEps : F64 := .finite 1

/-- A derived edge: source, target, whether it supports, and its weight. -/
abbrev Derivation := Str × Str × Bool × F64

namespace Derivation

def edgeType (d : Derivation) : EdgeType := if d.2.2.1 then .supports else .contradicts

/-- The part of a derivation that counts for repetitions. -/
def key (d : Derivation) : Str × Str × Bool := (d.1, d.2.1, d.2.2.1)

def triple (d : Derivation) : Triple := (d.1, d.2.1, d.edgeType)

/-- The order of the keys. -/
def Le (a b : Derivation) : Prop :=
  (((compare a.1 b.1).then (compare a.2.1 b.2.1)).then (compare a.2.2.1 b.2.2.1)).isLE

instance : DecidableRel Le := fun _ _ ↦ inferInstanceAs (Decidable (_ = true))

end Derivation

namespace MemoryGraph

variable (arith : WeightArithmetic)

def beliefFromSums (support contradiction : F64) : QBelief :=
  let denom := arith.add (arith.add support contradiction) beliefEps
  { support
    contradiction
    belief := arith.div (arith.sub support contradiction) denom
    conflict := arith.div (arith.mul (.finite 2) (arith.sqrt (arith.mul support contradiction)))
      denom }

/-- One edge of the fold over the evidence, with the two sums so far. -/
def addEvidence (claim : Str) (sums : F64 × F64) (edge : GraphEdge) : F64 × F64 :=
  if edge.target = claim then
    match edge.edgeType with
    | .supports => (arith.add sums.1 edge.weight, sums.2)
    | .contradicts => (sums.1, arith.add sums.2 edge.weight)
    | _ => sums
  else
    sums

def qbelief (g : MemoryGraph) (claim : Str) : QBelief :=
  let sums := g.edges.foldl (addEvidence arith claim) (.finite 0, .finite 0)
  beliefFromSums arith sums.1 sums.2

/-! ## Propagation -/

/-- The edge that a resolved cause derives. -/
def derive (g : MemoryGraph) (resolveThreshold damping : F64) (edge : GraphEdge) :
    Option Derivation :=
  if edge.edgeType ≠ .causes ∨ edge.source = edge.target then none
  else
    let belief := (qbelief arith g edge.source).belief
    if belief.abs.lt resolveThreshold then none
    else
      let supports := F64.lt (.finite 0) belief
      let certainty := belief.abs
      some (edge.source, edge.target, supports,
        arith.mul (arith.mul edge.weight damping) certainty)

/-- The derived edges in the order of their keys, the first of each key. -/
def toAdd (g : MemoryGraph) (resolveThreshold damping : F64) : List Derivation :=
  ((g.edges.filterMap (derive arith g resolveThreshold damping)).insertionSort
    Derivation.Le).destutter fun a b ↦ a.key ≠ b.key

/-- A derived edge offered, with the number of those that were added. -/
def addDerived (state : MemoryGraph × ℕ) (d : Derivation) : MemoryGraph × ℕ :=
  let added := state.1.addEdge d.1 d.2.1 d.2.2.2 d.edgeType
  (added.1, if added.2 then state.2 + 1 else state.2)

def propagateBeliefs (resolveThreshold damping : F64) (g : MemoryGraph) : MemoryGraph × ℕ :=
  let resolveThreshold := resolveThreshold.clamp (.finite 0) (.finite 1)
  let damping := damping.clamp (.finite 0) (.finite 1)
  (toAdd arith g resolveThreshold damping).foldl addDerived (g, 0)

def propagateBeliefsConverge (resolveThreshold damping : F64) (maxRounds : ℕ) (g : MemoryGraph) :
    MemoryGraph × ℕ :=
  untilQuiet (propagateBeliefs arith resolveThreshold damping) maxRounds g

/-! ## Keys that were offered -/

/-- A key that the index and the edge list hold. -/
def Held (g : MemoryGraph) (key : Triple) : Prop := key ∈ g.edgeSet ∧ key ∈ triples g.edges

/-- What an offer does, in whatever state the index is. -/
theorem addEdge_cases (g : MemoryGraph) (source target : Str) (weight : F64) (edgeType : EdgeType) :
    (∃ index, (index = g.edgeSet ∨ index = refreshedIndex g) ∧
      addEdge g source target weight edgeType = ({ g with edgeSet := index }, false)) ∨
    ((source, target, edgeType) ∉ refreshedIndex g ∧
      addEdge g source target weight edgeType = ({ g with
        edgeSet := insert (source, target, edgeType) (refreshedIndex g)
        edges := g.edges ++ [{ source, target, weight, edgeType, createdAt := g.clock }] }, true)) := by
  unfold addEdge
  simp only []
  split
  · exact .inl ⟨g.edgeSet, .inl rfl, rfl⟩
  · split
    · exact .inl ⟨refreshedIndex g, .inr rfl, rfl⟩
    · rename_i hfree
      exact .inr ⟨hfree, rfl⟩

theorem Held.mem_refreshedIndex {g : MemoryGraph} {key : Triple} (hheld : g.Held key) :
    key ∈ refreshedIndex g := by
  unfold refreshedIndex
  split
  · exact hheld.2
  · exact hheld.1

/-- A graph that additions with keys from a set lead to: what it has more, and each key once. -/
structure Extends (keys : Finset Triple) (g h : MemoryGraph) (new : List GraphEdge) : Prop where
  nodes : h.nodes = g.nodes
  edges : h.edges = g.edges ++ new
  held : ∀ key, g.Held key → h.Held key
  distinct : (new.map GraphEdge.triple).Nodup
  fresh : ∀ edge ∈ new, edge.triple ∈ keys ∧ ¬ g.Held edge.triple ∧ h.Held edge.triple

namespace Extends

variable {keys : Finset Triple} {g h k : MemoryGraph} {new more : List GraphEdge}

theorem refl (keys : Finset Triple) (g : MemoryGraph) : Extends keys g g [] where
  nodes := rfl
  edges := (append_nil _).symm
  held _ hkey := hkey
  distinct := nodup_nil
  fresh _ hedge := absurd hedge not_mem_nil

theorem trans (hgh : Extends keys g h new) (hhk : Extends keys h k more) :
    Extends keys g k (new ++ more) where
  nodes := hhk.nodes.trans hgh.nodes
  edges := by rw [hhk.edges, hgh.edges, append_assoc]
  held key hkey := hhk.held key (hgh.held key hkey)
  distinct := by
    rw [map_append, nodup_append]
    refine ⟨hgh.distinct, hhk.distinct, ?_⟩
    rintro key hkey _ hlater rfl
    obtain ⟨edge, hedge, hsame⟩ := List.mem_map.mp hkey
    obtain ⟨later, hmem, rfl⟩ := List.mem_map.mp hlater
    exact (hhk.fresh later hmem).2.1 (hsame ▸ (hgh.fresh edge hedge).2.2)
  fresh edge hedge := by
    cases List.mem_append.mp hedge with
    | inl hnew =>
      obtain ⟨hkey, hfree, hheld⟩ := hgh.fresh edge hnew
      exact ⟨hkey, hfree, hhk.held _ hheld⟩
    | inr hmore =>
      obtain ⟨hkey, hfree, hheld⟩ := hhk.fresh edge hmore
      exact ⟨hkey, fun hold ↦ hfree (hgh.held _ hold), hheld⟩

/-- One offer adds one edge or none. -/
theorem addEdge (g : MemoryGraph) {source target : Str} {edgeType : EdgeType} (weight : F64)
    (hkey : (source, target, edgeType) ∈ keys) :
    ∃ new, Extends keys g (g.addEdge source target weight edgeType).1 new ∧
      new.length = if (g.addEdge source target weight edgeType).2 then 1 else 0 := by
  cases addEdge_cases g source target weight edgeType with
  | inl hrefused =>
    obtain ⟨index, hindex, hadd⟩ := hrefused
    rw [hadd]
    refine ⟨[], ⟨rfl, (append_nil _).symm, fun key hheld ↦ ⟨?_, hheld.2⟩, nodup_nil,
      fun _ hedge ↦ absurd hedge not_mem_nil⟩, rfl⟩
    cases hindex with
    | inl hsame => exact hsame ▸ hheld.1
    | inr hrefreshed => exact hrefreshed ▸ hheld.mem_refreshedIndex
  | inr hadded =>
    obtain ⟨hfree, hadd⟩ := hadded
    rw [hadd]
    refine ⟨[⟨source, target, weight, edgeType, g.clock⟩], ⟨rfl, rfl, fun key hheld ↦ ?_,
      nodup_singleton _, fun edge hedge ↦ ?_⟩, rfl⟩
    · refine ⟨Finset.mem_insert_of_mem hheld.mem_refreshedIndex, ?_⟩
      rw [triples_append]
      exact Finset.mem_insert_of_mem hheld.2
    · rw [List.mem_singleton.mp hedge]
      refine ⟨hkey, fun hheld ↦ hfree hheld.mem_refreshedIndex, Finset.mem_insert_self _ _, ?_⟩
      rw [triples_append]
      exact Finset.mem_insert_self _ _

/-- Offers in turn add as many edges as they count. -/
theorem foldl_addDerived {offers : List Derivation} (hoffers : ∀ d ∈ offers, d.triple ∈ keys)
    (state : MemoryGraph × ℕ) :
    ∃ new, Extends keys state.1 (offers.foldl addDerived state).1 new ∧
      (offers.foldl addDerived state).2 = state.2 + new.length := by
  induction offers generalizing state with
  | nil => exact ⟨[], refl keys state.1, rfl⟩
  | cons d offers ih =>
    obtain ⟨first, hfirst, hcount⟩ := addEdge state.1 d.2.2.2 (hoffers d mem_cons_self)
    obtain ⟨more, hmore, htotal⟩ :=
      ih (fun later hlater ↦ hoffers later (mem_cons_of_mem d hlater)) (addDerived state d)
    refine ⟨first ++ more, hfirst.trans hmore, htotal.trans ?_⟩
    rw [length_append, hcount, addDerived]
    simp only []
    split <;> omega

/-- There are not more additions than keys. -/
theorem length_le (hext : Extends keys g h new) : new.length ≤ keys.card := by
  rw [← length_map GraphEdge.triple, ← toFinset_card_of_nodup hext.distinct]
  refine Finset.card_le_card fun key hkey ↦ ?_
  obtain ⟨edge, hedge, rfl⟩ := List.mem_map.mp (List.mem_toFinset.mp hkey)
  exact (hext.fresh edge hedge).1

end Extends

/-! ## Causes -/

/-- A cause and its effect, if an edge is about two different nodes. -/
def causePair (edge : GraphEdge) : Option (Str × Str) :=
  if edge.edgeType ≠ .causes ∨ edge.source = edge.target then none
  else some (edge.source, edge.target)

/-- The distinct pairs of a cause and its effect. -/
def causePairs (g : MemoryGraph) : Finset (Str × Str) := (g.edges.filterMap causePair).toFinset

/-- The keys of both polarities for all pairs. -/
def derivedKeys (g : MemoryGraph) : Finset Triple :=
  (g.causePairs ×ˢ {EdgeType.supports, EdgeType.contradicts}).image fun key ↦
    (key.1.1, key.1.2, key.2)

/-- The number of edges from causes. -/
def causesCount (g : MemoryGraph) : ℕ := (g.edges.filter fun edge ↦ edge.edgeType = .causes).length

theorem card_derivedKeys_le (g : MemoryGraph) : g.derivedKeys.card ≤ 2 * g.causePairs.card := by
  refine Finset.card_image_le.trans ?_
  rw [Finset.card_product, mul_comm]
  exact Nat.mul_le_mul_right _ Finset.card_le_two

theorem card_causePairs_le (g : MemoryGraph) : g.causePairs.card ≤ g.causesCount := by
  refine (toFinset_card_le _).trans ?_
  rw [causesCount]
  induction g.edges with
  | nil => exact le_rfl
  | cons edge edges ih =>
    rw [filterMap_cons, filter_cons]
    cases hpair : causePair edge with
    | none =>
      refine ih.trans ?_
      split
      · exact Nat.le_succ _
      · exact le_rfl
    | some pair =>
      have hcauses : edge.edgeType = .causes := by
        by_contra hother
        rw [causePair, if_pos (.inl hother)] at hpair
        cases hpair
      rw [if_pos (decide_eq_true hcauses), length_cons, length_cons]
      exact Nat.succ_le_succ ih

/-- What is derived has the key of a cause and its effect. -/
theorem triple_mem_derivedKeys {arith : WeightArithmetic} {g : MemoryGraph} {threshold damping : F64}
    {edge : GraphEdge} {d : Derivation} (hedge : edge ∈ g.edges)
    (hderive : derive arith g threshold damping edge = some d) : d.triple ∈ g.derivedKeys := by
  unfold derive at hderive
  simp only [] at hderive
  split at hderive
  · cases hderive
  · rename_i hcause
    split at hderive
    · cases hderive
    · cases hderive
      have hpair : causePair edge = some (edge.source, edge.target) := if_neg hcause
      have hmem : (edge.source, edge.target) ∈ g.causePairs :=
        List.mem_toFinset.mpr (List.mem_filterMap.mpr ⟨edge, hedge, hpair⟩)
      refine Finset.mem_image.mpr ⟨((edge.source, edge.target), _),
        Finset.mem_product.mpr ⟨hmem, ?_⟩, rfl⟩
      rw [Finset.mem_insert, Finset.mem_singleton]
      exact ite_eq_or_eq _ _ _

theorem toAdd_triple {arith : WeightArithmetic} {g : MemoryGraph} {threshold damping : F64} :
    ∀ d ∈ toAdd arith g threshold damping, d.triple ∈ g.derivedKeys := by
  intro d hd
  have hsorted := (destutter_sublist _ _).subset hd
  obtain ⟨edge, hedge, hderive⟩ := List.mem_filterMap.mp ((mem_insertionSort _).mp hsorted)
  exact triple_mem_derivedKeys hedge hderive

/-- Derived edges are no causes. -/
theorem Extends.derivedKeys_eq {g h : MemoryGraph} {new : List GraphEdge}
    (hext : Extends g.derivedKeys g h new) : h.derivedKeys = g.derivedKeys := by
  have hnone : new.filterMap causePair = [] := by
    rw [filterMap_eq_nil_iff]
    intro edge hedge
    obtain ⟨key, hkey, hsame⟩ := Finset.mem_image.mp (hext.fresh edge hedge).1
    have htype := (Finset.mem_product.mp hkey).2
    rw [congrArg (fun key : Triple ↦ key.2.2) hsame, Finset.mem_insert, Finset.mem_singleton] at htype
    refine if_pos (.inl fun hcauses ↦ ?_)
    have hsameType : edge.triple.2.2 = .causes := hcauses
    rw [hsameType] at htype
    cases htype with
    | inl heq => cases heq
    | inr heq => cases heq
  rw [derivedKeys, derivedKeys, causePairs, causePairs, hext.edges, filterMap_append, hnone,
    append_nil]

/-! ## The fixpoint -/

/-- Graphs that offers cannot tell apart. -/
structure Alike (g h : MemoryGraph) : Prop where
  nodes : h.nodes = g.nodes
  edges : h.edges = g.edges
  index : refreshedIndex h = refreshedIndex g

theorem Alike.trans {g h k : MemoryGraph} (hgh : Alike g h) (hhk : Alike h k) : Alike g k :=
  ⟨hhk.nodes.trans hgh.nodes, hhk.edges.trans hgh.edges, hhk.index.trans hgh.index⟩

/-- An index that was refreshed stays as it is. -/
theorem refreshedIndex_refreshed (g : MemoryGraph) :
    refreshedIndex { g with edgeSet := refreshedIndex g } = refreshedIndex g := by
  by_cases hcard : g.edgeSet.card ≠ g.edges.length
  · have hindex : refreshedIndex g = triples g.edges := if_pos hcard
    rw [hindex]
    exact ite_self _
  · have hindex : refreshedIndex g = g.edgeSet := if_neg hcard
    rw [hindex]
    exact hindex

theorem Alike.of_refused {g : MemoryGraph} {source target : Str} {weight : F64} {edgeType : EdgeType}
    (hrefused : (addEdge g source target weight edgeType).2 = false) :
    Alike g (addEdge g source target weight edgeType).1 := by
  cases addEdge_cases g source target weight edgeType with
  | inl hkept =>
    obtain ⟨index, hindex, hadd⟩ := hkept
    rw [hadd]
    refine ⟨rfl, rfl, ?_⟩
    cases hindex with
    | inl hsame => rw [hsame]
    | inr hrefreshed => rw [hrefreshed, refreshedIndex_refreshed]
  | inr hadded =>
    rw [hadded.2] at hrefused
    cases hrefused

theorem Alike.snd_addEdge {g h : MemoryGraph} (halike : Alike g h) (source target : Str)
    (weight : F64) (edgeType : EdgeType) :
    (addEdge h source target weight edgeType).2 = (addEdge g source target weight edgeType).2 := by
  unfold addEdge
  simp only [halike.nodes, halike.index]
  split
  · rfl
  · split
    · rfl
    · rfl

theorem le_foldl_addDerived (offers : List Derivation) (state : MemoryGraph × ℕ) :
    state.2 ≤ (offers.foldl addDerived state).2 := by
  induction offers generalizing state with
  | nil => exact le_rfl
  | cons d offers ih =>
    refine le_trans ?_ (ih (addDerived state d))
    rw [addDerived]
    simp only []
    split
    · exact Nat.le_succ _
    · exact le_rfl

/-- Offers that are all refused are refused again, and leave nothing that offers could tell. -/
theorem foldl_addDerived_refused {offers : List Derivation} {g h : MemoryGraph}
    (halike : Alike g h) (hnone : (offers.foldl addDerived (g, 0)).2 = 0) :
    Alike g (offers.foldl addDerived (g, 0)).1 ∧ (offers.foldl addDerived (h, 0)).2 = 0 := by
  induction offers generalizing g h with
  | nil => exact ⟨⟨rfl, rfl, rfl⟩, rfl⟩
  | cons d offers ih =>
    have hrefused : (g.addEdge d.1 d.2.1 d.2.2.2 d.edgeType).2 = false := by
      by_contra hadded
      have hone : (addDerived (g, 0) d).2 = 1 := if_pos (Bool.not_eq_false _ ▸ hadded)
      have hle := le_foldl_addDerived offers (addDerived (g, 0) d)
      rw [foldl_cons] at hnone
      omega
    have hstep : ∀ k : MemoryGraph, Alike g k → addDerived (k, 0) d =
        ((k.addEdge d.1 d.2.1 d.2.2.2 d.edgeType).1, 0) := by
      intro k hk
      rw [addDerived, hk.snd_addEdge, hrefused]
      rfl
    have hself : Alike g g := ⟨rfl, rfl, rfl⟩
    have hafter := Alike.of_refused hrefused
    have hother : Alike h (h.addEdge d.1 d.2.1 d.2.2.2 d.edgeType).1 :=
      Alike.of_refused ((halike.snd_addEdge _ _ _ _).trans hrefused)
    have hboth : Alike (g.addEdge d.1 d.2.1 d.2.2.2 d.edgeType).1
        (h.addEdge d.1 d.2.1 d.2.2.2 d.edgeType).1 := by
      refine ⟨?_, ?_, ?_⟩
      · rw [hother.nodes, halike.nodes, hafter.nodes]
      · rw [hother.edges, halike.edges, hafter.edges]
      · rw [hother.index, halike.index, hafter.index]
    rw [foldl_cons, hstep g hself] at hnone ⊢
    obtain ⟨hkept, hagain⟩ := ih hboth hnone
    refine ⟨hafter.trans hkept, ?_⟩
    rw [foldl_cons, hstep h halike]
    exact hagain

variable {arith : WeightArithmetic} {threshold damping : F64}

theorem toAdd_congr {g h : MemoryGraph} (hedges : h.edges = g.edges) :
    toAdd arith h threshold damping = toAdd arith g threshold damping := by
  have hbelief : qbelief arith h = qbelief arith g := by
    funext claim
    rw [qbelief, qbelief, hedges]
  have hderive : derive arith h threshold damping = derive arith g threshold damping := by
    funext edge
    rw [derive, derive, hbelief]
  rw [toAdd, toAdd, hedges, hderive]

/-- A sweep after one that adds nothing adds nothing, and leaves the edges alone. -/
theorem propagateBeliefs_quiet {g : MemoryGraph}
    (hnone : (propagateBeliefs arith threshold damping g).2 = 0) :
    (propagateBeliefs arith threshold damping g).1.edges = g.edges ∧
      (propagateBeliefs arith threshold damping (propagateBeliefs arith threshold damping g).1).2 =
        0 := by
  have hafter : Alike g (propagateBeliefs arith threshold damping g).1 :=
    (foldl_addDerived_refused ⟨rfl, rfl, rfl⟩ hnone).1
  refine ⟨hafter.edges, ?_⟩
  rw [propagateBeliefs, toAdd_congr hafter.edges]
  exact (foldl_addDerived_refused hafter hnone).2

/-- A sweep adds edges with keys of causes and their effects. -/
theorem exists_propagateBeliefs (g : MemoryGraph) :
    ∃ new, Extends g.derivedKeys g (propagateBeliefs arith threshold damping g).1 new ∧
      (propagateBeliefs arith threshold damping g).2 = new.length := by
  obtain ⟨new, hext, hcount⟩ := Extends.foldl_addDerived
    (@toAdd_triple arith g (threshold.clamp (.finite 0) (.finite 1))
      (damping.clamp (.finite 0) (.finite 1))) (g, 0)
  exact ⟨new, hext, hcount.trans (Nat.zero_add _)⟩

theorem exists_propagateBeliefsConverge (maxRounds : ℕ) (g : MemoryGraph) :
    ∃ new, Extends g.derivedKeys g
        (propagateBeliefsConverge arith threshold damping maxRounds g).1 new ∧
      (propagateBeliefsConverge arith threshold damping maxRounds g).2 = new.length := by
  induction maxRounds generalizing g with
  | zero => exact ⟨[], Extends.refl _ g, rfl⟩
  | succ maxRounds ih =>
    obtain ⟨first, hfirst, hcount⟩ := @exists_propagateBeliefs arith threshold damping g
    by_cases hnone : (propagateBeliefs arith threshold damping g).2 = 0
    · rw [propagateBeliefsConverge, untilQuiet, if_pos hnone]
      exact ⟨first, hfirst, hnone.symm.trans hcount⟩
    · obtain ⟨more, hmore, htotal⟩ := ih (propagateBeliefs arith threshold damping g).1
      rw [hfirst.derivedKeys_eq] at hmore
      rw [propagateBeliefsConverge, untilQuiet, if_neg hnone]
      refine ⟨first ++ more, hfirst.trans hmore, ?_⟩
      rw [length_append, ← hcount, ← htotal]
      rfl

/-- **Beliefs reach a fixpoint.**  With enough rounds the propagation ends where a further sweep
adds no edge.  It appends edges only, at most one of each polarity for each pair of a cause and
its effect. -/
theorem propagateBeliefsConverge_fixpoint (arith : WeightArithmetic) (threshold damping : F64)
    (g : MemoryGraph) {maxRounds : ℕ} (hrounds : 2 * g.causesCount + 1 ≤ maxRounds) :
    ∃ h new, propagateBeliefsConverge arith threshold damping maxRounds g = (h, new.length) ∧
      h.edges = g.edges ++ new ∧ (new.map GraphEdge.triple).Nodup ∧
      (∀ edge ∈ new, edge.triple ∈ g.derivedKeys) ∧ new.length ≤ 2 * g.causePairs.card ∧
      (propagateBeliefs arith threshold damping h).2 = 0 ∧
      (propagateBeliefs arith threshold damping h).1.edges = h.edges := by
  obtain ⟨new, hext, hcount⟩ :=
    @exists_propagateBeliefsConverge arith threshold damping maxRounds g
  have hpairs : new.length ≤ 2 * g.causePairs.card := hext.length_le.trans (card_derivedKeys_le g)
  have hfew : (propagateBeliefsConverge arith threshold damping maxRounds g).2 < maxRounds := by
    have hcauses := card_causePairs_le g
    omega
  have hquiet := (@quiet_or_rounds_le _ (propagateBeliefs arith threshold damping)
    (fun _ hnone ↦ (propagateBeliefs_quiet hnone).2) maxRounds g).resolve_right (not_le.mpr hfew)
  refine ⟨_, new, Prod.ext rfl hcount, hext.edges, hext.distinct,
    fun edge hedge ↦ (hext.fresh edge hedge).1, hpairs, hquiet, ?_⟩
  exact (propagateBeliefs_quiet hquiet).1

/-- Two claims that cause each other, one of them with evidence of its own. -/
def mutualCauses : MemoryGraph :=
  let node (id : Str) : GraphNode := freshNode id [] [] .unknown 0
  let edge (source target : Str) (edgeType : EdgeType) : GraphEdge :=
    { source, target, weight := .finite 1, edgeType, createdAt := 0 }
  { MemoryGraph.new 3 with
    nodes := (Std.ExtTreeMap.empty.insert ['a'] (node ['a'])).insert ['b'] (node ['b'])
    edges := [edge ['b'] ['a'] .supports, edge ['a'] ['b'] .causes, edge ['b'] ['a'] .causes] }

theorem propagateBeliefsConverge_fixpoint_mutualCauses : ∃ h new,
    propagateBeliefsConverge (.exact id) (.finite (1 / 4)) (.finite (9 / 10)) 5 mutualCauses =
        (h, new.length) ∧
      h.edges = mutualCauses.edges ++ new ∧ (new.map GraphEdge.triple).Nodup ∧
      (∀ edge ∈ new, edge.triple ∈ mutualCauses.derivedKeys) ∧
      new.length ≤ 2 * mutualCauses.causePairs.card ∧
      (propagateBeliefs (.exact id) (.finite (1 / 4)) (.finite (9 / 10)) h).2 = 0 ∧
      (propagateBeliefs (.exact id) (.finite (1 / 4)) (.finite (9 / 10)) h).1.edges = h.edges :=
  propagateBeliefsConverge_fixpoint (.exact id) (.finite (1 / 4)) (.finite (9 / 10)) mutualCauses
    (by decide)

end MemoryGraph

end SoulSystem.Ccos.Memory
