import Mathlib.Data.Nat.Bitwise
import Mathlib.Tactic

/-!
# Merkle trees

The leaves of a tree of some height are paired up level by level to its root.  A path of siblings
leads from each leaf to the root.  When no two pairs that are combined have one result, and no leaf
is such a result, any path that leads to the root has the height of the tree and starts at the leaf
of its index.
-/

namespace SoulSystem.Library.MerkleTree

open List

variable {H : Type*} (node : H → H → H)

/-! ## Levels -/

/-- The entry at a position of a level over the leaves. -/
def entry (leaf : ℕ → H) : ℕ → ℕ → H
  | 0, k => leaf k
  | level + 1, k => node (entry leaf level (2 * k)) (entry leaf level (2 * k + 1))

/-- The level above a level of even length. -/
def pairUp : List H → List H
  | left :: right :: rest => node left right :: pairUp rest
  | _ => []

theorem length_pairUp (cur : List H) : (pairUp node cur).length = cur.length / 2 := by
  fun_induction pairUp node cur with
  | case1 left right rest ih =>
    rw [length_cons, ih, length_cons, length_cons]
    omega
  | case2 cur hshort =>
    cases cur with
    | nil => exact (Nat.zero_div 2).symm
    | cons left rest =>
      cases rest with
      | nil => exact (Nat.div_eq_of_lt Nat.one_lt_two).symm
      | cons right rest => exact absurd rfl (hshort left right rest)

/-- A level and those above it, up to the one with a single entry. -/
def levels (cur : List H) : List (List H) :=
  if 1 < cur.length then cur :: levels (pairUp node cur) else [cur]
termination_by cur.length
decreasing_by
  rw [length_pairUp]
  omega

/-- The entries of a level of a tree. -/
def level (leaf : ℕ → H) (height l : ℕ) : List H :=
  (List.range (2 ^ (height - l))).map (entry node leaf l)

variable {leaf : ℕ → H} {height l idx : ℕ}

theorem pairUp_range (f : ℕ → H) (n : ℕ) :
    pairUp node ((List.range (2 * n)).map f) =
      (List.range n).map fun k ↦ node (f (2 * k)) (f (2 * k + 1)) := by
  induction n generalizing f with
  | zero => rfl
  | succ n ih =>
    have htwo : 2 * (n + 1) = 2 * n + 1 + 1 := by
      ring
    have hshift := ih fun k ↦ f (k + 2)
    rw [htwo, range_succ_eq_map, range_succ_eq_map, range_succ_eq_map]
    simp only [map_cons, map_map, pairUp, List.cons.injEq]
    exact ⟨trivial, hshift⟩

theorem pairUp_level (hl : l < height) :
    pairUp node (level node leaf height l) = level node leaf height (l + 1) := by
  have hpow : 2 ^ (height - l) = 2 * 2 ^ (height - (l + 1)) := by
    rw [← pow_succ']
    congr 1
    omega
  rw [level, hpow, pairUp_range]
  rfl

theorem levels_level (hl : l ≤ height) : levels node (level node leaf height l) =
    (List.range (height + 1 - l)).map fun j ↦ level node leaf height (l + j) := by
  induction hn : height - l generalizing l with
  | zero =>
    have hlast : height + 1 - l = 1 := by
      omega
    have hone : (level node leaf height l).length = 1 := by
      rw [level, length_map, length_range, hn, pow_zero]
    rw [levels, hone, if_neg (lt_irrefl 1), hlast]
    rfl
  | succ n ih =>
    have hmore : 1 < (level node leaf height l).length := by
      rw [level, length_map, length_range, hn]
      exact Nat.one_lt_two_pow (Nat.succ_ne_zero n)
    have hcount : height + 1 - l = height + 1 - (l + 1) + 1 := by
      omega
    rw [levels, if_pos hmore, pairUp_level node (by omega), ih (by omega) (by omega), hcount,
      range_succ_eq_map, map_cons, map_map]
    congr 1
    refine map_congr_left fun j _ ↦ ?_
    rw [Function.comp_apply, Nat.succ_eq_add_one, add_assoc, add_comm 1 j]

theorem levels_getElem? (hl : l ≤ height) :
    (levels node (level node leaf height 0))[l]? = some (level node leaf height l) := by
  rw [levels_level node (Nat.zero_le height), getElem?_map,
    getElem?_range (by omega), Option.map_some, zero_add]

theorem level_getElem? (hidx : idx < 2 ^ (height - l)) :
    (level node leaf height l)[idx]? = some (entry node leaf l idx) := by
  rw [level, getElem?_map, getElem?_range hidx, Option.map_some]

/-! ## Paths -/

/-- The pair that is combined at an index. -/
def ordered (x : H) (idx : ℕ) (sibling : H) : H × H :=
  if idx &&& 1 = 0 then (x, sibling) else (sibling, x)

/-- The entry that a path of siblings leads to. -/
def climb (x : H) (idx : ℕ) : List H → H
  | [] => x
  | sibling :: path =>
    climb (node (ordered x idx sibling).1 (ordered x idx sibling).2) (idx >>> 1) path

/-- The pairs that are combined on the way. -/
def climbed (x : H) (idx : ℕ) : List H → List (H × H)
  | [] => []
  | sibling :: path => ordered x idx sibling ::
      climbed (node (ordered x idx sibling).1 (ordered x idx sibling).2) (idx >>> 1) path

/-- The siblings from a level on, if the levels have them. -/
def siblings (levels : List (List H)) : ℕ → ℕ → ℕ → Option (List H)
  | 0, _, _ => some []
  | steps + 1, l, idx =>
    (levels[l]?.bind fun entries ↦ entries[idx ^^^ 1]?).bind fun sibling ↦
      (siblings levels steps (l + 1) (idx >>> 1)).map fun path ↦ sibling :: path

theorem entry_ordered (l idx : ℕ) :
    node (ordered (entry node leaf l idx) idx (entry node leaf l (idx ^^^ 1))).1
      (ordered (entry node leaf l idx) idx (entry node leaf l (idx ^^^ 1))).2 =
      entry node leaf (l + 1) (idx >>> 1) := by
  have hxor : idx ^^^ 1 = if idx % 2 = 0 then idx + 1 else idx - 1 := by
    split
    case isTrue heven => exact Nat.xor_one_of_even (Nat.even_iff.mpr heven)
    case isFalse hodd => exact Nat.xor_one_of_odd (Nat.not_even_iff_odd.mp (mt Nat.even_iff.mp hodd))
  rw [ordered, Nat.and_one_is_mod, hxor, entry, Nat.shiftRight_one]
  by_cases heven : idx % 2 = 0
  · have hhalf : 2 * (idx / 2) = idx := by
      omega
    rw [if_pos heven, if_pos heven, hhalf]
  · have hhalf : 2 * (idx / 2) = idx - 1 := by
      omega
    have hnext : idx - 1 + 1 = idx := by
      omega
    rw [if_neg heven, if_neg heven, hhalf, hnext]

variable (leaf) in
/-- The path from any entry leads to the root. -/
theorem climb_siblings {steps : ℕ} (hl : l + steps = height) (hidx : idx < 2 ^ steps) :
    ∃ path, siblings (levels node (level node leaf height 0)) steps l idx = some path ∧
      path.length = steps ∧ climb node (entry node leaf l idx) idx path = entry node leaf height 0 := by
  induction steps generalizing l idx with
  | zero =>
    have hzero : idx = 0 := Nat.lt_one_iff.mp hidx
    have hlast : l = height := hl
    rw [hzero, hlast]
    exact ⟨[], rfl, rfl, rfl⟩
  | succ steps ih =>
    have hhalf : idx >>> 1 < 2 ^ steps := by
      rw [Nat.shiftRight_one]
      omega
    have hsibling : idx ^^^ 1 < 2 ^ (height - l) := by
      rw [← hl, Nat.add_sub_cancel_left]
      exact Nat.xor_lt_two_pow hidx (Nat.one_lt_two_pow (Nat.succ_ne_zero steps))
    have hnext : l + 1 + steps = height := by
      omega
    obtain ⟨path, hpath, hlength, hclimb⟩ := ih hnext hhalf
    refine ⟨entry node leaf l (idx ^^^ 1) :: path, ?_, ?_, ?_⟩
    · rw [siblings, levels_getElem? node (by omega), Option.bind_some, level_getElem? node hsibling,
        Option.bind_some, hpath, Option.map_some]
    · rw [length_cons, hlength]
    · rw [climb, entry_ordered node]
      exact hclimb

/-- The siblings are entries of the levels below the root. -/
theorem mem_siblings {steps : ℕ} (hl : l + steps = height) (hidx : idx < 2 ^ steps) {path : List H}
    (hpath : siblings (levels node (level node leaf height 0)) steps l idx = some path) {x : H}
    (hx : x ∈ path) : ∃ l < height, ∃ k < 2 ^ (height - l), x = entry node leaf l k := by
  induction steps generalizing l idx path with
  | zero =>
    cases hpath
    exact absurd hx not_mem_nil
  | succ steps ih =>
    have hsibling : idx ^^^ 1 < 2 ^ (height - l) := by
      rw [← hl, Nat.add_sub_cancel_left]
      exact Nat.xor_lt_two_pow hidx (Nat.one_lt_two_pow (Nat.succ_ne_zero steps))
    have hhalf : idx >>> 1 < 2 ^ steps := by
      rw [Nat.shiftRight_one]
      omega
    rw [siblings, levels_getElem? node (by omega), Option.bind_some,
      level_getElem? node hsibling, Option.bind_some] at hpath
    obtain ⟨rest, hrest, hcons⟩ := Option.map_eq_some_iff.mp hpath
    rw [← hcons] at hx
    cases List.mem_cons.mp hx with
    | inl hhead => exact ⟨l, by omega, idx ^^^ 1, hsibling, hhead⟩
    | inr htail => exact ih (by omega) hhalf hrest htail

/-- The siblings from a level on, by their positions. -/
theorem siblings_eq {steps : ℕ} (hl : l + steps = height) (hidx : idx < 2 ^ steps) :
    siblings (levels node (level node leaf height 0)) steps l idx =
      some ((List.range steps).map fun j ↦ entry node leaf (l + j) ((idx >>> j) ^^^ 1)) := by
  induction steps generalizing l idx with
  | zero => rfl
  | succ steps ih =>
    have hhalf : idx >>> 1 < 2 ^ steps := by
      rw [Nat.shiftRight_one]
      omega
    have hsibling : idx ^^^ 1 < 2 ^ (height - l) := by
      rw [← hl, Nat.add_sub_cancel_left]
      exact Nat.xor_lt_two_pow hidx (Nat.one_lt_two_pow (Nat.succ_ne_zero steps))
    rw [siblings, levels_getElem? node (by omega), Option.bind_some, level_getElem? node hsibling,
      Option.bind_some, ih (by omega) hhalf, Option.map_some, range_succ_eq_map,
      map_cons, map_map]
    refine congrArg some (congrArg₂ List.cons rfl (map_congr_left fun j _ ↦ ?_))
    rw [Function.comp_apply, ← Nat.shiftRight_add, Nat.succ_eq_add_one, Nat.add_comm 1 j,
      Nat.add_right_comm l, Nat.add_assoc l]

/-! ## Paths of anyone -/

variable {x last : H} {path : List H}

theorem climb_concat : climb node x idx (path ++ [last]) =
    node (ordered (climb node x idx path) (idx >>> path.length) last).1
      (ordered (climb node x idx path) (idx >>> path.length) last).2 := by
  induction path generalizing x idx with
  | nil => rfl
  | cons sibling path ih =>
    rw [cons_append, climb, ih, length_cons, climb, ← Nat.shiftRight_add, add_comm 1]

theorem climbed_concat : climbed node x idx (path ++ [last]) = climbed node x idx path ++
    [ordered (climb node x idx path) (idx >>> path.length) last] := by
  induction path generalizing x idx with
  | nil => rfl
  | cons sibling path ih =>
    rw [cons_append, climbed, ih, length_cons, climbed, climb, ← Nat.shiftRight_add,
      add_comm 1, cons_append]

/-- The pairs that a path combines give no leaf, and the entry of a level only when they are the
pair below it, and the path starts at no such entry. -/
structure Separate (leaf : ℕ → H) (height : ℕ) (x : H) (pairs : List (H × H)) : Prop where
  pair : ∀ pair ∈ pairs, ∀ l < height, ∀ k < 2 ^ (height - (l + 1)),
    node pair.1 pair.2 = entry node leaf (l + 1) k →
      pair = (entry node leaf l (2 * k), entry node leaf l (2 * k + 1))
  apart : ∀ pair ∈ pairs, ∀ k < 2 ^ height, node pair.1 pair.2 ≠ leaf k
  start : ∀ l < height, ∀ k < 2 ^ (height - (l + 1)), x ≠ entry node leaf (l + 1) k

theorem Separate.of_append {pairs more : List (H × H)}
    (hseparate : Separate node leaf height x (pairs ++ more)) : Separate node leaf height x pairs where
  pair := fun pair hpair ↦ hseparate.pair pair (mem_append_left more hpair)
  apart := fun pair hpair ↦ hseparate.apart pair (mem_append_left more hpair)
  start := hseparate.start

/-- **A path that leads to an entry starts at the leaf below it that its index tells, and is as long
as the level is high.** -/
theorem eq_leaf_of_climb {k : ℕ} (hl : l ≤ height) (hk : k < 2 ^ (height - l))
    (hseparate : Separate node leaf height x (climbed node x idx path))
    (hclimb : climb node x idx path = entry node leaf l k) :
    path.length = l ∧ x = leaf (k * 2 ^ l + idx % 2 ^ l) := by
  induction path using List.reverseRecOn generalizing l k with
  | nil =>
    cases l with
    | zero =>
      rw [pow_zero, Nat.mod_one, mul_one, add_zero]
      exact ⟨rfl, hclimb⟩
    | succ l => exact absurd hclimb (hseparate.start l hl k hk)
  | append_singleton path last ih =>
    rw [climb_concat] at hclimb
    rw [climbed_concat] at hseparate
    have hmem : ordered (climb node x idx path) (idx >>> path.length) last ∈
        climbed node x idx path ++
          [ordered (climb node x idx path) (idx >>> path.length) last] :=
      mem_append_right _ mem_cons_self
    cases l with
    | zero => exact absurd hclimb (hseparate.apart _ hmem k hk)
    | succ l =>
      have hpair := hseparate.pair _ hmem l hl k hk hclimb
      have htwo : 2 ^ (height - l) = 2 * 2 ^ (height - (l + 1)) := by
        rw [← pow_succ']
        congr 1
        omega
      rw [ordered, Nat.and_one_is_mod] at hpair
      split at hpair
      case isTrue heven =>
        obtain ⟨hlength, hx⟩ := ih (by omega) (by omega) hseparate.of_append (Prod.mk.inj hpair).1
        rw [length_append, hlength]
        refine ⟨rfl, hx.trans (congrArg leaf ?_)⟩
        rw [hlength, Nat.shiftRight_eq_div_pow] at heven
        rw [Nat.mod_pow_succ, heven, pow_succ]
        ring
      case isFalse hodd =>
        obtain ⟨hlength, hx⟩ := ih (by omega) (by omega) hseparate.of_append (Prod.mk.inj hpair).2
        rw [length_append, hlength]
        refine ⟨rfl, hx.trans (congrArg leaf ?_)⟩
        rw [hlength, Nat.shiftRight_eq_div_pow] at hodd
        rw [Nat.mod_pow_succ, Nat.mod_two_ne_zero.mp hodd, pow_succ]
        ring

/-- A path that leads to an entry is made of the siblings on the way from its leaf. -/
theorem path_of_climb {k : ℕ} (hl : l ≤ height) (hk : k < 2 ^ (height - l))
    (hseparate : Separate node leaf height x (climbed node x idx path))
    (hclimb : climb node x idx path = entry node leaf l k) :
    path = (List.range l).map fun j ↦
      entry node leaf j (((k * 2 ^ l + idx % 2 ^ l) >>> j) ^^^ 1) := by
  induction path using List.reverseRecOn generalizing l k with
  | nil =>
    cases l with
    | zero => rfl
    | succ l => exact absurd hclimb (hseparate.start l hl k hk)
  | append_singleton path last ih =>
    have hlength := (eq_leaf_of_climb node hl hk hseparate hclimb).1
    rw [climb_concat] at hclimb
    rw [climbed_concat] at hseparate
    have hmem : ordered (climb node x idx path) (idx >>> path.length) last ∈
        climbed node x idx path ++
          [ordered (climb node x idx path) (idx >>> path.length) last] :=
      mem_append_right _ mem_cons_self
    cases l with
    | zero => exact absurd hclimb (hseparate.apart _ hmem k hk)
    | succ l =>
      have hpair := hseparate.pair _ hmem l hl k hk hclimb
      have htwo : 2 ^ (height - l) = 2 * 2 ^ (height - (l + 1)) := by
        rw [← pow_succ']
        congr 1
        omega
      have hlength : path.length = l := by
        rw [length_append] at hlength
        exact Nat.succ.inj hlength
      have hshift (bit : ℕ) (hbit : idx / 2 ^ l % 2 = bit) :
          k * 2 ^ (l + 1) + idx % 2 ^ (l + 1) = (2 * k + bit) * 2 ^ l + idx % 2 ^ l := by
        rw [Nat.mod_pow_succ, hbit, pow_succ]
        ring
      have htop (p : ℕ) : (p * 2 ^ l + idx % 2 ^ l) >>> l = p := by
        rw [Nat.shiftRight_eq_div_pow, Nat.mul_comm, Nat.mul_add_div (Nat.two_pow_pos l),
          Nat.div_eq_of_lt (Nat.mod_lt _ (Nat.two_pow_pos l)), Nat.add_zero]
      rw [ordered, Nat.and_one_is_mod, hlength, Nat.shiftRight_eq_div_pow] at hpair
      rw [range_succ, map_append, map_singleton]
      split at hpair
      case isTrue heven =>
        obtain ⟨hbelow, hlast⟩ := Prod.mk.inj hpair
        have hpath := ih (by omega) (by omega) hseparate.of_append hbelow
        have hxor : (2 * k) ^^^ 1 = 2 * k + 1 := Nat.xor_one_of_even (even_two_mul k)
        rw [hshift 0 heven, Nat.add_zero, htop, hxor, ← hlast]
        exact congrArg (· ++ [last]) hpath
      case isFalse hodd =>
        obtain ⟨hlast, hbelow⟩ := Prod.mk.inj hpair
        have hpath := ih (by omega) (by omega) hseparate.of_append hbelow
        have hxor : (2 * k + 1) ^^^ 1 = 2 * k :=
          Nat.xor_one_of_odd (odd_two_mul_add_one k)
        rw [hshift 1 (Nat.mod_two_ne_zero.mp hodd), htop, hxor, ← hlast]
        exact congrArg (· ++ [last]) hpath

/-- Only as many bits of the index matter as the path is long. -/
theorem climb_congr {idx' : ℕ} (hidx : idx % 2 ^ path.length = idx' % 2 ^ path.length) :
    climb node x idx path = climb node x idx' path := by
  induction path generalizing x idx idx' with
  | nil => rfl
  | cons sibling path ih =>
    rw [length_cons, pow_succ'] at hidx
    have hbit : idx % 2 = idx' % 2 := by
      have hbits := congrArg (· % 2) hidx
      rwa [Nat.mod_mul_right_mod, Nat.mod_mul_right_mod] at hbits
    have hrest : (idx >>> 1) % 2 ^ path.length = (idx' >>> 1) % 2 ^ path.length := by
      have hbits := congrArg (· / 2) hidx
      rwa [Nat.mod_mul_right_div_self, Nat.mod_mul_right_div_self, ← Nat.shiftRight_one,
        ← Nat.shiftRight_one] at hbits
    have hordered : ordered x idx sibling = ordered x idx' sibling := by
      rw [ordered, ordered, Nat.and_one_is_mod, Nat.and_one_is_mod, hbit]
    rw [climb, climb, hordered, ih hrest]

end SoulSystem.Library.MerkleTree
