import Mathlib.Tactic

/-!
# Hash chains

Every item of a list is linked to its predecessor: its link is computed from the link before it, its
number and the item itself.  The last link commits to the whole list, provided that no two of the
inputs that were hashed collide and no link is the anchor that the chain starts from.
-/

namespace SoulSystem.Library.HashChain

open List

variable {H α β : Type*} (link : H → ℕ → α → H)

/-- The links of a list of items, numbered from `first`. -/
def chainOver (anchor : H) (first : ℕ) : List α → List H
  | [] => []
  | item :: items =>
    link anchor first item :: chainOver (link anchor first item) (first + 1) items

/-- What is hashed along a chain: the predecessor, the number and the item of every link. -/
def inputs (anchor : H) (first : ℕ) : List α → List (H × ℕ × α)
  | [] => []
  | item :: items =>
    (anchor, first, item) :: inputs (link anchor first item) (first + 1) items

/-- The last link, or the anchor of an empty chain. -/
def head (anchor : H) (chain : List H) : H :=
  chain.getLast?.getD anchor

/-- Every link recomputes from the link recorded before it; a longer list is cut. -/
def Links : H → ℕ → List α → List H → Prop
  | prev, seq, item :: items, hash :: chain =>
    link prev seq item = hash ∧ Links hash (seq + 1) items chain
  | _, _, [], _ => True
  | _, _, _ :: _, [] => True

variable {link}

/-! ## Heads -/

@[simp]
theorem head_nil (anchor : H) : head anchor [] = anchor := rfl

theorem head_cons (anchor hash : H) (chain : List H) :
    head anchor (hash :: chain) = head hash chain := by
  unfold head
  rw [getLast?_cons]
  rfl

@[simp]
theorem head_concat (anchor hash : H) (chain : List H) : head anchor (chain ++ [hash]) = hash := by
  unfold head
  rw [getLast?_concat]
  rfl

theorem head_append (anchor : H) (chain rest : List H) :
    head anchor (chain ++ rest) = head (head anchor chain) rest := by
  induction chain generalizing anchor with
  | nil => rfl
  | cons hash chain ih => rw [cons_append, head_cons, head_cons, ih]

theorem head_take_succ {anchor : H} {chain : List H} {n : ℕ} (hn : n < chain.length) :
    head anchor (chain.take (n + 1)) = chain[n] := by
  rw [take_succ_eq_append_getElem hn, head_concat]

/-! ## Chains -/

theorem chainOver_nil (anchor : H) (first : ℕ) :
    chainOver link anchor first ([] : List α) = [] := rfl

theorem chainOver_cons (anchor : H) (first : ℕ) (item : α) (items : List α) :
    chainOver link anchor first (item :: items) =
      link anchor first item :: chainOver link (link anchor first item) (first + 1) items := rfl

@[simp]
theorem length_chainOver (anchor : H) (first : ℕ) (items : List α) :
    (chainOver link anchor first items).length = items.length := by
  induction items generalizing anchor first with
  | nil => rfl
  | cons item items ih => rw [chainOver_cons, length_cons, ih, length_cons]

theorem chainOver_append (anchor : H) (first : ℕ) (items rest : List α) :
    chainOver link anchor first (items ++ rest) =
      chainOver link anchor first items ++
        chainOver link (head anchor (chainOver link anchor first items)) (first + items.length)
          rest := by
  induction items generalizing anchor first with
  | nil => rfl
  | cons item items ih =>
    rw [cons_append, chainOver_cons, ih, chainOver_cons, cons_append, head_cons,
      length_cons, Nat.add_right_comm, Nat.add_assoc]

theorem chainOver_concat (anchor : H) (first : ℕ) (items : List α) (item : α) :
    chainOver link anchor first (items ++ [item]) =
      chainOver link anchor first items ++
        [link (head anchor (chainOver link anchor first items)) (first + items.length) item] :=
  chainOver_append anchor first items [item]

theorem take_chainOver (anchor : H) (first n : ℕ) (items : List α) :
    (chainOver link anchor first items).take n = chainOver link anchor first (items.take n) := by
  induction items generalizing anchor first n with
  | nil => simp [chainOver_nil]
  | cons item items ih =>
    cases n with
    | zero => rfl
    | succ n => rw [chainOver_cons, take_succ_cons, ih, take_succ_cons, chainOver_cons]

/-- The rest of a chain is the chain of the rest, from the link before it. -/
theorem drop_chainOver (anchor : H) (first n : ℕ) (items : List α) (hn : n ≤ items.length) :
    (chainOver link anchor first items).drop n =
      chainOver link (head anchor ((chainOver link anchor first items).take n)) (first + n)
        (items.drop n) := by
  have hsplit : chainOver link anchor first (items.take n ++ items.drop n) = _ :=
    chainOver_append anchor first (items.take n) (items.drop n)
  rw [take_append_drop, length_take_of_le hn] at hsplit
  rw [take_chainOver]
  calc (chainOver link anchor first items).drop n
      = (chainOver link anchor first (items.take n) ++
          chainOver link (head anchor (chainOver link anchor first (items.take n))) (first + n)
            (items.drop n)).drop n := by rw [← hsplit]
    _ = _ := by
        rw [drop_append_of_le_length (by simp [hn]), drop_of_length_le (by simp),
          nil_append]

/-- A chain depends on the items through what the links read of them. -/
theorem chainOver_map {code : α → β} {linkOf : H → ℕ → β → H}
    (hlink : ∀ prev seq item, link prev seq item = linkOf prev seq (code item)) (anchor : H)
    (first : ℕ) (items : List α) :
    chainOver link anchor first items = chainOver linkOf anchor first (items.map code) := by
  induction items generalizing anchor first with
  | nil => rfl
  | cons item items ih => rw [chainOver_cons, map_cons, chainOver_cons, ih, hlink]

/-- A recorded chain of the right length verifies exactly if it is the computed one. -/
theorem links_iff (prev : H) (seq : ℕ) (items : List α) (chain : List H)
    (hlength : chain.length = items.length) :
    Links link prev seq items chain ↔ chain = chainOver link prev seq items := by
  induction items generalizing prev seq chain with
  | nil =>
    have hnil : chain = [] := eq_nil_of_length_eq_zero hlength
    subst hnil
    exact ⟨fun _ ↦ rfl, fun _ ↦ trivial⟩
  | cons item items ih =>
    cases chain with
    | nil => cases hlength
    | cons hash chain =>
      have hrest : chain.length = items.length := Nat.succ.inj hlength
      rw [Links, chainOver_cons, List.cons.injEq, ih hash (seq + 1) chain hrest]
      constructor
      · rintro ⟨rfl, hchain⟩
        exact ⟨rfl, hchain⟩
      · rintro ⟨rfl, hchain⟩
        exact ⟨rfl, hchain⟩

/-- A list of links that recompute one by one is the chain. -/
theorem eq_chainOver_of_getElem? {anchor : H} {first : ℕ} {items : List α} {chain : List H}
    (hlength : chain.length = items.length)
    (hlink : ∀ (i : ℕ) (item : α) (hash : H), items[i]? = some item → chain[i]? = some hash →
      hash = link (head anchor (chain.take i)) (first + i) item) :
    chain = chainOver link anchor first items := by
  induction items generalizing anchor first chain with
  | nil => exact eq_nil_of_length_eq_zero hlength
  | cons item items ih =>
    cases chain with
    | nil => cases hlength
    | cons hash chain =>
      have hfirst : hash = link anchor first item := hlink 0 item hash rfl rfl
      have hrest : chain = chainOver link hash (first + 1) items := by
        apply ih (Nat.succ.inj hlength)
        intro i found next hfound hnext
        have hstep := hlink (i + 1) found next hfound hnext
        rwa [take_succ_cons, head_cons, ← Nat.add_assoc, Nat.add_right_comm] at hstep
      rw [chainOver_cons, ← hfirst, ← hrest]

/-! ## Commitment -/

theorem inputs_cons (anchor : H) (first : ℕ) (item : α) (items : List α) :
    inputs link anchor first (item :: items) =
      (anchor, first, item) :: inputs link (link anchor first item) (first + 1) items := rfl

theorem inputs_append (anchor : H) (first : ℕ) (items rest : List α) :
    inputs link anchor first (items ++ rest) =
      inputs link anchor first items ++
        inputs link (head anchor (chainOver link anchor first items)) (first + items.length)
          rest := by
  induction items generalizing anchor first with
  | nil => rfl
  | cons item items ih =>
    rw [cons_append, inputs_cons, ih, inputs_cons, cons_append, chainOver_cons, head_cons,
      length_cons, Nat.add_right_comm, Nat.add_assoc]

theorem mem_inputs_of_mem {anchor : H} {first : ℕ} {items : List α} (item : α)
    {input : H × ℕ × α} (hinput : input ∈ inputs link anchor first items) :
    input ∈ inputs link anchor first (items ++ [item]) := by
  rw [inputs_append]
  exact mem_append_left _ hinput

/-- The input of the last link. -/
theorem last_mem_inputs (anchor : H) (first : ℕ) (items : List α) (item : α) :
    (head anchor (chainOver link anchor first items), first + items.length, item) ∈
      inputs link anchor first (items ++ [item]) := by
  rw [inputs_append]
  exact mem_append_right _ (List.mem_singleton.mpr rfl)

theorem getElem?_inputs (anchor : H) (first : ℕ) (items : List α) (i : ℕ) :
    (inputs link anchor first items)[i]? = (items[i]?).map fun item ↦
      (head anchor ((chainOver link anchor first items).take i), first + i, item) := by
  induction items generalizing anchor first i with
  | nil => rfl
  | cons item items ih =>
    cases i with
    | zero => rfl
    | succ i =>
      rw [inputs_cons, getElem?_cons_succ, ih, getElem?_cons_succ, chainOver_cons,
        take_succ_cons, head_cons, Nat.add_assoc, Nat.add_comm 1 i]

/-- Every predecessor is the anchor or a link. -/
theorem prev_of_mem_inputs {anchor : H} {first : ℕ} {items : List α} {input : H × ℕ × α}
    (hinput : input ∈ inputs link anchor first items) :
    input.1 = anchor ∨ ∃ prev seq item, input.1 = link prev seq item := by
  induction items generalizing anchor first with
  | nil => cases hinput
  | cons item items ih =>
    rw [inputs_cons, mem_cons] at hinput
    rcases hinput with rfl | hrest
    · exact .inl rfl
    · rcases ih hrest with hanchor | hlink
      · exact .inr ⟨anchor, first, item, hanchor⟩
      · exact .inr hlink

/-- No two inputs of two chains collide, up to what `code` shows of the items. -/
def Binding (link : H → ℕ → α → H) (code : α → β) (left right : List (H × ℕ × α)) : Prop :=
  ∀ a ∈ left, ∀ b ∈ right, link a.1 a.2.1 a.2.2 = link b.1 b.2.1 b.2.2 →
    a.1 = b.1 ∧ code a.2.2 = code b.2.2

/-- No input is linked to the anchor. -/
def Fresh (link : H → ℕ → α → H) (anchor : H) (used : List (H × ℕ × α)) : Prop :=
  ∀ a ∈ used, link a.1 a.2.1 a.2.2 ≠ anchor

/-- **The head commits to the chain.**  Two chains from one anchor with the same head are over the
same items. -/
theorem map_code_eq_of_head_eq {code : α → β} {anchor : H} {first : ℕ} {xs ys : List α}
    (hbinding : Binding link code (inputs link anchor first xs) (inputs link anchor first ys))
    (hfreshLeft : Fresh link anchor (inputs link anchor first xs))
    (hfreshRight : Fresh link anchor (inputs link anchor first ys))
    (hhead : head anchor (chainOver link anchor first xs) =
      head anchor (chainOver link anchor first ys)) : xs.map code = ys.map code := by
  induction xs using List.reverseRecOn generalizing ys with
  | nil =>
    cases ys using List.reverseRecOn with
    | nil => rfl
    | append_singleton ys y =>
      rw [chainOver_concat, head_concat, chainOver_nil, head_nil] at hhead
      exact absurd hhead.symm (hfreshRight _ (last_mem_inputs anchor first ys y))
  | append_singleton xs x ih =>
    cases ys using List.reverseRecOn with
    | nil =>
      rw [chainOver_concat, head_concat, chainOver_nil, head_nil] at hhead
      exact absurd hhead (hfreshLeft _ (last_mem_inputs anchor first xs x))
    | append_singleton ys y =>
      rw [chainOver_concat, chainOver_concat, head_concat, head_concat] at hhead
      obtain ⟨hprev, hcode⟩ := hbinding _ (last_mem_inputs anchor first xs x) _
        (last_mem_inputs anchor first ys y) hhead
      have hrest : xs.map code = ys.map code := by
        apply ih _ _ _ hprev
        · exact fun a ha b hb ↦ hbinding a (mem_inputs_of_mem x ha) b (mem_inputs_of_mem y hb)
        · exact fun a ha ↦ hfreshLeft a (mem_inputs_of_mem x ha)
        · exact fun a ha ↦ hfreshRight a (mem_inputs_of_mem y ha)
      have hlast : code x = code y := hcode
      rw [map_append, map_append, hrest, map_singleton, map_singleton,
        hlast]

end SoulSystem.Library.HashChain
