import Mathlib.Data.List.Perm.Basic
import Mathlib.Tactic

/-!
# Sorted maps as lists of entries

How the list of entries of a sorted map changes, up to order, when a key is added or removed.
-/

namespace SoulSystem.Library.SortedMap

open Std ExtTreeMap

variable {α β : Type*} {cmp : α → α → Ordering} [TransCmp cmp]

theorem mem_of_getElem?_eq_some {m : ExtTreeMap α β cmp} {key : α} {value : β}
    (hvalue : m[key]? = some value) : key ∈ m := by
  rw [mem_iff_isSome_getElem?, hvalue]
  rfl

theorem getElem?_eq_none_iff {m : ExtTreeMap α β cmp} {key : α} : m[key]? = none ↔ key ∉ m := by
  rw [mem_iff_isSome_getElem?]
  cases m[key]? <;> simp

theorem exists_getElem?_of_mem {m : ExtTreeMap α β cmp} {key : α} (hkey : key ∈ m) :
    ∃ value, m[key]? = some value := by
  rw [mem_iff_isSome_getElem?] at hkey
  exact Option.isSome_iff_exists.mp hkey

variable [LawfulEqCmp cmp]

/-- The order of a map that is lawful decides equality of keys. -/
theorem getElem?_insert_ne {m : ExtTreeMap α β cmp} {key other : α} (value : β)
    (hne : key ≠ other) : (m.insert key value)[other]? = m[other]? := by
  rw [getElem?_insert, if_neg (mt LawfulEqCmp.compare_eq_iff_eq.mp hne)]

theorem getElem?_erase_ne {m : ExtTreeMap α β cmp} {key other : α} (hne : key ≠ other) :
    (m.erase key)[other]? = m[other]? := by
  rw [getElem?_erase, if_neg (mt LawfulEqCmp.compare_eq_iff_eq.mp hne)]

theorem getElem?_of_getElem?_erase {m : ExtTreeMap α β cmp} {key other : α} {value : β}
    (hvalue : (m.erase key)[other]? = some value) : m[other]? = some value := by
  have hne : key ≠ other := by
    rintro rfl
    rw [getElem?_erase_self] at hvalue
    cases hvalue
  rwa [getElem?_erase_ne hne] at hvalue

theorem mem_insert_iff {m : ExtTreeMap α β cmp} {key other : α} {value : β} :
    other ∈ m.insert key value ↔ other = key ∨ other ∈ m := by
  rw [mem_insert, LawfulEqCmp.compare_eq_iff_eq, eq_comm]

theorem mem_erase_iff {m : ExtTreeMap α β cmp} {key other : α} :
    other ∈ m.erase key ↔ other ≠ key ∧ other ∈ m := by
  rw [mem_erase, ne_eq, LawfulEqCmp.compare_eq_iff_eq, eq_comm]

theorem mem_insert_of_ne {m : ExtTreeMap α β cmp} {key : α} (value : β) (other : α)
    (hother : other ≠ key) : other ∈ m.insert key value ↔ other ∈ m := by
  rw [mem_insert_iff, or_iff_right hother]

theorem mem_erase_of_ne {m : ExtTreeMap α β cmp} {key : α} (other : α) (hother : other ≠ key) :
    other ∈ m.erase key ↔ other ∈ m := by
  rw [mem_erase_iff, and_iff_right hother]

theorem mem_insert_of_mem {m : ExtTreeMap α β cmp} {key : α} (hkey : key ∈ m) (value : β)
    (other : α) : other ∈ m.insert key value ↔ other ∈ m := by
  rw [mem_insert_iff]
  exact or_iff_right_of_imp fun hother ↦ hother ▸ hkey

theorem not_mem_erase_self {m : ExtTreeMap α β cmp} {key : α} : key ∉ m.erase key :=
  fun hkey ↦ (mem_erase_iff.mp hkey).1 rfl

theorem nodup_toList (m : ExtTreeMap α β cmp) : m.toList.Nodup := by
  apply List.Pairwise.imp _ m.distinct_keys_toList
  intro a b hne heq
  exact hne (LawfulEqCmp.compare_eq_iff_eq.mpr (congrArg Prod.fst heq))

theorem nodup_keys (m : ExtTreeMap α β cmp) : m.keys.Nodup := by
  rw [← map_fst_toList_eq_keys, List.Nodup, List.pairwise_map]
  apply List.Pairwise.imp _ m.distinct_keys_toList
  intro a b hne heq
  exact hne (LawfulEqCmp.compare_eq_iff_eq.mpr heq)

theorem size_pos_of_mem {m : ExtTreeMap α β cmp} {key : α} (hkey : key ∈ m) : 0 < m.size := by
  rw [← length_keys]
  exact List.length_pos_of_mem (ExtTreeMap.mem_keys.mpr hkey)

/-- The entries around one key. -/
theorem toList_perm_cons_erase {m : ExtTreeMap α β cmp} {key : α} {value : β}
    (hvalue : m[key]? = some value) : m.toList.Perm ((key, value) :: (m.erase key).toList) := by
  have hrest : (key, value) ∉ (m.erase key).toList := by
    rw [mem_toList_iff_getElem?_eq_some, getElem?_erase_self]
    exact Option.some_ne_none value ∘ Eq.symm
  apply (List.perm_ext_iff_of_nodup (nodup_toList m) ?_).mpr
  · rintro ⟨other, entry⟩
    rw [List.mem_cons, mem_toList_iff_getElem?_eq_some,
      mem_toList_iff_getElem?_eq_some, Prod.mk.injEq]
    by_cases hother : key = other
    · subst hother
      simp [hvalue, eq_comm]
    · simp [getElem?_erase_ne hother, Ne.symm hother]
  · exact List.nodup_cons.mpr ⟨hrest, nodup_toList _⟩

/-- The entries after a new key was added. -/
theorem toList_insert_perm {m : ExtTreeMap α β cmp} {key : α} (value : β) (hkey : key ∉ m) :
    (m.insert key value).toList.Perm ((key, value) :: m.toList) := by
  have hself : (m.insert key value)[key]? = some value := getElem?_insert_self
  have herase : (m.insert key value).erase key = m := by
    apply ext_getElem?
    intro other
    by_cases hother : key = other
    · rw [← hother, getElem?_erase_self, getElem?_eq_none_iff.mpr hkey]
    · rw [getElem?_erase_ne hother, getElem?_insert_ne value hother]
  have hperm := toList_perm_cons_erase hself
  rwa [herase] at hperm

theorem erase_eq_self {m : ExtTreeMap α β cmp} {key : α} (hkey : key ∉ m) : m.erase key = m := by
  apply ext_getElem?
  intro other
  by_cases hother : key = other
  · rw [← hother, getElem?_erase_self, getElem?_eq_none_iff.mpr hkey]
  · rw [getElem?_erase_ne hother]

/-- Every erased key of a list takes one entry with it. -/
theorem size_foldl_erase (keys : List α) (m : ExtTreeMap α β cmp) (hnodup : keys.Nodup)
    (hkeys : ∀ key ∈ keys, key ∈ m) :
    (keys.foldl (fun m key ↦ m.erase key) m).size + keys.length = m.size := by
  induction keys generalizing m with
  | nil => rfl
  | cons key keys ih =>
    rw [List.nodup_cons] at hnodup
    rw [List.forall_mem_cons] at hkeys
    have hrest : ∀ other ∈ keys, other ∈ m.erase key := by
      intro other hother
      have hne : other ≠ key := by
        rintro rfl
        exact hnodup.1 hother
      exact mem_erase_iff.mpr ⟨hne, hkeys.2 other hother⟩
    have hsize : (m.erase key).size = m.size - 1 := by
      rw [size_erase, if_pos (by simpa using hkeys.1)]
    have hpos := size_pos_of_mem hkeys.1
    have hfold := ih (m.erase key) hnodup.2 hrest
    rw [List.foldl_cons, List.length_cons]
    omega

/-- The values that are grouped under a key. -/
theorem getD_foldl_group [DecidableEq α] {ε : Type*} (keyOf : ε → α) (value : ε → β) (xs : List ε)
    (m : ExtTreeMap α (List β) cmp) (key : α) :
    ((xs.foldl (fun m x ↦ m.insert (keyOf x) (m[keyOf x]?.getD [] ++ [value x])) m)[key]?).getD [] =
      (m[key]?).getD [] ++ (xs.filter fun x ↦ keyOf x = key).map value := by
  induction xs generalizing m with
  | nil => rw [List.foldl_nil, List.filter_nil, List.map_nil, List.append_nil]
  | cons x xs ih =>
    rw [List.foldl_cons, ih]
    by_cases hkey : keyOf x = key
    · rw [List.filter_cons, if_pos (decide_eq_true hkey), hkey, getElem?_insert_self,
        Option.getD_some, List.map_cons, List.append_assoc, List.singleton_append]
    · rw [List.filter_cons, if_neg (fun h ↦ hkey (of_decide_eq_true h)), getElem?_insert_ne _ hkey]

/-! ## Every value of a map -/

/-- Every value of the map has a property. -/
def Every (Q : β → Prop) (m : ExtTreeMap α β cmp) : Prop :=
  ∀ (key : α) (value : β), m[key]? = some value → Q value

namespace Every

variable {m : ExtTreeMap α β cmp} {Q : β → Prop} {key : α} {value : β}

omit [LawfulEqCmp cmp] in
theorem empty : Every Q (∅ : ExtTreeMap α β cmp) := by
  intro key value hvalue
  simp at hvalue

theorem erase (hall : Every Q m) : Every Q (m.erase key) :=
  fun other found hfound ↦ hall other found (getElem?_of_getElem?_erase hfound)

theorem insert (hall : Every Q m) (hvalue : Q value) : Every Q (m.insert key value) := by
  intro other found hfound
  by_cases hother : key = other
  · rw [← hother, getElem?_insert_self] at hfound
    cases hfound
    exact hvalue
  · rw [getElem?_insert_ne value hother] at hfound
    exact hall other found hfound

theorem map {f : α → β → β} (hall : Every Q m) (hf : ∀ key value, Q value → Q (f key value)) :
    Every Q (m.map f) := by
  intro key value hvalue
  rw [getElem?_map, Option.map_eq_some_iff] at hvalue
  obtain ⟨found, hfound, rfl⟩ := hvalue
  exact hf key found (hall key found hfound)

end Every

/-! ## Some value of a map -/

/-- Some value of the map has a property. -/
def AnyValue (m : ExtTreeMap α β cmp) (Q : β → Prop) : Prop :=
  ∃ (key : α) (value : β), m[key]? = some value ∧ Q value

section AnyValue

variable {m : ExtTreeMap α β cmp} {Q : β → Prop} {key : α} {value : β}

omit [LawfulEqCmp cmp] in
theorem not_anyValue_empty : ¬ AnyValue (∅ : ExtTreeMap α β cmp) Q := by
  rintro ⟨key, value, hvalue, _⟩
  simp at hvalue

/-- What some value has after a value was put in place. -/
theorem anyValue_insert_iff :
    AnyValue (m.insert key value) Q ↔ Q value ∨ AnyValue (m.erase key) Q := by
  constructor
  · rintro ⟨other, found, hfound, hprop⟩
    by_cases hother : key = other
    · rw [← hother, getElem?_insert_self] at hfound
      cases hfound
      exact .inl hprop
    · rw [getElem?_insert_ne value hother] at hfound
      exact .inr ⟨other, found, by rwa [getElem?_erase_ne hother], hprop⟩
  · rintro (hprop | ⟨other, found, hfound, hprop⟩)
    · exact ⟨key, value, getElem?_insert_self, hprop⟩
    · have hother : key ≠ other := by
        rintro rfl
        rw [getElem?_erase_self] at hfound
        cases hfound
      rw [getElem?_erase_ne hother] at hfound
      exact ⟨other, found, by rwa [getElem?_insert_ne value hother], hprop⟩

/-- Some value has a property if one of them has or one of the others. -/
theorem anyValue_iff_of_getElem? (hvalue : m[key]? = some value) :
    AnyValue m Q ↔ Q value ∨ AnyValue (m.erase key) Q := by
  have hsame : m.insert key value = m := by
    apply ext_getElem?
    intro other
    by_cases hother : key = other
    · rw [← hother, getElem?_insert_self, hvalue]
    · rw [getElem?_insert_ne value hother]
  rw [← anyValue_insert_iff, hsame]

theorem anyValue_insert_of_notMem (hkey : key ∉ m) :
    AnyValue (m.insert key value) Q ↔ Q value ∨ AnyValue m Q := by
  rw [anyValue_insert_iff, erase_eq_self hkey]

/-- A value may be replaced by one with the same property. -/
theorem anyValue_replace {old : β} (hold : m[key]? = some old) (hsame : Q value ↔ Q old) :
    AnyValue (m.insert key value) Q ↔ AnyValue m Q := by
  rw [anyValue_insert_iff, hsame, ← anyValue_iff_of_getElem? hold]

end AnyValue

/-- Some value of the map cites `x`. -/
def Cites {γ : Type*} (m : ExtTreeMap α β cmp) (cite : β → Option γ) (x : γ) : Prop :=
  ∃ (key : α) (value : β), m[key]? = some value ∧ cite value = some x

section Cites

variable {γ : Type*} {m : ExtTreeMap α β cmp} {cite : β → Option γ} {x : γ} {key : α}

omit [LawfulEqCmp cmp] in
theorem not_cites_empty : ¬ Cites (∅ : ExtTreeMap α β cmp) cite x :=
  not_anyValue_empty

/-- What is cited after a value was put in place. -/
theorem cites_insert_iff {value : β} :
    Cites (m.insert key value) cite x ↔ cite value = some x ∨ Cites (m.erase key) cite x :=
  anyValue_insert_iff

/-- What a map cites is cited by one of its values or by the others. -/
theorem cites_iff_of_getElem? {value : β} (hvalue : m[key]? = some value) :
    Cites m cite x ↔ cite value = some x ∨ Cites (m.erase key) cite x :=
  anyValue_iff_of_getElem? hvalue

end Cites

/-! ## Maps that agree key by key -/

/-- Every value of a map has a counterpart under the same key of another. -/
def Agrees {γ : Type*} (R : β → γ → Prop) (m : ExtTreeMap α β cmp) (known : ExtTreeMap α γ cmp) :
    Prop :=
  ∀ (key : α) (value : β), m[key]? = some value →
    ∃ counterpart, known[key]? = some counterpart ∧ R value counterpart

namespace Agrees

variable {γ : Type*} {R : β → γ → Prop} {m : ExtTreeMap α β cmp} {known : ExtTreeMap α γ cmp}
  {key : α} {value : β} {counterpart : γ}

omit [LawfulEqCmp cmp] in
theorem empty : Agrees R ∅ known := by
  intro key value hvalue
  simp at hvalue

theorem erase (hagrees : Agrees R m known) : Agrees R (m.erase key) known :=
  fun other found hfound ↦ hagrees other found (getElem?_of_getElem?_erase hfound)

/-- A key without a counterpart in the first map may come and go in the second. -/
theorem erase_of_getElem? {other : ExtTreeMap α γ cmp} (hagrees : Agrees R m known)
    (hother : ∀ key' ≠ key, other[key']? = known[key']?) : Agrees R (m.erase key) other := by
  intro key' found hfound
  have hne : key' ≠ key := by
    rintro rfl
    rw [getElem?_erase_self] at hfound
    cases hfound
  rw [hother key' hne]
  exact hagrees key' found (getElem?_of_getElem?_erase hfound)

theorem insert (hagrees : Agrees R (m.erase key) known) (hknown : known[key]? = some counterpart)
    (hvalue : R value counterpart) : Agrees R (m.insert key value) known := by
  intro other found hfound
  by_cases hother : key = other
  · rw [← hother, getElem?_insert_self] at hfound
    cases hfound
    exact ⟨counterpart, by rw [← hother, hknown], hvalue⟩
  · rw [getElem?_insert_ne value hother] at hfound
    exact hagrees other found (by rwa [getElem?_erase_ne hother])

theorem map {f : α → β → β} (hagrees : Agrees R m known)
    (hf : ∀ key value counterpart, R value counterpart → R (f key value) counterpart) :
    Agrees R (m.map f) known := by
  intro key value hvalue
  rw [getElem?_map, Option.map_eq_some_iff] at hvalue
  obtain ⟨found, hfound, rfl⟩ := hvalue
  obtain ⟨counterpart, hknown, hrelated⟩ := hagrees key found hfound
  exact ⟨counterpart, hknown, hf key found counterpart hrelated⟩

end Agrees

/-! ## Sums over the values -/

/-- The sum of a number for every value. -/
def total (g : β → ℕ) (m : ExtTreeMap α β cmp) : ℕ := (m.toList.map fun entry ↦ g entry.2).sum

/-- The sum of a number for the values under some keys. -/
def totalUnder (g : β → ℕ) (m : ExtTreeMap α β cmp) (keys : List α) : ℕ :=
  (keys.map fun key ↦ (m[key]?).elim 0 g).sum

section Sums

variable {g : β → ℕ} {m : ExtTreeMap α β cmp} {key : α} {value : β} {keys : List α}

theorem total_eq_add_erase (hvalue : m[key]? = some value) :
    total g m = g value + total g (m.erase key) := by
  rw [total, ((toList_perm_cons_erase hvalue).map _).sum_eq, List.map_cons, List.sum_cons, total]

/-- What a sum loses and gains when a value is replaced. -/
theorem total_insert {old : β} (hold : m[key]? = some old) :
    total g (m.insert key value) + g old = total g m + g value := by
  have hself : (m.insert key value)[key]? = some value := getElem?_insert_self
  have herase : (m.insert key value).erase key = m.erase key := by
    apply ext_getElem?
    intro other
    by_cases hother : key = other
    · rw [← hother, getElem?_erase_self, getElem?_erase_self]
    · rw [getElem?_erase_ne hother, getElem?_erase_ne hother, getElem?_insert_ne value hother]
  rw [total_eq_add_erase hself, herase, total_eq_add_erase hold]
  omega

theorem totalUnder_insert_of_notMem (hkey : key ∉ keys) :
    totalUnder g (m.insert key value) keys = totalUnder g m keys := by
  apply congrArg List.sum
  apply List.map_congr_left
  intro other hother
  have hne : key ≠ other := by
    rintro rfl
    exact hkey hother
  rw [getElem?_insert_ne value hne]

theorem totalUnder_of_perm (hperm : keys.Perm m.keys) : totalUnder g m keys = total g m := by
  rw [totalUnder, (hperm.map _).sum_eq, ← map_fst_toList_eq_keys, List.map_map, total]
  apply congrArg List.sum
  apply List.map_congr_left
  intro entry hentry
  rw [Function.comp_apply, ExtTreeMap.mem_toList_iff_getElem?_eq_some.mp hentry, Option.elim_some]

end Sums

/-! ## Merging one map into another -/

section Merge

variable {γ : Type*}

theorem getElem?_foldl_insert_of_notMem {pairs : List (α × β)} {key : α} (f : β → γ)
    (start : ExtTreeMap α γ cmp) (hkey : key ∉ pairs.map Prod.fst) :
    (pairs.foldl (fun merged pair ↦ merged.insert pair.1 (f pair.2)) start)[key]? =
      start[key]? := by
  induction pairs generalizing start with
  | nil => rfl
  | cons pair pairs ih =>
    rw [List.map_cons, List.mem_cons, not_or] at hkey
    rw [List.foldl_cons, ih _ hkey.2, getElem?_insert_ne _ (Ne.symm hkey.1)]

theorem getElem?_foldl_insert_of_mem {pairs : List (α × β)} {key : α} {value : β} (f : β → γ)
    (start : ExtTreeMap α γ cmp) (hnodup : (pairs.map Prod.fst).Nodup)
    (hmem : (key, value) ∈ pairs) :
    (pairs.foldl (fun merged pair ↦ merged.insert pair.1 (f pair.2)) start)[key]? =
      some (f value) := by
  induction pairs generalizing start with
  | nil => cases hmem
  | cons pair pairs ih =>
    rw [List.map_cons, List.nodup_cons] at hnodup
    rw [List.foldl_cons]
    rcases List.mem_cons.mp hmem with rfl | hlater
    · rw [getElem?_foldl_insert_of_notMem f _ hnodup.1, getElem?_insert_self]
    · exact ih _ hnodup.2 hlater

/-- An insertion for every entry of a map leaves that entry, or else what was there before. -/
theorem getElem?_foldl_insert_map (m : ExtTreeMap α β cmp) (f : β → γ)
    (start : ExtTreeMap α γ cmp) (key : α) :
    (m.foldl (fun merged key value ↦ merged.insert key (f value)) start)[key]? =
      (m[key]?.map f).or start[key]? := by
  have hkeys : m.toList.map Prod.fst = m.keys := map_fst_toList_eq_keys
  rw [foldl_eq_foldl_toList]
  cases hvalue : m[key]? with
  | none =>
    apply getElem?_foldl_insert_of_notMem f start
    rw [hkeys, mem_keys, ← getElem?_eq_none_iff]
    exact hvalue
  | some value =>
    apply getElem?_foldl_insert_of_mem f start
    · rw [hkeys]
      exact nodup_keys m
    · exact ExtTreeMap.mem_toList_iff_getElem?_eq_some.mpr hvalue

end Merge

end SoulSystem.Library.SortedMap
