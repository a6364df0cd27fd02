import Mathlib.Data.Finset.Card
import Mathlib.Data.List.Destutter
import Mathlib.Data.List.Dedup
import Mathlib.Order.Lattice

/-!
# The best of a ranked list, each key once

A list is ranked by a weight, and of the elements with one key in a row only the first is kept
before the list is cut.  The cut list has each key once if and only if no key returns before the cut
after another key has come between.  It accounts for every element down to a weight if and only if
that many keys are heavier or the key is among the heavier ones.
-/

namespace SoulSystem.Library.Ranking

open List

variable {α κ ι : Type*}

section Runs

/-! ## Runs of one key -/

variable (key : α → κ)

theorem mem_of_last {l : List α} {k : κ} (hlast : l.getLast?.map key = some k) : k ∈ l.map key := by
  rw [← getLast?_map] at hlast
  exact mem_of_getLast? hlast

variable [DecidableEq κ]

/-- The first element of every run of elements with one key. -/
def heads (l : List α) : List α := l.destutter fun a b ↦ key a ≠ key b

@[simp] theorem heads_nil : heads key [] = [] := rfl

theorem heads_sublist (l : List α) : (heads key l).Sublist l := destutter_sublist _ l

theorem destutter'_concat (a e : α) (l : List α) :
    (l ++ [e]).destutter' (fun a b ↦ key a ≠ key b) a =
      if key (l.getLast?.getD a) = key e then l.destutter' (fun a b ↦ key a ≠ key b) a
      else l.destutter' (fun a b ↦ key a ≠ key b) a ++ [e] := by
  induction l generalizing a with
  | nil =>
    rw [nil_append, destutter'_singleton, ite_not]
    rfl
  | cons b l ih =>
    have hlast : (b :: l).getLast?.getD a = l.getLast?.getD b := by
      rw [getLast?_cons, Option.getD_some]
    rw [cons_append, destutter'_cons, destutter'_cons, hlast, ih b, ih a]
    by_cases hab : key a = key b
    · have hsame : key (l.getLast?.getD a) = key (l.getLast?.getD b) := by
        cases l.getLast? with
        | none => exact hab
        | some last => rfl
      rw [if_neg (not_not.mpr hab), if_neg (not_not.mpr hab), hsame]
    · rw [if_pos hab, if_pos hab]
      split
      · rfl
      · rw [cons_append]

/-- An element is kept unless the one before it has its key. -/
theorem heads_concat (l : List α) (e : α) :
    heads key (l ++ [e]) =
      if l.getLast?.map key = some (key e) then heads key l else heads key l ++ [e] := by
  cases l with
  | nil => rfl
  | cons a l =>
    have hlast : (a :: l).getLast?.map key = some (key (l.getLast?.getD a)) := by
      rw [getLast?_cons, Option.map_some]
    simp only [hlast, Option.some.injEq]
    exact destutter'_concat key a e l

theorem mem_map_heads {l : List α} {k : κ} : k ∈ (heads key l).map key ↔ k ∈ l.map key := by
  induction l using List.reverseRecOn with
  | nil => exact Iff.rfl
  | append_singleton l e ih =>
    rw [heads_concat, map_append, mem_append]
    split
    · next hlast =>
        rw [ih, map_singleton, mem_singleton]
        apply (or_iff_left_of_imp ?_).symm
        intro hk
        rw [hk]
        exact mem_of_last key hlast
    · rw [map_append, mem_append, ih]

/-- The keys that occur. -/
def keys (l : List α) : Finset κ := (l.map key).toFinset

theorem keys_heads (l : List α) : keys key (heads key l) = keys key l := by
  ext k
  rw [keys, keys, mem_toFinset, mem_toFinset, mem_map_heads]

theorem card_keys_le_length (l : List α) : (keys key l).card ≤ l.length := by
  rw [← length_map (f := key)]
  exact toFinset_card_le _

theorem card_keys_of_nodup {l : List α} (hnodup : (l.map key).Nodup) :
    (keys key l).card = l.length := by
  rw [keys, toFinset_card_of_nodup hnodup, length_map]

theorem keys_mono {l l₂ : List α} (hsub : l.Sublist l₂) : keys key l ⊆ keys key l₂ :=
  fun _ hk ↦ List.mem_toFinset.mpr ((hsub.map key).subset (List.mem_toFinset.mp hk))

/-- What follows a list only adds to its heads. -/
theorem heads_append (front back : List α) :
    ∃ rest, heads key (front ++ back) = heads key front ++ rest ∧ rest.Sublist back := by
  induction back using List.reverseRecOn with
  | nil => exact ⟨[], by rw [append_nil, append_nil], List.Sublist.refl _⟩
  | append_singleton back e ih =>
    obtain ⟨rest, heq, hsub⟩ := ih
    rw [← append_assoc, heads_concat, heq]
    split
    · exact ⟨rest, rfl, hsub.trans (sublist_append_left back [e])⟩
    · exact ⟨rest ++ [e], by rw [append_assoc], hsub.append (List.Sublist.refl _)⟩

/-- Before `n` keys have come, a key that has come already only returns right after itself. -/
def Grouped (n : ℕ) (l : List α) : Prop :=
  ∀ before e after, l = before ++ e :: after → (keys key before).card < n →
    key e ∈ keys key before → before.getLast?.map key = some (key e)

theorem grouped_concat {n : ℕ} {l : List α} {e : α} :
    Grouped key n (l ++ [e]) ↔ Grouped key n l ∧ ((keys key l).card < n → key e ∈ keys key l →
      l.getLast?.map key = some (key e)) := by
  constructor
  · intro hgrouped
    refine ⟨fun before x after heq ↦ ?_, hgrouped l e [] rfl⟩
    exact hgrouped before x (after ++ [e]) (by rw [heq, append_assoc, cons_append])
  · intro hgrouped before x after heq
    cases after using List.reverseRecOn with
    | nil =>
      obtain ⟨hbefore, hx⟩ := append_inj' heq rfl
      rw [← hbefore, ← List.singleton_inj.mp hx]
      exact hgrouped.2
    | append_singleton after last =>
      rw [← cons_append, ← append_assoc] at heq
      exact hgrouped.1 before x after (append_inj' heq rfl).1

/-- The first `n` heads have distinct keys if and only if the list is grouped that far. -/
theorem nodup_take_heads_iff {n : ℕ} {l : List α} :
    (((heads key l).take n).map key).Nodup ↔ Grouped key n l := by
  induction l using List.reverseRecOn with
  | nil =>
    rw [heads_nil, take_nil, map_nil]
    exact iff_of_true nodup_nil fun before e after heq ↦ by simp at heq
  | append_singleton l e ih =>
    rw [grouped_concat, heads_concat, ← ih]
    split
    · next hlast => exact (and_iff_left fun _ _ ↦ hlast).symm
    · next hlast =>
        rcases Nat.lt_or_ge (heads key l).length n with hshort | hlong
        · have hall : (heads key l ++ [e]).take n = heads key l ++ [e] := by
            rw [take_of_length_le]
            rw [length_append, length_singleton]
            exact hshort
          have hmem : key e ∈ (heads key l).map key ↔ key e ∈ keys key l := by
            rw [mem_map_heads, keys, mem_toFinset]
          have hcard : (keys key l).card < n := by
            rw [← keys_heads]
            exact (card_keys_le_length key _).trans_lt hshort
          rw [hall, take_of_length_le hshort.le, map_append, map_singleton,
            ← concat_eq_append, nodup_concat, hmem, and_comm]
          exact and_congr_right fun _ ↦
            ⟨fun hnot _ hin ↦ absurd hin hnot, fun hall hin ↦ hlast (hall hcard hin)⟩
        · have hcut : (heads key l ++ [e]).take n = (heads key l).take n :=
            take_append_of_le_length hlong
          rw [hcut]
          apply (and_iff_left_of_imp ?_).symm
          intro hnodup hfew
          have hn : n ≤ (keys key l).card := calc
            n = ((heads key l).take n).length := (length_take_of_le hlong).symm
            _ = (keys key ((heads key l).take n)).card := (card_keys_of_nodup key hnodup).symm
            _ ≤ (keys key (heads key l)).card :=
              Finset.card_le_card (keys_mono key (take_sublist n _))
            _ = (keys key l).card := by rw [keys_heads]
          exact absurd hfew (Nat.not_lt.mpr hn)

end Runs

section Cuts

/-! ## Cuts of a ranked list -/

variable [LinearOrder ι] (weight : α → ι)

/-- From the heaviest to the lightest. -/
def Descending (l : List α) : Prop := l.Pairwise fun a b ↦ weight b ≤ weight a

/-- The elements at least as heavy as `w`. -/
def atLeast (w : ι) (l : List α) : List α := l.filter fun e ↦ decide (w ≤ weight e)

variable {weight}

theorem mem_atLeast {w : ι} {l : List α} {e : α} :
    e ∈ atLeast weight w l ↔ e ∈ l ∧ w ≤ weight e := by
  rw [atLeast, mem_filter, decide_eq_true_iff]

/-- The heavy elements of a ranked list come first. -/
theorem Descending.atLeast_append {l : List α} (hdesc : Descending weight l) (w : ι) :
    l = atLeast weight w l ++ l.filter fun e ↦ decide (weight e < w) := by
  induction l with
  | nil => rfl
  | cons a l ih =>
    obtain ⟨hhead, htail⟩ := List.pairwise_cons.mp hdesc
    rcases le_or_gt w (weight a) with hheavy | hlight
    · rw [atLeast, filter_cons_of_pos (by simpa using hheavy),
        filter_cons_of_neg (by simpa using hheavy), cons_append]
      exact congrArg _ (ih htail)
    · have hnone : atLeast weight w l = [] := by
        apply List.filter_eq_nil_iff.mpr
        intro e he
        rw [decide_eq_true_iff]
        exact fun hle ↦ absurd (hle.trans (hhead e he)) (not_le.mpr hlight)
      have hall : (l.filter fun e ↦ decide (weight e < w)) = l := by
        apply List.filter_eq_self.mpr
        intro e he
        exact decide_eq_true ((hhead e he).trans_lt hlight)
      rw [atLeast, filter_cons_of_neg (by simpa using hlight),
        filter_cons_of_pos (by simpa using hlight), hall]
      exact congrArg (· ++ a :: l) hnone.symm

variable [DecidableEq κ] {key : α → κ}

/-- The heavy elements among the first `n` heads are the first `n` of the heavy heads. -/
theorem Descending.atLeast_take_heads {l : List α} (hdesc : Descending weight l) (n : ℕ) (w : ι) :
    atLeast weight w ((heads key l).take n) = (heads key (atLeast weight w l)).take n := by
  obtain ⟨rest, heq, hsub⟩ := heads_append key (atLeast weight w l)
    (l.filter fun e ↦ decide (weight e < w))
  rw [← hdesc.atLeast_append w] at heq
  have hheavy : ∀ e ∈ (heads key (atLeast weight w l)).take n, decide (w ≤ weight e) = true := by
    intro e he
    have hmem : e ∈ atLeast weight w l :=
      (heads_sublist key _).subset (mem_of_mem_take he)
    exact decide_eq_true (mem_atLeast.mp hmem).2
  have hlight : ∀ e ∈ rest.take (n - (heads key (atLeast weight w l)).length),
      ¬decide (w ≤ weight e) = true := by
    intro e he
    have hlt := of_mem_filter (hsub.subset (mem_of_mem_take he))
    rw [decide_eq_true_iff] at hlt ⊢
    exact not_le.mpr hlt
  calc atLeast weight w ((heads key l).take n)
      = atLeast weight w ((heads key (atLeast weight w l)).take n ++
          rest.take (n - (heads key (atLeast weight w l)).length)) := by
        rw [heq, take_append]
    _ = (heads key (atLeast weight w l)).take n ++ [] := by
        rw [atLeast, filter_append, List.filter_eq_self.mpr hheavy,
          List.filter_eq_nil_iff.mpr hlight]
    _ = (heads key (atLeast weight w l)).take n := append_nil _

/-- With distinct keys, the first `n` heads show a key down to a weight or are all that heavy if and
only if the key is among the heavy ones or these have `n` keys. -/
theorem Descending.covered_iff {l : List α} (hdesc : Descending weight l) {n : ℕ} {w : ι} {k : κ}
    (hnodup : (((heads key l).take n).map key).Nodup) :
    ((∃ e ∈ (heads key l).take n, key e = k ∧ w ≤ weight e) ∨
        n ≤ (atLeast weight w ((heads key l).take n)).length) ↔
      k ∈ keys key (atLeast weight w l) ∨ n ≤ (keys key (atLeast weight w l)).card := by
  let heavy := heads key (atLeast weight w l)
  have hcut : atLeast weight w ((heads key l).take n) = heavy.take n := hdesc.atLeast_take_heads n w
  have hshown : (∃ e ∈ (heads key l).take n, key e = k ∧ w ≤ weight e) ↔
      k ∈ (heavy.take n).map key := by
    rw [← hcut, mem_map]
    apply exists_congr
    intro e
    rw [mem_atLeast]
    tauto
  have hkey : k ∈ heavy.map key ↔ k ∈ keys key (atLeast weight w l) := by
    rw [mem_map_heads, keys, mem_toFinset]
  have hdistinct : ((heavy.take n).map key).Nodup := by
    rw [← hcut]
    exact hnodup.sublist (List.filter_sublist.map key)
  rw [hshown, hcut, ← hkey, length_take, ← keys_heads]
  rcases Nat.lt_or_ge heavy.length n with hfew | hmany
  · have hfewer : ¬n ≤ (keys key heavy).card :=
      Nat.not_le.mpr ((card_keys_le_length key heavy).trans_lt hfew)
    rw [take_of_length_le hfew.le, Nat.min_eq_right hfew.le]
    exact or_congr_right (iff_of_false (Nat.not_le.mpr hfew) hfewer)
  · have hcard : n ≤ (keys key heavy).card := calc
      n = (heavy.take n).length := (length_take_of_le hmany).symm
      _ = (keys key (heavy.take n)).card := (card_keys_of_nodup key hdistinct).symm
      _ ≤ (keys key heavy).card := Finset.card_le_card (keys_mono key (take_sublist n _))
    exact iff_of_true (Or.inr (le_min le_rfl hmany)) (Or.inr hcard)

end Cuts

end SoulSystem.Library.Ranking
