import Mathlib.Data.List.DropRight
import SoulSystem.Library.Str

/-!
# Words and replacements

The words of a text are its longest parts without white space.  A replacement goes over a text from
the left, and leaves the text up to a character that the replaced string does not have as it is when
that part does not contain the string.
-/

namespace SoulSystem.Library.Str

open List

/-! ## White space -/

/-- The property `White_Space` of Unicode. -/
def isWhitespace (c : Char) : Bool :=
  let n := c.toNat
  (9 ≤ n && n ≤ 13) || n == 32 || n == 133 || n == 160 || n == 5760 ||
    (8192 ≤ n && n ≤ 8202) || n == 8232 || n == 8233 || n == 8239 || n == 8287 || n == 12288

/-- `str::trim`. -/
def trim (text : Str) : Str :=
  (text.dropWhile isWhitespace).rdropWhile isWhitespace

/-- `str::split_whitespace`. -/
def splitWhitespace (text : Str) : List Str :=
  (text.splitOnP isWhitespace).filter fun word ↦ !word.isEmpty

/-- The first word, which is empty when there is none. -/
def firstWord (text : Str) : Str := (splitWhitespace text).head?.getD []

/-- The first word starts a text that has no white space before it. -/
def headWord (text : Str) : Str :=
  (text.dropWhile isWhitespace).takeWhile fun c ↦ !isWhitespace c

/-- The text after the first word. -/
def afterHead (text : Str) : Str :=
  (text.dropWhile isWhitespace).dropWhile fun c ↦ !isWhitespace c

variable {c : Char} {text word rest lead : Str}

/-- A text that is empty or starts with white space. -/
def Stops (rest : Str) : Prop := ∀ c ∈ rest.head?, isWhitespace c = true

theorem splitWhitespace_cons (hc : isWhitespace c = true) :
    splitWhitespace (c :: rest) = splitWhitespace rest := by
  rw [splitWhitespace, splitOnP_cons_eq_if_modifyHead, if_pos hc]
  rfl

theorem splitWhitespace_lead (hlead : ∀ c ∈ lead, isWhitespace c = true) :
    splitWhitespace (lead ++ rest) = splitWhitespace rest := by
  induction lead with
  | nil => rfl
  | cons c lead ih =>
    rw [cons_append, splitWhitespace_cons (hlead c mem_cons_self)]
    exact ih fun c' hc' ↦ hlead c' (mem_cons_of_mem c hc')

/-- A word that is followed by white space or nothing. -/
theorem splitWhitespace_word (hne : word ≠ []) (hword : ∀ c ∈ word, isWhitespace c = false)
    (hrest : Stops rest) : splitWhitespace (word ++ rest) = word :: splitWhitespace rest := by
  have hkeep : (!word.isEmpty) = true := by
    rw [List.isEmpty_eq_false_iff.mpr hne]
    rfl
  cases rest with
  | nil =>
    rw [append_nil, splitWhitespace, splitOnP_eq_singleton hword, filter_cons,
      if_pos hkeep]
    rfl
  | cons c rest =>
    have hc : isWhitespace c = true := hrest c rfl
    rw [splitWhitespace_cons hc, splitWhitespace, splitOnP_append_cons_of_forall_mem hword c hc, filter_cons,
      if_pos hkeep, splitWhitespace]

/-! ## The parts of a text -/

theorem lead_append_headWord (text : Str) :
    text.takeWhile isWhitespace ++ headWord text ++ afterHead text = text := by
  rw [append_assoc, headWord, afterHead, takeWhile_append_dropWhile,
    takeWhile_append_dropWhile]

theorem isWhitespace_of_mem_headWord (hc : c ∈ headWord text) : isWhitespace c = false := by
  have hkept := mem_takeWhile_imp (p := fun c ↦ !isWhitespace c) hc
  exact (Bool.not_eq_true' _).mp hkept

theorem stops_afterHead (text : Str) : Stops (afterHead text) := by
  intro c hc
  have hdropped := head?_dropWhile_not (fun c ↦ !isWhitespace c) (text.dropWhile isWhitespace)
  rw [afterHead] at hc
  rw [Option.mem_def.mp hc] at hdropped
  exact (Bool.not_eq_false' _).mp hdropped

/-- The white space around a text goes, and its first word stays. -/
theorem trim_eq_headWord_append (text : Str) :
    trim text = headWord text ++ (afterHead text).rdropWhile isWhitespace := by
  have hparts : text.dropWhile isWhitespace = headWord text ++ afterHead text := by
    rw [headWord, afterHead, takeWhile_append_dropWhile]
  have hkeep : (headWord text).reverse.dropWhile isWhitespace = (headWord text).reverse := by
    refine List.dropWhile_eq_self_iff.mpr fun hlen ↦ ?_
    rw [isWhitespace_of_mem_headWord (List.mem_reverse.mp (getElem_mem hlen))]
    exact Bool.false_ne_true
  rw [trim, hparts, List.rdropWhile, List.rdropWhile, reverse_append, dropWhile_append]
  split
  case isTrue hblank =>
    rw [List.isEmpty_iff.mp hblank, hkeep, reverse_reverse, reverse_nil, append_nil]
  case isFalse =>
    rw [reverse_append, reverse_reverse]

theorem headWord_ne_nil (hne : trim text ≠ []) : headWord text ≠ [] := by
  intro hnil
  refine hne ?_
  have hstart : text.dropWhile isWhitespace = afterHead text := by
    rw [← nil_append (afterHead text), ← hnil, headWord, afterHead,
      takeWhile_append_dropWhile]
  cases hafter : afterHead text with
  | nil => rw [trim, hstart, hafter, rdropWhile_nil]
  | cons c rest =>
    have hblank := stops_afterHead text c (by rw [hafter]; rfl)
    have hdropped := head?_dropWhile_not isWhitespace text
    rw [hstart, hafter] at hdropped
    exact absurd (hblank.symm.trans hdropped) Bool.true_eq_false.mp

/-! ## Replacements -/

/-- The rest of a replacement, the next characters of which belong to the string just replaced. -/
def replaceFrom (pat new : Str) : ℕ → Str → Str
  | _, [] => []
  | skip + 1, _ :: rest => replaceFrom pat new skip rest
  | 0, c :: rest =>
    if pat.isPrefixOf (c :: rest) then new ++ replaceFrom pat new (pat.length - 1) rest
    else c :: replaceFrom pat new 0 rest

/-- `str::replace` of a non-empty string. -/
def replace (pat new text : Str) : Str := replaceFrom pat new 0 text

/-- A start of a text reaches beyond a first part only over the character after it. -/
theorem prefix_of_append {α : Type*} {pat word rest : List α} (hstart : pat <+: word ++ rest)
    (hrest : ∀ c ∈ rest.head?, c ∉ pat) : pat <+: word := by
  obtain ⟨last, hlast⟩ := hstart
  cases List.append_eq_append_iff.mp hlast with
  | inl hinside =>
    obtain ⟨more, hmore, -⟩ := hinside
    exact ⟨more, hmore.symm⟩
  | inr hbeyond =>
    obtain ⟨more, hmore, htail⟩ := hbeyond
    cases more with
    | nil => exact ⟨[], by rw [hmore, append_nil, append_nil]⟩
    | cons c more =>
      have hmem : c ∈ pat := by
        rw [hmore]
        exact mem_append_right word mem_cons_self
      exact absurd hmem (hrest c (by rw [htail]; rfl))

theorem replace_cons {pat new : Str} (hne : pat ≠ []) (hc : c ∉ pat) :
    replace pat new (c :: rest) = c :: replace pat new rest := by
  refine if_neg fun hstart ↦ hc ?_
  obtain ⟨last, hlast⟩ := List.isPrefixOf_iff_prefix.mp hstart
  cases pat with
  | nil => exact absurd rfl hne
  | cons d pat => exact (List.cons.inj hlast).1 ▸ mem_cons_self

theorem replace_append {pat new : Str} (hpat : ¬ pat <:+: word)
    (hrest : ∀ c ∈ rest.head?, c ∉ pat) :
    replace pat new (word ++ rest) = word ++ replace pat new rest := by
  induction word with
  | nil => rfl
  | cons c word ih =>
    have hstart : ¬ pat.isPrefixOf (c :: (word ++ rest)) := by
      intro hstart
      exact hpat (prefix_of_append (List.isPrefixOf_iff_prefix.mp hstart) hrest).isInfix
    have htail := ih fun hwithin ↦ hpat (infix_cons hwithin)
    rw [replace, cons_append, replaceFrom, if_neg hstart, ← replace, htail]
    rfl

theorem replace_eq_self {pat new : Str} (hpat : ¬ pat <:+: text) : replace pat new text = text := by
  have happend : replace pat new (text ++ []) = text ++ replace pat new [] :=
    replace_append hpat fun _ hc ↦ nomatch hc
  rwa [append_nil, replace, replace, replaceFrom, append_nil] at happend

end SoulSystem.Library.Str
