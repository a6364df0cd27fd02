import SoulSystem.Scirust.Safetensors.File

/-!
# The header as text

What the loops over the bytes of a header do, told on its characters.  A quoted string ends at the
first quote that no backslash precedes, an object ends where its braces outside strings are
balanced, and the header is the sequence of its entries.

No byte of a character outside ASCII is a quote, a backslash or a brace; so the loops over the bytes
stop between two characters, and at the same place.
-/

namespace SoulSystem.Scirust.Safetensors

open Library Str Std List

/-! ## Strings -/

/-- The text before the first unescaped quote, and what follows that quote. -/
def closing : Bool → Str → Option (Str × Str)
  | _, [] => none
  | true, c :: rest => (closing false rest).map fun parts ↦ (c :: parts.1, parts.2)
  | false, c :: rest =>
    if c = quote then some ([], rest)
    else (closing (c = backslash) rest).map fun parts ↦ (c :: parts.1, parts.2)

theorem eq_of_closing {escaped : Bool} {text inner after : Str}
    (hclosing : closing escaped text = some (inner, after)) : text = inner ++ quote :: after := by
  induction text generalizing escaped inner with
  | nil => cases escaped <;> cases hclosing
  | cons c rest ih =>
    have hcons : ∀ {flag : Bool}, (closing flag rest).map (fun parts ↦ (c :: parts.1, parts.2)) =
        some (inner, after) → c :: rest = inner ++ quote :: after := by
      intro flag hmap
      obtain ⟨parts, hparts, heq⟩ := Option.map_eq_some_iff.mp hmap
      cases heq
      rw [cons_append, ← ih hparts]
    cases escaped with
    | true => exact hcons hclosing
    | false =>
      rw [closing] at hclosing
      split at hclosing
      · rename_i hc
        cases hclosing
        rw [hc]
        rfl
      · exact hcons hclosing

/-! ## Objects -/

inductive Mode where
  | outside
  | inside
  | escaped
  deriving DecidableEq, Repr

/-- The text up to where its braces are balanced, and the rest. -/
def balanced : Mode → ℤ → Str → Str × Str
  | _, _, [] => ([], [])
  | .escaped, depth, c :: rest =>
    let parts := balanced .inside depth rest
    (c :: parts.1, parts.2)
  | .inside, depth, c :: rest =>
    let mode := if c = quote then .outside else if c = backslash then .escaped else .inside
    let parts := balanced mode depth rest
    (c :: parts.1, parts.2)
  | .outside, depth, c :: rest =>
    if c = closeBrace ∧ depth = 1 then ([c], rest)
    else
      let mode := if c = quote then .inside else .outside
      let depth :=
        if c = openBrace then depth + 1 else if c = closeBrace then depth - 1 else depth
      let parts := balanced mode depth rest
      (c :: parts.1, parts.2)

theorem balanced_outside (depth : ℤ) (c : Char) (rest : Str) : balanced .outside depth (c :: rest) =
    if c = closeBrace ∧ depth = 1 then ([c], rest)
    else
      let parts := balanced (if c = quote then .inside else .outside)
        (if c = openBrace then depth + 1 else if c = closeBrace then depth - 1 else depth) rest
      (c :: parts.1, parts.2) := rfl

theorem balanced_quote (depth : ℤ) (rest : Str) : balanced .outside depth (quote :: rest) =
    (quote :: (balanced .inside depth rest).1, (balanced .inside depth rest).2) := by
  rw [balanced_outside, if_neg fun hboth ↦ absurd hboth.1 (by decide)]
  rfl

theorem balanced_open (depth : ℤ) (rest : Str) : balanced .outside depth (openBrace :: rest) =
    (openBrace :: (balanced .outside (depth + 1) rest).1,
      (balanced .outside (depth + 1) rest).2) := by
  rw [balanced_outside, if_neg fun hboth ↦ absurd hboth.1 (by decide)]
  rfl

theorem balanced_last (rest : Str) :
    balanced .outside 1 (closeBrace :: rest) = ([closeBrace], rest) := by
  rw [balanced_outside, if_pos ⟨rfl, rfl⟩]

theorem balanced_close {depth : ℤ} (hdepth : depth ≠ 1) (rest : Str) :
    balanced .outside depth (closeBrace :: rest) =
      (closeBrace :: (balanced .outside (depth - 1) rest).1,
        (balanced .outside (depth - 1) rest).2) := by
  rw [balanced_outside, if_neg fun hboth ↦ hdepth hboth.2]
  rfl

theorem balanced_cons {c : Char} (hquote : c ≠ quote) (hopen : c ≠ openBrace)
    (hclose : c ≠ closeBrace) (depth : ℤ) (rest : Str) : balanced .outside depth (c :: rest) =
      (c :: (balanced .outside depth rest).1, (balanced .outside depth rest).2) := by
  rw [balanced_outside, if_neg fun hboth ↦ hclose hboth.1, if_neg hquote, if_neg hopen, if_neg hclose]

theorem balanced_append (mode : Mode) (depth : ℤ) (text : Str) :
    (balanced mode depth text).1 ++ (balanced mode depth text).2 = text := by
  induction text generalizing mode depth with
  | nil => cases mode <;> rfl
  | cons c rest ih =>
    cases mode with
    | escaped => rw [balanced, cons_append, ih]
    | inside => rw [balanced, cons_append, ih]
    | outside =>
      rw [balanced_outside]
      split
      · rfl
      · rw [cons_append, ih]

theorem length_balanced_le (mode : Mode) (depth : ℤ) (text : Str) :
    (balanced mode depth text).2.length ≤ text.length := by
  have hlength := congrArg List.length (balanced_append mode depth text)
  rw [length_append] at hlength
  omega

def stringMode (escaped : Bool) : Mode := if escaped then .escaped else .inside

/-- Within a string, braces do not count. -/
theorem balanced_string (escaped : Bool) (text : Str) (depth : ℤ) :
    balanced (stringMode escaped) depth text =
      match closing escaped text with
      | some (inner, after) =>
        (inner ++ quote :: (balanced .outside depth after).1, (balanced .outside depth after).2)
      | none => (text, []) := by
  induction text generalizing escaped with
  | nil => cases escaped <;> rfl
  | cons c rest ih =>
    cases escaped with
    | true =>
      have hrest := ih false
      simp only [stringMode, if_true, balanced, closing] at hrest ⊢
      rw [if_neg Bool.false_ne_true] at hrest
      rw [hrest]
      cases closing false rest <;> rfl
    | false =>
      by_cases hc : c = quote
      · simp [stringMode, balanced, closing, hc]
      · have hrest := ih (decide (c = backslash))
        have hmode : (if c = backslash then Mode.escaped else .inside) =
            stringMode (decide (c = backslash)) := by simp [stringMode]
        simp only [closing, if_neg hc, balanced, stringMode, Bool.false_eq_true, if_false]
        rw [hmode, hrest]
        cases closing (decide (c = backslash)) rest <;> rfl

/-! ## Entries -/

def isSeparator (c : Char) : Bool := c = ' ' ∨ c = ':'

/-- The object that a text starts with. -/
abbrev object (text : Str) : Str := (balanced .outside 0 text).1

/-- What follows the object that a text starts with. -/
abbrev afterObject (text : Str) : Str := (balanced .outside 0 text).2

theorem length_afterObject_lt {c : Char} {rest inner after : Str}
    (hclosing : closing false rest = some (inner, after)) :
    (afterObject (after.dropWhile isSeparator)).length < (c :: rest).length := by
  have hobject : (afterObject (after.dropWhile isSeparator)).length ≤ _ :=
    length_balanced_le .outside 0 (after.dropWhile isSeparator)
  have hdrop := (dropWhile_sublist isSeparator (l := after)).length_le
  have hrest := congrArg List.length (eq_of_closing hclosing)
  rw [length_append, length_cons] at hrest
  rw [length_cons]
  omega

/-- The names of a header with their objects, up to the first error. -/
def entries : Str → List (Except Failure (Str × Str))
  | [] => []
  | c :: rest =>
    if c ≠ quote then entries rest
    else
      match _ : closing false rest with
      | none => [.error (.invalidData "string non terminée")]
      | some (key, after) =>
        let value := after.dropWhile isSeparator
        if key = metadataKey then entries (afterObject value)
        else if value.head? ≠ some openBrace then
          [.error (.invalidData ("attendu '\x7b' après " ++ String.ofList key))]
        else .ok (key, object value) :: entries (afterObject value)
  termination_by text => text.length
  decreasing_by
    · exact Nat.lt_succ_self _
    · exact length_afterObject_lt (by assumption)
    · exact length_afterObject_lt (by assumption)

theorem length_value_lt {c d : Char} {rest key value content between after : Str}
    (hkey : closing false rest = some (key, between))
    (hvalue : between.dropWhile isSeparator = d :: value)
    (hend : closing false value = some (content, after)) :
    after.length < (c :: rest).length := by
  have hdrop := (dropWhile_sublist isSeparator (l := between)).length_le
  have hfirst := congrArg List.length (eq_of_closing hkey)
  have hlast := congrArg List.length (eq_of_closing hend)
  rw [hvalue] at hdrop
  simp only [length_append, length_cons] at hdrop hfirst hlast ⊢
  omega

/-- The strings of an object in pairs, as far as they are well formed. -/
def pairs : Str → List (Str × Str)
  | [] => []
  | c :: rest =>
    if c ≠ quote then pairs rest
    else
      match _ : closing false rest with
      | none => []
      | some (key, after) =>
        match _ : after.dropWhile isSeparator with
        | [] => []
        | d :: value =>
          if d ≠ quote then []
          else
            match _ : closing false value with
            | none => []
            | some (content, after) =>
              (unescapeJson key, unescapeJson content) :: pairs after
  termination_by text => text.length
  decreasing_by
    · exact Nat.lt_succ_self _
    · exact length_value_lt (by assumption) (by assumption) (by assumption)

/-! ## Equations -/

section

variable {c : Char} {rest key after value content : Str}

theorem entries_of_ne (hc : c ≠ quote) : entries (c :: rest) = entries rest := by
  rw [entries, if_pos hc]

theorem entries_of_open (hclosing : closing false rest = none) :
    entries (quote :: rest) = [.error (.invalidData "string non terminée")] := by
  rw [entries, if_neg (not_not.mpr rfl)]
  split
  · rfl
  · rename_i hsome
    rw [hclosing] at hsome
    cases hsome

theorem entries_of_key (hclosing : closing false rest = some (key, after)) :
    entries (quote :: rest) =
      if key = metadataKey then entries (afterObject (after.dropWhile isSeparator))
      else if (after.dropWhile isSeparator).head? ≠ some openBrace then
        [.error (.invalidData ("attendu '\x7b' après " ++ String.ofList key))]
      else .ok (key, object (after.dropWhile isSeparator)) ::
        entries (afterObject (after.dropWhile isSeparator)) := by
  rw [entries, if_neg (not_not.mpr rfl)]
  split
  · rename_i hnone
    rw [hclosing] at hnone
    cases hnone
  · rename_i key' after' hsome
    cases hclosing.symm.trans hsome
    rfl

theorem pairs_of_ne (hc : c ≠ quote) : pairs (c :: rest) = pairs rest := by
  rw [pairs, if_pos hc]

theorem pairs_of_open (hclosing : closing false rest = none) : pairs (quote :: rest) = [] := by
  rw [pairs, if_neg (not_not.mpr rfl)]
  split
  · rfl
  · rename_i hsome
    rw [hclosing] at hsome
    cases hsome

theorem pairs_of_key (hclosing : closing false rest = some (key, after)) :
    pairs (quote :: rest) =
      match after.dropWhile isSeparator with
      | [] => []
      | d :: value =>
        if d ≠ quote then []
        else
          match closing false value with
          | none => []
          | some (content, after) =>
            (unescapeJson key, unescapeJson content) :: pairs after := by
  rw [pairs, if_neg (not_not.mpr rfl)]
  split
  · rename_i hnone
    rw [hclosing] at hnone
    cases hnone
  · rename_i key' after' hsome
    cases hclosing.symm.trans hsome
    split
    · rename_i hnil
      rw [hnil]
    · rename_i d value hcons
      rw [hcons]
      by_cases hd : d ≠ quote
      · simp only [if_pos hd]
      · simp only [if_neg hd]
        split
        · rename_i hnone
          rw [hnone]
        · rename_i content after hsome
          rw [hsome]

end

end SoulSystem.Scirust.Safetensors
