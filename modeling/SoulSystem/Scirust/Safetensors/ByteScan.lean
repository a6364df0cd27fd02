import SoulSystem.Library.Outcome
import SoulSystem.Scirust.Safetensors.Scan

/-!
# The loops over bytes

Each loop over the bytes of a header agrees with its account on the characters, and it gets there
without a fault: the positions it slices at are between characters, the turns suffice, and the depth
of nesting fits in 32 bits as long as the header has fewer than `2 ^ 31` bytes.

A loop may stand within a character outside ASCII.  The bytes of it that are left are `foreign`.
-/

namespace SoulSystem.Scirust.Safetensors

open Library Str Outcome Std List Function

variable {c : Char} {text rest : Str} {bytes foreign : Bytes} {i : ℕ}

/-- The bytes that are left of a character outside ASCII. -/
abbrev Foreign (foreign : Bytes) : Prop := ∀ b ∈ foreign, 128 ≤ b.toNat

theorem ne_byte_of_foreign (hc : isAscii c = true) {b : UInt8} (hb : 128 ≤ b.toNat) :
    b ≠ byte c := by
  intro heq
  rw [heq, asciiByte_toNat hc] at hb
  have hlt := isAscii_iff.mp hc
  omega

/-- A character's first byte tells whether it is a given ASCII character. -/
theorem utf8_cons_eq (c : Char) (rest : Str) : ∃ first foreign,
    utf8 (c :: rest) = first :: (foreign ++ utf8 rest) ∧ Foreign foreign ∧
      (utf8 [c]).length = foreign.length + 1 ∧ (isAscii c = true → foreign = []) ∧
      ∀ c', isAscii c' = true → (first = byte c' ↔ c = c') := by
  obtain ⟨first, foreign, hbytes, hforeign, -, -⟩ := utf8EncodeChar_eq_cons c
  have hsingle : utf8 [c] = first :: foreign := by
    rw [utf8_cons, hbytes, utf8_nil, append_nil]
  refine ⟨first, foreign, ?_, hforeign, ?_, fun hc ↦ ?_, fun c' hc' ↦ ?_⟩
  · rw [utf8_cons, hbytes, cons_append]
  · rw [hsingle, length_cons]
  · exact (List.cons.inj (hbytes.symm.trans (utf8EncodeChar_of_ascii hc))).2
  · exact first_eq_asciiByte_iff hc' hbytes

theorem length_utf8_cons (c : Char) (rest : Str) :
    (utf8 (c :: rest)).length = (utf8 [c]).length + (utf8 rest).length := by
  rw [← singleton_append, utf8_append, length_append]

theorem length_utf8_quote : (utf8 [quote]).length = 1 := rfl

/-! ## Positions -/

theorem getElem?_of_drop {b : UInt8} {tail : Bytes} (hdrop : bytes.drop i = b :: tail) :
    bytes[i]? = some b := by
  rw [← head?_drop, hdrop]
  rfl

theorem drop_succ_of_drop {b : UInt8} {tail : Bytes} (hdrop : bytes.drop i = b :: tail) :
    bytes.drop (i + 1) = tail := by
  rw [← drop_drop, hdrop]
  rfl

theorem lt_length_of_drop {b : UInt8} {tail : Bytes} (hdrop : bytes.drop i = b :: tail) :
    i < bytes.length := by
  by_contra hle
  rw [drop_of_length_le (Nat.le_of_not_lt hle)] at hdrop
  cases hdrop

theorem sliceBytesFrom_of_le (hle : i ≤ bytes.length) :
    sliceBytesFrom bytes i = .ok (bytes.drop i) := if_pos hle

/-! ## Quotes -/

theorem findUnescapedQuote_backslash (bytes : Bytes) :
    findUnescapedQuote (byte backslash :: bytes) =
      (findUnescapedQuote bytes.tail).map (· + 2) := by
  cases bytes <;> rfl

theorem findUnescapedQuote_cons {b : UInt8} (hbackslash : b ≠ byte backslash)
    (hquote : b ≠ byte quote) (bytes : Bytes) :
    findUnescapedQuote (b :: bytes) = (findUnescapedQuote bytes).map (· + 1) := by
  cases bytes <;> simp only [findUnescapedQuote, if_neg hbackslash, if_neg hquote]

theorem findUnescapedQuote_quote (bytes : Bytes) :
    findUnescapedQuote (byte quote :: bytes) = some 0 := by
  cases bytes <;> rfl

theorem findUnescapedQuote_foreign (hforeign : Foreign foreign) (bytes : Bytes) :
    findUnescapedQuote (foreign ++ bytes) =
      (findUnescapedQuote bytes).map (foreign.length + ·) := by
  induction foreign with
  | nil => simp
  | cons b foreign ih =>
    have hb := hforeign b mem_cons_self
    have hrest : Foreign foreign := fun b' hb' ↦ hforeign b' (mem_cons_of_mem b hb')
    rw [cons_append, findUnescapedQuote_cons (ne_byte_of_foreign (by decide) hb)
      (ne_byte_of_foreign (by decide) hb), ih hrest, Option.map_map]
    congr 1
    funext p
    simp only [comp_apply, length_cons]
    omega

/-- Skipping one byte behind a backslash skips one character, as far as quotes are concerned. -/
theorem findUnescapedQuote_utf8 (text : Str) :
    findUnescapedQuote (utf8 text) =
        (closing false text).map (fun parts ↦ (utf8 parts.1).length) ∧
      (findUnescapedQuote (utf8 text).tail).map (· + 1) =
        (closing true text).map fun parts ↦ (utf8 parts.1).length := by
  induction text with
  | nil => exact ⟨rfl, rfl⟩
  | cons c rest ih =>
    obtain ⟨first, foreign, hbytes, hforeign, hlength, hascii, hfirst⟩ := utf8_cons_eq c rest
    have hmap : ∀ flag, ((closing flag rest).map fun parts ↦ (c :: parts.1, parts.2)).map
        (fun parts ↦ (utf8 parts.1).length) =
          ((closing flag rest).map fun parts ↦ (utf8 parts.1).length).map
            (foreign.length + · + 1) := by
      intro flag
      rw [Option.map_map, Option.map_map]
      congr 1
      funext parts
      rw [comp_apply, comp_apply, length_utf8_cons, hlength]
      omega
    have hskip : (findUnescapedQuote (foreign ++ utf8 rest)).map (· + 1) =
        ((closing false rest).map fun parts ↦ (utf8 parts.1).length).map
          (foreign.length + · + 1) := by
      rw [findUnescapedQuote_foreign hforeign, ih.1, Option.map_map]
      rfl
    constructor
    · rw [hbytes, closing]
      by_cases hquote : c = quote
      · rw [if_pos hquote, (hfirst quote (by decide)).mpr hquote, findUnescapedQuote_quote]
        rfl
      · rw [if_neg hquote, hmap]
        by_cases hback : c = backslash
        · have hnil : foreign = [] := hascii (by rw [hback]; decide)
          rw [(hfirst backslash (by decide)).mpr hback, findUnescapedQuote_backslash, hnil,
            nil_append, decide_eq_true hback, ← ih.2, Option.map_map]
          congr 1
          funext p
          simp only [comp_apply, length_nil]
          omega
        · rw [findUnescapedQuote_cons (fun heq ↦ hback ((hfirst backslash (by decide)).mp heq))
            (fun heq ↦ hquote ((hfirst quote (by decide)).mp heq)), hskip, decide_eq_false hback]
    · rw [hbytes, tail_cons, closing, hmap]
      exact hskip

/-! ## Separators -/

theorem skipSeparators_eq (hdrop : bytes.drop i = utf8 text) :
    skipSeparators bytes i = i + (utf8 (text.takeWhile isSeparator)).length := by
  rw [skipSeparators, hdrop]
  congr 1
  clear hdrop
  induction text with
  | nil => rfl
  | cons c rest ih =>
    obtain ⟨first, foreign, hbytes, -, hlength, hascii, hfirst⟩ := utf8_cons_eq c rest
    have hsame : decide (first = byte ' ' ∨ first = byte ':') = isSeparator c := by
      rw [isSeparator, decide_eq_decide, hfirst ' ' (by decide), hfirst ':' (by decide)]
    rw [hbytes, takeWhile_cons, takeWhile_cons, hsame]
    cases hc : isSeparator c with
    | false => rfl
    | true =>
      have hnil : foreign = [] := by
        apply hascii
        rcases of_decide_eq_true hc with rfl | rfl <;> decide
      rw [if_pos rfl, if_pos rfl, length_utf8_cons, hlength, hnil, nil_append,
        length_cons, ih, length_nil]
      omega

/-! ## Objects -/

theorem checkedI32_of_lt {depth : ℤ} (hlow : -2 ^ 31 ≤ depth) (hhigh : depth < 2 ^ 31) :
    checkedI32 depth = .ok depth := if_pos ⟨hlow, hhigh⟩

/-- The jump over a string, which ends with the text when the string does not. -/
theorem drop_stringEnd (hdrop : bytes.drop i = byte quote :: utf8 rest) : ∃ next after,
    min (i + 1 + (findUnescapedQuote (utf8 rest)).getD (bytes.length - i - 1) + 1) bytes.length =
        next ∧
      bytes.drop next = utf8 after ∧ i < next ∧ next ≤ bytes.length ∧
      ∀ depth, next + (utf8 (balanced .outside depth after).1).length =
        i + 1 + (utf8 (balanced .inside depth rest).1).length := by
  have hlt := lt_length_of_drop hdrop
  have hlength : bytes.length = i + 1 + (utf8 rest).length := by
    have hcount := congrArg List.length hdrop
    rw [length_drop, length_cons] at hcount
    omega
  have hstring : ∀ depth, balanced .inside depth rest = _ := balanced_string false rest
  rw [(findUnescapedQuote_utf8 rest).1]
  cases hclosing : closing false rest with
  | none =>
    refine ⟨bytes.length, [], ?_, drop_length, hlt, le_rfl, fun depth ↦ ?_⟩
    · rw [Option.map_none, Option.getD_none]
      omega
    · rw [hstring depth, hclosing, hlength]
      rfl
  | some parts =>
    obtain ⟨inner, after⟩ := parts
    have hrest := eq_of_closing hclosing
    have hcount : (utf8 rest).length = (utf8 inner).length + 1 + (utf8 after).length := by
      rw [hrest, utf8_append, length_append, length_utf8_cons, length_utf8_quote]
      omega
    refine ⟨i + 1 + (utf8 inner).length + 1, after, ?_, ?_, by omega, by omega, fun depth ↦ ?_⟩
    · change min (i + 1 + (utf8 inner).length + 1) bytes.length = _
      exact Nat.min_eq_left (by omega)
    · have hsplit : bytes.drop i = byte quote :: (utf8 inner ++ byte quote :: utf8 after) := by
        rw [hdrop, hrest, utf8_append]
        rfl
      have hstep := drop_succ_of_drop hsplit
      have hquote : bytes.drop (i + 1 + (utf8 inner).length) = byte quote :: utf8 after := by
        rw [← drop_drop, hstep, drop_left]
      exact drop_succ_of_drop hquote
    · rw [hstring depth, hclosing, utf8_append, length_append, length_utf8_cons quote,
        length_utf8_quote]
      omega

theorem skipBalancedFrom_eq {fuel : ℕ} {depth : ℤ} (hforeign : Foreign foreign)
    (hdrop : bytes.drop i = foreign ++ utf8 text) (hi : i ≤ bytes.length)
    (hfuel : bytes.length < fuel + i) (hlow : -2 ^ 31 ≤ depth - (bytes.length - i : ℕ))
    (hhigh : depth + (bytes.length - i : ℕ) < 2 ^ 31) :
    skipBalancedFrom bytes (byte openBrace) (byte closeBrace) fuel depth i =
      .ok (i + foreign.length + (utf8 (balanced .outside depth text).1).length) := by
  induction fuel generalizing i depth foreign text with
  | zero => omega
  | succ fuel ih =>
    cases foreign with
    | cons b foreign =>
      rw [cons_append] at hdrop
      have hlt := lt_length_of_drop hdrop
      have hb := hforeign b mem_cons_self
      have hrest : Foreign foreign := fun b' hb' ↦ hforeign b' (mem_cons_of_mem b hb')
      rw [skipBalancedFrom, getElem?_of_drop hdrop]
      simp only [if_neg (ne_byte_of_foreign (c := quote) (by decide) hb),
        if_neg (ne_byte_of_foreign (c := openBrace) (by decide) hb),
        if_neg (ne_byte_of_foreign (c := closeBrace) (by decide) hb)]
      rw [ih hrest (drop_succ_of_drop hdrop) (by omega) (by omega) (by omega) (by omega)]
      simp only [length_cons]
      congr 1
      omega
    | nil =>
      rw [nil_append] at hdrop
      cases text with
      | nil =>
        have hnone : bytes[i]? = none := by
          rw [← head?_drop, hdrop]
          rfl
        rw [skipBalancedFrom, hnone]
        rfl
      | cons c rest =>
        obtain ⟨first, foreign, hbytes, hnext, hlength, hascii, hfirst⟩ :=
          utf8_cons_eq c rest
        rw [hbytes] at hdrop
        have hlt := lt_length_of_drop hdrop
        have hstep := drop_succ_of_drop hdrop
        have hquote := hfirst quote (by decide)
        have hopen := hfirst openBrace (by decide)
        have hclose := hfirst closeBrace (by decide)
        have hnil : ∀ c', isAscii c' = true → c = c' → foreign = [] := by
          rintro c' hc' rfl
          exact hascii hc'
        have hnext : ∀ depth' : ℤ, -2 ^ 31 ≤ depth' - (bytes.length - (i + 1) : ℕ) →
            depth' + (bytes.length - (i + 1) : ℕ) < 2 ^ 31 →
            skipBalancedFrom bytes (byte openBrace) (byte closeBrace) fuel depth' (i + 1) =
              .ok (i + (utf8 (c :: (balanced .outside depth' rest).1)).length) := by
          intro depth' hlow' hhigh'
          rw [ih hnext hstep (by omega) (by omega) hlow' hhigh', length_utf8_cons, hlength]
          congr 1
          omega
        rw [skipBalancedFrom, getElem?_of_drop hdrop, length_nil, Nat.add_zero]
        by_cases hcq : c = quote
        · obtain rfl := hnil quote (by decide) hcq
          obtain rfl := (hfirst quote (by decide)).mpr hcq
          subst hcq
          obtain ⟨next, after, hend, hafter, hbefore, hwithin, hcount⟩ :=
            drop_stringEnd hdrop
          have hrec := @ih after [] _ depth hforeign hafter hwithin (by omega) (by omega) (by omega)
          rw [balanced_quote, length_utf8_cons, hlength]
          simp only [if_true]
          rw [sliceBytesFrom_of_le hlt, ok_bind, hstep, nil_append, hend, hrec]
          congr 1
          have hsame := hcount depth
          simp only [length_nil] at hsame ⊢
          omega
        · have hbq : first ≠ byte quote := fun heq ↦ hcq (hquote.mp heq)
          simp only [if_neg hbq]
          by_cases hco : c = openBrace
          · obtain rfl := hopen.mpr hco
            subst hco
            simp only [if_true]
            rw [checkedI32_of_lt (by omega) (by omega), ok_bind,
              hnext (depth + 1) (by omega) (by omega), balanced_open]
            rfl
          · have hbo : first ≠ byte openBrace := fun heq ↦ hco (hopen.mp heq)
            simp only [if_neg hbo]
            by_cases hcc : c = closeBrace
            · obtain rfl := hclose.mpr hcc
              obtain rfl := hnil closeBrace (by decide) hcc
              subst hcc
              simp only [if_true]
              rw [checkedI32_of_lt (by omega) (by omega), ok_bind]
              by_cases hone : depth = 1
              · subst hone
                rw [balanced_last, if_pos (by omega)]
                rfl
              · rw [if_neg (by omega), hnext (depth - 1) (by omega) (by omega),
                  balanced_close hone]
                rfl
            · have hbc : first ≠ byte closeBrace := fun heq ↦ hcc (hclose.mp heq)
              rw [if_neg hbc, hnext depth (by omega) (by omega), balanced_cons hcq hco hcc]
              rfl

theorem skipBalanced_eq (hdrop : bytes.drop i = utf8 text) (hi : i ≤ bytes.length)
    (hlength : bytes.length < 2 ^ 31) :
    skipBalanced bytes i (byte openBrace) (byte closeBrace) =
      .ok (i + (utf8 (object text)).length) := by
  have hforeign : Foreign [] := fun b hb ↦ absurd hb not_mem_nil
  exact skipBalancedFrom_eq hforeign hdrop hi (by omega) (by omega) (by omega)

/-! ## The header -/

/-- The part of a text up to a position is what was passed. -/
theorem drop_utf8_append (before text : Str) :
    (utf8 (before ++ text)).drop (utf8 before).length = utf8 text := by
  rw [utf8_append, drop_left]

theorem getElem?_utf8 {c : Char} (hc : isAscii c = true) (before text : Str) :
    (utf8 (before ++ text))[(utf8 before).length]? = some (byte c) ↔ text.head? = some c := by
  rw [← head?_drop, drop_utf8_append]
  cases text with
  | nil => exact iff_of_false (by simp [utf8_nil]) (by simp)
  | cons d text =>
    obtain ⟨first, foreign, hbytes, -, -, -, hfirst⟩ := utf8_cons_eq d text
    rw [hbytes, head?_cons, head?_cons, Option.some_inj, Option.some_inj]
    exact hfirst c hc

theorem sliceText_append {before inner rest : Str} {start stop : ℕ}
    (hstart : start = (utf8 before).length) (hstop : stop = start + (utf8 inner).length) :
    sliceText (before ++ inner ++ rest) start stop = .ok inner := by
  rw [sliceText, slice_append hstart hstop]
  rfl

theorem skipSeparators_utf8 {before text : Str} (hi : i = (utf8 before).length) :
    skipSeparators (utf8 (before ++ text)) i =
      (utf8 (before ++ text.takeWhile isSeparator)).length := by
  have hdrop : (utf8 (before ++ text)).drop i = utf8 text := by rw [hi, drop_utf8_append]
  rw [skipSeparators_eq hdrop, utf8_append before, length_append, hi]

theorem skipBalanced_utf8 {before text : Str} (hi : i = (utf8 before).length)
    (hlength : (utf8 (before ++ text)).length < 2 ^ 31) :
    skipBalanced (utf8 (before ++ text)) i (byte openBrace) (byte closeBrace) =
      .ok (utf8 (before ++ object text)).length := by
  have hdrop : (utf8 (before ++ text)).drop i = utf8 text := by rw [hi, drop_utf8_append]
  have hle : i ≤ (utf8 (before ++ text)).length := by
    rw [utf8_append, length_append, hi]
    omega
  rw [skipBalanced_eq hdrop hle hlength, utf8_append before, length_append, hi]

/-- A quoted string at a position, sliced between its quotes. -/
theorem closing_utf8 (before rest : Str) (hi : i = (utf8 before).length) :
    sliceBytesFrom (utf8 (before ++ quote :: rest)) (i + 1) = .ok (utf8 rest) ∧
      findUnescapedQuote (utf8 rest) =
        (closing false rest).map (fun parts ↦ (utf8 parts.1).length) ∧
      ∀ inner after, closing false rest = some (inner, after) →
        sliceText (before ++ quote :: rest) (i + 1) (i + 1 + (utf8 inner).length) = .ok inner ∧
          before ++ quote :: rest = (before ++ quote :: inner ++ [quote]) ++ after ∧
          i + 1 + (utf8 inner).length + 1 = (utf8 (before ++ quote :: inner ++ [quote])).length := by
  have hstart : i + 1 = (utf8 (before ++ [quote])).length := by
    rw [utf8_append, length_append, length_utf8_quote, hi]
  have hsplit : before ++ quote :: rest = (before ++ [quote]) ++ rest := by simp
  refine ⟨?_, (findUnescapedQuote_utf8 rest).1, fun inner after hclosing ↦ ⟨?_, ?_, ?_⟩⟩
  · have hle : i + 1 ≤ (utf8 (before ++ quote :: rest)).length := by
      rw [hsplit, utf8_append (before ++ [quote]), length_append, ← hstart]
      exact Nat.le_add_right _ _
    rw [sliceBytesFrom_of_le hle, hsplit, hstart, drop_utf8_append]
  · rw [hsplit, eq_of_closing hclosing, ← append_assoc]
    exact sliceText_append hstart rfl
  · rw [eq_of_closing hclosing]
    simp
  · rw [utf8_append, length_append, utf8_append, length_append, length_utf8_cons, length_utf8_quote, hi]
    omega

/-! ## Turns of a loop -/

/-- What a loop over a header does at its end, at a byte that is no quote, and at a quote. -/
structure Turns (header : Str) {γ : Type} (account : Str → γ) (Goal : ℕ → ℕ → γ → Prop) : Prop where
  past : ∀ c rest, c ≠ quote → account (c :: rest) = account rest
  done : ∀ fuel i, (utf8 header)[i]? = none → Goal (fuel + 1) i (account [])
  pass : ∀ fuel i b found, (utf8 header)[i]? = some b → b ≠ byte quote →
    Goal fuel (i + 1) found → Goal (fuel + 1) i found
  atQuote : ∀ fuel before rest, header = before ++ quote :: rest →
    (∀ passed left, header = passed ++ left → (utf8 before).length < (utf8 passed).length →
      Goal fuel (utf8 passed).length (account left)) →
    Goal (fuel + 1) (utf8 before).length (account (quote :: rest))

section

variable {header : Str} {γ : Type} {account : Str → γ} {Goal : ℕ → ℕ → γ → Prop}

theorem Turns.run (hturns : Turns header account Goal)
    {fuel : ℕ} {before : Str} (hforeign : Foreign foreign) (hheader : header = before ++ text)
    (hdrop : (utf8 header).drop i = foreign ++ utf8 text)
    (hbefore : (utf8 before).length = i + foreign.length)
    (hfuel : (utf8 header).length < fuel + i) : Goal fuel i (account text) := by
  induction fuel generalizing before foreign text i with
  | zero =>
    rw [hheader, utf8_append, length_append] at hfuel
    omega
  | succ fuel ih =>
    cases foreign with
    | cons b foreign =>
      rw [cons_append] at hdrop
      have hb := hforeign b mem_cons_self
      have hrest : Foreign foreign := fun b' hb' ↦ hforeign b' (mem_cons_of_mem b hb')
      rw [length_cons] at hbefore
      exact hturns.pass fuel i b _ (getElem?_of_drop hdrop) (ne_byte_of_foreign (by decide) hb)
        (ih hrest hheader (drop_succ_of_drop hdrop) (by omega) (by omega))
    | nil =>
      rw [nil_append] at hdrop
      rw [length_nil, Nat.add_zero] at hbefore
      cases text with
      | nil =>
        refine hturns.done fuel i ?_
        rw [← head?_drop, hdrop]
        rfl
      | cons c rest =>
        by_cases hcq : c = quote
        · subst hcq hbefore
          refine hturns.atQuote fuel before rest hheader fun passed left hsplit hlt ↦ ?_
          exact ih hforeign hsplit (hsplit ▸ drop_utf8_append passed left) rfl (by omega)
        · obtain ⟨first, foreign, hbytes, hnext, hcount, -, hfirst⟩ := utf8_cons_eq c rest
          rw [hbytes] at hdrop
          have hsame : header = (before ++ [c]) ++ rest := by rw [hheader, append_assoc]; rfl
          have hlength : (utf8 (before ++ [c])).length = i + 1 + foreign.length := by
            rw [utf8_append, length_append, hcount]
            omega
          rw [hturns.past c rest hcq]
          exact hturns.pass fuel i first _ (getElem?_of_drop hdrop)
            (fun heq ↦ hcq ((hfirst quote (by decide)).mp heq))
            (ih hnext hsame (drop_succ_of_drop hdrop) hlength (by omega))

/-- From the start, a turn for each byte and one for the end suffice. -/
theorem Turns.run_all (hturns : Turns header account Goal) :
    Goal ((utf8 header).length + 1) 0 (account header) :=
  @Turns.run header [] 0 _ _ account Goal hturns _ [] (fun _ hb ↦ absurd hb not_mem_nil)
    rfl rfl rfl (Nat.lt_succ_self _)

end

section

variable {τ : Type} (read : Str → Bytes → Except Failure τ) (data : Bytes)

def insertPair (out : ExtTreeMap Str τ) (pair : Str × τ) : ExtTreeMap Str τ :=
  out.insert pair.1 pair.2

def addEntry (out : ExtTreeMap Str τ) : Except Failure (Str × Str) →
    Except Failure (ExtTreeMap Str τ)
  | .error failure => .error failure
  | .ok (key, obj) => do
      let value ← read obj data
      return out.insert key value

/-- What is passed from a quote up to the value behind the key. -/
abbrev passedKey (before key after : Str) : Str :=
  before ++ quote :: key ++ [quote] ++ after.takeWhile isSeparator

theorem header_eq_of_closing (before : Str) {key after : Str}
    (hclosing : closing false rest = some (key, after)) :
    before ++ quote :: rest = (passedKey before key after ++ object (after.dropWhile isSeparator)) ++
      afterObject (after.dropWhile isSeparator) := by
  rw [append_assoc, balanced_append, passedKey, append_assoc,
    takeWhile_append_dropWhile, eq_of_closing hclosing]
  simp

theorem length_before_lt (before key after tail : Str) :
    (utf8 before).length < (utf8 (passedKey before key after ++ tail)).length := by
  have hsplit : passedKey before key after ++ tail =
      before ++ quote :: (key ++ [quote] ++ after.takeWhile isSeparator ++ tail) := by
    simp [passedKey]
  rw [hsplit, utf8_append, length_append, length_utf8_cons, length_utf8_quote]
  omega

/-- One turn of the loop at a quote. -/
theorem parseEntriesFrom_quote {before : Str} {fuel : ℕ} {out : ExtTreeMap Str τ}
    (hi : i = (utf8 before).length)
    (hlength : (utf8 (before ++ quote :: rest)).length < 2 ^ 31) :
    parseEntriesFrom read (before ++ quote :: rest) data (fuel + 1) i out =
      match closing false rest with
      | none => .error (.invalidData "string non terminée")
      | some (key, after) =>
        let value := after.dropWhile isSeparator
        let next := (utf8 (passedKey before key after ++ object value)).length
        if key = metadataKey then
          parseEntriesFrom read (before ++ quote :: rest) data fuel next out
        else if value.head? ≠ some openBrace then
          .error (.invalidData ("attendu '\x7b' après " ++ String.ofList key))
        else read (object value) data >>= fun t ↦
          parseEntriesFrom read (before ++ quote :: rest) data fuel next (out.insert key t) := by
  obtain ⟨hslice, hfind, hinner⟩ := closing_utf8 before rest hi
  have hfirst : (utf8 (before ++ quote :: rest))[i]? = some (byte quote) := by
    rw [hi, getElem?_utf8 (by decide)]
    rfl
  rw [parseEntriesFrom, hfirst]
  simp only [ne_eq, not_true_eq_false, if_false]
  rw [hslice, ok_bind, hfind]
  cases hclosing : closing false rest with
  | none => rfl
  | some parts =>
    obtain ⟨key, after⟩ := parts
    obtain ⟨hkey, hsame, hend⟩ := hinner key after hclosing
    have hvalue : before ++ quote :: rest =
        passedKey before key after ++ after.dropWhile isSeparator := by
      rw [hsame, passedKey, append_assoc _ (after.takeWhile isSeparator),
        takeWhile_append_dropWhile]
    have hobject : before ++ quote :: rest =
        passedKey before key after ++ object (after.dropWhile isSeparator) ++
          afterObject (after.dropWhile isSeparator) := header_eq_of_closing before hclosing
    have hseparators : skipSeparators (utf8 (before ++ quote :: rest))
        (i + 1 + (utf8 key).length + 1) = (utf8 (passedKey before key after)).length := by
      rw [hsame, skipSeparators_utf8 hend]
    have hskip : skipBalanced (utf8 (before ++ quote :: rest))
        (utf8 (passedKey before key after)).length (byte openBrace) (byte closeBrace) =
          .ok (utf8 (passedKey before key after ++
            object (after.dropWhile isSeparator))).length := by
      rw [hvalue] at hlength ⊢
      exact skipBalanced_utf8 rfl hlength
    have hhead : (utf8 (before ++ quote :: rest))[(utf8 (passedKey before key after)).length]? =
        some (byte openBrace) ↔ (after.dropWhile isSeparator).head? = some openBrace := by
      rw [hvalue, getElem?_utf8 (by decide)]
    have hread : sliceText (before ++ quote :: rest)
        (utf8 (passedKey before key after)).length
        (utf8 (passedKey before key after ++ object (after.dropWhile isSeparator))).length =
          .ok (object (after.dropWhile isSeparator)) := by
      rw [hobject]
      exact sliceText_append rfl (by rw [utf8_append, length_append])
    rw [Option.map_some, orInvalid, ok_bind, hkey, ok_bind, hseparators, hskip, ok_bind, ok_bind,
      hread, ok_bind]
    simp only [hhead]

/-- The loop over the header reads the entries in turn. -/
theorem parseEntries_eq {header : Str} (hlength : (utf8 header).length < 2 ^ 31) :
    parseEntries read header data = (entries header).foldlM (addEntry read data) ∅ := by
  refine @Turns.run_all header _ entries (fun fuel i found ↦ ∀ out,
    parseEntriesFrom read header data fuel i out = found.foldlM (addEntry read data) out)
    ⟨fun _ _ ↦ entries_of_ne, fun fuel i hnone out ↦ ?_, fun fuel i b found hget hb hrec out ↦ ?_,
      fun fuel before rest hheader hrec out ↦ ?_⟩ ∅
  · rw [parseEntriesFrom, hnone, entries]
    rfl
  · rw [parseEntriesFrom, hget]
    simp only [if_pos hb]
    exact hrec out
  · rw [hheader] at hlength hrec ⊢
    rw [parseEntriesFrom_quote read data rfl hlength]
    cases hclosing : closing false rest with
    | none =>
      rw [entries_of_open hclosing]
      rfl
    | some parts =>
      obtain ⟨key, after⟩ := parts
      have hnext := hrec _ _ (header_eq_of_closing before hclosing)
        (length_before_lt before key after (object (after.dropWhile isSeparator)))
      rw [entries_of_key hclosing]
      simp only [hnext]
      split
      · rfl
      · split
        · rfl
        · rw [foldlM_cons, addEntry]
          cases read (object (after.dropWhile isSeparator)) data <;> rfl

end

/-! ## Metadata -/

theorem text_eq_of_closing (before : Str) {key after : Str}
    (hclosing : closing false rest = some (key, after)) :
    before ++ quote :: rest = passedKey before key after ++ after.dropWhile isSeparator := by
  rw [header_eq_of_closing before hclosing, append_assoc, balanced_append]

/-- One turn of the loop at a quote. -/
theorem metadataFrom_quote {before : Str} {fuel : ℕ} {metadata : ExtTreeMap Str Str}
    (hi : i = (utf8 before).length) :
    metadataFrom (before ++ quote :: rest) (fuel + 1) i metadata =
      match closing false rest with
      | none => .ok metadata
      | some (key, after) =>
        match after.dropWhile isSeparator with
        | [] => .ok metadata
        | d :: value =>
          if d ≠ quote then .ok metadata
          else
            match closing false value with
            | none => .ok metadata
            | some (content, _) =>
              metadataFrom (before ++ quote :: rest) fuel
                (utf8 (passedKey before key after ++ quote :: content ++ [quote])).length
                (insertPair metadata (unescapeJson key, unescapeJson content)) := by
  obtain ⟨hslice, hfind, hinner⟩ := closing_utf8 before rest hi
  have hfirst : (utf8 (before ++ quote :: rest))[i]? = some (byte quote) := by
    rw [hi, getElem?_utf8 (by decide)]
    rfl
  rw [metadataFrom, hfirst]
  simp only [ne_eq, not_true_eq_false, if_false]
  rw [hslice, ok_bind, hfind]
  cases hclosing : closing false rest with
  | none => rfl
  | some parts =>
    obtain ⟨key, after⟩ := parts
    obtain ⟨hkey, hsame, hend⟩ := hinner key after hclosing
    have hseparators : skipSeparators (utf8 (before ++ quote :: rest))
        (i + 1 + (utf8 key).length + 1) = (utf8 (passedKey before key after)).length := by
      rw [hsame, skipSeparators_utf8 hend]
    have hvalue := text_eq_of_closing before hclosing
    have hhead := getElem?_utf8 (c := quote) (by decide) (passedKey before key after)
      (after.dropWhile isSeparator)
    rw [← hvalue] at hhead
    simp only [Option.map_some]
    rw [hkey, ok_bind, hseparators]
    cases hrest : after.dropWhile isSeparator with
    | nil =>
      rw [hrest] at hhead
      rw [if_pos fun heq ↦ by cases hhead.mp heq]
    | cons d value =>
      rw [hrest] at hhead hvalue
      by_cases hd : d = quote
      · subst hd
        obtain ⟨hslice', hfind', hinner'⟩ :=
          closing_utf8 (passedKey before key after) value rfl
        rw [if_neg (not_not.mpr (hhead.mpr rfl)), hvalue, hslice', ok_bind, hfind']
        simp only [not_true_eq_false, if_false]
        cases hclose : closing false value with
        | none => rfl
        | some parts =>
          obtain ⟨content, last⟩ := parts
          obtain ⟨hcontent, -, hlast⟩ := hinner' content last hclose
          simp only [Option.map_some]
          rw [hcontent, ok_bind, hlast]
          rfl
      · have hother : d ≠ quote := hd
        rw [if_pos fun heq ↦ hd (Option.some.inj (hhead.mp heq))]
        simp only [if_pos hother]

/-- The loop over an object collects its pairs. -/
theorem metadataFrom_eq (obj : Str) : metadataFrom obj ((utf8 obj).length + 1) 0 ∅ =
    .ok ((pairs obj).foldl insertPair ∅) := by
  refine @Turns.run_all obj _ pairs (fun fuel i found ↦ ∀ metadata,
    metadataFrom obj fuel i metadata = .ok (found.foldl insertPair metadata))
    ⟨fun _ _ ↦ pairs_of_ne, fun fuel i hnone out ↦ ?_, fun fuel i b found hget hb hrec out ↦ ?_,
      fun fuel before rest hobj hrec out ↦ ?_⟩ ∅
  · rw [metadataFrom, hnone, pairs]
    rfl
  · rw [metadataFrom, hget]
    simp only [if_pos hb]
    exact hrec out
  · rw [hobj] at hrec ⊢
    rw [metadataFrom_quote rfl]
    cases hclosing : closing false rest with
    | none =>
      rw [pairs_of_open hclosing]
      rfl
    | some parts =>
      obtain ⟨key, after⟩ := parts
      rw [pairs_of_key hclosing]
      have hvalue := text_eq_of_closing before hclosing
      dsimp only
      cases hrest : after.dropWhile isSeparator with
      | nil => rfl
      | cons d value =>
        by_cases hd : d = quote
        · subst hd
          simp only [ne_eq, not_true_eq_false, if_false]
          cases hclose : closing false value with
          | none => rfl
          | some parts =>
            obtain ⟨content, last⟩ := parts
            have hassoc : passedKey before key after ++ quote :: content ++ [quote] =
                passedKey before key after ++ (quote :: content ++ [quote]) :=
              append_assoc ..
            have hsplit : before ++ quote :: rest =
                passedKey before key after ++ (quote :: content ++ [quote]) ++ last := by
              rw [hvalue, hrest, eq_of_closing hclose]
              simp
            dsimp only
            rw [hassoc, foldl_cons]
            exact hrec _ _ hsplit (length_before_lt before key after _) _
        · have hother : d ≠ quote := hd
          simp only [if_pos hother]
          rfl

/-- The pairs of the section behind the first occurrence of its name. -/
def sectionPairs (header : Str) : List (Str × Str) :=
  match splitOnce metadataNeedle header with
  | none => []
  | some parts => pairs (object parts.2)

theorem extractMetadata_eq {header : Str} (hlength : (utf8 header).length < 2 ^ 31) :
    extractMetadata header = .ok ((sectionPairs header).foldl insertPair ∅) := by
  unfold extractMetadata sectionPairs find
  cases hsplit : splitOnce metadataNeedle header with
  | none => rfl
  | some parts =>
    have hheader := eq_append_of_splitOnce hsplit
    have hstart : (utf8 parts.1).length + (utf8 metadataNeedle).length =
        (utf8 (parts.1 ++ metadataNeedle)).length := by
      rw [utf8_append, length_append]
    have hobject : header =
        parts.1 ++ metadataNeedle ++ object parts.2 ++ afterObject parts.2 := by
      rw [append_assoc _ (object parts.2), balanced_append]
      exact hheader
    have hskip : skipBalanced (utf8 header) (utf8 (parts.1 ++ metadataNeedle)).length
        (byte openBrace) (byte closeBrace) =
          .ok (utf8 (parts.1 ++ metadataNeedle ++ object parts.2)).length := by
      have hsame : header = (parts.1 ++ metadataNeedle) ++ parts.2 := hheader
      rw [hsame] at hlength ⊢
      exact skipBalanced_utf8 rfl hlength
    have hslice : sliceText header (utf8 (parts.1 ++ metadataNeedle)).length
        (utf8 (parts.1 ++ metadataNeedle ++ object parts.2)).length =
          .ok (object parts.2) := by
      nth_rewrite 1 [hobject]
      exact sliceText_append rfl (by rw [utf8_append, length_append])
    rw [Option.map_some]
    simp only
    rw [hstart, hskip, ok_bind, hslice, ok_bind]
    exact metadataFrom_eq _

end SoulSystem.Scirust.Safetensors
