import Mathlib.Data.List.Infix
import SoulSystem.Library.Ascii
import SoulSystem.Library.Words

/-!
# The rewrites of a command

Before a command is checked, escapes are decoded, `IFS` is a blank, backticks go and a command
substitution becomes blanks.  The bytes of the text are read as characters in this.  Before it is
run, its separators and redirections become blanks instead.

A part of a text without escapes, without `IFS`, backticks and substitutions is kept by the rewrite
for the check when an ASCII blank or nothing follows it, apart from its bytes being read as
characters.  The rewrite for the execution keeps a part without separators.
-/

namespace SoulSystem.Sandbox

open Library Str

def backtick : Char := Char.ofNat 96

def quote : UInt8 := 39

def backslash : UInt8 := 92

/-! ## ANSI C quoting -/

def hexDigit (c : Char) : Option ℕ :=
  if '0' ≤ c ∧ c ≤ '9' then some (c.toNat - 48)
  else if 'a' ≤ c ∧ c ≤ 'f' then some (c.toNat - 87)
  else if 'A' ≤ c ∧ c ≤ 'F' then some (c.toNat - 55)
  else none

def hexDigits (value : ℕ) : Str → Option UInt8
  | [] => some (UInt8.ofNat value)
  | c :: rest => (hexDigit c).bind fun digit ↦
      if value * 16 + digit < 256 then hexDigits (value * 16 + digit) rest else none

/-- `u8::from_str_radix` in base 16, which takes a sign. -/
def fromStrRadix : Str → Option UInt8
  | [] => none
  | c :: rest => if c = '+' then if rest = [] then none else hexDigits 0 rest else hexDigits 0 (c :: rest)

/-- The characters up to a quote, as long as those before take less than two bytes. -/
def takeHex (hex : Str) : Bytes → Str × Bytes
  | [] => (hex, [])
  | b :: rest =>
    if b ≠ quote ∧ (utf8 hex).length < 2 then takeHex (hex ++ [latin1 b]) rest
    else (hex, b :: rest)

/-- The number and the quote that end an escape. -/
def closeEscape (hex : Str) : Bytes → Option (Char × Bytes)
  | [] => none
  | b :: rest =>
    if (utf8 hex).length = 2 ∧ b = quote then (fromStrRadix hex).map fun byte ↦ (latin1 byte, rest)
    else none

/-- The character of an escape at the start of the bytes, and the bytes after it. -/
def ansiEscape : Bytes → Option (Char × Bytes)
  | b₀ :: b₁ :: b₂ :: b₃ :: rest =>
    if b₀ = asciiByte '$' ∧ b₁ = quote ∧ b₂ = backslash ∧ b₃ = asciiByte 'x' then
      closeEscape (takeHex [] rest).1 (takeHex [] rest).2
    else none
  | _ => none

/-- The bytes from some position on, the next ones of which belong to an escape. -/
def decodeFrom : ℕ → Bytes → Str
  | _, [] => []
  | skip + 1, _ :: rest => decodeFrom skip rest
  | 0, b :: rest =>
    match ansiEscape (b :: rest) with
    | some (c, after) => c :: decodeFrom (rest.length - after.length) rest
    | none => latin1 b :: decodeFrom 0 rest

def decodeAnsiCQuoting (s : Str) : Str := decodeFrom 0 (utf8 s)

/-! ## Metacharacters -/

def neutralizeIfs (s : Str) : Str :=
  replace "$_IFS".toList " ".toList (replace "$\x7bIFS\x7d".toList " ".toList s)

/-- The bytes from some position on, within a number of open parentheses of a substitution. -/
def neutralizeFrom : ℕ → Bytes → Str
  | _, [] => []
  | depth + 1, b :: rest =>
    ' ' :: neutralizeFrom
      (if b = asciiByte '(' then depth + 2 else if b = asciiByte ')' then depth else depth + 1) rest
  | 0, [b] => [latin1 b]
  | 0, b :: b' :: rest =>
    if b = asciiByte '$' ∧ b' = asciiByte '(' then ' ' :: ' ' :: neutralizeFrom 1 rest
    else latin1 b :: neutralizeFrom 0 (b' :: rest)

def neutralizeShellMetachars (s : Str) : Str :=
  neutralizeFrom 0 (utf8 (s.filter fun c ↦ c ≠ backtick))

/-- The rewrite for the check. -/
def normalize (cmd : Str) : Str :=
  neutralizeShellMetachars (neutralizeIfs (decodeAnsiCQuoting cmd))

/-! ## Separators -/

def neutralizeRedirectsAndPipes : Str → Str
  | [] => []
  | '|' :: '|' :: rest => ' ' :: ' ' :: neutralizeRedirectsAndPipes rest
  | '|' :: rest => ' ' :: neutralizeRedirectsAndPipes rest
  | '&' :: '&' :: rest => ' ' :: ' ' :: neutralizeRedirectsAndPipes rest
  | ';' :: rest => ' ' :: neutralizeRedirectsAndPipes rest
  | '>' :: rest => ' ' :: neutralizeRedirectsAndPipes rest
  | '<' :: rest => ' ' :: neutralizeRedirectsAndPipes rest
  | c :: rest => c :: neutralizeRedirectsAndPipes rest

/-- The rewrite for the execution. -/
def sanitizeForExecution (cmd : Str) : Str := neutralizeRedirectsAndPipes cmd

/-! ## What the rewrites keep -/

/-- An ASCII character that is not blank. -/
def Visible (c : Char) : Prop := 32 < c.toNat ∧ c.toNat < 128

instance (c : Char) : Decidable (Visible c) := inferInstanceAs (Decidable (_ ∧ _))

/-- An ASCII blank, or nothing, is next. -/
def Opens (rest : Str) : Prop := ∀ c ∈ rest.head?, isWhitespace c = true ∧ isAscii c = true

theorem Visible.not_isWhitespace {c : Char} (hc : Visible c) : isWhitespace c = false := by
  obtain ⟨hlo, hhi⟩ := hc
  simp only [isWhitespace, Bool.or_eq_false_iff, Bool.and_eq_false_iff, decide_eq_false_iff_not,
    beq_eq_false_iff_ne, ne_eq]
  omega

/-! ## Escapes -/

/-- No escape starts within the bytes. -/
def Unescaped (bytes : Bytes) : Prop := ∀ tail ∈ bytes.tails, ansiEscape tail = none

instance (bytes : Bytes) : Decidable (Unescaped bytes) :=
  inferInstanceAs (Decidable (∀ tail ∈ bytes.tails, _))

variable {bytes rest : Bytes} {b : UInt8} {hex : Str} {c : Char}

theorem visible_of_hexDigit {digit : ℕ} (hdigit : hexDigit c = some digit) : Visible c := by
  have hlo : ∀ d : Char, d ≤ c ↔ d.toNat ≤ c.toNat := fun _ ↦ Iff.rfl
  have hhi : ∀ d : Char, c ≤ d ↔ c.toNat ≤ d.toNat := fun _ ↦ Iff.rfl
  have h0 : ('0' : Char).toNat = 48 := rfl
  have h9 : ('9' : Char).toNat = 57 := rfl
  have ha : ('a' : Char).toNat = 97 := rfl
  have hf : ('f' : Char).toNat = 102 := rfl
  have hA : ('A' : Char).toNat = 65 := rfl
  have hF : ('F' : Char).toNat = 70 := rfl
  rw [hexDigit] at hdigit
  simp only [hlo, hhi] at hdigit
  rw [Visible]
  grind

theorem visible_of_hexDigits {value : ℕ} {byte : UInt8} (hbyte : hexDigits value hex = some byte) :
    ∀ c ∈ hex, Visible c := by
  induction hex generalizing value with
  | nil => exact fun _ hc ↦ absurd hc List.not_mem_nil
  | cons c hex ih =>
    obtain ⟨digit, hdigit, hrest⟩ := Option.bind_eq_some_iff.mp hbyte
    have htail := ih (Option.ite_none_right_eq_some.mp hrest).2
    exact List.forall_mem_cons.mpr ⟨visible_of_hexDigit hdigit, htail⟩

theorem visible_of_fromStrRadix {byte : UInt8} (hbyte : fromStrRadix hex = some byte) :
    ∀ c ∈ hex, Visible c := by
  cases hex with
  | nil => exact fun _ hc ↦ absurd hc List.not_mem_nil
  | cons c hex =>
    rw [fromStrRadix] at hbyte
    split at hbyte
    case isTrue hsign =>
      have htail := visible_of_hexDigits (Option.ite_none_left_eq_some.mp hbyte).2
      refine List.forall_mem_cons.mpr ⟨?_, htail⟩
      rw [hsign, Visible]
      decide
    case isFalse => exact visible_of_hexDigits hbyte

/-- What the loop takes, and that it takes it whatever follows the quote. -/
theorem takeHex_eq (hex : Str) (bytes : Bytes) : ∃ taken, taken ++ (takeHex hex bytes).2 = bytes ∧
    (takeHex hex bytes).1 = hex ++ taken.map latin1 ∧
    ∀ rest, takeHex hex (taken ++ quote :: rest) = (hex ++ taken.map latin1, quote :: rest) := by
  have hstop : ∀ hex rest, takeHex hex (quote :: rest) = (hex, quote :: rest) :=
    fun _ _ ↦ if_neg fun htake ↦ htake.1 rfl
  induction bytes generalizing hex with
  | nil => exact ⟨[], rfl, (List.append_nil hex).symm, fun rest ↦ by
      rw [List.nil_append, hstop, List.map_nil, List.append_nil]⟩
  | cons b bytes ih =>
    by_cases htake : b ≠ quote ∧ (utf8 hex).length < 2
    · obtain ⟨taken, hbytes, hhex, hquote⟩ := ih (hex ++ [latin1 b])
      have hstep : ∀ rest, takeHex hex (b :: rest) = takeHex (hex ++ [latin1 b]) rest :=
        fun _ ↦ if_pos htake
      refine ⟨b :: taken, ?_, ?_, fun rest ↦ ?_⟩
      · rw [hstep, List.cons_append, hbytes]
      · rw [hstep, hhex, List.append_assoc]
        rfl
      · rw [List.cons_append, hstep, hquote, List.append_assoc]
        rfl
    · have hdone : takeHex hex (b :: bytes) = (hex, b :: bytes) := if_neg htake
      exact ⟨[], by rw [hdone]; rfl, by rw [hdone, List.map_nil, List.append_nil], fun rest ↦ by
        rw [List.nil_append, hstop, List.map_nil, List.append_nil]⟩

theorem closeEscape_eq {after : Bytes} (hclose : closeEscape hex rest = some (c, after)) :
    rest = quote :: after ∧ (∀ c ∈ hex, Visible c) ∧
      ∀ rest, closeEscape hex (quote :: rest) = some (c, rest) := by
  cases rest with
  | nil => cases hclose
  | cons b rest =>
    obtain ⟨hend, hmap⟩ := Option.ite_none_right_eq_some.mp hclose
    obtain ⟨byte, hbyte, hsame⟩ := Option.map_eq_some_iff.mp hmap
    cases hsame
    refine ⟨by rw [hend.2], visible_of_fromStrRadix hbyte, fun rest ↦ ?_⟩
    rw [closeEscape, if_pos ⟨hend.1, rfl⟩, hbyte]
    rfl

def escapeOpen : Bytes := [asciiByte '$', quote, backslash, asciiByte 'x']

theorem ansiEscape_open (rest : Bytes) :
    ansiEscape (escapeOpen ++ rest) = closeEscape (takeHex [] rest).1 (takeHex [] rest).2 := by
  rw [escapeOpen, List.cons_append, List.cons_append, List.cons_append, List.singleton_append,
    ansiEscape, if_pos ⟨rfl, rfl, rfl, rfl⟩]

theorem open_of_ansiEscape {escape : Char × Bytes} (hescape : ansiEscape bytes = some escape) :
    ∃ rest, bytes = escapeOpen ++ rest := by
  unfold ansiEscape at hescape
  split at hescape
  case h_1 b₀ b₁ b₂ b₃ rest =>
    obtain ⟨⟨rfl, rfl, rfl, rfl⟩, -⟩ := Option.ite_none_right_eq_some.mp hescape
    exact ⟨rest, rfl⟩
  case h_2 => cases hescape

/-- An escape is made of visible bytes, and is one whatever follows it. -/
theorem ansiEscape_eq {after : Bytes} (hescape : ansiEscape bytes = some (c, after)) :
    ∃ pattern, pattern ++ after = bytes ∧ (∀ b ∈ pattern, Visible (latin1 b)) ∧
      ∀ rest, ansiEscape (pattern ++ rest) = some (c, rest) := by
  obtain ⟨rest, rfl⟩ := open_of_ansiEscape hescape
  obtain ⟨taken, hbytes, hhex, hquote⟩ := takeHex_eq [] rest
  rw [ansiEscape_open, hhex] at hescape
  obtain ⟨hlast, hvisible, hclose⟩ := closeEscape_eq hescape
  have hshape : ∀ rest, escapeOpen ++ (taken ++ [quote]) ++ rest =
      escapeOpen ++ (taken ++ quote :: rest) := by
    intro rest
    rw [List.append_assoc, List.append_assoc, List.singleton_append]
  refine ⟨escapeOpen ++ (taken ++ [quote]), ?_, ?_, fun rest ↦ ?_⟩
  · rw [hshape, ← hlast, hbytes]
  · have htaken : ∀ b ∈ taken, Visible (latin1 b) := fun b hb ↦
      hvisible _ (List.mem_map_of_mem hb)
    have hends : (∀ b ∈ escapeOpen, Visible (latin1 b)) ∧ ∀ b ∈ [quote], Visible (latin1 b) := by
      decide
    exact List.forall_mem_append.mpr ⟨hends.1, List.forall_mem_append.mpr ⟨htaken, hends.2⟩⟩
  · rw [hshape, ansiEscape_open, hquote]
    exact hclose rest

/-- An escape that starts in a first part ends there when a byte that is not visible follows. -/
theorem ansiEscape_append (hbytes : ansiEscape bytes = none)
    (hrest : ∀ b ∈ rest.head?, ¬ Visible (latin1 b)) : ansiEscape (bytes ++ rest) = none := by
  cases hescape : ansiEscape (bytes ++ rest) with
  | none => rfl
  | some escape =>
    obtain ⟨pattern, hpattern, hvisible, hany⟩ := ansiEscape_eq hescape
    have hstart : pattern <+: bytes ++ rest := ⟨escape.2, hpattern⟩
    obtain ⟨after, rfl⟩ := prefix_of_append hstart fun b hb hmem ↦ hrest b hb (hvisible b hmem)
    rw [hany after] at hbytes
    cases hbytes

theorem decodeFrom_append (hbytes : Unescaped bytes)
    (hrest : ∀ b ∈ rest.head?, ¬ Visible (latin1 b)) :
    decodeFrom 0 (bytes ++ rest) = bytes.map latin1 ++ decodeFrom 0 rest := by
  induction bytes with
  | nil => rfl
  | cons b bytes ih =>
    have hnone := ansiEscape_append (hbytes _ ((List.mem_tails _ _).mpr (List.suffix_refl _))) hrest
    have htail := ih fun tail htail ↦
      hbytes tail ((List.mem_tails _ _).mpr
        (((List.mem_tails _ _).mp htail).trans (List.suffix_cons b bytes)))
    rw [List.cons_append] at hnone ⊢
    rw [decodeFrom, hnone, htail]
    rfl

theorem decodeFrom_eq (hbytes : Unescaped bytes) : decodeFrom 0 bytes = bytes.map latin1 := by
  have hnext : ∀ b ∈ ([] : Bytes).head?, ¬ Visible (latin1 b) := fun _ hb ↦ nomatch hb
  have happend := decodeFrom_append hbytes hnext
  rwa [List.append_nil, decodeFrom, List.append_nil] at happend

/-! ## Substitutions -/

theorem neutralizeFrom_append (hbytes : ¬ [asciiByte '$', asciiByte '('] <:+: bytes)
    (hrest : ∀ b ∈ rest.head?, b ≠ asciiByte '(') :
    neutralizeFrom 0 (bytes ++ rest) = bytes.map latin1 ++ neutralizeFrom 0 rest := by
  induction bytes with
  | nil => rfl
  | cons b bytes ih =>
    have htail := ih fun hoccurs ↦ hbytes (List.infix_cons hoccurs)
    rw [List.cons_append, List.map_cons, List.cons_append, ← htail]
    cases hnext : bytes ++ rest with
    | nil => rfl
    | cons b' next =>
      refine if_neg fun hopen ↦ ?_
      cases bytes with
      | nil =>
        rw [List.nil_append] at hnext
        exact hrest b' (by rw [hnext]; rfl) hopen.2
      | cons b'' bytes =>
        cases hnext
        refine hbytes (List.IsPrefix.isInfix ?_)
        rw [hopen.1, hopen.2]
        exact ⟨bytes, rfl⟩

theorem neutralizeFrom_eq (hbytes : ¬ [asciiByte '$', asciiByte '('] <:+: bytes) :
    neutralizeFrom 0 bytes = bytes.map latin1 := by
  have hnext : ∀ b ∈ ([] : Bytes).head?, b ≠ asciiByte '(' := fun _ hb ↦ nomatch hb
  have happend := neutralizeFrom_append hbytes hnext
  rwa [List.append_nil, neutralizeFrom, List.append_nil] at happend

/-! ## The rewrite for the check -/

/-- The texts that the rewrite for the check looks for, apart from escapes. -/
def rewritten : List Str :=
  [[backtick], "$(".toList, "$\x7bIFS\x7d".toList, "$_IFS".toList]

/-- The rewrite for the check finds nothing in the text. -/
def Unrewritten (text : Str) : Prop :=
  Unescaped (utf8 text) ∧ ∀ pat ∈ rewritten, ¬ pat <:+: text

instance (text : Str) : Decidable (Unrewritten text) := inferInstanceAs (Decidable (_ ∧ _))

theorem visible_of_mem_rewritten : ∀ pat ∈ rewritten, ∀ c ∈ pat, Visible c := by
  decide

theorem ascii_of_mem_rewritten {pat : Str} (hpat : pat ∈ rewritten) : ∀ c ∈ pat, isAscii c = true :=
  fun c hc ↦ isAscii_iff.mpr (visible_of_mem_rewritten pat hpat c hc).2

variable {text word : Str}

theorem filter_backtick (hpat : ¬ [backtick] <:+: text) :
    text.filter (fun c ↦ c ≠ backtick) = text := by
  refine List.filter_eq_self.mpr fun c hc ↦ decide_eq_true fun hsame ↦ hpat ?_
  obtain ⟨before, after, hsplit⟩ := List.append_of_mem hc
  rw [hsplit, ← hsame]
  exact ⟨before, after, by rw [List.append_assoc, List.singleton_append]⟩

/-- A text in which nothing is rewritten has its bytes read as characters, twice. -/
theorem normalize_eq (htext : Unrewritten text) : normalize text = mangled (mangled text) := by
  have hkept : ∀ pat ∈ rewritten, ¬ pat <:+: mangled text := fun pat hpat hoccurs ↦
    htext.2 pat hpat (infix_of_infix_mangled (ascii_of_mem_rewritten hpat) hoccurs)
  have hifs := hkept "$\x7bIFS\x7d".toList (by decide)
  have hunderscore := hkept "$_IFS".toList (by decide)
  have hbacktick := hkept [backtick] (by decide)
  have hopen : ¬ [asciiByte '$', asciiByte '('] <:+: utf8 (mangled text) := fun hoccurs ↦
    hkept "$(".toList (by decide) (isInfix_of_utf8 (by decide) hoccurs)
  rw [normalize, decodeAnsiCQuoting, decodeFrom_eq htext.1, ← mangled, neutralizeIfs,
    replace_eq_self hifs, replace_eq_self hunderscore, neutralizeShellMetachars,
    filter_backtick hbacktick, neutralizeFrom_eq hopen, ← mangled]

/-! ## A first word -/

/-- A word before an ASCII blank or the end stays where it is. -/
def Keeps (f : Str → Str) (word : Str) : Prop :=
  ∀ rest, Opens rest → ∃ rest', f (word ++ rest) = word ++ rest' ∧ Opens rest'

theorem Keeps.comp {f g : Str → Str} (hf : Keeps f word) (hg : Keeps g word) :
    Keeps (fun text ↦ g (f text)) word := by
  intro rest hrest
  obtain ⟨middle, hmiddle, hopens⟩ := hf rest hrest
  dsimp only
  rw [hmiddle]
  exact hg middle hopens

/-- A blank is none of the characters that are looked for. -/
theorem Opens.ne {rest : Str} (hrest : Opens rest) {d : Char} (hd : Visible d) :
    ∀ c ∈ rest.head?, c ≠ d := by
  rintro c hc rfl
  exact Bool.false_ne_true (hd.not_isWhitespace.symm.trans (hrest c hc).1)

theorem Opens.utf8_head {rest : Str} (hrest : Opens rest) :
    ∀ b ∈ (utf8 rest).head?, isWhitespace (latin1 b) = true := by
  cases rest with
  | nil => exact fun _ hb ↦ nomatch hb
  | cons c rest =>
    obtain ⟨hblank, hascii⟩ := hrest c rfl
    rw [utf8_cons, utf8EncodeChar_of_ascii hascii]
    intro b hb
    cases Option.some.inj hb
    rwa [latin1_asciiByte hascii]

theorem keeps_decodeAnsiCQuoting (hascii : ∀ c ∈ word, isAscii c = true)
    (hword : Unescaped (utf8 word)) : Keeps decodeAnsiCQuoting word := by
  intro rest hrest
  refine ⟨decodeAnsiCQuoting rest, ?_, ?_⟩
  · have hnext : ∀ b ∈ (utf8 rest).head?, ¬ Visible (latin1 b) := fun b hb hvisible ↦
      Bool.false_ne_true (hvisible.not_isWhitespace.symm.trans (hrest.utf8_head b hb))
    rw [decodeAnsiCQuoting, utf8_append, decodeFrom_append hword hnext, latin1_utf8_of_ascii hascii]
    rfl
  · cases rest with
    | nil => exact hrest
    | cons c rest =>
      have hc := (hrest c rfl).2
      have hnone : ansiEscape (asciiByte c :: utf8 rest) = none := by
        cases hescape : ansiEscape (asciiByte c :: utf8 rest) with
        | none => rfl
        | some escape =>
          obtain ⟨after, hafter⟩ := open_of_ansiEscape hescape
          have hdollar : c = '$' := by
            rw [← latin1_asciiByte hc, (List.cons.inj hafter).1]
            decide
          exact absurd hdollar (hrest.ne (by decide) c rfl)
      rw [decodeAnsiCQuoting, utf8_cons, utf8EncodeChar_of_ascii hc, List.singleton_append,
        decodeFrom, hnone]
      dsimp only
      rw [latin1_asciiByte hc]
      exact hrest

theorem keeps_replace {pat new : Str} (hne : pat ≠ []) (hpat : ∀ c ∈ pat, Visible c)
    (hword : ¬ pat <:+: word) : Keeps (replace pat new) word := by
  intro rest hrest
  have hnext : ∀ c ∈ rest.head?, c ∉ pat := fun c hc hmem ↦ hrest.ne (hpat c hmem) c hc rfl
  refine ⟨replace pat new rest, replace_append hword hnext, ?_⟩
  cases rest with
  | nil => exact hrest
  | cons c rest =>
    rw [replace_cons hne (hnext c rfl)]
    exact hrest

theorem keeps_filter (hword : ¬ [backtick] <:+: word) :
    Keeps (fun text ↦ text.filter fun c ↦ c ≠ backtick) word := by
  intro rest hrest
  refine ⟨rest.filter fun c ↦ c ≠ backtick, ?_, ?_⟩
  · dsimp only
    rw [List.filter_append, filter_backtick hword]
  · cases rest with
    | nil => exact hrest
    | cons c rest =>
      rw [List.filter_cons, if_pos (decide_eq_true (hrest.ne (by decide) c rfl))]
      exact hrest

theorem keeps_neutralizeFrom (hascii : ∀ c ∈ word, isAscii c = true)
    (hword : ¬ "$(".toList <:+: word) : Keeps (fun text ↦ neutralizeFrom 0 (utf8 text)) word := by
  intro rest hrest
  refine ⟨neutralizeFrom 0 (utf8 rest), ?_, ?_⟩
  · have hopen : ¬ [asciiByte '$', asciiByte '('] <:+: utf8 word := fun hoccurs ↦
      hword (isInfix_of_utf8 (by decide) hoccurs)
    have hnext : ∀ b ∈ (utf8 rest).head?, b ≠ asciiByte '(' := by
      rintro b hb rfl
      exact absurd (hrest.utf8_head _ hb) (by decide)
    dsimp only
    rw [utf8_append, neutralizeFrom_append hopen hnext, latin1_utf8_of_ascii hascii]
  · cases rest with
    | nil => exact hrest
    | cons c rest =>
      have hc := (hrest c rfl).2
      have hdollar : asciiByte c ≠ asciiByte '$' := fun hsame ↦
        hrest.ne (d := '$') (by decide) c rfl (by
          rw [← latin1_asciiByte hc, hsame]
          decide)
      rw [utf8_cons, utf8EncodeChar_of_ascii hc, List.singleton_append]
      cases utf8 rest with
      | nil =>
        rw [neutralizeFrom, latin1_asciiByte hc]
        exact hrest
      | cons b bytes =>
        rw [neutralizeFrom, if_neg fun hopen ↦ hdollar hopen.1, latin1_asciiByte hc]
        exact hrest

/-- **The rewrite for the check keeps a first word in which it finds nothing.** -/
theorem keeps_normalize (hascii : ∀ c ∈ word, isAscii c = true) (hword : Unrewritten word) :
    Keeps normalize word := by
  have hifs := hword.2 "$\x7bIFS\x7d".toList (by decide)
  have hunderscore := hword.2 "$_IFS".toList (by decide)
  have hbacktick := hword.2 [backtick] (by decide)
  have hopen := hword.2 "$(".toList (by decide)
  have hreplaced : Keeps neutralizeIfs word :=
    (keeps_replace (by decide) (by decide) hifs).comp
      (keeps_replace (by decide) (by decide) hunderscore)
  have hneutral := (keeps_filter hbacktick).comp (keeps_neutralizeFrom hascii hopen)
  exact ((keeps_decodeAnsiCQuoting hascii hword.1).comp hreplaced).comp hneutral

/-! ## The rewrite for the execution -/

def separators : List Str := ["|".toList, ";".toList, "<".toList, ">".toList, "&&".toList]

def Unseparated (text : Str) : Prop := ∀ pat ∈ separators, ¬ pat <:+: text

instance (text : Str) : Decidable (Unseparated text) :=
  inferInstanceAs (Decidable (∀ pat ∈ separators, _))

theorem neutralizeRedirectsAndPipes_cons {c : Char} {rest : Str}
    (hc : ∀ pat ∈ separators, ¬ pat <+: c :: rest) :
    neutralizeRedirectsAndPipes (c :: rest) = c :: neutralizeRedirectsAndPipes rest := by
  have hpipe := hc "|".toList (by decide)
  have hsemicolon := hc ";".toList (by decide)
  have hless := hc "<".toList (by decide)
  have hgreater := hc ">".toList (by decide)
  have hand := hc "&&".toList (by decide)
  rw [neutralizeRedirectsAndPipes]
  all_goals grind

/-- White space is in no separator. -/
theorem notMem_separators {c : Char} (hc : isWhitespace c = true) {pat : Str} (hpat : pat ∈ separators) :
    c ∉ pat := by
  have hvisible : ∀ pat ∈ separators, ∀ c ∈ pat, Visible c := by
    decide
  intro hmem
  exact Bool.false_ne_true ((hvisible pat hpat c hmem).not_isWhitespace.symm.trans hc)

theorem neutralizeRedirectsAndPipes_blank {c : Char} {rest : Str} (hc : isWhitespace c = true) :
    neutralizeRedirectsAndPipes (c :: rest) = c :: neutralizeRedirectsAndPipes rest := by
  refine neutralizeRedirectsAndPipes_cons fun pat hpat hstart ↦ ?_
  cases pat with
  | nil => exact absurd hpat (by decide)
  | cons d pat =>
    refine notMem_separators hc hpat ?_
    rw [(List.cons_prefix_cons.mp hstart).1]
    exact List.mem_cons_self

theorem neutralizeRedirectsAndPipes_lead {lead rest : Str}
    (hlead : ∀ c ∈ lead, isWhitespace c = true) :
    neutralizeRedirectsAndPipes (lead ++ rest) = lead ++ neutralizeRedirectsAndPipes rest := by
  induction lead with
  | nil => rfl
  | cons c lead ih =>
    rw [List.cons_append, neutralizeRedirectsAndPipes_blank (hlead c List.mem_cons_self),
      ih fun c' hc' ↦ hlead c' (List.mem_cons_of_mem c hc'), List.cons_append]

theorem neutralizeRedirectsAndPipes_append {rest : Str} (hword : Unseparated word)
    (hrest : Stops rest) :
    neutralizeRedirectsAndPipes (word ++ rest) = word ++ neutralizeRedirectsAndPipes rest := by
  induction word with
  | nil => rfl
  | cons c word ih =>
    have htail := ih fun pat hpat hoccurs ↦ hword pat hpat (List.infix_cons hoccurs)
    have hstart : ∀ pat ∈ separators, ¬ pat <+: c :: (word ++ rest) := by
      intro pat hpat hstart
      rw [← List.cons_append] at hstart
      exact hword pat hpat (prefix_of_append hstart fun c' hc' ↦
        notMem_separators (hrest c' hc') hpat).isInfix
    rw [List.cons_append, neutralizeRedirectsAndPipes_cons hstart, htail, List.cons_append]

theorem neutralizeRedirectsAndPipes_eq (htext : Unseparated text) :
    neutralizeRedirectsAndPipes text = text := by
  have hstops : Stops [] := fun _ hc ↦ nomatch hc
  have happend := neutralizeRedirectsAndPipes_append htext hstops
  rwa [List.append_nil, neutralizeRedirectsAndPipes, List.append_nil] at happend

theorem stops_neutralizeRedirectsAndPipes {rest : Str} (hrest : Stops rest) :
    Stops (neutralizeRedirectsAndPipes rest) := by
  cases rest with
  | nil => exact hrest
  | cons c rest =>
    rw [neutralizeRedirectsAndPipes_blank (hrest c rfl)]
    exact hrest

end SoulSystem.Sandbox
