import SoulSystem.Library.TextSlices
import SoulSystem.Library.Words
import SoulSystem.Scirust.Symbolic.Expr

/-!
# Tokens of an expression

The scanner goes over the characters of the input and counts them.  The text of a number or a name
is cut out of the bytes of the input at these counts, so a cut may fall within a character, where it
panics.  The lexemes of an input are the maximal runs that the scanner stops at, with the text
before each of them; the tokens are what is cut out for the lexemes.
-/

namespace SoulSystem.Scirust.Symbolic

open Library Str List

inductive Token (F : Type) where
  | num (n : F)
  | ident (name : Str)
  | plus
  | minus
  | star
  | slash
  | caret
  | lparen
  | rparen
  deriving DecidableEq

/-- What the standard library knows about characters and numbers. -/
structure Lexicon (F : Type) where
  isAlphabetic : Char → Bool
  isNumeric : Char → Bool
  parseNumber : Str → Option F

/-- A number without sign and exponent, read without rounding. -/
def parseDecimal (text : Str) : Option ℚ :=
  let whole := text.takeWhile Char.isDigit
  let fraction := (text.dropWhile Char.isDigit).tail
  let digits := whole ++ fraction
  if (text.dropWhile Char.isDigit).head?.getD '.' = '.' ∧ digits ≠ [] ∧
      fraction.all Char.isDigit then
    some (Nat.ofDigitChars 10 digits 0 / 10 ^ fraction.length)
  else
    none

/-- The lexicon of texts in the first 256 characters. -/
def latinLexicon : Lexicon ℚ where
  isAlphabetic c :=
    let n := c.toNat
    c.isAlpha || n == 0xAA || n == 0xB5 || n == 0xBA ||
      (0xC0 ≤ n && n ≤ 0xFF && n != 0xD7 && n != 0xF7)
  isNumeric c :=
    let n := c.toNat
    c.isDigit || n == 0xB2 || n == 0xB3 || n == 0xB9 || (0xBC ≤ n && n ≤ 0xBE)
  parseNumber := parseDecimal

section Scanner

variable {F : Type} (l : Lexicon F)

def inNumber (c : Char) : Bool := c.isDigit || c == '.'

def startsName (c : Char) : Bool := l.isAlphabetic c || c == '_'

def inName (c : Char) : Bool := l.isAlphabetic c || l.isNumeric c || c == '_'

/-- The tokens of one character. -/
def symbol : Char → Option (Token F)
  | '+' => some .plus
  | '-' => some .minus
  | '*' => some .star
  | '/' => some .slash
  | '^' => some .caret
  | '(' => some .lparen
  | ')' => some .rparen
  | _ => none

def badNumber (text : Str) : Str := "Bad number: ".toList ++ text

def unexpectedCharacter (c : Char) : Str := "Unexpected character: ".toList ++ [c]

/-- The scanner at a count of characters, with the characters that are left and the tokens so far.
There is no result when a cut panics. -/
def tokenizeFrom (input : Str) : ℕ → Str → List (Token F) → Option (Except Str (List (Token F)))
  | _, [], tokens => some (.ok tokens)
  | i, c :: rest, tokens =>
    if isWhitespace c then tokenizeFrom input (i + 1) rest tokens
    else if inNumber c then
      let stop := i + 1 + (rest.takeWhile inNumber).length
      match slice input i stop with
      | none => none
      | some text =>
        match l.parseNumber text with
        | none => some (.error (badNumber text))
        | some num =>
          tokenizeFrom input stop (rest.dropWhile inNumber) (tokens ++ [.num num])
    else if startsName l c then
      let stop := i + 1 + (rest.takeWhile (inName l)).length
      match slice input i stop with
      | none => none
      | some name =>
        tokenizeFrom input stop (rest.dropWhile (inName l)) (tokens ++ [.ident name])
    else
      match symbol c with
      | some token => tokenizeFrom input (i + 1) rest (tokens ++ [token])
      | none => some (.error (unexpectedCharacter c))
termination_by _ rest => rest.length
decreasing_by
  · exact Nat.lt_succ_self _
  · exact Nat.lt_succ_of_le (length_dropWhile_le _ _)
  · exact Nat.lt_succ_of_le (length_dropWhile_le _ _)
  · exact Nat.lt_succ_self _

def tokenize (input : Str) : Option (Except Str (List (Token F))) :=
  tokenizeFrom l input 0 input []

/-! ## Lexemes -/

/-- What the scanner stops at. -/
inductive Lexeme where
  | number (lead run : Str)
  | name (lead run : Str)
  | other (c : Char)

/-- The lexemes after a text. -/
def lexemesFrom (lead : Str) : Str → List Lexeme
  | [] => []
  | c :: rest =>
    if isWhitespace c then lexemesFrom (lead ++ [c]) rest
    else if inNumber c then
      let run := c :: rest.takeWhile inNumber
      .number lead run :: lexemesFrom (lead ++ run) (rest.dropWhile inNumber)
    else if startsName l c then
      let run := c :: rest.takeWhile (inName l)
      .name lead run :: lexemesFrom (lead ++ run) (rest.dropWhile (inName l))
    else .other c :: lexemesFrom (lead ++ [c]) rest
termination_by rest => rest.length
decreasing_by
  · exact Nat.lt_succ_self _
  · exact Nat.lt_succ_of_le (length_dropWhile_le _ _)
  · exact Nat.lt_succ_of_le (length_dropWhile_le _ _)
  · exact Nat.lt_succ_self _

def lexemes (input : Str) : List Lexeme := lexemesFrom l [] input

/-- What is cut out for a lexeme. -/
def read (input : Str) : Lexeme → Option (Except Str (Token F))
  | .number lead run =>
    (slice input lead.length (lead.length + run.length)).map fun text ↦
      match l.parseNumber text with
      | none => .error (badNumber text)
      | some num => .ok (.num num)
  | .name lead run =>
    (slice input lead.length (lead.length + run.length)).map fun name ↦ .ok (.ident name)
  | .other c =>
    match symbol c with
    | some token => some (.ok token)
    | none => some (.error (unexpectedCharacter c))

/-- The lexemes are read one after the other, up to the first that is refused. -/
def readAll (input : Str) : List Lexeme → Option (Except Str (List (Token F)))
  | [] => some (.ok [])
  | lexeme :: later =>
    match read l input lexeme with
    | none => none
    | some (.error message) => some (.error message)
    | some (.ok token) => (readAll input later).map fun result ↦ result.map (token :: ·)

variable {l} {input lead : Str} {lexeme : Lexeme} {later : List Lexeme}

theorem readAll_of_panic (hread : read l input lexeme = none) :
    readAll l input (lexeme :: later) = none := by
  rw [readAll, hread]

theorem readAll_of_error {message : Str} (hread : read l input lexeme = some (.error message)) :
    readAll l input (lexeme :: later) = some (.error message) := by
  rw [readAll, hread]

theorem readAll_of_ok {token : Token F} (hread : read l input lexeme = some (.ok token)) :
    readAll l input (lexeme :: later) =
      (readAll l input later).map fun result ↦ result.map (token :: ·) := by
  rw [readAll, hread]

theorem map_append_cons (tokens : List (Token F)) (token : Token F)
    (result : Option (Except Str (List (Token F)))) :
    (result.map fun result ↦ result.map (token :: ·)).map (fun result ↦ result.map (tokens ++ ·)) =
      result.map fun result ↦ result.map (tokens ++ [token] ++ ·) := by
  rcases result with - | (message | tokens')
  · rfl
  · rfl
  · simp [Except.map]

/-- **The scanner reads the lexemes.** -/
theorem tokenizeFrom_eq (rest : Str) (tokens : List (Token F)) :
    tokenizeFrom l input lead.length rest tokens =
      (readAll l input (lexemesFrom l lead rest)).map fun result ↦ result.map (tokens ++ ·) := by
  induction lead, rest using lexemesFrom.induct l generalizing tokens with
  | case1 lead =>
    rw [tokenizeFrom, lexemesFrom, readAll, Option.map_some, Except.map, append_nil]
  | case2 lead c rest hspace ih =>
    rw [length_append, length_singleton] at ih
    rw [tokenizeFrom, lexemesFrom, if_pos hspace, if_pos hspace, ih]
  | case3 lead c rest hspace hnumber run ih =>
    have hstop : lead.length + 1 + (rest.takeWhile inNumber).length =
        lead.length + run.length := by
      rw [length_cons]
      omega
    rw [length_append] at ih
    rw [tokenizeFrom, lexemesFrom, if_neg hspace, if_neg hspace, if_pos hnumber, if_pos hnumber,
      hstop]
    cases hslice : slice input lead.length (lead.length + run.length) with
    | none =>
      have hread : read l input (.number lead run) = none := by
        rw [read, hslice, Option.map_none]
      rw [readAll_of_panic hread]
      simp only [hslice, Option.map_none]
    | some text =>
      cases hvalue : l.parseNumber text with
      | none =>
        have hread : read l input (.number lead run) = some (.error (badNumber text)) := by
          rw [read, hslice, Option.map_some, hvalue]
        rw [readAll_of_error hread]
        simp only [hslice, hvalue, Option.map_some]
        rfl
      | some num =>
        have hread : read l input (.number lead run) = some (.ok (.num num)) := by
          rw [read, hslice, Option.map_some, hvalue]
        rw [readAll_of_ok hread, map_append_cons, ← ih]
        simp only [hslice, hvalue]
  | case4 lead c rest hspace hnumber hname run ih =>
    have hstop : lead.length + 1 + (rest.takeWhile (inName l)).length =
        lead.length + run.length := by
      rw [length_cons]
      omega
    rw [length_append] at ih
    rw [tokenizeFrom, lexemesFrom, if_neg hspace, if_neg hspace, if_neg hnumber, if_neg hnumber,
      if_pos hname, if_pos hname, hstop]
    cases hslice : slice input lead.length (lead.length + run.length) with
    | none =>
      have hread : read l input (.name lead run) = none := by
        rw [read, hslice, Option.map_none]
      rw [readAll_of_panic hread]
      simp only [hslice, Option.map_none]
    | some name =>
      have hread : read l input (.name lead run) = some (.ok (.ident name)) := by
        rw [read, hslice, Option.map_some]
      rw [readAll_of_ok hread, map_append_cons, ← ih]
      simp only [hslice]
  | case5 lead c rest hspace hnumber hname ih =>
    rw [length_append, length_singleton] at ih
    rw [tokenizeFrom, lexemesFrom, if_neg hspace, if_neg hspace, if_neg hnumber, if_neg hnumber,
      if_neg hname, if_neg hname]
    cases htoken : symbol (F := F) c with
    | none =>
      have hread : read l input (.other c) = some (.error (unexpectedCharacter c)) := by
        rw [read, htoken]
      rw [readAll_of_error hread]
      rfl
    | some token =>
      have hread : read l input (.other c) = some (.ok token) := by
        rw [read, htoken]
      rw [readAll_of_ok hread, map_append_cons, ← ih]

theorem tokenize_eq : tokenize l input = readAll l input (lexemes l input) := by
  have hempty : (fun result : Except Str (List (Token F)) ↦ result.map ([] ++ ·)) = id := by
    funext result
    cases result <;> rfl
  have hfrom : tokenizeFrom l input ([] : Str).length input [] =
      (readAll l input (lexemesFrom l [] input)).map
        fun result ↦ result.map (([] : List (Token F)) ++ ·) := tokenizeFrom_eq input []
  rw [hempty, Option.map_id] at hfrom
  exact hfrom

end Scanner

end SoulSystem.Scirust.Symbolic
