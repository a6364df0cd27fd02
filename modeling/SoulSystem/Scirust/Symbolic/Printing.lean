import Mathlib
import SoulSystem.Library.DecimalLiteral
import SoulSystem.Scirust.Symbolic.Grammar

/-!
# Printing expressions

An expression is printed with brackets around every operation.  The scanner takes the text apart
into the tokens that the printer meant, piece by piece, and the parser builds the expression again,
with the operators that fold.  A negative constant is printed with a sign, which the parser takes
for a unary operation on the constant without the sign.
-/

namespace SoulSystem.Scirust.Symbolic

open Library Outcome Descent Str List

/-! ## The printer -/

section Printer

variable {F : Type} (number : F → Str)

def brackets (text : Str) : Str := '(' :: (text ++ [')'])

/-- `Display`, with the text of a constant. -/
def display : Expr F → Str
  | .const c => number c
  | .var v => v
  | .add a b => brackets (display a ++ (" + ".toList ++ display b))
  | .sub a b => brackets (display a ++ (" - ".toList ++ display b))
  | .mul a b => brackets (display a ++ (" * ".toList ++ display b))
  | .div a b => brackets (display a ++ (" / ".toList ++ display b))
  | .neg a => brackets ("-".toList ++ display a)
  | .pow a b => brackets (display a ++ ("^".toList ++ display b))
  | .sin a => "sin".toList ++ brackets (display a)
  | .cos a => "cos".toList ++ brackets (display a)
  | .exp a => "exp".toList ++ brackets (display a)
  | .ln a => "ln".toList ++ brackets (display a)
  | .sqrt a => "sqrt".toList ++ brackets (display a)
  | .abs a => "abs".toList ++ brackets (display a)

/-- Letters, digits and underscores of ASCII, with no digit first. -/
def IsIdentifier (name : Str) : Prop :=
  (∃ c ∈ name.head?, c.isDigit = false) ∧ ∀ c ∈ name, (c.isAlphanum || c == '_') = true

variable [Field F] (l : Lexicon F)

/-- A constant that is printed as a decimal, which is read back exactly. -/
def PlainDecimal (c : F) : Prop :=
  ∃ text, text ≠ [] ∧ (∀ d ∈ text, inNumber d = true) ∧
    ((number c = text ∧ l.parseNumber text = some c) ∨
      (number c = '-' :: text ∧ l.parseNumber text = some (-c)))

/-- The constants are plain decimals and the variables identifiers. -/
def Printable : Expr F → Prop
  | .const c => PlainDecimal number l c
  | .var v => IsIdentifier v
  | .add a b => Printable a ∧ Printable b
  | .sub a b => Printable a ∧ Printable b
  | .mul a b => Printable a ∧ Printable b
  | .div a b => Printable a ∧ Printable b
  | .neg a => Printable a
  | .pow a b => Printable a ∧ Printable b
  | .sin a => Printable a
  | .cos a => Printable a
  | .exp a => Printable a
  | .ln a => Printable a
  | .sqrt a => Printable a
  | .abs a => Printable a

/-- Letters and digits are known within ASCII. -/
def KnowsAscii : Prop :=
  ∀ c, isAscii c = true → l.isAlphabetic c = c.isAlpha ∧ l.isNumeric c = c.isDigit

end Printer

/-! ## The tokens of a text -/

section Tokens

variable {F : Type} {l : Lexicon F}

/-- The next character goes on with neither a number nor a name. -/
def Free (l : Lexicon F) (rest : Str) : Prop :=
  ∀ c ∈ rest.head?, inName l c = false ∧ inNumber c = false

def Anything (_ : Str) : Prop := True

/-- The scanner takes a text for some tokens when a suitable text follows. -/
def Scans (l : Lexicon F) (follow : Str → Prop) (text : Str) (new : List (Token F)) : Prop :=
  (∀ c ∈ text, isAscii c = true) ∧
    ∀ input lead rest tokens, input = lead ++ text ++ rest → (∀ c ∈ lead, isAscii c = true) →
      follow rest → tokenizeFrom l input lead.length (text ++ rest) tokens =
        tokenizeFrom l input (lead ++ text).length rest (tokens ++ new)

variable {follow follow' : Str → Prop} {text text' : Str} {new new' : List (Token F)} {c : Char}

theorem Scans.append (hfirst : Scans l follow text new) (hsecond : Scans l follow' text' new')
    (hfollow : ∀ rest, follow' rest → follow (text' ++ rest)) :
    Scans l follow' (text ++ text') (new ++ new') := by
  refine ⟨List.forall_mem_append.mpr ⟨hfirst.1, hsecond.1⟩, ?_⟩
  intro input lead rest tokens hinput hlead hrest
  have hinput' : input = lead ++ text ++ (text' ++ rest) := by
    rw [hinput, append_assoc, append_assoc, append_assoc]
  have hinput'' : input = lead ++ text ++ text' ++ rest := by
    rw [hinput', ← append_assoc]
  have hlead' := List.forall_mem_append.mpr ⟨hlead, hfirst.1⟩
  calc
    tokenizeFrom l input lead.length (text ++ text' ++ rest) tokens
    _ = tokenizeFrom l input lead.length (text ++ (text' ++ rest)) tokens := by
      rw [append_assoc]
    _ = tokenizeFrom l input (lead ++ text).length (text' ++ rest) (tokens ++ new) :=
      hfirst.2 input lead _ tokens hinput' hlead (hfollow rest hrest)
    _ = tokenizeFrom l input (lead ++ text ++ text').length rest (tokens ++ new ++ new') :=
      hsecond.2 input _ rest _ hinput'' hlead' hrest
    _ = tokenizeFrom l input (lead ++ (text ++ text')).length rest (tokens ++ (new ++ new')) := by
      rw [append_assoc, append_assoc]

theorem Scans.weaken (hscans : Scans l Anything text new) : Scans l follow text new :=
  ⟨hscans.1, fun input lead rest tokens hinput hlead _ ↦
    hscans.2 input lead rest tokens hinput hlead trivial⟩

theorem free_cons (hname : inName l c = false) (hnumber : inNumber c = false) {rest : Str} :
    Free l (c :: rest) := by
  rintro d hd
  cases hd
  exact ⟨hname, hnumber⟩

theorem scans_space : Scans l Anything [' '] [] := by
  refine ⟨by decide, fun input lead rest tokens _ _ _ ↦ ?_⟩
  rw [singleton_append, tokenizeFrom, if_pos (by decide), length_append, append_nil]
  rfl

theorem symbol_char {token : Token F} (htoken : symbol c = some token) :
    isAscii c = true ∧ isWhitespace c = false ∧ inNumber c = false ∧ c.isAlpha = false ∧
      c.isDigit = false ∧ (c == '_') = false := by
  unfold symbol at htoken
  split at htoken <;> first | decide | cases htoken

theorem not_inName (hl : KnowsAscii l) (hascii : isAscii c = true) (halpha : c.isAlpha = false)
    (hdigit : c.isDigit = false) (hline : (c == '_') = false) : inName l c = false := by
  rw [inName, (hl c hascii).1, (hl c hascii).2, halpha, hdigit, hline]
  rfl

theorem free_symbol (hl : KnowsAscii l) {token : Token F} (htoken : symbol c = some token)
    (rest : Str) : Free l (c :: rest) := by
  obtain ⟨hascii, -, hnumber, halpha, hdigit, hline⟩ := symbol_char htoken
  exact free_cons (not_inName hl hascii halpha hdigit hline) hnumber

theorem free_space (hl : KnowsAscii l) (rest : Str) : Free l (' ' :: rest) :=
  free_cons (not_inName hl (by decide) (by decide) (by decide) (by decide)) (by decide)

/-- The characters of operators and brackets. -/
theorem scans_symbol (hl : KnowsAscii l) {token : Token F} (htoken : symbol c = some token) :
    Scans l Anything [c] [token] := by
  obtain ⟨hascii, hspace, hnumber, halpha, -, hline⟩ := symbol_char htoken
  have hname : startsName l c = false := by
    rw [startsName, (hl c hascii).1, halpha, hline]
    rfl
  refine ⟨fun d hd ↦ List.mem_singleton.mp hd ▸ hascii, fun input lead rest tokens _ _ _ ↦ ?_⟩
  rw [singleton_append, tokenizeFrom, if_neg (Bool.not_eq_true _ ▸ hspace),
    if_neg (Bool.not_eq_true _ ▸ hnumber), if_neg (Bool.not_eq_true _ ▸ hname), htoken,
    length_append]
  rfl

theorem alphanum_toNat (hc : c.isAlphanum = true) : (48 ≤ c.toNat ∧ c.toNat ≤ 57) ∨
    (65 ≤ c.toNat ∧ c.toNat ≤ 90) ∨ (97 ≤ c.toNat ∧ c.toNat ≤ 122) := by
  simp only [Char.isAlphanum, Char.isAlpha, Char.isUpper, Char.isLower, Char.isDigit,
    Bool.or_eq_true, Bool.and_eq_true, decide_eq_true_eq, ge_iff_le, UInt32.le_iff_toNat_le] at hc
  simp only [Char.toNat]
  grind

/-- Letters and digits are no white space. -/
theorem alphanum_char (hc : c.isAlphanum = true) :
    isAscii c = true ∧ isWhitespace c = false := by
  have hbounds := alphanum_toNat hc
  refine ⟨isAscii_iff.mpr (by omega), ?_⟩
  rw [← Bool.not_eq_true]
  intro hspace
  simp only [isWhitespace, Bool.or_eq_true, Bool.and_eq_true, decide_eq_true_eq,
    beq_iff_eq] at hspace
  omega

theorem inNumber_char (hc : inNumber c = true) : isAscii c = true ∧ isWhitespace c = false := by
  rw [inNumber, Bool.or_eq_true, beq_iff_eq] at hc
  rcases hc with hdigit | rfl
  · exact alphanum_char (Bool.or_eq_true _ _ ▸ .inr hdigit)
  · decide

/-- A run in front of what does not go on with it. -/
theorem span_append {p : Char → Bool} {run rest : Str} (hrun : ∀ d ∈ run, p d = true)
    (hrest : ∀ d ∈ rest.head?, p d = false) :
    (run ++ rest).takeWhile p = run ∧ (run ++ rest).dropWhile p = rest := by
  rw [takeWhile_append_of_pos hrun, dropWhile_append_of_pos hrun]
  cases rest with
  | nil => simp
  | cons d rest => simp [hrest d rfl]

theorem scans_number {run : Str} {n : F} (hne : run ≠ []) (hrun : ∀ d ∈ run, inNumber d = true)
    (hvalue : l.parseNumber run = some n) : Scans l (Free l) run [.num n] := by
  have hascii : ∀ d ∈ run, isAscii d = true := fun d hd ↦ (inNumber_char (hrun d hd)).1
  refine ⟨hascii, fun input lead rest tokens hinput hlead hrest ↦ ?_⟩
  obtain ⟨c, tail, rfl⟩ := exists_cons_of_ne_nil hne
  obtain ⟨hc, htail⟩ := List.forall_mem_cons.mp hrun
  obtain ⟨htake, hdrop⟩ := span_append htail fun d hd ↦ (hrest d hd).2
  have hslice : slice (lead ++ (c :: tail) ++ rest) lead.length
      (lead.length + (c :: tail).length) = some (c :: tail) :=
    slice_of_ascii (List.forall_mem_append.mpr ⟨hlead, hascii⟩)
  have hstop : lead.length + 1 + tail.length = lead.length + (c :: tail).length := by
    rw [length_cons]
    omega
  rw [← hinput] at hslice
  rw [cons_append, tokenizeFrom, if_neg (Bool.not_eq_true _ ▸ (inNumber_char hc).2),
    if_pos hc, htake, hdrop, hstop, length_append]
  simp only [hslice, hvalue]

theorem isIdentifier_char (hl : KnowsAscii l) (hc : (c.isAlphanum || c == '_') = true) :
    isAscii c = true ∧ inName l c = true := by
  rw [Bool.or_eq_true, beq_iff_eq] at hc
  rcases hc with halnum | rfl
  · have hascii := (alphanum_char halnum).1
    rw [inName, (hl c hascii).1, (hl c hascii).2]
    exact ⟨hascii, Bool.or_eq_true _ _ ▸ .inl halnum⟩
  · refine ⟨by decide, ?_⟩
    rw [inName]
    exact Bool.or_eq_true _ _ ▸ .inr rfl

theorem scans_name (hl : KnowsAscii l) {name : Str} (hname : IsIdentifier name) :
    Scans l (Free l) name [.ident name] := by
  obtain ⟨⟨c, hhead, hdigit⟩, hall⟩ := hname
  obtain ⟨tail, rfl⟩ := List.head?_eq_some_iff.mp hhead
  have hascii : ∀ d ∈ c :: tail, isAscii d = true := fun d hd ↦ (isIdentifier_char hl (hall d hd)).1
  refine ⟨hascii, fun input lead rest tokens hinput hlead hrest ↦ ?_⟩
  obtain ⟨hc, htail⟩ := List.forall_mem_cons.mp hall
  obtain ⟨htake, hdrop⟩ := span_append (fun d hd ↦ (isIdentifier_char hl (htail d hd)).2)
    fun d hd ↦ (hrest d hd).1
  have hslice : slice (lead ++ (c :: tail) ++ rest) lead.length
      (lead.length + (c :: tail).length) = some (c :: tail) :=
    slice_of_ascii (List.forall_mem_append.mpr ⟨hlead, hascii⟩)
  have hstop : lead.length + 1 + tail.length = lead.length + (c :: tail).length := by
    rw [length_cons]
    omega
  have hstart : startsName l c = true ∧ inNumber c = false ∧ isWhitespace c = false := by
    have hline := hc
    rw [Char.isAlphanum, hdigit, Bool.or_false] at hline
    have hstarts : startsName l c = true := by
      rw [startsName, (hl c (hascii c mem_cons_self)).1]
      exact hline
    rw [Bool.or_eq_true, beq_iff_eq] at hline
    rcases hline with halpha | rfl
    · have halnum : c.isAlphanum = true := Bool.or_eq_true _ _ ▸ .inl halpha
      refine ⟨hstarts, ?_, (alphanum_char halnum).2⟩
      rw [inNumber, hdigit, Bool.false_or, beq_eq_false_iff_ne]
      rintro rfl
      cases halnum
    · exact ⟨hstarts, by decide, by decide⟩
  rw [← hinput] at hslice
  rw [cons_append, tokenizeFrom, if_neg (Bool.not_eq_true _ ▸ hstart.2.2),
    if_neg (Bool.not_eq_true _ ▸ hstart.2.1), if_pos hstart.1, htake, hdrop, hstop,
    length_append]
  simp only [hslice]

/-- An operator between two spaces. -/
theorem scans_operator (hl : KnowsAscii l) {token : Token F} (htoken : symbol c = some token) :
    Scans l Anything [' ', c, ' '] [token] := by
  have hlast := (scans_symbol hl htoken).append scans_space fun _ _ ↦ trivial
  exact scans_space.append hlast fun _ _ ↦ trivial

theorem scans_brackets (hl : KnowsAscii l) (htext : Scans l (Free l) text new) :
    Scans l (Free l) (brackets text) (.lparen :: (new ++ [.rparen])) := by
  have hopen : Scans l Anything ['('] [Token.lparen (F := F)] := scans_symbol hl rfl
  have hclose : Scans l Anything [')'] [Token.rparen (F := F)] := scans_symbol hl rfl
  have hinner := htext.append hclose fun rest _ ↦
    free_symbol hl (rfl : symbol ')' = some (Token.rparen (F := F))) rest
  exact (hopen.append hinner fun _ _ ↦ trivial).weaken

/-- Two printed operands with a text between them that is no part of a name or a number. -/
theorem scans_between {between : Str} {token : Token F} (hl : KnowsAscii l)
    (hfirst : Scans l (Free l) text new) (hbetween : Scans l Anything between [token])
    (hfree : ∀ rest, Free l (between ++ rest)) (hsecond : Scans l (Free l) text' new') :
    Scans l (Free l) (brackets (text ++ (between ++ text')))
      (.lparen :: (new ++ token :: new' ++ [.rparen])) := by
  have hlast := hbetween.append hsecond fun _ _ ↦ trivial
  refine scans_brackets hl (hfirst.append hlast fun rest _ ↦ ?_)
  rw [append_assoc]
  exact hfree (text' ++ rest)

theorem scans_call (hl : KnowsAscii l) {name : Str} (hname : name ∈ functionNames)
    (htext : Scans l (Free l) text new) : Scans l (Free l) (name ++ brackets text)
      (.ident name :: .lparen :: (new ++ [.rparen])) := by
  have hidentifier : IsIdentifier name := by
    simp only [functionNames, mem_cons, not_mem_nil, or_false] at hname
    rcases hname with rfl | rfl | rfl | rfl | rfl | rfl <;>
      exact ⟨⟨_, rfl, by decide⟩, by decide⟩
  exact (scans_name hl hidentifier).append (scans_brackets hl htext) fun rest _ ↦
    free_symbol hl (rfl : symbol '(' = some (Token.lparen (F := F))) _

/-! ## The tokens of an expression -/

variable [Field F] {number : F → Str}

/-- A sign before a constant is a token of its own. -/
def tokensOf (number : F → Str) : Expr F → List (Token F)
  | .const c =>
    match number c with
    | '-' :: _ => [.minus, .num (-c)]
    | _ => [.num c]
  | .var v => [.ident v]
  | .add a b => .lparen :: (tokensOf number a ++ .plus :: tokensOf number b ++ [.rparen])
  | .sub a b => .lparen :: (tokensOf number a ++ .minus :: tokensOf number b ++ [.rparen])
  | .mul a b => .lparen :: (tokensOf number a ++ .star :: tokensOf number b ++ [.rparen])
  | .div a b => .lparen :: (tokensOf number a ++ .slash :: tokensOf number b ++ [.rparen])
  | .neg a => .lparen :: (.minus :: tokensOf number a ++ [.rparen])
  | .pow a b => .lparen :: (tokensOf number a ++ .caret :: tokensOf number b ++ [.rparen])
  | .sin a => .ident "sin".toList :: .lparen :: (tokensOf number a ++ [.rparen])
  | .cos a => .ident "cos".toList :: .lparen :: (tokensOf number a ++ [.rparen])
  | .exp a => .ident "exp".toList :: .lparen :: (tokensOf number a ++ [.rparen])
  | .ln a => .ident "ln".toList :: .lparen :: (tokensOf number a ++ [.rparen])
  | .sqrt a => .ident "sqrt".toList :: .lparen :: (tokensOf number a ++ [.rparen])
  | .abs a => .ident "abs".toList :: .lparen :: (tokensOf number a ++ [.rparen])

/-- The tokens of a constant. -/
theorem tokensOf_const {c : F} (hc : PlainDecimal number l c) :
    (∃ text, text ≠ [] ∧ (∀ d ∈ text, inNumber d = true) ∧ number c = text ∧
      l.parseNumber text = some c ∧ tokensOf number (.const c) = [.num c]) ∨
    ∃ text, text ≠ [] ∧ (∀ d ∈ text, inNumber d = true) ∧ number c = '-' :: text ∧
      l.parseNumber text = some (-c) ∧ tokensOf number (.const c) = [.minus, .num (-c)] := by
  obtain ⟨text, hne, htext, ⟨hnumber, hvalue⟩ | ⟨hnumber, hvalue⟩⟩ := hc
  · refine .inl ⟨text, hne, htext, hnumber, hvalue, ?_⟩
    rw [tokensOf]
    split
    · rename_i rest hminus
      have hsign := htext '-' (hnumber ▸ hminus ▸ mem_cons_self)
      cases hsign
    · rfl
  · refine .inr ⟨text, hne, htext, hnumber, hvalue, ?_⟩
    rw [tokensOf, hnumber]
    rfl

/-- **The scanner takes a printed expression apart.** -/
theorem scans_display (hl : KnowsAscii l) {e : Expr F} (he : Printable number l e) :
    Scans l (Free l) (display number e) (tokensOf number e) := by
  have hspaced : ∀ {c : Char} {token : Token F} {a b : Expr F}, symbol c = some token →
      Scans l (Free l) (display number a) (tokensOf number a) →
      Scans l (Free l) (display number b) (tokensOf number b) →
      Scans l (Free l) (brackets (display number a ++ ([' ', c, ' '] ++ display number b)))
        (.lparen :: (tokensOf number a ++ token :: tokensOf number b ++ [.rparen])) :=
    fun htoken ha hb ↦ scans_between hl ha (scans_operator hl htoken) (fun _ ↦ free_space hl _) hb
  induction e with
  | const c =>
    rcases tokensOf_const he with ⟨text, hne, htext, hnumber, hvalue, htokens⟩ |
      ⟨text, hne, htext, hnumber, hvalue, htokens⟩
    · rw [htokens, display, hnumber]
      exact scans_number hne htext hvalue
    · rw [htokens, display, hnumber]
      have hsign : Scans l Anything ['-'] [Token.minus (F := F)] := scans_symbol hl rfl
      exact hsign.append (scans_number hne htext hvalue) fun _ _ ↦ trivial
  | var v => exact scans_name hl he
  | add a b iha ihb => exact hspaced (c := '+') rfl (iha he.1) (ihb he.2)
  | sub a b iha ihb => exact hspaced (c := '-') rfl (iha he.1) (ihb he.2)
  | mul a b iha ihb => exact hspaced (c := '*') rfl (iha he.1) (ihb he.2)
  | div a b iha ihb => exact hspaced (c := '/') rfl (iha he.1) (ihb he.2)
  | neg a ih =>
    have hsign : Scans l Anything ['-'] [Token.minus (F := F)] := scans_symbol hl rfl
    exact scans_brackets hl (hsign.append (ih he) fun _ _ ↦ trivial)
  | pow a b iha ihb =>
    have hcaret : Scans l Anything ['^'] [Token.caret (F := F)] := scans_symbol hl rfl
    exact scans_between hl (iha he.1) hcaret
      (free_symbol hl (rfl : symbol '^' = some (Token.caret (F := F)))) (ihb he.2)
  | sin a ih => exact scans_call hl (by decide) (ih he)
  | cos a ih => exact scans_call hl (by decide) (ih he)
  | exp a ih => exact scans_call hl (by decide) (ih he)
  | ln a ih => exact scans_call hl (by decide) (ih he)
  | sqrt a ih => exact scans_call hl (by decide) (ih he)
  | abs a ih => exact scans_call hl (by decide) (ih he)

end Tokens

/-! ## The expression of the tokens -/

section Rebuilding

variable {F : Type} [Field F] [LinearOrder F]

/-- The expression with the operators that fold. -/
def rebuild : Expr F → Expr F
  | .const c => .const c
  | .var v => .var v
  | .add a b => rebuild a + rebuild b
  | .sub a b => rebuild a - rebuild b
  | .mul a b => rebuild a * rebuild b
  | .div a b => rebuild a / rebuild b
  | .neg a => -rebuild a
  | .pow a b => .pow (rebuild a) (rebuild b)
  | .sin a => .sin (rebuild a)
  | .cos a => .cos (rebuild a)
  | .exp a => .exp (rebuild a)
  | .ln a => .ln (rebuild a)
  | .sqrt a => .sqrt (rebuild a)
  | .abs a => .abs (rebuild a)

/-- A unary operand that is read as an expression. -/
def ReadsTo (tokens : List (Token F)) (e : Expr F) : Prop :=
  ∀ rest, (∀ token ∈ rest.head?, token ≠ .lparen) →
    parseUnary parseExpr (tokens ++ rest) = .ok (e, rest)

variable {nonterminal : Nonterminal} {tokens tokens' rest : List (Token F)} {token : Token F}
  {a b e : Expr F}

/-- An operand that no operator of its level follows is read as it is. -/
theorem parserOf_of_operand (hchain : parserOf nonterminal = chain (operatorOf (F := F) nonterminal)
    (parserOf nonterminal.operand)) (hread : parserOf nonterminal.operand tokens = .ok (e, rest))
    (hnext : ∀ token ∈ rest.head?, ¬ continues nonterminal token) :
    parserOf nonterminal tokens = .ok (e, rest) := by
  rw [hchain, chain, hread]
  refine loop_of_none fun token htoken ↦ Option.not_isSome_iff_eq_none.mp fun hsome ↦ ?_
  exact hnext token htoken (continues_iff.mpr (.inl hsome))

theorem not_continues_operand (hnext : ∀ token ∈ rest.head?, ¬ continues nonterminal token) :
    ∀ token ∈ rest.head?, ¬ continues nonterminal.operand token :=
  fun token htoken hoperand ↦ hnext token htoken (continues_iff.mpr (.inr hoperand))

/-- A unary operand that nothing continues is read at every level of operators. -/
theorem ReadsTo.parserOf_eq (hread : ReadsTo tokens e) (hatom : nonterminal ≠ .atom)
    (hparen : ∀ token ∈ rest.head?, token ≠ .lparen)
    (hnext : ∀ token ∈ rest.head?, ¬ continues nonterminal token) :
    parserOf nonterminal (tokens ++ rest) = .ok (e, rest) := by
  have hunary : parserOf .unary (tokens ++ rest) = .ok (e, rest) := hread rest hparen
  have hpower : (∀ token ∈ rest.head?, ¬ continues .power token) →
      parserOf .power (tokens ++ rest) = .ok (e, rest) := parserOf_of_operand rfl hunary
  have hterm : (∀ token ∈ rest.head?, ¬ continues .term token) →
      parserOf .term (tokens ++ rest) = .ok (e, rest) :=
    fun hnext ↦ parserOf_of_operand rfl (hpower (not_continues_operand hnext)) hnext
  cases nonterminal with
  | atom => exact absurd rfl hatom
  | unary => exact hunary
  | power => exact hpower hnext
  | term => exact hterm hnext
  | expr => exact parserOf_of_operand rfl (hterm (not_continues_operand hnext)) hnext

omit [Field F] [LinearOrder F] in
theorem not_continues_rparen :
    ∀ token ∈ (Token.rparen :: rest).head?, ¬ continues nonterminal token := by
  intro token htoken
  cases htoken
  cases nonterminal <;> simp [continues]

/-- What is read at a level up to a closing bracket is read as an expression. -/
theorem parseExpr_of_parserOf (nonterminal : Nonterminal) (hatom : nonterminal ≠ .atom)
    (hread : parserOf nonterminal tokens = .ok (e, .rparen :: rest)) :
    parseExpr tokens = .ok (e, .rparen :: rest) := by
  have hterm : parserOf .term tokens = .ok (e, .rparen :: rest) →
      parserOf .expr tokens = .ok (e, .rparen :: rest) :=
    fun hread ↦ parserOf_of_operand rfl hread not_continues_rparen
  have hpower : parserOf .power tokens = .ok (e, .rparen :: rest) →
      parserOf .term tokens = .ok (e, .rparen :: rest) :=
    fun hread ↦ parserOf_of_operand rfl hread not_continues_rparen
  have hunary : parserOf .unary tokens = .ok (e, .rparen :: rest) →
      parserOf .power tokens = .ok (e, .rparen :: rest) :=
    fun hread ↦ parserOf_of_operand rfl hread not_continues_rparen
  rw [parseExpr_eq]
  cases nonterminal with
  | atom => exact absurd rfl hatom
  | unary => exact hterm (hpower (hunary hread))
  | power => exact hterm (hpower hread)
  | term => exact hterm hread
  | expr => exact hread

theorem ReadsTo.brackets (hinner : ∀ rest, parseExpr (tokens ++ .rparen :: rest) =
    .ok (e, .rparen :: rest)) : ReadsTo (.lparen :: (tokens ++ [.rparen])) e := by
  intro rest _
  rw [cons_append, append_assoc, singleton_append, parseUnary, parseAtom, hinner,
    ok_bind]
  intro _ heq
  cases heq

/-- Two unary operands with an operator between them. -/
theorem ReadsTo.between {combine : Expr F → Expr F → Expr F} (nonterminal : Nonterminal)
    (hchain : parserOf nonterminal = chain (operatorOf (F := F) nonterminal)
      (parserOf nonterminal.operand)) (hatom : nonterminal.operand ≠ .atom)
    (hfirst : ReadsTo tokens a) (hoperator : operatorOf nonterminal token = some combine)
    (hnext : ¬ continues nonterminal.operand token) (hsecond : ReadsTo tokens' b) :
    ReadsTo (.lparen :: (tokens ++ token :: tokens' ++ [.rparen])) (combine a b) := by
  have hparen : token ≠ .lparen := by
    rintro rfl
    cases nonterminal <;> cases hoperator
  refine .brackets fun rest ↦ ?_
  have hleft : parserOf nonterminal.operand (tokens ++ token :: (tokens' ++ .rparen :: rest)) =
      .ok (a, token :: (tokens' ++ .rparen :: rest)) := by
    refine hfirst.parserOf_eq hatom (fun token' htoken ↦ ?_) fun token' htoken ↦ ?_
    · exact Option.some.inj htoken ▸ hparen
    · exact Option.some.inj htoken ▸ hnext
  have hright : parserOf nonterminal.operand (tokens' ++ .rparen :: rest) =
      .ok (b, .rparen :: rest) := by
    refine hsecond.parserOf_eq hatom (fun token' htoken ↦ ?_) not_continues_rparen
    cases htoken
    exact fun heq ↦ nomatch heq
  have hread : parserOf nonterminal (tokens ++ token :: (tokens' ++ .rparen :: rest)) =
      .ok (combine a b, .rparen :: rest) := by
    rw [hchain, chain, hleft, ok_bind]
    dsimp only
    rw [loop_of_some (parserOf_consumes _) hoperator, hright, ok_bind]
    refine loop_of_none fun token' htoken ↦ Option.not_isSome_iff_eq_none.mp fun hsome ↦ ?_
    exact not_continues_rparen token' htoken (continues_iff.mpr (.inl hsome))
  rw [append_assoc, cons_append]
  refine parseExpr_of_parserOf nonterminal (fun heq ↦ hatom ?_) hread
  rw [heq]
  rfl

theorem ReadsTo.inside (hread : ReadsTo tokens e) (rest : List (Token F)) :
    parseExpr (tokens ++ .rparen :: rest) = .ok (e, .rparen :: rest) := by
  refine parseExpr_of_parserOf .unary nofun (hread _ fun token htoken ↦ ?_)
  cases htoken
  exact fun heq ↦ nomatch heq

theorem ReadsTo.call {name : Str} (expr : Expr F → Expr F) (hname : function name = some expr)
    (hinner : ReadsTo tokens e) :
    ReadsTo (.ident name :: .lparen :: (tokens ++ [.rparen])) (expr e) := by
  intro rest _
  rw [cons_append, cons_append, append_assoc, singleton_append, parseUnary,
    parseAtom, hinner.inside, ok_bind]
  · dsimp only
    rw [hname]
  · intro _ heq
    cases heq

variable {l : Lexicon F} {number : F → Str}

/-- **The parser builds a printed expression again.** -/
theorem readsTo_tokensOf {e : Expr F} (he : Printable number l e) :
    ReadsTo (tokensOf number e) (rebuild e) := by
  induction e with
  | const c =>
    rcases tokensOf_const he with ⟨-, -, -, -, -, htokens⟩ | ⟨-, -, -, -, -, htokens⟩
    · rw [htokens]
      exact fun rest _ ↦ rfl
    · rw [htokens]
      intro rest _
      have hfold : -Expr.const (-c) = Expr.const c := congrArg Expr.const (neg_neg c)
      exact congrArg (fun e ↦ Except.ok (e, rest)) hfold
  | var v =>
    intro rest hparen
    cases rest with
    | nil => rfl
    | cons token rest => exact parseAtom_name (hparen token rfl)
  | add a b iha ihb =>
    refine .between .expr rfl Nonterminal.noConfusion (iha he.1) rfl ?_ (ihb he.2)
    simp [continues, Nonterminal.operand]
  | sub a b iha ihb =>
    refine .between .expr rfl Nonterminal.noConfusion (iha he.1) rfl ?_ (ihb he.2)
    simp [continues, Nonterminal.operand]
  | mul a b iha ihb =>
    refine .between .term rfl Nonterminal.noConfusion (iha he.1) rfl ?_ (ihb he.2)
    simp [continues, Nonterminal.operand]
  | div a b iha ihb =>
    refine .between .term rfl Nonterminal.noConfusion (iha he.1) rfl ?_ (ihb he.2)
    simp [continues, Nonterminal.operand]
  | neg a ih =>
    refine .brackets fun rest ↦ parseExpr_of_parserOf .unary Nonterminal.noConfusion ?_
    have hunary : parseUnary parseExpr (tokensOf number a ++ .rparen :: rest) =
        .ok (rebuild a, .rparen :: rest) := by
      refine ih he _ fun token htoken ↦ ?_
      cases htoken
      intro heq
      cases heq
    rw [cons_append, parserOf, parseUnary_minus, hunary]
    rfl
  | pow a b iha ihb => exact .between .power rfl Nonterminal.noConfusion (iha he.1) rfl id (ihb he.2)
  | sin a ih => exact .call .sin rfl (ih he)
  | cos a ih => exact .call .cos rfl (ih he)
  | exp a ih => exact .call .exp rfl (ih he)
  | ln a ih => exact .call .ln rfl (ih he)
  | sqrt a ih => exact .call .sqrt rfl (ih he)
  | abs a ih => exact .call .abs rfl (ih he)

/-- Folding keeps every value. -/
theorem eval_rebuild {f : Functions F} {vars : Str → Option F} {v : F}
    (hv : eval f vars e = .ok v) : eval f vars (rebuild e) = .ok v := by
  induction e generalizing v with
  | const c => exact hv
  | var x => exact hv
  | add a b iha ihb =>
    obtain ⟨x, hx, y, hy, rfl⟩ := eval_add_eq_ok.mp hv
    rw [rebuild, eval_plus]
    exact eval_add_eq_ok.mpr ⟨x, iha hx, y, ihb hy, rfl⟩
  | sub a b iha ihb =>
    obtain ⟨x, hx, y, hy, rfl⟩ := eval_sub_eq_ok.mp hv
    rw [rebuild, eval_minus]
    exact eval_sub_eq_ok.mpr ⟨x, iha hx, y, ihb hy, rfl⟩
  | mul a b iha ihb =>
    obtain ⟨x, hx, y, hy, rfl⟩ := eval_mul_eq_ok.mp hv
    exact eval_times (eval_mul_eq_ok.mpr ⟨x, iha hx, y, ihb hy, rfl⟩)
  | div a b iha ihb =>
    obtain ⟨y, hy, hne, x, hx, rfl⟩ := eval_div_eq_ok.mp hv
    exact eval_dividedBy (eval_div_eq_ok.mpr ⟨y, ihb hy, hne, x, iha hx, rfl⟩)
  | neg a ih =>
    obtain ⟨x, hx, rfl⟩ := eval_neg_eq_ok.mp hv
    rw [rebuild, eval_negated]
    exact eval_neg_eq_ok.mpr ⟨x, ih hx, rfl⟩
  | pow a b iha ihb =>
    obtain ⟨x, hx, y, hy, rfl⟩ := eval_pow_eq_ok.mp hv
    exact eval_pow_eq_ok.mpr ⟨x, iha hx, y, ihb hy, rfl⟩
  | sin a ih =>
    obtain ⟨x, hx, rfl⟩ := eval_sin_eq_ok.mp hv
    exact eval_sin_eq_ok.mpr ⟨x, ih hx, rfl⟩
  | cos a ih =>
    obtain ⟨x, hx, rfl⟩ := eval_cos_eq_ok.mp hv
    exact eval_cos_eq_ok.mpr ⟨x, ih hx, rfl⟩
  | exp a ih =>
    obtain ⟨x, hx, rfl⟩ := eval_exp_eq_ok.mp hv
    exact eval_exp_eq_ok.mpr ⟨x, ih hx, rfl⟩
  | ln a ih =>
    obtain ⟨x, hx, hpos, rfl⟩ := eval_ln_eq_ok.mp hv
    exact eval_ln_eq_ok.mpr ⟨x, ih hx, hpos, rfl⟩
  | sqrt a ih =>
    obtain ⟨x, hx, hpos, rfl⟩ := eval_sqrt_eq_ok.mp hv
    exact eval_sqrt_eq_ok.mpr ⟨x, ih hx, hpos, rfl⟩
  | abs a ih =>
    obtain ⟨x, hx, rfl⟩ := eval_abs_eq_ok.mp hv
    exact eval_abs_eq_ok.mpr ⟨x, ih hx, rfl⟩

/-- **Printing and parsing keep every value.** -/
theorem parse_display (hl : KnowsAscii l) {e : Expr F} (he : Printable number l e) :
    ∃ e', parse l (display number e) = some (.ok e') ∧
      ∀ (f : Functions F) (vars : Str → Option F) (v : F),
        eval f vars e = .ok v → eval f vars e' = .ok v := by
  have hscan : tokenize l (display number e) = some (.ok (tokensOf number e)) := by
    have hall := (scans_display hl he).2 (display number e) [] [] []
      (append_nil _).symm (fun _ hmem ↦ absurd hmem not_mem_nil)
      fun _ hmem ↦ absurd hmem (Option.not_mem_none _)
    rw [append_nil, tokenizeFrom] at hall
    exact hall
  have hread : parseExpr (tokensOf number e) = .ok (rebuild e, []) := by
    have hall : parserOf .expr (tokensOf number e ++ []) = .ok (rebuild e, []) :=
      (readsTo_tokensOf he).parserOf_eq Nonterminal.noConfusion
        (fun _ hmem ↦ absurd hmem (Option.not_mem_none _))
        fun _ hmem ↦ absurd hmem (Option.not_mem_none _)
    rwa [append_nil, parserOf, ← parseExpr_eq] at hall
  refine ⟨rebuild e, ?_, fun f vars v ↦ eval_rebuild⟩
  rw [parse, hscan, Option.map_some, ok_bind, parseTokens_eq_ok.mpr ⟨[], hread⟩]

end Rebuilding

theorem knowsAscii_latinLexicon : KnowsAscii latinLexicon := by
  intro c hc
  have hbound := isAscii_iff.mp hc
  have hne : ∀ n, 128 ≤ n → (c.toNat == n) = false := by
    intro n hn
    rw [beq_eq_false_iff_ne]
    omega
  have hrange : ∀ n, 128 ≤ n → decide (n ≤ c.toNat) = false := by
    intro n hn
    rw [decide_eq_false_iff_not]
    omega
  constructor
  · simp [latinLexicon, hne, hrange]
  · simp [latinLexicon, hne, hrange]

/-- The text of an integer. -/
def integerText (c : ℚ) : Str := signedDecimal c.num

/-- A power of a negative constant. -/
theorem parse_display_power : ∃ e', parse latinLexicon
      (display integerText (.pow (.const (-2)) (.var "x".toList))) = some (.ok e') ∧
    ∀ (f : Functions ℚ) (vars : Str → Option ℚ) (v : ℚ),
      eval f vars (.pow (.const (-2)) (.var "x".toList)) = .ok v → eval f vars e' = .ok v := by
  have htwo : PlainDecimal integerText latinLexicon (-2) :=
    ⟨"2".toList, by decide, by decide, .inr ⟨by decide +kernel, by decide +kernel⟩⟩
  have hname : IsIdentifier "x".toList := ⟨⟨'x', rfl, rfl⟩, by decide⟩
  have hprintable : Printable integerText latinLexicon (.pow (.const (-2)) (.var "x".toList)) :=
    ⟨htwo, hname⟩
  exact parse_display knowsAscii_latinLexicon hprintable

end SoulSystem.Scirust.Symbolic
