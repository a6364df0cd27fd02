import SoulSystem.Library.Descent
import SoulSystem.Scirust.Symbolic.Tokenize

/-!
# Parsing expressions

A recursive descent over four levels of operators.  The position in the tokens is the list of the
tokens from there on.  The parser reads the longest expression at the start of the tokens, and what
it leaves over is dropped.
-/

namespace SoulSystem.Scirust.Symbolic

open Library Outcome Descent

section Parsers

/-! ## Atoms -/

variable {F : Type}

/-- `Result<(Expr, usize), String>` at a position. -/
abbrev ExprParser (F : Type) := Parser (Token F) Str (Expr F)

/-- The functions by name. -/
def function (func : Str) : Option (Expr F → Expr F) :=
  if func = "sin".toList then some .sin
  else if func = "cos".toList then some .cos
  else if func = "exp".toList then some .exp
  else if func = "ln".toList then some .ln
  else if func = "sqrt".toList then some .sqrt
  else if func = "abs".toList then some .abs
  else none

def unexpectedToken (debug : String) : Except Str (Expr F × List (Token F)) :=
  .error ("Unexpected token: " ++ debug).toList

/-- The inside of brackets is read by the given parser. -/
def parseAtom (parseExpr : ExprParser F) : ExprParser F
  | [] => .error "Unexpected end of expression".toList
  | .num n :: rest => .ok (.const n, rest)
  | .ident func :: .lparen :: rest => do
      let (arg, after) ← parseExpr rest
      match after with
      | .rparen :: after =>
        match function func with
        | some expr => .ok (expr arg, after)
        | none => .error ("Unknown function: ".toList ++ func)
      | _ => .error ("Expected ')' after ".toList ++ func ++ "(".toList)
  | .ident name :: rest => .ok (.var name, rest)
  | .lparen :: rest => do
      let (inner, after) ← parseExpr rest
      match after with
      | .rparen :: after => .ok (inner, after)
      | _ => .error "Expected ')'".toList
  | .plus :: _ => unexpectedToken "Plus"
  | .minus :: _ => unexpectedToken "Minus"
  | .star :: _ => unexpectedToken "Star"
  | .slash :: _ => unexpectedToken "Slash"
  | .caret :: _ => unexpectedToken "Caret"
  | .rparen :: _ => unexpectedToken "RParen"

variable {p q : ExprParser F} {e : Expr F} {tokens rest : List (Token F)} {n : ℕ}

theorem parseAtom_cases (hok : parseAtom p tokens = .ok (e, rest)) :
    (∃ n, tokens = .num n :: rest ∧ e = .const n) ∨
    (∃ func inner expr arg, tokens = .ident func :: .lparen :: inner ∧
      p inner = .ok (arg, .rparen :: rest) ∧ function func = some expr ∧ e = expr arg) ∨
    (∃ name, tokens = .ident name :: rest ∧ (∀ token ∈ rest.head?, token ≠ .lparen) ∧
      e = .var name) ∨
    (∃ inner, tokens = .lparen :: inner ∧ p inner = .ok (e, .rparen :: rest)) := by
  unfold parseAtom at hok
  split at hok
  · cases hok
  · cases hok
    exact .inl ⟨_, rfl, rfl⟩
  · rename_i func inner
    obtain ⟨⟨arg, after⟩, harg, hok⟩ := bind_eq_ok.mp hok
    dsimp only at hok
    split at hok
    · split at hok
      · rename_i expr hexpr
        cases hok
        exact .inr (.inl ⟨func, inner, expr, arg, rfl, harg, hexpr, rfl⟩)
      · cases hok
    · cases hok
  · rename_i name after hname
    cases hok
    refine .inr (.inr (.inl ⟨name, rfl, ?_, rfl⟩))
    rintro token htoken rfl
    obtain ⟨after, hafter⟩ := List.head?_eq_some_iff.mp htoken
    exact hname after hafter
  · rename_i inner
    obtain ⟨⟨arg, after⟩, harg, hok⟩ := bind_eq_ok.mp hok
    dsimp only at hok
    split at hok
    · cases hok
      exact .inr (.inr (.inr ⟨inner, rfl, harg⟩))
    · cases hok
  all_goals cases hok

theorem parseAtom_name {name : Str} {token : Token F} (hparen : token ≠ .lparen) :
    parseAtom p (.ident name :: token :: rest) = .ok (.var name, token :: rest) := by
  unfold parseAtom
  split
  all_goals simp_all

theorem parseAtom_consumes (hp : Consumes p) : Consumes (parseAtom p) := by
  intro tokens e rest hok
  rcases parseAtom_cases hok with ⟨n, rfl, -⟩ | ⟨func, inner, expr, arg, rfl, harg, -⟩ |
    ⟨name, rfl, -⟩ | ⟨inner, rfl, hinner⟩
  · exact Nat.lt_succ_self _
  · have hinner := hp harg
    simp only [List.length_cons] at hinner ⊢
    omega
  · exact Nat.lt_succ_self _
  · have hlt := hp hinner
    simp only [List.length_cons] at hlt ⊢
    omega

theorem parseAtom_agree (hagree : AgreeBelow n p q) :
    AgreeBelow (n + 1) (parseAtom p) (parseAtom q) := by
  intro tokens hlt
  unfold parseAtom
  split
  · rfl
  · rfl
  · rename_i inner
    rw [hagree inner (by simp only [List.length_cons] at hlt; omega)]
  · rfl
  · rename_i inner
    rw [hagree inner (Nat.lt_of_succ_lt_succ hlt)]
  all_goals rfl

/-! ## Unary operands -/

variable [Field F]

def parseUnary (parseExpr : ExprParser F) : ExprParser F
  | .minus :: rest => do
      let (inner, after) ← parseUnary parseExpr rest
      return (-inner, after)
  | tokens => parseAtom parseExpr tokens

/-- A unary operand is an atom after some signs. -/
theorem parseUnary_minus : parseUnary p (.minus :: rest) = parseUnary p rest >>= fun result ↦
    pure (-result.1, result.2) := rfl

theorem parseUnary_of_ne (hne : ∀ token ∈ tokens.head?, token ≠ .minus) :
    parseUnary p tokens = parseAtom p tokens := by
  unfold parseUnary
  split
  · exact absurd rfl (hne .minus rfl)
  · rfl

theorem parseUnary_consumes (hp : Consumes p) : Consumes (parseUnary p) := by
  intro tokens
  induction tokens with
  | nil => exact fun e rest hok ↦ parseAtom_consumes hp hok
  | cons token tokens ih =>
    intro e rest hok
    by_cases hminus : token = .minus
    · rw [hminus, parseUnary_minus] at hok
      obtain ⟨⟨inner, after⟩, hinner, hpure⟩ := bind_eq_ok.mp hok
      cases hpure
      exact (ih hinner).trans (Nat.lt_succ_self _)
    · rw [parseUnary_of_ne fun token' htoken ↦ Option.some.inj htoken ▸ hminus] at hok
      exact parseAtom_consumes hp hok

theorem parseUnary_agree (hagree : AgreeBelow n p q) :
    AgreeBelow (n + 1) (parseUnary p) (parseUnary q) := by
  intro tokens
  induction tokens with
  | nil => exact fun _ ↦ rfl
  | cons token tokens ih =>
    intro hlt
    by_cases hminus : token = .minus
    · rw [hminus, parseUnary_minus, parseUnary_minus, ih (Nat.lt_of_succ_lt hlt)]
    · have hne : ∀ token' ∈ (token :: tokens).head?, token' ≠ .minus :=
        fun token' htoken ↦ Option.some.inj htoken ▸ hminus
      rw [parseUnary_of_ne hne, parseUnary_of_ne hne, parseAtom_agree hagree _ hlt]

/-! ## Operators -/

def exponentiation : Token F → Option (Expr F → Expr F → Expr F)
  | .caret => some .pow
  | _ => none

def parsePow (parseExpr : ExprParser F) : ExprParser F :=
  chain exponentiation (parseUnary parseExpr)

theorem parsePow_consumes (hp : Consumes p) : Consumes (parsePow p) :=
  chain_consumes (parseUnary_consumes hp)

variable [LinearOrder F]

def multiplication : Token F → Option (Expr F → Expr F → Expr F)
  | .star => some fun lhs rhs ↦ lhs * rhs
  | .slash => some fun lhs rhs ↦ lhs / rhs
  | _ => none

def addition : Token F → Option (Expr F → Expr F → Expr F)
  | .plus => some fun lhs rhs ↦ lhs + rhs
  | .minus => some fun lhs rhs ↦ lhs - rhs
  | _ => none

def parseMulDiv (parseExpr : ExprParser F) : ExprParser F :=
  chain multiplication (parsePow parseExpr)

def parseAddSub (parseExpr : ExprParser F) : ExprParser F :=
  chain addition (parseMulDiv parseExpr)

/-- The failure is for brackets that are deeper than there are tokens. -/
def parseExpr : ExprParser F := parser [] parseAddSub

/-- What `parse` does with the tokens. -/
def parseTokens (tokens : List (Token F)) : Except Str (Expr F) := do
  let (expr, _) ← parseExpr tokens
  return expr

/-- There is no result when the scanner panics. -/
def parse (l : Lexicon F) (input : Str) : Option (Except Str (Expr F)) :=
  (tokenize l input).map fun tokens ↦ tokens >>= parseTokens

/-! ## The recursion -/

theorem parseMulDiv_consumes (hp : Consumes p) : Consumes (parseMulDiv p) :=
  chain_consumes (parsePow_consumes hp)

theorem parseAddSub_guarded : Guarded (parseAddSub (F := F)) where
  consumes _ hp := chain_consumes (parseMulDiv_consumes hp)
  agree _ _ _ hp hq hagree :=
    chain_agree (parseMulDiv_consumes hp) (parseMulDiv_consumes hq) <|
      chain_agree (parsePow_consumes hp) (parsePow_consumes hq) <|
        chain_agree (parseUnary_consumes hp) (parseUnary_consumes hq) (parseUnary_agree hagree)

theorem parseExpr_consumes : Consumes (parseExpr (F := F)) := parser_consumes parseAddSub_guarded

/-- **The recursion of the source.** -/
theorem parseExpr_eq : parseExpr (F := F) = parseAddSub parseExpr := parser_eq parseAddSub_guarded

end Parsers

end SoulSystem.Scirust.Symbolic
