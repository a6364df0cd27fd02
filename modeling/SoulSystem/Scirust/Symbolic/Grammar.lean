import SoulSystem.Scirust.Symbolic.Parser

/-!
# The grammar of expressions

The words of the grammar are given by their derivations.  The parser reads a word of the grammar
that the next token does not continue, and it reads every such word.  It does not look at what
follows, so it accepts tokens that start with such a word as well as the words themselves.
-/

namespace SoulSystem.Scirust.Symbolic

open Library Outcome Descent List

/-! ## Derivations -/

inductive Nonterminal where
  | expr
  | term
  | power
  | unary
  | atom

def functionNames : List Str :=
  ["sin".toList, "cos".toList, "exp".toList, "ln".toList, "sqrt".toList, "abs".toList]

/-- The words of a nonterminal.  A repetition is read from the left. -/
inductive Derives {F : Type} : Nonterminal → List (Token F) → Prop
  | ofTerm {w} (hw : Derives .term w) : Derives .expr w
  | sum {w v operator} (hw : Derives .expr w) (hoperator : operator = .plus ∨ operator = .minus)
      (hv : Derives .term v) : Derives .expr (w ++ operator :: v)
  | ofPower {w} (hw : Derives .power w) : Derives .term w
  | product {w v operator} (hw : Derives .term w) (hoperator : operator = .star ∨ operator = .slash)
      (hv : Derives .power v) : Derives .term (w ++ operator :: v)
  | ofUnary {w} (hw : Derives .unary w) : Derives .power w
  | powered {w v} (hw : Derives .power w) (hv : Derives .unary v) :
      Derives .power (w ++ .caret :: v)
  | ofAtom {w} (hw : Derives .atom w) : Derives .unary w
  | minus {w} (hw : Derives .unary w) : Derives .unary (.minus :: w)
  | number (n : F) : Derives .atom [.num n]
  | name (name : Str) : Derives .atom [.ident name]
  | call {w name} (hname : name ∈ functionNames) (hw : Derives .expr w) :
      Derives .atom (.ident name :: .lparen :: (w ++ [.rparen]))
  | brackets {w} (hw : Derives .expr w) : Derives .atom (.lparen :: (w ++ [.rparen]))

section Words

variable {F : Type} {nonterminal : Nonterminal} {w v rest : List (Token F)} {token : Token F}

theorem Derives.ne_nil (hw : Derives nonterminal w) : w ≠ [] := by
  induction hw with
  | ofTerm _ ih => exact ih
  | sum => simp
  | ofPower _ ih => exact ih
  | product => simp
  | ofUnary _ ih => exact ih
  | powered => simp
  | ofAtom _ ih => exact ih
  | minus => simp
  | number => simp
  | name => simp
  | call => simp
  | brackets => simp

theorem Derives.head_ne_minus (hw : Derives .atom w) :
    ∀ token ∈ (w ++ rest).head?, token ≠ .minus := by
  cases hw with
  | number n => simp
  | name name => simp
  | call hname hw => simp
  | brackets hw => simp

/-! ## What continues a word -/

/-- The operators of a nonterminal and of what it is made of. -/
def continues : Nonterminal → Token F → Prop
  | .expr, token => token ∈ [.plus, .minus, .star, .slash, .caret]
  | .term, token => token ∈ [.star, .slash, .caret]
  | .power, token => token = .caret
  | .unary, _ => False
  | .atom, _ => False

def EndsInName (w : List (Token F)) : Prop := ∃ name, w.getLast? = some (.ident name)

/-- The next token is no operator, and no bracket that makes a call of a name. -/
def Stops (nonterminal : Nonterminal) (w rest : List (Token F)) : Prop :=
  ∀ token ∈ rest.head?, ¬ continues nonterminal token ∧ (token = .lparen → ¬ EndsInName w)

theorem endsInName_append (hv : v ≠ []) : EndsInName (w ++ v) ↔ EndsInName v := by
  rw [EndsInName, EndsInName, getLast?_append_of_ne_nil w hv]

theorem endsInName_append_cons (hv : v ≠ []) : EndsInName (w ++ token :: v) ↔ EndsInName v := by
  rw [append_cons, endsInName_append hv]

theorem stops_append_cons (hv : v ≠ []) :
    Stops nonterminal (w ++ token :: v) rest ↔ Stops nonterminal v rest := by
  simp only [Stops, endsInName_append_cons hv]

theorem stops_cons (hv : v ≠ []) :
    Stops nonterminal (token :: v) rest ↔ Stops nonterminal v rest :=
  stops_append_cons (w := []) hv

theorem not_endsInName_rparen : ¬ EndsInName (w ++ [.rparen]) := by
  rintro ⟨name, hlast⟩
  rw [getLast?_concat] at hlast
  cases hlast

theorem stops_of_rparen : Stops .atom (w ++ [.rparen]) rest :=
  fun _ _ ↦ ⟨id, fun _ ↦ not_endsInName_rparen⟩

theorem stops_rparen : Stops .expr w (.rparen :: rest) := by
  intro token htoken
  cases htoken
  refine ⟨fun hnext ↦ ?_, fun heq ↦ nomatch heq⟩
  simp [continues] at hnext

end Words

/-! ## What the parser reads -/

section Soundness

variable {F : Type}

theorem exists_function_iff {name : Str} :
    (∃ expr, function (F := F) name = some expr) ↔ name ∈ functionNames := by
  unfold function functionNames
  split_ifs <;> simp_all

variable {p : ExprParser F}

theorem parseAtom_reads (hp : Reads p (Derives .expr) (Stops .expr)) :
    Reads (parseAtom p) (Derives .atom) (Stops .atom) := by
  intro tokens e rest hok
  rcases parseAtom_cases hok with ⟨n, rfl, -⟩ | ⟨func, inner, expr, arg, rfl, harg, hexpr, -⟩ |
    ⟨name, rfl, hname, -⟩ | ⟨inner, rfl, hinner⟩
  · refine ⟨[.num n], rfl, .number n, fun token _ ↦ ⟨id, fun _ hends ↦ ?_⟩⟩
    obtain ⟨name, hlast⟩ := hends
    cases hlast
  · obtain ⟨w, rfl, hw, -⟩ := hp harg
    have hfunction := exists_function_iff.mp ⟨expr, hexpr⟩
    have hword : .ident func :: .lparen :: (w ++ .rparen :: rest) =
        (.ident func :: .lparen :: (w ++ [.rparen])) ++ rest := by
      simp
    exact ⟨_, hword, .call hfunction hw, stops_of_rparen (w := .ident func :: .lparen :: w)⟩
  · exact ⟨[.ident name], rfl, .name name, fun token htoken ↦
      ⟨id, fun hparen ↦ absurd hparen (hname token htoken)⟩⟩
  · obtain ⟨w, rfl, hw, -⟩ := hp hinner
    have hword : .lparen :: (w ++ .rparen :: rest) = (.lparen :: (w ++ [.rparen])) ++ rest := by
      simp
    exact ⟨_, hword, .brackets hw, stops_of_rparen (w := .lparen :: w)⟩

theorem exponentiation_isSome {token : Token F} :
    (exponentiation token).isSome ↔ token = .caret := by
  cases token <;> simp [exponentiation]

/-- One level of operators. -/
theorem level_reads {operand : ExprParser F}
    {operator : Token F → Option (Expr F → Expr F → Expr F)} {nonterminal inner : Nonterminal}
    (hconsumes : Consumes operand) (hoperand : Reads operand (Derives inner) (Stops inner))
    (hone : ∀ w, Derives (F := F) inner w → Derives nonterminal w)
    (hmore : ∀ w token v, Derives nonterminal w → (operator token).isSome → Derives inner v →
      Derives nonterminal (w ++ token :: v))
    (hcontinues : ∀ token, continues nonterminal token →
      continues inner token ∨ (operator token).isSome) :
    Reads (chain operator operand) (Derives nonterminal) (Stops nonterminal) := by
  intro tokens e rest hok
  obtain ⟨w, hword, hw, hstops, hnone⟩ := chain_reads hconsumes hoperand hone hmore
    (fun w token v rest hv ↦ (stops_append_cons hv.ne_nil).mpr) hok
  refine ⟨w, hword, hw, fun token htoken ↦ ⟨fun hnext ↦ ?_, (hstops token htoken).2⟩⟩
  cases hcontinues token hnext with
  | inl hinner => exact (hstops token htoken).1 hinner
  | inr hsome =>
    rw [hnone token htoken] at hsome
    cases hsome

variable [Field F]

theorem parseUnary_reads (hp : Reads p (Derives .expr) (Stops .expr)) :
    Reads (parseUnary p) (Derives .unary) (Stops .unary) := by
  have hatom : ∀ {tokens e rest}, parseAtom p tokens = .ok (e, rest) →
      ∃ w, tokens = w ++ rest ∧ Derives .unary w ∧ Stops .unary w rest := by
    intro tokens e rest hok
    obtain ⟨w, hword, hw, hstops⟩ := parseAtom_reads hp hok
    exact ⟨w, hword, .ofAtom hw, hstops⟩
  intro tokens
  induction tokens with
  | nil => exact fun e rest hok ↦ hatom hok
  | cons token tokens ih =>
    intro e rest hok
    by_cases hminus : token = .minus
    · rw [hminus, parseUnary_minus] at hok
      obtain ⟨⟨inner, after⟩, hinner, hpure⟩ := bind_eq_ok.mp hok
      cases hpure
      obtain ⟨w, rfl, hw, hstops⟩ := ih hinner
      exact ⟨.minus :: w, hminus ▸ rfl, .minus hw, (stops_cons hw.ne_nil).mpr hstops⟩
    · rw [parseUnary_of_ne fun token' htoken ↦ Option.some.inj htoken ▸ hminus] at hok
      exact hatom hok

theorem parsePow_reads (hp : Reads p (Derives .expr) (Stops .expr)) (hconsumes : Consumes p) :
    Reads (parsePow p) (Derives .power) (Stops .power) := by
  refine level_reads (parseUnary_consumes hconsumes) (parseUnary_reads hp) (fun w hw ↦ .ofUnary hw)
    (fun w token v hw hsome hv ↦ ?_) fun token hnext ↦ .inr ?_
  · rw [exponentiation_isSome] at hsome
    exact hsome ▸ .powered hw hv
  · rwa [exponentiation_isSome]

variable [LinearOrder F]

theorem multiplication_isSome {token : Token F} :
    (multiplication token).isSome ↔ token = .star ∨ token = .slash := by
  cases token <;> simp [multiplication]

theorem addition_isSome {token : Token F} :
    (addition token).isSome ↔ token = .plus ∨ token = .minus := by
  cases token <;> simp [addition]

theorem parseMulDiv_reads (hp : Reads p (Derives .expr) (Stops .expr)) (hconsumes : Consumes p) :
    Reads (parseMulDiv p) (Derives .term) (Stops .term) := by
  refine level_reads (parsePow_consumes hconsumes) (parsePow_reads hp hconsumes)
    (fun w hw ↦ .ofPower hw) (fun w token v hw hsome hv ↦ ?_) fun token hnext ↦ ?_
  · exact .product hw (multiplication_isSome.mp hsome) hv
  · rw [multiplication_isSome]
    simp only [continues, mem_cons, not_mem_nil, or_false] at hnext ⊢
    tauto

theorem parseAddSub_reads (hp : Reads p (Derives .expr) (Stops .expr)) (hconsumes : Consumes p) :
    Reads (parseAddSub p) (Derives .expr) (Stops .expr) := by
  refine level_reads (parseMulDiv_consumes hconsumes) (parseMulDiv_reads hp hconsumes)
    (fun w hw ↦ .ofTerm hw) (fun w token v hw hsome hv ↦ ?_) fun token hnext ↦ ?_
  · exact .sum hw (addition_isSome.mp hsome) hv
  · rw [addition_isSome]
    simp only [continues, mem_cons, not_mem_nil, or_false] at hnext ⊢
    tauto

/-- **What the parser reads** is an expression that the next token does not continue. -/
theorem parseExpr_reads : Reads (parseExpr (F := F)) (Derives .expr) (Stops .expr) :=
  parser_reads parseAddSub_guarded fun _ hconsumes hp ↦ parseAddSub_reads hp hconsumes

end Soundness

/-! ## What the parser accepts -/

section Completeness

variable {F : Type} [Field F] [LinearOrder F]

/-- What the operators of a nonterminal stand between. -/
def Nonterminal.operand : Nonterminal → Nonterminal
  | .expr => .term
  | .term => .power
  | .power => .unary
  | .unary => .unary
  | .atom => .atom

def operatorOf : Nonterminal → Token F → Option (Expr F → Expr F → Expr F)
  | .expr => addition
  | .term => multiplication
  | .power => exponentiation
  | .unary => fun _ ↦ none
  | .atom => fun _ ↦ none

def parserOf : Nonterminal → ExprParser F
  | .expr => parseAddSub parseExpr
  | .term => parseMulDiv parseExpr
  | .power => parsePow parseExpr
  | .unary => parseUnary parseExpr
  | .atom => parseAtom parseExpr

/-- How the parser of a nonterminal goes on after a word. -/
def goOn (nonterminal : Nonterminal) (e : Expr F) (rest : List (Token F)) :
    Except Str (Expr F × List (Token F)) :=
  loop (operatorOf nonterminal) (parserOf nonterminal.operand) e rest

/-- The parser gets to the end of a word. -/
def Parses (nonterminal : Nonterminal) (w : List (Token F)) : Prop :=
  ∃ e, ∀ rest, Stops nonterminal.operand w rest →
    parserOf nonterminal (w ++ rest) = goOn nonterminal e rest

variable {nonterminal : Nonterminal} {w v rest : List (Token F)} {token : Token F} {e : Expr F}

theorem parserOf_consumes (nonterminal : Nonterminal) :
    Consumes (parserOf (F := F) nonterminal) := by
  cases nonterminal with
  | expr => exact parseAddSub_guarded.consumes _ parseExpr_consumes
  | term => exact parseMulDiv_consumes parseExpr_consumes
  | power => exact parsePow_consumes parseExpr_consumes
  | unary => exact parseUnary_consumes parseExpr_consumes
  | atom => exact parseAtom_consumes parseExpr_consumes

theorem continues_iff : continues nonterminal token ↔
    (operatorOf nonterminal token).isSome ∨ continues nonterminal.operand token := by
  cases nonterminal with
  | expr =>
    simp only [continues, operatorOf, Nonterminal.operand, addition_isSome, mem_cons,
      not_mem_nil, or_false, or_assoc]
  | term =>
    simp only [continues, operatorOf, Nonterminal.operand, multiplication_isSome, mem_cons,
      not_mem_nil, or_false, or_assoc]
  | power =>
    simp only [continues, operatorOf, Nonterminal.operand, exponentiation_isSome, or_false]
  | unary => exact iff_of_false id (fun h ↦ h.elim (fun hsome ↦ nomatch hsome) id)
  | atom => exact iff_of_false id (fun h ↦ h.elim (fun hsome ↦ nomatch hsome) id)

theorem Stops.operand (hstops : Stops nonterminal w rest) : Stops nonterminal.operand w rest :=
  fun token htoken ↦ ⟨fun hnext ↦ (hstops token htoken).1 (continues_iff.mpr (.inr hnext)),
    (hstops token htoken).2⟩

theorem goOn_of_stops (hstops : Stops nonterminal w rest) :
    goOn nonterminal e rest = .ok (e, rest) := by
  refine loop_of_none fun token htoken ↦ Option.not_isSome_iff_eq_none.mp fun hsome ↦ ?_
  exact (hstops token htoken).1 (continues_iff.mpr (.inl hsome))

/-- A word that nothing continues is read as it is. -/
theorem Parses.eq_ok (hw : Parses nonterminal w) :
    ∃ e, ∀ rest, Stops nonterminal w rest → parserOf nonterminal (w ++ rest) = .ok (e, rest) := by
  obtain ⟨e, hparse⟩ := hw
  exact ⟨e, fun rest hstops ↦ (hparse rest hstops.operand).trans (goOn_of_stops hstops)⟩

theorem Parses.leaf (hself : nonterminal.operand = nonterminal)
    (hparse : ∀ rest, Stops nonterminal w rest →
      parserOf nonterminal (w ++ rest) = .ok (e, rest)) : Parses nonterminal w := by
  refine ⟨e, fun rest hstops ↦ ?_⟩
  rw [hself] at hstops
  exact (hparse rest hstops).trans (goOn_of_stops hstops).symm

theorem Parses.one (hchain : parserOf nonterminal = chain (operatorOf (F := F) nonterminal)
    (parserOf nonterminal.operand)) (hw : Parses nonterminal.operand w) :
    Parses nonterminal w := by
  obtain ⟨e, hparse⟩ := hw.eq_ok
  refine ⟨e, fun rest hstops ↦ ?_⟩
  rw [hchain, chain, hparse rest hstops]
  rfl

theorem Parses.more (hw : Parses nonterminal w) (hsome : (operatorOf nonterminal token).isSome)
    (hnext : ¬ continues nonterminal.operand token) (hne : v ≠ [])
    (hv : Parses nonterminal.operand v) : Parses nonterminal (w ++ token :: v) := by
  obtain ⟨a, ha⟩ := hw
  obtain ⟨b, hb⟩ := hv.eq_ok
  obtain ⟨combine, hcombine⟩ := Option.isSome_iff_exists.mp hsome
  have hparen : token ≠ .lparen := by
    rintro rfl
    cases nonterminal <;> cases hcombine
  refine ⟨combine a b, fun rest hstops ↦ ?_⟩
  have hbetween : Stops nonterminal.operand w (token :: (v ++ rest)) := by
    intro token' htoken
    cases htoken
    exact ⟨hnext, fun heq ↦ absurd heq hparen⟩
  have hoperand := hb rest ((stops_append_cons hne).mp hstops)
  calc
    parserOf nonterminal (w ++ token :: v ++ rest)
    _ = parserOf nonterminal (w ++ token :: (v ++ rest)) := by
      rw [append_assoc, cons_append]
    _ = goOn nonterminal a (token :: (v ++ rest)) := ha _ hbetween
    _ = goOn nonterminal (combine a b) rest := by
      rw [goOn, loop_of_some (parserOf_consumes _) hcombine, hoperand]
      rfl

/-- The parser of a nonterminal gets to the end of each of its words. -/
theorem parses (hw : Derives nonterminal w) : Parses nonterminal w := by
  induction hw with
  | ofTerm _ ih => exact .one rfl ih
  | sum _ hoperator hv ihw ihv =>
    refine .more ihw (addition_isSome.mpr hoperator) (fun hnext ↦ ?_) hv.ne_nil ihv
    simp only [Nonterminal.operand, continues] at hnext
    rcases hoperator with rfl | rfl <;> simp at hnext
  | ofPower _ ih => exact .one rfl ih
  | product _ hoperator hv ihw ihv =>
    refine .more ihw (multiplication_isSome.mpr hoperator) (fun hnext ↦ ?_) hv.ne_nil ihv
    simp only [Nonterminal.operand, continues] at hnext
    rcases hoperator with rfl | rfl <;> cases hnext
  | ofUnary _ ih => exact .one rfl ih
  | powered _ hv ihw ihv => exact .more ihw rfl id hv.ne_nil ihv
  | ofAtom hw ih =>
    obtain ⟨e, hparse⟩ := ih.eq_ok
    exact .leaf rfl fun rest hstops ↦
      (parseUnary_of_ne hw.head_ne_minus).trans (hparse rest hstops)
  | minus hw ih =>
    obtain ⟨e, hparse⟩ := ih.eq_ok
    refine .leaf (e := -e) rfl fun rest hstops ↦ ?_
    have hinner : parseUnary parseExpr (_ ++ rest) = .ok (e, rest) :=
      hparse rest ((stops_cons hw.ne_nil).mp hstops)
    rw [cons_append, parserOf, parseUnary_minus, hinner]
    rfl
  | number n => exact .leaf (e := .const n) rfl fun rest _ ↦ rfl
  | name name =>
    refine .leaf (e := .var name) rfl fun rest hstops ↦ ?_
    cases rest with
    | nil => rfl
    | cons token rest =>
      have hparen : token ≠ .lparen := fun heq ↦ (hstops token rfl).2 heq ⟨name, rfl⟩
      exact parseAtom_name hparen
  | call hname _ ih =>
    obtain ⟨e, hparse⟩ := ih.eq_ok
    obtain ⟨expr, hexpr⟩ := exists_function_iff.mpr hname
    refine .leaf (e := expr e) rfl fun rest _ ↦ ?_
    have hinner := hparse (.rparen :: rest) stops_rparen
    rw [cons_append, cons_append, append_assoc, singleton_append, parserOf,
      parseAtom, parseExpr_eq]
    simp only [parserOf] at hinner
    rw [hinner, ok_bind]
    simp only [hexpr]
  | brackets _ ih =>
    obtain ⟨e, hparse⟩ := ih.eq_ok
    refine .leaf (e := e) rfl fun rest _ ↦ ?_
    have hinner := hparse (.rparen :: rest) stops_rparen
    rw [cons_append, append_assoc, singleton_append, parserOf, parseAtom,
      parseExpr_eq]
    simp only [parserOf] at hinner
    rw [hinner, ok_bind]

/-- **Every word is read** that the next token does not continue. -/
theorem parseExpr_of_derives (hw : Derives .expr w) :
    ∃ e, ∀ rest, Stops .expr w rest → parseExpr (F := F) (w ++ rest) = .ok (e, rest) := by
  rw [parseExpr_eq]
  exact (parses hw).eq_ok

end Completeness

/-! ## What is left over -/

section Acceptance

variable {F : Type} {tokens : List (Token F)}

/-- The tokens go on after an expression with a token that does not continue it. -/
def LeavesOver (tokens : List (Token F)) : Prop :=
  ∃ w rest, tokens = w ++ rest ∧ rest ≠ [] ∧ Derives .expr w ∧ Stops .expr w rest

theorem stops_nil {nonterminal : Nonterminal} {w : List (Token F)} : Stops nonterminal w [] :=
  fun _ hmem ↦ nomatch hmem

variable [Field F] [LinearOrder F]

theorem parseTokens_eq_ok {e : Expr F} :
    parseTokens tokens = .ok e ↔ ∃ rest, parseExpr tokens = .ok (e, rest) := by
  rw [parseTokens, bind_eq_ok]
  constructor
  · rintro ⟨⟨e', rest⟩, hparse, hpure⟩
    cases hpure
    exact ⟨rest, hparse⟩
  · rintro ⟨rest, hparse⟩
    exact ⟨(e, rest), hparse, rfl⟩

/-- The parser accepts the words of the grammar and what starts with one. -/
theorem accepts_iff_derives_or :
    (∃ e, parseTokens tokens = .ok e) ↔ Derives .expr tokens ∨ LeavesOver tokens := by
  constructor
  · rintro ⟨e, hok⟩
    obtain ⟨rest, hparse⟩ := parseTokens_eq_ok.mp hok
    obtain ⟨w, rfl, hw, hstops⟩ := parseExpr_reads hparse
    by_cases hrest : rest = []
    · rw [hrest, append_nil]
      exact .inl hw
    · exact .inr ⟨w, rest, rfl, hrest, hw, hstops⟩
  · rintro (hw | ⟨w, rest, rfl, -, hw, hstops⟩)
    · obtain ⟨e, hparse⟩ := parseExpr_of_derives hw
      have hall := hparse [] stops_nil
      rw [append_nil] at hall
      exact ⟨e, parseTokens_eq_ok.mpr ⟨[], hall⟩⟩
    · obtain ⟨e, hparse⟩ := parseExpr_of_derives hw
      exact ⟨e, parseTokens_eq_ok.mpr ⟨rest, hparse rest hstops⟩⟩

/-- No word of the grammar leaves anything over. -/
theorem not_leavesOver_of_derives (hw : Derives .expr tokens) : ¬ LeavesOver tokens := by
  rintro ⟨w, rest, rfl, hrest, hv, hstops⟩
  obtain ⟨e, hparse⟩ := parseExpr_of_derives hw
  obtain ⟨e', hparse'⟩ := parseExpr_of_derives hv
  have hall := hparse [] stops_nil
  rw [append_nil, hparse' rest hstops] at hall
  cases hall
  exact hrest rfl

/-- **Exactly the words of the grammar are accepted** when nothing is left over. -/
theorem accepts_exactly_iff :
    ((∃ e, parseTokens tokens = .ok e) ↔ Derives .expr tokens) ↔ ¬ LeavesOver tokens := by
  rw [accepts_iff_derives_or]
  constructor
  · intro hiff hover
    exact not_leavesOver_of_derives (hiff.mp (.inr hover)) hover
  · intro hover
    exact or_iff_left hover

/-- Two numbers are no expression. -/
theorem accepts_two_numbers : ∃ tokens, tokenize latinLexicon "1 2".toList = some (.ok tokens) ∧
    ¬ ((∃ e, parseTokens tokens = .ok e) ↔ Derives .expr tokens) := by
  have hover : LeavesOver [.num (1 : ℚ), .num 2] := by
    have hone : Derives .expr [.num (1 : ℚ)] :=
      .ofTerm (.ofPower (.ofUnary (.ofAtom (.number 1))))
    refine ⟨[.num 1], [.num 2], rfl, cons_ne_nil _ _, hone, fun token htoken ↦ ?_⟩
    cases htoken
    refine ⟨fun hnext ↦ ?_, fun heq ↦ nomatch heq⟩
    simp [continues] at hnext
  refine ⟨[.num 1, .num 2], by decide +kernel, fun hiff ↦ ?_⟩
  exact not_leavesOver_of_derives (hiff.mp (accepts_iff_derives_or.mpr (.inr hover))) hover

end Acceptance

end SoulSystem.Scirust.Symbolic
