import SoulSystem.Library.Outcome

/-!
# Recursive descent

A parser reads a word from the start of a list of tokens and leaves the rest.  Operands with
operators between them are read in a loop and combined from the left.  A parser that calls itself
for the inside of brackets does so on fewer tokens, so a bound on the depth that covers the tokens
does not matter.
-/

namespace SoulSystem.Library.Descent

open Outcome List

variable {τ ε α : Type}

abbrev Parser (τ ε α : Type) := List τ → Except ε (α × List τ)

/-- A word is not empty. -/
def Consumes (p : Parser τ ε α) : Prop :=
  ∀ ⦃tokens a rest⦄, p tokens = .ok (a, rest) → rest.length < tokens.length

/-- Two parsers give the same on fewer tokens than a bound. -/
def AgreeBelow (n : ℕ) (p q : Parser τ ε α) : Prop :=
  ∀ tokens : List τ, tokens.length < n → p tokens = q tokens

/-- The words that are read, with what they may be followed by. -/
def Reads (p : Parser τ ε α) (L : List τ → Prop) (Stops : List τ → List τ → Prop) : Prop :=
  ∀ ⦃tokens a rest⦄, p tokens = .ok (a, rest) →
    ∃ word, tokens = word ++ rest ∧ L word ∧ Stops word rest

/-! ## Operands and operators -/

section Chain

variable (operator : τ → Option (α → α → α)) (operand : Parser τ ε α)

/-- The loop over the operators, which reads at most as many operands as there are tokens. -/
def loopWithin : ℕ → α → List τ → Except ε (α × List τ)
  | n + 1, lhs, token :: rest =>
    match operator token with
    | some combine => do
        let (rhs, after) ← operand rest
        loopWithin n (combine lhs rhs) after
    | none => .ok (lhs, token :: rest)
  | _, lhs, tokens => .ok (lhs, tokens)

def loop (lhs : α) (tokens : List τ) : Except ε (α × List τ) :=
  loopWithin operator operand tokens.length lhs tokens

/-- `operand { operator operand }`. -/
def chain : Parser τ ε α := fun tokens ↦ do
  let (lhs, rest) ← operand tokens
  loop operator operand lhs rest

variable {operator operand} {lhs a : α} {token : τ} {tokens rest : List τ} {n m : ℕ}

theorem loopWithin_nil : loopWithin operator operand n lhs [] = .ok (lhs, []) := by
  cases n <;> rfl

theorem loopWithin_succ_cons : loopWithin operator operand (n + 1) lhs (token :: rest) =
    match operator token with
    | some combine => operand rest >>= fun result ↦
        loopWithin operator operand n (combine lhs result.1) result.2
    | none => .ok (lhs, token :: rest) := rfl

theorem loop_cons : loop operator operand lhs (token :: rest) =
    match operator token with
    | some combine => operand rest >>= fun result ↦
        loopWithin operator operand rest.length (combine lhs result.1) result.2
    | none => .ok (lhs, token :: rest) := rfl

@[simp] theorem loop_nil : loop operator operand lhs [] = .ok (lhs, []) := rfl

theorem loopWithin_eq (hconsumes : Consumes operand) (hn : tokens.length ≤ n)
    (hm : tokens.length ≤ m) :
    loopWithin operator operand n lhs tokens = loopWithin operator operand m lhs tokens := by
  induction n generalizing m lhs tokens with
  | zero =>
    have hempty : tokens = [] := eq_nil_of_length_eq_zero (Nat.le_zero.mp hn)
    rw [hempty, loopWithin_nil, loopWithin_nil]
  | succ n ih =>
    cases tokens with
    | nil => rw [loopWithin_nil, loopWithin_nil]
    | cons token rest =>
      have hrest : rest.length ≤ n := Nat.le_of_succ_le_succ hn
      obtain ⟨m, rfl⟩ := Nat.exists_eq_add_of_le' ((Nat.succ_pos _).trans_le hm)
      have hrest' : rest.length ≤ m := Nat.le_of_succ_le_succ hm
      rw [loopWithin_succ_cons, loopWithin_succ_cons]
      cases operator token with
      | none => rfl
      | some combine =>
        refine bind_congr_ok fun ⟨rhs, after⟩ hok ↦ ?_
        have hafter := (hconsumes hok).le
        exact ih (hafter.trans hrest) (hafter.trans hrest')

theorem loop_of_none (hnone : ∀ token ∈ tokens.head?, operator token = none) :
    loop operator operand lhs tokens = .ok (lhs, tokens) := by
  cases tokens with
  | nil => exact loop_nil
  | cons token rest =>
    rw [loop_cons, hnone token rfl]

theorem loop_of_some {combine : α → α → α} (hconsumes : Consumes operand)
    (hsome : operator token = some combine) :
    loop operator operand lhs (token :: rest) = operand rest >>= fun result ↦
      loop operator operand (combine lhs result.1) result.2 := by
  rw [loop_cons, hsome]
  refine bind_congr_ok fun ⟨rhs, after⟩ hok ↦ ?_
  exact loopWithin_eq hconsumes (hconsumes hok).le le_rfl

/-- **Loop rule.**  What the loop reads extends a word by operators and operands. -/
theorem loop_reads {L M : List τ → Prop} {Stops : List τ → List τ → Prop}
    (hconsumes : Consumes operand) (hoperand : Reads operand M Stops)
    (hmore : ∀ w token v, L w → (operator token).isSome → M v → L (w ++ token :: v))
    (hstops : ∀ w token v rest, M v → Stops v rest → Stops (w ++ token :: v) rest)
    {word : List τ} (hword : L word) (hrest : Stops word tokens)
    (hok : loop operator operand lhs tokens = .ok (a, rest)) :
    ∃ more, tokens = more ++ rest ∧ L (word ++ more) ∧ Stops (word ++ more) rest ∧
      ∀ token ∈ rest.head?, operator token = none := by
  induction hlength : tokens.length using Nat.strong_induction_on generalizing lhs tokens word with
  | _ length ih =>
    cases tokens with
    | nil =>
      rw [loop_nil] at hok
      cases hok
      refine ⟨[], rfl, ?_, ?_, fun _ hmem ↦ nomatch hmem⟩
      · rwa [append_nil]
      · rwa [append_nil]
    | cons token tokens =>
      cases hoperator : operator token with
      | none =>
        have hnone : ∀ token' ∈ (token :: tokens).head?, operator token' = none := by
          intro token' hmem
          cases hmem
          exact hoperator
        rw [loop_of_none hnone] at hok
        cases hok
        refine ⟨[], rfl, ?_, ?_, hnone⟩
        · rwa [append_nil]
        · rwa [append_nil]
      | some combine =>
        rw [loop_of_some hconsumes hoperator, bind_eq_ok] at hok
        obtain ⟨⟨rhs, after⟩, hrhs, hok⟩ := hok
        obtain ⟨v, rfl, hv, hafter⟩ := hoperand hrhs
        have hshorter : after.length < length := by
          rw [← hlength, length_cons, length_append]
          omega
        have hsome : (operator token).isSome = true := by
          rw [hoperator]
          rfl
        obtain ⟨more, rfl, hmoreL, hmoreStops, hnone⟩ := ih after.length hshorter
          (hmore word token v hword hsome hv) (hstops word token v after hv hafter) hok rfl
        refine ⟨token :: v ++ more, ?_, ?_, ?_, hnone⟩
        · rw [cons_append, cons_append, append_assoc]
        · rwa [append_assoc] at hmoreL
        · rwa [append_assoc] at hmoreStops

theorem chain_reads {L M : List τ → Prop} {Stops : List τ → List τ → Prop}
    (hconsumes : Consumes operand) (hoperand : Reads operand M Stops) (hone : ∀ w, M w → L w)
    (hmore : ∀ w token v, L w → (operator token).isSome → M v → L (w ++ token :: v))
    (hstops : ∀ w token v rest, M v → Stops v rest → Stops (w ++ token :: v) rest) :
    Reads (chain operator operand) L fun word rest ↦
      Stops word rest ∧ ∀ token ∈ rest.head?, operator token = none := by
  intro tokens a rest hok
  obtain ⟨⟨lhs, after⟩, hlhs, hloop⟩ := bind_eq_ok.mp hok
  obtain ⟨word, rfl, hword, hafter⟩ := hoperand hlhs
  obtain ⟨more, rfl, hL, hrest⟩ :=
    loop_reads hconsumes hoperand hmore hstops (hone word hword) hafter hloop
  exact ⟨word ++ more, (append_assoc word more rest).symm, hL, hrest⟩

theorem loop_consumes (hconsumes : Consumes operand)
    (hok : loop operator operand lhs tokens = .ok (a, rest)) : rest.length ≤ tokens.length := by
  induction hlength : tokens.length using Nat.strong_induction_on generalizing lhs tokens with
  | _ length ih =>
    cases tokens with
    | nil =>
      rw [loop_nil] at hok
      cases hok
      exact Nat.zero_le _
    | cons token tokens =>
      cases hoperator : operator token with
      | none =>
        rw [loop_cons, hoperator] at hok
        cases hok
        exact hlength.le
      | some combine =>
        rw [loop_of_some hconsumes hoperator, bind_eq_ok] at hok
        obtain ⟨⟨rhs, after⟩, hrhs, hok⟩ := hok
        have hafter := hconsumes hrhs
        rw [length_cons] at hlength
        exact (ih after.length (by omega) hok rfl).trans (by omega)

theorem chain_consumes (hconsumes : Consumes operand) : Consumes (chain operator operand) := by
  intro tokens a rest hok
  obtain ⟨⟨lhs, after⟩, hlhs, hloop⟩ := bind_eq_ok.mp hok
  exact (loop_consumes hconsumes hloop).trans_lt (hconsumes hlhs)

theorem loop_agree {operand' : Parser τ ε α} (hconsumes : Consumes operand)
    (hconsumes' : Consumes operand') (hagree : AgreeBelow n operand operand')
    (hn : tokens.length ≤ n) :
    loop operator operand lhs tokens = loop operator operand' lhs tokens := by
  induction hlength : tokens.length using Nat.strong_induction_on generalizing lhs tokens with
  | _ length ih =>
    cases tokens with
    | nil => rw [loop_nil, loop_nil]
    | cons token tokens =>
      cases hoperator : operator token with
      | none =>
        rw [loop_cons, loop_cons, hoperator]
      | some combine =>
        rw [length_cons] at hlength hn
        rw [loop_of_some hconsumes hoperator, loop_of_some hconsumes' hoperator,
          hagree tokens (by omega)]
        refine bind_congr_ok fun ⟨rhs, after⟩ hok ↦ ?_
        have hafter : after.length < tokens.length := hconsumes' hok
        have hbound : after.length ≤ n := by omega
        exact ih after.length (by omega) hbound rfl

theorem chain_agree {operand' : Parser τ ε α} (hconsumes : Consumes operand)
    (hconsumes' : Consumes operand') (hagree : AgreeBelow n operand operand') :
    AgreeBelow n (chain operator operand) (chain operator operand') := by
  intro tokens hlt
  rw [chain, chain, hagree tokens hlt]
  refine bind_congr_ok fun ⟨lhs, after⟩ hok ↦ ?_
  exact loop_agree hconsumes hconsumes' hagree ((hconsumes' hok).le.trans hlt.le)

end Chain

/-! ## Brackets -/

/-- A parser that calls itself after at least one token, made from a parser for the inside. -/
structure Guarded (step : Parser τ ε α → Parser τ ε α) : Prop where
  consumes : ∀ p, Consumes p → Consumes (step p)
  agree : ∀ p q n, Consumes p → Consumes q → AgreeBelow n p q →
    AgreeBelow (n + 1) (step p) (step q)

section Depth

variable (failure : ε) (step : Parser τ ε α → Parser τ ε α)

/-- Brackets up to a depth. -/
def within : ℕ → Parser τ ε α
  | 0 => fun _ ↦ .error failure
  | depth + 1 => step (within depth)

def parser : Parser τ ε α := fun tokens ↦ within failure step (tokens.length + 1) tokens

variable {failure step}

variable (hstep : Guarded step)

include hstep

theorem within_consumes (depth : ℕ) : Consumes (within failure step depth) := by
  induction depth with
  | zero => exact fun _ _ _ hok ↦ nomatch hok
  | succ depth ih => exact hstep.consumes _ ih

theorem within_agree {depth more : ℕ} (hle : depth ≤ more) :
    AgreeBelow depth (within failure step depth) (within failure step more) := by
  induction depth generalizing more with
  | zero => exact fun _ hlt ↦ absurd hlt (Nat.not_lt_zero _)
  | succ depth ih =>
    obtain ⟨more, rfl⟩ := Nat.exists_eq_succ_of_ne_zero (Nat.ne_of_gt (Nat.lt_of_succ_le hle).pos)
    exact hstep.agree _ _ depth (within_consumes hstep depth) (within_consumes hstep more)
      (ih (Nat.le_of_succ_le_succ hle))

theorem parser_consumes : Consumes (parser failure step) :=
  fun tokens _ _ hok ↦ within_consumes hstep (tokens.length + 1) hok

/-- **The parser calls itself.** -/
theorem parser_eq : parser failure step = step (parser failure step) := by
  funext tokens
  have hagree : AgreeBelow tokens.length (within failure step tokens.length)
      (parser failure step) := by
    intro shorter hlt
    exact (within_agree hstep hlt shorter (Nat.lt_succ_self _)).symm
  exact hstep.agree _ _ tokens.length (within_consumes hstep _) (parser_consumes hstep) hagree
    tokens (Nat.lt_succ_self _)

/-- **Bracket rule.**  What a parser reads when it reads that inside brackets. -/
theorem parser_reads {L : List τ → Prop} {Stops : List τ → List τ → Prop}
    (hreads : ∀ p, Consumes p → Reads p L Stops → Reads (step p) L Stops) :
    Reads (parser failure step) L Stops := by
  have hwithin : ∀ depth, Reads (within failure step depth) L Stops := by
    intro depth
    induction depth with
    | zero => exact fun _ _ _ hok ↦ nomatch hok
    | succ depth ih => exact hreads _ (within_consumes hstep depth) ih
  exact fun tokens _ _ hok ↦ hwithin (tokens.length + 1) hok

end Depth

end SoulSystem.Library.Descent
