import Mathlib

/-!
# Back-reference streams

A Lempel--Ziv stream is a list of tokens, each either a literal value or a reference that copies
`length` values starting `offset` values before the end of what was produced so far.  References
may overlap the values they produce, so the copy is defined one value at a time.

The module contains the meaning of a token list, the exact condition under which a token list has
no meaning, and the rule that lets an encoder extend a decoded prefix of its input by a match that
it has compared value by value.
-/

namespace SoulSystem.Library.LempelZiv

open List

variable {α : Type*}

/-- One unit of a back-reference stream. -/
inductive Token (α : Type*) where
  | literal (value : α)
  | reference (offset length : ℕ)
  deriving DecidableEq, Repr

/-- The number of values a token produces. -/
def Token.size : Token α → ℕ
  | .literal _ => 1
  | .reference _ length => length

/-- The number of values a token list produces. -/
def totalSize (tokens : List (Token α)) : ℕ :=
  (tokens.map Token.size).sum

@[simp]
theorem totalSize_nil : totalSize ([] : List (Token α)) = 0 := rfl

@[simp]
theorem totalSize_cons (token : Token α) (tokens : List (Token α)) :
    totalSize (token :: tokens) = token.size + totalSize tokens := by
  simp [totalSize]

/-- Append `count` values, each read `offset` places before the current end. -/
def copyBack (offset : ℕ) : ℕ → List α → List α
  | 0, out => out
  | count + 1, out =>
    match out[out.length - offset]? with
    | some value => copyBack offset count (out ++ [value])
    | none => out

theorem length_copyBack {offset : ℕ} (hoffset : 1 ≤ offset) (count : ℕ) (out : List α)
    (hreach : offset ≤ out.length) :
    (copyBack offset count out).length = out.length + count := by
  induction count generalizing out with
  | zero => rfl
  | succ count ih =>
    have hindex : out.length - offset < out.length := by omega
    rw [copyBack, getElem?_eq_getElem hindex]
    change (copyBack offset count (out ++ [out[out.length - offset]])).length = _
    rw [ih]
    · rw [length_append, length_singleton]
      omega
    · rw [length_append]
      omega

/-- A match that was compared value by value extends a prefix of the input. -/
theorem copyBack_take {input : List α} {offset : ℕ} (hoffset : 1 ≤ offset) (count position : ℕ)
    (hreach : offset ≤ position) (hfit : position + count ≤ input.length)
    (hmatch : ∀ k < count, input[position - offset + k]? = input[position + k]?) :
    copyBack offset count (input.take position) = input.take (position + count) := by
  induction count generalizing position with
  | zero => rfl
  | succ count ih =>
    have hlength : (input.take position).length = position := by
      rw [length_take]
      omega
    have hposition : position < input.length := by omega
    have hvalue : (input.take position)[(input.take position).length - offset]? =
        some input[position] := by
      rw [hlength, getElem?_take_of_lt (by omega)]
      have h := hmatch 0 (Nat.succ_pos count)
      simpa only [Nat.add_zero, getElem?_eq_getElem hposition] using h
    have hnext : input.take position ++ [input[position]] = input.take (position + 1) := by
      rw [take_add_one, getElem?_eq_getElem hposition]
      rfl
    rw [copyBack, hvalue]
    change copyBack offset count (input.take position ++ [input[position]]) = _
    rw [hnext, ih (position + 1) (by omega) (by omega)]
    · congr 1
      omega
    · intro k hk
      have h := hmatch (k + 1) (by omega)
      rw [show position + 1 - offset + k = position - offset + (k + 1) by omega,
        show position + 1 + k = position + (k + 1) by omega]
      exact h

/-- Decode a token list on top of an output; a reference before the start has no meaning. -/
def expand : List (Token α) → List α → Option (List α)
  | [], out => some out
  | .literal value :: tokens, out => expand tokens (out ++ [value])
  | .reference offset length :: tokens, out =>
    if offset ≤ out.length then expand tokens (copyBack offset length out) else none

@[simp]
theorem expand_nil (out : List α) : expand [] out = some out := rfl

theorem expand_append (first second : List (Token α)) (out : List α) :
    expand (first ++ second) out = (expand first out).bind (expand second) := by
  induction first generalizing out with
  | nil => rfl
  | cons token first ih =>
    cases token with
    | literal value => exact ih (out ++ [value])
    | reference offset length =>
      simp only [cons_append, expand]
      split
      · exact ih _
      · rfl

/-- Every reference of the list points at least one value back. -/
def Backward (tokens : List (Token α)) : Prop :=
  ∀ offset length, Token.reference offset length ∈ tokens → 1 ≤ offset

/-- A token list has no meaning exactly when one of its references points before the start of
what the tokens ahead of it produce. -/
theorem expand_eq_none_iff {tokens : List (Token α)} (hbackward : Backward tokens)
    (out : List α) :
    expand tokens out = none ↔
      ∃ before offset length after, tokens = before ++ .reference offset length :: after ∧
        out.length + totalSize before < offset := by
  induction tokens generalizing out with
  | nil => simp
  | cons token tokens ih =>
    have htail : Backward tokens := fun offset length hmem ↦
      hbackward offset length (mem_cons_of_mem _ hmem)
    cases token with
    | literal value =>
      rw [expand, ih htail]
      constructor
      · rintro ⟨before, offset, length, after, rfl, hlt⟩
        refine ⟨.literal value :: before, offset, length, after, rfl, ?_⟩
        simp only [length_append, length_singleton, totalSize_cons,
          Token.size] at hlt ⊢
        omega
      · rintro ⟨before, offset, length, after, heq, hlt⟩
        cases before with
        | nil => cases heq
        | cons head before =>
          obtain ⟨rfl, rfl⟩ := List.cons.inj heq
          refine ⟨before, offset, length, after, rfl, ?_⟩
          simp only [length_append, length_singleton, totalSize_cons,
            Token.size] at hlt ⊢
          omega
    | reference offset length =>
      have hoffset : 1 ≤ offset := hbackward offset length mem_cons_self
      rw [expand]
      split
      · rename_i hreach
        rw [ih htail, length_copyBack hoffset length out hreach]
        constructor
        · rintro ⟨before, offset', length', after, rfl, hlt⟩
          refine ⟨.reference offset length :: before, offset', length', after, rfl, ?_⟩
          simp only [totalSize_cons, Token.size]
          omega
        · rintro ⟨before, offset', length', after, heq, hlt⟩
          cases before with
          | nil =>
            obtain ⟨htoken, -⟩ := List.cons.inj heq
            cases htoken
            simp only [totalSize_nil] at hlt
            omega
          | cons head before =>
            obtain ⟨rfl, rfl⟩ := List.cons.inj heq
            refine ⟨before, offset', length', after, rfl, ?_⟩
            simp only [totalSize_cons, Token.size] at hlt
            omega
      · rename_i hreach
        simp only [true_iff]
        refine ⟨[], offset, length, tokens, rfl, ?_⟩
        simp only [totalSize_nil]
        omega

end SoulSystem.Library.LempelZiv
