import SoulSystem.Library.TextSlices
import SoulSystem.Workflow.AgentGraph

/-!
# Parsing the output of a model

A list or an object is cut out of the text that a model wrote and handed to a JSON parser, which is
left open.  Lists and small objects are cut between the first opening and the last closing
character.  An agent graph starts where its first key is written, or else at the first brace, and
its end is found by counting braces.

The cut has no result, and the program panics, when the last closing character is before the first
opening one, with text between them.  The count also takes the braces within strings, and only the
first bytes of a graph that does not parse are quoted, without regard to characters.
-/

namespace SoulSystem.Workflow

open Library Std Str List

inductive GraphRouterError where
  | llmError (message : Str)
  | jsonParseError (message : Str)
  | missingField (field : Str)
  | registryError (message : Str)
  | exhaustedRetries (attempts : ℕ)
  deriving DecidableEq, Repr

/-- What the judge of a graph answers. -/
structure JudgeOutput where
  result : Str
  reasoning : Str

/-! ## Lists and small objects -/

/-- From the first opening to the last closing character.  There is no result, not even an error,
when the slice panics. -/
def between (first last : Char) (raw : Str) : Option (Except GraphRouterError Str) :=
  match find [first] raw with
  | none => some (.error (.jsonParseError
      ("No '".toList ++ [first] ++ "' found in LLM output".toList)))
  | some start =>
    match rfind last raw with
    | none => some (.error (.jsonParseError
        ("No '".toList ++ [last] ++ "' found in LLM output".toList)))
    | some stop => (slice raw start (stop + 1)).map .ok

/-- What a JSON parser makes of a text, with the text of its error. -/
def parsed {α : Type} (message : Str) (fromStr : Str → Except Str α) (text : Str) :
    Except GraphRouterError α :=
  (fromStr text).mapError fun e ↦ .jsonParseError (message ++ e)

def parseListFromLlm (fromStr : Str → Except Str (List Str)) (raw : Str) :
    Option (Except GraphRouterError (List Str)) :=
  (between '[' ']' raw).map fun found ↦ found.bind fun listStr ↦
    parsed "Failed to parse list: ".toList fromStr
      (listStr.map fun c ↦ if c = '\'' then '"' else c)

def parseJsonFromLlm {α : Type} (fromStr : Str → Except Str α) (raw : Str) :
    Option (Except GraphRouterError α) :=
  (between '{' '}' raw).map fun found ↦ found.bind fun jsonStr ↦
    parsed "Failed to parse JSON: ".toList fromStr jsonStr

/-! ## Agent graphs -/

/-- The first key of an object that is written on several lines. -/
def prettyStart : Str := "\x7b\n  \"Feasibility\"".toList

/-- The first key of an object that is written on one line. -/
def compactStart : Str := "\x7b\"Feasibility\"".toList

def graphStart (raw : Str) : Option ℕ :=
  (find prettyStart raw).or ((find compactStart raw).or (find ['{'] raw))

/-- The offset where the depth returns to zero.  The depth is an `i32`, whose sums wrap around. -/
def matchBrace : Str → ℕ → ℤ → Option ℕ
  | [], _, _ => none
  | ch :: text, i, depth =>
    if ch = '{' then matchBrace text (i + ch.utf8Size) ((depth + 1).bmod (2 ^ 32))
    else if ch = '}' then
      let depth := (depth - 1).bmod (2 ^ 32)
      if depth = 0 then some i else matchBrace text (i + ch.utf8Size) depth
    else matchBrace text (i + ch.utf8Size) depth

/-- The text that is handed to the JSON parser, if there is any.  There is no result when a slice
panics. -/
def graphObject (raw : Str) : Option (Option Str) :=
  match graphStart raw with
  | none => some none
  | some start =>
    (sliceFrom raw start).bind fun tail ↦
      let stop := ((matchBrace tail 0 0).map fun i ↦ start + i).getD start
      (slice raw start (stop + 1)).map some

def parseGraphFromLlm (fromStr : Str → Except Str AgentGraphOutput) (raw : Str) :
    Option (Except GraphRouterError AgentGraphOutput) :=
  (graphObject raw).bind fun
    | none => some (.error (.jsonParseError "No AgentGraphOutput JSON found".toList))
    | some jsonStr =>
      match fromStr jsonStr with
      | .ok graph => some (.ok graph)
      | .error e =>
        (slice jsonStr 0 (min (utf8 jsonStr).length 200)).map fun head ↦
          .error (.jsonParseError ("Failed to parse AgentGraphOutput: ".toList ++ e ++
            "\nJSON: ".toList ++ head))

/-! ## Between two characters -/

/-- The last closing character is before the first opening one, with text between them. -/
def Crossed (first last : Char) (raw : Str) : Prop :=
  ∃ a mid rest, raw = a ++ last :: (mid ++ first :: rest) ∧ mid ≠ [] ∧ first ∉ a ∧ first ∉ mid ∧
    last ∉ mid ∧ last ∉ rest

variable {first last : Char} {raw : Str}

/-- The last occurrence of a character. -/
theorem exists_last_of_mem {c : Char} (hmem : c ∈ raw) :
    ∃ a rest, raw = a ++ c :: rest ∧ c ∉ rest := by
  obtain ⟨xs, ys, hreverse, hnot⟩ := eq_append_cons_of_mem (List.mem_reverse.mpr hmem)
  refine ⟨ys.reverse, xs.reverse, ?_, mt List.mem_reverse.mp hnot⟩
  have hraw := congrArg List.reverse hreverse
  simpa using hraw

theorem length_utf8_concat {c : Char} (hc : isAscii c = true) (a : Str) :
    (utf8 (a ++ [c])).length = (utf8 a).length + 1 := by
  rw [utf8_append, length_append, utf8_cons, utf8EncodeChar_of_ascii hc]
  rfl

/-- The slice between two characters panics exactly if they are crossed. -/
theorem isSome_between_iff (hne : first ≠ last) (hlast : isAscii last = true) :
    (between first last raw).isSome ↔ ¬ Crossed first last raw := by
  by_cases hopen : first ∈ raw
  · obtain ⟨a, b, hraw, ha⟩ := eq_append_cons_of_mem hopen
    have hfind : find [first] raw = some (utf8 a).length := by rw [hraw, find_char ha]
    by_cases hclose : last ∈ raw
    · obtain ⟨c, d, hraw', hd⟩ := exists_last_of_mem hclose
      have hrfind : rfind last raw = some (utf8 c).length := by rw [hraw', rfind_char hd]
      have hprefix : raw = (c ++ [last]) ++ d := by
        rw [hraw', append_assoc, singleton_append]
      have hslice := slice_of_prefix hraw hprefix
      rw [length_utf8_concat hlast] at hslice
      rw [between, hfind]
      dsimp only
      rw [hrfind]
      dsimp only
      rw [Option.isSome_map, hslice]
      constructor
      · rintro hle ⟨a', mid, rest, hsplit, hmid, ha', hmid', hlast', hrest⟩
        have hfirst : first ∉ a' ++ last :: mid := by
          simp only [mem_append, mem_cons, not_or]
          exact ⟨ha', hne, hmid'⟩
        have hsame : raw = (a' ++ last :: mid) ++ first :: rest := by
          rw [hsplit, append_assoc, cons_append]
        obtain ⟨rfl, -⟩ := append_cons_inj ha hfirst (hraw.symm.trans hsame)
        have hbehind : last ∉ mid ++ first :: rest := by
          simp only [mem_append, mem_cons, not_or]
          exact ⟨hlast', hne.symm, hrest⟩
        have hbefore : rfind last raw = some (utf8 a').length := by
          rw [hsplit, rfind_char hbehind]
        have hlength := Option.some.inj (hrfind.symm.trans hbefore)
        obtain ⟨x, xs, rfl⟩ := exists_cons_of_ne_nil hmid
        have hpos := length_le_utf8 (x :: xs)
        have hall : (utf8 (a' ++ last :: x :: xs)).length =
            (utf8 a').length + 1 + (utf8 (x :: xs)).length := by
          rw [← length_utf8_concat hlast, ← length_append, ← utf8_append, append_assoc,
            singleton_append]
        rw [length_cons] at hpos
        omega
      · intro hcrossed
        by_contra hlt
        have hshort : (c ++ [last]) <+: a := by
          apply prefix_of_prefix_length_le ⟨d, hprefix.symm⟩ ⟨first :: b, hraw.symm⟩
          by_contra hlonger
          obtain ⟨tail, htail⟩ := prefix_of_prefix_length_le ⟨first :: b, hraw.symm⟩
            ⟨d, hprefix.symm⟩ (Nat.le_of_not_le hlonger)
          apply hlt
          rw [← length_utf8_concat hlast, ← htail, utf8_append, length_append]
          exact Nat.le_add_right _ _
        obtain ⟨mid, rfl⟩ := hshort
        have hafter : d = mid ++ first :: b := by
          have hboth : (c ++ [last]) ++ d = (c ++ [last]) ++ (mid ++ first :: b) := by
            rw [← hprefix, hraw, append_assoc]
          exact append_cancel_left hboth
        refine hcrossed ⟨c, mid, b, ?_, ?_, ?_, ?_, ?_, ?_⟩
        · rw [hraw', hafter]
        · rintro rfl
          apply hlt
          rw [append_nil, length_utf8_concat hlast]
        · exact fun hmem ↦ ha (by simp [hmem])
        · exact fun hmem ↦ ha (by simp [hmem])
        · exact fun hmem ↦ hd (by simp [hafter, hmem])
        · exact fun hmem ↦ hd (by simp [hafter, hmem])
    · rw [between, hfind]
      dsimp only
      rw [rfind_eq_none hclose]
      refine iff_of_true rfl ?_
      rintro ⟨a', mid, rest, hsplit, -⟩
      exact hclose (by simp [hsplit])
  · have hnone : find [first] raw = none := by
      rw [find_eq_none_iff (cons_ne_nil _ _)]
      exact fun hwithin ↦ hopen (hwithin.subset mem_cons_self)
    rw [between, hnone]
    refine iff_of_true rfl ?_
    rintro ⟨a', mid, rest, hsplit, -⟩
    exact hopen (by simp [hsplit])

/-! ## Closed texts -/

/-- How many more opening braces a text has than closing ones. -/
def balance (text : Str) : ℤ := text.count '{' - text.count '}'

/-- A text that ends with a closing brace, with as many opening ones as far as an `i32` counts. -/
def Closed (text : Str) : Prop := text.getLast? = some '}' ∧ (balance text).bmod (2 ^ 32) = 0

instance (text : Str) : Decidable (Closed text) :=
  inferInstanceAs (Decidable (text.getLast? = some '}' ∧ (balance text).bmod (2 ^ 32) = 0))

/-- A closed text that starts with no other one. -/
def FirstClosed (text : Str) : Prop := Closed text ∧ ∀ q, q <+: text → Closed q → q = text

variable {c : Char} {done text J p q s rest : Str}

theorem balance_concat (text : Str) (c : Char) :
    balance (text ++ [c]) =
      balance text + (if c = '{' then 1 else 0) - (if c = '}' then 1 else 0) := by
  rw [balance, balance, count_append, count_append, count_singleton,
    count_singleton]
  simp only [beq_iff_eq]
  split <;> split <;> push_cast <;> ring

theorem closed_concat_iff : Closed (text ++ [c]) ↔
    c = '}' ∧ (balance (text ++ [c])).bmod (2 ^ 32) = 0 := by
  rw [Closed, getLast?_concat, Option.some_inj]

/-- What was read so far, and then what is left, has no closed start before the first one that the
count finds. -/
theorem matchBrace_spec (hdone : ∀ q, q <+: done → ¬ Closed q) :
    (∀ n, matchBrace text (utf8 done).length ((balance done).bmod (2 ^ 32)) = some n →
      ∃ J rest, done ++ text = J ++ rest ∧ FirstClosed J ∧ n + 1 = (utf8 J).length) ∧
    (matchBrace text (utf8 done).length ((balance done).bmod (2 ^ 32)) = none →
      ∀ q, q <+: done ++ text → ¬ Closed q) := by
  induction text generalizing done with
  | nil =>
    rw [append_nil]
    exact ⟨nofun, fun _ ↦ hdone⟩
  | cons c text ih =>
    have hlength : (utf8 (done ++ [c])).length = (utf8 done).length + c.utf8Size := by
      rw [utf8_append, length_append, utf8_cons, length_append,
        String.length_utf8EncodeChar]
      rfl
    have hwhole : done ++ c :: text = done ++ [c] ++ text := by
      rw [append_assoc, singleton_append]
    have hnext (hopen : ¬ Closed (done ++ [c])) : ∀ q, q <+: done ++ [c] → ¬ Closed q := by
      intro q hq
      cases List.prefix_concat_iff.mp hq with
      | inl heq => exact heq ▸ hopen
      | inr hprefix => exact hdone q hprefix
    have hbalance := balance_concat done c
    rw [matchBrace, ← hlength, hwhole]
    by_cases hbrace : c = '{'
    · have hopen : ¬ Closed (done ++ [c]) := by
        rw [closed_concat_iff, hbrace]
        exact fun hclosed ↦ absurd hclosed.1 (by decide)
      rw [if_pos hbrace, if_neg (by rw [hbrace]; decide), sub_zero] at hbalance
      rw [if_pos hbrace, Int.bmod_add_bmod, ← hbalance]
      exact ih (hnext hopen)
    · rw [if_neg hbrace, add_zero] at hbalance
      rw [if_neg hbrace]
      by_cases hclose : c = '}'
      · rw [if_pos hclose] at hbalance
        rw [if_pos hclose, Int.bmod_sub_bmod, ← hbalance]
        dsimp only
        by_cases hzero : (balance (done ++ [c])).bmod (2 ^ 32) = 0
        · have hclosed : Closed (done ++ [c]) := closed_concat_iff.mpr ⟨hclose, hzero⟩
          rw [if_pos hzero]
          refine ⟨fun n hn ↦ ?_, nofun⟩
          cases hn
          refine ⟨done ++ [c], text, rfl, ⟨hclosed, fun q hq hq' ↦ ?_⟩, ?_⟩
          · cases List.prefix_concat_iff.mp hq with
            | inl heq => exact heq
            | inr hprefix => exact absurd hq' (hdone q hprefix)
          · rw [hlength, hclose]
            rfl
        · have hopen : ¬ Closed (done ++ [c]) :=
            fun hclosed ↦ hzero (closed_concat_iff.mp hclosed).2
          rw [if_neg hzero]
          exact ih (hnext hopen)
      · have hopen : ¬ Closed (done ++ [c]) :=
          fun hclosed ↦ hclose (closed_concat_iff.mp hclosed).1
        rw [if_neg hclose, sub_zero] at hbalance
        rw [if_neg hclose, ← hbalance]
        exact ih (hnext hopen)

theorem not_closed_nil : ¬ Closed [] := fun hclosed ↦ nomatch hclosed.1

/-- The count of a text from its beginning. -/
theorem matchBrace_spec_zero (text : Str) :
    (∀ n, matchBrace text 0 0 = some n →
      ∃ J rest, text = J ++ rest ∧ FirstClosed J ∧ n + 1 = (utf8 J).length) ∧
    (matchBrace text 0 0 = none → ∀ q, q <+: text → ¬ Closed q) :=
  @matchBrace_spec [] text fun _ hq ↦ List.prefix_nil.mp hq ▸ not_closed_nil

theorem matchBrace_eq_none (hopen : ∀ q, q <+: text → ¬ Closed q) : matchBrace text 0 0 = none := by
  cases hmatch : matchBrace text 0 0 with
  | none => rfl
  | some n =>
    obtain ⟨J, rest, hsplit, hJ, -⟩ := (matchBrace_spec_zero text).1 n hmatch
    exact absurd hJ.1 (hopen J ⟨rest, hsplit.symm⟩)

theorem matchBrace_eq_some (hJ : FirstClosed J) :
    ∃ n, matchBrace (J ++ rest) 0 0 = some n ∧ n + 1 = (utf8 J).length := by
  obtain ⟨hsome, hnone⟩ := matchBrace_spec_zero (J ++ rest)
  cases hmatch : matchBrace (J ++ rest) 0 0 with
  | none => exact absurd hJ.1 (hnone hmatch J (prefix_append J rest))
  | some n =>
    obtain ⟨J', rest', hsplit, hJ', hlength⟩ := hsome n hmatch
    have hsame : J' = J := by
      cases prefix_or_prefix_of_prefix (prefix_append J rest) ⟨rest', hsplit.symm⟩ with
      | inl hprefix => exact (hJ'.2 J hprefix hJ.1).symm
      | inr hprefix => exact hJ.2 J' hprefix hJ'.1
    exact ⟨n, rfl, hsame ▸ hlength⟩

/-! ## The text that is handed over -/

/-- The text from the start of the graph to the first place where the braces match, or just the
first brace when they never do. -/
def Handed (raw J : Str) : Prop :=
  ∃ p s, raw = p ++ J ++ s ∧ graphStart raw = some (utf8 p).length ∧
    (FirstClosed J ∨ J = ['{'] ∧ ∀ q, q <+: J ++ s → ¬ Closed q)

theorem graphObject_of_handed (hJ : Handed raw J) : graphObject raw = some (some J) := by
  obtain ⟨p, s, rfl, hstart, hclosed⟩ := hJ
  have htail : sliceFrom (p ++ J ++ s) (utf8 p).length = some (J ++ s) := by
    rw [append_assoc]
    exact sliceFrom_append rfl
  rw [graphObject, hstart]
  dsimp only
  rw [htail, Option.bind_some]
  cases hclosed with
  | inl hfirst =>
    obtain ⟨n, hn, hlength⟩ := @matchBrace_eq_some J s hfirst
    rw [hn, Option.map_some, Option.getD_some, slice_append rfl (by omega), Option.map_some]
  | inr hnone =>
    have hone : (utf8 J).length = 1 := by rw [hnone.1]; rfl
    rw [matchBrace_eq_none hnone.2, Option.map_none, Option.getD_none,
      slice_append rfl (by omega), Option.map_some]

/-- Where a graph starts there is a brace. -/
theorem exists_of_graphStart {start : ℕ} (hstart : graphStart raw = some start) :
    ∃ p tail, raw = p ++ '{' :: tail ∧ (utf8 p).length = start := by
  have hpattern {pat : Str} (hfind : find ('{' :: pat) raw = some start) :
      ∃ p tail, raw = p ++ '{' :: tail ∧ (utf8 p).length = start := by
    obtain ⟨a, rest, hraw, hlength⟩ := exists_append_of_find hfind
    exact ⟨a, pat ++ rest, by rw [hraw, append_assoc, cons_append], hlength⟩
  rw [graphStart, Option.or_eq_some_iff, Option.or_eq_some_iff] at hstart
  rcases hstart with hpretty | ⟨-, hcompact | ⟨-, hbrace⟩⟩
  · exact hpattern hpretty
  · exact hpattern hcompact
  · exact hpattern hbrace

/-- **Some text is handed over wherever a graph starts.** -/
theorem exists_handed {start : ℕ} (hstart : graphStart raw = some start) : ∃ J, Handed raw J := by
  obtain ⟨p, tail, hraw, hlength⟩ := exists_of_graphStart hstart
  obtain ⟨hsome, hnone⟩ := matchBrace_spec_zero ('{' :: tail)
  cases hmatch : matchBrace ('{' :: tail) 0 0 with
  | none =>
    refine ⟨['{'], p, tail, ?_, hlength ▸ hstart, .inr ⟨rfl, hnone hmatch⟩⟩
    rw [hraw, append_assoc, singleton_append]
  | some n =>
    obtain ⟨J, rest, hsplit, hJ, -⟩ := hsome n hmatch
    refine ⟨J, p, rest, ?_, hlength ▸ hstart, .inl hJ⟩
    rw [hraw, hsplit, append_assoc]

theorem graphObject_eq_some_iff : graphObject raw = some (some J) ↔ Handed raw J := by
  constructor
  · intro hobject
    cases hstart : graphStart raw with
    | none =>
      rw [graphObject, hstart] at hobject
      cases hobject
    | some start =>
      obtain ⟨J', hJ'⟩ := exists_handed hstart
      have hsame := hobject.symm.trans (graphObject_of_handed hJ')
      cases hsame
      exact hJ'
  · exact graphObject_of_handed

/-! ## When the parsers return -/

section Returns

variable {α : Type} {fromList : Str → Except Str (List Str)} {fromJson : Str → Except Str α}
  {fromGraph : Str → Except Str AgentGraphOutput}

theorem isSome_parseGraphFromLlm_iff : (parseGraphFromLlm fromGraph raw).isSome ↔
    ∀ J, Handed raw J → (∃ graph, fromGraph J = .ok graph) ∨ (utf8 J).length ≤ 200 ∨
      ∃ a b, J = a ++ b ∧ (utf8 a).length = 200 := by
  cases hstart : graphStart raw with
  | none =>
    have hobject : graphObject raw = some none := by rw [graphObject, hstart]
    rw [parseGraphFromLlm, hobject]
    refine iff_of_true rfl ?_
    rintro J ⟨p, s, -, hstart', -⟩
    cases hstart.symm.trans hstart'
  | some start =>
    obtain ⟨J, hJ⟩ := exists_handed hstart
    have hobject := graphObject_of_handed hJ
    have hunique : ∀ J', Handed raw J' ↔ J' = J := by
      intro J'
      rw [← graphObject_eq_some_iff, hobject, Option.some_inj, Option.some_inj, eq_comm]
    simp only [hunique, forall_eq]
    rw [parseGraphFromLlm, hobject, Option.bind_some]
    dsimp only
    cases hparse : fromGraph J with
    | ok graph => exact iff_of_true rfl (.inl ⟨graph, rfl⟩)
    | error e =>
      rw [or_iff_right (fun hok ↦ nomatch hok), Option.isSome_map, isSome_slice_zero_iff]
      cases Nat.lt_or_ge 200 (utf8 J).length with
      | inl hlong => rw [Nat.min_eq_right hlong.le, or_iff_right (Nat.not_le.mpr hlong)]
      | inr hshort =>
        rw [Nat.min_eq_left hshort]
        exact iff_of_true ⟨J, [], (append_nil J).symm, rfl⟩ (.inl hshort)

/-- **The parsers return exactly if no slice has crossed ends and no quote of a graph that does not
parse ends within a character.** -/
theorem parsers_return_iff (fromList : Str → Except Str (List Str)) (fromJson : Str → Except Str α)
    (fromGraph : Str → Except Str AgentGraphOutput) (raw : Str) :
    ((parseListFromLlm fromList raw).isSome ↔ ¬ Crossed '[' ']' raw) ∧
      ((parseJsonFromLlm fromJson raw).isSome ↔ ¬ Crossed '{' '}' raw) ∧
      ((parseGraphFromLlm fromGraph raw).isSome ↔
        ∀ J, Handed raw J → (∃ graph, fromGraph J = .ok graph) ∨ (utf8 J).length ≤ 200 ∨
          ∃ a b, J = a ++ b ∧ (utf8 a).length = 200) := by
  refine ⟨?_, ?_, isSome_parseGraphFromLlm_iff⟩
  · rw [parseListFromLlm, Option.isSome_map]
    exact isSome_between_iff (by decide) (by decide)
  · rw [parseJsonFromLlm, Option.isSome_map]
    exact isSome_between_iff (by decide) (by decide)

/-- A parser that accepts nothing. -/
def refuse {β : Type} (_text : Str) : Except Str β := .error "expected value".toList

/-- A closing character before an opening one, and a graph whose 200th byte is within a
character. -/
theorem not_parsers_return :
    parseListFromLlm refuse "]x[".toList = none ∧
      parseJsonFromLlm (α := JudgeOutput) refuse "\x7dx\x7b".toList = none ∧
      parseGraphFromLlm refuse
        ('{' :: (List.replicate 198 'a' ++ ['é', '}'])) = none := by
  decide +kernel

end Returns

/-! ## When the whole object is handed over -/

theorem prettyStart_eq : prettyStart = '{' :: prettyStart.tail := by decide

theorem compactStart_eq : compactStart = '{' :: compactStart.tail := by decide

theorem prettyStart_ne_nil : prettyStart ≠ [] := by decide

/-- Nothing before a brace is searched for. -/
theorem find_pretty_append (hp : '{' ∉ p) :
    find prettyStart (p ++ text) = (find prettyStart text).map fun n ↦ (utf8 p).length + n := by
  rw [prettyStart_eq]
  exact find_append_of_notMem hp

theorem find_compact_append (hp : '{' ∉ p) :
    find compactStart (p ++ (compactStart ++ rest)) = some (utf8 p).length := by
  rw [compactStart_eq, find_append_of_notMem hp, find_self]
  rfl

/-- The first key cannot start in an object and end behind it, nor start behind it without a
brace. -/
theorem pretty_infix_append_iff (hlast : J.getLast? = some '}') (hs : '{' ∉ s) :
    prettyStart <:+: J ++ s ↔ prettyStart <:+: J := by
  have hbehind {w v : Str} (hsplit : w ++ prettyStart ++ v = s) : False := by
    apply hs
    rw [← hsplit, prettyStart_eq]
    simp
  constructor
  · rintro ⟨u, v, hsplit⟩
    cases prefix_or_prefix_of_prefix ⟨v, hsplit⟩ (prefix_append J s) with
    | inl hinside => exact (suffix_append u prettyStart).isInfix.trans hinside.isInfix
    | inr hacross =>
      cases prefix_or_prefix_of_prefix hacross (prefix_append u prettyStart) with
      | inl hbefore =>
        obtain ⟨w, rfl⟩ := hbefore
        simp only [append_assoc] at hsplit
        exact (hbehind ((append_assoc _ _ _).trans (append_cancel_left hsplit))).elim
      | inr hafter =>
        obtain ⟨w, rfl⟩ := hafter
        have hw : w <+: prettyStart := (prefix_append_right_inj u).mp hacross
        by_cases hnil : w = []
        · rw [hnil, append_nil, append_assoc] at hsplit
          exact (@hbehind [] v (append_cancel_left hsplit)).elim
        · rw [getLast?_append_of_ne_nil u hnil] at hlast
          have hmem := hw.subset (mem_of_getLast? hlast)
          exact absurd hmem (by decide)
  · exact fun hwithin ↦ hwithin.trans (prefix_append J s).isInfix

/-- An object that starts with its first key on the same line does not start on another line. -/
theorem compact_ne_pretty : compactStart ++ rest ≠ prettyStart ++ text := by
  intro hsame
  have htake (start more : Str) (hlength : 2 ≤ start.length) :
      (start ++ more).take 2 = start.take 2 := take_append_of_le_length hlength
  have htwo := congrArg (List.take 2) hsame
  rw [htake _ _ (by decide), htake _ _ (by decide)] at htwo
  revert htwo
  decide

/-- What starts on another line is found there, and not handed over from an earlier start. -/
theorem not_pretty_infix_of_handed (hraw : raw = p ++ (compactStart ++ rest))
    (hstart : graphStart raw = some (utf8 p).length) : ¬ prettyStart <:+: raw := by
  intro hwithin
  cases hfind : find prettyStart raw with
  | none => exact (find_eq_none_iff prettyStart_ne_nil).mp hfind hwithin
  | some n =>
    rw [graphStart, hfind, Option.some_or, Option.some_inj] at hstart
    obtain ⟨a, behind, hsplit, hlength⟩ := exists_append_of_find hfind
    have htail : sliceFrom raw (utf8 p).length = some (compactStart ++ rest) := by
      rw [hraw]
      exact sliceFrom_append rfl
    have htail' : sliceFrom raw (utf8 p).length = some (prettyStart ++ behind) := by
      rw [hsplit, append_assoc]
      exact sliceFrom_append (hstart.symm.trans hlength.symm)
    exact compact_ne_pretty (Option.some.inj (htail.symm.trans htail'))

/-- **The object is handed over as it stands exactly if the first key is not written on another line
in it, and the braces in it, those in strings with them, match at its end for the first time.** -/
theorem hands_object_iff (hp : '{' ∉ p ∧ '}' ∉ p) (hs : '{' ∉ s ∧ '}' ∉ s)
    (hstart : compactStart <+: J) (hlast : J.getLast? = some '}') :
    graphObject (p ++ J ++ s) = some (some J) ↔
      ¬ prettyStart <:+: J ∧ (balance J).bmod (2 ^ 32) = 0 ∧
        ∀ q, q <+: J → q ≠ J → q.getLast? = some '}' → (balance q).bmod (2 ^ 32) ≠ 0 := by
  have hfirst : FirstClosed J ↔ (balance J).bmod (2 ^ 32) = 0 ∧
      ∀ q, q <+: J → q ≠ J → q.getLast? = some '}' → (balance q).bmod (2 ^ 32) ≠ 0 := by
    constructor
    · rintro ⟨hclosed, hall⟩
      exact ⟨hclosed.2, fun q hq hne hend hzero ↦ hne (hall q hq ⟨hend, hzero⟩)⟩
    · rintro ⟨hzero, hall⟩
      exact ⟨⟨hlast, hzero⟩,
        fun q hq hclosed ↦ by_contra fun hne ↦ hall q hq hne hclosed.1 hclosed.2⟩
  obtain ⟨rest, rfl⟩ := hstart
  rw [graphObject_eq_some_iff, ← hfirst]
  constructor
  · rintro ⟨p', s', hsplit, hfound, hend⟩
    rw [append_assoc p', append_assoc compactStart] at hsplit
    have hpretty := not_pretty_infix_of_handed hsplit hfound
    refine ⟨fun hwithin ↦ hpretty (hwithin.trans ⟨p, s, rfl⟩), ?_⟩
    cases hend with
    | inl hclosed => exact hclosed
    | inr hone =>
      rw [hone.1] at hlast
      exact absurd hlast (by decide)
  · rintro ⟨hpretty, hclosed⟩
    refine ⟨p, s, rfl, ?_, .inl hclosed⟩
    have hwhole : p ++ (compactStart ++ rest) ++ s = p ++ (compactStart ++ (rest ++ s)) := by
      simp only [append_assoc]
    have hnone : find prettyStart (compactStart ++ (rest ++ s)) = none := by
      rw [find_eq_none_iff prettyStart_ne_nil, ← append_assoc,
        pretty_infix_append_iff hlast hs.1]
      exact hpretty
    rw [graphStart, hwhole, find_pretty_append hp.1, hnone, find_compact_append hp.1]
    rfl

/-- An object without braces in its strings. -/
def feasible : Str :=
  compactStart ++ ": \"Feasible\", \"Agent Graph\": [\x7b\"node\": \"a\"\x7d]\x7d".toList

theorem hands_object_iff_feasible :
    graphObject ("Here it is: ".toList ++ feasible ++ ".".toList) = some (some feasible) ↔
      ¬ prettyStart <:+: feasible ∧ (balance feasible).bmod (2 ^ 32) = 0 ∧
        ∀ q, q <+: feasible → q ≠ feasible → q.getLast? = some '}' →
          (balance q).bmod (2 ^ 32) ≠ 0 :=
  hands_object_iff (by decide) (by decide) ⟨_, rfl⟩ (by decide)

/-- An object with a closing brace in a string. -/
def braceInString : Str := compactStart ++ ": \"\x7d\"\x7d".toList

/-- The object is cut off at the brace in its string. -/
theorem not_hands_object :
    graphObject braceInString = some (some (compactStart ++ ": \"\x7d".toList)) ∧
    graphObject braceInString ≠ some (some braceInString) := by
  decide

end SoulSystem.Workflow
