import SoulSystem.Scirust.Symbolic.Parser

/-!
# Character counts as byte offsets

The scanner counts characters and cuts bytes.  The two agree up to the first character
outside ASCII. The first name that ends behind such a character is cut out wrongly or not at
all, so the names of an input are read correctly only when all of them end before it, unless
the input is refused.
-/

namespace SoulSystem.Scirust.Symbolic

open Library Str List

section Cuts

variable {F : Type} (l : Lexicon F) (input : Str)

/-- The names that the scanner stops at, which are the longest possible runs. -/
def names (lexemes : List Lexeme) : List Str :=
  lexemes.filterMap fun
    | .name _ run => some run
    | _ => none

def identifiers (tokens : List (Token F)) : List Str :=
  tokens.filterMap fun
    | .ident name => some name
    | _ => none

/-- A cut that panics. -/
def CutsCharacter : Lexeme → Prop
  | .number lead run => slice input lead.length (lead.length + run.length) = none
  | .name lead run => slice input lead.length (lead.length + run.length) = none
  | .other _ => False

/-- What ends the scan with an error. -/
def Refused : Lexeme → Prop
  | .number lead run =>
    ∃ text, slice input lead.length (lead.length + run.length) = some text ∧
      l.parseNumber text = none
  | .name _ _ => False
  | .other c => symbol (F := F) c = none

/-- No cut up to the first refused lexeme is within a character. -/
def CutsNoCharacter (lexemes : List Lexeme) : Prop :=
  ∀ earlier lexeme later, lexemes = earlier ++ lexeme :: later →
    (∀ x ∈ earlier, ¬ Refused l input x) → ¬ CutsCharacter input lexeme

/-- All names end before the first character outside ASCII. -/
def NamesInAscii (lexemes : List Lexeme) : Prop :=
  ∀ lead run, .name lead run ∈ lexemes → ∀ c ∈ lead ++ run, isAscii c = true

variable {l input} {lexeme : Lexeme} {later : List Lexeme}

theorem read_eq_none : read l input lexeme = none ↔ CutsCharacter input lexeme := by
  cases lexeme with
  | number lead run => exact Option.map_eq_none_iff
  | name lead run => exact Option.map_eq_none_iff
  | other c =>
    refine iff_of_false (fun hnone ↦ ?_) id
    rw [read] at hnone
    split at hnone <;> cases hnone

theorem read_eq_error :
    (∃ message, read l input lexeme = some (.error message)) ↔ Refused l input lexeme := by
  cases lexeme with
  | number lead run =>
    simp only [read, Refused, Option.map_eq_some_iff]
    constructor
    · rintro ⟨message, text, htext, herror⟩
      refine ⟨text, htext, ?_⟩
      cases hvalue : l.parseNumber text with
      | none => rfl
      | some num =>
        rw [hvalue] at herror
        cases herror
    · rintro ⟨text, htext, hvalue⟩
      exact ⟨badNumber text, text, htext, by rw [hvalue]⟩
  | name lead run => simp [read, Refused]
  | other c =>
    rw [read, Refused]
    cases symbol (F := F) c <;> simp

theorem cutsNoCharacter_cons : CutsNoCharacter l input (lexeme :: later) ↔
    ¬ CutsCharacter input lexeme ∧ (¬ Refused l input lexeme → CutsNoCharacter l input later) := by
  constructor
  · intro hcuts
    refine ⟨hcuts [] lexeme later rfl (fun _ hx ↦ nomatch hx), fun hrefused ↦ ?_⟩
    intro earlier lexeme' later' hsplit hearlier
    refine hcuts (lexeme :: earlier) lexeme' later' (congrArg (lexeme :: ·) hsplit) ?_
    exact List.forall_mem_cons.mpr ⟨hrefused, hearlier⟩
  · rintro ⟨hfirst, hrest⟩ earlier lexeme' later' hsplit hearlier
    cases earlier with
    | nil =>
      cases hsplit
      exact hfirst
    | cons x earlier =>
      cases hsplit
      obtain ⟨hx, hearlier⟩ := List.forall_mem_cons.mp hearlier
      exact hrest hx earlier lexeme' later' rfl hearlier

/-- The tokens that are read when nothing is refused. -/
def ReadsAs (l : Lexicon F) (input : Str) : List Lexeme → List (Token F) → Prop :=
  List.Forall₂ fun lexeme token ↦ read l input lexeme = some (.ok token)

theorem readAll_eq_ok {tokens : List (Token F)} :
    readAll l input later = some (.ok tokens) ↔ ReadsAs l input later tokens := by
  induction later generalizing tokens with
  | nil =>
    rw [readAll, Option.some_inj, Except.ok.injEq, ReadsAs, forall₂_nil_left_iff]
    exact eq_comm
  | cons lexeme later ih =>
    rw [ReadsAs, forall₂_cons_left_iff]
    rcases hread : read l input lexeme with - | (message | token)
    · rw [readAll_of_panic hread]
      simp
    · rw [readAll_of_error hread]
      simp
    · rw [readAll_of_ok hread]
      constructor
      · intro hok
        obtain ⟨result, hresult, hmap⟩ := Option.map_eq_some_iff.mp hok
        cases result with
        | error message => cases hmap
        | ok tokens' =>
          cases hmap
          exact ⟨token, tokens', rfl, ih.mp hresult, rfl⟩
      · rintro ⟨token', tokens', htoken, hlater, rfl⟩
        cases htoken
        rw [ih.mpr hlater]
        rfl

/-- The scan does not panic exactly when it cuts no character. -/
theorem exists_readAll_iff :
    (∃ result, readAll l input later = some result) ↔ CutsNoCharacter l input later := by
  induction later with
  | nil =>
    refine iff_of_true ⟨.ok [], rfl⟩ fun earlier lexeme later hsplit ↦ ?_
    cases earlier <;> cases hsplit
  | cons lexeme later ih =>
    rw [cutsNoCharacter_cons, ← read_eq_none, ← read_eq_error (l := l), ← ih]
    rcases hread : read l input lexeme with - | (message | token)
    · rw [readAll_of_panic hread]
      simp
    · rw [readAll_of_error hread]
      simp
    · rw [readAll_of_ok hread]
      simp

/-- The scan ends well exactly when it cuts no character and refuses nothing. -/
theorem exists_readsAs_iff : (∃ tokens, ReadsAs l input later tokens) ↔
    CutsNoCharacter l input later ∧ ∀ lexeme ∈ later, ¬ Refused l input lexeme := by
  induction later with
  | nil =>
    refine iff_of_true ⟨[], .nil⟩ ⟨fun earlier lexeme later hsplit ↦ ?_, fun _ hx ↦ nomatch hx⟩
    cases earlier <;> cases hsplit
  | cons lexeme later ih =>
    rw [cutsNoCharacter_cons, forall_mem_cons, ← read_eq_none (l := l), ← read_eq_error]
    simp only [ReadsAs, forall₂_cons_left_iff] at ih ⊢
    rcases hread : read l input lexeme with - | (message | token)
    · simp
    · simp
    · simp only [Option.some_inj, Except.ok.injEq]
      constructor
      · rintro ⟨_, _, tokens, -, htokens, -⟩
        obtain ⟨hcuts, hrefused⟩ := ih.mp ⟨tokens, htokens⟩
        exact ⟨⟨Option.some_ne_none _, fun _ ↦ hcuts⟩, by simp, hrefused⟩
      · rintro ⟨⟨-, hcuts⟩, hok, hrefused⟩
        obtain ⟨tokens, htokens⟩ := ih.mpr ⟨hcuts hok, hrefused⟩
        exact ⟨token :: tokens, token, tokens, rfl, htokens, rfl⟩

/-! ## Names that are read correctly -/

/-- A character that starts a name wherever the scanner stops at it. -/
def StartsName (l : Lexicon F) (c : Char) : Prop :=
  isWhitespace c = false ∧ inNumber c = false ∧ startsName l c = true

/-- No name starts behind a character outside ASCII. -/
def Quiet (l : Lexicon F) (lead : Str) : Prop :=
  ∀ before c after, lead = before ++ c :: after → isAscii c = false → ∀ d ∈ after, ¬ StartsName l d

variable {lead run rest : Str} {c : Char}

theorem quiet_of_ascii (hlead : ∀ c ∈ lead, isAscii c = true) : Quiet l lead := by
  rintro before c after rfl hc
  have hascii := hlead c (mem_append_right before mem_cons_self)
  rw [hc] at hascii
  cases hascii

theorem Quiet.append (hlead : Quiet l lead) (hrun : ∀ c ∈ run, ¬ StartsName l c) :
    Quiet l (lead ++ run) := by
  intro before c after hsplit hc d hd
  rcases List.append_eq_append_iff.mp hsplit with ⟨more, rfl, hmore⟩ | ⟨more, rfl, hmore⟩
  · refine hrun d ?_
    rw [hmore]
    exact mem_append_right more (mem_cons_of_mem c hd)
  · cases more with
    | nil =>
      refine hrun d ?_
      rw [nil_append] at hmore
      rw [← hmore]
      exact mem_cons_of_mem c hd
    | cons c' more =>
      cases hmore
      cases List.mem_append.mp hd with
      | inl hmem => exact hlead before c more rfl hc d hmem
      | inr hmem => exact hrun d hmem

/-- A name that is cut out as it is ends before the first character outside ASCII. -/
theorem ascii_of_slice (hlead : Quiet l lead) (hstart : StartsName l c)
    (hslice : slice (lead ++ c :: run ++ rest) lead.length (lead.length + (c :: run).length) =
      some (c :: run)) : ∀ d ∈ lead ++ c :: run, isAscii d = true := by
  obtain ⟨a, b, htext, ha, hab⟩ := exists_append_of_slice hslice
  have hrun : ∀ d ∈ c :: run, isAscii d = true := by
    rw [← length_utf8_eq_iff]
    rw [utf8_append, length_append] at hab
    omega
  have hlength : a.length ≤ lead.length := ha ▸ length_le_utf8 a
  have hsplit : ∃ more, lead = a ++ more ∧ (more = [] ∨ ∃ more', more = c :: more') := by
    rw [append_assoc, append_assoc] at htext
    rcases List.append_eq_append_iff.mp htext with ⟨more, rfl, -⟩ | ⟨more, hmore, hbehind⟩
    · rw [length_append] at hlength
      have hempty : more = [] := eq_nil_of_length_eq_zero (by omega)
      rw [hempty, append_nil]
      exact ⟨[], (append_nil lead).symm, .inl rfl⟩
    · refine ⟨more, hmore, ?_⟩
      cases more with
      | nil => exact .inl rfl
      | cons d more =>
        have hd : c = d := (List.cons.inj hbehind).1
        exact .inr ⟨more, hd ▸ rfl⟩
  obtain ⟨more, hlead', hmore⟩ := hsplit
  have hascii : ∀ d ∈ lead, isAscii d = true := by
    rcases hmore with rfl | ⟨more, rfl⟩
    · rw [append_nil] at hlead'
      rw [← length_utf8_eq_iff, hlead', ha, hlead']
    · by_cases hall : ∀ d ∈ a, isAscii d = true
      · rw [length_utf8_eq_iff.mpr hall, hlead', length_append, length_cons] at ha
        omega
      · push Not at hall
        obtain ⟨d, hd, hforeign⟩ := hall
        obtain ⟨before, after, rfl⟩ := append_of_mem hd
        rw [append_assoc, cons_append] at hlead'
        refine absurd hstart (hlead before d (after ++ c :: more) hlead' ?_ c ?_)
        · exact Bool.not_eq_true _ ▸ hforeign
        · exact mem_append_right after mem_cons_self
  exact fun d hd ↦ (List.mem_append.mp hd).elim (hascii d) (hrun d)

/-! ## The names of an input -/

theorem identifiers_cons_ident (name : Str) (tokens : List (Token F)) :
    identifiers (.ident name :: tokens) = name :: identifiers tokens := rfl

theorem names_cons_name (later : List Lexeme) :
    names (.name lead run :: later) = run :: names later := rfl

/-- A name is a run in the input that nothing continues. -/
theorem exists_append_of_name_mem {lead' rest' : Str}
    (hmem : .name lead run ∈ lexemesFrom l lead' rest') :
    ∃ c tail rest, run = c :: tail ∧ startsName l c = true ∧ (∀ d ∈ tail, inName l d = true) ∧
      (∀ d ∈ rest.head?, inName l d = false) ∧ lead' ++ rest' = lead ++ run ++ rest := by
  induction lead', rest' using lexemesFrom.induct l with
  | case1 lead' =>
    rw [lexemesFrom] at hmem
    cases hmem
  | case2 lead' c rest' hspace ih =>
    rw [lexemesFrom, if_pos hspace] at hmem
    obtain ⟨d, tail, rest, hrun, hd, htail, hrest, happend⟩ := ih hmem
    exact ⟨d, tail, rest, hrun, hd, htail, hrest, append_cons lead' c rest' ▸ happend⟩
  | case3 lead' c rest' hspace hnumber run' ih =>
    rw [lexemesFrom, if_neg hspace, if_pos hnumber, mem_cons] at hmem
    obtain ⟨d, tail, rest, hrun, hd, htail, hrest, happend⟩ :=
      ih (hmem.resolve_left (by simp))
    rw [append_assoc, cons_append, takeWhile_append_dropWhile] at happend
    exact ⟨d, tail, rest, hrun, hd, htail, hrest, happend⟩
  | case4 lead' c rest' hspace hnumber hname run' ih =>
    rw [lexemesFrom, if_neg hspace, if_neg hnumber, if_pos hname, mem_cons] at hmem
    cases hmem with
    | inl heq =>
      cases heq
      refine ⟨c, _, rest'.dropWhile (inName l), rfl, hname, fun d hd ↦ ?_, fun d hd ↦ ?_, ?_⟩
      · exact mem_takeWhile_imp hd
      · have hnext := head?_dropWhile_not (inName l) rest'
        rw [hd] at hnext
        exact hnext
      · rw [append_assoc, cons_append, takeWhile_append_dropWhile]
    | inr hlater =>
      obtain ⟨d, tail, rest, hrun, hd, htail, hrest, happend⟩ := ih hlater
      rw [append_assoc, cons_append, takeWhile_append_dropWhile] at happend
      exact ⟨d, tail, rest, hrun, hd, htail, hrest, happend⟩
  | case5 lead' c rest' hspace hnumber hname ih =>
    rw [lexemesFrom, if_neg hspace, if_neg hnumber, if_neg hname, mem_cons] at hmem
    obtain ⟨d, tail, rest, hrun, hd, htail, hrest, happend⟩ := ih (hmem.resolve_left (by simp))
    exact ⟨d, tail, rest, hrun, hd, htail, hrest, append_cons lead' c rest' ▸ happend⟩

/-- The input around a run. -/
theorem append_run (p : Char → Bool) :
    lead ++ c :: rest = lead ++ c :: rest.takeWhile p ++ rest.dropWhile p := by
  rw [append_assoc, cons_append, takeWhile_append_dropWhile]

theorem readsAs_cons {tokens : List (Token F)} (hreads : ReadsAs l input (lexeme :: later) tokens) :
    ∃ token tokens', tokens = token :: tokens' ∧ read l input lexeme = some (.ok token) ∧
      ReadsAs l input later tokens' := by
  obtain ⟨token, tokens', hread, hlater, htokens⟩ := List.forall₂_cons_left_iff.mp hreads
  exact ⟨token, tokens', htokens, hread, hlater⟩

theorem identifiers_of_number {token : Token F} {tokens : List (Token F)}
    (hread : read l input (.number lead run) = some (.ok token)) :
    identifiers (token :: tokens) = identifiers tokens := by
  obtain ⟨text, -, htoken⟩ := Option.map_eq_some_iff.mp hread
  cases hvalue : l.parseNumber text with
  | none =>
    rw [hvalue] at htoken
    cases htoken
  | some num =>
    rw [hvalue] at htoken
    cases htoken
    rfl

theorem identifiers_of_other {token : Token F} {tokens : List (Token F)}
    (hread : read l input (.other c) = some (.ok token)) :
    identifiers (token :: tokens) = identifiers tokens := by
  rw [read] at hread
  cases htoken : symbol (F := F) c with
  | none =>
    rw [htoken] at hread
    cases hread
  | some token' =>
    rw [htoken] at hread
    cases hread
    unfold symbol at htoken
    split at htoken <;> cases htoken <;> rfl

/-- Names that are read correctly end before the first character outside ASCII. -/
theorem namesInAscii_of_identifiers {tokens : List (Token F)} (hlead : Quiet l lead)
    (hreads : ReadsAs l (lead ++ rest) (lexemesFrom l lead rest) tokens)
    (hnames : identifiers tokens = names (lexemesFrom l lead rest)) :
    NamesInAscii (lexemesFrom l lead rest) := by
  induction lead, rest using lexemesFrom.induct l generalizing tokens with
  | case1 lead =>
    rw [lexemesFrom]
    exact fun _ _ hmem ↦ absurd hmem not_mem_nil
  | case2 lead c rest hspace ih =>
    have hquiet : ∀ d ∈ [c], ¬ StartsName l d := by
      intro d hd hstart
      rw [List.mem_singleton.mp hd, StartsName, hspace] at hstart
      cases hstart.1
    rw [lexemesFrom, if_pos hspace, append_cons] at hreads
    rw [lexemesFrom, if_pos hspace] at hnames ⊢
    exact ih (hlead.append hquiet) hreads hnames
  | case3 lead c rest hspace hnumber run =>
    rename_i ih
    have hquiet : ∀ d ∈ c :: rest.takeWhile inNumber, ¬ StartsName l d := by
      intro d hd hstart
      have hdigit : inNumber d = true := by
        rcases List.mem_cons.mp hd with rfl | hmem
        · exact hnumber
        · exact mem_takeWhile_imp hmem
      rw [hstart.2.1] at hdigit
      cases hdigit
    rw [lexemesFrom, if_neg hspace, if_pos hnumber] at hreads hnames ⊢
    obtain ⟨token, tokens', rfl, hread, hlater⟩ := readsAs_cons hreads
    rw [identifiers_of_number hread] at hnames
    rw [append_run inNumber] at hlater
    have hrest := ih (hlead.append hquiet) hlater hnames
    exact fun lead' run' hmem ↦ hrest lead' run' ((List.mem_cons.mp hmem).resolve_left (by simp))
  | case4 lead c rest hspace hnumber hname run =>
    rename_i ih
    have hstart : StartsName l c :=
      ⟨Bool.not_eq_true _ ▸ hspace, Bool.not_eq_true _ ▸ hnumber, hname⟩
    rw [lexemesFrom, if_neg hspace, if_neg hnumber, if_pos hname] at hreads hnames ⊢
    obtain ⟨token, tokens', rfl, hread, hlater⟩ := readsAs_cons hreads
    obtain ⟨name, hslice, htoken⟩ := Option.map_eq_some_iff.mp hread
    cases htoken
    rw [identifiers_cons_ident, names_cons_name] at hnames
    obtain ⟨rfl, hlaterNames⟩ := List.cons.inj hnames
    rw [append_run (inName l)] at hslice hlater
    have hascii := ascii_of_slice hlead hstart hslice
    have hrest := ih (quiet_of_ascii hascii) hlater hlaterNames
    intro lead' run' hmem
    cases List.mem_cons.mp hmem with
    | inl heq =>
      cases heq
      exact hascii
    | inr hlater => exact hrest lead' run' hlater
  | case5 lead c rest hspace hnumber hname ih =>
    have hquiet : ∀ d ∈ [c], ¬ StartsName l d := by
      intro d hd hstart
      rw [List.mem_singleton.mp hd] at hstart
      exact hname hstart.2.2
    rw [lexemesFrom, if_neg hspace, if_neg hnumber, if_neg hname] at hreads hnames ⊢
    obtain ⟨token, tokens', rfl, hread, hlater⟩ := readsAs_cons hreads
    rw [identifiers_of_other hread] at hnames
    rw [append_cons] at hlater
    have hrest := ih (hlead.append hquiet) hlater hnames
    exact fun lead' run' hmem ↦ hrest lead' run' ((List.mem_cons.mp hmem).resolve_left (by simp))

/-- Names that end before the first character outside ASCII are read correctly. -/
theorem identifiers_of_namesInAscii {lexemes : List Lexeme} {tokens : List (Token F)}
    (hreads : ReadsAs l input lexemes tokens) (hascii : NamesInAscii lexemes)
    (hruns : ∀ lead run, .name lead run ∈ lexemes → ∃ rest, input = lead ++ run ++ rest) :
    identifiers tokens = names lexemes := by
  induction hreads with
  | nil => rfl
  | @cons lexeme token later tokens hread hlater ih =>
    have hrest := ih (fun lead run hmem ↦ hascii lead run (mem_cons_of_mem _ hmem))
      fun lead run hmem ↦ hruns lead run (mem_cons_of_mem _ hmem)
    cases lexeme with
    | number lead run => exact (identifiers_of_number hread).trans hrest
    | name lead run =>
      obtain ⟨rest, hinput⟩ := hruns lead run mem_cons_self
      obtain ⟨name, hslice, htoken⟩ := Option.map_eq_some_iff.mp hread
      rw [hinput, slice_of_ascii (hascii lead run mem_cons_self)] at hslice
      cases hslice
      cases htoken
      rw [identifiers_cons_ident, names_cons_name, hrest]
    | other c => exact (identifiers_of_other hread).trans hrest

end Cuts

/-! ## Inputs that are read safely -/

section Safety

variable {F : Type} [Field F] [LinearOrder F] (l : Lexicon F) (input : Str)

/-- Scanning and parsing do not panic, and the names are the runs that they were read from. -/
def ReadsSafely : Prop :=
  (∃ result, parse l input = some result) ∧ ∃ result, tokenize l input = some result ∧
    ∀ tokens, result = .ok tokens → identifiers tokens = names (lexemes l input)

/-- **An input is read safely** exactly when no cut that the scan gets to is within a character, and
the input is refused or all its names end before the first character outside ASCII. -/
theorem readsSafely_iff : ReadsSafely l input ↔ CutsNoCharacter l input (lexemes l input) ∧
    ((∃ lexeme ∈ lexemes l input, Refused l input lexeme) ∨ NamesInAscii (lexemes l input)) := by
  have hparse : (∃ result, parse l input = some result) ↔
      ∃ result, tokenize l input = some result := by
    simp only [parse, Option.map_eq_some_iff]
    exact ⟨fun ⟨_, result, h, _⟩ ↦ ⟨result, h⟩, fun ⟨result, h⟩ ↦ ⟨_, result, h, rfl⟩⟩
  have hruns : ∀ lead run, .name lead run ∈ lexemes l input →
      ∃ rest, input = lead ++ run ++ rest := by
    intro lead run hmem
    obtain ⟨-, -, rest, -, -, -, -, hinput⟩ := exists_append_of_name_mem hmem
    exact ⟨rest, hinput⟩
  rw [ReadsSafely, hparse, tokenize_eq]
  constructor
  · rintro ⟨-, result, hresult, hnames⟩
    have hcuts := exists_readAll_iff.mp ⟨result, hresult⟩
    refine ⟨hcuts, or_iff_not_imp_left.mpr fun hrefused ↦ ?_⟩
    push Not at hrefused
    obtain ⟨tokens, htokens⟩ := exists_readsAs_iff.mpr ⟨hcuts, hrefused⟩
    have hok := hresult.symm.trans (readAll_eq_ok.mpr htokens)
    have hlead : Quiet l [] := quiet_of_ascii fun _ hmem ↦ nomatch hmem
    exact namesInAscii_of_identifiers hlead htokens (hnames tokens (Option.some.inj hok))
  · rintro ⟨hcuts, hrest⟩
    obtain ⟨result, hresult⟩ := exists_readAll_iff.mpr hcuts
    refine ⟨⟨result, hresult⟩, result, hresult, ?_⟩
    rintro tokens rfl
    have htokens := readAll_eq_ok.mp hresult
    have hrefused := (exists_readsAs_iff.mp ⟨tokens, htokens⟩).2
    cases hrest with
    | inl hexists =>
      obtain ⟨lexeme, hmem, hlexeme⟩ := hexists
      exact absurd hlexeme (hrefused lexeme hmem)
    | inr hascii => exact identifiers_of_namesInAscii htokens hascii hruns

end Safety

/-- A letter outside ASCII is cut in the middle. -/
theorem not_readsSafely_letter : ¬ ReadsSafely latinLexicon "é".toList := by
  have htokenize : tokenize latinLexicon "é".toList = none := by decide +kernel
  rintro ⟨-, result, hresult, -⟩
  rw [htokenize] at hresult
  cases hresult

end SoulSystem.Scirust.Symbolic
