import SoulSystem.Ccos.Sanitizer.Copy

/-!
# What defanging guarantees

A literal starts and ends a token, so a surfaced text is clean.  Removing hidden characters may join
a look-alike to a Latin letter, and the copy is clean just when it joins none that were apart.

The copy has no character of the closed classes, but for a part of the Tags block that no class
covers.  Different hidden characters in the same visible text are told apart unless that text has
a literal of its own.
-/

namespace SoulSystem.Ccos.Sanitizer

open Library Str List

variable {alnum : Alphanumeric} {cfg : SanitizerConfig} {c : Char} {rest text : Str}
  {seen near : Bool}

/-! ## Literals and tokens -/

theorem isTokenChar_of_ascii (hascii : isAscii c = true) : isTokenChar alnum c =
    (c.isAlphanum || c == '.' || c == '-' || c == '_') := by
  rw [isTokenChar, alnum.ascii c hascii]

theorem isTokenChar_openBracket : isTokenChar alnum '[' = false := isTokenChar_of_ascii (by decide)

theorem isTokenChar_closeBracket : isTokenChar alnum ']' = false := isTokenChar_of_ascii (by decide)

/-- Plain characters up to the end of a token are clean. -/
theorem clean_append_iff {w : Str} (hw : ∀ d ∈ w, Plain d) (hc : Plain c)
    (htoken : isTokenChar alnum c = false) :
    Clean alnum cfg seen (w ++ c :: rest) ↔ Clean alnum cfg false rest := by
  induction w generalizing seen with
  | nil =>
    rw [nil_append, Clean, latinAfter, htoken, Bool.false_and]
    exact and_iff_right (note_of_plain hc)
  | cons d w ih =>
    rw [cons_append, Clean, ih fun e he ↦ hw e (mem_cons_of_mem d he)]
    exact and_iff_right (note_of_plain (hw d mem_cons_self))

theorem clean_literalOf_append_iff {n : ℕ} {label : Str} (hlabel : IsLabel label) :
    Clean alnum cfg seen (literalOf n label ++ rest) ↔ Clean alnum cfg false rest := by
  have hsplit : literalOf n label ++ rest = ('[' :: literalBody n label) ++ ']' :: rest := by
    simp [literalOf_eq]
  rw [hsplit]
  refine clean_append_iff (fun d hd ↦ ?_) (plain_of_toNat (by decide)) isTokenChar_closeBracket
  apply plain_of_mem_literalOf (n := n) hlabel
  rw [literalOf_eq, ← cons_append]
  exact mem_append_left _ hd

/-! ## Surfacing -/

section Surface

variable (hsurface : cfg.action = .surface)

include hsurface

theorem copyFrom_surface_cons (c : Char) (rest : Str) : copyFrom alnum cfg seen (c :: rest) =
    (match note alnum cfg seen c rest with
    | none => [c]
    | some (_, label) => literalOf c.toNat label) ++
      copyFrom alnum cfg (latinAfter alnum seen c) rest := by
  rw [copyFrom, hsurface]
  cases note alnum cfg seen c rest <;> rfl

/-- A literal cuts the token. -/
theorem latinAhead_of_surface (hlatin : latinAhead alnum (copyFrom alnum cfg seen rest) = true) :
    latinAhead alnum rest = true := by
  induction rest generalizing seen with
  | nil => exact hlatin
  | cons c rest ih =>
    rw [copyFrom_surface_cons hsurface] at hlatin
    rw [latinAhead_cons]
    cases hnote : note alnum cfg seen c rest with
    | none =>
      rw [hnote, singleton_append, latinAhead_cons] at hlatin
      simp only [Bool.and_eq_true, Bool.or_eq_true] at hlatin ⊢
      exact ⟨hlatin.1, hlatin.2.imp_right ih⟩
    | some found =>
      rw [hnote] at hlatin
      dsimp only at hlatin
      rw [literalOf, cons_append, latinAhead_cons, isTokenChar_openBracket] at hlatin
      cases hlatin

/-- What is surfaced is clean. -/
theorem clean_of_surface (hnear : near = true → seen = true) :
    Clean alnum cfg near (copyFrom alnum cfg seen rest) := by
  induction rest generalizing seen near with
  | nil => trivial
  | cons c rest ih =>
    rw [copyFrom_surface_cons hsurface]
    cases hnote : note alnum cfg seen c rest with
    | some found =>
      rw [clean_literalOf_append_iff (isLabel_of_note hnote)]
      exact ih fun hfalse ↦ nomatch hfalse
    | none =>
      obtain ⟨hclassify, halike⟩ := note_eq_none_iff.mp hnote
      rw [singleton_append, Clean, note_eq_none_iff, lookAlike_eq_none_iff]
      refine ⟨⟨hclassify, fun htoken hskel ↦ ?_⟩, ih fun hafter ↦ ?_⟩
      · have hnone := lookAlike_eq_none_iff.mp halike htoken hskel
        rw [Bool.or_eq_false_iff] at hnone ⊢
        constructor
        · exact Bool.eq_false_iff.mpr fun htrue ↦ Bool.eq_false_iff.mp hnone.1 (hnear htrue)
        · exact Bool.eq_false_iff.mpr fun htrue ↦
            Bool.eq_false_iff.mp hnone.2 (latinAhead_of_surface hsurface htrue)
      · simp only [latinAfter, Bool.and_eq_true, Bool.or_eq_true] at hafter ⊢
        exact ⟨hafter.1, hafter.2.imp_left hnear⟩

end Surface

/-! ## Removing -/

/-- A token goes on over hidden characters. -/
def joins (alnum : Alphanumeric) (cfg : SanitizerConfig) (c : Char) : Bool :=
  isTokenChar alnum c || (classify c cfg).isSome

/-- A Latin letter is joined to a place by characters of a kind. -/
def LatinBeside (p : Char → Bool) (before after : Str) : Prop :=
  (before.reverse.takeWhile p).any Char.isAlpha = true ∨ (after.takeWhile p).any Char.isAlpha = true

/-- No look-alike is separated from a Latin letter by hidden characters only, unless its own token
has one too. -/
def JoinsNothing (alnum : Alphanumeric) (cfg : SanitizerConfig) (text : Str) : Prop :=
  ∀ before c after, text = before ++ c :: after → (confusableSkeleton c).isSome →
    isTokenChar alnum c = true → LatinBeside (joins alnum cfg) before after →
    LatinBeside (isTokenChar alnum) before after

/-- Whether a Latin letter is joined to the place behind a text. -/
def latinBehind (p : Char → Bool) (seen : Bool) (text : Str) : Bool :=
  text.foldl (fun seen c ↦ p c && (seen || c.isAlpha)) seen

theorem latinBehind_eq (p : Char → Bool) (text : Str) :
    latinBehind p false text = (text.reverse.takeWhile p).any Char.isAlpha := by
  induction text using List.reverseRecOn with
  | nil => rfl
  | append_singleton text c ih =>
    rw [latinBehind] at ih ⊢
    rw [foldl_append, ih, reverse_append, reverse_singleton, singleton_append]
    cases hp : p c with
    | true =>
      rw [takeWhile_cons_of_pos hp, any_cons, foldl_cons, foldl_nil, hp,
        Bool.true_and, Bool.or_comm]
    | false =>
      rw [takeWhile_cons_of_neg (by rw [hp]; exact Bool.false_ne_true), foldl_cons,
        foldl_nil, hp, Bool.false_and]
      rfl

def joinedAhead (alnum : Alphanumeric) (cfg : SanitizerConfig) (rest : Str) : Bool :=
  (rest.takeWhile (joins alnum cfg)).any Char.isAlpha

theorem joinedAhead_cons : joinedAhead alnum cfg (c :: rest) =
    (joins alnum cfg c && (c.isAlpha || joinedAhead alnum cfg rest)) := by
  cases hjoins : joins alnum cfg c with
  | true =>
    rw [joinedAhead, takeWhile_cons_of_pos hjoins, any_cons, Bool.true_and,
      joinedAhead]
  | false =>
    rw [joinedAhead, takeWhile_cons_of_neg (by rw [hjoins]; exact Bool.false_ne_true),
      any_nil, Bool.false_and]

/-- What is found goes on a token over hidden characters. -/
theorem joins_of_note {found : AnomalyKind × Str}
    (hnote : note alnum cfg seen c rest = some found) : joins alnum cfg c = true := by
  rw [joins, Bool.or_eq_true]
  rw [note, Option.or_eq_some_iff] at hnote
  rcases hnote with hfound | ⟨-, hfound⟩
  · exact Or.inr (Option.isSome_of_eq_some hfound)
  · rw [lookAlike] at hfound
    split_ifs at hfound with htoken
    exact Or.inl htoken.1

/-- A look-alike is found only with a Latin letter in its token. -/
theorem latin_of_note {found : AnomalyKind × Str} (hskel : (confusableSkeleton c).isSome)
    (hnote : note alnum cfg seen c rest = some found) :
    (seen || latinAhead alnum rest) = true := by
  rw [note, Option.or_eq_some_iff] at hnote
  rcases hnote with hfound | ⟨-, hfound⟩
  · rw [confusableSkeleton_of_classify hfound] at hskel
    cases hskel
  · rw [lookAlike] at hfound
    split_ifs at hfound with htoken
    exact htoken.2

theorem joins_of_note_none (hnote : note alnum cfg seen c rest = none) :
    joins alnum cfg c = isTokenChar alnum c := by
  rw [joins, (note_eq_none_iff.mp hnote).1, Option.isSome_none, Bool.or_false]

section Strip

variable (hstrip : cfg.action = .strip)

include hstrip

theorem copyFrom_strip_cons (c : Char) (rest : Str) : copyFrom alnum cfg seen (c :: rest) =
    (match note alnum cfg seen c rest with
    | none => [c]
    | some _ => []) ++ copyFrom alnum cfg (latinAfter alnum seen c) rest := by
  rw [copyFrom, hstrip]
  cases note alnum cfg seen c rest <;> rfl

/-- In the copy the rest of a token goes on over what was removed. -/
theorem latinAhead_of_strip :
    latinAhead alnum (copyFrom alnum cfg seen rest) = joinedAhead alnum cfg rest := by
  induction rest generalizing seen with
  | nil => rfl
  | cons c rest ih =>
    rw [copyFrom_strip_cons hstrip, joinedAhead_cons]
    cases hnote : note alnum cfg seen c rest with
    | none => rw [singleton_append, latinAhead_cons, ih, joins_of_note_none hnote]
    | some found =>
      rw [nil_append, ih, joins_of_note hnote, not_isAlpha_of_note hnote, Bool.true_and,
        Bool.false_or]

/-- The copy is clean just when no look-alike is joined to a Latin letter that was not in its
token. -/
theorem clean_of_strip_iff : Clean alnum cfg near (copyFrom alnum cfg seen rest) ↔
    ∀ before c after, rest = before ++ c :: after → (confusableSkeleton c).isSome →
      isTokenChar alnum c = true →
      (latinBehind (joins alnum cfg) near before || joinedAhead alnum cfg after) = true →
      (latinBehind (isTokenChar alnum) seen before || latinAhead alnum after) = true := by
  induction rest generalizing seen near with
  | nil =>
    refine iff_of_true trivial fun before c after heq ↦ ?_
    exact absurd heq.symm (append_ne_nil_of_right_ne_nil before (cons_ne_nil c after))
  | cons d rest ih =>
    have hsplit : (∀ before c after, d :: rest = before ++ c :: after →
        (confusableSkeleton c).isSome → isTokenChar alnum c = true →
        (latinBehind (joins alnum cfg) near before || joinedAhead alnum cfg after) = true →
        (latinBehind (isTokenChar alnum) seen before || latinAhead alnum after) = true) ↔
        ((confusableSkeleton d).isSome → isTokenChar alnum d = true →
          (near || joinedAhead alnum cfg rest) = true → (seen || latinAhead alnum rest) = true) ∧
        ∀ before c after, rest = before ++ c :: after → (confusableSkeleton c).isSome →
          isTokenChar alnum c = true →
          (latinBehind (joins alnum cfg) (joins alnum cfg d && (near || d.isAlpha)) before ||
            joinedAhead alnum cfg after) = true →
          (latinBehind (isTokenChar alnum) (latinAfter alnum seen d) before ||
            latinAhead alnum after) = true := by
      constructor
      · intro hall
        refine ⟨hall [] d rest rfl, fun before c after heq ↦ ?_⟩
        exact hall (d :: before) c after (congrArg (d :: ·) heq)
      · rintro ⟨hhead, htail⟩ before c after heq
        cases before with
        | nil =>
          cases heq
          exact hhead
        | cons e before =>
          cases heq
          exact htail before c after rfl
    rw [hsplit, copyFrom_strip_cons hstrip]
    cases hnote : note alnum cfg seen d rest with
    | some found =>
      rw [nil_append, ih, joins_of_note hnote, not_isAlpha_of_note hnote, Bool.true_and,
        Bool.or_false]
      exact (and_iff_right fun hskel _ _ ↦ latin_of_note hskel hnote).symm
    | none =>
      obtain ⟨hclassify, halike⟩ := note_eq_none_iff.mp hnote
      rw [singleton_append, Clean, note_eq_none_iff, lookAlike_eq_none_iff,
        latinAhead_of_strip hstrip, ih, joins_of_note_none hnote, latinAfter]
      refine and_congr ?_ Iff.rfl
      rw [lookAlike_eq_none_iff] at halike
      constructor
      · rintro ⟨-, hapart⟩ hskel htoken hjoined
        cases (hapart htoken hskel).symm.trans hjoined
      · intro hapart
        refine ⟨hclassify, fun htoken hskel ↦ Bool.eq_false_iff.mpr fun hjoined ↦ ?_⟩
        cases (halike htoken hskel).symm.trans (hapart hskel htoken hjoined)

theorem clean_defang_of_strip_iff :
    Clean alnum cfg false (copyFrom alnum cfg false text) ↔ JoinsNothing alnum cfg text := by
  rw [clean_of_strip_iff hstrip, JoinsNothing]
  simp only [LatinBeside, latinBehind_eq, Bool.or_eq_true, joinedAhead, latinAhead]

end Strip

/-! ## Defanging is final -/

/-- What stands in the copy for the character at a byte offset. -/
def standsFor (cfg : SanitizerConfig) (findings : List Finding) (byteOffset : ℕ) (c : Char) : Str :=
  match findings.find? fun f ↦ f.byteOffset = byteOffset with
  | none => [c]
  | some f =>
    match cfg.action with
    | .surface => f.literal
    | .strip => []
    | .keep => [c]

/-- The copy is clean, defanging it again changes nothing, and it has every character that is no
finding in its place, with the literal of a finding or nothing in the place of the finding. -/
structure Final (alnum : Alphanumeric) (cfg : SanitizerConfig) (text : Str) : Prop where
  clean : (scanWith alnum (defangWith alnum text cfg).1 cfg).findings = []
  idempotent : (defangWith alnum (defangWith alnum text cfg).1 cfg).1 =
    (defangWith alnum text cfg).1
  replaced : (defangWith alnum text cfg).1 = (indexedFrom 0 0 text).flatMap fun entry ↦
    standsFor cfg (scanWith alnum text cfg).findings entry.2.1 entry.2.2

theorem standsFor_eq {earlier later : List Finding} {i o : ℕ} {found : Option (AnomalyKind × Str)}
    (hearlier : ∀ f ∈ earlier, f.byteOffset < o) (hlater : ∀ f ∈ later, o < f.byteOffset) :
    standsFor cfg (earlier ++ (located i o c found ++ later)) o c = emit cfg.action c found := by
  have hnone : ∀ fs : List Finding, (∀ f ∈ fs, f.byteOffset ≠ o) →
      fs.find? (fun f ↦ f.byteOffset = o) = none := by
    intro fs hfs
    exact List.find?_eq_none.mpr fun f hf htrue ↦ hfs f hf (of_decide_eq_true htrue)
  rw [standsFor, find?_append, hnone earlier fun f hf ↦ (hearlier f hf).ne, Option.none_or]
  cases found with
  | none =>
    rw [located, Option.map_none, Option.toList_none, nil_append,
      hnone later fun f hf ↦ (hlater f hf).ne']
    rfl
  | some found =>
    have hfirst : (located i o c (some found) ++ later).find? (fun f ↦ f.byteOffset = o) =
        some ⟨o, i, c.toNat, found.1, found.2⟩ := find?_cons_of_pos (decide_eq_true rfl)
    rw [hfirst]
    rfl

theorem copyFrom_eq_flatMap {i o : ℕ} {earlier : List Finding}
    (hearlier : ∀ f ∈ earlier, f.byteOffset < o) :
    copyFrom alnum cfg seen rest = (indexedFrom i o rest).flatMap fun entry ↦
      standsFor cfg (earlier ++ findingsFrom alnum cfg seen i o rest) entry.2.1 entry.2.2 := by
  induction rest generalizing seen i o earlier with
  | nil => rfl
  | cons c rest ih =>
    have hlater : ∀ f ∈ findingsFrom alnum cfg (latinAfter alnum seen c) (i + 1)
        (o + c.utf8Size) rest, o < f.byteOffset := fun f hf ↦
      Nat.lt_of_lt_of_le (Nat.lt_add_of_pos_right c.utf8Size_pos) (le_byteOffset hf)
    have hnext : ∀ f ∈ earlier ++ located i o c (note alnum cfg seen c rest),
        f.byteOffset < o + c.utf8Size := by
      intro f hf
      have hpos := c.utf8Size_pos
      rw [mem_append, located, Option.mem_toList, Option.map_eq_some_iff] at hf
      rcases hf with hf | ⟨found, -, rfl⟩
      · exact (hearlier f hf).trans (Nat.lt_add_of_pos_right hpos)
      · exact Nat.lt_add_of_pos_right hpos
    rw [copyFrom, indexedFrom, flatMap_cons, ih hnext, findingsFrom,
      standsFor_eq hearlier hlater, append_assoc]

theorem final_iff_clean : Final alnum cfg text ↔
    Clean alnum cfg false (copyFrom alnum cfg false text) := by
  rw [← defangWith_fst, ← scanWith_eq_nil_iff]
  refine ⟨Final.clean, fun hclean ↦ ⟨hclean, ?_, ?_⟩⟩
  · rw [defangWith_fst (defangWith alnum text cfg).1]
    exact copyFrom_of_Clean ((scanWith_eq_nil_iff _).mp hclean)
  · rw [defangWith_fst, scanWith_findings]
    exact copyFrom_eq_flatMap fun f hf ↦ absurd hf not_mem_nil

/-- **Defanging is final** when findings are surfaced, and when they are removed just when this joins
no look-alike to a Latin letter of another token. -/
theorem final_iff (alnum : Alphanumeric) (cfg : SanitizerConfig) (text : Str)
    (haction : cfg.action ≠ .keep) :
    Final alnum cfg text ↔ cfg.action = .surface ∨ JoinsNothing alnum cfg text := by
  rw [final_iff_clean]
  cases hcase : cfg.action with
  | surface => exact iff_of_true (clean_of_surface hcase id) (Or.inl rfl)
  | strip =>
    rw [clean_defang_of_strip_iff hcase]
    exact (or_iff_right fun h ↦ nomatch h).symm
  | keep => exact absurd hcase haction

/-! ### A look-alike behind a hidden character -/

theorem toNat_of_hidden (hhidden : Hidden c) :
    c.toNat ≤ 0x1F ∨ (0x7F ≤ c.toNat ∧ c.toNat ≤ 0xAD) ∨ 0x61C ≤ c.toNat := by
  rcases hhidden with hbidi | hzero | htag | hcontrol
  · unfold IsBidiControl at hbidi
    omega
  · unfold IsZeroWidth at hzero
    omega
  · unfold IsTag at htag
    omega
  · unfold IsControl at hcontrol
    omega

/-- The letters and digits of ASCII, and the look-alikes. -/
def sampleAlphanumeric : Alphanumeric where
  holds c := (isAscii c && c.isAlphanum) || (confusableSkeleton c).isSome
  ascii c hascii := by
    have hlt := isAscii_iff.mp hascii
    rw [hascii, confusableSkeleton_eq_none (by omega), Bool.true_and, Option.isSome_none,
      Bool.or_false]
  hidden c hhidden := by
    have hcode := toNat_of_hidden hhidden
    have halnum : c.isAlphanum = false := by
      apply Bool.eq_false_iff.mpr
      intro htrue
      have hrange := toNat_of_isAlphanum htrue
      omega
    rw [confusableSkeleton_eq_none (by omega), halnum, Bool.and_false]
    rfl

/-- `a`, a zero-width space, and a Cyrillic letter that looks like `a`. -/
def spacedLookAlike : Str := ['a', Char.ofNat 0x200B, Char.ofNat 0x0430]

theorem final_iff_spacedLookAlike :
    Final sampleAlphanumeric ⟨.surface, true, true⟩ spacedLookAlike ↔
      Action.surface = Action.surface ∨
        JoinsNothing sampleAlphanumeric ⟨.surface, true, true⟩ spacedLookAlike :=
  final_iff sampleAlphanumeric ⟨.surface, true, true⟩ spacedLookAlike (fun h ↦ nomatch h)

/-- Without the zero-width space the look-alike stands beside the Latin letter. -/
theorem not_final : ¬ ∀ (alnum : Alphanumeric) (cfg : SanitizerConfig) (text : Str),
    cfg.action ≠ .keep → Final alnum cfg text := by
  intro hall
  have hclean := final_iff_clean.mp
    (hall sampleAlphanumeric ⟨.strip, true, true⟩ spacedLookAlike (fun h ↦ nomatch h))
  have hcopy : copyFrom sampleAlphanumeric ⟨.strip, true, true⟩ false spacedLookAlike =
      ['a', Char.ofNat 0x0430] := by
    decide
  rw [hcopy] at hclean
  exact absurd hclean.2.1 (by decide)

/-! ## The closed classes -/

/-- The tags that no class covers. -/
def UntreatedTag (c : Char) : Prop := 0xE0002 ≤ c.toNat ∧ c.toNat ≤ 0xE001F

instance : DecidablePred UntreatedTag := fun c ↦ by unfold UntreatedTag; infer_instance

theorem isSome_classify (hhidden : Hidden c) (htreated : ¬ UntreatedTag c) :
    (classify c .default).isSome := by
  have hlookup : ∀ table : List (ℕ × String), c.toNat ∈ table.map Prod.fst →
      (table.lookup c.toNat).isSome := by
    intro table hmem
    obtain ⟨entry, hentry, heq⟩ := List.mem_map.mp hmem
    exact List.lookup_isSome_iff.mpr ⟨entry, hentry, beq_iff_eq.mpr heq.symm⟩
  unfold Hidden IsBidiControl IsZeroWidth IsTag IsControl at hhidden
  unfold UntreatedTag at htreated
  unfold classify
  dsimp only
  split_ifs with htab hnewline hcontrol
  · omega
  · omega
  · rfl
  · simp only [Option.orElse_eq_orElse, Option.orElse_eq_or, Option.isSome_or, Option.isSome_map,
      Bool.or_eq_true]
    rcases hhidden with hbidi | hzero | htag | hcontrol'
    · exact Or.inl (hlookup bidiNames (by simp [bidiNames]; omega))
    · exact Or.inr (Or.inl (hlookup zeroWidthNames (by simp [zeroWidthNames]; omega)))
    · refine Or.inr (Or.inr (Or.inl ?_))
      unfold tagLabel
      split_ifs
      all_goals first | rfl | omega
    · omega

theorem hidden_of_untreatedTag (huntreated : UntreatedTag c) : Hidden c :=
  Or.inr (Or.inr (Or.inl ⟨Nat.le_trans (by decide) huntreated.1,
    Nat.le_trans huntreated.2 (by decide)⟩))

theorem classify_of_untreatedTag (huntreated : UntreatedTag c) : classify c cfg = none := by
  unfold UntreatedTag at huntreated
  cases hfound : classify c cfg with
  | none => rfl
  | some found =>
    rcases classify_eq_some hfound with hcontrol | ⟨name, -, hname⟩ | htag | hother
    · omega
    · have hnames : ∀ entry ∈ bidiNames ++ zeroWidthNames, entry.1 < 0xE0000 := by decide
      have hcode := hnames _ hname
      dsimp only at hcode
      omega
    · unfold tagLabel at htag
      split_ifs at htag <;> omega
    · unfold otherLabel at hother
      split_ifs at hother <;> omega

theorem not_hidden_of_printable (hcode : (0x20 ≤ c.toNat ∧ c.toNat ≤ 0x7E) ∨ c.toNat = 0x2192) :
    ¬ Hidden c := by
  unfold Hidden IsBidiControl IsZeroWidth IsTag IsControl
  omega

theorem not_hidden_of_mem_literalOf {n : ℕ} {label : Str} (hlabel : IsLabel label)
    (hc : c ∈ literalOf n label) : ¬ Hidden c := by
  rw [literalOf_eq, mem_cons, mem_append, mem_singleton] at hc
  rcases hc with rfl | hbody | rfl
  · exact not_hidden_of_printable (by decide)
  · exact not_hidden_of_printable (printable_literalBody hlabel c hbody)
  · exact not_hidden_of_printable (by decide)

/-- A character of the copy was not found, or it is part of a literal. -/
theorem mem_copyFrom (hsurface : cfg.action = .surface)
    (hc : c ∈ copyFrom alnum cfg seen text) :
    (c ∈ text ∧ classify c cfg = none) ∨ ∃ n label, IsLabel label ∧ c ∈ literalOf n label := by
  induction text generalizing seen with
  | nil => exact absurd hc not_mem_nil
  | cons d text ih =>
    rw [copyFrom_surface_cons hsurface, mem_append] at hc
    cases hc with
    | inr hlater => exact (ih hlater).imp_left fun h ↦ ⟨mem_cons_of_mem d h.1, h.2⟩
    | inl hfirst =>
      cases hnote : note alnum cfg seen d text with
      | none =>
        rw [hnote, mem_singleton] at hfirst
        rw [hfirst]
        exact Or.inl ⟨mem_cons_self, (note_eq_none_iff.mp hnote).1⟩
      | some found =>
        rw [hnote] at hfirst
        exact Or.inr ⟨_, _, isLabel_of_note hnote, hfirst⟩

theorem mem_copyFrom_of_untreatedTag (huntreated : UntreatedTag c) (hc : c ∈ text) :
    c ∈ copyFrom alnum cfg seen text := by
  induction text generalizing seen with
  | nil => exact hc
  | cons d text ih =>
    rw [copyFrom, mem_append]
    cases List.mem_cons.mp hc with
    | inr hlater => exact Or.inr (ih hlater)
    | inl heq =>
      have hskel : confusableSkeleton d = none := by
        unfold UntreatedTag at huntreated
        exact confusableSkeleton_eq_none (by rw [← heq]; omega)
      have hnote : note alnum cfg seen d text = none :=
        note_eq_none_iff.mpr
          ⟨heq ▸ classify_of_untreatedTag huntreated, lookAlike_of_none hskel⟩
      rw [hnote, ← heq]
      exact Or.inl mem_cons_self

/-- The copy has no hidden character just when the text has no tag that is not covered. -/
theorem not_hidden_defang_iff (alnum : Alphanumeric) (text : Str) :
    (∀ c ∈ (defang alnum text).1, ¬ Hidden c) ↔ ∀ c ∈ text, ¬ UntreatedTag c := by
  rw [defang, defangWith_fst]
  constructor
  · intro hshown c hc huntreated
    exact hshown c (mem_copyFrom_of_untreatedTag huntreated hc) (hidden_of_untreatedTag huntreated)
  · intro htreated c hc hhidden
    rcases mem_copyFrom rfl hc with ⟨hmem, hnone⟩ | ⟨n, label, hlabel, hliteral⟩
    · have hsome := isSome_classify hhidden (htreated c hmem)
      rw [hnone] at hsome
      exact nomatch hsome
    · exact not_hidden_of_mem_literalOf hlabel hliteral hhidden

/-! ## Texts that differ in hidden characters only -/

/-- The visible part of a text. -/
def shown (text : Str) : Str := text.filter fun c ↦ ¬ Hidden c

/-- A visible text has the literal of a hidden character. -/
def HasLiteral (visible : Str) : Prop :=
  ∃ h kind label, Hidden h ∧ classify h .default = some (kind, label) ∧
    literalOf h.toNat label <:+: visible

/-- Texts that differ only in hidden characters which a class covers have copies that differ
visibly. -/
def ToldApart (alnum : Alphanumeric) (visible : Str) : Prop :=
  ∀ text text', (∀ c ∈ text, ¬ UntreatedTag c) → (∀ c ∈ text', ¬ UntreatedTag c) →
    shown text = visible → shown text' = visible → text ≠ text' →
    shown (defang alnum text).1 ≠ shown (defang alnum text').1

theorem shown_cons_of_hidden (hhidden : Hidden c) : shown (c :: rest) = shown rest :=
  filter_cons_of_neg (by simpa using hhidden)

theorem shown_cons_of_not_hidden (hvisible : ¬ Hidden c) : shown (c :: rest) = c :: shown rest :=
  filter_cons_of_pos (by simpa using hvisible)

theorem shown_eq_self (hvisible : ∀ d ∈ text, ¬ Hidden d) : shown text = text :=
  List.filter_eq_self.mpr fun d hd ↦ by simpa using hvisible d hd

theorem shown_append (a b : Str) : shown (a ++ b) = shown a ++ shown b := filter_append ..

/-- What is found in a character is the same wherever it is found. -/
theorem note_unique {rest' : Str} {seen' : Bool} {found found' : AnomalyKind × Str}
    (hnote : note alnum cfg seen c rest = some found)
    (hnote' : note alnum cfg seen' c rest' = some found') : found = found' := by
  rw [note] at hnote hnote'
  cases hclassify : classify c cfg with
  | some known =>
    rw [hclassify] at hnote hnote'
    exact Option.some.inj (hnote.symm.trans hnote')
  | none =>
    rw [hclassify, Option.none_or, lookAlike] at hnote hnote'
    split_ifs at hnote hnote'
    exact Option.some.inj (hnote.symm.trans hnote')

section Surface

variable (hsurface : cfg.action = .surface)

include hsurface

theorem copyFrom_surface_of_none (hnote : note alnum cfg seen c rest = none) :
    copyFrom alnum cfg seen (c :: rest) =
      c :: copyFrom alnum cfg (latinAfter alnum seen c) rest := by
  rw [copyFrom_surface_cons hsurface, hnote]
  rfl

theorem copyFrom_surface_of_some {kind : AnomalyKind} {label : Str}
    (hnote : note alnum cfg seen c rest = some (kind, label)) :
    copyFrom alnum cfg seen (c :: rest) =
      literalOf c.toNat label ++ copyFrom alnum cfg (latinAfter alnum seen c) rest := by
  rw [copyFrom_surface_cons hsurface, hnote]

/-- A closed text at the start of a copy is a text that was not found. -/
theorem exists_append_of_copyFrom {u r : Str} (hclosed : Closed u)
    (hcopy : copyFrom alnum cfg seen text = u ++ r) :
    ∃ text' seen', text = u ++ text' ∧ copyFrom alnum cfg seen' text' = r := by
  induction u generalizing seen text with
  | nil => exact ⟨text, seen, rfl, hcopy⟩
  | cons a u ih =>
    cases text with
    | nil => exact nomatch hcopy
    | cons d text =>
      cases hnote : note alnum cfg seen d text with
      | none =>
        rw [copyFrom_surface_of_none hsurface hnote, cons_append] at hcopy
        obtain ⟨rfl, hrest⟩ := List.cons.inj hcopy
        obtain ⟨text', seen', rfl, hcopy'⟩ := ih hclosed.2 hrest
        exact ⟨text', seen', rfl, hcopy'⟩
      | some found =>
        rw [copyFrom_surface_of_some hsurface hnote, literalOf, cons_append] at hcopy
        obtain ⟨hopen, hrest⟩ := List.cons.inj hcopy
        obtain ⟨u', rfl⟩ := hclosed.1 hopen.symm
        exact absurd (List.cons.inj hrest).1 (by decide)

theorem copyFrom_cons_ne_nil : copyFrom alnum cfg seen (c :: rest) ≠ [] := by
  cases hnote : note alnum cfg seen c rest with
  | none =>
    rw [copyFrom_surface_of_none hsurface hnote]
    exact cons_ne_nil _ _
  | some found =>
    rw [copyFrom_surface_of_some hsurface hnote, literalOf]
    exact cons_ne_nil _ _

/-- A literal in the place of a character that was not found is a literal of the visible text. -/
theorem hasLiteral_of_literalOf_append {d : Char} {rest' r : Str} {kind : AnomalyKind} {label : Str}
    (hdefault : cfg = .default)
    (hfound : note alnum cfg seen c rest = some (kind, label)) (htreated : ¬ UntreatedTag c)
    (hnone : note alnum cfg seen d rest' = none)
    (hcopy : literalOf c.toNat label ++ r =
      d :: copyFrom alnum cfg (latinAfter alnum seen d) rest')
    (hshown : shown (c :: rest) = shown (d :: rest')) : HasLiteral (shown (d :: rest')) := by
  have hlabel := isLabel_of_note hfound
  rw [literalOf_eq, cons_append] at hcopy
  obtain ⟨rfl, hbody⟩ := List.cons.inj hcopy
  by_cases hhidden : Hidden c
  · obtain ⟨text', seen', rfl, -⟩ :=
      exists_append_of_copyFrom hsurface (closed_literalBody hlabel) hbody.symm
    have hclassify : classify c .default = some (kind, label) := by
      have hsome := isSome_classify hhidden htreated
      obtain ⟨found, hclassify⟩ := Option.isSome_iff_exists.mp hsome
      rw [note, hdefault, hclassify] at hfound
      rw [hclassify]
      exact hfound
    refine ⟨c, kind, label, hhidden, hclassify, ?_⟩
    rw [← cons_append, ← literalOf_eq, shown_append,
      shown_eq_self fun e he ↦ not_hidden_of_mem_literalOf hlabel he]
    exact (prefix_append _ _).isInfix
  · rw [shown_cons_of_not_hidden hhidden, shown_cons_of_not_hidden (not_hidden_of_printable
      (by decide))] at hshown
    rw [(List.cons.inj hshown).1] at hfound
    cases (note_of_plain (plain_of_toNat (by decide))).symm.trans hfound

/-- Texts with the same visible part and the same copy are the same, unless the visible part has a
literal. -/
theorem eq_of_copyFrom_eq (hdefault : cfg = .default) {text' : Str}
    (htext : ∀ c ∈ text, ¬ UntreatedTag c) (htext' : ∀ c ∈ text', ¬ UntreatedTag c)
    (hliteral : ¬ HasLiteral (shown text)) (hshown : shown text = shown text')
    (hcopy : copyFrom alnum cfg seen text = copyFrom alnum cfg seen text') : text = text' := by
  induction text generalizing seen text' with
  | nil =>
    cases text' with
    | nil => rfl
    | cons d text' => exact absurd hcopy.symm (copyFrom_cons_ne_nil hsurface)
  | cons c text ih =>
    cases text' with
    | nil => exact absurd hcopy (copyFrom_cons_ne_nil hsurface)
    | cons d text' =>
      rw [forall_mem_cons] at htext htext'
      have hsame : c = d → copyFrom alnum cfg (latinAfter alnum seen c) text =
          copyFrom alnum cfg (latinAfter alnum seen c) text' → c :: text = d :: text' := by
        rintro rfl hrest
        refine congrArg (c :: ·) (ih htext.2 htext'.2 (fun hhas ↦ hliteral ?_) ?_ hrest)
        · obtain ⟨h, kind, label, hhidden, hclassify, hwithin⟩ := hhas
          refine ⟨h, kind, label, hhidden, hclassify, hwithin.trans ?_⟩
          exact ((suffix_cons c text).filter _).isInfix
        · by_cases hhidden : Hidden c
          · rwa [shown_cons_of_hidden hhidden, shown_cons_of_hidden hhidden] at hshown
          · rw [shown_cons_of_not_hidden hhidden, shown_cons_of_not_hidden hhidden] at hshown
            exact (List.cons.inj hshown).2
      cases hc : note alnum cfg seen c text with
      | none =>
        rw [copyFrom_surface_of_none hsurface hc] at hcopy
        cases hd : note alnum cfg seen d text' with
        | none =>
          rw [copyFrom_surface_of_none hsurface hd] at hcopy
          obtain ⟨rfl, hrest⟩ := List.cons.inj hcopy
          exact hsame rfl hrest
        | some found =>
          rw [copyFrom_surface_of_some hsurface hd] at hcopy
          exact absurd (hasLiteral_of_literalOf_append hsurface hdefault hd htext'.1 hc
            hcopy.symm hshown.symm) hliteral
      | some found =>
        rw [copyFrom_surface_of_some hsurface hc] at hcopy
        cases hd : note alnum cfg seen d text' with
        | none =>
          rw [copyFrom_surface_of_none hsurface hd] at hcopy
          refine absurd (hasLiteral_of_literalOf_append hsurface hdefault hc htext.1 hd
            hcopy hshown) ?_
          rwa [← hshown]
        | some found' =>
          rw [copyFrom_surface_of_some hsurface hd] at hcopy
          have heq : c = d := Char.toNat_inj.mp (eq_of_literalOf_append hcopy)
          subst heq
          rw [note_unique hc hd] at hcopy
          exact hsame rfl (append_cancel_left hcopy)

end Surface

/-! ### A literal that is there already -/

theorem latinAhead_append_cons {w : Str} (htoken : isTokenChar alnum c = false) :
    latinAhead alnum (w ++ c :: rest) = latinAhead alnum w := by
  induction w with
  | nil => rw [nil_append, latinAhead_cons, htoken, Bool.false_and]; rfl
  | cons d w ih => rw [cons_append, latinAhead_cons, latinAhead_cons, ih]

theorem note_append_cons {d : Char} {w : Str} (htoken : isTokenChar alnum c = false) :
    note alnum cfg seen d (w ++ c :: rest) = note alnum cfg seen d w := by
  simp only [note, lookAlike, latinAhead_append_cons htoken]

/-- A character that is in no token cuts the text. -/
theorem copyFrom_append_cons {w : Str} (htoken : isTokenChar alnum c = false) :
    copyFrom alnum cfg seen (w ++ c :: rest) = copyFrom alnum cfg seen w ++
      (emit cfg.action c (classify c cfg) ++ copyFrom alnum cfg false rest) := by
  induction w generalizing seen with
  | nil =>
    have hnote : note alnum cfg seen c rest = classify c cfg := by
      simp only [note, lookAlike_of_not_token htoken, Option.or_none]
    change emit cfg.action c (note alnum cfg seen c rest) ++
      copyFrom alnum cfg (latinAfter alnum seen c) rest = _
    rw [hnote, latinAfter, htoken, Bool.false_and]
    rfl
  | cons d w ih =>
    rw [cons_append, copyFrom, copyFrom, ih, note_append_cons htoken, append_assoc]

theorem copyFrom_plain_append {w : Str} (hw : ∀ d ∈ w, Plain d) (hc : Plain c)
    (htoken : isTokenChar alnum c = false) : copyFrom alnum cfg seen (w ++ c :: rest) =
      w ++ c :: copyFrom alnum cfg false rest := by
  induction w generalizing seen with
  | nil =>
    rw [nil_append, copyFrom, note_of_plain hc, latinAfter, htoken, Bool.false_and]
    rfl
  | cons d w ih =>
    rw [cons_append, copyFrom, note_of_plain (hw d mem_cons_self),
      ih fun e he ↦ hw e (mem_cons_of_mem d he)]
    rfl

theorem copyFrom_literalOf_append {n : ℕ} {label : Str} (hlabel : IsLabel label) :
    copyFrom alnum cfg seen (literalOf n label ++ rest) =
      literalOf n label ++ copyFrom alnum cfg false rest := by
  have hplain : ∀ d ∈ '[' :: literalBody n label, Plain d := by
    intro d hd
    apply plain_of_mem_literalOf (n := n) hlabel
    rw [literalOf_eq, ← cons_append]
    exact mem_append_left _ hd
  have hcopy := @copyFrom_plain_append alnum cfg ']' rest seen _ hplain (plain_of_toNat (by decide))
    isTokenChar_closeBracket
  have hsplit : ∀ r : Str, literalOf n label ++ r = ('[' :: literalBody n label) ++ ']' :: r := by
    intro r
    simp [literalOf_eq]
  rw [hsplit, hsplit, hcopy]

theorem isTokenChar_of_hidden (hhidden : Hidden c) : isTokenChar alnum c = false := by
  have hcode := toNat_of_hidden hhidden
  have hne : ∀ d : Char, 0x20 ≤ d.toNat → d.toNat ≤ 0x7E → (c == d) = false := by
    intro d hlow hhigh
    apply beq_eq_false_iff_ne.mpr
    rintro rfl
    omega
  rw [isTokenChar, alnum.hidden c hhidden, hne '.' (by decide) (by decide),
    hne '-' (by decide) (by decide), hne '_' (by decide) (by decide)]
  rfl

/-- A hidden character before its literal looks like one behind it. -/
theorem defang_swap {kind : AnomalyKind} {label p s : Str} (hhidden : Hidden c)
    (hclassify : classify c .default = some (kind, label)) :
    (defang alnum (p ++ c :: (literalOf c.toNat label ++ s))).1 =
      (defang alnum (p ++ (literalOf c.toNat label ++ c :: s))).1 := by
  have hlabel := isLabel_of_classify hclassify
  have htoken := @isTokenChar_of_hidden alnum c hhidden
  have hemit : emit SanitizerConfig.default.action c (classify c .default) =
      literalOf c.toNat label := by
    rw [hclassify]
    rfl
  have hhead : ∀ seen rest, copyFrom alnum .default seen (c :: rest) =
      literalOf c.toNat label ++ copyFrom alnum .default false rest := by
    intro seen rest
    have hcut := @copyFrom_append_cons alnum .default c rest seen [] htoken
    rwa [hemit] at hcut
  have hopen : ∀ r, copyFrom alnum .default false (p ++ (literalOf c.toNat label ++ r)) =
      copyFrom alnum .default false p ++
        copyFrom alnum .default false (literalOf c.toNat label ++ r) := by
    intro r
    rw [literalOf_eq, cons_append, copyFrom_append_cons isTokenChar_openBracket]
    refine congrArg (copyFrom alnum .default false p ++ ·) ?_
    exact (@copyFrom_append_cons alnum .default '[' _ false [] isTokenChar_openBracket).symm
  rw [defang, defang, defangWith_fst, defangWith_fst, copyFrom_append_cons htoken, hemit,
    copyFrom_literalOf_append hlabel, hopen, copyFrom_literalOf_append hlabel, hhead]

theorem toldApart_iff (alnum : Alphanumeric) {visible : Str}
    (hvisible : ∀ d ∈ visible, ¬ Hidden d) :
    ToldApart alnum visible ↔ ¬ HasLiteral visible := by
  have hself : ∀ t, (∀ d ∈ t, ¬ UntreatedTag d) → shown (defang alnum t).1 = (defang alnum t).1 :=
    fun t ht ↦ shown_eq_self ((not_hidden_defang_iff alnum t).mpr ht)
  constructor
  · rintro hapart ⟨h, kind, label, hhidden, hclassify, p, s, rfl⟩
    have hlabel := isLabel_of_classify hclassify
    have htreated : ¬ UntreatedTag h := by
      intro huntreated
      rw [classify_of_untreatedTag huntreated] at hclassify
      exact nomatch hclassify
    have hshownBefore : shown (p ++ h :: (literalOf h.toNat label ++ s)) =
        p ++ literalOf h.toNat label ++ s := by
      rw [shown_append, shown_cons_of_hidden hhidden, ← shown_append, ← append_assoc]
      exact shown_eq_self hvisible
    have hshownBehind : shown (p ++ (literalOf h.toNat label ++ h :: s)) =
        p ++ literalOf h.toNat label ++ s := by
      rw [← append_assoc, shown_append, shown_cons_of_hidden hhidden, ← shown_append]
      exact shown_eq_self hvisible
    have hall : ∀ t : Str, (∀ d ∈ t, d = h ∨ d ∈ p ++ literalOf h.toNat label ++ s) →
        ∀ d ∈ t, ¬ UntreatedTag d := by
      intro t ht d hd huntreated
      rcases ht d hd with rfl | hmem
      · exact htreated huntreated
      · exact hvisible d hmem (hidden_of_untreatedTag huntreated)
    have hne :
        p ++ h :: (literalOf h.toNat label ++ s) ≠ p ++ (literalOf h.toNat label ++ h :: s) := by
      intro heq
      have hhead := (List.cons.inj (append_cancel_left heq)).1
      rw [hhead] at hhidden
      exact not_hidden_of_printable (by decide) hhidden
    refine hapart _ _ (hall _ fun d hd ↦ ?_) (hall _ fun d hd ↦ ?_) hshownBefore hshownBehind hne
      (congrArg shown (defang_swap hhidden hclassify))
    · simp only [mem_append, mem_cons] at hd ⊢
      tauto
    · simp only [mem_append, mem_cons] at hd ⊢
      tauto
  · intro hliteral text text' htext htext' hshown hshown' hne hsame
    rw [hself text htext, hself text' htext', defang, defang, defangWith_fst,
      defangWith_fst] at hsame
    exact hne (eq_of_copyFrom_eq rfl rfl htext htext' (hshown ▸ hliteral)
      (hshown.trans hshown'.symm) hsame)

theorem not_hidden_of_mem_shown (hc : c ∈ shown text) : ¬ Hidden c := by
  simpa using (List.mem_filter.mp hc).2

/-- **Hidden characters do not pass** just when the text has none of the tags that no class covers, and
they are told apart just when the visible text has no literal of its own. -/
theorem defang_hides_nothing_iff (alnum : Alphanumeric) (text : Str) :
    ((∀ c ∈ (defang alnum text).1, ¬ Hidden c) ↔ ∀ c ∈ text, ¬ UntreatedTag c) ∧
      (ToldApart alnum (shown text) ↔ ¬ HasLiteral (shown text)) :=
  ⟨not_hidden_defang_iff alnum text, toldApart_iff alnum fun _ ↦ not_hidden_of_mem_shown⟩

/-- A tag that no class covers passes. -/
theorem hidden_passes : ¬ (∀ (alnum : Alphanumeric) (text : Str),
    (∀ c ∈ (defang alnum text).1, ¬ Hidden c) ∧ ToldApart alnum (shown text)) := by
  intro hall
  have hnone := (hall sampleAlphanumeric [Char.ofNat 0xE0002]).1
  have huntreated : UntreatedTag (Char.ofNat 0xE0002) := by decide
  refine (not_hidden_defang_iff sampleAlphanumeric _).mp hnone _ mem_cons_self huntreated

end SoulSystem.Ccos.Sanitizer
