import SoulSystem.Ccos.Sanitizer.Scan

/-!
# The copy of a text

Both passes of a scan, the sort by byte offset and the walk that replaces come down to one
annotation of the characters from left to right, which knows whether the token so far has a Latin
letter and looks ahead for one in the rest of the token.
-/

namespace SoulSystem.Ccos.Sanitizer

open Library Str Std List

section Annotation

variable (alnum : Alphanumeric)

/-! ## The annotation from left to right -/

/-- Whether the rest of a token has a Latin letter. -/
def latinAhead (rest : Str) : Bool := (rest.takeWhile (isTokenChar alnum)).any Char.isAlpha

/-- Whether the token so far has a Latin letter, after one more character. -/
def latinAfter (seen : Bool) (c : Char) : Bool := isTokenChar alnum c && (seen || c.isAlpha)

/-- What is found in a look-alike whose token has a Latin letter. -/
def lookAlike (seen : Bool) (c : Char) (rest : Str) : Option (AnomalyKind × Str) :=
  if isTokenChar alnum c = true ∧ (seen || latinAhead alnum rest) = true then
    (confusableSkeleton c).map fun skel ↦ (.confusable, skeletonLabel skel)
  else none

/-- What is found in a character. -/
def note (cfg : SanitizerConfig) (seen : Bool) (c : Char) (rest : Str) :
    Option (AnomalyKind × Str) :=
  (classify c cfg).or (lookAlike alnum seen c rest)

/-- The finding for what is found in a character. -/
def located (charIndex byteOffset : ℕ) (c : Char) (found : Option (AnomalyKind × Str)) :
    List Finding :=
  (found.map fun (kind, label) ↦ ⟨byteOffset, charIndex, c.toNat, kind, label⟩).toList

def lookAlikesFrom : Bool → ℕ → ℕ → Str → List Finding
  | _, _, _, [] => []
  | seen, i, o, c :: rest => located i o c (lookAlike alnum seen c rest) ++
      lookAlikesFrom (latinAfter alnum seen c) (i + 1) (o + c.utf8Size) rest

def findingsFrom (cfg : SanitizerConfig) : Bool → ℕ → ℕ → Str → List Finding
  | _, _, _, [] => []
  | seen, i, o, c :: rest => located i o c (note alnum cfg seen c rest) ++
      findingsFrom cfg (latinAfter alnum seen c) (i + 1) (o + c.utf8Size) rest

/-- What stands for a character in the copy. -/
def emit (action : Action) (c : Char) : Option (AnomalyKind × Str) → Str
  | none => [c]
  | some (_, label) =>
    match action with
    | .surface => literalOf c.toNat label
    | .strip => []
    | .keep => [c]

/-- The copy of a text. -/
def copyFrom (cfg : SanitizerConfig) : Bool → Str → Str
  | _, [] => []
  | seen, c :: rest => emit cfg.action c (note alnum cfg seen c rest) ++
      copyFrom cfg (latinAfter alnum seen c) rest

end Annotation

variable {alnum : Alphanumeric} {cfg : SanitizerConfig} {c : Char} {rest : Str} {seen : Bool}
  {i o : ℕ}

/-! ## Tokens -/

theorem latinAhead_cons : latinAhead alnum (c :: rest) =
    (isTokenChar alnum c && (c.isAlpha || latinAhead alnum rest)) := by
  cases htoken : isTokenChar alnum c with
  | true =>
    rw [latinAhead, takeWhile_cons_of_pos htoken, any_cons, Bool.true_and, latinAhead]
  | false =>
    rw [latinAhead, takeWhile_cons_of_neg (Bool.not_eq_true _ ▸ htoken), any_nil,
      Bool.false_and]

theorem lookAlike_of_none (hskel : confusableSkeleton c = none) :
    lookAlike alnum seen c rest = none := by
  rw [lookAlike, hskel, Option.map_none, ite_self]

theorem lookAlike_of_not_token (htoken : isTokenChar alnum c = false) :
    lookAlike alnum seen c rest = none := by
  rw [lookAlike, htoken, if_neg fun h ↦ nomatch h.1]

/-- What the walk over the tokens finds from a state on. -/
theorem out_foldl_visit (s : TokenScan) :
    ((indexedFrom i o rest).foldl (TokenScan.visit alnum) s).flush.out =
      s.out ++ (if (s.hasAsciiLatin || latinAhead alnum rest) = true then
        s.confusables.map confusableFinding else []) ++
        lookAlikesFrom alnum s.hasAsciiLatin i o rest := by
  induction rest generalizing s i o with
  | nil =>
    cases hlatin : s.hasAsciiLatin with
    | true => simp [indexedFrom, TokenScan.flush, latinAhead, lookAlikesFrom, hlatin]
    | false => simp [indexedFrom, TokenScan.flush, latinAhead, lookAlikesFrom, hlatin]
  | cons c rest ih =>
    rw [indexedFrom, foldl_cons, ih, latinAhead_cons, lookAlikesFrom, latinAfter]
    cases htoken : isTokenChar alnum c with
    | false =>
      rw [lookAlike_of_not_token htoken]
      simp only [TokenScan.visit, htoken, TokenScan.flush, located]
      cases s.hasAsciiLatin <;> simp
    | true =>
      cases halpha : c.isAlpha with
      | true =>
        have hskel := (plain_of_isAlpha halpha).2
        rw [lookAlike_of_none hskel]
        simp [TokenScan.visit, htoken, halpha, hskel, located]
      | false =>
        cases hskel : confusableSkeleton c with
        | none =>
          rw [lookAlike_of_none hskel]
          simp [TokenScan.visit, htoken, halpha, hskel, located]
        | some skel =>
          by_cases hlatin : s.hasAsciiLatin = true ∨ latinAhead alnum rest = true
          · simp [TokenScan.visit, htoken, halpha, hskel, located, lookAlike,
              confusableFinding, hlatin]
          · simp [TokenScan.visit, htoken, halpha, hskel, located, lookAlike, hlatin]

theorem scanConfusables_eq (input : Str) :
    scanConfusables alnum input = lookAlikesFrom alnum false 0 0 input := by
  rw [scanConfusables, out_foldl_visit]
  simp

/-! ## The findings in the order of the text -/

theorem findings_foldl_add (report : ScanReport) (fs : List Finding) :
    (fs.foldl ScanReport.add report).findings = report.findings ++ fs := by
  induction fs generalizing report with
  | nil => exact (append_nil _).symm
  | cons f fs ih =>
    rw [foldl_cons, ih, ScanReport.add, append_assoc, singleton_append]

theorem findings_foldl_classified (report : ScanReport) (entries : List (ℕ × ℕ × Char)) :
    (entries.foldl (ScanReport.visit cfg) report).findings =
      report.findings ++ entries.filterMap (classified cfg) := by
  induction entries generalizing report with
  | nil => exact (append_nil _).symm
  | cons entry entries ih =>
    rw [foldl_cons, ih, filterMap_cons, ScanReport.visit]
    cases classified cfg entry with
    | none => rfl
    | some f => exact append_assoc _ [f] _

theorem classified_eq : classified cfg (i, o, c) = (classify c cfg).map fun (kind, label) ↦
    ⟨o, i, c.toNat, kind, label⟩ := rfl

/-- Every finding is of one of the two kinds. -/
theorem findingsFrom_perm : (findingsFrom alnum cfg seen i o rest).Perm
    ((indexedFrom i o rest).filterMap (classified cfg) ++ lookAlikesFrom alnum seen i o rest) := by
  induction rest generalizing seen i o with
  | nil => exact List.Perm.refl _
  | cons c rest ih =>
    rw [findingsFrom, indexedFrom, lookAlikesFrom, note, filterMap_cons, classified_eq]
    cases hfound : classify c cfg with
    | none =>
      rw [Option.none_or]
      exact (ih.append_left _).trans (perm_append_comm_assoc _ _ _)
    | some found =>
      rw [lookAlike_of_none (confusableSkeleton_of_classify hfound)]
      exact ih.cons _

theorem le_byteOffset {f : Finding} (hf : f ∈ findingsFrom alnum cfg seen i o rest) :
    o ≤ f.byteOffset := by
  induction rest generalizing seen i o with
  | nil => exact absurd hf not_mem_nil
  | cons c rest ih =>
    rw [findingsFrom, mem_append, located, Option.mem_toList, Option.map_eq_some_iff] at hf
    rcases hf with ⟨found, -, rfl⟩ | hf
    · exact le_rfl
    · exact (Nat.le_add_right o c.utf8Size).trans (ih hf)

/-- The findings are in the order of their byte offsets. -/
theorem findingsFrom_pairwise :
    (findingsFrom alnum cfg seen i o rest).Pairwise fun f g ↦ f.byteOffset < g.byteOffset := by
  induction rest generalizing seen i o with
  | nil => exact List.Pairwise.nil
  | cons c rest ih =>
    rw [findingsFrom, located]
    cases note alnum cfg seen c rest with
    | none => exact ih
    | some found =>
      refine List.Pairwise.cons (fun g hg ↦ ?_) ih
      exact Nat.lt_of_lt_of_le (Nat.lt_add_of_pos_right c.utf8Size_pos) (le_byteOffset hg)

theorem scanWith_findings (input : Str) :
    (scanWith alnum input cfg).findings = findingsFrom alnum cfg false 0 0 input := by
  have hperm : (scanWith alnum input cfg).findings.Perm
      (findingsFrom alnum cfg false 0 0 input) := by
    rw [scanWith]
    dsimp only
    rw [findings_foldl_add, findings_foldl_classified, scanConfusables_eq, nil_append]
    exact (mergeSort_perm _ _).trans findingsFrom_perm.symm
  have hsorted : (scanWith alnum input cfg).findings.Pairwise
      fun f g ↦ f.byteOffset ≤ g.byteOffset := by
    refine (pairwise_mergeSort (fun f g k hfg hgk ↦ ?_) (fun f g ↦ ?_) _).imp
      of_decide_eq_true
    · exact decide_eq_true (Nat.le_trans (of_decide_eq_true hfg) (of_decide_eq_true hgk))
    · rw [Bool.or_eq_true, decide_eq_true_iff, decide_eq_true_iff]
      exact Nat.le_total _ _
  have hstrict := @findingsFrom_pairwise alnum cfg input false 0 0
  refine List.Perm.eq_of_pairwise (fun f g hf hg hfg hgf ↦ ?_) hsorted
    (hstrict.imp fun hlt ↦ hlt.le) hperm
  have hnodup : ((findingsFrom alnum cfg false 0 0 input).map Finding.byteOffset).Nodup :=
    List.pairwise_map.mpr (hstrict.imp fun hlt ↦ hlt.ne)
  exact inj_on_of_nodup_map hnodup (hperm.mem_iff.mp hf) hg (Nat.le_antisymm hfg hgf)

/-! ## The walk that replaces -/

theorem rebuild_of_drop {findings : List Finding} {action : Action} {out : Str} {next : ℕ}
    {found : Option (AnomalyKind × Str)} {later : List Finding}
    (hdrop : findings.drop next = located i o c found ++ later)
    (hlater : ∀ f ∈ later, o < f.byteOffset) :
    ∃ next', rebuild findings action (out, next) (i, o, c) = (out ++ emit action c found, next') ∧
      findings.drop next' = later := by
  cases found with
  | none =>
    refine ⟨next, ?_, hdrop⟩
    rw [rebuild, ← head?_drop, hdrop]
    cases later with
    | nil => rfl
    | cons f later => exact if_neg (Nat.ne_of_gt (hlater f mem_cons_self))
  | some found =>
    refine ⟨next + 1, ?_, ?_⟩
    · rw [rebuild, ← head?_drop, hdrop]
      refine (if_pos rfl).trans ?_
      cases action <;> rfl
    · rw [← tail_drop, hdrop]
      rfl

/-- The walk that replaces copies the text by its annotation. -/
theorem foldl_rebuild {findings : List Finding} {out : Str} {next : ℕ}
    (hdrop : findings.drop next = findingsFrom alnum cfg seen i o rest) :
    ((indexedFrom i o rest).foldl (rebuild findings cfg.action) (out, next)).1 =
      out ++ copyFrom alnum cfg seen rest := by
  induction rest generalizing seen i o out next with
  | nil => exact (append_nil out).symm
  | cons c rest ih =>
    have hlater : ∀ f ∈ findingsFrom alnum cfg (latinAfter alnum seen c) (i + 1)
        (o + c.utf8Size) rest, o < f.byteOffset := fun f hf ↦
      Nat.lt_of_lt_of_le (Nat.lt_add_of_pos_right c.utf8Size_pos) (le_byteOffset hf)
    obtain ⟨next', hstep, hnext⟩ := rebuild_of_drop hdrop hlater
    rw [indexedFrom, foldl_cons, hstep, ih hnext, copyFrom, append_assoc]

/-- A text in which nothing is found is its own copy. -/
theorem copyFrom_of_clean (hclean : findingsFrom alnum cfg seen i o rest = []) :
    copyFrom alnum cfg seen rest = rest := by
  induction rest generalizing seen i o with
  | nil => rfl
  | cons c rest ih =>
    rw [findingsFrom, append_eq_nil_iff, located] at hclean
    rw [copyFrom, ih hclean.2]
    cases hnote : note alnum cfg seen c rest with
    | none => rfl
    | some found =>
      rw [hnote] at hclean
      exact nomatch hclean.1

theorem copyFrom_of_keep (hkeep : cfg.action = .keep) : copyFrom alnum cfg seen rest = rest := by
  induction rest generalizing seen with
  | nil => rfl
  | cons c rest ih =>
    rw [copyFrom, ih, hkeep]
    cases note alnum cfg seen c rest <;> rfl

/-- **The copy.**  The text that defanging gives is the text with what stands for each character. -/
theorem defangWith_fst (input : Str) :
    (defangWith alnum input cfg).1 = copyFrom alnum cfg false input := by
  rw [defangWith, scanWith_findings]
  split_ifs with hkept
  · cases hkept with
    | inl hclean => exact (copyFrom_of_clean hclean).symm
    | inr hkeep => exact (copyFrom_of_keep hkeep).symm
  · exact (foldl_rebuild rfl).trans (nil_append _)

/-! ## Clean texts -/

/-- Nothing is found in the rest of a text. -/
def Clean (alnum : Alphanumeric) (cfg : SanitizerConfig) : Bool → Str → Prop
  | _, [] => True
  | seen, c :: rest =>
    note alnum cfg seen c rest = none ∧ Clean alnum cfg (latinAfter alnum seen c) rest

theorem findingsFrom_eq_nil_iff :
    findingsFrom alnum cfg seen i o rest = [] ↔ Clean alnum cfg seen rest := by
  induction rest generalizing seen i o with
  | nil => exact iff_of_true rfl trivial
  | cons c rest ih =>
    rw [findingsFrom, append_eq_nil_iff, ih, Clean, located, Option.toList_eq_nil_iff,
      Option.map_eq_none_iff]

theorem scanWith_eq_nil_iff (input : Str) :
    (scanWith alnum input cfg).findings = [] ↔ Clean alnum cfg false input := by
  rw [scanWith_findings, findingsFrom_eq_nil_iff]

theorem copyFrom_of_Clean (hclean : Clean alnum cfg seen rest) :
    copyFrom alnum cfg seen rest = rest :=
  copyFrom_of_clean (findingsFrom_eq_nil_iff.mpr hclean : findingsFrom alnum cfg seen 0 0 rest = [])

/-! ### What defanging leaves alone -/

theorem copyFrom_sublist (hstrip : cfg.action = .strip) :
    copyFrom alnum cfg seen rest <+ rest := by
  induction rest generalizing seen with
  | nil => exact .refl _
  | cons c rest ih =>
    rw [copyFrom, hstrip]
    cases note alnum cfg seen c rest with
    | none => exact ih.cons_cons c
    | some found => exact ih.cons c

theorem lookAlike_eq_none_iff : lookAlike alnum seen c rest = none ↔
    (isTokenChar alnum c = true → (confusableSkeleton c).isSome →
      (seen || latinAhead alnum rest) = false) := by
  rw [lookAlike]
  cases isTokenChar alnum c <;> cases confusableSkeleton c <;>
    cases seen || latinAhead alnum rest <;> simp

theorem note_eq_none_iff : note alnum cfg seen c rest = none ↔
    classify c cfg = none ∧ lookAlike alnum seen c rest = none := Option.or_eq_none_iff

theorem note_of_plain (hplain : Plain c) : note alnum cfg seen c rest = none :=
  note_eq_none_iff.mpr ⟨hplain.1 cfg, lookAlike_of_none hplain.2⟩

/-- No Latin letter is ever found. -/
theorem not_isAlpha_of_note {found : AnomalyKind × Str}
    (hnote : note alnum cfg seen c rest = some found) : c.isAlpha = false := by
  cases halpha : c.isAlpha with
  | false => rfl
  | true => exact nomatch (note_of_plain (plain_of_isAlpha halpha)).symm.trans hnote

/-- A label is printable whatever is found. -/
theorem isLabel_of_note {kind : AnomalyKind} {label : Str}
    (hnote : note alnum cfg seen c rest = some (kind, label)) : IsLabel label := by
  rw [note, Option.or_eq_some_iff] at hnote
  rcases hnote with hfound | ⟨-, hfound⟩
  · exact isLabel_of_classify hfound
  · rw [lookAlike] at hfound
    split_ifs at hfound
    obtain ⟨skel, hskel, heq⟩ := Option.map_eq_some_iff.mp hfound
    cases heq
    exact isLabel_skeletonLabel hskel

end SoulSystem.Ccos.Sanitizer
