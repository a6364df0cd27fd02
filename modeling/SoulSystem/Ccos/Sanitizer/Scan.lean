import Mathlib
import SoulSystem.Library.Ascii
import SoulSystem.Library.SortedMap

/-!
# The scan for hidden characters

A scan finds the hidden characters of a text one by one, and the look-alikes of Latin letters in
tokens that also have a Latin letter.  Defanging replaces what was found by a visible literal or
removes it.

Both passes over the text, the sort by byte offset and the walk that replaces come down to one
annotation of the characters from left to right, which knows whether the token so far has a Latin
letter and looks ahead for one in the rest of the token.
-/

namespace SoulSystem.Ccos.Sanitizer

open Library Str Std List

/-! ## Data model -/

inductive AnomalyKind where
  | bidiControl
  | tagChar
  | zeroWidth
  | control
  | otherFormat
  | confusable
  deriving DecidableEq, Repr

def AnomalyKind.asStr : AnomalyKind → Str
  | bidiControl => "bidi-control".toList
  | tagChar => "tag-char".toList
  | zeroWidth => "zero-width".toList
  | control => "control".toList
  | otherFormat => "other-format".toList
  | confusable => "confusable".toList

structure Finding where
  byteOffset : ℕ
  charIndex : ℕ
  codepoint : ℕ
  kind : AnomalyKind
  label : Str
  deriving DecidableEq

def hexDigit (d : ℕ) : Char := if d < 10 then Char.ofNat (48 + d) else Char.ofNat (55 + d)

/-- `{:04X}`. -/
def upperHex (n : ℕ) : Str :=
  let digits := (Nat.digits 16 n).map hexDigit
  (digits ++ List.replicate (4 - digits.length) '0').reverse

/-- The visible literal of a character. -/
def literalOf (codepoint : ℕ) (label : Str) : Str :=
  '[' :: 'U' :: '+' :: (upperHex codepoint ++ ' ' :: (label ++ [']']))

def Finding.literal (f : Finding) : Str := literalOf f.codepoint f.label

/-- The findings in the order of the text, and how many there are of each kind. -/
structure ScanReport where
  findings : List Finding
  counts : ExtTreeMap Str ℕ

inductive Action where
  | surface
  | strip
  | keep
  deriving DecidableEq, Repr

structure SanitizerConfig where
  action : Action
  allowTab : Bool
  allowNewline : Bool
  deriving DecidableEq

def SanitizerConfig.default : SanitizerConfig where
  action := .surface
  allowTab := true
  allowNewline := true

/-! ## Classes of characters -/

def controlNames : List String :=
  ["NUL", "SOH", "STX", "ETX", "EOT", "ENQ", "ACK", "BEL", "BS", "HT", "LF", "VT", "FF", "CR", "SO",
    "SI", "DLE", "DC1", "DC2", "DC3", "DC4", "NAK", "SYN", "ETB", "CAN", "EM", "SUB", "ESC", "FS",
    "GS", "RS", "US"]

def controlName (cp : ℕ) : Str :=
  match controlNames[cp]? with
  | some name => name.toList
  | none => if cp = 0x7F then "DEL".toList else "C1".toList

def bidiNames : List (ℕ × String) :=
  [(0x202A, "LRE"), (0x202B, "RLE"), (0x202C, "PDF"), (0x202D, "LRO"), (0x202E, "RLO"),
    (0x2066, "LRI"), (0x2067, "RLI"), (0x2068, "FSI"), (0x2069, "PDI"), (0x200E, "LRM"),
    (0x200F, "RLM"), (0x061C, "ALM")]

def zeroWidthNames : List (ℕ × String) :=
  [(0x200B, "ZWSP"), (0x200C, "ZWNJ"), (0x200D, "ZWJ"), (0x2060, "WJ"), (0xFEFF, "BOM"),
    (0x00AD, "SHY"), (0x180E, "MVS")]

/-- The Unicode Tags block, whose characters from U+E0020 to U+E007E shadow printable ASCII. -/
def tagLabel (cp : ℕ) : Option Str :=
  if cp = 0xE0001 then some "TAG:LANG".toList
  else if cp = 0xE007F then some "TAG:END".toList
  else if 0xE0020 ≤ cp ∧ cp ≤ 0xE007E then some ("TAG:".toList ++ [Char.ofNat (cp - 0xE0000)])
  else if cp = 0xE0000 ∨ (0xE0080 ≤ cp ∧ cp ≤ 0xE00FF) then some "TAG".toList
  else none

def otherLabel (cp : ℕ) : Option Str :=
  if 0x2061 ≤ cp ∧ cp ≤ 0x2064 then some "INVIS-MATH".toList
  else if 0xFFF9 ≤ cp ∧ cp ≤ 0xFFFB then some "ANNOT".toList
  else if cp = 0x115F ∨ cp = 0x1160 ∨ cp = 0x3164 ∨ cp = 0xFFA0 then some "HANGUL-FILLER".toList
  else if 0xFE00 ≤ cp ∧ cp ≤ 0xFE0F then some "VS".toList
  else if 0xE0100 ≤ cp ∧ cp ≤ 0xE01EF then some "VS-SUPP".toList
  else if cp = 0x2028 ∨ cp = 0x2029 then some "LINE-SEP".toList
  else none

/-- Classify a single character, which is an anomaly or ordinary. -/
def classify (c : Char) (cfg : SanitizerConfig) : Option (AnomalyKind × Str) :=
  let cp := c.toNat
  if cp = 0x09 ∧ cfg.allowTab = true then none
  else if (cp = 0x0A ∨ cp = 0x0D) ∧ cfg.allowNewline = true then none
  else if cp ≤ 0x1F ∨ (0x7F ≤ cp ∧ cp ≤ 0x9F) then some (.control, controlName cp)
  else
    ((bidiNames.lookup cp).map fun name ↦ (.bidiControl, name.toList)) <|>
      ((zeroWidthNames.lookup cp).map fun name ↦ (.zeroWidth, name.toList)) <|>
      ((tagLabel cp).map fun label ↦ (.tagChar, label)) <|>
      (otherLabel cp).map fun label ↦ (.otherFormat, label)

/-- The Latin letters that Cyrillic and Greek letters look like. -/
def skeletons : List (ℕ × Char) :=
  [(0x0430, 'a'), (0x0435, 'e'), (0x043E, 'o'), (0x0440, 'p'), (0x0441, 'c'), (0x0443, 'y'),
    (0x0445, 'x'), (0x0456, 'i'), (0x0455, 's'), (0x0458, 'j'), (0x04BB, 'h'), (0x0410, 'A'),
    (0x0412, 'B'), (0x0415, 'E'), (0x041A, 'K'), (0x041C, 'M'), (0x041D, 'H'), (0x041E, 'O'),
    (0x0420, 'P'), (0x0421, 'C'), (0x0422, 'T'), (0x0423, 'Y'), (0x0425, 'X'), (0x03BF, 'o'),
    (0x03B1, 'a'), (0x03C1, 'p'), (0x03BD, 'v'), (0x0391, 'A'), (0x039F, 'O'), (0x03A1, 'P'),
    (0x0392, 'B'), (0x0397, 'H'), (0x039A, 'K'), (0x03A4, 'T'), (0x03A7, 'X')]

def confusableSkeleton (c : Char) : Option Char := skeletons.lookup c.toNat

def skeletonLabel (skel : Char) : Str := [Char.ofNat 0x2192, skel]

/-! ### The classes that are closed -/

def IsBidiControl (c : Char) : Prop :=
  (0x202A ≤ c.toNat ∧ c.toNat ≤ 0x202E) ∨ (0x2066 ≤ c.toNat ∧ c.toNat ≤ 0x2069) ∨
    c.toNat = 0x200E ∨ c.toNat = 0x200F ∨ c.toNat = 0x061C

def IsZeroWidth (c : Char) : Prop :=
  c.toNat = 0x200B ∨ c.toNat = 0x200C ∨ c.toNat = 0x200D ∨ c.toNat = 0x2060 ∨ c.toNat = 0xFEFF ∨
    c.toNat = 0x00AD ∨ c.toNat = 0x180E

def IsTag (c : Char) : Prop := 0xE0000 ≤ c.toNat ∧ c.toNat ≤ 0xE007F

/-- A control other than tab and newlines. -/
def IsControl (c : Char) : Prop :=
  (c.toNat ≤ 0x1F ∨ (0x7F ≤ c.toNat ∧ c.toNat ≤ 0x9F)) ∧
    c.toNat ≠ 0x09 ∧ c.toNat ≠ 0x0A ∧ c.toNat ≠ 0x0D

instance : DecidablePred IsBidiControl := fun c ↦ by unfold IsBidiControl; infer_instance
instance : DecidablePred IsZeroWidth := fun c ↦ by unfold IsZeroWidth; infer_instance
instance : DecidablePred IsTag := fun c ↦ by unfold IsTag; infer_instance
instance : DecidablePred IsControl := fun c ↦ by unfold IsControl; infer_instance

def Hidden (c : Char) : Prop := IsBidiControl c ∨ IsZeroWidth c ∨ IsTag c ∨ IsControl c

instance : DecidablePred Hidden := fun c ↦ by unfold Hidden; infer_instance

/-- `char::is_alphanumeric`, known for ASCII and for hidden characters. -/
structure Alphanumeric where
  holds : Char → Bool
  ascii : ∀ c, isAscii c = true → holds c = c.isAlphanum
  hidden : ∀ c, Hidden c → holds c = false

section Scanning

variable (alnum : Alphanumeric)

def isTokenChar (c : Char) : Bool := alnum.holds c || c == '.' || c == '-' || c == '_'

/-! ## The passes -/

/-- `char_indices().enumerate()`, from a number of characters and bytes on. -/
def indexedFrom : ℕ → ℕ → Str → List (ℕ × ℕ × Char)
  | _, _, [] => []
  | charIndex, byteOffset, c :: rest =>
    (charIndex, byteOffset, c) :: indexedFrom (charIndex + 1) (byteOffset + c.utf8Size) rest

/-- The state of the walk over the tokens: whether the token has a Latin letter, its look-alikes,
and the findings of the tokens before. -/
structure TokenScan where
  hasAsciiLatin : Bool
  confusables : List (ℕ × ℕ × Char × Char)
  out : List Finding

/-- The finding for a look-alike. -/
def confusableFinding : ℕ × ℕ × Char × Char → Finding
  | (byteOffset, charIndex, c, skel) =>
    ⟨byteOffset, charIndex, c.toNat, .confusable, skeletonLabel skel⟩

/-- The end of a token. -/
def TokenScan.flush (s : TokenScan) : TokenScan where
  hasAsciiLatin := false
  confusables := []
  out := if s.hasAsciiLatin = true then s.out ++ s.confusables.map confusableFinding else s.out

def TokenScan.visit (s : TokenScan) : ℕ × ℕ × Char → TokenScan
  | (charIndex, byteOffset, c) =>
    if isTokenChar alnum c = true then
      let s := if c.isAlpha = true then { s with hasAsciiLatin := true } else s
      match confusableSkeleton c with
      | some skel =>
        { s with confusables := s.confusables ++ [(byteOffset, charIndex, c, skel)] }
      | none => s
    else s.flush

/-- Look-alikes in tokens that also have a Latin letter. -/
def scanConfusables (input : Str) : List Finding :=
  ((indexedFrom 0 0 input).foldl (TokenScan.visit alnum) ⟨false, [], []⟩).flush.out

def ScanReport.add (report : ScanReport) (f : Finding) : ScanReport where
  findings := report.findings ++ [f]
  counts := report.counts.insert f.kind.asStr (report.counts.getD f.kind.asStr 0 + 1)

/-- The finding for a hidden character. -/
def classified (cfg : SanitizerConfig) : ℕ × ℕ × Char → Option Finding
  | (charIndex, byteOffset, c) => (classify c cfg).map fun (kind, label) ↦
      ⟨byteOffset, charIndex, c.toNat, kind, label⟩

def ScanReport.visit (cfg : SanitizerConfig) (report : ScanReport) (entry : ℕ × ℕ × Char) :
    ScanReport :=
  match classified cfg entry with
  | some f => report.add f
  | none => report

/-- Detect hidden characters. -/
def scanWith (input : Str) (cfg : SanitizerConfig) : ScanReport :=
  let report := (indexedFrom 0 0 input).foldl (ScanReport.visit cfg) ⟨[], ∅⟩
  let report := (scanConfusables alnum input).foldl ScanReport.add report
  { report with findings := report.findings.mergeSort fun f g ↦ f.byteOffset ≤ g.byteOffset }

/-- What a finding is replaced by. -/
def replacement (action : Action) (f : Finding) (c : Char) : Str :=
  match action with
  | .surface => f.literal
  | .strip => []
  | .keep => [c]

/-- One character of the walk that rebuilds the text, with the next finding to come. -/
def rebuild (findings : List Finding) (action : Action) (state : Str × ℕ) :
    ℕ × ℕ × Char → Str × ℕ
  | (_, byteOffset, c) =>
    match findings[state.2]? with
    | some f =>
      if f.byteOffset = byteOffset then (state.1 ++ replacement action f c, state.2 + 1)
      else (state.1 ++ [c], state.2)
    | none => (state.1 ++ [c], state.2)

/-- A de-obfuscated copy and the scan report. -/
def defangWith (input : Str) (cfg : SanitizerConfig) : Str × ScanReport :=
  let report := scanWith alnum input cfg
  if report.findings = [] ∨ cfg.action = .keep then (input, report)
  else (((indexedFrom 0 0 input).foldl (rebuild report.findings cfg.action) ([], 0)).1, report)

def defang (input : Str) : Str × ScanReport := defangWith alnum input .default

end Scanning

/-! ## The classes are disjoint -/

section Classes

variable {alnum : Alphanumeric} {c : Char} {cfg : SanitizerConfig} {kind : AnomalyKind}
  {label : Str}

theorem mem_of_lookup {α : Type} {table : List (ℕ × α)} {n : ℕ} {a : α}
    (hlookup : table.lookup n = some a) : (n, a) ∈ table := by
  obtain ⟨before, after, rfl, -⟩ := List.lookup_eq_some_iff.mp hlookup
  exact mem_append_right before mem_cons_self

/-- What is found in a hidden character: a control, a named character, or one of a block. -/
theorem classify_eq_some (hfound : classify c cfg = some (kind, label)) :
    ((c.toNat ≤ 0x1F ∨ (0x7F ≤ c.toNat ∧ c.toNat ≤ 0x9F)) ∧ label = controlName c.toNat) ∨
      (∃ name, label = name.toList ∧ (c.toNat, name) ∈ bidiNames ++ zeroWidthNames) ∨
      tagLabel c.toNat = some label ∨ otherLabel c.toNat = some label := by
  unfold classify at hfound
  dsimp only at hfound
  split_ifs at hfound with _ _ hcontrol
  · cases hfound
    exact Or.inl ⟨hcontrol, rfl⟩
  · right
    cases hbidi : bidiNames.lookup c.toNat with
    | some name =>
      rw [hbidi] at hfound
      cases hfound
      exact Or.inl ⟨name, rfl, mem_append_left _ (mem_of_lookup hbidi)⟩
    | none =>
      cases hzero : zeroWidthNames.lookup c.toNat with
      | some name =>
        rw [hbidi, hzero] at hfound
        cases hfound
        exact Or.inl ⟨name, rfl, mem_append_right _ (mem_of_lookup hzero)⟩
      | none =>
        rw [hbidi, hzero] at hfound
        cases htag : tagLabel c.toNat with
        | some label' =>
          rw [htag] at hfound
          cases hfound
          exact Or.inr (Or.inl rfl)
        | none =>
          rw [htag] at hfound
          cases hother : otherLabel c.toNat with
          | some label' =>
            rw [hother] at hfound
            cases hfound
            exact Or.inr (Or.inr rfl)
          | none =>
            rw [hother] at hfound
            cases hfound

theorem tagLabel_eq_some {cp : ℕ} (hlabel : tagLabel cp = some label) :
    0xE0000 ≤ cp ∧ (label ∈ ["TAG:LANG".toList, "TAG:END".toList, "TAG".toList] ∨
      (0xE0020 ≤ cp ∧ cp ≤ 0xE007E ∧ label = "TAG:".toList ++ [Char.ofNat (cp - 0xE0000)])) := by
  unfold tagLabel at hlabel
  split_ifs at hlabel with hlang hend hascii hother
  · cases hlabel
    exact ⟨by omega, Or.inl (by decide)⟩
  · cases hlabel
    exact ⟨by omega, Or.inl (by decide)⟩
  · cases hlabel
    exact ⟨by omega, Or.inr ⟨hascii.1, hascii.2, rfl⟩⟩
  · cases hlabel
    exact ⟨by omega, Or.inl (by decide)⟩

theorem otherLabel_eq_some {cp : ℕ} (hlabel : otherLabel cp = some label) :
    0x115F ≤ cp ∧ label ∈ ["INVIS-MATH".toList, "ANNOT".toList, "HANGUL-FILLER".toList,
      "VS".toList, "VS-SUPP".toList, "LINE-SEP".toList] := by
  unfold otherLabel at hlabel
  split_ifs at hlabel <;> cases hlabel <;> exact ⟨by omega, by decide⟩

/-- No hidden character is printable ASCII, and none is near the look-alikes. -/
theorem toNat_of_classify (hfound : classify c cfg = some (kind, label)) :
    c.toNat ≤ 0x1F ∨ (0x7F ≤ c.toNat ∧ c.toNat ≤ 0xAD) ∨ 0x61C ≤ c.toNat := by
  rcases classify_eq_some hfound with ⟨hcontrol, -⟩ | ⟨name, -, hname⟩ | htag | hother
  · omega
  · have hnames : ∀ entry ∈ bidiNames ++ zeroWidthNames, entry.1 = 0xAD ∨ 0x61C ≤ entry.1 := by
      decide
    have hcode := hnames _ hname
    dsimp only at hcode
    omega
  · have hle := (tagLabel_eq_some htag).1
    omega
  · have hle := (otherLabel_eq_some hother).1
    omega

theorem toNat_of_confusableSkeleton {skel : Char} (hskel : confusableSkeleton c = some skel) :
    0x391 ≤ c.toNat ∧ c.toNat ≤ 0x4BB := by
  have hrange : ∀ entry ∈ skeletons, 0x391 ≤ entry.1 ∧ entry.1 ≤ 0x4BB := by decide
  exact hrange _ (mem_of_lookup hskel)

theorem confusableSkeleton_eq_none (hcode : c.toNat < 0x391 ∨ 0x4BB < c.toNat) :
    confusableSkeleton c = none := by
  cases hskel : confusableSkeleton c with
  | none => rfl
  | some skel =>
    have hrange := toNat_of_confusableSkeleton hskel
    omega

theorem confusableSkeleton_of_classify (hfound : classify c cfg = some (kind, label)) :
    confusableSkeleton c = none := by
  have hcode := toNat_of_classify hfound
  exact confusableSkeleton_eq_none (by omega)

/-- A character in which nothing is ever found. -/
def Plain (c : Char) : Prop := (∀ cfg, classify c cfg = none) ∧ confusableSkeleton c = none

theorem plain_of_toNat (hcode : (0x20 ≤ c.toNat ∧ c.toNat ≤ 0x7E) ∨ c.toNat = 0x2192) :
    Plain c := by
  constructor
  · intro cfg
    cases hfound : classify c cfg with
    | none => rfl
    | some found =>
      rcases classify_eq_some hfound with ⟨hcontrol, -⟩ | ⟨name, -, hname⟩ | htag | hother
      · omega
      · have hnames : ∀ entry ∈ bidiNames ++ zeroWidthNames,
            0x7F ≤ entry.1 ∧ entry.1 ≠ 0x2192 := by decide
        have hcode := hnames _ hname
        dsimp only at hcode
        omega
      · have hle := (tagLabel_eq_some htag).1
        omega
      · unfold otherLabel at hother
        split_ifs at hother <;> omega
  · exact confusableSkeleton_eq_none (by omega)

theorem toNat_of_isAlpha (halpha : c.isAlpha = true) : 0x41 ≤ c.toNat ∧ c.toNat ≤ 0x7A := by
  simp only [Char.isAlpha, Char.isUpper, Char.isLower, Bool.or_eq_true, Bool.and_eq_true,
    decide_eq_true_eq, ge_iff_le, UInt32.le_iff_toNat_le] at halpha
  change _ ≤ c.val.toNat ∧ c.val.toNat ≤ _
  rcases halpha with ⟨hlow, hhigh⟩ | ⟨hlow, hhigh⟩
  · exact ⟨Nat.le_trans (by decide) hlow, Nat.le_trans hhigh (by decide)⟩
  · exact ⟨Nat.le_trans (by decide) hlow, Nat.le_trans hhigh (by decide)⟩

theorem toNat_of_isAlphanum (halnum : c.isAlphanum = true) :
    0x30 ≤ c.toNat ∧ c.toNat ≤ 0x7A := by
  rw [Char.isAlphanum, Bool.or_eq_true] at halnum
  cases halnum with
  | inl halpha =>
    have hcode := toNat_of_isAlpha halpha
    omega
  | inr hdigit =>
    simp only [Char.isDigit, Bool.and_eq_true, decide_eq_true_eq, ge_iff_le,
      UInt32.le_iff_toNat_le] at hdigit
    exact ⟨hdigit.1, Nat.le_trans hdigit.2 (by decide)⟩

theorem plain_of_isAlpha (halpha : c.isAlpha = true) : Plain c := by
  have hcode := toNat_of_isAlpha halpha
  exact plain_of_toNat (by omega)

end Classes

/-! ## Literals -/

section Literals

variable {c d : Char} {cfg : SanitizerConfig} {kind : AnomalyKind} {label label' rest rest' : Str}

theorem toNat_hexDigit : ∀ d < 16, (0x30 ≤ (hexDigit d).toNat ∧ (hexDigit d).toNat ≤ 0x39) ∨
    (0x41 ≤ (hexDigit d).toNat ∧ (hexDigit d).toNat ≤ 0x46) := by
  decide

/-- The value of a digit. -/
def hexValue (c : Char) : ℕ := if c.toNat ≤ 0x39 then c.toNat - 0x30 else c.toNat - 0x37

theorem hexValue_hexDigit : ∀ d < 16, hexValue (hexDigit d) = d := by
  decide

theorem map_hexValue_hexDigit {digits : List ℕ} (hdigits : ∀ d ∈ digits, d < 16) :
    (digits.map hexDigit).map hexValue = digits := by
  rw [map_map]
  exact (map_congr_left fun d hd ↦ hexValue_hexDigit d (hdigits d hd)).trans
    (map_id digits)

theorem upperHex_eq (n : ℕ) : ∃ zeros, upperHex n =
    ((Nat.digits 16 n ++ List.replicate zeros 0).map hexDigit).reverse := by
  refine ⟨4 - ((Nat.digits 16 n).map hexDigit).length, ?_⟩
  rw [upperHex, map_append, map_replicate]
  rfl

theorem lt_of_mem_padded {n zeros d : ℕ} (hd : d ∈ Nat.digits 16 n ++ List.replicate zeros 0) :
    d < 16 := by
  cases List.mem_append.mp hd with
  | inl hdigit => exact Nat.digits_lt_base (by decide) hdigit
  | inr hzero => exact (eq_of_mem_replicate hzero).trans_lt (by decide)

theorem upperHex_injective : Function.Injective upperHex := by
  intro n m heq
  obtain ⟨zeros, hn⟩ := upperHex_eq n
  obtain ⟨zeros', hm⟩ := upperHex_eq m
  rw [hn, hm, reverse_inj] at heq
  have hdigits := congrArg (List.map hexValue) heq
  rw [map_hexValue_hexDigit fun _ ↦ lt_of_mem_padded,
    map_hexValue_hexDigit fun _ ↦ lt_of_mem_padded] at hdigits
  have hvalue := congrArg (Nat.ofDigits 16) hdigits
  rwa [Nat.ofDigits_append_replicate_zero, Nat.ofDigits_append_replicate_zero,
    Nat.ofDigits_digits, Nat.ofDigits_digits] at hvalue

theorem toNat_of_mem_upperHex {n : ℕ} (hc : c ∈ upperHex n) :
    (0x30 ≤ c.toNat ∧ c.toNat ≤ 0x39) ∨ (0x41 ≤ c.toNat ∧ c.toNat ≤ 0x46) := by
  obtain ⟨zeros, hn⟩ := upperHex_eq n
  rw [hn, mem_reverse, mem_map] at hc
  obtain ⟨d, hd, rfl⟩ := hc
  exact toNat_hexDigit d (lt_of_mem_padded hd)

/-- Every opening bracket is followed by a closing one. -/
def Closed : Str → Prop
  | [] => True
  | c :: rest => (c = '[' → ∃ rest', rest = ']' :: rest') ∧ Closed rest

theorem closed_append_iff {a b : Str} (hopen : '[' ∉ a) : Closed (a ++ b) ↔ Closed b := by
  induction a with
  | nil => exact Iff.rfl
  | cons c a ih =>
    have hne : c ≠ '[' := fun heq ↦ hopen (heq ▸ mem_cons_self)
    have hrest : '[' ∉ a := fun hmem ↦ hopen (mem_cons_of_mem c hmem)
    rw [cons_append, Closed, ih hrest]
    exact and_iff_right fun heq ↦ absurd heq hne

/-- A label: printable, and closed within its literal. -/
structure IsLabel (label : Str) : Prop where
  printable : ∀ c ∈ label, (0x20 ≤ c.toNat ∧ c.toNat ≤ 0x7E) ∨ c.toNat = 0x2192
  closed : Closed (label ++ [']'])

theorem isLabel_of_notMem (hopen : '[' ∉ label)
    (hprintable : ∀ c ∈ label, (0x20 ≤ c.toNat ∧ c.toNat ≤ 0x7E) ∨ c.toNat = 0x2192) :
    IsLabel label where
  printable := hprintable
  closed := by
    rw [closed_append_iff hopen, Closed, Closed]
    exact ⟨fun heq ↦ absurd heq (by decide), trivial⟩

/-- The label of a tag, which may be any printable ASCII character. -/
theorem isLabel_tag {n : ℕ} (hlow : 0x20 ≤ n) (hhigh : n ≤ 0x7E) :
    IsLabel ("TAG:".toList ++ [Char.ofNat n]) where
  printable := by
    have hcode : (Char.ofNat n).toNat = n := by
      have hvalid : n.isValidChar := Or.inl (by omega)
      rw [Char.ofNat, dif_pos hvalid]
      rfl
    intro c hc
    cases List.mem_append.mp hc with
    | inl htag =>
      have hall : ∀ c ∈ "TAG:".toList, 0x20 ≤ c.toNat ∧ c.toNat ≤ 0x7E := by decide
      exact Or.inl (hall c htag)
    | inr hascii =>
      rw [List.mem_singleton.mp hascii, hcode]
      exact Or.inl ⟨hlow, hhigh⟩
  closed := by
    rw [append_assoc, closed_append_iff (by decide), singleton_append, Closed]
    refine ⟨fun _ ↦ ⟨[], rfl⟩, ?_⟩
    rw [Closed, Closed]
    exact ⟨fun heq ↦ absurd heq (by decide), trivial⟩

theorem isLabel_of_classify (hfound : classify c cfg = some (kind, label)) : IsLabel label := by
  rcases classify_eq_some hfound with ⟨-, rfl⟩ | ⟨name, rfl, hname⟩ | htag | hother
  · have hnames : ∀ name ∈ controlNames ++ ["DEL", "C1"], '[' ∉ name.toList ∧
        ∀ c ∈ name.toList, 0x20 ≤ c.toNat ∧ c.toNat ≤ 0x7E := by decide
    have hname : ∃ name ∈ controlNames ++ ["DEL", "C1"], controlName c.toNat = name.toList := by
      rw [controlName]
      split
      · next name hname => exact ⟨name, mem_append_left _ (mem_of_getElem? hname), rfl⟩
      · split
        · exact ⟨"DEL", by decide, rfl⟩
        · exact ⟨"C1", by decide, rfl⟩
    obtain ⟨name, hmem, hname⟩ := hname
    rw [hname]
    exact isLabel_of_notMem (hnames name hmem).1 fun c hc ↦ Or.inl ((hnames name hmem).2 c hc)
  · have hnames : ∀ entry ∈ bidiNames ++ zeroWidthNames, '[' ∉ entry.2.toList ∧
        ∀ c ∈ entry.2.toList, 0x20 ≤ c.toNat ∧ c.toNat ≤ 0x7E := by decide
    exact isLabel_of_notMem (hnames _ hname).1 fun c hc ↦ Or.inl ((hnames _ hname).2 c hc)
  · obtain ⟨-, hnamed | ⟨hlow, hhigh, rfl⟩⟩ := tagLabel_eq_some htag
    · have hall : ∀ label ∈ ["TAG:LANG".toList, "TAG:END".toList, "TAG".toList], '[' ∉ label ∧
          ∀ c ∈ label, 0x20 ≤ c.toNat ∧ c.toNat ≤ 0x7E := by decide
      exact isLabel_of_notMem (hall label hnamed).1 fun c hc ↦ Or.inl ((hall label hnamed).2 c hc)
    · exact isLabel_tag (by omega) (by omega)
  · have hall : ∀ label ∈ ["INVIS-MATH".toList, "ANNOT".toList, "HANGUL-FILLER".toList,
        "VS".toList, "VS-SUPP".toList, "LINE-SEP".toList], '[' ∉ label ∧
        ∀ c ∈ label, 0x20 ≤ c.toNat ∧ c.toNat ≤ 0x7E := by decide
    have hnamed := (otherLabel_eq_some hother).2
    exact isLabel_of_notMem (hall label hnamed).1 fun c hc ↦ Or.inl ((hall label hnamed).2 c hc)

theorem isLabel_skeletonLabel {skel : Char} (hskel : confusableSkeleton c = some skel) :
    IsLabel (skeletonLabel skel) := by
  have hall : ∀ entry ∈ skeletons, '[' ∉ skeletonLabel entry.2 ∧ ∀ c ∈ skeletonLabel entry.2,
      (0x20 ≤ c.toNat ∧ c.toNat ≤ 0x7E) ∨ c.toNat = 0x2192 := by decide
  have hentry := hall _ (mem_of_lookup hskel)
  exact isLabel_of_notMem hentry.1 hentry.2

/-- A literal without its first character and its closing bracket. -/
def literalBody (codepoint : ℕ) (label : Str) : Str :=
  'U' :: '+' :: (upperHex codepoint ++ ' ' :: label)

theorem literalOf_eq (n : ℕ) (label : Str) :
    literalOf n label = '[' :: (literalBody n label ++ [']']) := by
  simp [literalOf, literalBody]

theorem closed_literalBody {n : ℕ} (hlabel : IsLabel label) :
    Closed (literalBody n label ++ [']']) := by
  have hsplit : literalBody n label ++ [']'] =
      ('U' :: '+' :: upperHex n ++ [' ']) ++ (label ++ [']']) := by
    simp [literalBody]
  have hhex : '[' ∉ upperHex n := by
    intro hmem
    have hcode := toNat_of_mem_upperHex hmem
    revert hcode
    decide
  rw [hsplit, closed_append_iff]
  · exact hlabel.closed
  · simp [hhex]

theorem printable_literalBody {n : ℕ} (hlabel : IsLabel label) : ∀ c ∈ literalBody n label,
    (0x20 ≤ c.toNat ∧ c.toNat ≤ 0x7E) ∨ c.toNat = 0x2192 := by
  intro c hc
  rw [literalBody, mem_cons, mem_cons, mem_append, mem_cons] at hc
  rcases hc with rfl | rfl | hhex | rfl | hmem
  · decide
  · decide
  · have hcode := toNat_of_mem_upperHex hhex
    omega
  · decide
  · exact hlabel.printable c hmem

theorem plain_of_mem_literalOf {n : ℕ} (hlabel : IsLabel label) {c : Char}
    (hc : c ∈ literalOf n label) : Plain c := by
  rw [literalOf_eq, mem_cons, mem_append, mem_singleton] at hc
  rcases hc with rfl | hbody | rfl
  · exact plain_of_toNat (by decide)
  · exact plain_of_toNat (printable_literalBody hlabel c hbody)
  · exact plain_of_toNat (by decide)

/-- A literal starts with the code of its character and a blank. -/
theorem eq_of_literalOf_append {n m : ℕ}
    (heq : literalOf n label ++ rest = literalOf m label' ++ rest') : n = m := by
  have hblank : ∀ n, ∀ c ∈ upperHex n, (c != ' ') = true := by
    intro n c hc
    apply bne_iff_ne.mpr
    rintro rfl
    have hcode := toNat_of_mem_upperHex hc
    revert hcode
    decide
  have htake : ∀ n label rest, ((literalOf n label ++ rest).drop 3).takeWhile (· != ' ') =
      upperHex n := by
    intro n label rest
    have hdrop : (literalOf n label ++ rest).drop 3 =
        upperHex n ++ ' ' :: (label ++ [']'] ++ rest) := by
      simp [literalOf]
    rw [hdrop, takeWhile_append_of_pos (hblank n), takeWhile_cons_of_neg (by decide),
      append_nil]
  apply upperHex_injective
  rw [← htake n label rest, heq, htake]

end Literals

end SoulSystem.Ccos.Sanitizer
