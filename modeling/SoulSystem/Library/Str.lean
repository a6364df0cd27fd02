import Mathlib.Tactic

/-!
# Unicode strings, their order and their encodings

A string is the list of its scalar values, compared lexicographically.  For well-formed text this
is the order of the UTF-8 bytes, so it is the order that a sorted map of strings iterates in.

The module collects what a key-value store needs of strings: the keys that start with a given
string form an interval of the order, UTF-8 decoding inverts encoding, and a number written with
leading zeros parses back to itself.
-/

namespace SoulSystem.Library

open List

abbrev Str := List Char
abbrev Bytes := List UInt8

instance lawfulBEqStr : LawfulBEq Str := inferInstance

namespace Str

/-! ## The order -/

theorem ne_of_compare_lt {a b : Str} (hlt : compare a b = .lt) : a ≠ b := by
  intro heq
  have hself : compare b b = .eq := Std.ReflCmp.compare_self
  rw [heq, hself] at hlt
  exact absurd hlt (by decide)

theorem compare_gt_iff {a b : Str} : compare a b = .gt ↔ compare b a = .lt :=
  Std.OrientedCmp.gt_iff_lt

/-- Lists in strictly ascending order of some strings are equal up to order only if they
are equal. -/
theorem eq_of_perm_of_ascending {α : Type*} {key : α → Str} {first second : List α}
    (hperm : first.Perm second) (hfirst : first.Pairwise fun a b ↦ compare (key a) (key b) = .lt)
    (hsecond : second.Pairwise fun a b ↦ compare (key a) (key b) = .lt) : first = second := by
  apply List.Perm.eq_of_pairwise _ hfirst hsecond hperm
  intro a b _ _ hlt hgt
  rw [← compare_gt_iff, hlt] at hgt
  cases hgt

/-! ## Strings with a common start -/

/-- A string does not come after a string that it starts. -/
theorem compare_isLE_of_prefix {start key : Str} (hstart : start <+: key) :
    (compare start key).isLE := by
  induction start generalizing key with
  | nil => exact List.isLE_compare_nil_left
  | cons c start ih =>
    obtain ⟨rest, rfl⟩ := hstart
    have htail : (compare start (start ++ rest)).isLE := ih (prefix_append start rest)
    rw [cons_append, List.compare_cons_cons]
    simpa [Std.ReflCmp.compare_self] using htail

/-- Once the order has passed every key that begins with `start`, none follows. -/
theorem not_prefix_of_compare_lt {start key next : Str} (hreached : compare key start ≠ .lt)
    (hkey : ¬ start <+: key) (hlt : compare key next = .lt) : ¬ start <+: next := by
  induction start generalizing key next with
  | nil => exact absurd List.nil_prefix hkey
  | cons c start ih =>
    intro hnext
    obtain ⟨rest, rfl⟩ := hnext
    cases key with
    | nil => simp at hreached
    | cons d key =>
      rw [cons_append, List.compare_cons_cons] at hlt
      rw [List.compare_cons_cons] at hreached
      rcases Ordering.then_eq_lt.mp hlt with hdc | ⟨hdc, htail⟩
      · simp [hdc] at hreached
      · have hhead : d = c := Std.LawfulEqCmp.eq_of_compare hdc
        subst hhead
        have hreachedTail : compare key start ≠ .lt := by
          simpa [Std.ReflCmp.compare_self] using hreached
        have hkeyTail : ¬ start <+: key := by
          intro hstart
          exact hkey ((cons_prefix_cons).mpr ⟨rfl, hstart⟩)
        exact ih hreachedTail hkeyTail htail (prefix_append start rest)

/-! ## UTF-8 -/

/-- `as_bytes` of a string. -/
def utf8 (s : Str) : Bytes :=
  s.flatMap String.utf8EncodeChar

/-- `String::from_utf8`. -/
def fromUtf8 (bytes : Bytes) : Option Str :=
  (ByteArray.mk bytes.toArray).utf8Decode?.map Array.toList

theorem fromUtf8_utf8 (s : Str) : fromUtf8 (utf8 s) = some s := by
  have hbytes : ByteArray.mk (utf8 s).toArray = s.utf8Encode := by
    ext1
    rw [List.utf8Encode]
    simp [utf8]
  rw [fromUtf8, hbytes, utf8Decode?_utf8Encode]
  rfl

/-! ## Decimal numbers -/

/-- A number in decimal, padded with zeros on the left to the given width. -/
def padDecimal (width n : ℕ) : Str :=
  List.replicate (width - (Nat.toDigits 10 n).length) '0' ++ Nat.toDigits 10 n

/-- A number as it is formatted. -/
def decimal (n : ℕ) : Str :=
  Nat.toDigits 10 n

theorem decimal_injective : Function.Injective decimal := by
  intro n m heq
  have hvalue := congrArg (fun digits ↦ Nat.ofDigitChars 10 digits 0) heq
  simpa only [decimal, Nat.ofDigitChars_ten_toDigits] using hvalue

theorem not_mem_decimal {c : Char} (hc : ¬ c.isDigit) (n : ℕ) : c ∉ decimal n := by
  intro hmem
  exact hc (Nat.isDigit_of_mem_toDigits (by decide) (by decide) hmem)

/-- The digits of `parse::<u64>`, after its optional sign. -/
def parseDigits (digits : Str) : Option ℕ :=
  if digits ≠ [] ∧ digits.all Char.isDigit then
    let value := Nat.ofDigitChars 10 digits 0
    if value < 2 ^ 64 then some value else none
  else
    none

/-- `parse::<u64>`, which accepts a leading plus sign and refuses an overflow. -/
def parseU64 : Str → Option ℕ
  | '+' :: digits => parseDigits digits
  | digits => parseDigits digits

theorem isDigit_of_mem_padDecimal {width n : ℕ} {c : Char} (hc : c ∈ padDecimal width n) :
    c.isDigit := by
  rcases List.mem_append.mp hc with hzero | hdigit
  · rw [eq_of_mem_replicate hzero]
    rfl
  · exact Nat.isDigit_of_mem_toDigits (by decide) (by decide) hdigit

theorem parseU64_eq_parseDigits {s : Str} (hsign : s.head? ≠ some '+') :
    parseU64 s = parseDigits s := by
  unfold parseU64
  split
  · simp at hsign
  · rfl

theorem ofDigitChars_padDecimal (width n : ℕ) :
    Nat.ofDigitChars 10 (padDecimal width n) 0 = n := by
  rw [padDecimal, Nat.ofDigitChars_append, Nat.ofDigitChars_replicate_zero, Nat.mul_zero,
    Nat.ofDigitChars_toDigits (by decide) (by decide)]

theorem padDecimal_injective (width : ℕ) : Function.Injective (padDecimal width) := by
  intro n m heq
  rw [← ofDigitChars_padDecimal width n, heq, ofDigitChars_padDecimal]

theorem parseU64_padDecimal {width n : ℕ} (hn : n < 2 ^ 64) :
    parseU64 (padDecimal width n) = some n := by
  have hdigits : ∀ c ∈ padDecimal width n, c.isDigit := fun c ↦ isDigit_of_mem_padDecimal
  have hne : padDecimal width n ≠ [] := by
    simp [padDecimal, Nat.toDigits_ne_nil]
  have hsign : (padDecimal width n).head? ≠ some '+' := by
    intro hplus
    have hmem : '+' ∈ padDecimal width n := mem_of_head? hplus
    exact absurd (hdigits _ hmem) (by decide)
  rw [parseU64_eq_parseDigits hsign, parseDigits, if_pos ⟨hne, List.all_eq_true.mpr hdigits⟩]
  simp only [ofDigitChars_padDecimal, if_pos hn]

/-- A text that holds anything but digits after its first character is no number. -/
theorem parseU64_eq_none {s : Str} {c : Char} (hmem : c ∈ s.tail) (hc : ¬ c.isDigit) :
    parseU64 s = none := by
  have hrefuse : ∀ digits : Str, c ∈ digits → parseDigits digits = none := by
    intro digits hdigit
    rw [parseDigits, if_neg]
    intro hall
    exact hc (List.all_eq_true.mp hall.2 c hdigit)
  unfold parseU64
  split
  · exact hrefuse _ hmem
  · exact hrefuse _ (mem_of_mem_tail hmem)

/-! ## Splitting at a separator -/

/-- A text without the separator before its first occurrence is determined by the whole. -/
theorem append_cons_inj {sep : Char} {a a' b b' : Str} (ha : sep ∉ a) (ha' : sep ∉ a')
    (heq : a ++ sep :: b = a' ++ sep :: b') : a = a' ∧ b = b' := by
  induction a generalizing a' with
  | nil =>
    cases a' with
    | nil => exact ⟨rfl, (List.cons.inj heq).2⟩
    | cons c a' =>
      have hfirst : sep = c := (List.cons.inj heq).1
      exact absurd (List.mem_cons.mpr (.inl hfirst)) ha'
  | cons c a ih =>
    cases a' with
    | nil =>
      have hfirst : sep = c := (List.cons.inj heq).1.symm
      exact absurd (List.mem_cons.mpr (.inl hfirst)) ha
    | cons c' a' =>
      obtain ⟨hhead, htail⟩ := List.cons.inj heq
      obtain ⟨hrest, hb⟩ := ih (fun h ↦ ha (mem_cons_of_mem c h))
        (fun h ↦ ha' (mem_cons_of_mem c' h)) htail
      exact ⟨by rw [hhead, hrest], hb⟩

/-- What follows a given start. -/
def stripPrefix (start : Str) (text : Str) : Option Str :=
  if start.isPrefixOf text then some (text.drop start.length) else none

def stripSuffix (last : Str) (text : Str) : Option Str :=
  if last.isSuffixOf text then some (text.take (text.length - last.length)) else none

/-- The parts around the first occurrence of a non-empty separator. -/
def splitOnce (sep : Str) : Str → Option (Str × Str)
  | [] => none
  | c :: rest =>
    if sep.isPrefixOf (c :: rest) then
      some ([], (c :: rest).drop sep.length)
    else
      (splitOnce sep rest).map fun parts ↦ (c :: parts.1, parts.2)

/-- The parts around the last occurrence of a non-empty separator. -/
def rsplitOnce (sep : Str) (text : Str) : Option (Str × Str) :=
  (splitOnce sep.reverse text.reverse).map fun parts ↦ (parts.2.reverse, parts.1.reverse)

theorem eq_append_of_splitOnce {sep text before after : Str}
    (hsplit : splitOnce sep text = some (before, after)) : text = before ++ sep ++ after := by
  induction text generalizing before with
  | nil => cases hsplit
  | cons c rest ih =>
    unfold splitOnce at hsplit
    split at hsplit
    · rename_i hprefix
      cases hsplit
      rw [List.isPrefixOf_iff_prefix] at hprefix
      obtain ⟨last, hlast⟩ := hprefix
      rw [← hlast, drop_left]
      rfl
    · obtain ⟨parts, hparts, heq⟩ := Option.map_eq_some_iff.mp hsplit
      cases heq
      rw [cons_append, cons_append, ← ih hparts]

/-- At most `fuel` cuts, from the left. -/
def splitFuel (sep : Str) : ℕ → Str → List Str
  | 0, text => [text]
  | fuel + 1, text =>
    match splitOnce sep text with
    | some (part, rest) => part :: splitFuel sep fuel rest
    | none => [text]

/-- All parts between the occurrences of a non-empty separator. -/
def split (sep : Str) (text : Str) : List Str :=
  splitFuel sep text.length text

/-- The part before the first separator. -/
def firstPart (sep : Str) (text : Str) : Str :=
  ((splitOnce sep text).map Prod.fst).getD text

/-- The part after the last separator. -/
def lastPart (sep : Str) (text : Str) : Str :=
  ((rsplitOnce sep text).map Prod.snd).getD text

def join (sep : Str) (parts : List Str) : Str :=
  (parts.intersperse sep).flatten

end Str

end SoulSystem.Library
