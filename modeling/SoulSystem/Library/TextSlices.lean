import SoulSystem.Library.Ascii

/-!
# Slices of text by byte offsets

A text is cut at byte offsets of its UTF-8 encoding.  A cut within a character or past the end has
no result, and a cut behind the encoding of a part of the text gives that part.
-/

namespace SoulSystem.Library.Str

open List

variable {c : Char} {a b text rest : Str}

/-- The first byte of a character is ASCII only when the character is, and the others never are. -/
theorem utf8EncodeChar_eq_cons (c : Char) : ∃ first foreign,
    String.utf8EncodeChar c = first :: foreign ∧ (∀ byte ∈ foreign, 128 ≤ byte.toNat) ∧
      (isAscii c = true → first = asciiByte c) ∧ (isAscii c = false → 128 ≤ first.toNat) := by
  cases hc : isAscii c with
  | true =>
    have hforeign : ∀ byte ∈ ([] : Bytes), 128 ≤ byte.toNat := by simp
    exact ⟨asciiByte c, [], utf8EncodeChar_of_ascii hc, hforeign, fun _ ↦ rfl, by simp⟩
  | false =>
    cases hbytes : String.utf8EncodeChar c with
    | nil => exact absurd hbytes (utf8EncodeChar_ne_nil c)
    | cons first foreign =>
      have hlarge : ∀ byte ∈ first :: foreign, 128 ≤ byte.toNat := by
        intro byte hbyte
        rw [← hbytes] at hbyte
        exact le_of_mem_utf8EncodeChar hc hbyte
      refine ⟨first, foreign, rfl, ?_, by simp, fun _ ↦ hlarge first mem_cons_self⟩
      exact fun byte hbyte ↦ hlarge byte (mem_cons_of_mem first hbyte)

theorem asciiByte_inj {c' : Char} (hc : isAscii c = true) (hc' : isAscii c' = true) :
    asciiByte c = asciiByte c' ↔ c = c' := by
  constructor
  · intro heq
    rw [← latin1_asciiByte hc, heq, latin1_asciiByte hc']
  · exact congrArg asciiByte

/-- The first byte of a character is an ASCII character's byte only when it is that character. -/
theorem first_eq_asciiByte_iff {c' : Char} {first : UInt8} {foreign : Bytes}
    (hc' : isAscii c' = true) (hbytes : String.utf8EncodeChar c = first :: foreign) :
    first = asciiByte c' ↔ c = c' := by
  obtain ⟨first', foreign', hbytes', -, hascii, hlarge⟩ := utf8EncodeChar_eq_cons c
  have hfirst : first = first' := (List.cons.inj (hbytes.symm.trans hbytes')).1
  cases hc : isAscii c with
  | true => rw [hfirst, hascii hc, asciiByte_inj hc hc']
  | false =>
    constructor
    · intro heq
      have hle := hlarge hc
      rw [← hfirst, heq, asciiByte_toNat hc'] at hle
      exact absurd (isAscii_iff.mp hc') (not_lt.mpr hle)
    · intro heq
      rw [heq, hc'] at hc
      cases hc

theorem utf8_of_fromUtf8 {bytes : Bytes} (hdecode : fromUtf8 bytes = some text) :
    utf8 text = bytes := by
  obtain ⟨chars, hchars, htext⟩ := Option.map_eq_some_iff.mp hdecode
  have hsome : (ByteArray.mk bytes.toArray).utf8Decode?.isSome := by rw [hchars]; rfl
  have hget : (ByteArray.mk bytes.toArray).utf8Decode?.get hsome = chars := by simp [hchars]
  have hencode := ByteArray.utf8Encode_get_utf8Decode? (h := hsome)
  rw [hget, htext] at hencode
  have hlist := congrArg (fun array : ByteArray ↦ array.data.toList) hencode
  simpa [List.utf8Encode, utf8] using hlist

/-! ## Cuts -/

/-- The text before and after a byte offset. -/
def splitByte : Str → ℕ → Option (Str × Str)
  | text, 0 => some ([], text)
  | [], _ + 1 => none
  | c :: text, n + 1 =>
    if c.utf8Size ≤ n + 1 then
      (splitByte text (n + 1 - c.utf8Size)).map fun parts ↦ (c :: parts.1, parts.2)
    else
      none

attribute [grind =] splitByte

theorem splitByte_append (a b : Str) : splitByte (a ++ b) (utf8 a).length = some (a, b) := by
  induction a with
  | nil => cases b <;> rfl
  | cons c a ih =>
    have hsize : (utf8 (c :: a)).length = c.utf8Size + (utf8 a).length := by
      rw [utf8_cons, length_append, String.length_utf8EncodeChar]
    obtain ⟨n, hn⟩ := Nat.exists_eq_succ_of_ne_zero (Nat.ne_of_gt c.utf8Size_pos)
    have hsucc : c.utf8Size + (utf8 a).length = (n + (utf8 a).length) + 1 := by omega
    have hrest : n + (utf8 a).length + 1 - c.utf8Size = (utf8 a).length := by omega
    rw [hsize, hsucc, cons_append, splitByte, if_pos (by omega), hrest, ih]
    rfl

/-- `&text[start..stop]`. -/
def slice (text : Str) (start stop : ℕ) : Option Str :=
  if start ≤ stop then
    (splitByte text stop).bind fun parts ↦ (splitByte parts.1 start).map Prod.snd
  else
    none

attribute [grind =] slice

/-- `&text[start..]`. -/
def sliceFrom (text : Str) (start : ℕ) : Option Str :=
  (splitByte text start).map Prod.snd

theorem slice_append {start stop : ℕ} (hstart : start = (utf8 a).length)
    (hstop : stop = start + (utf8 b).length) : slice (a ++ b ++ rest) start stop = some b := by
  have hlength : (utf8 (a ++ b)).length = stop := by
    rw [utf8_append, length_append, ← hstart, hstop]
  rw [slice, if_pos (by omega), ← hlength, splitByte_append, Option.bind_some, hstart,
    splitByte_append]
  rfl

theorem sliceFrom_append {start : ℕ} (hstart : start = (utf8 a).length) :
    sliceFrom (a ++ rest) start = some rest := by
  rw [sliceFrom, hstart, splitByte_append]
  rfl

theorem eq_append_of_splitByte {n : ℕ} (hsplit : splitByte text n = some (a, b)) :
    text = a ++ b ∧ (utf8 a).length = n := by
  induction text, n using splitByte.induct generalizing a with
  | case1 text =>
    have hparts : ([], text) = (a, b) := by
      rw [splitByte] at hsplit
      exact Option.some.inj hsplit
    cases hparts
    exact ⟨rfl, rfl⟩
  | case2 n => cases hsplit
  | case3 c text n hsize ih =>
    rw [splitByte, if_pos hsize] at hsplit
    obtain ⟨⟨a', b'⟩, hrest, hparts⟩ := Option.map_eq_some_iff.mp hsplit
    obtain ⟨rfl, rfl⟩ := Prod.mk.inj hparts
    obtain ⟨htext, hlength⟩ := ih hrest
    refine ⟨congrArg (c :: ·) htext, ?_⟩
    rw [utf8_cons, length_append, String.length_utf8EncodeChar, hlength]
    exact Nat.add_sub_cancel' hsize
  | case4 c text n hsize =>
    rw [splitByte, if_neg hsize] at hsplit
    cases hsplit

/-- A cut has a part of the text around it. -/
theorem exists_append_of_slice {start stop : ℕ} (hslice : slice text start stop = some b) :
    ∃ a rest, text = a ++ b ++ rest ∧ (utf8 a).length = start ∧ (utf8 (a ++ b)).length = stop := by
  unfold slice at hslice
  split_ifs at hslice
  obtain ⟨⟨before, rest⟩, hbefore, hrest⟩ := Option.bind_eq_some_iff.mp hslice
  obtain ⟨⟨a, part⟩, ha, hpart⟩ := Option.map_eq_some_iff.mp hrest
  obtain ⟨rfl, hstop⟩ := eq_append_of_splitByte hbefore
  obtain ⟨hwhole, hstart⟩ := eq_append_of_splitByte ha
  cases hpart
  exact ⟨a, rest, congrArg (· ++ rest) hwhole, hstart, hwhole ▸ hstop⟩

/-- A cut at an offset is possible between two characters. -/
theorem isSome_slice_zero_iff {stop : ℕ} :
    (slice text 0 stop).isSome ↔ ∃ a b, text = a ++ b ∧ (utf8 a).length = stop := by
  constructor
  · intro hsome
    obtain ⟨b, hslice⟩ := Option.isSome_iff_exists.mp hsome
    obtain ⟨a, rest, htext, hstart, hstop⟩ := exists_append_of_slice hslice
    exact ⟨a ++ b, rest, htext, hstop⟩
  · rintro ⟨a, b, rfl, rfl⟩
    have hzero : slice ([] ++ a ++ b) 0 (utf8 a).length = some a :=
      slice_append rfl (Nat.zero_add _).symm
    rw [nil_append] at hzero
    rw [hzero]
    rfl

theorem length_le_utf8 (text : Str) : text.length ≤ (utf8 text).length := by
  induction text with
  | nil => exact Nat.zero_le _
  | cons c text ih =>
    have hpos := c.utf8Size_pos
    rw [utf8_cons, length_append, String.length_utf8EncodeChar, length_cons]
    omega

/-- Bytes and characters agree in number only for ASCII. -/
theorem length_utf8_eq_iff : (utf8 text).length = text.length ↔ ∀ c ∈ text, isAscii c = true := by
  induction text with
  | nil => simp [utf8_nil]
  | cons c text ih =>
    have hrest : text.length ≤ (utf8 text).length := length_le_utf8 text
    have hsize : c.utf8Size = 1 ↔ isAscii c = true := by
      rw [Char.utf8Size_eq_one_iff, isAscii_iff]
      exact Nat.lt_succ_iff.symm
    have hpos := c.utf8Size_pos
    rw [utf8_cons, length_append, String.length_utf8EncodeChar, length_cons,
      forall_mem_cons, ← ih, ← hsize]
    omega

/-- Within ASCII a part of a text is cut out by counts of characters. -/
theorem slice_of_ascii (hascii : ∀ d ∈ a ++ b, isAscii d = true) :
    slice (a ++ b ++ rest) a.length (a.length + b.length) = some b := by
  rw [forall_mem_append] at hascii
  refine slice_append (length_utf8_eq_iff.mpr hascii.1).symm ?_
  rw [length_utf8_eq_iff.mpr hascii.2]

/-! ## Search -/

/-- The byte offset of the first occurrence of a non-empty pattern. -/
def find (pat text : Str) : Option ℕ :=
  (splitOnce pat text).map fun parts ↦ (utf8 parts.1).length

attribute [grind =] find

/-- A pattern does not start before its own first character occurs. -/
theorem splitOnce_append_of_notMem {sep : Char} {pat : Str} (hsep : sep ∉ a) :
    splitOnce (sep :: pat) (a ++ text) =
      (splitOnce (sep :: pat) text).map fun parts ↦ (a ++ parts.1, parts.2) := by
  induction a with
  | nil =>
    rw [nil_append]
    cases splitOnce (sep :: pat) text <;> rfl
  | cons c a ih =>
    have hne : sep ≠ c := fun heq ↦ hsep (List.mem_cons.mpr (.inl heq))
    have hstart : ¬ (sep :: pat).isPrefixOf (c :: (a ++ text)) = true := by
      rw [List.isPrefixOf_iff_prefix, cons_prefix_cons]
      exact fun hboth ↦ hne hboth.1
    have hrest : sep ∉ a := fun hmem ↦ hsep (mem_cons_of_mem c hmem)
    rw [cons_append, splitOnce, if_neg hstart, ih hrest, Option.map_map]
    rfl

theorem splitOnce_self {sep : Char} {pat : Str} :
    splitOnce (sep :: pat) (sep :: pat ++ text) = some ([], text) := by
  have hstart : (sep :: pat).isPrefixOf (sep :: (pat ++ text)) = true := by
    rw [List.isPrefixOf_iff_prefix]
    exact prefix_append (sep :: pat) text
  rw [cons_append, splitOnce, if_pos hstart, ← cons_append, drop_left]

theorem splitOnce_eq_none_iff {sep : Str} (hsep : sep ≠ []) :
    splitOnce sep text = none ↔ ¬ sep <:+: text := by
  induction text with
  | nil => exact iff_of_true rfl fun hwithin ↦ hsep (eq_nil_of_infix_nil hwithin)
  | cons c text ih =>
    rw [splitOnce, infix_cons_iff, ← isPrefixOf_iff_prefix]
    split
    · next hprefix => exact iff_of_false (Option.some_ne_none _) fun hnot ↦ hnot (.inl hprefix)
    · next hprefix => rw [Option.map_eq_none_iff, ih, or_iff_right hprefix]

theorem find_eq_none_iff {pat : Str} (hpat : pat ≠ []) : find pat text = none ↔ ¬ pat <:+: text := by
  rw [find, Option.map_eq_none_iff, splitOnce_eq_none_iff hpat]

theorem exists_append_of_find {pat : Str} {n : ℕ} (hfind : find pat text = some n) :
    ∃ a rest, text = a ++ pat ++ rest ∧ (utf8 a).length = n := by
  obtain ⟨parts, hsplit, hlength⟩ := Option.map_eq_some_iff.mp hfind
  exact ⟨parts.1, parts.2, eq_append_of_splitOnce hsplit, hlength⟩

theorem find_append_of_notMem {sep : Char} {pat : Str} (hsep : sep ∉ a) :
    find (sep :: pat) (a ++ text) =
      (find (sep :: pat) text).map fun n ↦ (utf8 a).length + n := by
  rw [find, splitOnce_append_of_notMem hsep, find, Option.map_map, Option.map_map]
  apply congrArg (Option.map · _)
  funext parts
  rw [Function.comp_apply, Function.comp_apply, utf8_append, length_append]

theorem find_self {sep : Char} {pat : Str} : find (sep :: pat) (sep :: pat ++ text) = some 0 := by
  rw [find, splitOnce_self]
  rfl

/-- The first occurrence of a character. -/
theorem find_char {sep : Char} (hsep : sep ∉ a) :
    find [sep] (a ++ sep :: text) = some (utf8 a).length := by
  have hself : find [sep] (sep :: text) = some 0 := find_self
  rw [find_append_of_notMem hsep, hself]
  rfl

/-- The byte offset of the last occurrence of a character. -/
def rfind (c : Char) (text : Str) : Option ℕ :=
  (rsplitOnce [c] text).map fun parts ↦ (utf8 parts.1).length

theorem rfind_char {sep : Char} (hsep : sep ∉ rest) :
    rfind sep (a ++ sep :: rest) = some (utf8 a).length := by
  have hself : splitOnce [sep] (sep :: a.reverse) = some ([], a.reverse) := splitOnce_self
  have hreverse : (a ++ sep :: rest).reverse = rest.reverse ++ sep :: a.reverse := by simp
  have hnot : sep ∉ rest.reverse := mt List.mem_reverse.mp hsep
  rw [rfind, rsplitOnce, reverse_singleton, hreverse, splitOnce_append_of_notMem hnot, hself,
    Option.map_some, Option.map_some, Option.map_some, reverse_reverse]

theorem rfind_eq_none {sep : Char} (hsep : sep ∉ text) : rfind sep text = none := by
  have hnone : splitOnce [sep] text.reverse = none := by
    rw [splitOnce_eq_none_iff (cons_ne_nil _ _)]
    intro hwithin
    exact hsep (List.mem_reverse.mp (hwithin.subset mem_cons_self))
  rw [rfind, rsplitOnce, reverse_singleton, hnone]
  rfl

/-- A slice between the ends of two parts that the text starts with. -/
theorem slice_of_prefix {d : Str} (ha : text = a ++ b) (hd : text = d ++ rest) :
    (slice text (utf8 a).length (utf8 d).length).isSome ↔ (utf8 a).length ≤ (utf8 d).length := by
  constructor
  · intro hsome
    by_contra hle
    rw [slice, if_neg hle] at hsome
    cases hsome
  · intro hle
    rw [slice, if_pos hle, hd, splitByte_append, Option.bind_some]
    have hprefix : a <+: d := by
      apply prefix_of_prefix_length_le ⟨b, ha.symm⟩ ⟨rest, hd.symm⟩
      by_contra hlonger
      obtain ⟨last, rfl⟩ := prefix_of_prefix_length_le ⟨rest, hd.symm⟩ ⟨b, ha.symm⟩
        (Nat.le_of_not_le hlonger)
      have hlast := length_le_utf8 last
      rw [utf8_append, length_append] at hle
      rw [length_append] at hlonger
      omega
    obtain ⟨last, rfl⟩ := hprefix
    rw [splitByte_append]
    rfl

/-! ## Joined parts -/

theorem join_cons_cons (sep part next : Str) (parts : List Str) :
    join sep (part :: next :: parts) = part ++ (sep ++ join sep (next :: parts)) := by
  simp [join]

theorem join_singleton (sep part : Str) : join sep [part] = part := by
  simp [join]

theorem notMem_join {sep : Str} {parts : List Str} (hsep : c ∉ sep)
    (hparts : ∀ part ∈ parts, c ∉ part) : c ∉ join sep parts := by
  induction parts with
  | nil => exact not_mem_nil
  | cons part parts ih =>
    have hpart := hparts part mem_cons_self
    have hrest := ih fun part' hpart' ↦ hparts part' (mem_cons_of_mem part hpart')
    cases parts with
    | nil => rwa [join_singleton]
    | cons next parts =>
      rw [join_cons_cons, mem_append, mem_append]
      simp [hpart, hsep, hrest]

end SoulSystem.Library.Str
