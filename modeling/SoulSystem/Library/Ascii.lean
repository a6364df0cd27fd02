import SoulSystem.Library.Str

/-!
# ASCII in UTF-8

The bytes of a character outside ASCII are all at least 128, so bytes that are an ASCII text
within the bytes of a text are that text within it.  Reading each byte as a character leaves
ASCII as it is.
-/

namespace SoulSystem.Library.Str

open List

def isAscii (c : Char) : Bool := decide (c.toNat < 128)

/-- `c as u8` of an ASCII character. -/
def asciiByte (c : Char) : UInt8 := UInt8.ofNat c.toNat

/-- `b as char`. -/
def latin1 (b : UInt8) : Char := Char.ofNat b.toNat

variable {c : Char} {text pat : Str} {bytes foreign : Bytes}

/-- What holds of all entries of a list is decided on these, not on the whole type. -/
instance (priority := high) decidableForallMem {α : Type} {p : α → Prop} [DecidablePred p]
    (xs : List α) : Decidable (∀ x ∈ xs, p x) := List.decidableBAll p xs

theorem isAscii_iff : isAscii c = true ↔ c.toNat < 128 := decide_eq_true_iff

/-! ## Bytes as characters -/

theorem latin1_toNat (b : UInt8) : (latin1 b).toNat = b.toNat := by
  have hlt := b.toNat_lt
  have hvalid : b.toNat.isValidChar := Or.inl (by omega)
  rw [latin1, Char.ofNat, dif_pos hvalid]
  rfl

theorem latin1_injective : Function.Injective latin1 := by
  intro b b' heq
  have hsame := congrArg Char.toNat heq
  rw [latin1_toNat, latin1_toNat] at hsame
  exact UInt8.toNat_inj.mp hsame

theorem latin1_asciiByte (hc : isAscii c = true) : latin1 (asciiByte c) = c := by
  have hlt := isAscii_iff.mp hc
  rw [latin1, asciiByte, UInt8.toNat_ofNat', Nat.mod_eq_of_lt (by omega), Char.ofNat_toNat]

theorem asciiByte_toNat (hc : isAscii c = true) : (asciiByte c).toNat = c.toNat := by
  have hlt := isAscii_iff.mp hc
  rw [asciiByte, UInt8.toNat_ofNat', Nat.mod_eq_of_lt (by omega)]

/-! ## UTF-8 -/

theorem utf8EncodeChar_of_ascii (hc : isAscii c = true) :
    String.utf8EncodeChar c = [asciiByte c] := by
  have hle : c.val.toNat ≤ 127 := Nat.le_of_lt_succ (isAscii_iff.mp hc)
  exact if_pos hle

theorem utf8EncodeChar_ne_nil (c : Char) : String.utf8EncodeChar c ≠ [] := by
  rw [String.utf8EncodeChar]
  split_ifs <;> exact cons_ne_nil _ _

/-- All bytes of another character are at least 128. -/
theorem le_of_mem_utf8EncodeChar (hc : isAscii c = false) {b : UInt8}
    (hb : b ∈ String.utf8EncodeChar c) : 128 ≤ b.toNat := by
  have hle : 128 ≤ c.val.toNat := not_lt.mp (decide_eq_false_iff_not.mp hc)
  rw [String.utf8EncodeChar] at hb
  grind [UInt8.toNat_ofNat']

theorem utf8_nil : utf8 [] = [] := rfl

theorem utf8_cons (c : Char) (text : Str) : utf8 (c :: text) = String.utf8EncodeChar c ++ utf8 text :=
  flatMap_cons ..

theorem utf8_append (text text' : Str) : utf8 (text ++ text') = utf8 text ++ utf8 text' :=
  flatMap_append ..

theorem utf8_of_ascii (htext : ∀ c ∈ text, isAscii c = true) : utf8 text = text.map asciiByte := by
  induction text with
  | nil => rfl
  | cons c text ih =>
    rw [utf8_cons, utf8EncodeChar_of_ascii (htext c mem_cons_self),
      ih fun c' hc' ↦ htext c' (mem_cons_of_mem c hc')]
    rfl

theorem latin1_utf8_of_ascii (htext : ∀ c ∈ text, isAscii c = true) :
    (utf8 text).map latin1 = text := by
  rw [utf8_of_ascii htext, map_map]
  exact (map_congr_left fun c hc ↦ latin1_asciiByte (htext c hc)).trans (map_id text)

/-! ## ASCII texts within a text -/

/-- An ASCII byte is not within the bytes of another character. -/
theorem infix_of_foreign {b : UInt8} {rest : Bytes} (hb : b.toNat < 128)
    (hforeign : ∀ b ∈ foreign, 128 ≤ b.toNat) (hoccurs : b :: rest <:+: foreign ++ bytes) :
    b :: rest <:+: bytes := by
  induction foreign with
  | nil => exact hoccurs
  | cons b' foreign ih =>
    have htail := ih fun b hb ↦ hforeign b (mem_cons_of_mem b' hb)
    cases List.infix_cons_iff.mp hoccurs with
    | inl hstart =>
      have hsame : b = b' := (List.cons_prefix_cons.mp hstart).1
      have hle := hforeign b' mem_cons_self
      rw [← hsame] at hle
      omega
    | inr hinside => exact htail hinside

theorem isPrefix_of_utf8 (hpat : ∀ c ∈ pat, isAscii c = true) (hstart : utf8 pat <+: utf8 text) :
    pat <+: text := by
  induction pat generalizing text with
  | nil => exact nil_prefix
  | cons c pat ih =>
    have hc := hpat c mem_cons_self
    rw [utf8_cons, utf8EncodeChar_of_ascii hc, singleton_append] at hstart
    cases text with
    | nil => exact absurd (List.prefix_nil.mp hstart) (cons_ne_nil _ _)
    | cons d text =>
      cases hd : isAscii d with
      | true =>
        rw [utf8_cons, utf8EncodeChar_of_ascii hd, singleton_append,
          cons_prefix_cons] at hstart
        have hsame : c = d := by
          rw [← latin1_asciiByte hc, hstart.1, latin1_asciiByte hd]
        rw [hsame, cons_prefix_cons]
        exact ⟨rfl, ih (fun c' hc' ↦ hpat c' (mem_cons_of_mem c hc')) hstart.2⟩
      | false =>
        cases hbytes : String.utf8EncodeChar d with
        | nil => exact absurd hbytes (utf8EncodeChar_ne_nil d)
        | cons b bytes =>
          rw [utf8_cons, hbytes, cons_append, cons_prefix_cons] at hstart
          have hle : 128 ≤ b.toNat :=
            le_of_mem_utf8EncodeChar hd (hbytes ▸ mem_cons_self)
          rw [← hstart.1, asciiByte_toNat hc] at hle
          exact absurd (isAscii_iff.mp hc) (not_lt.mpr hle)

/-- The bytes of an ASCII text are within the bytes of a text only where the text is. -/
theorem isInfix_of_utf8 (hpat : ∀ c ∈ pat, isAscii c = true)
    (hoccurs : utf8 pat <:+: utf8 text) : pat <:+: text := by
  cases pat with
  | nil => exact nil_infix
  | cons c pat =>
    have hc := hpat c mem_cons_self
    induction text with
    | nil =>
      rw [utf8_cons, utf8EncodeChar_of_ascii hc] at hoccurs
      exact absurd (List.infix_nil.mp hoccurs) (cons_ne_nil _ _)
    | cons d text ih =>
      cases hd : isAscii d with
      | true =>
        rw [utf8_cons (c := d), utf8EncodeChar_of_ascii hd, singleton_append] at hoccurs
        cases List.infix_cons_iff.mp hoccurs with
        | inl hstart =>
          refine (isPrefix_of_utf8 hpat ?_).isInfix
          rwa [utf8_cons (c := d), utf8EncodeChar_of_ascii hd]
        | inr hinside => exact infix_cons (ih hinside)
      | false =>
        refine infix_cons (ih ?_)
        rw [utf8_cons, utf8EncodeChar_of_ascii hc, singleton_append] at hoccurs ⊢
        rw [utf8_cons] at hoccurs
        have hlt : (asciiByte c).toNat < 128 := by
          rw [asciiByte_toNat hc]
          exact isAscii_iff.mp hc
        exact infix_of_foreign hlt (fun _ ↦ le_of_mem_utf8EncodeChar hd) hoccurs

/-- A text with its bytes read as characters. -/
def mangled (text : Str) : Str := (utf8 text).map latin1

theorem infix_of_infix_mangled (hpat : ∀ c ∈ pat, isAscii c = true) (hoccurs : pat <:+: mangled text) :
    pat <:+: text := by
  rw [← latin1_utf8_of_ascii hpat, mangled] at hoccurs
  obtain ⟨inside, hinside, hsame⟩ := List.infix_map_iff.mp hoccurs
  rw [← List.map_injective_iff.mpr latin1_injective hsame] at hinside
  exact isInfix_of_utf8 hpat hinside

theorem infix_mangled (hpat : ∀ c ∈ pat, isAscii c = true) (hoccurs : pat <:+: text) :
    pat <:+: mangled text := by
  obtain ⟨before, after, rfl⟩ := hoccurs
  rw [mangled, utf8_append, utf8_append, map_append, map_append, latin1_utf8_of_ascii hpat]
  exact ⟨_, _, rfl⟩

end SoulSystem.Library.Str
