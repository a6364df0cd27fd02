import SoulSystem.Scirust.Safetensors.Entry

/-!
# The header as it is written

An escaped string ends where its writer ends it, so a written object ends at its own
brace.  Scanning a written header therefore gives back its metadata, and for every tensor its object
under its escaped name.  A tensor with the name of the metadata is passed over.
-/

namespace SoulSystem.Scirust.Safetensors

open Library Str Outcome Std List

variable {rest text : Str}

/-! ## Escaping -/

/-- What escaping writes for a character. -/
def escapeChar (c : Char) : Str :=
  if c = backslash then [backslash, backslash]
  else if c = quote then [backslash, quote]
  else [c]

theorem escapeJson_eq (text : Str) : escapeJson text = text.flatMap escapeChar := by
  induction text with
  | nil => rfl
  | cons c text ih =>
    have hsplit : escapeJson (c :: text) =
        replaceChar quote [backslash, quote]
          (if c = backslash then [backslash, backslash] else [c]) ++ escapeJson text := by
      have hfirst : replaceChar backslash [backslash, backslash] (c :: text) =
          (if c = backslash then [backslash, backslash] else [c]) ++
            replaceChar backslash [backslash, backslash] text := flatMap_cons ..
      rw [escapeJson, hfirst]
      exact flatMap_append ..
    rw [hsplit, ih, flatMap_cons]
    congr 1
    unfold escapeChar
    split
    · rfl
    · split
      · rename_i hquote
        rw [hquote]
        rfl
      · rename_i hquote
        simp [replaceChar, hquote]

theorem escapeJson_cons (c : Char) (text : Str) :
    escapeJson (c :: text) = escapeChar c ++ escapeJson text := by
  rw [escapeJson_eq, escapeJson_eq, flatMap_cons]

/-- A text without quotes and backslashes is written as it is. -/
theorem escapeJson_of_plain (hquote : quote ∉ text) (hback : backslash ∉ text) :
    escapeJson text = text := by
  induction text with
  | nil => rfl
  | cons c text ih =>
    have hc : c ≠ quote := fun heq ↦ hquote (List.mem_cons.mpr (.inl heq.symm))
    have hc' : c ≠ backslash := fun heq ↦ hback (List.mem_cons.mpr (.inl heq.symm))
    rw [escapeJson_cons, escapeChar, if_neg hc', if_neg hc,
      ih (fun hmem ↦ hquote (mem_cons_of_mem c hmem))
        (fun hmem ↦ hback (mem_cons_of_mem c hmem))]
    rfl

theorem length_le_escapeJson (text : Str) : text.length ≤ (escapeJson text).length := by
  induction text with
  | nil => exact Nat.le_refl 0
  | cons c text ih =>
    have hone : 1 ≤ (escapeChar c).length := by
      unfold escapeChar
      split_ifs <;> simp
    rw [escapeJson_cons, length_cons, length_append]
    omega

/-- Any other text gets longer. -/
theorem length_lt_escapeJson (hspecial : quote ∈ text ∨ backslash ∈ text) :
    text.length < (escapeJson text).length := by
  induction text with
  | nil => simp at hspecial
  | cons c text ih =>
    rw [escapeJson_cons, length_cons, length_append]
    have hle := length_le_escapeJson text
    by_cases hc : c = quote ∨ c = backslash
    · have htwo : (escapeChar c).length = 2 := by
        rcases hc with rfl | rfl <;> rfl
      omega
    · rw [not_or] at hc
      have hrest : quote ∈ text ∨ backslash ∈ text := by
        rw [mem_cons, mem_cons] at hspecial
        rcases hspecial with (heq | hmem) | heq | hmem
        · exact absurd heq.symm hc.1
        · exact .inl hmem
        · exact absurd heq.symm hc.2
        · exact .inr hmem
      have hlt := ih hrest
      have hone : (escapeChar c).length = 1 := by rw [escapeChar, if_neg hc.2, if_neg hc.1]; rfl
      omega

theorem unescapeJson_cons_plain {c : Char} (hc : c ≠ backslash) (text : Str) :
    unescapeJson (c :: text) = c :: unescapeJson text := by
  cases text with
  | nil => rfl
  | cons d text => rw [unescapeJson, if_neg hc]

theorem unescapeJson_escapeJson (text : Str) : unescapeJson (escapeJson text) = text := by
  induction text with
  | nil => rfl
  | cons c text ih =>
    rw [escapeJson_cons, escapeChar]
    split
    · rename_i hback
      rw [hback]
      exact congrArg (backslash :: ·) ih
    · split
      · rename_i hquote
        rw [hquote]
        exact congrArg (quote :: ·) ih
      · rename_i hback hquote
        rw [singleton_append, unescapeJson_cons_plain hback, ih]

theorem escapeJson_injective : Function.Injective escapeJson :=
  Function.LeftInverse.injective unescapeJson_escapeJson

theorem escapeJson_metadataKey : escapeJson metadataKey = metadataKey :=
  escapeJson_of_plain (by decide) (by decide)

theorem closing_escapeJson (text rest : Str) :
    closing false (escapeJson text ++ quote :: rest) = some (escapeJson text, rest) := by
  induction text with
  | nil => rfl
  | cons c text ih =>
    rw [escapeJson_cons, append_assoc, escapeChar]
    split
    · change ((closing false (escapeJson text ++ quote :: rest)).map _).map _ = _
      rw [ih]
      rfl
    · split
      · change ((closing false (escapeJson text ++ quote :: rest)).map _).map _ = _
        rw [ih]
        rfl
      · rename_i hback hquote
        rw [singleton_append, closing, if_neg hquote, decide_eq_false hback, ih]
        rfl

/-! ## Text without open braces -/

/-- A text that a scan for the closing brace passes over. -/
def Neutral (text : Str) : Prop := ∀ depth rest, balanced .outside depth (text ++ rest) =
  (text ++ (balanced .outside depth rest).1, (balanced .outside depth rest).2)

namespace Neutral

theorem nil : Neutral [] := fun _ _ ↦ rfl

theorem append {text' : Str} (htext : Neutral text) (htext' : Neutral text') :
    Neutral (text ++ text') := by
  intro depth rest
  rw [append_assoc, htext, htext', append_assoc]

theorem plain (htext : ∀ c ∈ text, c ≠ quote ∧ c ≠ openBrace ∧ c ≠ closeBrace) : Neutral text := by
  induction text with
  | nil => exact nil
  | cons c text ih =>
    intro depth rest
    obtain ⟨hquote, hopen, hclose⟩ := htext c mem_cons_self
    have hrest := ih fun c' hc' ↦ htext c' (mem_cons_of_mem c hc')
    rw [cons_append, balanced_cons hquote hopen hclose, hrest]
    rfl

theorem quoted (text : Str) : Neutral (quote :: escapeJson text ++ [quote]) := by
  intro depth rest
  have hstring : balanced .inside depth (escapeJson text ++ quote :: rest) =
      (escapeJson text ++ quote :: (balanced .outside depth rest).1,
        (balanced .outside depth rest).2) := by
    have heq := balanced_string false (escapeJson text ++ quote :: rest) depth
    rwa [closing_escapeJson] at heq
  rw [cons_append, cons_append, append_assoc, singleton_append, balanced_quote,
    hstring]
  simp

theorem join {sep : Str} {parts : List Str} (hsep : Neutral sep)
    (hparts : ∀ part ∈ parts, Neutral part) : Neutral (Str.join sep parts) := by
  induction parts with
  | nil => exact nil
  | cons part parts ih =>
    have hpart := hparts part mem_cons_self
    have hrest := ih fun part' hpart' ↦ hparts part' (mem_cons_of_mem part hpart')
    cases parts with
    | nil => rwa [join_singleton]
    | cons next parts =>
      rw [join_cons_cons]
      exact hpart.append (hsep.append hrest)

/-- An object ends at its own brace. -/
theorem balanced_braces (htext : Neutral text) (rest : Str) :
    balanced .outside 0 (openBrace :: text ++ closeBrace :: rest) =
      (openBrace :: text ++ [closeBrace], rest) := by
  rw [cons_append, balanced_open, htext]
  norm_num [balanced_last]

end Neutral

/-! ## Metadata -/

section

variable (metadata : Metadata)

/-- The inside of the metadata object. -/
abbrev metaBody : Str := Str.join [','] (metadata.entries.map metaEntry)

theorem neutral_metaEntry (pair : Str × Str) : Neutral (metaEntry pair) := by
  have hsplit : metaEntry pair = (quote :: escapeJson pair.1 ++ [quote]) ++ [':'] ++
      (quote :: escapeJson pair.2 ++ [quote]) := by simp [metaEntry]
  have hcolon : Neutral [':'] := Neutral.plain (by decide)
  rw [hsplit]
  exact ((Neutral.quoted pair.1).append hcolon).append (Neutral.quoted pair.2)

theorem neutral_metaBody : Neutral (metaBody metadata) := by
  refine Neutral.join (Neutral.plain (by decide)) fun part hpart ↦ ?_
  obtain ⟨pair, -, rfl⟩ := List.mem_map.mp hpart
  exact neutral_metaEntry pair

theorem metaJson_eq : metaJson metadata =
    metadataNeedle ++ (openBrace :: metaBody metadata ++ [closeBrace]) := by
  simp [metaJson, metadataNeedle]

theorem pairs_metaEntry (pair : Str × Str) (rest : Str) :
    pairs (metaEntry pair ++ rest) = pair :: pairs rest := by
  have hsplit : metaEntry pair ++ rest =
      quote :: (escapeJson pair.1 ++ quote :: ':' :: quote ::
        (escapeJson pair.2 ++ quote :: rest)) := by simp [metaEntry]
  have hdrop : (':' :: quote :: (escapeJson pair.2 ++ quote :: rest)).dropWhile isSeparator =
      quote :: (escapeJson pair.2 ++ quote :: rest) := rfl
  rw [hsplit, pairs_of_key (closing_escapeJson pair.1 _), hdrop]
  simp only [ne_eq, not_true_eq_false, if_false, closing_escapeJson, unescapeJson_escapeJson]

theorem pairs_join (entries : List (Str × Str)) {rest : Str} (hrest : pairs rest = []) :
    pairs (Str.join [','] (entries.map metaEntry) ++ rest) = entries := by
  induction entries with
  | nil => exact hrest
  | cons pair entries ih =>
    cases entries with
    | nil => rw [map_singleton, join_singleton, pairs_metaEntry, hrest]
    | cons next entries =>
      rw [map_cons, map_cons, join_cons_cons, append_assoc, append_assoc,
        singleton_append, pairs_metaEntry, pairs_of_ne (by decide), ← map_cons, ih]

/-- The section of the metadata holds the metadata. -/
theorem sectionPairs_of_metaJson (rest : Str) :
    sectionPairs (openBrace :: metaJson metadata ++ rest) = metadata.entries := by
  have hbody := (neutral_metaBody metadata).balanced_braces rest
  have hsplit : openBrace :: metaJson metadata ++ rest = [openBrace] ++ (metadataNeedle ++
      (openBrace :: metaBody metadata ++ closeBrace :: rest)) := by
    rw [metaJson_eq]
    simp
  have hneedle : splitOnce metadataNeedle (openBrace :: metaJson metadata ++ rest) =
      some ([openBrace], openBrace :: metaBody metadata ++ closeBrace :: rest) := by
    rw [hsplit, metadataNeedle, cons_append, splitOnce_append_of_notMem (by decide),
      splitOnce_self]
    rfl
  have hclose : pairs [closeBrace] = [] := by rw [pairs_of_ne (by decide), pairs]
  rw [sectionPairs, hneedle]
  simp only [object, hbody]
  rw [cons_append, pairs_of_ne (by decide)]
  exact pairs_join metadata.entries hclose

end

/-! ## Tensors -/

section

variable (shape : List ℕ) (start stop : ℕ)

/-- The dimensions as they are written hold digits and commas only. -/
theorem notMem_dims {c : Char} (hc : ¬ c.isDigit) (hcomma : c ≠ ',') :
    c ∉ Str.join [','] (shape.map decimal) := by
  refine notMem_join (by simpa using hcomma) fun part hpart ↦ ?_
  obtain ⟨dim, -, rfl⟩ := List.mem_map.mp hpart
  exact not_mem_decimal hc dim

theorem neutral_objectBody : Neutral ("\"dtype\":\"F32\",\"shape\":[".toList ++
    Str.join [','] (shape.map decimal) ++ "],\"data_offsets\":[".toList ++ decimal start ++ [','] ++
      decimal stop ++ [']']) := by
  have hdigits : ∀ n, Neutral (decimal n) := fun n ↦ Neutral.plain fun c hc ↦ by
    refine ⟨?_, ?_, ?_⟩ <;> (rintro rfl; exact not_mem_decimal (by decide) n hc)
  have hfirst : Neutral "\"dtype\":\"F32\",\"shape\":[".toList :=
    ((((Neutral.quoted "dtype".toList).append (Neutral.plain (by decide) : Neutral [':'])).append
      (Neutral.quoted "F32".toList)).append (Neutral.plain (by decide) : Neutral [','])).append
        ((Neutral.quoted "shape".toList).append (Neutral.plain (by decide) : Neutral [':', '[']))
  have hsecond : Neutral "],\"data_offsets\":[".toList :=
    ((Neutral.plain (by decide) : Neutral [']', ',']).append
      (Neutral.quoted "data_offsets".toList)).append
        (Neutral.plain (by decide) : Neutral [':', '['])
  have hdims : Neutral (Str.join [','] (shape.map decimal)) := by
    refine Neutral.join (Neutral.plain (by decide)) fun part hpart ↦ ?_
    obtain ⟨dim, -, rfl⟩ := List.mem_map.mp hpart
    exact hdigits dim
  exact ((((((hfirst.append hdims).append hsecond).append (hdigits start)).append
    (Neutral.plain (by decide) : Neutral [','])).append (hdigits stop)).append
      (Neutral.plain (by decide) : Neutral [']']))

theorem balanced_objectJson (rest : Str) : balanced .outside 0 (objectJson shape start stop ++ rest) =
    (objectJson shape start stop, rest) := by
  have hbody := (neutral_objectBody shape start stop).balanced_braces rest
  simpa [objectJson] using hbody

/-- Scanning passes over a tensor with the name of the metadata. -/
theorem entries_entryJson (name : Str) (rest : Str) :
    entries (entryJson name shape start stop ++ rest) =
      (if name = metadataKey then []
        else [.ok (escapeJson name, objectJson shape start stop)]) ++ entries rest := by
  have hsplit : entryJson name shape start stop ++ rest =
      quote :: (escapeJson name ++ quote :: ':' :: (objectJson shape start stop ++ rest)) := by
    simp [entryJson]
  have hdrop : (':' :: (objectJson shape start stop ++ rest)).dropWhile isSeparator =
      objectJson shape start stop ++ rest := rfl
  have hhead : (objectJson shape start stop ++ rest).head? = some openBrace := rfl
  have hobject := balanced_objectJson shape start stop rest
  have hname : escapeJson name = metadataKey ↔ name = metadataKey := by
    rw [← escapeJson_metadataKey, escapeJson_injective.eq_iff, escapeJson_metadataKey]
  rw [hsplit, entries_of_key (closing_escapeJson name _), hdrop, hhead, object, afterObject, hobject]
  by_cases hmeta : name = metadataKey
  · rw [if_pos (hname.mpr hmeta), if_pos hmeta]
    rfl
  · rw [if_neg (fun heq ↦ hmeta (hname.mp heq)), if_neg hmeta, if_neg (not_not.mpr rfl)]
    rfl

end

/-! ## The fields of an object -/

theorem trim_eq_self {text : Str} (htext : ∀ c ∈ text, isWhitespace c = false) :
    trim text = text := by
  have hfront : text.dropWhile isWhitespace = text := by
    cases text with
    | nil => rfl
    | cons c text => rw [dropWhile_cons, htext c mem_cons_self]; rfl
  rw [trim, hfront, rdropWhile_eq_self_iff]
  intro hne
  rw [htext _ (getLast_mem hne)]
  exact Bool.false_ne_true

theorem isWhitespace_of_isDigit {c : Char} (hc : c.isDigit) : isWhitespace c = false := by
  have hrange : 48 ≤ c.toNat ∧ c.toNat ≤ 57 := by
    rw [Char.isDigit, Bool.and_eq_true, decide_eq_true_iff, decide_eq_true_iff] at hc
    exact hc
  simp only [isWhitespace, Bool.or_eq_false_iff, Bool.and_eq_false_iff, beq_eq_false_iff_ne,
    decide_eq_false_iff_not]
  omega

theorem digit_of_mem_decimal {n : ℕ} {c : Char} (hc : c ∈ decimal n) : c.isDigit := by
  by_contra hnot
  exact not_mem_decimal hnot n hc

theorem decimal_ne_nil (n : ℕ) : decimal n ≠ [] := Nat.toDigits_ne_nil

theorem digitsValue_decimal (n : ℕ) : digitsValue (decimal n) = some n := by
  have hdigits : decimal n ≠ [] ∧ (decimal n).all Char.isDigit := by
    refine ⟨decimal_ne_nil n, List.all_eq_true.mpr fun c hc ↦ digit_of_mem_decimal hc⟩
  rw [digitsValue, if_pos hdigits, decimal, Nat.ofDigitChars_ten_toDigits]

/-- What a written number is read as. -/
def readNumber (n : ℕ) : Except Failure ℤ :=
  if n < 2 ^ 63 then .ok (n : ℤ) else .error .parseIntError

theorem parseNumber_decimal (n : ℕ) : parseNumber (decimal n) = readNumber n := by
  have htrim : trim (decimal n) = decimal n :=
    trim_eq_self fun c hc ↦ isWhitespace_of_isDigit (digit_of_mem_decimal hc)
  have hsign : parseI64 (decimal n) =
      (digitsValue (decimal n)).bind fun n ↦ if n < 2 ^ 63 then some (n : ℤ) else none := by
    unfold parseI64
    split
    · rename_i digits heq
      have hmem : '-' ∈ decimal n := by rw [heq]; exact mem_cons_self
      exact absurd (digit_of_mem_decimal hmem) (by decide)
    · rename_i digits heq
      have hmem : '+' ∈ decimal n := by rw [heq]; exact mem_cons_self
      exact absurd (digit_of_mem_decimal hmem) (by decide)
    · rfl
  rw [parseNumber, htrim, hsign, digitsValue_decimal, Option.bind_some, readNumber]
  by_cases hn : n < 2 ^ 63
  · rw [if_pos hn, if_pos hn]
  · rw [if_neg hn, if_neg hn]

/-- The numbers of a written field, between the brackets. -/
theorem mapM_splitOn_join {numbers : List ℕ} (hne : numbers ≠ []) :
    ((Str.join [','] (numbers.map decimal)).splitOn ',').mapM parseNumber =
      numbers.mapM readNumber := by
  have hsplit : (Str.join [','] (numbers.map decimal)).splitOn ',' = numbers.map decimal := by
    refine splitOn_intercalate ',' (fun part hpart ↦ ?_) (by simpa using hne)
    obtain ⟨n, -, rfl⟩ := List.mem_map.mp hpart
    exact not_mem_decimal (by decide) n
  rw [hsplit, mapM_map]
  congr 1
  funext n
  exact parseNumber_decimal n

theorem trim_join_eq_nil {numbers : List ℕ} :
    trim (Str.join [','] (numbers.map decimal)) = [] ↔ numbers = [] := by
  have htrim : trim (Str.join [','] (numbers.map decimal)) =
      Str.join [','] (numbers.map decimal) := by
    refine trim_eq_self fun c hc ↦ ?_
    by_cases hcomma : c = ','
    · rw [hcomma]
      rfl
    · refine isWhitespace_of_isDigit ?_
      by_contra hnot
      exact notMem_dims numbers hnot hcomma hc
  rw [htrim]
  constructor
  · intro hnil
    cases numbers with
    | nil => rfl
    | cons n numbers =>
      cases numbers with
      | nil =>
        rw [map_singleton, join_singleton] at hnil
        exact absurd hnil (decimal_ne_nil n)
      | cons next numbers =>
        rw [map_cons, map_cons, join_cons_cons, append_eq_nil_iff] at hnil
        exact absurd hnil.1 (decimal_ne_nil n)
  · rintro rfl
    rfl

/-- An array field with numbers as they are written. -/
theorem extractArrayField_of_split {obj before after : Str} {name : String} {numbers : List ℕ}
    (hsplit : splitOnce (quote :: name.toList ++ [quote, ':', '[']) obj =
      some (before, Str.join [','] (numbers.map decimal) ++ ']' :: after)) :
    extractArrayField obj name = numbers.mapM readNumber := by
  have hbracket : ']' ∉ Str.join [','] (numbers.map decimal) :=
    notMem_dims numbers (by decide) (by decide)
  have hend : splitOnce [']'] (Str.join [','] (numbers.map decimal) ++ ']' :: after) =
      some (Str.join [','] (numbers.map decimal), after) := by
    rw [splitOnce_append_of_notMem hbracket]
    have hself := @splitOnce_self after ']' []
    rw [singleton_append] at hself
    rw [hself]
    simp
  rw [extractArrayField, fieldText_eq, hsplit]
  simp only [hend, ok_bind, trim_join_eq_nil]
  by_cases hnil : numbers = []
  · rw [if_pos hnil, hnil]
    rfl
  · rw [if_neg hnil, mapM_splitOn_join hnil]

section

variable (shape : List ℕ) (start stop : ℕ)

theorem extractStrField_objectJson :
    extractStrField (objectJson shape start stop) "dtype" = .ok "F32".toList := by
  rw [extractStrField, fieldText_eq]
  rfl

theorem extractArrayField_shape :
    extractArrayField (objectJson shape start stop) "shape" = shape.mapM readNumber := by
  have hsplit : splitOnce (quote :: "shape".toList ++ [quote, ':', '['])
      (objectJson shape start stop) = some ("\x7b\"dtype\":\"F32\",".toList,
        Str.join [','] (shape.map decimal) ++ ']' ::
          (",\"data_offsets\":[".toList ++ decimal start ++ [','] ++ decimal stop ++
            [']', closeBrace])) := by
    simp only [objectJson, cons_append, append_assoc]
    rfl
  exact extractArrayField_of_split hsplit

/-- The name of the second array field does not start within what is written before it. -/
theorem splitOnce_fields (rest : Str) :
    splitOnce (quote :: "data_offsets".toList ++ [quote, ':', '['])
      ("\x7b\"dtype\":\"F32\",\"shape\":[".toList ++ rest) =
        (splitOnce (quote :: "data_offsets".toList ++ [quote, ':', '[']) rest).map fun parts ↦
          ("\x7b\"dtype\":\"F32\",\"shape\":[".toList ++ parts.1, parts.2) := by
  simp [splitOnce, List.isPrefixOf, quote]
  rfl

theorem extractArrayField_offsets :
    extractArrayField (objectJson shape start stop) "data_offsets" =
      [start, stop].mapM readNumber := by
  have hsplit : splitOnce (quote :: "data_offsets".toList ++ [quote, ':', '['])
      (objectJson shape start stop) = some
        ("\x7b\"dtype\":\"F32\",\"shape\":[".toList ++ Str.join [','] (shape.map decimal) ++
          "],".toList, Str.join [','] ([start, stop].map decimal) ++ ']' :: [closeBrace]) := by
    have hobject : objectJson shape start stop = "\x7b\"dtype\":\"F32\",\"shape\":[".toList ++
        ((Str.join [','] (shape.map decimal) ++ "],".toList) ++
          (quote :: "data_offsets".toList ++ [quote, ':', '['] ++
            (Str.join [','] ([start, stop].map decimal) ++ ']' :: [closeBrace]))) := by
      simp [objectJson, join_cons_cons, join_singleton]
      decide
    have hquote : quote ∉ Str.join [','] (shape.map decimal) ++ "],".toList := by
      rw [mem_append]
      exact fun hmem ↦ hmem.elim (notMem_dims shape (by decide) (by decide)) (by decide)
    rw [hobject, splitOnce_fields, cons_append, splitOnce_append_of_notMem hquote,
      splitOnce_self]
    simp
  exact extractArrayField_of_split hsplit

end

end SoulSystem.Scirust.Safetensors
