import SoulSystem.Scirust.Safetensors.Loading
import SoulSystem.Scirust.Safetensors.Written

/-!
# Saving and loading

A state dict comes back from its file exactly when none of its names has a quote or a backslash or
is `__metadata__`, and its dimensions and its size in bytes are numbers of 63 bits.  Names are
escaped when they are written and taken as they stand when they are read, and what is read under
`__metadata__` is no tensor.  The metadata always comes back.
-/

namespace SoulSystem.Scirust.Safetensors

open Library Str Outcome Std List ExtTreeMap SortedMap

variable {τ : Type}

/-! ## Reading a written object -/

theorem mapM_readNumber_eq_ok {numbers : List ℕ} (hsmall : ∀ n ∈ numbers, n < 2 ^ 63) :
    numbers.mapM readNumber = .ok (numbers.map fun n : ℕ ↦ (n : ℤ)) := by
  rw [mapM_eq_ok, forall₂_map_right_iff, forall₂_same]
  exact fun n hn ↦ if_pos (hsmall n hn)

theorem small_of_mapM_readNumber {numbers : List ℕ} {read : List ℤ}
    (hok : numbers.mapM readNumber = .ok read) : ∀ n ∈ numbers, n < 2 ^ 63 := by
  intro n hn
  obtain ⟨value, -, hvalue⟩ := exists_of_mem_mapM hok hn
  unfold readNumber at hvalue
  split at hvalue
  · rename_i hsmall
    exact hsmall
  · cases hvalue

section

variable {shape : List ℕ} {start stop : ℕ}

theorem readFields_objectJson (hdims : ∀ dim ∈ shape, dim < 2 ^ 63) (hstart : start < 2 ^ 63)
    (hstop : stop < 2 ^ 63) : readFields (objectJson shape start stop) =
      .ok (shape.map fun dim : ℕ ↦ (dim : ℤ), [(start : ℤ), (stop : ℤ)]) := by
  have hoffsets : ∀ n ∈ [start, stop], n < 2 ^ 63 := by
    rw [forall_mem_cons, forall_mem_singleton]
    exact ⟨hstart, hstop⟩
  have hshape := extractArrayField_shape shape start stop
  have hspan := extractArrayField_offsets shape start stop
  rw [mapM_readNumber_eq_ok hdims] at hshape
  rw [mapM_readNumber_eq_ok hoffsets] at hspan
  rw [readFields, extractStrField_objectJson, ok_bind]
  simp only [ne_eq, not_true_eq_false, if_false]
  rw [hshape, ok_bind, hspan]
  rfl

theorem small_of_checked {data : Bytes} {layout : Layout}
    (hchecked : Checked (objectJson shape start stop) data layout) :
    (∀ dim ∈ shape, dim < 2 ^ 63) ∧ stop < 2 ^ 63 := by
  have hdims := hchecked.shape
  have hspan := hchecked.offsets
  rw [extractArrayField_shape] at hdims
  rw [extractArrayField_offsets] at hspan
  exact ⟨small_of_mapM_readNumber hdims, small_of_mapM_readNumber hspan stop (by simp)⟩

theorem not_any_neg (numbers : List ℕ) :
    ¬ (numbers.map fun n : ℕ ↦ (n : ℤ)).any (· < 0) = true := by
  rw [any_eq_true]
  rintro ⟨value, hvalue, hneg⟩
  obtain ⟨n, -, rfl⟩ := List.mem_map.mp hvalue
  have hlt := of_decide_eq_true hneg
  omega

end

theorem f32s_flatMap (values : List F32) : f32s (values.flatMap F32.toLeBytes) = values := by
  induction values with
  | nil => rfl
  | cons x values ih =>
    have hbytes : ∃ b₀ b₁ b₂ b₃, F32.toLeBytes x = [b₀, b₁, b₂, b₃] := ⟨_, _, _, _, rfl⟩
    obtain ⟨b₀, b₁, b₂, b₃, hx⟩ := hbytes
    have hvalue := F32.fromLeBytes_toLeBytes x
    rw [hx] at hvalue
    rw [flatMap_cons, hx]
    change F32.fromLeBytes [b₀, b₁, b₂, b₃] :: f32s (values.flatMap F32.toLeBytes) = _
    rw [hvalue, ih]

theorem length_flatMap_toLeBytes (values : List F32) :
    (values.flatMap F32.toLeBytes).length = values.length * 4 := by
  induction values with
  | nil => rfl
  | cons x values ih =>
    rw [flatMap_cons, length_append, ih, F32.length_toLeBytes, length_cons]
    omega

/-- A way to read entries that takes a tensor's own object back to the tensor. -/
structure Reads (shape : τ → List ℕ) (values : τ → List F32)
    (read : Str → Bytes → Except Failure τ) : Prop where
  object : ∀ (t : τ) (start : ℕ) (data : Bytes), (∀ dim ∈ shape t, dim < 2 ^ 63) →
    start + (values t).length * 4 < 2 ^ 63 → start + (values t).length * 4 ≤ data.length →
    (data.drop start).take ((values t).length * 4) = (values t).flatMap F32.toLeBytes →
    read (objectJson (shape t) start (start + (values t).length * 4)) data = .ok t
  small : ∀ (dims : List ℕ) (start stop : ℕ) (data : Bytes) (t : τ),
    read (objectJson dims start stop) data = .ok t → (∀ dim ∈ dims, dim < 2 ^ 63) ∧ stop < 2 ^ 63

theorem checkSpan_written (data : Bytes) (start n : ℕ) (hstop : start + n * 4 ≤ data.length) :
    checkSpan data n start (start + n * 4) = .ok () :=
  checkSpan_eq_ok.mpr ⟨by omega, hstop, by omega, by omega⟩

theorem reads2D : Reads Tensor.shape Tensor.data read2D where
  object := by
    intro t start data hdims hstop hlength hdata
    have hproduct : checkedMul t.rows t.cols = some t.data.length := by
      refine checkedMul_eq_some.mpr ⟨?_, t.length_eq⟩
      rw [← t.length_eq, usizeRange]
      omega
    have hneg := not_any_neg ([t.rows, t.cols] ++ [start, start + t.data.length * 4])
    rw [map_append] at hneg
    have hlayout : layout2D (objectJson (Tensor.shape t) start (start + t.data.length * 4)) data =
        .ok { dims := [t.rows, t.cols], start, stop := start + t.data.length * 4 } := by
      rw [layout2D, readFields_objectJson hdims (by omega) hstop, ok_bind]
      simp only [Tensor.shape, map_cons, map_nil] at hneg ⊢
      rw [if_neg hneg]
      simp only [Int.toNat_natCast]
      rw [hproduct, orInvalid, ok_bind, checkSpan_written data start _ hlength]
      rfl
    have hspan : start + t.data.length * 4 - start = t.data.length * 4 := by omega
    have hfits : t.rows * t.cols < usizeRange := (checkedMul_eq_some.mp hproduct).1
    have hread : readFloats data start (start + t.data.length * 4) = .ok t.data := by
      rw [readFloats_eq (by omega) hlength (by omega), hspan, hdata, f32s_flatMap]
    rw [read2D, hlayout, ok_bind, hread, ok_bind]
    exact Tensor.fromVec_self t hfits
  small := by
    intro dims start stop data t hread
    obtain ⟨layout, hlayout, -⟩ := bind_eq_ok.mp hread
    exact small_of_checked (layout2D_eq_ok hlayout).1

theorem readsND : Reads TensorND.shape TensorND.data readND where
  object := by
    intro t start data hdims hstop hlength hdata
    have hneg := not_any_neg (t.shape ++ [start, start + t.data.length * 4])
    rw [map_append] at hneg
    have hcast : (t.shape.map fun dim : ℕ ↦ (dim : ℤ)).map Int.toNat = t.shape := by
      rw [List.map_map]
      exact (map_congr_left fun dim _ ↦ Int.toNat_natCast dim).trans (map_id t.shape)
    have hlayout : layoutND (objectJson t.shape start (start + t.data.length * 4)) data =
        .ok { dims := t.shape, start, stop := start + t.data.length * 4 } := by
      rw [layoutND, readFields_objectJson hdims (by omega) hstop, ok_bind]
      simp only [map_cons, map_nil] at hneg ⊢
      rw [if_neg hneg]
      simp only [Int.toNat_natCast, hcast]
      rw [t.numel, orInvalid, ok_bind, checkSpan_written data start _ hlength]
      rfl
    have hspan : start + t.data.length * 4 - start = t.data.length * 4 := by omega
    have hread : readFloats data start (start + t.data.length * 4) = .ok t.data := by
      rw [readFloats_eq (by omega) hlength (by omega), hspan, hdata, f32s_flatMap]
    rw [readND, hlayout, ok_bind, hread, ok_bind]
    exact TensorND.new_self t
  small := by
    intro dims start stop data t hread
    obtain ⟨layout, hlayout, -⟩ := bind_eq_ok.mp hread
    exact small_of_checked (layoutND_eq_ok hlayout).1

/-! ## What the loop writes -/

section

variable (shape : τ → List ℕ) (values : τ → List F32)

def entriesFrom : ℕ → List (Str × τ) → List Str
  | _, [] => []
  | offset, (name, t) :: tensors =>
    entryJson name (shape t) offset (offset + (values t).length * 4) ::
      entriesFrom (offset + (values t).length * 4) tensors

def rawOf (tensors : List (Str × τ)) : Bytes :=
  tensors.flatMap fun tensor ↦ (values tensor.2).flatMap F32.toLeBytes

theorem foldl_put (tensors : List (Str × τ)) (writer : Writer) :
    (tensors.foldl (Writer.put shape values) writer).entries =
        writer.entries ++ entriesFrom shape values writer.offset tensors ∧
      (tensors.foldl (Writer.put shape values) writer).rawData =
        writer.rawData ++ rawOf values tensors := by
  induction tensors generalizing writer with
  | nil => exact ⟨(append_nil _).symm, (append_nil _).symm⟩
  | cons tensor tensors ih =>
    obtain ⟨name, t⟩ := tensor
    obtain ⟨hentries, hraw⟩ := ih (writer.put shape values (name, t))
    rw [foldl_cons]
    constructor
    · rw [hentries, entriesFrom, Writer.put, append_assoc]
      rfl
    · have hsplit : rawOf values ((name, t) :: tensors) =
          (values t).flatMap F32.toLeBytes ++ rawOf values tensors := flatMap_cons ..
      rw [hraw, hsplit, ← append_assoc]
      rfl

/-- The objects that a scan of the written entries finds. -/
def scanned : ℕ → List (Str × τ) → List (Except Failure (Str × Str))
  | _, [] => []
  | offset, (name, t) :: tensors =>
    (if name = metadataKey then []
      else [.ok (escapeJson name,
        objectJson (shape t) offset (offset + (values t).length * 4))]) ++
      scanned (offset + (values t).length * 4) tensors

theorem entries_closeBrace : entries [closeBrace] = [] := by
  rw [entries_of_ne (by decide), entries]

theorem entries_written (offset : ℕ) (tensors : List (Str × τ)) :
    entries (Str.join [','] (entriesFrom shape values offset tensors) ++ [closeBrace]) =
      scanned shape values offset tensors := by
  induction tensors generalizing offset with
  | nil => exact entries_closeBrace
  | cons tensor tensors ih =>
    obtain ⟨name, t⟩ := tensor
    have hrest := ih (offset + (values t).length * 4)
    rw [scanned, entriesFrom]
    cases hnext : entriesFrom shape values (offset + (values t).length * 4) tensors with
    | nil =>
      rw [hnext] at hrest
      have hclose : scanned shape values (offset + (values t).length * 4) tensors = [] := by
        rw [← hrest]
        exact entries_closeBrace
      rw [join_singleton, entries_entryJson, entries_closeBrace, hclose]
    | cons next later =>
      rw [hnext] at hrest
      rw [join_cons_cons, append_assoc, append_assoc, singleton_append,
        entries_entryJson, entries_of_ne (by decide), hrest]

/-- A scan passes over the metadata. -/
theorem entries_metaJson (metadata : Metadata) (rest : Str) :
    entries (openBrace :: metaJson metadata ++ rest) = entries rest := by
  have hbody := (neutral_metaBody metadata).balanced_braces rest
  have hsplit : openBrace :: metaJson metadata ++ rest = openBrace :: quote ::
      (escapeJson metadataKey ++ quote :: ':' ::
        (openBrace :: metaBody metadata ++ closeBrace :: rest)) := by
    rw [escapeJson_metadataKey]
    simp [metaJson]
  have hdrop : (':' :: (openBrace :: metaBody metadata ++ closeBrace :: rest)).dropWhile
      isSeparator = openBrace :: metaBody metadata ++ closeBrace :: rest := rfl
  rw [hsplit, entries_of_ne (by decide), entries_of_key (closing_escapeJson metadataKey _), hdrop,
    if_pos escapeJson_metadataKey, afterObject, hbody]

/-! ## Reading what was written -/

/-- The tensors as they are read: without the one named as the metadata, under escaped names. -/
def returned (tensors : List (Str × τ)) : List (Str × τ) :=
  (tensors.filter fun tensor ↦ tensor.1 ≠ metadataKey).map fun tensor ↦
    (escapeJson tensor.1, tensor.2)

variable {shape values} {read : Str → Bytes → Except Failure τ}

theorem returned_cons_metadata (t : τ) (tensors : List (Str × τ)) :
    returned ((metadataKey, t) :: tensors) = returned tensors := by
  rw [returned, filter_cons_of_neg (by simp)]
  rfl

theorem returned_cons {name : Str} (hname : name ≠ metadataKey) (t : τ)
    (tensors : List (Str × τ)) :
    returned ((name, t) :: tensors) = (escapeJson name, t) :: returned tensors := by
  rw [returned, filter_cons_of_pos (by simpa using hname)]
  rfl

theorem length_rawOf_cons (tensor : Str × τ) (tensors : List (Str × τ)) :
    (rawOf values (tensor :: tensors)).length =
      (values tensor.2).length * 4 + (rawOf values tensors).length := by
  rw [rawOf, flatMap_cons, length_append, length_flatMap_toLeBytes]
  rfl

theorem mapM_scanned (hreads : Reads shape values read) {before : Bytes}
    {tensors : List (Str × τ)} {offset : ℕ} (hbefore : before.length = offset)
    (hdims : ∀ tensor ∈ tensors, ∀ dim ∈ shape tensor.2, dim < 2 ^ 63)
    (hbytes : offset + (rawOf values tensors).length < 2 ^ 63) :
    (scanned shape values offset tensors).mapM
        (readEntry read (before ++ rawOf values tensors)) = .ok (returned tensors) := by
  induction tensors generalizing before offset with
  | nil => rfl
  | cons tensor tensors ih =>
    obtain ⟨name, t⟩ := tensor
    have hlength : (rawOf values ((name, t) :: tensors)).length =
        (values t).length * 4 + (rawOf values tensors).length := length_rawOf_cons (name, t) tensors
    have hsplit : before ++ rawOf values ((name, t) :: tensors) =
        (before ++ (values t).flatMap F32.toLeBytes) ++ rawOf values tensors := by
      rw [append_assoc]
      rfl
    have hnext : (before ++ (values t).flatMap F32.toLeBytes).length =
        offset + (values t).length * 4 := by
      rw [length_append, length_flatMap_toLeBytes, hbefore]
    have hrest := ih hnext (fun tensor hmem ↦ hdims tensor (mem_cons_of_mem _ hmem))
      (by omega)
    rw [scanned, mapM_append, hsplit, hrest]
    by_cases hmeta : name = metadataKey
    · rw [if_pos hmeta, hmeta, returned_cons_metadata]
      rfl
    · have hread : read (objectJson (shape t) offset (offset + (values t).length * 4))
          ((before ++ (values t).flatMap F32.toLeBytes) ++ rawOf values tensors) = .ok t := by
        refine hreads.object t offset _ (hdims (name, t) mem_cons_self) (by omega) ?_ ?_
        · rw [length_append, hnext]
          omega
        · rw [append_assoc, ← hbefore, drop_left, ← length_flatMap_toLeBytes,
            take_left]
      rw [if_neg hmeta, mapM_cons, readEntry_ok, hread, returned_cons hmeta]
      rfl

/-- Whatever the objects are read as, it is under the names that are returned. -/
theorem keys_of_mapM_scanned {data : Bytes} {tensors pairs : List (Str × τ)} {offset : ℕ}
    (hok : (scanned shape values offset tensors).mapM (readEntry read data) = .ok pairs) :
    pairs.map Prod.fst = (returned tensors).map Prod.fst := by
  induction tensors generalizing offset pairs with
  | nil =>
    cases hok
    rfl
  | cons tensor tensors ih =>
    obtain ⟨name, t⟩ := tensor
    rw [scanned, mapM_append] at hok
    obtain ⟨first, hfirst, hok⟩ := bind_eq_ok.mp hok
    obtain ⟨later, hlater, hpairs⟩ := bind_eq_ok.mp hok
    cases hpairs
    rw [map_append, ih hlater]
    by_cases hmeta : name = metadataKey
    · rw [if_pos hmeta] at hfirst
      cases hfirst
      rw [hmeta, returned_cons_metadata]
      rfl
    · rw [if_neg hmeta, mapM_cons, readEntry_ok] at hfirst
      obtain ⟨pair, hpair, hnil⟩ := bind_eq_ok.mp hfirst
      obtain ⟨value, -, heq⟩ := bind_eq_ok.mp hpair
      cases heq
      cases hnil
      rw [returned_cons hmeta]
      rfl

theorem small_of_mapM_scanned (hreads : Reads shape values read) {data : Bytes}
    {tensors pairs : List (Str × τ)} {offset : ℕ}
    (hnames : ∀ tensor ∈ tensors, tensor.1 ≠ metadataKey)
    (hok : (scanned shape values offset tensors).mapM (readEntry read data) = .ok pairs) :
    (∀ tensor ∈ tensors, ∀ dim ∈ shape tensor.2, dim < 2 ^ 63) ∧
      (tensors = [] ∨ offset + (rawOf values tensors).length < 2 ^ 63) := by
  induction tensors generalizing offset pairs with
  | nil => exact ⟨by simp, .inl rfl⟩
  | cons tensor tensors ih =>
    obtain ⟨name, t⟩ := tensor
    have hname : name ≠ metadataKey := hnames (name, t) mem_cons_self
    have hlength : (rawOf values ((name, t) :: tensors)).length =
        (values t).length * 4 + (rawOf values tensors).length := length_rawOf_cons (name, t) tensors
    rw [scanned, if_neg hname, singleton_append, mapM_cons, readEntry_ok] at hok
    obtain ⟨pair, hpair, hok⟩ := bind_eq_ok.mp hok
    obtain ⟨later, hlater, -⟩ := bind_eq_ok.mp hok
    obtain ⟨value, hread, -⟩ := bind_eq_ok.mp hpair
    obtain ⟨hdims, hstop⟩ := hreads.small _ _ _ _ _ hread
    obtain ⟨hrest, hbytes⟩ :=
      ih (fun tensor hmem ↦ hnames tensor (mem_cons_of_mem _ hmem)) hlater
    constructor
    · intro tensor hmem
      cases List.mem_cons.mp hmem with
      | inl hhead => rwa [hhead]
      | inr htail => exact hrest tensor htail
    · right
      rw [hlength]
      cases hbytes with
      | inl hnil =>
        rw [hnil, rawOf, flatMap_nil, length_nil]
        omega
      | inr hbytes => omega

/-! ## The file -/

theorem splitHeader_assemble {header : Str} (rawData : Bytes)
    (hsmall : (utf8 header).length ≤ maxHeaderSize) :
    splitHeader (assemble header rawData) = .ok (header, rawData) := by
  have hlength : (assemble header rawData).length =
      8 + (utf8 header).length + rawData.length := by
    rw [assemble, length_append, length_append, ByteCursor.length_leBytes]
  have hsize : sliceBytes (assemble header rawData) 0 8 =
      .ok (ByteCursor.leBytes 8 (utf8 header).length) := by
    rw [sliceBytes_of_le (Nat.zero_le 8) (by omega), assemble, append_assoc, drop_zero,
      take_left' (ByteCursor.length_leBytes 8 _)]
  have hvalue : ByteCursor.fromLeBytes (ByteCursor.leBytes 8 (utf8 header).length) =
      (utf8 header).length := by
    rw [ByteCursor.fromLeBytes_leBytes, Nat.mod_eq_of_lt]
    unfold maxHeaderSize at hsmall
    omega
  have hheader : sliceBytes (assemble header rawData) 8 (8 + (utf8 header).length) =
      .ok (utf8 header) := by
    rw [sliceBytes_of_le (by omega) (by omega), assemble, append_assoc,
      drop_left' (ByteCursor.length_leBytes 8 _), Nat.add_sub_cancel_left, take_left]
  have hdata : sliceBytesFrom (assemble header rawData) (8 + (utf8 header).length) =
      .ok rawData := by
    rw [sliceBytesFrom_of_le (by omega), assemble, drop_left']
    rw [length_append, ByteCursor.length_leBytes]
  rw [splitHeader, if_neg (by omega), hsize, ok_bind]
  simp only [hvalue]
  rw [if_neg (by omega), if_neg (by omega), hheader, ok_bind, fromUtf8_utf8]
  simp only [hdata]
  rfl

theorem extractMetadata_metaJson {metadata : Metadata} {rest : Str}
    (hsmall : (utf8 (openBrace :: metaJson metadata ++ rest)).length ≤ maxHeaderSize) :
    extractMetadata (openBrace :: metaJson metadata ++ rest) = .ok metadata.toMap := by
  have hlength : (utf8 (openBrace :: metaJson metadata ++ rest)).length < 2 ^ 31 := by
    unfold maxHeaderSize at hsmall
    omega
  rw [extractMetadata_eq hlength, sectionPairs_of_metaJson]
  rfl

/-! ## State dicts -/

variable (shape values)

/-- The condition for a state dict to come back. -/
structure Writable (state : ExtTreeMap Str τ) : Prop where
  names : ∀ name ∈ state, quote ∉ name ∧ backslash ∉ name ∧ name ≠ metadataKey
  dims : ∀ (name : Str) (t : τ), state[name]? = some t → ∀ dim ∈ shape t, dim < 2 ^ 63
  bytes : (writeTensors shape values state).rawData.length < 2 ^ 63

variable {shape values} {state : ExtTreeMap Str τ}

theorem rawData_writeTensors :
    (writeTensors shape values state).rawData = rawOf values state.toList :=
  (foldl_put shape values state.toList _).2

theorem entries_writeTensors :
    (writeTensors shape values state).entries = entriesFrom shape values 0 state.toList :=
  (foldl_put shape values state.toList _).1

theorem mem_returned_iff {key : Str} : key ∈ (returned state.toList).map Prod.fst ↔
    ∃ name ∈ state, name ≠ metadataKey ∧ escapeJson name = key := by
  simp only [returned, List.map_map, mem_map, mem_filter]
  constructor
  · rintro ⟨⟨name, t⟩, ⟨hmem, hname⟩, rfl⟩
    exact ⟨name, mem_of_getElem?_eq_some
      (ExtTreeMap.mem_toList_iff_getElem?_eq_some.mp hmem), by simpa using hname, rfl⟩
  · rintro ⟨name, hmem, hname, rfl⟩
    obtain ⟨t, ht⟩ := exists_getElem?_of_mem hmem
    exact ⟨(name, t), ⟨ExtTreeMap.mem_toList_iff_getElem?_eq_some.mpr ht, by simpa using hname⟩, rfl⟩

/-- When the names come back, none of them was changed by escaping. -/
theorem names_of_returned
    (hsame : ∀ key, key ∈ state ↔ key ∈ (returned state.toList).map Prod.fst) :
    ∀ name ∈ state, quote ∉ name ∧ backslash ∉ name ∧ name ≠ metadataKey := by
  intro name hname
  induction hn : name.length using Nat.strong_induction_on generalizing name with
  | _ n ih =>
    subst hn
    obtain ⟨source, hsource, hother, hescape⟩ := mem_returned_iff.mp ((hsame name).mp hname)
    by_cases hspecial : quote ∈ source ∨ backslash ∈ source
    · have hlonger := length_lt_escapeJson hspecial
      rw [hescape] at hlonger
      have hplain := ih source.length hlonger source hsource rfl
      exact absurd hspecial (not_or.mpr ⟨hplain.1, hplain.2.1⟩)
    · rw [not_or] at hspecial
      rw [escapeJson_of_plain hspecial.1 hspecial.2] at hescape
      subst hescape
      exact ⟨hspecial.1, hspecial.2, hother⟩

theorem returned_of_names
    (hnames : ∀ name ∈ state, quote ∉ name ∧ backslash ∉ name ∧ name ≠ metadataKey) :
    returned state.toList = state.toList := by
  have hkept : state.toList.filter (fun tensor ↦ tensor.1 ≠ metadataKey) = state.toList := by
    rw [filter_eq_self]
    rintro ⟨name, t⟩ hmem
    have hname := mem_of_getElem?_eq_some
      (ExtTreeMap.mem_toList_iff_getElem?_eq_some.mp hmem)
    simpa using (hnames name hname).2.2
  rw [returned, hkept]
  refine (map_congr_left ?_).trans (map_id state.toList)
  rintro ⟨name, t⟩ hmem
  have hname := mem_of_getElem?_eq_some
    (ExtTreeMap.mem_toList_iff_getElem?_eq_some.mp hmem)
  rw [escapeJson_of_plain (hnames name hname).1 (hnames name hname).2.1]
  rfl

theorem mem_foldl_insertPair {pairs : List (Str × τ)} {out : ExtTreeMap Str τ} {key : Str} :
    key ∈ pairs.foldl insertPair out ↔ key ∈ out ∨ key ∈ pairs.map Prod.fst := by
  induction pairs generalizing out with
  | nil => simp
  | cons pair pairs ih =>
    rw [foldl_cons, ih, insertPair, SortedMap.mem_insert_iff, map_cons, mem_cons]
    tauto

theorem foldl_insertPair_toList (state : ExtTreeMap Str τ) :
    state.toList.foldl insertPair ∅ = state := by
  apply ExtTreeMap.ext_getElem?
  intro key
  have hmerge := getElem?_foldl_insert_map state id ∅ key
  rw [foldl_eq_foldl_toList, Option.map_id_fun, id_eq] at hmerge
  refine hmerge.trans ?_
  simp

/-- The written entries are read as the state dict exactly under the condition. -/
theorem parseEntries_eq_ok_iff (hreads : Reads shape values read) {header : Str}
    (hlength : (utf8 header).length < 2 ^ 31)
    (hentries : entries header = scanned shape values 0 state.toList) :
    parseEntries read header (rawOf values state.toList) = .ok state ↔
      Writable shape values state := by
  rw [parseEntries_eq read _ hlength, hentries, foldlM_addEntry]
  constructor
  · intro hok
    obtain ⟨pairs, hpairs, hstate⟩ := bind_eq_ok.mp hok
    have hkeys := keys_of_mapM_scanned hpairs
    have hsame : ∀ key, key ∈ state ↔ key ∈ (returned state.toList).map Prod.fst := by
      intro key
      have hmem : key ∈ pairs.foldl insertPair ∅ ↔ key ∈ (returned state.toList).map Prod.fst := by
        rw [mem_foldl_insertPair, hkeys]
        simp
      rwa [Except.ok.inj hstate] at hmem
    have hnames := names_of_returned hsame
    have hothers : ∀ tensor ∈ state.toList, tensor.1 ≠ metadataKey := by
      rintro ⟨name, t⟩ hmem
      exact (hnames name (mem_of_getElem?_eq_some
        (ExtTreeMap.mem_toList_iff_getElem?_eq_some.mp hmem))).2.2
    obtain ⟨hdims, hbytes⟩ := small_of_mapM_scanned hreads hothers hpairs
    refine ⟨hnames, fun name t ht ↦ ?_, ?_⟩
    · exact hdims (name, t) (ExtTreeMap.mem_toList_iff_getElem?_eq_some.mpr ht)
    · rw [rawData_writeTensors]
      cases hbytes with
      | inl hnil => simp [hnil, rawOf]
      | inr hbytes => omega
  · intro hwritable
    have hbytes := hwritable.bytes
    rw [rawData_writeTensors] at hbytes
    have hdims : ∀ tensor ∈ state.toList, ∀ dim ∈ shape tensor.2, dim < 2 ^ 63 := by
      rintro ⟨name, t⟩ hmem
      exact hwritable.dims name t (ExtTreeMap.mem_toList_iff_getElem?_eq_some.mp hmem)
    have hmap := @mapM_scanned _ _ _ _ hreads [] _ 0 rfl hdims (by omega)
    rw [nil_append] at hmap
    rw [hmap, ok_bind, returned_of_names hwritable.names, foldl_insertPair_toList]

end

/-! ## The two round trips -/

theorem entries_headerJson (state : ExtTreeMap Str Tensor) (metadata : Metadata) :
    entries (headerJson state metadata) = scanned Tensor.shape Tensor.data 0 state.toList := by
  have hsplit : headerJson state metadata = openBrace :: metaJson metadata ++
      (',' :: (Str.join [','] (entriesFrom Tensor.shape Tensor.data 0 state.toList) ++
        [closeBrace])) := by
    rw [headerJson, entries_writeTensors]
    simp
  rw [hsplit, entries_metaJson, entries_of_ne (by decide), entries_written]

theorem entries_headerJsonND (state : ExtTreeMap Str TensorND) (metadata : Metadata) :
    entries (headerJsonND state metadata) =
      scanned TensorND.shape TensorND.data 0 state.toList := by
  have hwritten := entries_written TensorND.shape TensorND.data 0 state.toList
  rw [headerJsonND]
  simp only [entries_writeTensors]
  by_cases hnil : entriesFrom TensorND.shape TensorND.data 0 state.toList = []
  · rw [if_pos hnil, entries_metaJson, ← hwritten, hnil]
    rfl
  · have hsplit : openBrace :: metaJson metadata ++ [','] ++
        Str.join [','] (entriesFrom TensorND.shape TensorND.data 0 state.toList) ++ [closeBrace] =
          openBrace :: metaJson metadata ++ (',' ::
            (Str.join [','] (entriesFrom TensorND.shape TensorND.data 0 state.toList) ++
              [closeBrace])) := by simp
    rw [if_neg hnil, hsplit, entries_metaJson, entries_of_ne (by decide), hwritten]

theorem exists_headerJson (state : ExtTreeMap Str Tensor) (metadata : Metadata) :
    ∃ rest, headerJson state metadata = openBrace :: metaJson metadata ++ rest := by
  rw [headerJson, append_assoc, append_assoc]
  exact ⟨_, rfl⟩

theorem exists_headerJsonND (state : ExtTreeMap Str TensorND) (metadata : Metadata) :
    ∃ rest, headerJsonND state metadata = openBrace :: metaJson metadata ++ rest := by
  unfold headerJsonND
  simp only
  split
  · exact ⟨_, rfl⟩
  · rw [append_assoc, append_assoc]
    exact ⟨_, rfl⟩

def RoundTrips (state : ExtTreeMap Str Tensor) (metadata : Metadata) : Prop :=
  deserializeStateDict (serializeStateDict state metadata) = .ok (state, metadata.toMap)

def RoundTripsND (state : ExtTreeMap Str TensorND) (metadata : Metadata) : Prop :=
  deserializeStateDictND (serializeStateDictND state metadata) = .ok (state, metadata.toMap)

theorem length_lt_of_small {header : Str} (hsmall : (utf8 header).length ≤ maxHeaderSize) :
    (utf8 header).length < 2 ^ 31 := by
  unfold maxHeaderSize at hsmall
  omega

theorem pair_bind_eq_ok {α β : Type} {x : Except Failure α} {a : α} {b : β} :
    (x >>= fun a' ↦ pure (a', b)) = .ok (a, b) ↔ x = .ok a := by
  cases x with
  | error failure => exact iff_of_false (fun hok ↦ by cases hok) (fun hok ↦ by cases hok)
  | ok a' =>
    rw [ok_bind, pure_eq_ok]
    simp [eq_comm]

theorem roundTrips_iff {state : ExtTreeMap Str Tensor} {metadata : Metadata}
    (hsmall : (utf8 (headerJson state metadata)).length ≤ maxHeaderSize) :
    RoundTrips state metadata ↔ Writable Tensor.shape Tensor.data state := by
  obtain ⟨rest, hrest⟩ := exists_headerJson state metadata
  have hmetadata : extractMetadata (headerJson state metadata) = .ok metadata.toMap := by
    rw [hrest] at hsmall ⊢
    exact extractMetadata_metaJson hsmall
  rw [RoundTrips, serializeStateDict, deserializeStateDict, splitHeader_assemble _ hsmall, ok_bind]
  simp only [hmetadata, ok_bind]
  rw [pair_bind_eq_ok, rawData_writeTensors]
  exact parseEntries_eq_ok_iff reads2D (length_lt_of_small hsmall) (entries_headerJson state metadata)

theorem roundTripsND_iff {state : ExtTreeMap Str TensorND} {metadata : Metadata}
    (hsmall : (utf8 (headerJsonND state metadata)).length ≤ maxHeaderSize) :
    RoundTripsND state metadata ↔ Writable TensorND.shape TensorND.data state := by
  obtain ⟨rest, hrest⟩ := exists_headerJsonND state metadata
  have hmetadata : extractMetadata (headerJsonND state metadata) = .ok metadata.toMap := by
    rw [hrest] at hsmall ⊢
    exact extractMetadata_metaJson hsmall
  rw [RoundTripsND, serializeStateDictND, deserializeStateDictND, splitHeader_assemble _ hsmall,
    ok_bind]
  simp only [hmetadata, ok_bind]
  rw [pair_bind_eq_ok, rawData_writeTensors]
  exact parseEntries_eq_ok_iff readsND (length_lt_of_small hsmall)
    (entries_headerJsonND state metadata)

/-- **Saving and loading.**  With a header within the limit, a state dict comes back with its
metadata exactly when its names need no escaping and do not name the metadata, and its numbers have
63 bits. -/
theorem roundTrips_iff_writable (state : ExtTreeMap Str Tensor) (stateND : ExtTreeMap Str TensorND)
    (metadata : Metadata) (hsmall : (utf8 (headerJson state metadata)).length ≤ maxHeaderSize)
    (hsmallND : (utf8 (headerJsonND stateND metadata)).length ≤ maxHeaderSize) :
    (RoundTrips state metadata ↔ Writable Tensor.shape Tensor.data state) ∧
      (RoundTripsND stateND metadata ↔ Writable TensorND.shape TensorND.data stateND) :=
  ⟨roundTrips_iff hsmall, roundTripsND_iff hsmallND⟩

/-- A single value. -/
def oneValue : Tensor := { rows := 1, cols := 1, data := [1065353216], length_eq := rfl }

def single (name : Str) : ExtTreeMap Str Tensor := (∅ : ExtTreeMap Str Tensor).insert name oneValue

/-- A value with quotes and braces. -/
def noted : Metadata :=
  { entries := [("note".toList, "\x7b\"a\"\x7d\\".toList)], nodup := by decide }

theorem getElem?_single {name key : Str} {t : Tensor} (ht : (single name)[key]? = some t) :
    key = name ∧ t = oneValue := by
  rw [single, ExtTreeMap.getElem?_insert] at ht
  split at ht
  · rename_i hsame
    cases ht
    exact ⟨(LawfulEqCmp.eq_of_compare hsame).symm, rfl⟩
  · rw [getElem?_empty] at ht
    cases ht

theorem roundTrips_single : RoundTrips (single "w".toList) noted ∧ RoundTripsND ∅ noted := by
  have hboth := roundTrips_iff_writable (single "w".toList) ∅ noted (by decide +kernel)
    (by decide +kernel)
  refine ⟨hboth.1.mpr ⟨fun name hname ↦ ?_, fun name t ht dim hdim ↦ ?_, by decide +kernel⟩,
    hboth.2.mpr ⟨fun name hname ↦ ?_, fun name t ht ↦ ?_, by decide +kernel⟩⟩
  · obtain ⟨t, ht⟩ := exists_getElem?_of_mem hname
    rw [(getElem?_single ht).1]
    decide
  · rw [(getElem?_single ht).2, Tensor.shape, oneValue] at hdim
    simp only [mem_cons, not_mem_nil, or_false, or_self] at hdim
    omega
  · exact absurd hname not_mem_empty
  · rw [getElem?_empty] at ht
    cases ht

/-- A name with a quote comes back with a backslash. -/
theorem not_roundTrips_quoted :
    (utf8 (headerJson (single "a\"b".toList) noted)).length ≤ maxHeaderSize ∧
      ¬ RoundTrips (single "a\"b".toList) noted := by
  have hsmall : (utf8 (headerJson (single "a\"b".toList) noted)).length ≤ maxHeaderSize := by
    decide +kernel
  refine ⟨hsmall, fun htrip ↦ ?_⟩
  have hnames := ((roundTrips_iff hsmall).mp htrip).names "a\"b".toList (by
    rw [single, SortedMap.mem_insert_iff]
    exact .inl rfl)
  exact hnames.1 (by decide)

end SoulSystem.Scirust.Safetensors
