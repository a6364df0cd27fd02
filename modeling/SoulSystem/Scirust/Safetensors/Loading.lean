import SoulSystem.Library.SortedMap
import SoulSystem.Scirust.Safetensors.Entry

/-!
# Loading untrusted files

Whatever the bytes are, loading returns a value or an error, and the tensors it returns are those of
the file.  The one exception is the loader for tensors of any rank, which computes the strides of a
shape without a check: a dimension of zero makes the product of a shape small whatever the other
dimensions are, but not its strides.
-/

namespace SoulSystem.Scirust.Safetensors

open Library Str Outcome Std List Returns

variable {τ : Type} {header : Str} {data bytes : Bytes}

/-! ## The file -/

theorem sliceBytes_of_le {start stop : ℕ} (hstart : start ≤ stop) (hstop : stop ≤ bytes.length) :
    sliceBytes bytes start stop = .ok ((bytes.drop start).take (stop - start)) :=
  if_pos ⟨hstart, hstop⟩

theorem returns_splitHeader : Returns (splitHeader bytes) := by
  unfold splitHeader
  split
  · exact error (by simp)
  · rename_i hlong
    rw [sliceBytes_of_le (Nat.zero_le 8) (Nat.le_of_not_lt hlong), ok_bind]
    dsimp only
    split
    · exact error (by simp)
    · split
      · exact error (by simp)
      · rename_i hin
        have hle := Nat.le_of_not_lt hin
        rw [sliceBytes_of_le (Nat.le_add_right 8 _) hle, ok_bind]
        split
        · exact error (by simp)
        · rw [sliceBytesFrom_of_le hle, ok_bind]
          exact ok _

theorem length_header (hsplit : splitHeader bytes = .ok (header, data)) :
    (utf8 header).length < 2 ^ 31 := by
  unfold splitHeader at hsplit
  split at hsplit
  · cases hsplit
  · obtain ⟨sizeBytes, -, hsplit⟩ := bind_eq_ok.mp hsplit
    dsimp only at hsplit
    split at hsplit
    · cases hsplit
    · rename_i hsmall
      split at hsplit
      · cases hsplit
      · obtain ⟨headerBytes, hslice, hsplit⟩ := bind_eq_ok.mp hsplit
        split at hsplit
        · cases hsplit
        · rename_i decoded hdecode
          obtain ⟨rest, -, hpair⟩ := bind_eq_ok.mp hsplit
          cases hpair
          unfold sliceBytes at hslice
          split at hslice
          · cases hslice
            rw [utf8_of_fromUtf8 hdecode, length_take]
            unfold maxHeaderSize at hsmall
            omega
          · cases hslice

/-! ## The entries -/

section

variable (read : Str → Bytes → Except Failure τ) (data : Bytes)

/-- An entry of a header with what it is read as. -/
def readEntry (entry : Except Failure (Str × Str)) : Except Failure (Str × τ) := do
  let (key, obj) ← entry
  let value ← read obj data
  return (key, value)

theorem readEntry_ok (key obj : Str) : readEntry read data (.ok (key, obj)) =
    read obj data >>= fun value ↦ .ok (key, value) := rfl

theorem addEntry_eq (out : ExtTreeMap Str τ) (entry : Except Failure (Str × Str)) :
    addEntry read data out entry =
      readEntry read data entry >>= fun pair ↦ .ok (insertPair out pair) := by
  cases entry with
  | error failure => rfl
  | ok pair =>
    obtain ⟨key, obj⟩ := pair
    rw [addEntry, readEntry_ok]
    cases read obj data <;> rfl

/-- The loop reads all entries and keeps what it read last under each name. -/
theorem foldlM_addEntry (es : List (Except Failure (Str × Str))) (out : ExtTreeMap Str τ) :
    es.foldlM (addEntry read data) out =
      es.mapM (readEntry read data) >>= fun pairs ↦ .ok (pairs.foldl insertPair out) := by
  induction es generalizing out with
  | nil => rfl
  | cons entry es ih =>
    rw [foldlM_cons, mapM_cons, addEntry_eq]
    cases readEntry read data entry with
    | error failure => rfl
    | ok pair =>
      rw [ok_bind, ok_bind, ok_bind, ih]
      cases es.mapM (readEntry read data) <;> rfl

theorem readEntry_eq_ok {entry : Except Failure (Str × Str)} {key : Str} {value : τ} :
    readEntry read data entry = .ok (key, value) ↔
      ∃ obj, entry = .ok (key, obj) ∧ read obj data = .ok value := by
  constructor
  · intro hok
    obtain ⟨⟨key', obj⟩, hentry, hrest⟩ := bind_eq_ok.mp hok
    obtain ⟨value', hvalue, hpair⟩ := bind_eq_ok.mp hrest
    cases hpair
    exact ⟨obj, hentry, hvalue⟩
  · rintro ⟨obj, rfl, hvalue⟩
    rw [readEntry_ok, hvalue, ok_bind]

/-- No entry is a fault of the scan. -/
theorem returns_of_mem_entries {text : Str} {entry : Except Failure (Str × Str)}
    (hentry : entry ∈ entries text) : Returns entry := by
  induction hn : text.length using Nat.strong_induction_on generalizing text with
  | _ n ih =>
    subst hn
    cases text with
    | nil =>
      rw [entries] at hentry
      cases hentry
    | cons c rest =>
      by_cases hc : c = quote
      · subst hc
        cases hclosing : closing false rest with
        | none =>
          rw [entries_of_open hclosing, mem_singleton] at hentry
          rw [hentry]
          exact error (by simp)
        | some parts =>
          obtain ⟨key, after⟩ := parts
          have hshort := length_afterObject_lt (c := quote) hclosing
          rw [entries_of_key hclosing] at hentry
          split at hentry
          · exact ih _ hshort hentry rfl
          · split at hentry
            · rw [mem_singleton] at hentry
              rw [hentry]
              exact error (by simp)
            · cases List.mem_cons.mp hentry with
              | inl hhead =>
                rw [hhead]
                exact ok _
              | inr htail => exact ih _ hshort htail rfl
      · rw [entries_of_ne hc] at hentry
        exact ih _ (Nat.lt_succ_self _) hentry rfl

/-- What the map holds under a name was read last under it. -/
theorem getElem?_foldl_insertPair {pairs : List (Str × τ)} {out : ExtTreeMap Str τ} {key : Str}
    {value : τ} (hvalue : (pairs.foldl insertPair out)[key]? = some value) :
    (∃ before after, pairs = before ++ (key, value) :: after ∧ key ∉ after.map Prod.fst) ∨
      out[key]? = some value ∧ key ∉ pairs.map Prod.fst := by
  induction pairs generalizing out with
  | nil => exact .inr ⟨hvalue, not_mem_nil⟩
  | cons pair pairs ih =>
    rw [foldl_cons] at hvalue
    rcases ih hvalue with ⟨before, after, hpairs, hlast⟩ | ⟨hout, hrest⟩
    · exact .inl ⟨pair :: before, after, by rw [hpairs]; rfl, hlast⟩
    · rw [insertPair, ExtTreeMap.getElem?_insert] at hout
      split at hout
      · rename_i hsame
        have hkey : pair.1 = key := LawfulEqCmp.eq_of_compare hsame
        cases hout
        subst hkey
        exact .inl ⟨[], pairs, rfl, hrest⟩
      · rename_i hother
        refine .inr ⟨hout, ?_⟩
        rw [map_cons, mem_cons, not_or]
        refine ⟨fun heq ↦ hother ?_, hrest⟩
        rw [heq]
        exact ReflCmp.compare_self

variable {read : Str → Bytes → Except Failure τ} {data}

/-- A value in the result of the loop was read from the last entry under its name. -/
theorem parseEntries_provenance {tensors : ExtTreeMap Str τ} {key : Str} {value : τ}
    (hlength : (utf8 header).length < 2 ^ 31) (hparse : parseEntries read header data = .ok tensors)
    (hvalue : tensors[key]? = some value) : ∃ before obj after,
      entries header = before ++ .ok (key, obj) :: after ∧
      (∀ obj', .ok (key, obj') ∉ after) ∧ read obj data = .ok value := by
  rw [parseEntries_eq read data hlength, foldlM_addEntry] at hparse
  obtain ⟨pairs, hpairs, htensors⟩ := bind_eq_ok.mp hparse
  cases htensors
  rcases getElem?_foldl_insertPair hvalue with ⟨before, after, rfl, hlast⟩ | ⟨hempty, -⟩
  · have hrest := forall₂_drop_append _ before _ (mapM_eq_ok.mp hpairs)
    have hentries := (take_append_drop before.length (entries header)).symm
    generalize (entries header).drop before.length = rest at hrest hentries
    cases hrest with
    | cons hentry hafter =>
      obtain ⟨obj, rfl, hread⟩ := (readEntry_eq_ok read data).mp hentry
      refine ⟨_, obj, _, hentries, fun obj' hmem ↦ hlast ?_, hread⟩
      obtain ⟨pair, hpair, hrelated⟩ := exists_of_mem_mapM (mapM_eq_ok.mpr hafter) hmem
      obtain ⟨obj'', heq, -⟩ := (readEntry_eq_ok read data).mp hrelated
      cases heq
      exact mem_map_of_mem hpair
  · rw [ExtTreeMap.getElem?_empty] at hempty
    cases hempty

/-- The loop faults exactly when reading the first entry that is not accepted does. -/
theorem parseEntries_eq_fault (hlength : (utf8 header).length < 2 ^ 31) :
    parseEntries read header data = .error .fault ↔ ∃ before key obj after,
      entries header = before ++ .ok (key, obj) :: after ∧
      (∀ entry ∈ before, ∃ key' obj' value, entry = .ok (key', obj') ∧
        read obj' data = .ok value) ∧ read obj data = .error .fault := by
  rw [parseEntries_eq read data hlength, foldlM_addEntry, bind_eq_error, mapM_eq_error]
  constructor
  · rintro (⟨before, entry, after, hentries, hbefore, hfault⟩ | ⟨pairs, -, hpure⟩)
    · have hreturns : Returns entry := @returns_of_mem_entries header entry (by
        rw [hentries]
        exact mem_append_right before mem_cons_self)
      cases entry with
      | error failure => exact absurd (congrArg Except.error (Except.error.inj hfault)) hreturns
      | ok pair =>
        obtain ⟨key, obj⟩ := pair
        refine ⟨before, key, obj, after, hentries, fun entry hentry ↦ ?_, ?_⟩
        · obtain ⟨⟨key', value⟩, hok⟩ := hbefore entry hentry
          obtain ⟨obj', heq, hread⟩ := (readEntry_eq_ok read data).mp hok
          exact ⟨key', obj', value, heq, hread⟩
        · rw [readEntry_ok] at hfault
          cases bind_eq_error.mp hfault with
          | inl herror => exact herror
          | inr hlater =>
            obtain ⟨value, -, hpure⟩ := hlater
            cases hpure
    · cases hpure
  · rintro ⟨before, key, obj, after, hentries, hbefore, hfault⟩
    refine .inl ⟨before, .ok (key, obj), after, hentries, fun entry hentry ↦ ?_, ?_⟩
    · obtain ⟨key', obj', value, rfl, hread⟩ := hbefore entry hentry
      exact ⟨(key', value), (readEntry_eq_ok read data).mpr ⟨obj', rfl, hread⟩⟩
    · rw [readEntry_ok, hfault]
      rfl

end

/-! ## The loaders -/

theorem returns_parseHeader (hlength : (utf8 header).length < 2 ^ 31) :
    Returns (parseHeader header data) := by
  intro hfault
  obtain ⟨before, key, obj, after, -, -, hread⟩ := (parseEntries_eq_fault hlength).mp hfault
  exact returns_read2D hread

theorem returns_extractMetadata (hlength : (utf8 header).length < 2 ^ 31) :
    Returns (extractMetadata header) := by
  rw [extractMetadata_eq hlength]
  exact ok _

/-- A tensor is the one that a file stores under a name: in its last entry of that name. -/
def StoredIn (bytes : Bytes) (key : Str) (shape : List ℕ) (values : List F32) : Prop :=
  ∃ header data before obj after, splitHeader bytes = .ok (header, data) ∧
    entries header = before ++ .ok (key, obj) :: after ∧ (∀ obj', .ok (key, obj') ∉ after) ∧
    Stored obj data shape values

/-- Loading a file neither faults nor returns a tensor that the file does not store. -/
structure LoadsSafely (bytes : Bytes) : Prop where
  deserialize_returns : Returns (deserialize bytes)
  deserializeWithMetadata_returns : Returns (deserializeWithMetadata bytes)
  deserializeStateDict_returns : Returns (deserializeStateDict bytes)
  deserializeStateDictND_returns : Returns (deserializeStateDictND bytes)
  deserialize_stored : ∀ tensors, deserialize bytes = .ok tensors →
    ∀ (key : Str) (t : Tensor), tensors[key]? = some t → StoredIn bytes key [t.rows, t.cols] t.data
  deserializeWithMetadata_stored : ∀ tensors metadata,
    deserializeWithMetadata bytes = .ok (tensors, metadata) →
    ∀ (key : Str) (t : Tensor), tensors[key]? = some t → StoredIn bytes key [t.rows, t.cols] t.data
  deserializeStateDict_stored : ∀ tensors metadata,
    deserializeStateDict bytes = .ok (tensors, metadata) →
    ∀ (key : Str) (t : Tensor), tensors[key]? = some t → StoredIn bytes key [t.rows, t.cols] t.data
  deserializeStateDictND_stored : ∀ tensors metadata,
    deserializeStateDictND bytes = .ok (tensors, metadata) →
    ∀ (key : Str) (t : TensorND), tensors[key]? = some t → StoredIn bytes key t.shape t.data

/-- The loader for any rank gets to an entry that passes the checks, with these dimensions: it makes
a tensor of every entry before. -/
def Reaches (bytes : Bytes) (dims : List ℕ) : Prop :=
  ∃ header data before key obj after layout, splitHeader bytes = .ok (header, data) ∧
    entries header = before ++ .ok (key, obj) :: after ∧
    (∀ entry ∈ before, ∃ key' obj' layout', entry = .ok (key', obj') ∧
      layoutND obj' data = .ok layout' ∧ StridesFit layout'.dims) ∧
    layoutND obj data = .ok layout ∧ layout.dims = dims

/-- The strides of every shape that the loader for any rank gets to fit. -/
def EveryStrideFits (bytes : Bytes) : Prop := ∀ dims, Reaches bytes dims → StridesFit dims

theorem parseHeaderND_eq_fault (hsplit : splitHeader bytes = .ok (header, data)) :
    parseHeaderND header data = .error .fault ↔ ¬ EveryStrideFits bytes := by
  have hlength := length_header hsplit
  rw [parseHeaderND, parseEntries_eq_fault hlength]
  constructor
  · rintro ⟨before, key, obj, after, hentries, hbefore, hfault⟩ hfits
    obtain ⟨layout, hlayout, hlarge⟩ := readND_eq_fault.mp hfault
    refine hlarge (hfits _ ⟨header, data, before, key, obj, after, layout, hsplit, hentries,
      fun entry hentry ↦ ?_, hlayout, rfl⟩)
    obtain ⟨key', obj', value, heq, hread⟩ := hbefore entry hentry
    obtain ⟨layout', hlayout', -⟩ := bind_eq_ok.mp hread
    refine ⟨key', obj', layout', heq, hlayout', ?_⟩
    by_contra hlarge'
    rw [readND_eq_fault.mpr ⟨layout', hlayout', hlarge'⟩] at hread
    cases hread
  · intro hnot
    rw [EveryStrideFits] at hnot
    push Not at hnot
    obtain ⟨dims, ⟨header', data', before, key, obj, after, layout, hsplit', hentries, hbefore,
      hlayout, rfl⟩, hlarge⟩ := hnot
    cases hsplit.symm.trans hsplit'
    refine ⟨before, key, obj, after, hentries, fun entry hentry ↦ ?_,
      readND_eq_fault.mpr ⟨layout, hlayout, hlarge⟩⟩
    obtain ⟨key', obj', layout', heq, hlayout', hfits⟩ := hbefore entry hentry
    obtain ⟨value, hread, -⟩ := readND_of_fits hlayout' hfits
    exact ⟨key', obj', value, heq, hread⟩

theorem storedIn_of_parse {read : Str → Bytes → Except Failure τ} {shape : τ → List ℕ}
    {values : τ → List F32} {tensors : ExtTreeMap Str τ} {key : Str} {t : τ}
    (hread : ∀ {obj t}, read obj data = .ok t → Stored obj data (shape t) (values t))
    (hsplit : splitHeader bytes = .ok (header, data))
    (hparse : parseEntries read header data = .ok tensors) (ht : tensors[key]? = some t) :
    StoredIn bytes key (shape t) (values t) := by
  obtain ⟨before, obj, after, hentries, hlast, hvalue⟩ :=
    parseEntries_provenance (length_header hsplit) hparse ht
  exact ⟨header, data, before, obj, after, hsplit, hentries, hlast, hread hvalue⟩

theorem storedIn_of_parseHeader {tensors : ExtTreeMap Str Tensor} {key : Str} {t : Tensor}
    (hsplit : splitHeader bytes = .ok (header, data))
    (hparse : parseHeader header data = .ok tensors) (ht : tensors[key]? = some t) :
    StoredIn bytes key [t.rows, t.cols] t.data :=
  @storedIn_of_parse _ _ _ _ _ (fun t : Tensor ↦ [t.rows, t.cols]) Tensor.data _ _ _ read2D_stored
    hsplit hparse ht

/-- **Safe loading.**  Loading a file is safe exactly when every shape that the loader for any rank
gets to has strides that fit. -/
theorem loadsSafely_iff (bytes : Bytes) : LoadsSafely bytes ↔ EveryStrideFits bytes := by
  constructor
  · intro hsafe dims hreach
    by_contra hlarge
    have hnot : ¬ EveryStrideFits bytes := fun hfits ↦ hlarge (hfits dims hreach)
    obtain ⟨header, data, before, key, obj, after, layout, hsplit, -⟩ := hreach
    apply hsafe.deserializeStateDictND_returns
    have hmetadata := extractMetadata_eq (length_header hsplit)
    have hfault := (parseHeaderND_eq_fault hsplit).mpr hnot
    rw [deserializeStateDictND, hsplit, ok_bind]
    simp only [hmetadata, hfault]
    rfl
  · intro hfits
    have hsplits : Returns (splitHeader bytes) := returns_splitHeader
    exact
      { deserialize_returns := hsplits.bind fun parts hparts ↦
          returns_parseHeader (length_header hparts)
        deserializeWithMetadata_returns := hsplits.bind fun parts hparts ↦
          (returns_parseHeader (length_header hparts)).bind fun tensors _ ↦
            (returns_extractMetadata (length_header hparts)).bind fun metadata _ ↦ ok _
        deserializeStateDict_returns := hsplits.bind fun parts hparts ↦
          (returns_extractMetadata (length_header hparts)).bind fun metadata _ ↦
            (returns_parseHeader (length_header hparts)).bind fun tensors _ ↦ ok _
        deserializeStateDictND_returns := hsplits.bind fun parts hparts ↦
          (returns_extractMetadata (length_header hparts)).bind fun metadata _ ↦
            bind (fun hfault ↦ (parseHeaderND_eq_fault hparts).mp hfault hfits)
              fun tensors _ ↦ ok _
        deserialize_stored := by
          intro tensors hok key t ht
          obtain ⟨parts, hsplit, hparse⟩ := bind_eq_ok.mp hok
          exact storedIn_of_parseHeader hsplit hparse ht
        deserializeWithMetadata_stored := by
          intro tensors metadata hok key t ht
          obtain ⟨parts, hsplit, hrest⟩ := bind_eq_ok.mp hok
          obtain ⟨tensors', hparse, hrest⟩ := bind_eq_ok.mp hrest
          obtain ⟨metadata', -, hpair⟩ := bind_eq_ok.mp hrest
          cases hpair
          exact storedIn_of_parseHeader hsplit hparse ht
        deserializeStateDict_stored := by
          intro tensors metadata hok key t ht
          obtain ⟨parts, hsplit, hrest⟩ := bind_eq_ok.mp hok
          obtain ⟨metadata', -, hrest⟩ := bind_eq_ok.mp hrest
          obtain ⟨tensors', hparse, hpair⟩ := bind_eq_ok.mp hrest
          cases hpair
          exact storedIn_of_parseHeader hsplit hparse ht
        deserializeStateDictND_stored := by
          intro tensors metadata hok key t ht
          obtain ⟨parts, hsplit, hrest⟩ := bind_eq_ok.mp hok
          obtain ⟨metadata', -, hrest⟩ := bind_eq_ok.mp hrest
          obtain ⟨tensors', hparse, hpair⟩ := bind_eq_ok.mp hrest
          cases hpair
          exact @storedIn_of_parse _ _ _ _ _ TensorND.shape TensorND.data _ _ _ readND_stored
            hsplit hparse ht }

/-- A header with one entry of the shape `[0, 2 ^ 62, 2 ^ 62]`, behind its size. -/
def hollowFile : Bytes :=
  let header := "\x7b\"w\":\x7b\"dtype\":\"F32\"," ++
    "\"shape\":[0,4611686018427387904,4611686018427387904],\"data_offsets\":[0,0]\x7d\x7d"
  ByteCursor.leBytes 8 (utf8 header.toList).length ++ utf8 header.toList

/-- The strides of a tensor without values overflow. -/
theorem not_loadsSafely_hollow : ¬ LoadsSafely hollowFile := by
  intro hsafe
  exact hsafe.deserializeStateDictND_returns (by decide +kernel)

end SoulSystem.Scirust.Safetensors
