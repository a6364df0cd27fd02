import SoulSystem.Scirust.Safetensors.ByteScan

/-!
# Reading an entry

A field is the text between the first occurrence of its name and the first character that ends it.
An entry that passes the checks has a range within the data and a shape whose product is the number
of values in that range, and its values are those of the range.

Nothing of this faults, except that the strides of a tensor may overflow.
-/

namespace SoulSystem.Scirust.Safetensors

open Library Str Outcome Std List

variable {τ α β : Type}

/-! ## Returning -/

/-- A value or an error, but no fault. -/
def Returns (x : Except Failure α) : Prop := x ≠ .error .fault

namespace Returns

theorem ok (a : α) : Returns (.ok a) := by
  intro hfault
  cases hfault

theorem error {failure : Failure} (hne : failure ≠ .fault) :
    Returns (.error failure : Except Failure α) :=
  fun hfault ↦ hne (Except.error.inj hfault)

theorem invalid (message : String) (value : Option α) : Returns (orInvalid message value) := by
  cases value with
  | none => exact error (by simp)
  | some value => exact ok value

theorem bind {x : Except Failure α} {f : α → Except Failure β} (hx : Returns x)
    (hf : ∀ a, x = .ok a → Returns (f a)) : Returns (x >>= f) := by
  intro hfault
  cases bind_eq_error.mp hfault with
  | inl herror => exact hx herror
  | inr hlater =>
    obtain ⟨a, ha, herror⟩ := hlater
    exact hf a ha herror

theorem mapM {f : α → Except Failure β} {xs : List α} (hf : ∀ x ∈ xs, Returns (f x)) :
    Returns (xs.mapM f) := by
  intro hfault
  obtain ⟨before, x, after, hxs, -, hx⟩ := mapM_eq_error.mp hfault
  have hmem : x ∈ xs := by
    rw [hxs]
    exact mem_append_right before mem_cons_self
  exact hf x hmem hx

end Returns

/-! ## Fields -/

section

variable (obj : Str) (name : String)

theorem fieldText_eq (opening ending : Char) (message : String) :
    fieldText obj name opening ending message =
      match splitOnce (quote :: name.toList ++ [quote, ':', opening]) obj with
      | none => .error (.invalidData s!"champ {name} absent")
      | some (_, rest) =>
        match splitOnce [ending] rest with
        | none => .error (.invalidData message)
        | some (inner, _) => .ok inner := by
  unfold fieldText find
  generalize hpat : quote :: name.toList ++ [quote, ':', opening] = pat
  cases hfield : splitOnce pat obj with
  | none =>
    simp only [hfield]
    rfl
  | some parts =>
    obtain ⟨before, rest⟩ := parts
    have hobj := eq_append_of_splitOnce hfield
    have hstart : (utf8 before).length + (utf8 pat).length = (utf8 (before ++ pat)).length := by
      rw [utf8_append, length_append]
    have hrest : sliceFrom obj (utf8 (before ++ pat)).length = some rest := by
      rw [hobj]
      exact sliceFrom_append rfl
    simp only [hfield, Option.map_some, orInvalid, ok_bind, hstart, hrest, orFault]
    cases hend : splitOnce [ending] rest with
    | none =>
      rfl
    | some parts =>
      obtain ⟨inner, after⟩ := parts
      have hsplit : obj = (before ++ pat) ++ inner ++ ([ending] ++ after) := by
        rw [hobj, eq_append_of_splitOnce hend]
        simp
      simp only [Option.map_some, ok_bind]
      rw [hsplit]
      exact sliceText_append rfl rfl

theorem returns_fieldText (opening ending : Char) (message : String) :
    Returns (fieldText obj name opening ending message) := by
  rw [fieldText_eq]
  split
  · exact Returns.error (by simp)
  · split
    · exact Returns.error (by simp)
    · exact Returns.ok _

theorem returns_parseNumber (text : Str) : Returns (parseNumber text) := by
  unfold parseNumber
  split
  · exact Returns.ok _
  · exact Returns.error (by simp)

theorem returns_extractArrayField : Returns (extractArrayField obj name) := by
  refine (returns_fieldText obj name _ _ _).bind fun inner _ ↦ ?_
  split
  · exact Returns.ok _
  · exact Returns.mapM fun text _ ↦ returns_parseNumber text

theorem returns_readFields : Returns (readFields obj) := by
  refine (returns_fieldText obj "dtype" _ _ _).bind fun dtype _ ↦ ?_
  split
  · exact Returns.error (by simp)
  · refine (returns_extractArrayField obj "shape").bind fun shape _ ↦ ?_
    refine (returns_extractArrayField obj "data_offsets").bind fun offsets _ ↦ ?_
    exact Returns.ok _

end

/-! ## Checks -/

/-- What an entry that passed the checks says. -/
structure Checked (obj : Str) (data : Bytes) (layout : Layout) : Prop where
  shape : extractArrayField obj "shape" = .ok (layout.dims.map fun dim : ℕ ↦ (dim : ℤ))
  offsets : extractArrayField obj "data_offsets" = .ok [(layout.start : ℤ), (layout.stop : ℤ)]
  start_le : layout.start ≤ layout.stop
  stop_le : layout.stop ≤ data.length
  whole : (layout.stop - layout.start) % 4 = 0
  numel : layout.dims.prod = (layout.stop - layout.start) / 4

theorem checkSpan_eq_ok {data : Bytes} {numel start stop : ℕ} {done : Unit} :
    checkSpan data numel start stop = .ok done ↔
      start ≤ stop ∧ stop ≤ data.length ∧ (stop - start) % 4 = 0 ∧ (stop - start) / 4 = numel := by
  unfold checkSpan
  split
  · rename_i houtside
    refine iff_of_false (fun hok ↦ by cases hok) fun hin ↦ ?_
    omega
  · rename_i hinside
    split
    · rename_i hpart
      exact iff_of_false (fun hok ↦ by cases hok) fun hin ↦ hpart hin.2.2.1
    · rename_i hwhole
      split
      · rename_i hother
        exact iff_of_false (fun hok ↦ by cases hok) fun hin ↦ hother hin.2.2.2
      · rename_i hsame
        refine iff_of_true rfl ⟨by omega, by omega, by omega, not_not.mp hsame⟩

theorem returns_checkSpan (data : Bytes) (numel start stop : ℕ) :
    Returns (checkSpan data numel start stop) := by
  unfold checkSpan
  split
  · exact Returns.error (by simp)
  · split
    · exact Returns.error (by simp)
    · split
      · exact Returns.error (by simp)
      · exact Returns.ok _

theorem readFields_eq_ok {obj : Str} {shape offsets : List ℤ}
    (hok : readFields obj = .ok (shape, offsets)) :
    extractArrayField obj "shape" = .ok shape ∧
      extractArrayField obj "data_offsets" = .ok offsets := by
  obtain ⟨dtype, -, hrest⟩ := bind_eq_ok.mp hok
  split at hrest
  · cases hrest
  · obtain ⟨shape', hshape, hrest⟩ := bind_eq_ok.mp hrest
    obtain ⟨offsets', hoffsets, hpair⟩ := bind_eq_ok.mp hrest
    cases hpair
    exact ⟨hshape, hoffsets⟩

theorem map_toNat_cast {numbers : List ℤ} (hnonneg : ¬ numbers.any (· < 0) = true) :
    ((numbers.map Int.toNat).map fun n : ℕ ↦ (n : ℤ)) = numbers := by
  rw [map_map]
  refine (map_congr_left fun n hn ↦ ?_).trans (map_id numbers)
  have hle : ¬ n < 0 := fun hlt ↦ hnonneg (List.any_eq_true.mpr ⟨n, hn, decide_eq_true hlt⟩)
  simp only [Function.comp_apply, id_eq]
  omega

section

variable {obj : Str} {data : Bytes} {layout : Layout}

theorem layout2D_eq_ok (hok : layout2D obj data = .ok layout) :
    Checked obj data layout ∧ ∃ rows cols, layout.dims = [rows, cols] ∧
      rows * cols < usizeRange := by
  obtain ⟨⟨shape, offsets⟩, hfields, hrest⟩ := bind_eq_ok.mp hok
  obtain ⟨hshape, hoffsets⟩ := readFields_eq_ok hfields
  dsimp only at hrest
  split at hrest
  · rename_i rows cols start stop
    split at hrest
    · cases hrest
    · rename_i hnonneg
      obtain ⟨numel, hnumel, hrest⟩ := bind_eq_ok.mp hrest
      obtain ⟨done, hspan, hlayout⟩ := bind_eq_ok.mp hrest
      cases hlayout
      obtain ⟨hfits, hproduct⟩ := checkedMul_eq_some.mp (orInvalid_eq_ok.mp hnumel)
      obtain ⟨hstart, hstop, hwhole, hcount⟩ := checkSpan_eq_ok.mp hspan
      have hcast := map_toNat_cast hnonneg
      simp only [cons_append, nil_append, map_cons, map_nil, List.cons.injEq,
        and_true] at hcast
      obtain ⟨hrows, hcols, hfirst, hlast⟩ := hcast
      have hprod : [rows.toNat, cols.toNat].prod = rows.toNat * cols.toNat := by simp
      refine ⟨⟨?_, ?_, hstart, hstop, hwhole, ?_⟩, rows.toNat, cols.toNat, rfl, hfits⟩
      · rw [hshape, map_cons, map_cons, map_nil, hrows, hcols]
      · rw [hoffsets, hfirst, hlast]
      · rw [hprod, hcount, hproduct]
  · cases hrest
  · cases hrest

theorem layoutND_eq_ok (hok : layoutND obj data = .ok layout) :
    Checked obj data layout ∧
      checkedProduct layout.dims = some ((layout.stop - layout.start) / 4) := by
  obtain ⟨⟨shape, offsets⟩, hfields, hrest⟩ := bind_eq_ok.mp hok
  obtain ⟨hshape, hoffsets⟩ := readFields_eq_ok hfields
  dsimp only at hrest
  split at hrest
  · rename_i start stop
    split at hrest
    · cases hrest
    · rename_i hnonneg
      obtain ⟨numel, hnumel, hrest⟩ := bind_eq_ok.mp hrest
      obtain ⟨done, hspan, hlayout⟩ := bind_eq_ok.mp hrest
      cases hlayout
      have hproduct := orInvalid_eq_ok.mp hnumel
      obtain ⟨hstart, hstop, hwhole, hcount⟩ := checkSpan_eq_ok.mp hspan
      have hshapes : ¬ shape.any (· < 0) = true := fun hany ↦ hnonneg (by
        rw [any_append, hany, Bool.true_or])
      have hspans : ¬ [start, stop].any (· < 0) = true := fun hany ↦ hnonneg (by
        rw [any_append, hany, Bool.or_true])
      have hcast := map_toNat_cast hspans
      simp only [map_cons, map_nil, List.cons.injEq, and_true] at hcast
      have hnumel' : checkedProduct (shape.map Int.toNat) =
          some ((stop.toNat - start.toNat) / 4) := by rw [hproduct, hcount]
      refine ⟨⟨?_, ?_, hstart, hstop, hwhole, prod_of_checkedProduct hnumel'⟩, hnumel'⟩
      · rw [hshape, map_toNat_cast hshapes]
      · rw [hoffsets, hcast.1, hcast.2]
  · cases hrest

theorem returns_layout2D : Returns (layout2D obj data) := by
  refine (returns_readFields obj).bind fun fields _ ↦ ?_
  dsimp only
  split
  · split
    · exact Returns.error (by simp)
    · refine (Returns.invalid _ _).bind fun numel _ ↦ ?_
      exact (returns_checkSpan _ _ _ _).bind fun _ _ ↦ Returns.ok _
  · exact Returns.error (by simp)
  · exact Returns.error (by simp)

theorem returns_layoutND : Returns (layoutND obj data) := by
  refine (returns_readFields obj).bind fun fields _ ↦ ?_
  dsimp only
  split
  · split
    · exact Returns.error (by simp)
    · refine (Returns.invalid _ _).bind fun numel _ ↦ ?_
      exact (returns_checkSpan _ _ _ _).bind fun _ _ ↦ Returns.ok _
  · exact Returns.error (by simp)

end

/-! ## Values -/

/-- The values that bytes hold. -/
def f32s : Bytes → List F32
  | b₀ :: b₁ :: b₂ :: b₃ :: rest => F32.fromLeBytes [b₀, b₁, b₂, b₃] :: f32s rest
  | _ => []

theorem length_lt_of_short {bytes : Bytes}
    (hshort : ∀ b₀ b₁ b₂ b₃ rest, bytes = b₀ :: b₁ :: b₂ :: b₃ :: rest → False) :
    bytes.length < 4 := by
  match bytes, hshort with
  | [], _ => simp
  | [_], _ => simp
  | [_, _], _ => simp
  | [_, _, _], _ => simp
  | b₀ :: b₁ :: b₂ :: b₃ :: rest, hshort => exact absurd rfl (hshort b₀ b₁ b₂ b₃ rest)

/-- The values are those at every fourth position. -/
theorem f32s_eq_map (bytes : Bytes) : f32s bytes =
    (List.range (bytes.length / 4)).map fun k ↦
      F32.fromLeBytes ((bytes.drop (k * 4)).take 4) := by
  fun_induction f32s bytes with
  | case1 b₀ b₁ b₂ b₃ rest ih =>
    have hcount : (b₀ :: b₁ :: b₂ :: b₃ :: rest).length / 4 = rest.length / 4 + 1 := by
      simp only [length_cons]
      omega
    rw [hcount, range_succ_eq_map, map_cons, map_map, ih]
    congr 1
    refine map_congr_left fun k _ ↦ ?_
    have hshift : (k + 1) * 4 = k * 4 + 1 + 1 + 1 + 1 := by omega
    simp only [Function.comp_apply, Nat.succ_eq_add_one, hshift, drop_succ_cons]
  | case2 bytes hshort =>
    rw [Nat.div_eq_of_lt (length_lt_of_short hshort)]
    rfl

theorem length_f32s (bytes : Bytes) : (f32s bytes).length = bytes.length / 4 := by
  rw [f32s_eq_map, length_map, length_range]

theorem readFloats_eq {data : Bytes} {start stop : ℕ} (hstart : start ≤ stop)
    (hstop : stop ≤ data.length) (hwhole : (stop - start) % 4 = 0) :
    readFloats data start stop = .ok (f32s ((data.drop start).take (stop - start))) := by
  have hlength : ((data.drop start).take (stop - start)).length = stop - start := by
    rw [length_take, length_drop]
    omega
  rw [readFloats, f32s_eq_map, hlength, mapM_eq_ok, forall₂_map_right_iff, forall₂_same]
  intro k hk
  have hlt : k < (stop - start) / 4 := List.mem_range.mp hk
  have hinside : start + k * 4 ≤ start + k * 4 + 4 ∧ start + k * 4 + 4 ≤ data.length := by omega
  have hsame : ((((data.drop start).take (stop - start)).drop (k * 4)).take 4) =
      (data.drop (start + k * 4)).take (start + k * 4 + 4 - (start + k * 4)) := by
    rw [drop_take, drop_drop, take_take]
    congr 1
    omega
  rw [sliceBytes, if_pos hinside, hsame]
  rfl

/-! ## Tensors -/

/-- A shape and values are those of an entry: the values are what its range of the data holds. -/
def Stored (obj : Str) (data : Bytes) (shape : List ℕ) (values : List F32) : Prop :=
  ∃ start stop : ℕ,
    extractArrayField obj "shape" = .ok (shape.map fun dim : ℕ ↦ (dim : ℤ)) ∧
    extractArrayField obj "data_offsets" = .ok [(start : ℤ), (stop : ℤ)] ∧
    start ≤ stop ∧ stop ≤ data.length ∧ stop - start = 4 * values.length ∧
    values = f32s ((data.drop start).take (stop - start)) ∧ shape.prod = values.length

section

variable {obj : Str} {data : Bytes} {layout : Layout}

theorem Checked.readFloats_eq (hchecked : Checked obj data layout) :
    readFloats data layout.start layout.stop =
      .ok (f32s ((data.drop layout.start).take (layout.stop - layout.start))) :=
  Safetensors.readFloats_eq hchecked.start_le hchecked.stop_le hchecked.whole

theorem Checked.length_eq (hchecked : Checked obj data layout) :
    (f32s ((data.drop layout.start).take (layout.stop - layout.start))).length =
      (layout.stop - layout.start) / 4 := by
  have hstop := hchecked.stop_le
  rw [length_f32s, length_take, length_drop]
  congr 1
  omega

theorem Checked.stored (hchecked : Checked obj data layout) :
    Stored obj data layout.dims
      (f32s ((data.drop layout.start).take (layout.stop - layout.start))) := by
  have hwhole := hchecked.whole
  refine ⟨layout.start, layout.stop, hchecked.shape, hchecked.offsets, hchecked.start_le,
    hchecked.stop_le, ?_, rfl, ?_⟩
  · rw [hchecked.length_eq]
    omega
  · rw [hchecked.length_eq, hchecked.numel]

theorem Tensor.fromVec_eq_ok {values : List F32} {rows cols : ℕ} (hfits : rows * cols < usizeRange)
    (hlength : values.length = rows * cols) :
    Tensor.fromVec values rows cols = .ok { rows, cols, data := values, length_eq := hlength } :=
  Tensor.fromVec_self { rows, cols, data := values, length_eq := hlength } hfits

/-- What an entry that passes the checks is read as. -/
theorem read2D_of_layout (hlayout : layout2D obj data = .ok layout) :
    ∃ t, read2D obj data = .ok t ∧ Stored obj data [t.rows, t.cols] t.data := by
  obtain ⟨hchecked, rows, cols, hdims, hfits⟩ := layout2D_eq_ok hlayout
  have hlength : (f32s ((data.drop layout.start).take (layout.stop - layout.start))).length =
      rows * cols := by
    rw [hchecked.length_eq, ← hchecked.numel, hdims]
    simp
  refine ⟨{ rows, cols, data := _, length_eq := hlength }, ?_, ?_⟩
  · rw [read2D, hlayout, ok_bind, hchecked.readFloats_eq, ok_bind, hdims]
    exact Tensor.fromVec_eq_ok hfits hlength
  · have hstored := hchecked.stored
    rwa [hdims] at hstored

theorem returns_read2D : Returns (read2D obj data) := by
  cases hlayout : layout2D obj data with
  | error failure =>
    have hreturns : Returns (layout2D obj data) := returns_layout2D
    rw [hlayout] at hreturns
    rw [read2D, hlayout]
    exact Returns.error fun heq ↦ hreturns (congrArg Except.error heq)
  | ok layout =>
    obtain ⟨t, hread, -⟩ := read2D_of_layout hlayout
    rw [hread]
    exact Returns.ok t

theorem read2D_stored {t : Tensor} (hread : read2D obj data = .ok t) :
    Stored obj data [t.rows, t.cols] t.data := by
  obtain ⟨layout, hlayout, -⟩ := bind_eq_ok.mp hread
  obtain ⟨t', hread', hstored⟩ := read2D_of_layout hlayout
  cases hread.symm.trans hread'
  exact hstored

theorem readND_of_layout (hlayout : layoutND obj data = .ok layout) :
    readND obj data =
      TensorND.new (f32s ((data.drop layout.start).take (layout.stop - layout.start)))
        layout.dims := by
  rw [readND, hlayout, ok_bind, (layoutND_eq_ok hlayout).1.readFloats_eq, ok_bind]

/-- Reading a tensor of any rank faults exactly when its strides overflow. -/
theorem readND_eq_fault : readND obj data = .error .fault ↔
    ∃ layout, layoutND obj data = .ok layout ∧ ¬ StridesFit layout.dims := by
  constructor
  · intro hfault
    cases hlayout : layoutND obj data with
    | error failure =>
      have hreturns : Returns (layoutND obj data) := returns_layoutND
      rw [readND, hlayout] at hfault
      rw [hlayout] at hreturns
      exact absurd (congrArg Except.error (Except.error.inj hfault)) hreturns
    | ok layout =>
      obtain ⟨hchecked, hnumel⟩ := layoutND_eq_ok hlayout
      refine ⟨layout, rfl, fun hfits ↦ ?_⟩
      rw [← hchecked.length_eq] at hnumel
      obtain ⟨t, hnew, -⟩ := TensorND.new_of_fits hnumel hfits
      rw [readND_of_layout hlayout, hnew] at hfault
      cases hfault
  · rintro ⟨layout, hlayout, hfits⟩
    rw [readND_of_layout hlayout]
    exact TensorND.new_fault hfits

theorem readND_of_fits (hlayout : layoutND obj data = .ok layout) (hfits : StridesFit layout.dims) :
    ∃ t, readND obj data = .ok t ∧ Stored obj data t.shape t.data := by
  obtain ⟨hchecked, hnumel⟩ := layoutND_eq_ok hlayout
  rw [← hchecked.length_eq] at hnumel
  obtain ⟨t, hnew, hdata, hshape⟩ := TensorND.new_of_fits hnumel hfits
  refine ⟨t, by rw [readND_of_layout hlayout, hnew], ?_⟩
  rw [hdata, hshape]
  exact hchecked.stored

theorem readND_stored {t : TensorND} (hread : readND obj data = .ok t) :
    Stored obj data t.shape t.data := by
  obtain ⟨layout, hlayout, -⟩ := bind_eq_ok.mp hread
  by_cases hfits : StridesFit layout.dims
  · obtain ⟨t', hread', hstored⟩ := readND_of_fits hlayout hfits
    cases hread.symm.trans hread'
    exact hstored
  · have hfault := readND_eq_fault.mpr ⟨layout, hlayout, hfits⟩
    rw [hread] at hfault
    cases hfault

end

end SoulSystem.Scirust.Safetensors
