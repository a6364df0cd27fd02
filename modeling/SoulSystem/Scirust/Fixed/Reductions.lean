import SoulSystem.Scirust.Fixed.Simd

/-!
# Reductions over slices of fixed-point numbers

The whole chunks of eight are accumulated in wide lanes, the lanes are then combined and the rest of
the slice is added one by one.  Truncation to the storage is a homomorphism of the wrapping
additions, so each reduction is one sum and no order of evaluation is left in it.
-/

namespace SoulSystem.Scirust

open List

variable {α : Type}

/-! ## Chunks -/

def chunksExact (size : ℕ) (data : List α) : List (List α) :=
  (List.range (data.length / size)).map fun chunk ↦ (data.drop (size * chunk)).take size

def chunksRemainder (size : ℕ) (data : List α) : List α :=
  data.drop (size * (data.length / size))

theorem flatten_chunks (size : ℕ) (data : List α) (count : ℕ) :
    ((List.range count).map fun chunk ↦ (data.drop (size * chunk)).take size).flatten =
      data.take (size * count) := by
  induction count with
  | zero => simp
  | succ count ih =>
    rw [range_succ, map_append, flatten_append, ih, Nat.mul_succ, take_add]
    simp

/-- The chunks and the rest are the slice. -/
theorem flatten_chunksExact_append (size : ℕ) (data : List α) :
    (chunksExact size data).flatten ++ chunksRemainder size data = data := by
  rw [chunksExact, flatten_chunks, chunksRemainder, take_append_drop]

theorem length_of_mem_chunksExact {size : ℕ} {data chunk : List α}
    (hmem : chunk ∈ chunksExact size data) : chunk.length = size := by
  obtain ⟨index, hindex, rfl⟩ := List.mem_map.mp hmem
  have hinside : size * (index + 1) ≤ data.length := by
    calc
      size * (index + 1) ≤ size * (data.length / size) :=
        Nat.mul_le_mul_left size (List.mem_range.mp hindex)
      _ ≤ data.length := Nat.mul_div_le data.length size
  rw [length_take, length_drop]
  rw [Nat.mul_succ] at hinside
  omega

/-! ## The reductions -/

variable {frac : ℕ}

def loadI32x8 (chunk : List (Fixed 32 frac)) : Lanes 8 32 := fun lane ↦
  match chunk[lane.val]? with
  | some x => x.raw
  | none => 0

/-- What the lanes have accumulated and the rest of the slice, in the widest accumulator. -/
def total (acc : Lanes 8 64) (remainder : List (BitVec 32)) : BitVec 128 :=
  let lanes := (List.ofFn acc).foldl (fun total lane ↦ total + lane.signExtend 128) 0
  remainder.foldl (fun total x ↦ total + x.signExtend 128) lanes

def reduceSum (data : List (Fixed 32 frac)) : Fixed 32 frac :=
  let acc := (chunksExact 8 data).foldl (fun acc chunk ↦ acc + (loadI32x8 chunk).cast 64)
    (Lanes.splat 0)
  ⟨(total acc ((chunksRemainder 8 data).map Fixed.raw)).setWidth 32⟩

def reduceL1 (data : List (Fixed 32 frac)) : Fixed 32 frac :=
  let acc := (chunksExact 8 data).foldl
    (fun acc chunk ↦
      let v : FixedI32x8 frac := ⟨loadI32x8 chunk⟩
      acc + v.abs.raw.cast 64)
    (Lanes.splat 0)
  ⟨(total acc ((chunksRemainder 8 data).map fun x ↦ x.abs.raw)).setWidth 32⟩

def reduceDot (a b : List (Fixed 32 frac)) : Fixed 32 frac :=
  let acc := ((chunksExact 8 a).zip (chunksExact 8 b)).foldl
    (fun acc chunks ↦
      let va : FixedI32x8 frac := ⟨loadI32x8 chunks.1⟩
      let vb : FixedI32x8 frac := ⟨loadI32x8 chunks.2⟩
      acc + (FixedI32x8.mul va vb).raw.cast 64)
    (Lanes.splat 0)
  let products := ((chunksRemainder 8 a).zip (chunksRemainder 8 b)).map fun pair ↦
    (Fixed.wrappingMul (m := Id) (BitVec (2 * 32)) pair.1 pair.2).raw
  ⟨(total acc products).setWidth 32⟩

/-! ## One sum -/

theorem chunksExact_map {β : Type} (f : α → β) (size : ℕ) (data : List α) :
    chunksExact size (data.map f) = (chunksExact size data).map fun chunk ↦ chunk.map f := by
  simp [chunksExact, map_drop, map_take]

theorem chunksRemainder_map {β : Type} (f : α → β) (size : ℕ) (data : List α) :
    chunksRemainder size (data.map f) = (chunksRemainder size data).map f := by
  simp [chunksRemainder, map_drop]

theorem setWidth_signExtend {n k : ℕ} (x : BitVec n) (hn : 32 ≤ n) (hk : 32 ≤ k) :
    (x.signExtend k).setWidth 32 = x.setWidth 32 := by
  apply BitVec.eq_of_getLsbD_eq
  intro bit hbit
  have hinside : bit < n := by omega
  have hwide : bit < k := by omega
  rw [BitVec.getLsbD_setWidth, BitVec.getLsbD_setWidth, BitVec.getLsbD_signExtend]
  simp only [hinside, hwide, decide_true, Bool.true_and, if_true]

theorem setWidth_foldl {n k : ℕ} (hn : 32 ≤ n) (hk : 32 ≤ k) (addends : List (BitVec n))
    (start : BitVec k) :
    (addends.foldl (fun total x ↦ total + x.signExtend k) start).setWidth 32 =
      start.setWidth 32 + (addends.map (BitVec.setWidth 32)).sum := by
  induction addends generalizing start with
  | nil => simp
  | cons x addends ih =>
    rw [foldl_cons, ih, BitVec.setWidth_add _ _ hk, setWidth_signExtend x hn hk,
      map_cons, sum_cons, add_assoc]

theorem setWidth_foldl_lanes (chunks : List (Lanes 8 32)) (start : Lanes 8 64) (lane : Fin 8) :
    (chunks.foldl (fun acc chunk ↦ acc + chunk.cast 64) start lane).setWidth 32 =
      (start lane).setWidth 32 + (chunks.map fun chunk ↦ chunk lane).sum := by
  induction chunks generalizing start with
  | nil => simp
  | cons chunk chunks ih =>
    rw [foldl_cons, ih, Pi.add_apply, BitVec.setWidth_add _ _ (by omega), Lanes.cast,
      setWidth_signExtend _ (by omega) (by omega), BitVec.setWidth_eq, map_cons,
      sum_cons, add_assoc]

open scoped BigOperators in
theorem sum_lanes (chunks : List (Lanes 8 32)) :
    ∑ lane, (chunks.map fun chunk ↦ chunk lane).sum = (chunks.map List.ofFn).flatten.sum := by
  induction chunks with
  | nil => simp
  | cons chunk chunks ih =>
    simp only [map_cons, sum_cons, Finset.sum_add_distrib, ih, flatten_cons,
      sum_append, sum_ofFn]

/-- **One sum.**  The accumulated lanes and the rest, truncated, are the sum of everything. -/
theorem setWidth_total (chunks : List (Lanes 8 32)) (remainder : List (BitVec 32)) :
    (total (chunks.foldl (fun acc chunk ↦ acc + chunk.cast 64) (Lanes.splat 0)) remainder).setWidth
      32 = ((chunks.map List.ofFn).flatten ++ remainder).sum := by
  have hlanes : (BitVec.setWidth 32) ∘
      (chunks.foldl (fun acc chunk ↦ acc + chunk.cast 64) (Lanes.splat 0)) =
        fun lane ↦ (chunks.map fun chunk ↦ chunk lane).sum := by
    funext lane
    rw [Function.comp_apply, setWidth_foldl_lanes, Lanes.splat, BitVec.ofNat_eq_ofNat,
      BitVec.setWidth_zero, BitVec.zero_add]
  have hnarrow : remainder.map (BitVec.setWidth 32) = remainder :=
    (map_congr_left fun x _ ↦ BitVec.setWidth_eq x).trans (map_id remainder)
  rw [total, setWidth_foldl (by omega) (by omega), setWidth_foldl (by omega) (by omega), hnarrow,
    map_ofFn, hlanes, sum_ofFn, sum_lanes, sum_append, BitVec.ofNat_eq_ofNat,
    BitVec.setWidth_zero, BitVec.zero_add]

/-- A loaded chunk is its raw integers. -/
theorem ofFn_loadI32x8 {chunk : List (Fixed 32 frac)} (hlength : chunk.length = 8) :
    List.ofFn (loadI32x8 chunk) = chunk.map Fixed.raw := by
  apply ext_getElem
  · simp [hlength]
  · intro index hleft hright
    have hindex : index < chunk.length := by simpa using hright
    simp only [List.getElem_ofFn, getElem_map, loadI32x8, getElem?_eq_getElem hindex]

/-- A reduction of what the lanes hold of each chunk is the sum over the slice. -/
theorem sum_chunks (data : List α) (f : α → BitVec 32) (lanesOf : List α → Lanes 8 32)
    (hlanes : ∀ chunk ∈ chunksExact 8 data, List.ofFn (lanesOf chunk) = chunk.map f) :
    (total ((chunksExact 8 data).foldl (fun acc chunk ↦ acc + (lanesOf chunk).cast 64)
      (Lanes.splat 0)) ((chunksRemainder 8 data).map f)).setWidth 32 = (data.map f).sum := by
  have hfold := setWidth_total ((chunksExact 8 data).map lanesOf) ((chunksRemainder 8 data).map f)
  rw [foldl_map] at hfold
  have hloaded : (chunksExact 8 data).map (List.ofFn ∘ lanesOf) =
      (chunksExact 8 data).map (List.map f) := map_congr_left hlanes
  rw [hfold, map_map, hloaded, ← map_flatten, ← map_append, flatten_chunksExact_append]

theorem reduceSum_eq (data : List (Fixed 32 frac)) :
    reduceSum data = ⟨(data.map Fixed.raw).sum⟩ :=
  congrArg Fixed.mk (sum_chunks data Fixed.raw loadI32x8 fun _ hmem ↦
    ofFn_loadI32x8 (length_of_mem_chunksExact hmem))

theorem reduceL1_eq (data : List (Fixed 32 frac)) :
    reduceL1 data = ⟨(data.map fun x ↦ x.abs.raw).sum⟩ := by
  refine congrArg Fixed.mk (sum_chunks data (fun x ↦ x.abs.raw)
    (fun chunk ↦ (FixedLanes.abs (⟨loadI32x8 chunk⟩ : FixedI32x8 frac)).raw) fun chunk hmem ↦ ?_)
  have hload := ofFn_loadI32x8 (length_of_mem_chunksExact hmem)
  have habs : (FixedLanes.abs (⟨loadI32x8 chunk⟩ : FixedI32x8 frac)).raw =
      saturatingAbs ∘ loadI32x8 chunk := by
    funext lane
    exact select_abs_eq_saturatingAbs (loadI32x8 chunk lane)
  rw [habs, ← map_ofFn, hload, map_map]
  rfl

/-- The scalar product of two numbers. -/
def product (pair : Fixed 32 frac × Fixed 32 frac) : Fixed 32 frac :=
  Fixed.wrappingMul (m := Id) (BitVec (2 * 32)) pair.1 pair.2

theorem reduceDot_eq (hfrac : frac < 32) (pairs : List (Fixed 32 frac × Fixed 32 frac)) :
    reduceDot (pairs.map Prod.fst) (pairs.map Prod.snd) =
      ⟨(pairs.map fun pair ↦ (product pair).raw).sum⟩ := by
  have hsum := sum_chunks pairs (fun pair ↦ (product pair).raw)
    (fun chunk ↦ (FixedI32x8.mul (⟨loadI32x8 (chunk.map Prod.fst)⟩ : FixedI32x8 frac)
      ⟨loadI32x8 (chunk.map Prod.snd)⟩).raw) (fun chunk hmem ↦ by
        have hlength := length_of_mem_chunksExact hmem
        have hmul := FixedI32x8.toArray_mul hfrac ⟨loadI32x8 (chunk.map Prod.fst)⟩
          ⟨loadI32x8 (chunk.map Prod.snd)⟩
        apply ext_getElem
        · simp [hlength]
        · intro index hleft hright
          have hindex : index < chunk.length := by simpa using hright
          have hlane := congrArg Fixed.raw (congrFun hmul ⟨index, by omega⟩)
          rw [List.getElem_ofFn, getElem_map]
          refine hlane.trans ?_
          simp [FixedLanes.toArray, loadI32x8, getElem?_map,
            getElem?_eq_getElem hindex, product])
  refine congrArg Fixed.mk (Eq.trans ?_ hsum)
  rw [chunksExact_map, chunksExact_map, zip_map', foldl_map, chunksRemainder_map,
    chunksRemainder_map, zip_map', map_map]
  rfl

/-! ## Bit for bit -/

theorem sum_eq_ofInt (f : α → BitVec 32) (data : List α) :
    (data.map f).sum = BitVec.ofInt 32 (data.map fun x ↦ (f x).toInt).sum := by
  induction data with
  | nil => simp
  | cons x data ih => rw [map_cons, sum_cons, ih, map_cons, sum_cons,
      BitVec.ofInt_add, BitVec.ofInt_toInt]

/-- A reduction is the wrapped sum of an integer of each element. -/
def WrappedSum (reduce : List α → Fixed 32 frac) (f : α → Fixed 32 frac) : Prop :=
  ∀ data, reduce data = ⟨BitVec.ofInt 32 (data.map fun x ↦ (f x).raw.toInt).sum⟩

/-- No permutation of the elements and no way of splitting them changes the result. -/
structure OrderFree (reduce : List α → Fixed 32 frac) : Prop where
  perm : ∀ data data' : List α, data.Perm data' → reduce data = reduce data'
  split : ∀ parts : List (List α),
    reduce parts.flatten = (parts.map reduce).foldr Fixed.wrappingAdd ⟨0⟩

theorem WrappedSum.of_sum {reduce : List α → Fixed 32 frac} {f : α → Fixed 32 frac}
    (hsum : ∀ data, reduce data = ⟨(data.map fun x ↦ (f x).raw).sum⟩) : WrappedSum reduce f := by
  intro data
  rw [hsum, sum_eq_ofInt]

theorem OrderFree.of_sum {reduce : List α → Fixed 32 frac} {f : α → Fixed 32 frac}
    (hsum : ∀ data, reduce data = ⟨(data.map fun x ↦ (f x).raw).sum⟩) : OrderFree reduce where
  perm := by
    intro data data' hperm
    rw [hsum, hsum, (hperm.map _).sum_eq]
  split := by
    intro parts
    induction parts with
    | nil => rw [flatten_nil, hsum]; rfl
    | cons part parts ih =>
      rw [flatten_cons, map_cons, foldr_cons, ← ih, hsum, hsum part,
        hsum parts.flatten, map_append, sum_append]
      rfl

/-- The lane operations are the scalar ones in each lane. -/
structure LaneByLane {k w : ℕ} (mul : FixedLanes k w frac → FixedLanes k w frac → FixedLanes k w frac)
    (mulAdd : FixedLanes k w frac → FixedLanes k w frac → FixedLanes k w frac → FixedLanes k w frac) :
    Prop where
  mul_eq : ∀ u v, (mul u v).toArray =
    fun lane ↦ Fixed.wrappingMul (m := Id) (BitVec (2 * w)) (u.toArray lane) (v.toArray lane)
  abs_eq : ∀ u : FixedLanes k w frac, u.abs.toArray = fun lane ↦ (u.toArray lane).abs
  mulAdd_eq : ∀ u v c, (mulAdd u v c).toArray =
    fun lane ↦ Fixed.wrappingAdd
      (Fixed.wrappingMul (m := Id) (BitVec (2 * w)) (u.toArray lane) (v.toArray lane))
      (c.toArray lane)

def reducePairs (pairs : List (Fixed 32 frac × Fixed 32 frac)) : Fixed 32 frac :=
  reduceDot (pairs.map Prod.fst) (pairs.map Prod.snd)

/-- **The vectors compute what the scalars compute**, lane by lane and summed over any slice. -/
theorem simd_eq_scalar :
    (∀ frac < 16, LaneByLane (@FixedI16x8.mul frac) FixedI16x8.mulAdd) ∧
      ∀ frac < 32, LaneByLane (@FixedI32x8.mul frac) FixedI32x8.mulAdd ∧
        (WrappedSum (@reduceSum frac) id ∧
          WrappedSum (@reduceL1 frac) Fixed.abs ∧
            WrappedSum (@reducePairs frac) product) ∧
        OrderFree (@reduceSum frac) ∧ OrderFree (@reduceL1 frac) ∧
          OrderFree (@reducePairs frac) := by
  constructor
  · intro frac hfrac
    have hmul := FixedI16x8.toArray_mul hfrac
    refine ⟨hmul, fun u ↦ u.toArray_abs, fun u v c ↦ ?_⟩
    rw [FixedI16x8.mulAdd, FixedLanes.toArray_add, hmul]
  · intro frac hfrac
    have hmul := FixedI32x8.toArray_mul hfrac
    refine ⟨⟨hmul, fun u ↦ u.toArray_abs, fun u v c ↦ ?_⟩, ?_, ?_⟩
    · rw [FixedI32x8.mulAdd, FixedLanes.toArray_add, hmul]
    · exact ⟨.of_sum reduceSum_eq, .of_sum reduceL1_eq, .of_sum (reduceDot_eq hfrac)⟩
    · exact ⟨.of_sum (f := id) reduceSum_eq, .of_sum reduceL1_eq, .of_sum (reduceDot_eq hfrac)⟩

end SoulSystem.Scirust
