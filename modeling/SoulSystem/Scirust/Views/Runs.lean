import SoulSystem.Scirust.Views.Places
import Mathlib.Algebra.BigOperators.Group.List.Lemmas

/-!
# Runs of operations on tensors

Each operation has a map of indices: every entry of its result is the entry of its argument at the
index that the map gives.  Along a run the maps are composed.
-/

namespace SoulSystem.Scirust.Views

open Library MixedRadix Outcome

/-! ## Maps of indices -/

namespace TensorND

/-- The shape of the result. -/
def Operation.outShape (shape : List ℕ) : Operation → List ℕ
  | .transpose axes => pick shape axes
  | .sliceAxis axis start stop => shape.set axis (stop - start)
  | .reshape newShape => newShape
  | .flattenFrom startAxis =>
    [(shape.take startAxis).prod % usizeRange, (shape.drop startAxis).prod % usizeRange]
  | .broadcastTo targetShape => targetShape
  | .toContiguous => shape

/-- The index of the argument for an index of the result. -/
def Operation.source (shape : List ℕ) (op : Operation) (indices : List ℕ) : List ℕ :=
  match op with
  | .transpose axes => pick indices (inverse axes)
  | .sliceAxis axis start _ => indices.modify axis (· + start)
  | .reshape _ => digits shape (rank (op.outShape shape) indices)
  | .flattenFrom _ => digits shape (rank (op.outShape shape) indices)
  | .broadcastTo targetShape => replicated shape (indices.drop (targetShape.length - shape.length))
  | .toContiguous => indices

def shapeAfter (shape : List ℕ) (ops : List Operation) : List ℕ :=
  ops.foldl Operation.outShape shape

def sourceIndex (shape : List ℕ) : List Operation → List ℕ → List ℕ
  | [], indices => indices
  | op :: ops, indices => op.source shape (sourceIndex (op.outShape shape) ops indices)

end TensorND

open TensorND

/-! ## Well-formed tensors -/

inductive Constructed (checks : Bool) (t : TensorND) : Prop
  | new {data shape} (hok : TensorND.new checks data shape = .ok t)
  | zeros {shape} (hok : TensorND.zeros checks shape = .ok t)
  | ones {shape} (hok : TensorND.ones checks shape = .ok t)
  | fromVec {data shape} (hok : TensorND.fromVec checks data shape = .ok t)
  | fromMatrix {rows cols data} (hok : TensorND.fromMatrix checks rows cols data = .ok t)

structure WellFormed (checks : Bool) (t : TensorND) : Prop where
  numel : product checks t.shape = .ok t.data.length
  strides : computeStrides checks t.shape = .ok t.strides
  fits : t.shape.prod < usizeRange

section Tensors

variable {checks : Bool} {t r s : TensorND} {indices : List ℕ}

theorem wellFormed_of_new {data : List F32} {shape : List ℕ} (hok : new checks data shape = .ok t)
    (hfits : t.shape.prod < usizeRange) : WellFormed checks t := by
  obtain ⟨n, hn, hok⟩ := bind_eq_ok.mp hok
  split_ifs at hok with hlength
  obtain ⟨found, hfound, hpure⟩ := bind_eq_ok.mp hok
  cases hpure
  rw [not_not] at hlength
  exact ⟨hlength ▸ hn, hfound, hfits⟩

theorem wellFormed_of_replicate {value : F32} {shape : List ℕ}
    (hok : (product checks shape >>= fun numel ↦ computeStrides checks shape >>= fun found ↦
      pure (⟨List.replicate numel value, shape, found⟩ : TensorND)) = .ok t)
    (hfits : t.shape.prod < usizeRange) : WellFormed checks t := by
  obtain ⟨n, hn, hok⟩ := bind_eq_ok.mp hok
  obtain ⟨found, hfound, hpure⟩ := bind_eq_ok.mp hok
  cases hpure
  exact ⟨hn.trans (congrArg _ List.length_replicate.symm), hfound, hfits⟩

theorem wellFormed_of_constructed (hbuilt : Constructed checks t)
    (hfits : t.shape.prod < usizeRange) : WellFormed checks t := by
  cases hbuilt with
  | new hok => exact wellFormed_of_new hok hfits
  | zeros hok => exact wellFormed_of_replicate hok hfits
  | ones hok => exact wellFormed_of_replicate hok hfits
  | fromVec hok => exact wellFormed_of_new hok hfits
  | fromMatrix hok => exact wellFormed_of_new hok hfits

namespace WellFormed

variable (hwf : WellFormed checks t)

include hwf

theorem length_eq : t.data.length = t.shape.prod :=
  (product_of_ok hwf.numel).trans (Nat.mod_eq_of_lt hwf.fits)

theorem rank_lt_length (hindex : Index t.shape indices) : rank t.shape indices < t.data.length :=
  (rank_lt hindex).trans_eq hwf.length_eq.symm

theorem exact_strides (hindex : Index t.shape indices) : t.strides = MixedRadix.strides t.shape :=
  Views.exact_strides hwf.strides (prod_pos_of_index hindex) hwf.fits

theorem isContiguous : t.isContiguous checks = .ok true := by
  rw [TensorND.isContiguous, hwf.strides, ok_bind, decide_eq_true rfl]
  rfl

theorem offset_eq (hindex : Index t.shape indices) :
    t.offset checks indices = .ok (rank t.shape indices) := by
  have hlength : ¬ indices.length ≠ t.ndim := not_not.mpr hindex.length_eq
  have hfits : 0 + rank t.shape indices < usizeRange := by
    rw [Nat.zero_add]
    exact (rank_lt hindex).trans hwf.fits
  rw [offset, if_neg hlength, hwf.exact_strides hindex, offsetLoop_of_index hindex hfits,
    Nat.zero_add]

theorem get_eq (hindex : Index t.shape indices) :
    t.get checks indices = readAt t.data (rank t.shape indices) := by
  rw [TensorND.get, hwf.offset_eq hindex, ok_bind]

/-- A dimension of a tensor with entries fits, too. -/
theorem dim_lt (hindex : Index t.shape indices) {axis : ℕ} (haxis : axis < t.shape.length) :
    t.shape[axis] < usizeRange := by
  have hdvd := List.dvd_prod (List.getElem_mem haxis)
  exact (Nat.le_of_dvd (prod_pos_of_index hindex) hdvd).trans_lt hwf.fits

end WellFormed

/-! ## Results of operations -/

/-- Every entry of the result is the entry of the argument at the index that the map gives. -/
def Reindexes (source : List ℕ → List ℕ) (t r : TensorND) : Prop :=
  ∀ indices, Index r.shape indices → Index t.shape (source indices) ∧
    r.data[rank r.shape indices]? = t.data[rank t.shape (source indices)]?

theorem reindexes_id (t : TensorND) : Reindexes id t t := fun _ hindex ↦ ⟨hindex, rfl⟩

theorem Reindexes.comp {source source' : List ℕ → List ℕ} (hfirst : Reindexes source t r)
    (hsecond : Reindexes source' r s) : Reindexes (source ∘ source') t s := by
  intro indices hindex
  obtain ⟨hmiddle, hsame⟩ := hsecond indices hindex
  obtain ⟨hinside, hsame'⟩ := hfirst _ hmiddle
  exact ⟨hinside, hsame.trans hsame'⟩

/-- A well-formed tensor is determined by its shape and its entries. -/
theorem Reindexes.eq {source : List ℕ → List ℕ} (hsame : Reindexes source t r)
    (ht : WellFormed checks t) (hr : WellFormed checks r) (hshape : r.shape = t.shape)
    (hsource : ∀ indices, Index t.shape indices → source indices = indices) : r = t := by
  have hstrides : r.strides = t.strides :=
    Except.ok.inj (hr.strides.symm.trans ((congrArg _ hshape).trans ht.strides))
  have hlength : r.data.length = t.data.length := by
    rw [hr.length_eq, ht.length_eq, hshape]
  have hdata : r.data = t.data := by
    refine List.ext_getElem? fun place ↦ ?_
    by_cases hplace : place < t.data.length
    · have hflat : place < t.shape.prod := hplace.trans_eq ht.length_eq
      have hindex := index_digits hflat
      have hentry := (hsame _ (hshape.symm ▸ hindex : Index r.shape (digits t.shape place))).2
      rwa [hsource _ hindex, hshape, rank_digits hflat] at hentry
    · rw [List.getElem?_eq_none (by omega), List.getElem?_eq_none (by omega)]
  cases r
  cases t
  cases hstrides
  cases hdata
  cases hshape
  rfl

/-- What an operation with a map of indices gives. -/
def Specified (checks : Bool) (t : TensorND) (outShape : List ℕ) (source : List ℕ → List ℕ)
    (result : Except Failure TensorND) : Prop :=
  OnlyOverflow result ∧ ∀ r, result = .ok r → r.shape = outShape ∧
    (outShape.prod < usizeRange → WellFormed checks r ∧ Reindexes source t r)

/-! ## Loops over the places of the result -/

/-- The loop reads the entry at the index that the map gives. -/
structure Copies (checks : Bool) (t : TensorND) (shape found : List ℕ) (source : List ℕ → List ℕ)
    (entry : ℕ → Except Failure F32) : Prop where
  strides : computeStrides checks shape = .ok found
  inside : ∀ indices, Index shape indices → Index t.shape (source indices)
  entry_eq : ∀ flat indices, decompose flat found = .ok indices → Index shape indices →
    entry flat = readAt t.data (rank t.shape (source indices))

section Loops

variable {shape found : List ℕ} {source : List ℕ → List ℕ} {entry : ℕ → Except Failure F32} {n : ℕ}
  {data : List F32}

theorem Copies.exists_data (hcopies : Copies checks t shape found source entry)
    (hwf : WellFormed checks t) (hnumel : product checks shape = .ok n) :
    ∃ data, (List.range n).mapM entry = .ok data := by
  refine exists_mapM fun flat hflat ↦ ?_
  obtain ⟨indices, hindices, hindex⟩ :=
    exists_decompose hcopies.strides hnumel (List.mem_range.mp hflat)
  have hplace := hwf.rank_lt_length (hcopies.inside indices hindex)
  exact ⟨_, (hcopies.entry_eq flat indices hindices hindex).trans (readAt_of_lt hplace)⟩

theorem Copies.reindexes (hcopies : Copies checks t shape found source entry)
    (hnumel : product checks shape = .ok n) (hfits : shape.prod < usizeRange)
    (hdata : (List.range n).mapM entry = .ok data) :
    WellFormed checks ⟨data, shape, found⟩ ∧ Reindexes source t ⟨data, shape, found⟩ := by
  have hall := mapM_eq_ok.mp hdata
  have hlength : data.length = n := hall.length_eq.symm.trans List.length_range
  have hn : n = shape.prod := (product_of_ok hnumel).trans (Nat.mod_eq_of_lt hfits)
  refine ⟨⟨hlength ▸ hnumel, hcopies.strides, hfits⟩, fun indices hindex ↦ ?_⟩
  have hrank := rank_lt hindex
  have hplace : rank shape indices < data.length := by
    rwa [hlength, hn]
  have hindices : decompose (rank shape indices) found = .ok indices := by
    rw [exact_strides hcopies.strides (prod_pos_of_index hindex) hfits, decompose_strides hrank,
      digits_rank hindex]
  have hentry : entry (rank shape indices) = .ok data[rank shape indices] := by
    have hget := hall.get (by rwa [List.length_range, hn]) hplace
    rwa [List.get_eq_getElem, List.get_eq_getElem, List.getElem_range] at hget
  rw [hcopies.entry_eq _ indices hindices hindex, readAt_eq_ok] at hentry
  exact ⟨hcopies.inside indices hindex, (List.getElem?_eq_getElem hplace).trans hentry.symm⟩


theorem Copies.specified (hcopies : Copies checks t shape found source entry)
    (hwf : WellFormed checks t) (hnumel : product checks shape = .ok n) :
    Specified checks t shape source
      ((List.range n).mapM entry >>= fun data ↦ pure ⟨data, shape, found⟩) := by
  obtain ⟨data, hdata⟩ := hcopies.exists_data hwf hnumel
  rw [hdata, ok_bind]
  refine ⟨onlyOverflow_ok _, fun r hr ↦ ?_⟩
  cases hr
  exact ⟨rfl, fun hfits ↦ hcopies.reindexes hnumel hfits hdata⟩

end Loops

section Operations

variable {α : Type} {outShape : List ℕ} {source : List ℕ → List ℕ}

theorem specified_error (error : SciRustError) :
    Specified checks t outShape source (.error (.error error)) :=
  ⟨onlyOverflow_error error, fun _ hok ↦ nomatch hok⟩

theorem specified_bind {x : Except Failure α} {f : α → Except Failure TensorND}
    (hx : OnlyOverflow x) (hf : ∀ a, x = .ok a → Specified checks t outShape source (f a)) :
    Specified checks t outShape source (x >>= f) := by
  refine ⟨onlyOverflow_bind hx fun a ha ↦ (hf a ha).1, fun r hr ↦ ?_⟩
  obtain ⟨a, ha, hok⟩ := bind_eq_ok.mp hr
  exact (hf a ha).2 r hok

/-! ## Permuted axes -/

theorem onlyOverflow_checkRank {op : String} {expected got : ℕ} :
    OnlyOverflow (checkRank op expected got) := by
  unfold checkRank
  split
  · exact onlyOverflow_error _
  · exact onlyOverflow_ok ()

theorem onlyOverflow_checkAxis {op : String} {axis rank : ℕ} :
    OnlyOverflow (checkAxis op axis rank) := by
  unfold checkAxis
  split
  · exact onlyOverflow_error _
  · exact onlyOverflow_ok ()

theorem onlyOverflow_checkAxes {rank : ℕ} {axes : List ℕ} {seen : List Bool} :
    OnlyOverflow (checkAxes rank axes seen) := by
  induction axes generalizing seen with
  | nil => exact onlyOverflow_ok ()
  | cons axis axes ih =>
    refine onlyOverflow_bind onlyOverflow_checkAxis fun _ _ ↦ ?_
    split
    · exact onlyOverflow_error _
    · exact ih

theorem checkAxis_eq_ok {op : String} {axis rank : ℕ} :
    checkAxis op axis rank = .ok () ↔ axis < rank := by
  unfold checkAxis
  split
  · exact iff_of_false (fun hok ↦ nomatch hok) (by omega)
  · exact iff_of_true rfl (by omega)

theorem getD_set_seen {seen : List Bool} {axis other : ℕ} (hlt : axis < seen.length) :
    (seen.set axis true).getD other false = false ↔
      axis ≠ other ∧ seen.getD other false = false := by
  rw [List.getD_eq_getElem?_getD, List.getD_eq_getElem?_getD, List.getElem?_set]
  split
  · rename_i hsame
    exact iff_of_false (fun hfalse ↦ nomatch hfalse) fun h ↦ h.1 hsame
  · rename_i hother
    exact (and_iff_right hother).symm

theorem checkAxes_eq_ok {rank : ℕ} {axes : List ℕ} {seen : List Bool}
    (hlength : seen.length = rank) :
    checkAxes rank axes seen = .ok () ↔
      axes.Nodup ∧ ∀ axis ∈ axes, axis < rank ∧ seen.getD axis false = false := by
  induction axes generalizing seen with
  | nil => exact iff_of_true rfl ⟨List.nodup_nil, fun _ hmem ↦ absurd hmem List.not_mem_nil⟩
  | cons axis axes ih =>
    rw [checkAxes, bind_eq_ok, List.nodup_cons, List.forall_mem_cons]
    constructor
    · rintro ⟨⟨⟩, haxis, hrest⟩
      rw [checkAxis_eq_ok] at haxis
      split_ifs at hrest with hseen
      obtain ⟨hnodup, hall⟩ := (ih (List.length_set.trans hlength)).mp hrest
      have hnew := fun other hmem ↦ (getD_set_seen (hlength ▸ haxis)).mp (hall other hmem).2
      refine ⟨⟨fun hmem ↦ (hnew axis hmem).1 rfl, hnodup⟩, ⟨haxis, ?_⟩, fun other hmem ↦ ?_⟩
      · exact eq_false_of_ne_true hseen
      · exact ⟨(hall other hmem).1, (hnew other hmem).2⟩
    · rintro ⟨⟨hnew, hnodup⟩, ⟨haxis, hseen⟩, hall⟩
      refine ⟨(), checkAxis_eq_ok.mpr haxis, ?_⟩
      rw [if_neg (by rw [hseen]; exact Bool.false_ne_true)]
      refine (ih (List.length_set.trans hlength)).mpr ⟨hnodup, fun other hmem ↦ ?_⟩
      have hother : axis ≠ other := fun hsame ↦ hnew (hsame ▸ hmem)
      obtain ⟨hlt, hunseen⟩ := hall other hmem
      exact ⟨hlt, (getD_set_seen (hlength ▸ haxis)).mpr ⟨hother, hunseen⟩⟩

/-- The checks accept exactly the permutations of the axes. -/
theorem checkAxes_iff_perm {axes : List ℕ} {n : ℕ} (hlength : n = axes.length) :
    checkAxes n axes (List.replicate n false) = .ok () ↔ axes.Perm (List.range n) := by
  rw [checkAxes_eq_ok List.length_replicate]
  constructor
  · rintro ⟨hnodup, hall⟩
    refine (List.subperm_of_subset hnodup fun axis hmem ↦ ?_).perm_of_length_le ?_
    · exact List.mem_range.mpr (hall axis hmem).1
    · rw [List.length_range, hlength]
  · intro hperm
    refine ⟨nodup_of_perm hperm, fun axis hmem ↦ ⟨lt_of_mem hperm hmem, ?_⟩⟩
    rw [List.getD_replicate _ (lt_of_mem hperm hmem)]

theorem copies_transpose (hwf : WellFormed checks t) {axes found : List ℕ}
    (hperm : axes.Perm (List.range t.ndim))
    (hfound : computeStrides checks (pick t.shape axes) = .ok found) :
    Copies checks t (pick t.shape axes) found (fun indices ↦ pick indices (inverse axes))
      (fun flat ↦ do
        let newIndices ← decompose flat found
        let oldIndices := scatter axes newIndices (List.replicate t.ndim 0)
        readAt t.data (← t.offset checks oldIndices)) := by
  have hlength := length_of_perm hperm
  have hinside : ∀ indices, Index (pick t.shape axes) indices →
      Index t.shape (pick indices (inverse axes)) := by
    intro indices hindex
    have hall : ∀ axis ∈ inverse axes, axis < (pick t.shape axes).length := by
      intro axis hmem
      rw [length_pick, hlength]
      exact lt_of_mem (inverse_perm hperm) hmem
    have hpicked := index_pick hindex hall
    rwa [pick_pick_inverse hperm] at hpicked
  refine ⟨hfound, hinside, fun flat indices hindices hindex ↦ ?_⟩
  have hcount : indices.length = t.ndim := by
    rw [hindex.length_eq, length_pick, hlength]
  rw [hindices, ok_bind]
  dsimp only
  rw [MixedRadix.scatter_eq hperm hcount List.length_replicate,
    hwf.offset_eq (hinside indices hindex), ok_bind]

theorem specified_transpose (hwf : WellFormed checks t) (axes : List ℕ) :
    Specified checks t (pick t.shape axes) (fun indices ↦ pick indices (inverse axes))
      (t.transpose checks axes) := by
  refine specified_bind onlyOverflow_checkRank fun _ hrank ↦ ?_
  refine specified_bind onlyOverflow_checkAxes fun _ haxes ↦ ?_
  refine specified_bind onlyOverflow_computeStrides fun found hfound ↦ ?_
  refine specified_bind onlyOverflow_product fun n hn ↦ ?_
  have hlength : t.ndim = axes.length := by
    by_contra hother
    rw [checkRank, if_pos hother] at hrank
    cases hrank
  exact (copies_transpose hwf ((checkAxes_iff_perm hlength).mp haxes) hfound).specified hwf hn

/-! ## Slices -/

theorem index_modify {shape : List ℕ} {axis start stop : ℕ} (hstop : stop ≤ shape.getD axis 0)
    (hindex : Index (shape.set axis (stop - start)) indices) :
    Index shape (indices.modify axis (· + start)) := by
  obtain ⟨hlength, hall⟩ := List.forall₂_iff_get.mp hindex
  rw [List.length_set] at hlength
  refine List.forall₂_iff_get.mpr ⟨by rwa [List.length_modify], fun i hi hi' ↦ ?_⟩
  have hlt := hall i (by rwa [hlength]) (by rwa [List.length_set])
  simp only [List.get_eq_getElem, List.getElem_set, List.getElem_modify] at hlt ⊢
  split
  · rename_i hsame
    subst hsame
    rw [if_pos rfl] at hlt
    rw [List.getD_eq_getElem _ _ hi'] at hstop
    omega
  · rename_i hother
    rwa [if_neg hother] at hlt

theorem copies_sliceAxis (hwf : WellFormed checks t) {axis start stop : ℕ} {found : List ℕ}
    (haxis : axis < t.shape.length) (hstop : stop ≤ t.shape.getD axis 0)
    (hfound : computeStrides checks (t.shape.set axis (stop - start)) = .ok found) :
    Copies checks t (t.shape.set axis (stop - start)) found
      (fun indices ↦ indices.modify axis (· + start))
      (fun flat ↦ do
        let newIndices ← decompose flat found
        let moved ← plus checks (newIndices.getD axis 0) start
        readAt t.data (← t.offset checks (newIndices.set axis moved))) := by
  refine ⟨hfound, fun indices hindex ↦ index_modify hstop hindex,
    fun flat indices hindices hindex ↦ ?_⟩
  have hinside := index_modify hstop hindex
  have hlength : axis < indices.length := by
    rwa [hindex.length_eq, List.length_set]
  have hmodified : indices.set axis (indices.getD axis 0 + start) =
      indices.modify axis (· + start) := by
    rw [List.getD_eq_getElem?_getD]
    exact (List.modify_eq_set (· + start) axis indices).symm
  have hmoved : indices.getD axis 0 + start < usizeRange := by
    have hentry := hinside.get (by rwa [List.length_modify]) haxis
    simp only [List.get_eq_getElem, List.getElem_modify_eq] at hentry
    rw [List.getD_eq_getElem _ _ hlength]
    exact hentry.trans (hwf.dim_lt hinside haxis)
  rw [hindices, ok_bind, plus_of_lt hmoved, ok_bind, hmodified, hwf.offset_eq hinside, ok_bind]

theorem specified_sliceAxis (hwf : WellFormed checks t) (axis start stop : ℕ) :
    Specified checks t (t.shape.set axis (stop - start))
      (fun indices ↦ indices.modify axis (· + start)) (t.sliceAxis checks axis start stop) := by
  refine specified_bind onlyOverflow_checkAxis fun _ haxis ↦ ?_
  dsimp only
  split_ifs with hrange
  · exact specified_error _
  · refine specified_bind onlyOverflow_product fun n hn ↦ ?_
    refine specified_bind onlyOverflow_computeStrides fun found hfound ↦ ?_
    have hstop : stop ≤ t.shape.getD axis 0 := by
      rw [not_or] at hrange
      exact Nat.le_of_not_lt hrange.2
    exact (copies_sliceAxis hwf (checkAxis_eq_ok.mp haxis) hstop hfound).specified hwf hn

/-! ## Broadcasts -/

theorem forall₂_of_canBroadcastTo {target : List ℕ} (hcan : t.canBroadcastTo target = true) :
    t.ndim ≤ target.length ∧
      List.Forall₂ (fun dim out ↦ dim = out ∨ dim = 1) t.shape
        (target.drop (target.length - t.ndim)) := by
  obtain ⟨hrank, hall⟩ := of_decide_eq_true hcan
  have hlength : t.shape.length = (target.drop (target.length - t.ndim)).length := by
    rw [List.length_drop, ← ndim]
    omega
  have hsplit : target.reverse = (target.drop (target.length - t.ndim)).reverse ++
      (target.take (target.length - t.ndim)).reverse := by
    rw [← List.reverse_append, List.take_append_drop]
  have hreversed : t.shape.reverse.length =
      (target.drop (target.length - t.ndim)).reverse.length := by
    rwa [List.length_reverse, List.length_reverse]
  rw [hsplit, ← List.append_nil t.shape.reverse, List.zip_append hreversed] at hall
  refine ⟨hrank, List.forall₂_reverse_iff.mp (List.forall₂_iff_zip.mpr ⟨hreversed, ?_⟩)⟩
  exact fun {dim out} hmem ↦ hall (dim, out) (List.mem_append_left _ hmem)

theorem index_replicated {shape target : List ℕ}
    (hdims : List.Forall₂ (fun dim out ↦ dim = out ∨ dim = 1) shape target)
    (hindex : Index target indices) : Index shape (replicated shape indices) := by
  induction hdims generalizing indices with
  | nil => exact .nil
  | @cons dim out shape target hdim _ ih =>
    obtain ⟨index, rest, hlt, hrest, rfl⟩ := List.forall₂_cons_right_iff.mp hindex
    refine .cons ?_ (ih hrest)
    dsimp only
    split_ifs with hone
    · rw [hone]
      exact Nat.one_pos
    · rwa [hdim.resolve_right hone]

theorem copies_broadcastTo (hwf : WellFormed checks t) {target found : List ℕ}
    (hcan : t.canBroadcastTo target = true) (hfound : computeStrides checks target = .ok found) :
    Copies checks t target found
      (fun indices ↦ replicated t.shape (indices.drop (target.length - t.ndim)))
      (fun flat ↦ do
        readAt t.data
          (← broadcastLoop checks found (target.length - t.ndim) flat 0 t.shape t.strides)) := by
  obtain ⟨hrank, hdims⟩ := forall₂_of_canBroadcastTo hcan
  have hinside : ∀ indices, Index target indices →
      Index t.shape (replicated t.shape (indices.drop (target.length - t.ndim))) :=
    fun indices hindex ↦ index_replicated hdims (List.forall₂_drop _ hindex)
  refine ⟨hfound, hinside, fun flat indices hindices hindex ↦ ?_⟩
  have hsource := hinside indices hindex
  have hlength : found.length = target.length - t.ndim + t.shape.length := by
    rw [computeStrides_of_ok hfound, List.length_map, length_strides, ← ndim]
    omega
  have hfits : 0 + rank t.shape (replicated t.shape (indices.drop (target.length - t.ndim))) <
      usizeRange := by
    rw [Nat.zero_add]
    exact (rank_lt hsource).trans hwf.fits
  rw [hwf.exact_strides hsource, broadcastLoop_eq hlength hindices hsource hfits, ok_bind,
    Nat.zero_add]

theorem specified_broadcastTo (hwf : WellFormed checks t) (target : List ℕ) :
    Specified checks t target
      (fun indices ↦ replicated t.shape (indices.drop (target.length - t.shape.length)))
      (t.broadcastTo checks target) := by
  unfold broadcastTo
  split_ifs with hcan
  · exact specified_error _
  · refine specified_bind onlyOverflow_computeStrides fun found hfound ↦ ?_
    refine specified_bind onlyOverflow_product fun n hn ↦ ?_
    exact (copies_broadcastTo hwf (eq_true_of_ne_false hcan) hfound).specified hwf hn

/-! ## Reshapes -/

theorem specified_reshape (hwf : WellFormed checks t) (newShape : List ℕ) :
    Specified checks t newShape (fun indices ↦ digits t.shape (rank newShape indices))
      (t.reshape checks newShape) := by
  refine specified_bind onlyOverflow_product fun n hn ↦ ?_
  split_ifs with hnumel
  · exact specified_error _
  · refine specified_bind onlyOverflow_computeStrides fun found hfound ↦ ?_
    refine ⟨onlyOverflow_ok _, fun r hr ↦ ?_⟩
    cases hr
    refine ⟨rfl, fun hfits ↦ ?_⟩
    have hwf' : WellFormed checks ⟨t.data, newShape, found⟩ :=
      ⟨hn.trans (congrArg _ (not_not.mp hnumel)), hfound, hfits⟩
    refine ⟨hwf', fun indices hindex ↦ ?_⟩
    have hplace : rank newShape indices < t.shape.prod :=
      (hwf'.rank_lt_length hindex).trans_eq hwf.length_eq
    exact ⟨index_digits hplace, by rw [rank_digits hplace]⟩

theorem specified_flattenFrom (hwf : WellFormed checks t) (startAxis : ℕ) :
    Specified checks t (Operation.outShape t.shape (.flattenFrom startAxis))
      (Operation.source t.shape (.flattenFrom startAxis)) (t.flattenFrom checks startAxis) := by
  unfold flattenFrom
  split_ifs with haxis
  · exact specified_error _
  · refine specified_bind onlyOverflow_product fun before hbefore ↦ ?_
    refine specified_bind onlyOverflow_product fun behind hbehind ↦ ?_
    rw [product_of_ok hbefore, product_of_ok hbehind]
    exact specified_reshape hwf _

theorem specified_toContiguous (hwf : WellFormed checks t) :
    Specified checks t t.shape id (t.toContiguous checks) := by
  rw [toContiguous, hwf.isContiguous, ok_bind, if_pos rfl]
  refine ⟨onlyOverflow_ok t, fun r hr ↦ ?_⟩
  cases hr
  exact ⟨rfl, fun _ ↦ ⟨hwf, reindexes_id t⟩⟩

theorem specified_apply (hwf : WellFormed checks t) (op : Operation) :
    Specified checks t (op.outShape t.shape) (op.source t.shape) (t.apply checks op) := by
  cases op with
  | transpose axes => exact specified_transpose hwf axes
  | sliceAxis axis start stop => exact specified_sliceAxis hwf axis start stop
  | reshape newShape => exact specified_reshape hwf newShape
  | flattenFrom startAxis => exact specified_flattenFrom hwf startAxis
  | broadcastTo target => exact specified_broadcastTo hwf target
  | toContiguous => exact specified_toContiguous hwf

end Operations

/-! ## Transposing back -/

theorem perm_of_transpose {axes : List ℕ} (hok : t.transpose checks axes = .ok r) :
    axes.Perm (List.range t.ndim) := by
  obtain ⟨_, hrank, hok⟩ := bind_eq_ok.mp hok
  obtain ⟨_, haxes, hok⟩ := bind_eq_ok.mp hok
  have hlength : t.ndim = axes.length := by
    by_contra hother
    rw [checkRank, if_pos hother] at hrank
    cases hrank
  exact (checkAxes_iff_perm hlength).mp haxes

theorem exists_transpose (hwf : WellFormed checks t) {axes found : List ℕ} {n : ℕ}
    (hperm : axes.Perm (List.range t.ndim))
    (hfound : computeStrides checks (pick t.shape axes) = .ok found)
    (hn : product checks (pick t.shape axes) = .ok n) : ∃ r, t.transpose checks axes = .ok r := by
  have hlength : t.ndim = axes.length := (length_of_perm hperm).symm
  obtain ⟨data, hdata⟩ := (copies_transpose hwf hperm hfound).exists_data hwf hn
  refine ⟨⟨data, pick t.shape axes, found⟩, ?_⟩
  rw [TensorND.transpose, checkRank, if_neg (not_not.mpr hlength), ok_bind,
    (checkAxes_iff_perm hlength).mpr hperm, ok_bind]
  dsimp only
  rw [← pick, hfound, ok_bind, hn, ok_bind, hdata, ok_bind]
  rfl

/-- The inverse permutation brings the tensor back. -/
theorem transpose_inverse (hwf : WellFormed checks t) {axes : List ℕ}
    (hok : t.transpose checks axes = .ok r) : r.transpose checks (inverse axes) = .ok t := by
  have hperm := perm_of_transpose hok
  obtain ⟨hshape, hresult⟩ := (specified_transpose hwf axes).2 r hok
  obtain ⟨hwf', hforth⟩ := hresult ((prod_pick hperm).trans_lt hwf.fits)
  have hrank : r.ndim = t.ndim := by
    rw [ndim, hshape, length_pick, length_of_perm hperm]
  have hback : pick r.shape (inverse axes) = t.shape := by
    rw [hshape, pick_pick_inverse hperm]
  have hperm' : (inverse axes).Perm (List.range r.ndim) := hrank ▸ inverse_perm hperm
  obtain ⟨s, hs⟩ := exists_transpose hwf' hperm' (hback.symm ▸ hwf.strides) (hback.symm ▸ hwf.numel)
  obtain ⟨hshape', hresult'⟩ := (specified_transpose hwf' (inverse axes)).2 s hs
  obtain ⟨hwf'', hbackward⟩ := hresult' (hback.symm ▸ hwf.fits)
  have hsame : s = t := by
    refine (hforth.comp hbackward).eq hwf hwf'' (hshape'.trans hback) fun indices hindex ↦ ?_
    have hlength : axes.Perm (List.range indices.length) := by
      rwa [hindex.length_eq]
    rw [Function.comp, inverse_inverse hperm, pick_pick_inverse hlength]
  rw [hs, hsame]

/-! ## Runs -/

/-- Along the run the numbers of entries fit in a machine word. -/
def FitsAlong (checks : Bool) : List Operation → TensorND → Prop
  | [], t => t.shape.prod < usizeRange
  | op :: ops, t => t.shape.prod < usizeRange ∧
      ∀ r, t.apply checks op = .ok r → FitsAlong checks ops r

theorem FitsAlong.start {ops : List Operation} (hfits : FitsAlong checks ops t) :
    t.shape.prod < usizeRange := by
  cases ops with
  | nil => exact hfits
  | cons op ops => exact hfits.1

theorem specified_run (hwf : WellFormed checks t) {ops : List Operation}
    (hfits : FitsAlong checks ops t) :
    OnlyOverflow (run checks ops t) ∧ ∀ r, run checks ops t = .ok r →
      WellFormed checks r ∧ r.shape = shapeAfter t.shape ops ∧
        Reindexes (sourceIndex t.shape ops) t r := by
  induction ops generalizing t with
  | nil =>
    refine ⟨onlyOverflow_ok t, fun r hr ↦ ?_⟩
    cases hr
    exact ⟨hwf, rfl, reindexes_id t⟩
  | cons op ops ih =>
    obtain ⟨hpanic, hresult⟩ := specified_apply hwf op
    have hnext : ∀ s, t.apply checks op = .ok s →
        s.shape = op.outShape t.shape ∧ WellFormed checks s ∧
          Reindexes (op.source t.shape) t s := by
      intro s hs
      obtain ⟨hshape, hrest⟩ := hresult s hs
      exact ⟨hshape, hrest (hshape ▸ (hfits.2 s hs).start)⟩
    refine ⟨onlyOverflow_bind hpanic fun s hs ↦ ?_, fun r hr ↦ ?_⟩
    · exact (ih (hnext s hs).2.1 (hfits.2 s hs)).1
    · obtain ⟨s, hs, hr⟩ := bind_eq_ok.mp hr
      obtain ⟨hshape, hwf', hforth⟩ := hnext s hs
      obtain ⟨hwf'', hshape', hrest⟩ := (ih hwf' (hfits.2 s hs)).2 r hr
      rw [hshape] at hshape' hrest
      exact ⟨hwf'', hshape', hforth.comp hrest⟩

/-- A run on a constructed tensor panics of overflows only.  Its result is contiguous, has the
entries of the tensor at the indices that the composed map gives, and is restored by a permutation
of the axes and its inverse. -/
theorem run_views (hbuilt : Constructed checks t) {ops : List Operation}
    (hfits : FitsAlong checks ops t) :
    OnlyOverflow (run checks ops t) ∧ ∀ r, run checks ops t = .ok r →
      r.isContiguous checks = .ok true ∧
      r.shape = shapeAfter t.shape ops ∧
      (∀ indices, Index r.shape indices → Index t.shape (sourceIndex t.shape ops indices) ∧
        ∃ value, r.get checks indices = .ok value ∧
          t.get checks (sourceIndex t.shape ops indices) = .ok value) ∧
      ∀ axes s, r.transpose checks axes = .ok s → s.transpose checks (inverse axes) = .ok r := by
  have hwf := wellFormed_of_constructed hbuilt hfits.start
  obtain ⟨hpanic, hresult⟩ := specified_run hwf hfits
  refine ⟨hpanic, fun r hr ↦ ?_⟩
  obtain ⟨hwf', hshape, hsame⟩ := hresult r hr
  refine ⟨hwf'.isContiguous, hshape, fun indices hindex ↦ ?_,
    fun axes s hs ↦ transpose_inverse hwf' hs⟩
  obtain ⟨hinside, hentry⟩ := hsame indices hindex
  have hplace := hwf'.rank_lt_length hindex
  refine ⟨hinside, r.data[rank r.shape indices], ?_, ?_⟩
  · rw [hwf'.get_eq hindex, readAt_of_lt hplace]
  · rw [hwf.get_eq hinside, readAt_eq_ok, ← hentry, List.getElem?_eq_getElem hplace]

end Tensors

/-! ## A slice of a transposed matrix -/

def matrix : TensorND := ⟨[1, 2, 3, 4, 5, 6], [2, 3], [3, 1]⟩

def transposed : TensorND := ⟨[1, 4, 2, 5, 3, 6], [3, 2], [2, 1]⟩

def sliced : TensorND := ⟨[2, 5, 3, 6], [2, 2], [2, 1]⟩

theorem transpose_matrix : matrix.apply true (.transpose [1, 0]) = .ok transposed := by
  decide

theorem sliceAxis_transposed : transposed.apply true (.sliceAxis 0 1 3) = .ok sliced := by
  decide

theorem fitsAlong_matrix : FitsAlong true [.transpose [1, 0], .sliceAxis 0 1 3] matrix := by
  refine ⟨by decide, fun r hr ↦ ?_⟩
  cases transpose_matrix.symm.trans hr
  refine ⟨by decide, fun s hs ↦ ?_⟩
  cases sliceAxis_transposed.symm.trans hs
  exact (by decide : sliced.shape.prod < usizeRange)

theorem run_views_matrix :
    ∃ value, sliced.get true [1, 0] = .ok value ∧ matrix.get true [0, 2] = .ok value := by
  have hbuilt : Constructed true matrix :=
    .new (by decide : new true [1, 2, 3, 4, 5, 6] [2, 3] = .ok matrix)
  have hrun : run true [.transpose [1, 0], .sliceAxis 0 1 3] matrix = .ok sliced := by
    rw [run, transpose_matrix, ok_bind, run, sliceAxis_transposed]
    rfl
  obtain ⟨-, -, hentries, -⟩ := (run_views hbuilt fitsAlong_matrix).2 sliced hrun
  exact (hentries [1, 0] (.cons (by decide) (.cons (by decide) .nil))).2

end SoulSystem.Scirust.Views
