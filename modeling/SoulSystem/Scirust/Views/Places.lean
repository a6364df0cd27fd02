import SoulSystem.Scirust.Views.Operations

/-!
# Places in a tensor

In a shape whose number of entries fits in a machine word, the strides that the code computes are
the exact ones as soon as there is an entry.  A place is taken apart to an index of the shape, even
where the strides wrapped around, and an index of the shape is put together to its rank.
-/

namespace SoulSystem.Scirust.Views

open Library MixedRadix Outcome List

/-! ## Panics -/

/-- Whatever panics here does so of an overflow. -/
def OnlyOverflow {α : Type} (x : Except Failure α) : Prop :=
  ∀ fault, x = .error (.fault fault) → fault = .overflow

section Panics

variable {α β : Type} {checks : Bool} {a b c n : ℕ} {shape : List ℕ}

theorem onlyOverflow_ok (a : α) : OnlyOverflow (.ok a : Except Failure α) :=
  fun _ hfault ↦ nomatch hfault

theorem onlyOverflow_error (error : SciRustError) :
    OnlyOverflow (.error (.error error) : Except Failure α) :=
  fun _ hfault ↦ nomatch hfault

theorem onlyOverflow_bind {x : Except Failure α} {f : α → Except Failure β} (hx : OnlyOverflow x)
    (hf : ∀ a, x = .ok a → OnlyOverflow (f a)) : OnlyOverflow (x >>= f) := by
  intro fault hfault
  cases bind_eq_error.mp hfault with
  | inl herror => exact hx fault herror
  | inr hnext =>
    obtain ⟨a, ha, herror⟩ := hnext
    exact hf a ha fault herror

theorem onlyOverflow_times : OnlyOverflow (times checks a b) := by
  intro fault hfault
  unfold times at hfault
  split at hfault
  · cases hfault
    rfl
  · cases hfault

theorem onlyOverflow_product : OnlyOverflow (product checks shape) := by
  unfold product
  generalize 1 = acc
  induction shape generalizing acc with
  | nil => exact onlyOverflow_ok acc
  | cons dim shape ih => exact onlyOverflow_bind onlyOverflow_times fun next _ ↦ ih next

theorem onlyOverflow_computeStrides : OnlyOverflow (computeStrides checks shape) := by
  induction shape using computeStrides.induct with
  | case1 => exact onlyOverflow_ok []
  | case2 _ => exact onlyOverflow_ok [1]
  | case3 _ dim shape ih =>
    exact onlyOverflow_bind ih fun strides _ ↦
      onlyOverflow_bind onlyOverflow_times fun stride _ ↦ onlyOverflow_ok (stride :: strides)

/-! ## Products and strides -/

theorem times_of_ok (hok : times checks a b = .ok c) : c = a * b % usizeRange := by
  unfold times at hok
  split at hok
  · cases hok
  · exact (Except.ok.inj hok).symm

theorem times_of_lt (hlt : a * b < usizeRange) : times checks a b = .ok (a * b) := by
  rw [times, if_neg fun h ↦ absurd h.2 (Nat.not_le_of_lt hlt), Nat.mod_eq_of_lt hlt]

theorem plus_of_lt (hlt : a + b < usizeRange) : plus checks a b = .ok (a + b) := by
  rw [plus, if_neg fun h ↦ absurd h.2 (Nat.not_le_of_lt hlt), Nat.mod_eq_of_lt hlt]

theorem foldlM_times {acc : ℕ} (hacc : acc < usizeRange)
    (hok : shape.foldlM (times checks) acc = .ok n) : n = acc * shape.prod % usizeRange := by
  induction shape generalizing acc with
  | nil =>
    cases hok
    rw [prod_nil, Nat.mul_one, Nat.mod_eq_of_lt hacc]
  | cons dim shape ih =>
    obtain ⟨next, hnext, hrest⟩ := bind_eq_ok.mp hok
    have hvalue := times_of_ok hnext
    have hlt : next < usizeRange := hvalue ▸ Nat.mod_lt _ (by decide)
    rw [ih hlt hrest, hvalue, Nat.mod_mul_mod, prod_cons, Nat.mul_assoc]

theorem product_of_ok (hok : product checks shape = .ok n) : n = shape.prod % usizeRange := by
  rw [foldlM_times (by decide) hok, Nat.one_mul]

theorem computeStrides_of_ok {found : List ℕ} (hok : computeStrides checks shape = .ok found) :
    found = (strides shape).map (· % usizeRange) := by
  induction shape using computeStrides.induct generalizing found with
  | case1 =>
    cases hok
    rfl
  | case2 dim =>
    cases hok
    rfl
  | case3 _ dim shape ih =>
    obtain ⟨rest, hrest, hok⟩ := bind_eq_ok.mp hok
    obtain ⟨stride, hstride, hpure⟩ := bind_eq_ok.mp hok
    cases hpure
    have hvalue := times_of_ok hstride
    rw [ih hrest, strides, map_cons, headD_cons, Nat.mod_mul_mod, Nat.mul_comm,
      ← prod_cons] at hvalue
    rw [strides, map_cons, ← ih hrest, hvalue]

/-- As soon as there is an entry, all strides are exact. -/
theorem exact_strides {found : List ℕ} (hok : computeStrides checks shape = .ok found)
    (hpos : 0 < shape.prod) (hfits : shape.prod < usizeRange) : found = strides shape := by
  have hsmall : ∀ stride ∈ strides shape, stride % usizeRange = stride := fun stride hmem ↦
    Nat.mod_eq_of_lt ((le_prod_of_mem_strides hpos hmem).trans_lt hfits)
  rw [computeStrides_of_ok hok, map_congr_left hsmall, map_id']

end Panics

/-! ## Taking a place apart -/

section Places

variable {checks : Bool} {shape indices found : List ℕ} {n flat : ℕ}

theorem decompose_cons {stride : ℕ} {rest : List ℕ} (hpos : 0 < stride)
    (hrest : decompose (flat % stride) rest = .ok indices) :
    decompose flat (stride :: rest) = .ok (flat / stride :: indices) := by
  rw [decompose, quotient, remainder, if_neg hpos.ne', if_neg hpos.ne', ok_bind, ok_bind, hrest]
  rfl

theorem exists_decompose_of_lt_head {dim : ℕ}
    (hok : computeStrides checks (dim :: shape) = .ok found) (hflat : flat < found.headD 1 * dim) :
    ∃ indices, decompose flat found = .ok indices ∧ Index (dim :: shape) indices := by
  induction shape generalizing dim found flat with
  | nil =>
    cases hok
    rw [headD_cons, Nat.one_mul] at hflat
    refine ⟨_, decompose_cons Nat.one_pos rfl, .cons ?_ .nil⟩
    rwa [Nat.div_one]
  | cons next shape ih =>
    obtain ⟨rest, hrest, hok⟩ := bind_eq_ok.mp hok
    obtain ⟨stride, hstride, hpure⟩ := bind_eq_ok.mp hok
    cases hpure
    rw [headD_cons] at hflat
    have hpos : 0 < stride := Nat.pos_of_mul_pos_right (Nat.zero_lt_of_lt hflat)
    have hsmall : stride ≤ rest.headD 1 * next := times_of_ok hstride ▸ Nat.mod_le _ _
    obtain ⟨indices, hindices, hindex⟩ := ih hrest ((Nat.mod_lt flat hpos).trans_le hsmall)
    refine ⟨_, decompose_cons hpos hindices, .cons ?_ hindex⟩
    exact (Nat.div_lt_iff_lt_mul hpos).mpr (by rwa [Nat.mul_comm])

/-- Every place up to the product that the code computes has an index of the shape. -/
theorem exists_decompose (hok : computeStrides checks shape = .ok found)
    (hnumel : product checks shape = .ok n) (hflat : flat < n) :
    ∃ indices, decompose flat found = .ok indices ∧ Index shape indices := by
  cases shape with
  | nil =>
    cases hok
    exact ⟨[], rfl, .nil⟩
  | cons dim shape =>
    have hhead : found.headD 1 = shape.prod % usizeRange := by
      rw [computeStrides_of_ok hok]
      rfl
    have hwrapped : n ≤ found.headD 1 * dim := by
      rw [product_of_ok hnumel, hhead, prod_cons, Nat.mul_comm, ← Nat.mod_mul_mod]
      exact Nat.mod_le _ _
    exact exists_decompose_of_lt_head hok (hflat.trans_le hwrapped)

theorem decompose_strides (hflat : flat < shape.prod) :
    decompose flat (strides shape) = .ok (digits shape flat) := by
  induction shape generalizing flat with
  | nil => rfl
  | cons dim shape ih =>
    have hpos := tail_pos hflat
    exact decompose_cons hpos (ih (Nat.mod_lt flat hpos))

/-! ## Putting an index together -/

theorem offsetLoop_of_index {off : ℕ} (hindex : Index shape indices)
    (hfits : off + rank shape indices < usizeRange) :
    offsetLoop checks off indices shape (strides shape) = .ok (off + rank shape indices) := by
  induction hindex generalizing off with
  | nil => rfl
  | @cons index dim indices shape hlt _ ih =>
    rw [rank, ← Nat.add_assoc] at hfits ⊢
    have hnext : off + index * shape.prod < usizeRange :=
      (Nat.le_add_right _ _).trans_lt hfits
    have hstep : index * shape.prod < usizeRange := (Nat.le_add_left _ _).trans_lt hnext
    rw [strides, offsetLoop, if_neg (Nat.not_le_of_lt hlt), times_of_lt hstep, ok_bind,
      plus_of_lt hnext, ok_bind]
    exact ih hfits

theorem readAt_of_lt {data : List F32} {place : ℕ} (hplace : place < data.length) :
    readAt data place = .ok data[place] := by
  rw [readAt, getElem?_eq_getElem hplace]

theorem readAt_eq_ok {data : List F32} {place : ℕ} {value : F32} :
    readAt data place = .ok value ↔ data[place]? = some value := by
  unfold readAt
  cases data[place]? with
  | none => exact iff_of_false (fun hok ↦ nomatch hok) (fun hok ↦ nomatch hok)
  | some found =>
    refine ⟨fun hok ↦ ?_, fun hsome ↦ ?_⟩
    · rw [Except.ok.inj hok]
    · rw [Option.some.inj hsome]

/-! ## Replicated axes -/

/-- The index of the source of a broadcast. -/
def replicated (shape indices : List ℕ) : List ℕ :=
  List.zipWith (fun dim index ↦ if dim = 1 then 0 else index) shape indices

theorem broadcastLoop_eq {outStrides : List ℕ} {missing srcFlat : ℕ}
    (hlength : outStrides.length = missing + shape.length)
    (hindices : decompose flat outStrides = .ok indices)
    (hindex : Index shape (replicated shape (indices.drop missing)))
    (hfits : srcFlat + rank shape (replicated shape (indices.drop missing)) < usizeRange) :
    broadcastLoop checks outStrides missing flat srcFlat shape (strides shape) =
      .ok (srcFlat + rank shape (replicated shape (indices.drop missing))) := by
  induction outStrides generalizing missing flat srcFlat shape indices with
  | nil =>
    cases hindices
    rw [drop_nil, replicated, zipWith_nil_right] at hfits ⊢
    cases shape <;> rfl
  | cons stride outStrides ih =>
    rw [decompose] at hindices
    obtain ⟨index, hquotient, hindices⟩ := bind_eq_ok.mp hindices
    obtain ⟨rem, hremainder, hindices⟩ := bind_eq_ok.mp hindices
    obtain ⟨rest, hrest, hpure⟩ := bind_eq_ok.mp hindices
    cases hpure
    cases missing with
    | succ missing =>
      rw [broadcastLoop, hquotient, ok_bind, hremainder, ok_bind]
      refine ih ?_ hrest hindex hfits
      rw [length_cons] at hlength
      omega
    | zero =>
      cases shape with
      | nil => simp at hlength
      | cons dim shape =>
        have htail : outStrides.length = 0 + shape.length := by
          simp only [length_cons] at hlength
          omega
        have hpicked : replicated (dim :: shape) ((index :: rest).drop 0) =
            (if dim = 1 then 0 else index) :: replicated shape (rest.drop 0) := rfl
        rw [hpicked] at hindex hfits ⊢
        rw [rank, ← Nat.add_assoc] at hfits ⊢
        obtain ⟨_, hindex⟩ := List.forall₂_cons.mp hindex
        have hnext : srcFlat + (if dim = 1 then 0 else index) * shape.prod < usizeRange :=
          (Nat.le_add_right _ _).trans_lt hfits
        have hstep := (Nat.le_add_left _ _).trans_lt hnext
        rw [strides, broadcastLoop, hquotient, ok_bind, hremainder, ok_bind]
        dsimp only
        rw [times_of_lt hstep, ok_bind, plus_of_lt hnext, ok_bind]
        exact ih htail hrest hindex hfits

end Places

end SoulSystem.Scirust.Views
