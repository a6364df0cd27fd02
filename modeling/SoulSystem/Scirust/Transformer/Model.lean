import SoulSystem.Scirust.Transformer.Block

/-!
# Stacks of transformer blocks

A model takes a sequence through its blocks one by one, or takes each row through all blocks with
one cache for each of them.  Both ways give the same rows, for every sequence that has room in the
caches, exactly when every linear layer of the model has an output.
-/

namespace SoulSystem.Scirust

open Library RowMajor Outcome Pipeline KvCache List SoulSystem.Scirust.TransformerBlock

variable {frac : ℕ}

structure TransformerModel (frac : ℕ) where
  blocks : List (TransformerBlock frac)
  dModel : ℕ
  blocks_ne_nil : blocks ≠ []
  dModel_eq : ∀ block ∈ blocks, block.dModel = dModel

namespace TransformerModel

/-- The sequence through all blocks. -/
def prefill (f : Scalars frac) (model : TransformerModel frac) (x : List (Fixed 32 frac)) (s : ℕ) :
    Except Failure (List (Fixed 32 frac)) :=
  model.blocks.foldlM (fun x block ↦ block.forward f x s) x

def newCaches (model : TransformerModel frac) (cap : ℕ) : List (KvCache frac) :=
  model.blocks.map fun _ ↦ KvCache.new cap model.dModel

/-- A row through the blocks, up to the first that fails. -/
def decodeBlocks (f : Scalars frac) :
    List (TransformerBlock frac) → Row frac → ℕ → List (KvCache frac) →
      Except Failure (Row frac) × List (KvCache frac)
  | block :: blocks, xT, pos, cache :: caches =>
    match block.forwardDecode f xT pos cache with
    | (.error failure, cache) => (.error failure, cache :: caches)
    | (.ok xT, cache) =>
      let rest := decodeBlocks f blocks xT pos caches
      (rest.1, cache :: rest.2)
  | _, xT, _, caches => (.ok xT, caches)

/-- A row through all blocks, with the caches as they are left even when the row fails. -/
def decodeStep (f : Scalars frac) (model : TransformerModel frac) (xT : Row frac) (pos : ℕ)
    (caches : List (KvCache frac)) : Except Failure (Row frac) × List (KvCache frac) :=
  if caches.length = model.blocks.length then decodeBlocks f model.blocks xT pos caches
  else (.error .panic, caches)

/-! ## Two ways through the model -/

/-- The rows of a sequence. -/
def rows (model : TransformerModel frac) (x : List (Fixed 32 frac)) (s : ℕ) : List (Row frac) :=
  (List.range s).map fun t ↦ slice x (t * model.dModel) model.dModel

/-- Rows at positions one after the other, as long as they succeed. -/
def decodeFrom (f : Scalars frac) (model : TransformerModel frac) :
    ℕ → List (Row frac) → List (KvCache frac) → Except Failure (List (Row frac))
  | _, [], _ => .ok []
  | pos, xT :: xs, caches => do
      let step := model.decodeStep f xT pos caches
      let y ← step.1
      let ys ← decodeFrom f model (pos + 1) xs step.2
      return y :: ys

/-- Caches of this capacity after any use. -/
inductive Used (f : Scalars frac) (model : TransformerModel frac) (cap : ℕ) :
    List (KvCache frac) → Prop where
  | new : Used f model cap (model.newCaches cap)
  | step (xT : Row frac) (pos : ℕ) {caches : List (KvCache frac)} (used : Used f model cap caches) :
      Used f model cap (model.decodeStep f xT pos caches).2
  | clear {caches : List (KvCache frac)} (used : Used f model cap caches) :
      Used f model cap (caches.map KvCache.clear)

/-- Caches for another sequence are new, or have been cleared. -/
inductive Ready (f : Scalars frac) (model : TransformerModel frac) (cap : ℕ) :
    List (KvCache frac) → Prop where
  | fresh : Ready f model cap (model.newCaches cap)
  | cleared {caches : List (KvCache frac)} (used : Used f model cap caches) :
      Ready f model cap (caches.map KvCache.clear)

/-- Both ways succeed together, and with the same rows. -/
structure Agrees (f : Scalars frac) (model : TransformerModel frac) (x : List (Fixed 32 frac)) (s : ℕ)
    (caches : List (KvCache frac)) : Prop where
  succeed : (∃ out, model.prefill f x s = .ok out) ↔
    ∃ outs, model.decodeFrom f 0 (model.rows x s) caches = .ok outs
  same : ∀ out outs, model.prefill f x s = .ok out →
    model.decodeFrom f 0 (model.rows x s) caches = .ok outs → outs = model.rows out s

/-! ## Blocks with caches -/

/-- A block with a cache for the positions so far. -/
structure Stage (frac dModel cap pos : ℕ) where
  block : TransformerBlock frac
  cache : KvCache frac
  history : History frac
  dModel_eq : block.dModel = dModel
  even : block.dHead % 2 = 0
  holds : cache.Holds history
  dm_eq : cache.dm = dModel
  cap_eq : cache.cap = cap
  length_history : history.length = pos

variable {f : Scalars frac} {model : TransformerModel frac} {dModel cap pos : ℕ}

namespace Stage

def layer (f : Scalars frac) (stage : Stage frac dModel cap pos) :
    Layer Failure (History frac) (Row frac) × History frac :=
  (stage.block.layer f, stage.history)

/-- A stage takes a row as its layer does, and then stands at the next position. -/
theorem forwardDecode_of_layer (hfrac : frac < 32) (stage : Stage frac dModel cap pos) (hroom : pos < cap)
    {x : Row frac} (hx : x.length = dModel) {out : Row frac × History frac}
    (hok : stage.block.layer f stage.history x = .ok out) :
    ∃ next : Stage frac dModel cap (pos + 1), next.block = stage.block ∧ next.history = out.2 ∧
      stage.block.forwardDecode f x pos stage.cache = (.ok out.1, next.cache) := by
  obtain ⟨block, cache, history, rfl, heven, hholds, hdm, rfl, rfl⟩ := stage
  obtain ⟨_, _, -, -, hnext⟩ := historyLayer_eq_ok.mp hok
  obtain ⟨hdone, hholds'⟩ := TransformerBlock.forwardDecode_of_layer hfrac heven hholds hdm hroom hx hok
  obtain ⟨hdm', hcap'⟩ := dims_of_forwardDecode x history.length cache
  exact ⟨⟨block, _, out.2, rfl, heven, hholds', hdm'.trans hdm, hcap', by
    rw [hnext, length_append, length_singleton]⟩, rfl, rfl, Prod.ext hdone rfl⟩

theorem layer_of_forwardDecode (hfrac : frac < 32) (stage : Stage frac dModel cap pos) (hroom : pos < cap)
    {x y : Row frac} (hx : x.length = dModel)
    (hok : (stage.block.forwardDecode f x pos stage.cache).1 = .ok y) :
    ∃ next, stage.block.layer f stage.history x = .ok (y, next) := by
  obtain ⟨block, cache, history, rfl, heven, hholds, hdm, rfl, rfl⟩ := stage
  exact TransformerBlock.layer_of_forwardDecode hfrac heven hholds hdm hroom hx hok

end Stage

/-- **What passes through the layers passes through the blocks.** -/
theorem decodeBlocks_of_pass (hfrac : frac < 32) (hroom : pos < cap)
    {stages : List (Stage frac dModel cap pos)} {x y : Row frac} (hx : x.length = dModel)
    {layers : List (Layer Failure (History frac) (Row frac) × History frac)}
    (hok : Pipeline.pass (stages.map (Stage.layer f)) x = .ok (y, layers)) :
    ∃ next : List (Stage frac dModel cap (pos + 1)), next.map Stage.block = stages.map Stage.block ∧
      next.map (Stage.layer f) = layers ∧
      decodeBlocks f (stages.map Stage.block) x pos (stages.map Stage.cache) =
        (.ok y, next.map Stage.cache) := by
  induction stages generalizing x y layers with
  | nil =>
    cases hok
    exact ⟨[], rfl, rfl, rfl⟩
  | cons stage stages ih =>
    simp only [map_cons, Stage.layer, Pipeline.pass, bind_eq_ok, pure_eq_ok] at hok
    obtain ⟨out, hlayer, last, hlast, hsame⟩ := hok
    cases hsame
    obtain ⟨next, hblock, hhistory, hdecode⟩ := stage.forwardDecode_of_layer hfrac hroom hx hlayer
    have hlength : out.1.length = dModel := (length_layer hlayer).trans hx
    obtain ⟨nexts, hblocks, hlayers, hdecodes⟩ := ih hlength hlast
    refine ⟨next :: nexts, ?_, ?_, ?_⟩
    · rw [map_cons, map_cons, hblock, hblocks]
    · rw [map_cons, hlayers, Stage.layer, hblock, hhistory]
    · simp only [map_cons, decodeBlocks, hdecode, hdecodes]

theorem pass_of_decodeBlocks (hfrac : frac < 32) (hroom : pos < cap)
    {stages : List (Stage frac dModel cap pos)} {x y : Row frac} (hx : x.length = dModel)
    (hok : (decodeBlocks f (stages.map Stage.block) x pos (stages.map Stage.cache)).1 = .ok y) :
    ∃ layers, Pipeline.pass (stages.map (Stage.layer f)) x = .ok (y, layers) := by
  induction stages generalizing x y with
  | nil =>
    cases hok
    exact ⟨[], rfl⟩
  | cons stage stages ih =>
    simp only [map_cons, decodeBlocks] at hok
    cases hdecode : stage.block.forwardDecode f x pos stage.cache with
    | mk result cache =>
      rw [hdecode] at hok
      cases result with
      | error failure => cases hok
      | ok z =>
        obtain ⟨history, hlayer⟩ :=
          stage.layer_of_forwardDecode hfrac hroom hx (congrArg Prod.fst hdecode)
        have hlength : z.length = dModel := (length_layer hlayer).trans hx
        obtain ⟨layers, hlayers⟩ := ih hlength hok
        refine ⟨(stage.block.layer f, history) :: layers, ?_⟩
        rw [map_cons, Stage.layer, Pipeline.pass, hlayer, ok_bind, hlayers, ok_bind]
        rfl

/-! ## A sequence -/

/-- **Rows at positions one after the other go through the layers.** -/
theorem decodeFrom_eq_ok (hfrac : frac < 32) {stages : List (Stage frac dModel cap pos)}
    (hblocks : stages.map Stage.block = model.blocks) {xs : List (Row frac)}
    (hxs : ∀ x ∈ xs, x.length = dModel) (hroom : pos + xs.length ≤ cap) {ys : List (Row frac)} :
    model.decodeFrom f pos xs (stages.map Stage.cache) = .ok ys ↔
      elementwise (stages.map (Stage.layer f)) xs = .ok ys := by
  induction xs generalizing pos ys with
  | nil => exact Iff.rfl
  | cons x xs ih =>
    have hstep : model.decodeStep f x pos (stages.map Stage.cache) =
        decodeBlocks f (stages.map Stage.block) x pos (stages.map Stage.cache) := by
      rw [decodeStep, if_pos (by rw [← hblocks, length_map, length_map]), hblocks]
    rw [length_cons] at hroom
    have hpos : pos < cap := by
      omega
    have hx : x.length = dModel := hxs x mem_cons_self
    have hrest : ∀ x ∈ xs, x.length = dModel := fun x hmem ↦ hxs x (mem_cons_of_mem _ hmem)
    simp only [decodeFrom, hstep, elementwise, bind_eq_ok, pure_eq_ok]
    constructor
    · rintro ⟨y, hy, rest, hys, rfl⟩
      obtain ⟨layers, hpass⟩ := pass_of_decodeBlocks hfrac hpos hx hy
      obtain ⟨next, hnext, rfl, hdecode⟩ := decodeBlocks_of_pass hfrac hpos hx hpass
      rw [hdecode] at hys
      exact ⟨_, hpass, rest, (ih (hnext.trans hblocks) hrest (by omega)).mp hys, rfl⟩
    · rintro ⟨⟨y, layers⟩, hpass, rest, hys, rfl⟩
      obtain ⟨next, hnext, rfl, hdecode⟩ := decodeBlocks_of_pass hfrac hpos hx hpass
      rw [hdecode]
      exact ⟨y, rfl, rest, (ih (hnext.trans hblocks) hrest (by omega)).mpr hys, rfl⟩

/-- **A sequence goes through causal blocks as through their layers.** -/
theorem foldlM_forward_eq_ok (hfrac : frac < 32) {s : ℕ} {blocks : List (TransformerBlock frac)}
    (hdModel : ∀ block ∈ blocks, block.dModel = dModel) (hregular : ∀ block ∈ blocks, block.Regular)
    (hcausal : ∀ block ∈ blocks, block.causal = true) {x : ℕ → Row frac}
    (hx : ∀ r < s, (x r).length = dModel) {out : List (Fixed 32 frac)} :
    blocks.foldlM (fun x block ↦ block.forward f x s) (tab s x) = .ok out ↔
      ∃ y, layerwise (blocks.map fun block ↦ (block.layer f, [])) ((List.range s).map x) =
        .ok ((List.range s).map y) ∧ out = tab s y := by
  induction blocks generalizing x with
  | nil =>
    simp only [foldlM_nil, pure_eq_ok, map_nil, layerwise]
    constructor
    · rintro rfl
      exact ⟨x, rfl, rfl⟩
    · rintro ⟨y, hsame, rfl⟩
      exact tab_congr fun r hr ↦
        (List.map_inj_left.mp (Except.ok.inj hsame) r (List.mem_range.mpr hr)).symm
  | cons block blocks ih =>
    obtain ⟨hhead, htail⟩ := List.forall_mem_cons.mp hdModel
    obtain ⟨hregularHead, hregularTail⟩ := List.forall_mem_cons.mp hregular
    obtain ⟨hcausalHead, hcausalTail⟩ := List.forall_mem_cons.mp hcausal
    have hforward : ∀ {out : List (Fixed 32 frac)}, block.forward f (tab s x) s = .ok out ↔
        ∃ z, through (block.layer f) [] ((List.range s).map x) = .ok ((List.range s).map z) ∧
          out = tab s z :=
      block.forward_eq_ok hfrac hregularHead hcausalHead fun r hr ↦ (hx r hr).trans hhead.symm
    have hwidth : ∀ {z : ℕ → Row frac}, through (block.layer f) [] ((List.range s).map x) =
        .ok ((List.range s).map z) → ∀ r < s, (z r).length = dModel := by
      intro z hthrough r hr
      obtain ⟨_, _, y, -, hfinish, hsame⟩ := through_history_range.mp hthrough
      rw [List.map_inj_left.mp hsame r (List.mem_range.mpr hr)]
      exact (length_finish (hfinish r hr)).trans (hx r hr)
    simp only [foldlM_cons, map_cons, layerwise, bind_eq_ok]
    constructor
    · rintro ⟨_, hblock, hok⟩
      obtain ⟨z, hthrough, rfl⟩ := hforward.mp hblock
      obtain ⟨y, hlayers, rfl⟩ := (ih htail hregularTail hcausalTail (hwidth hthrough)).mp hok
      exact ⟨y, ⟨_, hthrough, hlayers⟩, rfl⟩
    · rintro ⟨y, ⟨zs, hthrough, hlayers⟩, rfl⟩
      obtain ⟨_, _, z, -, -, rfl⟩ := through_history_range.mp hthrough
      exact ⟨_, hforward.mpr ⟨z, hthrough, rfl⟩,
        (ih htail hregularTail hcausalTail (hwidth hthrough)).mpr ⟨y, hlayers, rfl⟩⟩

/-! ## Caches -/

/-- There is one cache of the capacity for each block. -/
structure Fits (model : TransformerModel frac) (cap : ℕ) (caches : List (KvCache frac)) : Prop where
  length_eq : caches.length = model.blocks.length
  dims : ∀ cache ∈ caches, cache.dm = model.dModel ∧ cache.cap = cap

theorem fits_newCaches (model : TransformerModel frac) (cap : ℕ) : model.Fits cap (model.newCaches cap) where
  length_eq := length_map _
  dims := by
    intro cache hcache
    obtain ⟨_, -, rfl⟩ := List.mem_map.mp hcache
    exact ⟨rfl, rfl⟩

theorem Fits.clear {caches : List (KvCache frac)} (hfits : model.Fits cap caches) :
    model.Fits cap (caches.map KvCache.clear) where
  length_eq := (length_map _).trans hfits.length_eq
  dims := by
    intro cache hcache
    obtain ⟨cache, hmem, rfl⟩ := List.mem_map.mp hcache
    exact hfits.dims cache hmem

/-- Rows leave the number of caches, and the dimensions of each. -/
theorem dims_decodeBlocks (blocks : List (TransformerBlock frac)) (xT : Row frac) (pos : ℕ)
    (caches : List (KvCache frac)) :
    (decodeBlocks f blocks xT pos caches).2.map (fun cache ↦ (cache.dm, cache.cap)) =
      caches.map fun cache ↦ (cache.dm, cache.cap) := by
  have hdims : ∀ (block : TransformerBlock frac) (xT : Row frac) (cache : KvCache frac),
      ((block.forwardDecode f xT pos cache).2.dm, (block.forwardDecode f xT pos cache).2.cap) =
        (cache.dm, cache.cap) := fun block xT cache ↦
    Prod.ext (dims_of_forwardDecode xT pos cache).1
      (dims_of_forwardDecode xT pos cache).2
  fun_induction decodeBlocks f blocks xT pos caches with
  | case1 block blocks xT pos cache caches failure next hdecode =>
    have hnext := hdims block xT cache
    rw [hdecode] at hnext
    rw [map_cons, hnext, map_cons]
  | case2 block blocks xT pos cache caches xT' next hdecode rest ih =>
    have hnext := hdims block xT cache
    rw [hdecode] at hnext
    rw [map_cons, hnext, map_cons]
    exact congrArg _ (ih hdims)
  | case3 => rfl

theorem Fits.decodeStep {caches : List (KvCache frac)} (hfits : model.Fits cap caches) (xT : Row frac)
    (pos : ℕ) : model.Fits cap (model.decodeStep f xT pos caches).2 := by
  rw [TransformerModel.decodeStep, if_pos hfits.length_eq]
  have hdims := dims_decodeBlocks (f := f) model.blocks xT pos caches
  refine ⟨?_, fun cache hcache ↦ ?_⟩
  · have hlength := congrArg List.length hdims
    rw [length_map, length_map] at hlength
    exact hlength.trans hfits.length_eq
  · have hmem := mem_map_of_mem (f := fun cache : KvCache frac ↦ (cache.dm, cache.cap)) hcache
    rw [hdims] at hmem
    obtain ⟨before, hbefore, hsame⟩ := List.mem_map.mp hmem
    rw [← (Prod.mk.inj hsame).1, ← (Prod.mk.inj hsame).2]
    exact hfits.dims before hbefore

theorem Used.fits {caches : List (KvCache frac)} (hused : model.Used f cap caches) :
    model.Fits cap caches := by
  induction hused with
  | new => exact model.fits_newCaches cap
  | step xT pos used ih => exact ih.decodeStep xT pos
  | clear used ih => exact ih.clear

theorem Ready.fits {caches : List (KvCache frac)} (hready : model.Ready f cap caches) :
    model.Fits cap caches := by
  cases hready with
  | fresh => exact model.fits_newCaches cap
  | cleared used => exact used.fits.clear

theorem Ready.empty {caches : List (KvCache frac)} (hready : model.Ready f cap caches) :
    ∀ cache ∈ caches, cache.len = 0 := by
  intro cache hcache
  cases hready with
  | fresh =>
    obtain ⟨_, -, rfl⟩ := List.mem_map.mp hcache
    rfl
  | cleared used =>
    obtain ⟨_, -, rfl⟩ := List.mem_map.mp hcache
    rfl

theorem exists_stages (f : Scalars frac) {blocks : List (TransformerBlock frac)}
    {caches : List (KvCache frac)} (hlength : caches.length = blocks.length)
    (hblocks : ∀ block ∈ blocks, block.dModel = dModel ∧ block.dHead % 2 = 0)
    (hcaches : ∀ cache ∈ caches, (cache.dm = dModel ∧ cache.cap = cap) ∧ cache.len = 0) :
    ∃ stages : List (Stage frac dModel cap 0), stages.map Stage.block = blocks ∧
      stages.map Stage.cache = caches ∧
      stages.map (Stage.layer f) = blocks.map fun block ↦ (block.layer f, []) := by
  induction blocks generalizing caches with
  | nil =>
    rw [eq_nil_of_length_eq_zero hlength]
    exact ⟨[], rfl, rfl, rfl⟩
  | cons block blocks ih =>
    cases caches with
    | nil => cases hlength
    | cons cache caches =>
      obtain ⟨⟨hdModel, heven⟩, hblocks⟩ := List.forall_mem_cons.mp hblocks
      obtain ⟨⟨⟨hdm, hcap⟩, hlen⟩, hcaches⟩ := List.forall_mem_cons.mp hcaches
      obtain ⟨stages, rfl, rfl, hlayers⟩ := ih (Nat.succ_injective hlength) hblocks hcaches
      let stage : Stage frac dModel cap 0 :=
        ⟨block, cache, [], hdModel, heven, holds_nil hlen, hdm, hcap, rfl⟩
      exact ⟨stage :: stages, rfl, rfl, congrArg ((block.layer f, []) :: ·) hlayers⟩

/-! ## The two ways -/

/-- Every linear layer has an output. -/
structure HasOutputs (model : TransformerModel frac) : Prop where
  dModel_ne_zero : model.dModel ≠ 0
  dFf_ne_zero : ∀ block ∈ model.blocks, block.dFf ≠ 0

section Agreement

variable {s : ℕ} {x : List (Fixed 32 frac)} {caches : List (KvCache frac)}

/-- Each block takes a sequence that goes through all of them. -/
theorem forward_of_foldlM {blocks : List (TransformerBlock frac)} {out : List (Fixed 32 frac)}
    (hok : blocks.foldlM (fun x block ↦ block.forward f x s) x = .ok out) :
    ∀ block ∈ blocks, ∃ x y, block.forward f x s = .ok y := by
  induction blocks generalizing x with
  | nil => exact forall_mem_nil _
  | cons block blocks ih =>
    rw [foldlM_cons] at hok
    obtain ⟨y, hforward, hrest⟩ := bind_eq_ok.mp hok
    exact List.forall_mem_cons.mpr ⟨⟨x, y, hforward⟩, ih hrest⟩

theorem hasOutputs_of_prefill {out : List (Fixed 32 frac)} (hok : model.prefill f x s = .ok out) :
    model.HasOutputs := by
  have hblocks := forward_of_foldlM hok
  obtain ⟨block, hmem⟩ := exists_mem_of_ne_nil _ model.blocks_ne_nil
  constructor
  · obtain ⟨_, _, hforward⟩ := hblocks block hmem
    rw [← model.dModel_eq block hmem]
    exact (ne_zero_of_forward hforward).1
  · intro block hmem
    obtain ⟨_, _, hforward⟩ := hblocks block hmem
    exact (ne_zero_of_forward hforward).2

theorem length_row_of_mem (hx : x.length = s * model.dModel) :
    ∀ row ∈ model.rows x s, row.length = model.dModel := by
  intro row hrow
  obtain ⟨r, hr, rfl⟩ := List.mem_map.mp hrow
  apply length_slice
  rw [hx, ← Nat.succ_mul]
  exact Nat.mul_le_mul_right _ (List.mem_range.mp hr)

theorem rows_tab {y : ℕ → Row frac} (hy : ∀ r < s, (y r).length = model.dModel) :
    model.rows (tab s y) s = (List.range s).map y :=
  map_congr_left fun _ hr ↦ slice_tab hy (List.mem_range.mp hr)

/-- The rows of a sequence that is put together of rows. -/
theorem rows_flatten {ys : List (Row frac)} (hlength : ys.length = s)
    (hys : ∀ row ∈ ys, row.length = model.dModel) :
    model.rows ys.flatten s = ys ∧ ys.flatten.length = s * model.dModel := by
  have hget : ∀ r < s, (ys.getD r []).length = model.dModel := by
    intro r hr
    rw [getD_eq_getElem _ _ (hlength ▸ hr)]
    exact hys _ (getElem_mem _)
  rw [flatten_eq_tab, hlength]
  refine ⟨(rows_tab hget).trans (ext_getElem ?_ fun r hr _ ↦ ?_), length_tab hget⟩
  · rw [length_map, length_range, hlength]
  · rw [getElem_map, getElem_range, getD_eq_getElem]

/-- The layers of the blocks, before the first row. -/
def layers (f : Scalars frac) (model : TransformerModel frac) :
    List (Layer Failure (History frac) (Row frac) × History frac) :=
  model.blocks.map fun block ↦ (block.layer f, [])

/-- The layers keep the number of rows, and their width. -/
theorem rows_layerwise (hx : x.length = s * model.dModel) {ys : List (Row frac)}
    (hok : layerwise (model.layers f) (model.rows x s) = .ok ys) :
    ys.length = s ∧ ∀ row ∈ ys, row.length = model.dModel := by
  have hkept := forall_layerwise (p := fun row ↦ row.length = model.dModel)
    (fun layer hlayer history x out hx hout ↦ ?_) (length_row_of_mem hx) hok
  · rwa [rows, length_map, length_range] at hkept
  · obtain ⟨block, -, rfl⟩ := List.mem_map.mp hlayer
    exact (length_layer hout).trans hx

/-- **A sequence through the model is a sequence through its layers.** -/
theorem prefill_eq_ok (hfrac : frac < 32) (hcausal : ∀ block ∈ model.blocks, block.causal = true)
    (heven : ∀ block ∈ model.blocks, block.dHead % 2 = 0) (houtputs : model.HasOutputs)
    (hx : x.length = s * model.dModel) {out : List (Fixed 32 frac)} :
    model.prefill f x s = .ok out ↔
      layerwise (model.layers f) (model.rows x s) =
        .ok (model.rows out s) ∧ out.length = s * model.dModel := by
  have hregular : ∀ block ∈ model.blocks, block.Regular := fun block hmem ↦
    ⟨heven block hmem, (model.dModel_eq block hmem).trans_ne houtputs.dModel_ne_zero,
      houtputs.dFf_ne_zero block hmem⟩
  have hrows : ∀ r < s, (slice x (r * model.dModel) model.dModel).length = model.dModel :=
    fun r hr ↦ length_row_of_mem hx _ (List.mem_map.mpr ⟨r, List.mem_range.mpr hr, rfl⟩)
  conv_lhs => rw [prefill, eq_tab hx]
  rw [foldlM_forward_eq_ok hfrac model.dModel_eq hregular hcausal hrows]
  constructor
  · rintro ⟨y, hlayers, rfl⟩
    have hy : ∀ r < s, (y r).length = model.dModel := fun r hr ↦
      (rows_layerwise hx hlayers).2 _ (List.mem_map.mpr ⟨r, List.mem_range.mpr hr, rfl⟩)
    exact ⟨(rows_tab hy).symm ▸ hlayers, length_tab hy⟩
  · rintro ⟨hlayers, hlength⟩
    exact ⟨_, hlayers, eq_tab hlength⟩

/-- **One row after the other, with caches that are ready, goes through the layers.** -/
theorem decodeFrom_ready (hfrac : frac < 32) (heven : ∀ block ∈ model.blocks, block.dHead % 2 = 0)
    (hready : model.Ready f cap caches) (hroom : s ≤ cap) (hx : x.length = s * model.dModel)
    {ys : List (Row frac)} : model.decodeFrom f 0 (model.rows x s) caches = .ok ys ↔
      layerwise (model.layers f) (model.rows x s) = .ok ys := by
  obtain ⟨stages, hblocks, rfl, hlayers⟩ := exists_stages f hready.fits.length_eq
    (fun block hmem ↦ ⟨model.dModel_eq block hmem, heven block hmem⟩)
    fun cache hmem ↦ ⟨hready.fits.dims cache hmem, hready.empty cache hmem⟩
  have hlength : 0 + (model.rows x s).length ≤ cap := by
    rw [rows, length_map, length_range, zero_add]
    exact hroom
  rw [layerwise_iff_elementwise, layers, ← hlayers]
  exact decodeFrom_eq_ok hfrac hblocks (length_row_of_mem hx) hlength

/-- The two ways succeed together, with the same rows. -/
theorem agrees_of_hasOutputs (hfrac : frac < 32)
    (hcausal : ∀ block ∈ model.blocks, block.causal = true)
    (heven : ∀ block ∈ model.blocks, block.dHead % 2 = 0) (houtputs : model.HasOutputs)
    (hready : model.Ready f cap caches) (hroom : s ≤ cap) (hx : x.length = s * model.dModel) :
    model.Agrees f x s caches := by
  have hprefill : ∀ {out : List (Fixed 32 frac)}, model.prefill f x s = .ok out ↔
      layerwise (model.layers f) (model.rows x s) = .ok (model.rows out s) ∧
        out.length = s * model.dModel :=
    prefill_eq_ok hfrac hcausal heven houtputs hx
  have hdecode : ∀ {ys : List (Row frac)}, model.decodeFrom f 0 (model.rows x s) caches = .ok ys ↔
      layerwise (model.layers f) (model.rows x s) = .ok ys :=
    decodeFrom_ready hfrac heven hready hroom hx
  refine ⟨⟨?_, ?_⟩, fun out outs hout houts ↦ ?_⟩
  · rintro ⟨out, hout⟩
    exact ⟨_, hdecode.mpr (hprefill.mp hout).1⟩
  · rintro ⟨outs, houts⟩
    have hlayers := hdecode.mp houts
    obtain ⟨hlength, hwidth⟩ := rows_layerwise hx hlayers
    obtain ⟨hrows, hflat⟩ : model.rows outs.flatten s = outs ∧ _ := rows_flatten hlength hwidth
    exact ⟨outs.flatten, hprefill.mpr ⟨hrows.symm ▸ hlayers, hflat⟩⟩
  · have hsame := (hdecode.mp houts).symm.trans (hprefill.mp hout).1
    exact Except.ok.inj hsame

end Agreement

/-- **Decoding row by row is the same as taking the whole sequence**, with new caches or cleared
ones, exactly when every linear layer has an output; otherwise no sequence goes through the
model at once. -/
theorem agrees_iff_hasOutputs (hfrac : frac < 32) (f : Scalars frac) (model : TransformerModel frac)
    (hcausal : ∀ block ∈ model.blocks, block.causal = true)
    (heven : ∀ block ∈ model.blocks, block.dHead % 2 = 0) :
    ((∀ (s cap : ℕ) (x : List (Fixed 32 frac)) (caches : List (KvCache frac)),
        x.length = s * model.dModel → s ≤ cap → model.Ready f cap caches → model.Agrees f x s caches) ↔
      model.HasOutputs) ∧
    (¬ model.HasOutputs → ∀ x s, ¬ ∃ out, model.prefill f x s = .ok out) := by
  refine ⟨⟨fun hagrees ↦ ?_, fun houtputs s cap x caches hx hroom hready ↦ ?_⟩, ?_⟩
  · have hempty := hagrees 0 0 [] _ (zero_mul _).symm le_rfl Ready.fresh
    obtain ⟨out, hout⟩ := hempty.succeed.mpr ⟨[], rfl⟩
    exact hasOutputs_of_prefill hout
  · exact agrees_of_hasOutputs hfrac hcausal heven houtputs hready hroom hx
  · rintro hmissing x s ⟨out, hout⟩
    exact hmissing (hasOutputs_of_prefill hout)

/-! ## Models without weights -/

/-- All weights are zero. -/
def zeroLinear (frac outFeatures inFeatures : ℕ) (hfits : outFeatures * inFeatures < 2 ^ 61) :
    Linear frac where
  weights := List.replicate (inFeatures * outFeatures) 0
  bias := List.replicate outFeatures 0
  outFeatures := outFeatures
  inFeatures := inFeatures
  length_weights := by rw [length_replicate, mul_comm]
  length_bias := length_replicate
  weights_fit := by rwa [length_replicate, mul_comm]

/-- One head of width two. -/
def zeroBlock (dFf : ℕ) (hfits : dFf * 2 < 2 ^ 61) : TransformerBlock 16 where
  dModel := 2
  nHeads := 1
  dFf := dFf
  wq := zeroLinear 16 2 2 (by decide)
  wk := zeroLinear 16 2 2 (by decide)
  wv := zeroLinear 16 2 2 (by decide)
  wo := zeroLinear 16 2 2 (by decide)
  w1 := zeroLinear 16 dFf 2 hfits
  w2 := zeroLinear 16 2 dFf (by rwa [mul_comm])
  norm1 := [one, one]
  norm2 := [one, one]
  eps := one
  ropeBase := one
  causal := true
  nHeads_ne_zero := by decide
  dModel_mod := rfl
  wq_shape := ⟨rfl, rfl⟩
  wk_shape := ⟨rfl, rfl⟩
  wv_shape := ⟨rfl, rfl⟩
  wo_shape := ⟨rfl, rfl⟩
  w1_shape := ⟨rfl, rfl⟩
  w2_shape := ⟨rfl, rfl⟩
  length_norm1 := rfl
  length_norm2 := rfl

def zeroModel (dFf : ℕ) (hfits : dFf * 2 < 2 ^ 61) : TransformerModel 16 where
  blocks := [zeroBlock dFf hfits]
  dModel := 2
  blocks_ne_nil := cons_ne_nil _ _
  dModel_eq := List.forall_mem_singleton.mpr rfl

/-- With an inner layer of one output both ways agree on every sequence. -/
theorem agrees_zeroModel_one :
    (∀ (s cap : ℕ) (x : List (Fixed 32 16)) (caches : List (KvCache 16)), x.length = s * 2 → s ≤ cap →
      (zeroModel 1 (by decide)).Ready (sourceScalars 16) cap caches →
        (zeroModel 1 (by decide)).Agrees (sourceScalars 16) x s caches) ∧
      (zeroModel 1 (by decide)).prefill (sourceScalars 16) [one, 0] 1 = .ok [one, 0] :=
  ⟨(agrees_iff_hasOutputs (by decide) (sourceScalars 16) (zeroModel 1 (by decide))
      (List.forall_mem_singleton.mpr rfl) (List.forall_mem_singleton.mpr rfl)).1.mpr
      ⟨by decide, List.forall_mem_singleton.mpr (by decide)⟩, by decide +kernel⟩

/-- With an inner layer without outputs the row is decoded, and the sequence panics. -/
theorem not_agrees_zeroModel_zero :
    ((∀ block ∈ (zeroModel 0 (by decide)).blocks, block.causal = true ∧ block.dHead % 2 = 0) ∧
      (zeroModel 0 (by decide)).decodeFrom (sourceScalars 16) 0
        ((zeroModel 0 (by decide)).rows [0, 0] 1) ((zeroModel 0 (by decide)).newCaches 1) =
          .ok [[0, 0]] ∧
      (zeroModel 0 (by decide)).prefill (sourceScalars 16) [0, 0] 1 = .error .panic) ∧
    ¬ (zeroModel 0 (by decide)).Agrees (sourceScalars 16) [0, 0] 1
      ((zeroModel 0 (by decide)).newCaches 1) := by
  have hdecode : (zeroModel 0 (by decide)).decodeFrom (sourceScalars 16) 0
      ((zeroModel 0 (by decide)).rows [0, 0] 1) ((zeroModel 0 (by decide)).newCaches 1) =
        .ok [[0, 0]] := by
    decide +kernel
  have hprefill : (zeroModel 0 (by decide)).prefill (sourceScalars 16) [0, 0] 1 = .error .panic := by
    decide +kernel
  refine ⟨⟨List.forall_mem_singleton.mpr ⟨rfl, rfl⟩, hdecode, hprefill⟩, fun hagrees ↦ ?_⟩
  obtain ⟨out, hout⟩ := hagrees.succeed.mpr ⟨_, hdecode⟩
  rw [hprefill] at hout
  cases hout

end TransformerModel

end SoulSystem.Scirust
