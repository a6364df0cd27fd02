import SoulSystem.Scirust.Transformer.Attention
import SoulSystem.Scirust.Transformer.Norm
import SoulSystem.Library.Pipeline

/-!
# Transformer blocks

A block normalises, attends, adds the result, normalises again and adds the output of two linear
layers.  It is applied to a batch of rows, or to one row at a position with a cache.  Both ways are
the same layer with a history of keys and values.

A batch of rows goes through a causal block exactly as through the layer, row after row, and so does
one row with a cache that holds the history.
-/

namespace SoulSystem.Scirust

open Library RowMajor Outcome Pipeline KvCache

section Layers

structure TransformerBlock (frac : ℕ) where
  dModel : ℕ
  nHeads : ℕ
  dFf : ℕ
  wq : Linear frac
  wk : Linear frac
  wv : Linear frac
  wo : Linear frac
  w1 : Linear frac
  w2 : Linear frac
  norm1 : List (Fixed 32 frac)
  norm2 : List (Fixed 32 frac)
  eps : Fixed 32 frac
  ropeBase : Fixed 32 frac
  causal : Bool
  nHeads_ne_zero : nHeads ≠ 0
  dModel_mod : dModel % nHeads = 0
  wq_shape : wq.inFeatures = dModel ∧ wq.outFeatures = dModel
  wk_shape : wk.inFeatures = dModel ∧ wk.outFeatures = dModel
  wv_shape : wv.inFeatures = dModel ∧ wv.outFeatures = dModel
  wo_shape : wo.inFeatures = dModel ∧ wo.outFeatures = dModel
  w1_shape : w1.inFeatures = dModel ∧ w1.outFeatures = dFf
  w2_shape : w2.inFeatures = dFf ∧ w2.outFeatures = dModel
  length_norm1 : norm1.length = dModel
  length_norm2 : norm2.length = dModel

variable {frac : ℕ}

abbrev Row (frac : ℕ) := List (Fixed 32 frac)

namespace TransformerBlock

def dHead (block : TransformerBlock frac) : ℕ := block.dModel / block.nHeads

def attentionScale (f : Scalars frac) (block : TransformerBlock frac) : Fixed 32 frac :=
  recip (f.sqrt (fromI32 (BitVec.ofNat 32 block.dHead)))

/-- The attention of all rows, after the first normalisation. -/
def attentionBatch (f : Scalars frac) (block : TransformerBlock frac) (hn : List (Fixed 32 frac))
    (s : ℕ) : Except Failure (List (Fixed 32 frac)) := do
  let h := block.nHeads
  let dh := block.dHead
  let q ← block.wq.forwardBatch hn s
  let k ← block.wk.forwardBatch hn s
  let v ← block.wv.forwardBatch hn s
  let q ← ropeApplyHeads f q s h dh block.ropeBase 0
  let k ← ropeApplyHeads f k s h dh block.ropeBase 0
  multiHeadAttention f q s s h dh k v (block.attentionScale f) block.causal

/-- What follows the attention of all rows. -/
def outputBatch (f : Scalars frac) (block : TransformerBlock frac) (x attn : List (Fixed 32 frac))
    (s : ℕ) : Except Failure (List (Fixed 32 frac)) := do
  let o ← block.wo.forwardBatch attn s
  let x := addInto x o
  let hn2 ← rmsnorm f x s block.dModel block.norm2 block.eps
  let f1 ← block.w1.forwardBatchActivated hn2 s f.silu
  let f2 ← block.w2.forwardBatch f1 s
  return addInto x f2

/-- All rows at once. -/
def forward (f : Scalars frac) (block : TransformerBlock frac) (x : List (Fixed 32 frac)) (s : ℕ) :
    Except Failure (List (Fixed 32 frac)) := do
  require (x.length = s * block.dModel)
  let hn ← rmsnorm f x s block.dModel block.norm1 block.eps
  let attn ← block.attentionBatch f hn s
  block.outputBatch f x attn s

/-- The query, key and value of one row at a position. -/
def decodeProjections (f : Scalars frac) (block : TransformerBlock frac) (xT : Row frac) (pos : ℕ) :
    Except Failure (Row frac × Row frac × Row frac) := do
  require (xT.length = block.dModel)
  let hn ← rmsnorm f xT 1 block.dModel block.norm1 block.eps
  let q ← block.wq.forward hn
  let k ← block.wk.forward hn
  let v ← block.wv.forward hn
  let q ← ropeApplyHeads f q 1 block.nHeads block.dHead block.ropeBase pos
  let k ← ropeApplyHeads f k 1 block.nHeads block.dHead block.ropeBase pos
  return (q, k, v)

/-- What follows the attention of one row. -/
def decodeOutput (f : Scalars frac) (block : TransformerBlock frac) (xT attn : Row frac) :
    Except Failure (Row frac) := do
  let o ← block.wo.forward attn
  let xT := addInto xT o
  let hn2 ← rmsnorm f xT 1 block.dModel block.norm2 block.eps
  let f1 ← block.w1.forwardActivated hn2 f.silu
  let f2 ← block.w2.forward f1
  return addInto xT f2

/-- One row, with the cache as it is left even when the row fails. -/
def forwardDecode (f : Scalars frac) (block : TransformerBlock frac) (xT : Row frac) (pos : ℕ)
    (cache : KvCache frac) : Except Failure (Row frac) × KvCache frac :=
  match block.decodeProjections f xT pos with
  | .error failure => (.error failure, cache)
  | .ok (q, k, v) =>
    match cache.append k v with
    | .error failure => (.error failure, cache)
    | .ok cache =>
      (cache.decodeStep f q block.nHeads block.dHead (block.attentionScale f) >>=
        block.decodeOutput f xT, cache)

/-! ## A block as a layer with a history -/

/-- The angles of the rotation, when there are any. -/
def angles (f : Scalars frac) (block : TransformerBlock frac) : List (Fixed 32 frac) :=
  match thetas f block.ropeBase block.dHead with
  | .ok ths => ths
  | .error _ => []

def rope (f : Scalars frac) (block : TransformerBlock frac) (pos : ℕ) (row : Row frac) : Row frac :=
  ropeRow f (block.angles f) block.nHeads block.dHead pos row

/-- The query of a row, and its entry in the history. -/
def project (f : Scalars frac) (block : TransformerBlock frac) (pos : ℕ) (x : Row frac) :
    Except Failure (Row frac × (Row frac × Row frac)) := do
  let hn ← rmsnormRow f x block.norm1 block.dModel block.eps
  return (block.rope f pos (block.wq.row hn), (block.rope f pos (block.wk.row hn), block.wv.row hn))

/-- What follows the attention. -/
def output (f : Scalars frac) (block : TransformerBlock frac) (x attn : Row frac) :
    Except Failure (Row frac) := do
  let x := addInto x (block.wo.row attn)
  let hn2 ← rmsnormRow f x block.norm2 block.dModel block.eps
  let f1 ← (block.w1.row hn2).mapM f.silu
  return addInto x (block.w2.row f1)

/-- The row attends to the history with its own entry. -/
def finish (f : Scalars frac) (block : TransformerBlock frac) (x q : Row frac) (history : History frac) :
    Except Failure (Row frac) := do
  let attn ← attendRow f block.nHeads block.dHead (block.attentionScale f) history.length
    (keys history) (values history) q
  block.output f x attn

def layer (f : Scalars frac) (block : TransformerBlock frac) :
    Layer Failure (History frac) (Row frac) :=
  historyLayer (block.project f) (block.finish f)

/-! ## Shapes -/

variable {f : Scalars frac} {block : TransformerBlock frac}

theorem heads (block : TransformerBlock frac) : block.nHeads * block.dHead = block.dModel :=
  Nat.mul_div_cancel' (Nat.dvd_of_mod_eq_zero block.dModel_mod)

theorem length_rope {pos : ℕ} {row : Row frac} (hrow : row.length = block.dModel) :
    (block.rope f pos row).length = block.dModel :=
  (length_ropeRow _ pos (hrow.trans block.heads.symm)).trans block.heads

theorem length_wq (x : Row frac) : (block.wq.row x).length = block.dModel :=
  (block.wq.length_row x).trans block.wq_shape.2

theorem length_wk (x : Row frac) : (block.wk.row x).length = block.dModel :=
  (block.wk.length_row x).trans block.wk_shape.2

theorem length_wv (x : Row frac) : (block.wv.row x).length = block.dModel :=
  (block.wv.length_row x).trans block.wv_shape.2

theorem length_wo (x : Row frac) : (block.wo.row x).length = block.dModel :=
  (block.wo.length_row x).trans block.wo_shape.2

theorem length_output {x attn out : Row frac} (hok : block.output f x attn = .ok out) :
    out.length = x.length := by
  simp only [output, bind_eq_ok, pure_eq_ok] at hok
  obtain ⟨_, -, _, -, rfl⟩ := hok
  rw [length_addInto, length_addInto]

theorem length_finish {x q out : Row frac} {history : History frac}
    (hok : block.finish f x q history = .ok out) : out.length = x.length := by
  obtain ⟨_, -, hok⟩ := bind_eq_ok.mp hok
  exact length_output hok

/-- The entries of the history are as long as the rows. -/
theorem length_project {pos : ℕ} {x q k v : Row frac} (hok : block.project f pos x = .ok (q, (k, v))) :
    q.length = block.dModel ∧ k.length = block.dModel ∧ v.length = block.dModel := by
  simp only [project, bind_eq_ok, pure_eq_ok] at hok
  obtain ⟨hn, -, hsame⟩ := hok
  cases hsame
  exact ⟨length_rope (length_wq hn), length_rope (length_wk hn), length_wv hn⟩

/-- The heads have an even width, and every layer has an output. -/
structure Regular (block : TransformerBlock frac) : Prop where
  even : block.dHead % 2 = 0
  dModel_ne_zero : block.dModel ≠ 0
  dFf_ne_zero : block.dFf ≠ 0

theorem dHead_lt (block : TransformerBlock frac) : block.dHead < 2 ^ 31 := by
  have hweights := block.wq.weights_fit
  rw [block.wq.length_weights, block.wq_shape.1, block.wq_shape.2] at hweights
  have hmodel : block.dModel < 2 ^ 31 := by
    by_contra hlarge
    have hsquare := Nat.mul_le_mul (not_lt.mp hlarge) (not_lt.mp hlarge)
    norm_num at hsquare hweights
    omega
  exact (Nat.div_le_self _ _).trans_lt hmodel

theorem thetas_angles (hfrac : frac < 32) (f : Scalars frac) (block : TransformerBlock frac) :
    thetas f block.ropeBase block.dHead = .ok (block.angles f) := by
  obtain ⟨ths, hths⟩ := thetas_eq_ok (f := f) hfrac block.ropeBase block.dHead_lt
  rw [angles, hths]

theorem ropeApplyHeads_eq (hfrac : frac < 32) (heven : block.dHead % 2 = 0) {s off : ℕ}
    {x : ℕ → Row frac} (hx : ∀ r < s, (x r).length = block.dModel) :
    ropeApplyHeads f (tab s x) s block.nHeads block.dHead block.ropeBase off =
      .ok (tab s fun r ↦ block.rope f (off + r) (x r)) :=
  ropeApplyHeads_tab (block.thetas_angles hfrac f) heven fun r hr ↦ (hx r hr).trans block.heads.symm

end TransformerBlock

end Layers

/-! ## A block is a layer with a history -/

variable {frac : ℕ}

namespace TransformerBlock

variable {f : Scalars frac} {block : TransformerBlock frac} {s t : ℕ}

/-! ## A batch -/

theorem keys_range {n i : ℕ} (entry : ℕ → Row frac × Row frac) (hi : i < n) :
    keys ((List.range n).map entry) i = (entry i).1 ∧
      values ((List.range n).map entry) i = (entry i).2 := by
  have hget : ((List.range n).map entry).getD i ([], []) = entry i := by
    rw [List.getD_eq_getElem _ _ (by rwa [List.length_map, List.length_range]), List.getElem_map,
      List.getElem_range]
  exact ⟨congrArg Prod.fst hget, congrArg Prod.snd hget⟩

/-- A row attends to the entries so far. -/
theorem finish_range (x q : Row frac) (entry : ℕ → Row frac × Row frac) (n : ℕ) :
    block.finish f x q ((List.range n).map entry) =
      attendRow f block.nHeads block.dHead (block.attentionScale f) n (fun i ↦ (entry i).1)
        (fun i ↦ (entry i).2) q >>= block.output f x := by
  rw [finish, List.length_map, List.length_range,
    attendRow_congr (fun i hi ↦ (keys_range entry hi).1) fun i hi ↦ (keys_range entry hi).2]

/-- The second half of a block, for a batch of rows. -/
theorem output_batch (hfrac : frac < 32) (hregular : block.Regular) {x attn : ℕ → Row frac}
    {out : List (Fixed 32 frac)} (hx : ∀ r < s, (x r).length = block.dModel)
    (hattn : ∀ r < s, (attn r).length = block.dModel) :
    block.outputBatch f (tab s x) (tab s attn) s = .ok out ↔
      ∃ y, (∀ r < s, block.output f (x r) (attn r) = .ok (y r)) ∧ out = tab s y := by
  have hwo := block.wo.forwardBatch_tab hfrac
    (fun r hr ↦ (hattn r hr).trans block.wo_shape.1.symm)
    (block.wo_shape.2.trans_ne hregular.dModel_ne_zero)
  have hresidual : ∀ r < s, (addInto (x r) (block.wo.row (attn r))).length = block.dModel :=
    fun r hr ↦ (length_addInto _ _).trans (hx r hr)
  have hlengthF1 : ∀ {hn2 f1 : Row frac}, (block.w1.row hn2).mapM f.silu = .ok f1 →
      f1.length = block.w2.inFeatures := fun hok ↦ by
    rw [length_of_mapM hok, block.w1.length_row, block.w1_shape.2, block.w2_shape.1]
  rw [outputBatch, hwo, ok_bind]
  dsimp only
  rw [addInto_tab hx fun r _ ↦ length_wo (attn r), bind_eq_ok]
  constructor
  · rintro ⟨_, hnorm, hok⟩
    obtain ⟨hn2, hhn2, rfl⟩ := (rmsnorm_tab hresidual block.length_norm2).mp hnorm
    obtain ⟨_, hactivated, hok⟩ := bind_eq_ok.mp hok
    obtain ⟨f1, hf1, rfl⟩ := (block.w1.forwardBatchActivated_tab hfrac
      (fun r hr ↦ (length_rmsnormRow (hresidual r hr) block.length_norm2 (hhn2 r hr)).trans
        block.w1_shape.1.symm)
      (block.w1_shape.2.trans_ne hregular.dFf_ne_zero)).mp hactivated
    rw [block.w2.forwardBatch_tab hfrac (fun r hr ↦ hlengthF1 (hf1 r hr))
      (block.w2_shape.2.trans_ne hregular.dModel_ne_zero), ok_bind,
      addInto_tab hresidual fun r _ ↦ (block.w2.length_row _).trans block.w2_shape.2, pure_eq_ok] at hok
    refine ⟨_, fun r hr ↦ ?_, hok⟩
    rw [output, hhn2 r hr, ok_bind, hf1 r hr]
    rfl
  · rintro ⟨y, hy, rfl⟩
    have hparts : ∀ r < s, ∃ hn2 f1, rmsnormRow f (addInto (x r) (block.wo.row (attn r))) block.norm2
        block.dModel block.eps = .ok hn2 ∧ (block.w1.row hn2).mapM f.silu = .ok f1 ∧
          y r = addInto (addInto (x r) (block.wo.row (attn r))) (block.w2.row f1) := by
      intro r hr
      have hrow := hy r hr
      simp only [output, bind_eq_ok, pure_eq_ok] at hrow
      obtain ⟨hn2, hhn2, f1, hf1, hsame⟩ := hrow
      exact ⟨hn2, f1, hhn2, hf1, hsame⟩
    obtain ⟨hn2, hparts⟩ := exists_rows hparts
    obtain ⟨f1, hparts⟩ := exists_rows hparts
    have hhn2 : ∀ r < s, (hn2 r).length = block.w1.inFeatures := fun r hr ↦
      (length_rmsnormRow (hresidual r hr) block.length_norm2 (hparts r hr).1).trans
        block.w1_shape.1.symm
    refine ⟨_, (rmsnorm_tab hresidual block.length_norm2).mpr
      ⟨hn2, fun r hr ↦ (hparts r hr).1, rfl⟩, bind_eq_ok.mpr ⟨_,
        (block.w1.forwardBatchActivated_tab hfrac hhn2
          (block.w1_shape.2.trans_ne hregular.dFf_ne_zero)).mpr
          ⟨f1, fun r hr ↦ (hparts r hr).2.1, rfl⟩, ?_⟩⟩
    rw [block.w2.forwardBatch_tab hfrac (fun r hr ↦ hlengthF1 (hparts r hr).2.1)
      (block.w2_shape.2.trans_ne hregular.dModel_ne_zero), ok_bind,
      addInto_tab hresidual fun r _ ↦ (block.w2.length_row _).trans block.w2_shape.2]
    exact congrArg Except.ok (tab_congr fun r hr ↦ (hparts r hr).2.2.symm)

/-- The query, key and value of a row whose normalisation is defined. -/
theorem project_eq_ok {pos : ℕ} {x : Row frac} {out : Row frac × (Row frac × Row frac)} :
    block.project f pos x = .ok out ↔ ∃ hn,
      rmsnormRow f x block.norm1 block.dModel block.eps = .ok hn ∧
        out = (block.rope f pos (block.wq.row hn),
          (block.rope f pos (block.wk.row hn), block.wv.row hn)) := by
  simp only [project, bind_eq_ok, pure_eq_ok]

/-- The attention of a batch of rows. -/
theorem attention_batch (hfrac : frac < 32) (hregular : block.Regular) (hcausal : block.causal = true)
    {hn : ℕ → Row frac} {out : List (Fixed 32 frac)} (hhn : ∀ r < s, (hn r).length = block.dModel) :
    block.attentionBatch f (tab s hn) s = .ok out ↔
      ∃ attn, (∀ r < s, attendRow f block.nHeads block.dHead (block.attentionScale f) (r + 1)
        (fun i ↦ block.rope f i (block.wk.row (hn i))) (fun i ↦ block.wv.row (hn i))
        (block.rope f r (block.wq.row (hn r))) = .ok (attn r)) ∧ out = tab s attn := by
  have hq := block.wq.forwardBatch_tab hfrac (fun r hr ↦ (hhn r hr).trans block.wq_shape.1.symm)
    (block.wq_shape.2.trans_ne hregular.dModel_ne_zero)
  have hk := block.wk.forwardBatch_tab hfrac (fun r hr ↦ (hhn r hr).trans block.wk_shape.1.symm)
    (block.wk_shape.2.trans_ne hregular.dModel_ne_zero)
  have hv := block.wv.forwardBatch_tab hfrac (fun r hr ↦ (hhn r hr).trans block.wv_shape.1.symm)
    (block.wv_shape.2.trans_ne hregular.dModel_ne_zero)
  have hropes : ∀ (y : ℕ → Row frac), (∀ r < s, (y r).length = block.dModel) →
      ropeApplyHeads f (tab s y) s block.nHeads block.dHead block.ropeBase 0 =
        .ok (tab s fun r ↦ block.rope f r (y r)) := by
    intro y hy
    rw [ropeApplyHeads_eq hfrac hregular.even hy]
    exact congrArg Except.ok (tab_congr fun r _ ↦ by rw [zero_add])
  rw [attentionBatch, hq, ok_bind, hk, ok_bind, hv, ok_bind, hropes _ fun r _ ↦ length_wq (hn r), ok_bind,
    hropes _ fun r _ ↦ length_wk (hn r), ok_bind, hcausal]
  exact multiHeadAttention_causal
    (fun r _ ↦ (length_rope (length_wq (hn r))).trans block.heads.symm)
    (fun r _ ↦ (length_rope (length_wk (hn r))).trans block.heads.symm)
    (fun r _ ↦ (length_wv (hn r)).trans block.heads.symm)

/-- **A batch goes through a causal block as through the layer.** -/
theorem forward_eq_ok (hfrac : frac < 32) (hregular : block.Regular) (hcausal : block.causal = true)
    {x : ℕ → Row frac} {out : List (Fixed 32 frac)} (hx : ∀ r < s, (x r).length = block.dModel) :
    block.forward f (tab s x) s = .ok out ↔
      ∃ y, through (block.layer f) [] ((List.range s).map x) = .ok ((List.range s).map y) ∧
        out = tab s y := by
  rw [forward, require_bind (length_tab hx), bind_eq_ok]
  have hattn : ∀ {hn attn : ℕ → Row frac}, (∀ r < s, attendRow f block.nHeads block.dHead
      (block.attentionScale f) (r + 1) (fun i ↦ block.rope f i (block.wk.row (hn i)))
      (fun i ↦ block.wv.row (hn i)) (block.rope f r (block.wq.row (hn r))) = .ok (attn r)) →
        ∀ r < s, (attn r).length = block.dModel := fun hrows r hr ↦
    (length_of_attendRow (hrows r hr)).trans block.heads
  constructor
  · rintro ⟨_, hnorm, hok⟩
    obtain ⟨hn, hhn, rfl⟩ := (rmsnorm_tab hx block.length_norm1).mp hnorm
    obtain ⟨_, hattention, hok⟩ := bind_eq_ok.mp hok
    obtain ⟨attn, hrows, rfl⟩ := (attention_batch hfrac hregular hcausal fun r hr ↦
      length_rmsnormRow (hx r hr) block.length_norm1 (hhn r hr)).mp hattention
    obtain ⟨y, hy, rfl⟩ := (output_batch hfrac hregular hx (hattn hrows)).mp hok
    refine ⟨y, through_history_range.mpr ⟨fun t ↦ block.rope f t (block.wq.row (hn t)),
      fun t ↦ (block.rope f t (block.wk.row (hn t)), block.wv.row (hn t)), y, fun t ht ↦ ?_,
      fun t ht ↦ ?_, rfl⟩, rfl⟩
    · exact project_eq_ok.mpr ⟨hn t, hhn t ht, rfl⟩
    · rw [finish_range, hrows t ht, ok_bind, hy t ht]
  · rintro ⟨y, hthrough, rfl⟩
    obtain ⟨q, entry, y', hprojects, hfinishes, hsame⟩ := through_history_range.mp hthrough
    have hy : ∀ t < s, y t = y' t := fun t ht ↦
      List.map_inj_left.mp hsame t (List.mem_range.mpr ht)
    obtain ⟨hn, hprojections⟩ := exists_rows fun t ht ↦ project_eq_ok.mp (hprojects t ht)
    have hentry : ∀ t < s, entry t =
        (block.rope f t (block.wk.row (hn t)), block.wv.row (hn t)) := fun t ht ↦
      (Prod.mk.inj (hprojections t ht).2).2
    have hquery : ∀ t < s, q t = block.rope f t (block.wq.row (hn t)) := fun t ht ↦
      (Prod.mk.inj (hprojections t ht).2).1
    have hparts : ∀ t < s, ∃ attn, attendRow f block.nHeads block.dHead (block.attentionScale f)
        (t + 1) (fun i ↦ block.rope f i (block.wk.row (hn i))) (fun i ↦ block.wv.row (hn i))
        (block.rope f t (block.wq.row (hn t))) = .ok attn ∧ block.output f (x t) attn = .ok (y t) := by
      intro t ht
      have hfinish := hfinishes t ht
      rw [finish_range, bind_eq_ok] at hfinish
      obtain ⟨attn, hattend, hout⟩ := hfinish
      refine ⟨attn, ?_, (hy t ht).symm ▸ hout⟩
      rw [← hattend, ← hquery t ht]
      exact attendRow_congr (fun i hi ↦ (congrArg Prod.fst (hentry i (by omega))).symm)
        fun i hi ↦ (congrArg Prod.snd (hentry i (by omega))).symm
    obtain ⟨attn, hparts⟩ := exists_rows hparts
    have hrows := fun t ht ↦ (hparts t ht).1
    refine ⟨_, (rmsnorm_tab hx block.length_norm1).mpr
      ⟨hn, fun t ht ↦ (hprojections t ht).1, rfl⟩, bind_eq_ok.mpr ⟨_,
        (attention_batch hfrac hregular hcausal fun r hr ↦
          length_rmsnormRow (hx r hr) block.length_norm1 (hprojections r hr).1).mpr
          ⟨attn, hrows, rfl⟩, ?_⟩⟩
    exact (output_batch hfrac hregular hx (hattn hrows)).mpr ⟨y, fun t ht ↦ (hparts t ht).2, rfl⟩

/-- A batch goes only through linear layers that have an output. -/
theorem ne_zero_of_forward {x out : List (Fixed 32 frac)} (hok : block.forward f x s = .ok out) :
    block.dModel ≠ 0 ∧ block.dFf ≠ 0 := by
  simp only [forward, attentionBatch, outputBatch, Linear.forwardBatchActivated, bind_eq_ok] at hok
  obtain ⟨_, -, _, -, _, ⟨_, hwq, -⟩, _, -, _, -, _, ⟨_, hw1, -⟩, -⟩ := hok
  exact ⟨block.wq_shape.2 ▸ block.wq.outFeatures_ne_zero_of_forwardBatch hwq,
    block.w1_shape.2 ▸ block.w1.outFeatures_ne_zero_of_forwardBatch hw1⟩

/-- The layer keeps the width of the rows. -/
theorem length_layer {history : History frac} {x : Row frac} {out : Row frac × History frac}
    (hok : block.layer f history x = .ok out) : out.1.length = x.length := by
  obtain ⟨_, _, -, hfinish, -⟩ := historyLayer_eq_ok.mp hok
  exact length_finish hfinish

/-! ## One row with a cache -/

theorem ropeApplyHeads_one (hfrac : frac < 32) (heven : block.dHead % 2 = 0) {pos : ℕ} {row : Row frac}
    (hrow : row.length = block.dModel) :
    ropeApplyHeads f row 1 block.nHeads block.dHead block.ropeBase pos =
      .ok (block.rope f pos row) := by
  have hrope : ropeApplyHeads f (tab 1 fun _ ↦ row) 1 block.nHeads block.dHead block.ropeBase pos =
      .ok (tab 1 fun r ↦ block.rope f (pos + r) row) :=
    ropeApplyHeads_eq hfrac heven fun _ _ ↦ hrow
  rwa [tab_one, tab_one, add_zero] at hrope

theorem decodeProjections_eq (hfrac : frac < 32) (heven : block.dHead % 2 = 0) {pos : ℕ} {x : Row frac}
    (hx : x.length = block.dModel) : block.decodeProjections f x pos = block.project f pos x := by
  rw [decodeProjections, require_bind hx, rmsnorm_one hx block.length_norm1, project]
  cases hnorm : rmsnormRow f x block.norm1 block.dModel block.eps with
  | error failure => rfl
  | ok hn =>
    have hlength := length_rmsnormRow hx block.length_norm1 hnorm
    rw [ok_bind, ok_bind, block.wq.forward_eq (hlength.trans block.wq_shape.1.symm), ok_bind,
      block.wk.forward_eq (hlength.trans block.wk_shape.1.symm), ok_bind,
      block.wv.forward_eq (hlength.trans block.wv_shape.1.symm), ok_bind,
      ropeApplyHeads_one hfrac heven (length_wq hn), ok_bind,
      ropeApplyHeads_one hfrac heven (length_wk hn), ok_bind]

theorem decodeOutput_eq {x attn : Row frac} (hx : x.length = block.dModel)
    (hattn : attn.length = block.dModel) : block.decodeOutput f x attn = block.output f x attn := by
  have hresidual : (addInto x (block.wo.row attn)).length = block.dModel :=
    (length_addInto _ _).trans hx
  rw [decodeOutput, block.wo.forward_eq (hattn.trans block.wo_shape.1.symm), ok_bind]
  dsimp only
  rw [rmsnorm_one hresidual block.length_norm2, output]
  cases hnorm : rmsnormRow f (addInto x (block.wo.row attn)) block.norm2 block.dModel block.eps with
  | error failure => rfl
  | ok hn2 =>
    have hlength := length_rmsnormRow hresidual block.length_norm2 hnorm
    rw [ok_bind, ok_bind, block.w1.forwardActivated_eq (hlength.trans block.w1_shape.1.symm)]
    cases hactivated : (block.w1.row hn2).mapM f.silu with
    | error failure => rfl
    | ok f1 =>
      have hf1 : f1.length = block.w2.inFeatures := by
        rw [length_of_mapM hactivated, block.w1.length_row, block.w1_shape.2, block.w2_shape.1]
      rw [ok_bind, ok_bind, block.w2.forward_eq hf1, ok_bind]

/-- **One row with a cache goes through the layer**, and the cache then holds its entry as well. -/
theorem forwardDecode_of_layer (hfrac : frac < 32) (heven : block.dHead % 2 = 0)
    {cache : KvCache frac} {history next : History frac} {x y : Row frac} (hholds : cache.Holds history)
    (hdm : cache.dm = block.dModel) (hroom : history.length < cache.cap)
    (hx : x.length = block.dModel) (hok : block.layer f history x = .ok (y, next)) :
    (block.forwardDecode f x history.length cache).1 = .ok y ∧
      (block.forwardDecode f x history.length cache).2.Holds next := by
  obtain ⟨q, ⟨k, v⟩, hproject, hfinish, hnext⟩ := historyLayer_eq_ok.mp hok
  obtain ⟨hq, hk, hv⟩ := length_project hproject
  obtain ⟨attn, hattend, hout⟩ := bind_eq_ok.mp hfinish
  obtain ⟨appended, happend, hholds', hdm', -⟩ :=
    holds_append hholds hroom (hk.trans hdm.symm) (hv.trans hdm.symm)
  have hstep := (decodeStep_eq_ok hholds' (by simp) (hq.trans (hdm'.trans hdm).symm)
    (block.heads.trans (hdm'.trans hdm).symm)).mpr hattend
  have hattn : attn.length = block.dModel := (length_of_attendRow hattend).trans block.heads
  rw [forwardDecode, decodeProjections_eq hfrac heven hx, hproject]
  dsimp only
  rw [happend]
  dsimp only
  rw [hstep, ok_bind, decodeOutput_eq hx hattn]
  have hnext : next = history ++ [(k, v)] := hnext
  exact ⟨hout, hnext ▸ hholds'⟩

/-- What a row with a cache gives is what the layer gives. -/
theorem layer_of_forwardDecode (hfrac : frac < 32) (heven : block.dHead % 2 = 0)
    {cache : KvCache frac} {history : History frac} {x y : Row frac} (hholds : cache.Holds history)
    (hdm : cache.dm = block.dModel) (hroom : history.length < cache.cap)
    (hx : x.length = block.dModel)
    (hok : (block.forwardDecode f x history.length cache).1 = .ok y) :
    ∃ next, block.layer f history x = .ok (y, next) := by
  rw [forwardDecode, decodeProjections_eq hfrac heven hx] at hok
  cases hproject : block.project f history.length x with
  | error failure =>
    rw [hproject] at hok
    cases hok
  | ok projections =>
    obtain ⟨q, k, v⟩ := projections
    obtain ⟨hq, hk, hv⟩ := length_project hproject
    obtain ⟨appended, happend, hholds', hdm', -⟩ :=
      holds_append hholds hroom (hk.trans hdm.symm) (hv.trans hdm.symm)
    rw [hproject] at hok
    dsimp only at hok
    rw [happend] at hok
    obtain ⟨attn, hstep, hout⟩ := bind_eq_ok.mp hok
    have hattend := (decodeStep_eq_ok hholds' (by simp) (hq.trans (hdm'.trans hdm).symm)
      (block.heads.trans (hdm'.trans hdm).symm)).mp hstep
    have hattn : attn.length = block.dModel := (length_of_attendRow hattend).trans block.heads
    rw [decodeOutput_eq hx hattn] at hout
    exact ⟨_, historyLayer_eq_ok.mpr ⟨q, (k, v), hproject, bind_eq_ok.mpr ⟨attn, hattend, hout⟩, rfl⟩⟩

/-- A row leaves the dimensions of the cache. -/
theorem dims_of_forwardDecode (x : Row frac) (pos : ℕ) (cache : KvCache frac) :
    (block.forwardDecode f x pos cache).2.dm = cache.dm ∧
      (block.forwardDecode f x pos cache).2.cap = cache.cap := by
  rw [forwardDecode]
  cases block.decodeProjections f x pos with
  | error failure => exact ⟨rfl, rfl⟩
  | ok projections =>
    dsimp only
    cases happend : cache.append projections.2.1 projections.2.2 with
    | error failure => exact ⟨rfl, rfl⟩
    | ok next => exact dims_of_append happend

end TransformerBlock

end SoulSystem.Scirust
