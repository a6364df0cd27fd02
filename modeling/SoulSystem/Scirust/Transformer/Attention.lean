import SoulSystem.Scirust.Transformer.Linear

/-!
# Attention

The scores of a query are scaled, normalised and weigh the values.  With a causal mask each query
sees the keys up to its own position.  A query alone, without a mask but with only these keys, gets
the same output.

A cache has room for a number of positions, of which the first are in use.  What it holds beyond
them, from an earlier sequence, is never read.
-/

namespace SoulSystem.Scirust

open Library RowMajor Outcome List

section Computed

variable {frac : ℕ}

def attention (f : Scalars frac) (q : List (Fixed 32 frac)) (s d : ℕ) (k : List (Fixed 32 frac))
    (t : ℕ) (v : List (Fixed 32 frac)) (scale : Fixed 32 frac) :
    Except Failure (List (Fixed 32 frac)) := do
  require (q.length = s * d)
  require (k.length = t * d)
  require (v.length = t * d)
  let scores ← matmulBt q k s d t
  let scores := scores.map (mul · scale)
  require (t ≠ 0)
  let rows ← (chunksExact t scores).mapM f.softmaxInto
  matmul (rows.flatten ++ chunksRemainder t scores) v s t d

/-- The query of each row sees the keys up to this row. -/
def causalAttention (f : Scalars frac) (q : List (Fixed 32 frac)) (s d : ℕ)
    (k v : List (Fixed 32 frac)) (scale : Fixed 32 frac) : Except Failure (List (Fixed 32 frac)) := do
  require (q.length = s * d)
  require (k.length = s * d)
  require (v.length = s * d)
  tabM s fun i ↦ do
    let tEff := i + 1
    let scores ← matmulBt (slice q (i * d) d) (k.take (tEff * d)) 1 d tEff
    let rowBuf ← f.softmaxInto (scores.map (mul · scale))
    matmul rowBuf (v.take (tEff * d)) 1 tEff d

/-- A head is extracted and attends. -/
def headAttention (f : Scalars frac) (q : List (Fixed 32 frac)) (s t h dHead : ℕ)
    (k v : List (Fixed 32 frac)) (scale : Fixed 32 frac) (causal : Bool) (head : ℕ) :
    Except Failure (List (Fixed 32 frac)) :=
  let dm := h * dHead
  let off := head * dHead
  let qh := tab s fun r ↦ slice q (r * dm + off) dHead
  let kh := tab t fun r ↦ slice k (r * dm + off) dHead
  let vh := tab t fun r ↦ slice v (r * dm + off) dHead
  if causal then causalAttention f qh s dHead kh vh scale else attention f qh s dHead kh t vh scale

/-- The output of each head is written to its columns. -/
def multiHeadAttention (f : Scalars frac) (q : List (Fixed 32 frac)) (s t h dHead : ℕ)
    (k v : List (Fixed 32 frac)) (scale : Fixed 32 frac) (causal : Bool) :
    Except Failure (List (Fixed 32 frac)) := do
  let dm := h * dHead
  require (q.length = s * dm)
  require (k.length = t * dm)
  require (v.length = t * dm)
  require (causal = false ∨ t = s)
  (List.range h).foldlM
    (fun out head ↦ do
      let oh ← headAttention f q s t h dHead k v scale causal head
      return (List.range s).foldl
        (fun out r ↦ copyFromSlice out (r * dm + head * dHead) (slice oh (r * dHead) dHead)) out)
    (List.replicate (s * dm) 0)

/-! ## One query -/

/-- A query and the keys and values that it sees. -/
def attendHead (f : Scalars frac) (q : List (Fixed 32 frac)) (t d : ℕ) (keys values : List (Fixed 32 frac))
    (scale : Fixed 32 frac) : Except Failure (List (Fixed 32 frac)) := do
  let scores ← matmulBt q keys 1 d t
  let rowBuf ← f.softmaxInto (scores.map (mul · scale))
  matmul rowBuf values 1 t d

/-- All heads of one row. -/
def attendRow (f : Scalars frac) (h dHead : ℕ) (scale : Fixed 32 frac) (t : ℕ)
    (k v : ℕ → List (Fixed 32 frac)) (q : List (Fixed 32 frac)) :
    Except Failure (List (Fixed 32 frac)) :=
  tabM h fun head ↦ attendHead f (slice q (head * dHead) dHead) t dHead
    (tab t fun i ↦ slice (k i) (head * dHead) dHead) (tab t fun i ↦ slice (v i) (head * dHead) dHead) scale

variable {f : Scalars frac} {scale : Fixed 32 frac} {s t d h dHead : ℕ}

theorem length_of_matmulBt {a bt out : List (Fixed 32 frac)} {m k n : ℕ}
    (hok : matmulBt a bt m k n = .ok out) : out.length = m * n := by
  simp only [matmulBt, bind_eq_ok, pure_eq_ok] at hok
  obtain ⟨_, -, _, -, rfl⟩ := hok
  exact length_tab fun i _ ↦ by rw [length_map, length_range]

theorem length_of_matmul {a b out : List (Fixed 32 frac)} {m k n : ℕ}
    (hok : matmul a b m k n = .ok out) : out.length = m * n := by
  simp only [matmul, bind_eq_ok] at hok
  obtain ⟨_, -, _, -, _, -, hok⟩ := hok
  exact length_of_matmulBt hok

theorem length_of_attendHead {q keys values out : List (Fixed 32 frac)}
    (hok : attendHead f q t d keys values scale = .ok out) : out.length = d := by
  simp only [attendHead, bind_eq_ok] at hok
  obtain ⟨_, -, _, -, hok⟩ := hok
  exact (length_of_matmul hok).trans (one_mul d)

theorem length_of_attendRow {k v : ℕ → List (Fixed 32 frac)} {q out : List (Fixed 32 frac)}
    (hok : attendRow f h dHead scale t k v q = .ok out) : out.length = h * dHead := by
  obtain ⟨heads, hheads, rfl⟩ := tabM_eq_ok.mp hok
  exact length_tab fun head hhead ↦ length_of_attendHead (hheads head hhead)

/-- Only the first keys and values count. -/
theorem attendRow_congr {k k' v v' : ℕ → List (Fixed 32 frac)} {q : List (Fixed 32 frac)}
    (hk : ∀ i < t, k i = k' i) (hv : ∀ i < t, v i = v' i) :
    attendRow f h dHead scale t k v q = attendRow f h dHead scale t k' v' q := by
  refine congrArg (tabM h) (funext fun head ↦ ?_)
  rw [tab_congr fun i hi ↦ congrArg (slice · (head * dHead) dHead) (hk i hi),
    tab_congr fun i hi ↦ congrArg (slice · (head * dHead) dHead) (hv i hi)]

/-! ## Causal attention is computed query by query -/

theorem causalAttention_tab {q k v : ℕ → List (Fixed 32 frac)} {out : List (Fixed 32 frac)}
    (hq : ∀ r < s, (q r).length = d) (hk : ∀ r < s, (k r).length = d)
    (hv : ∀ r < s, (v r).length = d) :
    causalAttention f (tab s q) s d (tab s k) (tab s v) scale = .ok out ↔
      ∃ o, (∀ r < s, attendHead f (q r) (r + 1) d (tab (r + 1) k) (tab (r + 1) v) scale = .ok (o r)) ∧
        out = tab s o := by
  rw [causalAttention, require_bind (length_tab hq), require_bind (length_tab hk),
    require_bind (length_tab hv), tabM_eq_ok]
  refine exists_congr fun o ↦ and_congr_left' (forall₂_congr fun r hr ↦ ?_)
  have hkeys : (tab s k).take ((r + 1) * d) = tab (r + 1) k := take_tab hk hr
  have hvalues : (tab s v).take ((r + 1) * d) = tab (r + 1) v := take_tab hv hr
  dsimp only
  rw [slice_tab hq hr, hkeys, hvalues, attendHead]

/-- A query alone sees all keys. -/
theorem attention_one {q : List (Fixed 32 frac)} {keys values : List (Fixed 32 frac)} (ht : t ≠ 0)
    (hq : q.length = d) (hkeys : keys.length = t * d) (hvalues : values.length = t * d) :
    attention f q 1 d keys t values scale = attendHead f q t d keys values scale := by
  have hq' : q.length = 1 * d := hq.trans (one_mul d).symm
  rw [attention, require_bind hq', require_bind hkeys, require_bind hvalues, attendHead]
  cases hscores : matmulBt q keys 1 d t with
  | error failure => rfl
  | ok scores =>
    have hlength : (scores.map (mul · scale)).length = t := by
      rw [length_map, length_of_matmulBt hscores, one_mul]
    obtain ⟨hchunks, hrest⟩ := chunksExact_self ht hlength
    rw [ok_bind, ok_bind]
    dsimp only
    rw [require_bind ht, hchunks, hrest, mapM_cons, mapM_nil]
    cases hrow : f.softmaxInto (scores.map (mul · scale)) with
    | error failure => rfl
    | ok rowBuf =>
      rw [ok_bind, ok_bind, pure_bind, pure_bind, flatten_singleton, append_nil]

/-! ## All heads -/

theorem length_head {x : List (Fixed 32 frac)} {head : ℕ} (hhead : head < h)
    (hx : x.length = h * dHead) : (slice x (head * dHead) dHead).length = dHead := by
  refine length_slice ?_
  rw [hx, ← Nat.succ_mul]
  exact Nat.mul_le_mul_right dHead hhead

theorem gather_head {n head : ℕ} {x : ℕ → List (Fixed 32 frac)} (hhead : head < h)
    (hx : ∀ r < n, (x r).length = h * dHead) :
    (tab n fun r ↦ slice (tab n x) (r * (h * dHead) + head * dHead) dHead) =
      tab n fun r ↦ slice (x r) (head * dHead) dHead := by
  refine gather_tab hx ?_
  rw [← Nat.succ_mul]
  exact Nat.mul_le_mul_right dHead hhead

/-- The heads attend one by one, and their outputs are the columns of the result. -/
theorem multiHeadAttention_eq_ok {q k v out : List (Fixed 32 frac)} {causal : Bool}
    (hq : q.length = s * (h * dHead)) (hk : k.length = t * (h * dHead))
    (hv : v.length = t * (h * dHead)) (hcausal : causal = false ∨ t = s)
    (hlength : ∀ head < h, ∀ oh, headAttention f q s t h dHead k v scale causal head = .ok oh →
      oh.length = s * dHead) :
    multiHeadAttention f q s t h dHead k v scale causal = .ok out ↔
      ∃ oh : ℕ → List (Fixed 32 frac),
        (∀ head < h, headAttention f q s t h dHead k v scale causal head = .ok (oh head)) ∧
        out = tab s fun r ↦ tab h fun head ↦ slice (oh head) (r * dHead) dHead := by
  rw [multiHeadAttention, require_bind hq, require_bind hk, require_bind hv, require_bind hcausal]
  refine foldlM_eq_ok.trans (exists_congr fun oh ↦ and_congr_right fun hoh ↦ ?_)
  rw [scatter_all (length_replicate ..)]
  intro head hhead r hr
  refine length_slice ?_
  rw [hlength head hhead _ (hoh head hhead), ← Nat.succ_mul]
  exact Nat.mul_le_mul_right dHead hr

/-- **Causal attention is computed row by row**, each row from the keys and values up to it. -/
theorem multiHeadAttention_causal {q k v : ℕ → List (Fixed 32 frac)} {out : List (Fixed 32 frac)}
    (hq : ∀ r < s, (q r).length = h * dHead) (hk : ∀ r < s, (k r).length = h * dHead)
    (hv : ∀ r < s, (v r).length = h * dHead) :
    multiHeadAttention f (tab s q) s s h dHead (tab s k) (tab s v) scale true = .ok out ↔
      ∃ o, (∀ r < s, attendRow f h dHead scale (r + 1) k v (q r) = .ok (o r)) ∧ out = tab s o := by
  have hheads : ∀ head < h, ∀ oh,
      headAttention f (tab s q) s s h dHead (tab s k) (tab s v) scale true head = .ok oh ↔
        ∃ o, (∀ r < s, attendHead f (slice (q r) (head * dHead) dHead) (r + 1) dHead
          (tab (r + 1) fun i ↦ slice (k i) (head * dHead) dHead)
          (tab (r + 1) fun i ↦ slice (v i) (head * dHead) dHead) scale = .ok (o r)) ∧ oh = tab s o := by
    intro head hhead oh
    rw [headAttention, gather_head hhead hq, gather_head hhead hk, gather_head hhead hv, if_pos rfl]
    exact causalAttention_tab (fun r hr ↦ length_head hhead (hq r hr))
      (fun r hr ↦ length_head hhead (hk r hr)) (fun r hr ↦ length_head hhead (hv r hr))
  have hlength : ∀ head < h, ∀ oh,
      headAttention f (tab s q) s s h dHead (tab s k) (tab s v) scale true head = .ok oh →
        oh.length = s * dHead := by
    intro head hhead oh hok
    obtain ⟨o, ho, rfl⟩ := (hheads head hhead oh).mp hok
    exact length_tab fun r hr ↦ length_of_attendHead (ho r hr)
  rw [multiHeadAttention_eq_ok (length_tab hq) (length_tab hk) (length_tab hv) (Or.inr rfl) hlength]
  constructor
  · rintro ⟨oh, hoh, rfl⟩
    have hparts : ∀ head, ∃ o : ℕ → List (Fixed 32 frac), head < h →
        (∀ r < s, attendHead f (slice (q r) (head * dHead) dHead) (r + 1) dHead
          (tab (r + 1) fun i ↦ slice (k i) (head * dHead) dHead)
          (tab (r + 1) fun i ↦ slice (v i) (head * dHead) dHead) scale = .ok (o r)) ∧
            oh head = tab s o := by
      intro head
      by_cases hhead : head < h
      · obtain ⟨o, ho⟩ := (hheads head hhead _).mp (hoh head hhead)
        exact ⟨o, fun _ ↦ ho⟩
      · exact ⟨fun _ ↦ [], fun hlt ↦ absurd hlt hhead⟩
    choose o ho using hparts
    refine ⟨fun r ↦ tab h fun head ↦ o head r, fun r hr ↦ ?_, tab_congr fun r hr ↦
      tab_congr fun head hhead ↦ ?_⟩
    · exact tabM_eq_ok.mpr ⟨fun head ↦ o head r, fun head hhead ↦ (ho head hhead).1 r hr, rfl⟩
    · rw [(ho head hhead).2]
      exact slice_tab (fun i hi ↦ length_of_attendHead ((ho head hhead).1 i hi)) hr
  · rintro ⟨o, ho, rfl⟩
    have hparts : ∀ r, ∃ heads : ℕ → List (Fixed 32 frac), r < s →
        (∀ head < h, attendHead f (slice (q r) (head * dHead) dHead) (r + 1) dHead
          (tab (r + 1) fun i ↦ slice (k i) (head * dHead) dHead)
          (tab (r + 1) fun i ↦ slice (v i) (head * dHead) dHead) scale = .ok (heads head)) ∧
            o r = tab h heads := by
      intro r
      by_cases hr : r < s
      · obtain ⟨heads, hheads⟩ := tabM_eq_ok.mp (ho r hr)
        exact ⟨heads, fun _ ↦ hheads⟩
      · exact ⟨fun _ ↦ [], fun hlt ↦ absurd hlt hr⟩
    choose heads hrows using hparts
    refine ⟨fun head ↦ tab s fun r ↦ heads r head, fun head hhead ↦ ?_, tab_congr fun r hr ↦ ?_⟩
    · exact (hheads head hhead _).mpr ⟨fun r ↦ heads r head, fun r hr ↦ (hrows r hr).1 head hhead, rfl⟩
    · rw [(hrows r hr).2]
      refine tab_congr fun head hhead ↦ ?_
      exact (slice_tab (fun i hi ↦ length_of_attendHead ((hrows i hi).1 head hhead)) hr).symm

/-- **One row without a mask** sees all keys and values. -/
theorem multiHeadAttention_one {q : List (Fixed 32 frac)} {k v : ℕ → List (Fixed 32 frac)}
    {out : List (Fixed 32 frac)} (ht : t ≠ 0) (hq : q.length = h * dHead)
    (hk : ∀ r < t, (k r).length = h * dHead) (hv : ∀ r < t, (v r).length = h * dHead) :
    multiHeadAttention f q 1 t h dHead (tab t k) (tab t v) scale false = .ok out ↔
      attendRow f h dHead scale t k v q = .ok out := by
  have hrow : tab 1 (fun _ ↦ q) = q := tab_one _
  have hheads : ∀ head < h,
      headAttention f q 1 t h dHead (tab t k) (tab t v) scale false head =
        attendHead f (slice q (head * dHead) dHead) t dHead
          (tab t fun i ↦ slice (k i) (head * dHead) dHead)
          (tab t fun i ↦ slice (v i) (head * dHead) dHead) scale := by
    intro head hhead
    have hgather : (tab 1 fun r ↦ slice q (r * (h * dHead) + head * dHead) dHead) =
        slice q (head * dHead) dHead := by
      rw [tab_one, zero_mul, zero_add]
    rw [headAttention, hgather, gather_head hhead hk, gather_head hhead hv, if_neg Bool.false_ne_true]
    exact attention_one ht (length_head hhead hq) (length_tab fun r hr ↦ length_head hhead (hk r hr))
      (length_tab fun r hr ↦ length_head hhead (hv r hr))
  have hlength : ∀ head < h, ∀ oh,
      headAttention f q 1 t h dHead (tab t k) (tab t v) scale false head = .ok oh →
        oh.length = 1 * dHead := by
    intro head hhead oh hok
    rw [hheads head hhead] at hok
    rw [length_of_attendHead hok, one_mul]
  rw [multiHeadAttention_eq_ok (hq.trans (one_mul _).symm) (length_tab hk) (length_tab hv)
    (Or.inl rfl) hlength, attendRow, tabM_eq_ok]
  refine exists_congr fun oh ↦ ?_
  rw [tab_one]
  constructor
  · rintro ⟨hoh, rfl⟩
    refine ⟨fun head hhead ↦ (hheads head hhead) ▸ hoh head hhead, tab_congr fun head hhead ↦ ?_⟩
    rw [zero_mul]
    exact slice_self ((hlength head hhead _ (hoh head hhead)).trans (one_mul dHead))
  · rintro ⟨hoh, rfl⟩
    refine ⟨fun head hhead ↦ (hheads head hhead).trans (hoh head hhead), tab_congr fun head hhead ↦ ?_⟩
    rw [zero_mul]
    exact (slice_self (length_of_attendHead (hoh head hhead))).symm

end Computed

/-! ## Caches of keys and values -/

variable {frac : ℕ}

structure KvCache (frac : ℕ) where
  dm : ℕ
  cap : ℕ
  len : ℕ
  k : List (Fixed 32 frac)
  v : List (Fixed 32 frac)
  length_k : k.length = cap * dm
  length_v : v.length = cap * dm
  len_le : len ≤ cap

namespace KvCache

def new (cap dm : ℕ) : KvCache frac where
  dm := dm
  cap := cap
  len := 0
  k := List.replicate (cap * dm) 0
  v := List.replicate (cap * dm) 0
  length_k := length_replicate
  length_v := length_replicate
  len_le := Nat.zero_le cap

def clear (cache : KvCache frac) : KvCache frac :=
  { cache with
    len := 0
    len_le := Nat.zero_le cache.cap }

theorem inside {cache : KvCache frac} (hlen : cache.len < cache.cap) {buf row : List (Fixed 32 frac)}
    (hbuf : buf.length = cache.cap * cache.dm) (hrow : row.length = cache.dm) :
    cache.len * cache.dm + row.length ≤ buf.length := by
  rw [hbuf, hrow, ← Nat.succ_mul]
  exact Nat.mul_le_mul_right cache.dm hlen

/-- The rows of the new position are written behind those in use. -/
def append (cache : KvCache frac) (kRow vRow : List (Fixed 32 frac)) : Except Failure (KvCache frac) :=
  if hroom : kRow.length = cache.dm ∧ vRow.length = cache.dm ∧ cache.len < cache.cap then
    let off := cache.len * cache.dm
    .ok
      { cache with
        len := cache.len + 1
        k := copyFromSlice cache.k off kRow
        v := copyFromSlice cache.v off vRow
        length_k := (length_copy (inside hroom.2.2 cache.length_k hroom.1)).trans cache.length_k
        length_v := (length_copy (inside hroom.2.2 cache.length_v hroom.2.1)).trans cache.length_v
        len_le := hroom.2.2 }
  else .error .panic

/-- The query attends to all positions in use. -/
def decodeStep (f : Scalars frac) (cache : KvCache frac) (q : List (Fixed 32 frac)) (nHeads dHead : ℕ)
    (scale : Fixed 32 frac) : Except Failure (List (Fixed 32 frac)) := do
  require (q.length = cache.dm)
  require (nHeads * dHead = cache.dm)
  if cache.len = 0 then
    return List.replicate cache.dm 0
  else
    multiHeadAttention f q 1 cache.len nHeads dHead (cache.k.take (cache.len * cache.dm))
      (cache.v.take (cache.len * cache.dm)) scale false

/-! ## What a cache holds -/

/-- The keys and values of the positions so far. -/
abbrev History (frac : ℕ) := List (List (Fixed 32 frac) × List (Fixed 32 frac))

def keys (history : History frac) (i : ℕ) : List (Fixed 32 frac) := (history.getD i ([], [])).1

def values (history : History frac) (i : ℕ) : List (Fixed 32 frac) := (history.getD i ([], [])).2

/-- The positions in use are those of the history. -/
structure Holds (cache : KvCache frac) (history : History frac) : Prop where
  len_eq : cache.len = history.length
  keys_eq : cache.k.take (cache.len * cache.dm) = tab history.length (keys history)
  values_eq : cache.v.take (cache.len * cache.dm) = tab history.length (values history)
  length_keys : ∀ i < history.length, (keys history i).length = cache.dm
  length_values : ∀ i < history.length, (values history i).length = cache.dm

theorem holds_nil {cache : KvCache frac} (hlen : cache.len = 0) : cache.Holds [] where
  len_eq := hlen
  keys_eq := by rw [hlen, zero_mul, take_zero, length_nil, tab_zero]
  values_eq := by rw [hlen, zero_mul, take_zero, length_nil, tab_zero]
  length_keys := fun i hi ↦ absurd hi (Nat.not_lt_zero i)
  length_values := fun i hi ↦ absurd hi (Nat.not_lt_zero i)

section Append

variable {history : History frac} {kRow vRow : List (Fixed 32 frac)} {i : ℕ}

theorem keys_append_lt (hi : i < history.length) :
    keys (history ++ [(kRow, vRow)]) i = keys history i :=
  congrArg Prod.fst (getD_append _ _ _ _ hi)

theorem values_append_lt (hi : i < history.length) :
    values (history ++ [(kRow, vRow)]) i = values history i :=
  congrArg Prod.snd (getD_append _ _ _ _ hi)

theorem getD_append_last : (history ++ [(kRow, vRow)]).getD history.length ([], []) = (kRow, vRow) := by
  rw [getD_append_right _ _ _ _ le_rfl, Nat.sub_self]
  rfl

theorem keys_append_last : keys (history ++ [(kRow, vRow)]) history.length = kRow :=
  congrArg Prod.fst getD_append_last

theorem values_append_last : values (history ++ [(kRow, vRow)]) history.length = vRow :=
  congrArg Prod.snd getD_append_last

end Append

/-- **A cache with room appends to its history.** -/
theorem holds_append {cache : KvCache frac} {history : History frac} {kRow vRow : List (Fixed 32 frac)}
    (hholds : cache.Holds history) (hlen : history.length < cache.cap) (hk : kRow.length = cache.dm)
    (hv : vRow.length = cache.dm) :
    ∃ next, cache.append kRow vRow = .ok next ∧ next.Holds (history ++ [(kRow, vRow)]) ∧
      next.dm = cache.dm ∧ next.cap = cache.cap := by
  have hroom : cache.len < cache.cap := hholds.len_eq ▸ hlen
  have hgrow : ∀ {buf row : List (Fixed 32 frac)}, buf.length = cache.cap * cache.dm →
      row.length = cache.dm →
        (copyFromSlice buf (cache.len * cache.dm) row).take ((cache.len + 1) * cache.dm) =
          buf.take (cache.len * cache.dm) ++ row := by
    intro buf row hbuf hrow
    have hoff : cache.len * cache.dm ≤ buf.length :=
      (Nat.le_add_right _ _).trans (inside hroom hbuf hrow)
    rw [Nat.succ_mul, ← hrow]
    exact hrow ▸ take_copy hoff
  refine ⟨_, dif_pos ⟨hk, hv, hroom⟩, ?_, rfl, rfl⟩
  have hlength : (history ++ [(kRow, vRow)]).length = history.length + 1 := length_append
  refine ⟨by rw [hlength, ← hholds.len_eq], ?_, ?_, fun i hi ↦ ?_, fun i hi ↦ ?_⟩
  · rw [hlength, tab_succ, hgrow cache.length_k hk, hholds.keys_eq]
    rw [keys_append_last, tab_congr fun i hi ↦ keys_append_lt hi]
  · rw [hlength, tab_succ, hgrow cache.length_v hv, hholds.values_eq]
    rw [values_append_last, tab_congr fun i hi ↦ values_append_lt hi]
  · rcases Nat.lt_succ_iff_lt_or_eq.mp (hlength ▸ hi) with hbefore | hlast
    · rw [keys_append_lt hbefore, hholds.length_keys i hbefore]
    · rw [hlast, keys_append_last]
      exact hk
  · rcases Nat.lt_succ_iff_lt_or_eq.mp (hlength ▸ hi) with hbefore | hlast
    · rw [values_append_lt hbefore, hholds.length_values i hbefore]
    · rw [hlast, values_append_last]
      exact hv

/-- **A query attends to the history.** -/
theorem decodeStep_eq_ok {f : Scalars frac} {cache : KvCache frac} {history : History frac}
    {q out : List (Fixed 32 frac)} {h dHead : ℕ} {scale : Fixed 32 frac} (hholds : cache.Holds history)
    (hsome : history ≠ []) (hq : q.length = cache.dm) (hdm : h * dHead = cache.dm) :
    cache.decodeStep f q h dHead scale = .ok out ↔
      attendRow f h dHead scale history.length (keys history) (values history) q = .ok out := by
  have hlen : history.length ≠ 0 := fun hzero ↦ hsome (eq_nil_of_length_eq_zero hzero)
  rw [decodeStep, require_bind hq, require_bind hdm, if_neg (hholds.len_eq ▸ hlen), hholds.keys_eq,
    hholds.values_eq, hholds.len_eq]
  exact multiHeadAttention_one hlen (hq.trans hdm.symm) (fun i hi ↦ (hholds.length_keys i hi).trans hdm.symm)
    (fun i hi ↦ (hholds.length_values i hi).trans hdm.symm)

/-- Appending keeps the dimensions. -/
theorem dims_of_append {cache next : KvCache frac} {kRow vRow : List (Fixed 32 frac)}
    (hok : cache.append kRow vRow = .ok next) : next.dm = cache.dm ∧ next.cap = cache.cap := by
  rw [append] at hok
  split at hok
  case isTrue hroom =>
    cases hok
    exact ⟨rfl, rfl⟩
  case isFalse hroom => cases hok

end KvCache

end SoulSystem.Scirust
