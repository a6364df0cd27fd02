import SoulSystem.Library.Loop
import SoulSystem.Library.Words
import SoulSystem.Library.SortedMap

/-!
# The causal compressor

`compress_window` re-encodes the items of a recall window and keeps the originals in a store under a
short hash of their content.  Each item is compressed by its route, near-duplicates of items that
stay are replaced by a placeholder, and at last the store is cut down to its capacity.

The crusher, the skeleton, the summary, the similarity and the hash are left open in `Algorithms`,
and so are the floating-point numbers.

An item that was compressed has its original in the store under the handle it carries, and neither
later items nor the eviction touch it.  An item that was left as it is has no handle, so it is lost
when it is replaced as a near-duplicate.
-/

namespace SoulSystem.Ccos

open Library Std List ExtTreeMap

/-! ## Data model -/

/-- The handle of an original. -/
structure CcrRef where
  key : Str
  deriving DecidableEq, Repr

structure CompressionStat (F : Type) where
  algorithm : Str
  tokensBefore : ℕ
  tokensAfter : ℕ
  ratio : F

structure CompressorConfig (F : Type) where
  enableJson : Bool
  enableCode : Bool
  enableProse : Bool
  summarySentences : ℕ
  ccrCapacity : ℕ
  minChars : ℕ
  enableDedup : Bool
  dedupThreshold : F
  enableAstV2 : Bool
  astSignatureCollapseAfter : ℕ

structure CausalCompressor (F : Type) where
  ccr : ExtTreeMap Str Str
  lastStats : List (CompressionStat F)
  config : CompressorConfig F

/-- An item of a window. -/
structure WindowItem (F : Type) where
  kind : Str
  score : F
  uri : Str
  content : Str

structure CompressedItem where
  content : Str
  ccrRef : Option CcrRef
  deriving DecidableEq, Repr

inductive Route where
  | json
  | code
  | prose
  deriving DecidableEq, Repr

/-- What the compressor computes with. -/
structure Algorithms (F : Type) where
  sha256Hex : Str → Str
  toLowercase : Str → Str
  crush : Str → Str
  skeletonizeWith : Str → CompressorConfig F → Str
  summarize : Str → ℕ → F → Str
  shingleSignature : Str → List ℕ
  estimatedJaccard : List ℕ → List ℕ → F
  ge : F → F → Bool
  one : F
  quotient : ℕ → ℕ → F

/-! ## The router -/

namespace ContentRouter

/-- The state of the balance check: the depth, and whether a string and an escape are open. -/
structure Balance where
  depth : ℤ
  inStr : Bool
  esc : Bool

def Balance.next (b : Balance) (c : Char) : Balance :=
  if b.inStr then
    if b.esc then { b with esc := false }
    else if c = '\\' then { b with esc := true }
    else if c = '"' then { b with inStr := false }
    else b
  else if c = '"' then { b with inStr := true }
  else if c = Char.ofNat 123 ∨ c = '[' then { b with depth := b.depth + 1 }
  else if c = Char.ofNat 125 ∨ c = ']' then { b with depth := b.depth - 1 }
  else b

/-- Whether a text starts with a bracket and is balanced as far as it is looked at. -/
def looksLikeJson (s : Str) : Bool :=
  let t := s.dropWhile Str.isWhitespace
  if t.head? = some (Char.ofNat 123) ∨ t.head? = some '[' then
    ((t.take 4096).foldl Balance.next ⟨0, false, false⟩).depth = 0
  else false

def classify (toLowercase : Str → Str) (kind content : Str) : Route :=
  let k := toLowercase kind
  if "symbol".toList <:+: k ∨ "file".toList <:+: k ∨ "module".toList <:+: k then
    if looksLikeJson content then .json else .code
  else if looksLikeJson content then .json
  else .prose

end ContentRouter

namespace CausalCompressor

variable {F : Type} (alg : Algorithms F)

def refOf (original : Str) : CcrRef := ⟨(alg.sha256Hex original).take 12⟩

/-- Retrieve an original by its handle. -/
def retrieve (c : CausalCompressor F) (ccr : CcrRef) : Option Str := c.ccr[ccr.key]?

def ratio (before after : ℕ) : F := if before = 0 then alg.one else alg.quotient after before

def passthrough (tokensBefore : ℕ) : CompressionStat F :=
  ⟨"passthrough".toList, tokensBefore, tokensBefore, alg.one⟩

/-! ## Compressing an item -/

/-- Store an original under its handle. -/
def store (c : CausalCompressor F) (original : Str) : CcrRef × CausalCompressor F :=
  let r := refOf alg original
  (r, { c with ccr := c.ccr.insert r.key original })

/-- The compressed text of an item by its route, whether its original is stored, and the name of the
algorithm. -/
def encode (config : CompressorConfig F) (kind content : Str) (causalScore : F) :
    Str × Bool × Str :=
  match ContentRouter.classify alg.toLowercase kind content with
  | .json =>
    if config.enableJson then (alg.crush content, true, "causal-crusher".toList)
    else (content, false, "passthrough".toList)
  | .code =>
    if config.enableCode then (alg.skeletonizeWith content config, true, "causal-ast".toList)
    else (content, false, "passthrough".toList)
  | .prose =>
    if config.enableProse then
      let summary := alg.summarize content config.summarySentences causalScore
      if (Str.utf8 content).length ≤ (Str.utf8 summary).length then
        (content, false, "passthrough".toList)
      else (summary, true, "causal-summ".toList)
    else (content, false, "passthrough".toList)

def compressItemInner (c : CausalCompressor F) (kind content : Str) (causalScore : F) :
    (Str × Option CcrRef × CompressionStat F) × CausalCompressor F :=
  let tokensBefore := content.length / 4
  if (Str.utf8 content).length < c.config.minChars then
    ((content, none, passthrough alg tokensBefore), c)
  else
    let (compressed, stored, algorithm) := encode alg c.config kind content causalScore
    let tokensAfter := compressed.length / 4
    let stat : CompressionStat F :=
      ⟨algorithm, tokensBefore, tokensAfter, ratio alg tokensBefore tokensAfter⟩
    if stored then
      let (r, c) := store alg c content
      ((compressed, some r, stat), c)
    else ((compressed, none, stat), c)

/-- The first key of the store that need not be kept. -/
def victim (keep : List Str) (ccr : ExtTreeMap Str Str) : Option Str :=
  ccr.keys.find? fun k ↦ k ∉ keep

def evictFirst (keep : List Str) (ccr : ExtTreeMap Str Str) : ExtTreeMap Str Str :=
  match victim keep ccr with
  | none => ccr
  | some k => ccr.erase k

/-- Evict entries that need not be kept until the store is within its capacity. -/
def enforceCcrCapacity (c : CausalCompressor F) (keep : List Str) : CausalCompressor F :=
  if c.config.ccrCapacity = 0 then c
  else
    { c with
      ccr := loopWhile
        (fun ccr : ExtTreeMap Str Str ↦ c.config.ccrCapacity < ccr.size ∧ (victim keep ccr).isSome)
        (evictFirst keep) c.ccr.size c.ccr }

/-- Compress one content blob in isolation. -/
def compressItem (c : CausalCompressor F) (kind content : Str) (causalScore : F) :
    (Str × Option CcrRef × CompressionStat F) × CausalCompressor F :=
  let (out, c) := compressItemInner alg c kind content causalScore
  match out.2.1 with
  | none => (out, c)
  | some r => (out, enforceCcrCapacity c [r.key])

/-! ## Compressing a window -/

/-- An item after the first phase. -/
structure Compressed (F : Type) where
  uri : Str
  score : F
  content : Str
  ccrRef : Option CcrRef
  stat : CompressionStat F

/-- The first phase: each item on its own. -/
def compressAll : CausalCompressor F → List (WindowItem F) → List (Compressed F) × CausalCompressor F
  | c, [] => ([], c)
  | c, item :: items =>
    let ((content, ccrRef, stat), c) := compressItemInner alg c item.kind item.content item.score
    let (compressed, c) := compressAll c items
    (⟨item.uri, item.score, content, ccrRef, stat⟩ :: compressed, c)

/-- For each position the first earlier position that has none itself and is similar to it. -/
def dupOf (similar : ℕ → ℕ → Bool) : ℕ → List (Option ℕ)
  | 0 => []
  | n + 1 =>
    let earlier := dupOf similar n
    earlier ++ [(List.range n).find? fun j ↦ earlier[j]? = some none && similar n j]

def placeholder (uri : Str) : Str := "// ~dup of ".toList ++ uri

/-- Whether the contents at two positions are near-duplicates. -/
def similarAt (config : CompressorConfig F) (contents : List Str) (i j : ℕ) : Bool :=
  let sigs := contents.map alg.shingleSignature
  alg.ge (alg.estimatedJaccard (sigs.getD i []) (sigs.getD j [])) config.dedupThreshold

/-- The second phase: near-duplicates give way to a placeholder and keep their handle. -/
def suppressDuplicates (config : CompressorConfig F) (compressed : List (Compressed F)) :
    List (Compressed F) :=
  if config.enableDedup ∧ 1 < compressed.length then
    let dups := dupOf (similarAt alg config (compressed.map Compressed.content)) compressed.length
    compressed.zipIdx.map fun (item, i) ↦
      match (dups[i]?).join with
      | none => item
      | some j =>
        let content := placeholder ((compressed.map Compressed.uri).getD j [])
        let after := content.length / 4
        { item with
          content
          stat := ⟨"causal-dedup".toList, item.stat.tokensBefore, after,
            ratio alg item.stat.tokensBefore after⟩ }
  else compressed

/-- Compress every item of a window. -/
def compressWindow (c : CausalCompressor F) (items : List (WindowItem F)) :
    List CompressedItem × CausalCompressor F :=
  let (compressed, c) := compressAll alg { c with lastStats := [] } items
  let compressed := suppressDuplicates alg c.config compressed
  let out := compressed.map fun item ↦ ⟨item.content, item.ccrRef⟩
  let keep := out.filterMap fun item ↦ item.ccrRef.map CcrRef.key
  (out, enforceCcrCapacity { c with lastStats := compressed.map Compressed.stat } keep)

end CausalCompressor

end SoulSystem.Ccos

namespace SoulSystem.Ccos.CausalCompressor

open Library Std List ExtTreeMap

/-! ## When the compressor loses nothing -/

variable {F : Type} {alg : Algorithms F} {c : CausalCompressor F} {items : List (WindowItem F)}
  {kind content : Str} {score : F} {k : Str}

/-! ## The first phase -/

/-- Whether the first phase leaves a content as it is, without a handle. -/
def leaves (alg : Algorithms F) (config : CompressorConfig F) (kind content : Str) (score : F) :
    Bool :=
  (Str.utf8 content).length < config.minChars || !(encode alg config kind content score).2.1

/-- The text of a content after the first phase. -/
def shortened (alg : Algorithms F) (config : CompressorConfig F) (kind content : Str) (score : F) :
    Str :=
  if (Str.utf8 content).length < config.minChars then content
  else (encode alg config kind content score).1

/-- An encoding that stores no original is the content itself. -/
theorem encode_of_not_stored {config : CompressorConfig F}
    (hstored : (encode alg config kind content score).2.1 = false) :
    (encode alg config kind content score).1 = content := by
  revert hstored
  unfold encode
  cases ContentRouter.classify alg.toLowercase kind content with
  | json =>
    dsimp only
    by_cases henable : config.enableJson = true
    · rw [if_pos henable]
      exact fun hstored ↦ nomatch hstored
    · rw [if_neg henable]
      exact fun _ ↦ rfl
  | code =>
    dsimp only
    by_cases henable : config.enableCode = true
    · rw [if_pos henable]
      exact fun hstored ↦ nomatch hstored
    · rw [if_neg henable]
      exact fun _ ↦ rfl
  | prose =>
    dsimp only
    by_cases henable : config.enableProse = true
    · rw [if_pos henable]
      split
      · exact fun _ ↦ rfl
      · exact fun hstored ↦ nomatch hstored
    · rw [if_neg henable]
      exact fun _ ↦ rfl

theorem shortened_of_leaves {config : CompressorConfig F}
    (hleaves : leaves alg config kind content score = true) :
    shortened alg config kind content score = content := by
  rw [shortened]
  split
  · rfl
  · next hlong =>
      rw [leaves, decide_eq_false hlong, Bool.false_or, Bool.not_eq_true'] at hleaves
      exact encode_of_not_stored hleaves

/-- What the first phase gives for one item. -/
theorem compressItemInner_spec :
    (compressItemInner alg c kind content score).1.1 = shortened alg c.config kind content score ∧
    (compressItemInner alg c kind content score).1.2.1 =
      (if leaves alg c.config kind content score then none else some (refOf alg content)) ∧
    (compressItemInner alg c kind content score).2 =
      if leaves alg c.config kind content score then c else (store alg c content).2 := by
  rw [compressItemInner, shortened, leaves]
  dsimp only
  by_cases hshort : (Str.utf8 content).length < c.config.minChars
  · simp [hshort]
  · cases hstored : (encode alg c.config kind content score).2.1 <;> simp [hshort, store]

theorem config_compressItemInner :
    (compressItemInner alg c kind content score).2.config = c.config := by
  rw [compressItemInner_spec.2.2]
  split <;> rfl

/-! ## Handles and eviction -/

/-- No two of some contents have the same handle. -/
def CollisionFree (alg : Algorithms F) (contents : List Str) : Prop :=
  ∀ a ∈ contents, ∀ b ∈ contents, refOf alg a = refOf alg b → a = b

theorem evictFirst_turn {keep : List Str} {ccr : ExtTreeMap Str Str} (hk : k ∈ keep)
    (hvictim : (victim keep ccr).isSome) :
    (evictFirst keep ccr)[k]? = ccr[k]? ∧ (evictFirst keep ccr).size < ccr.size := by
  obtain ⟨old, hold⟩ := Option.isSome_iff_exists.mp hvictim
  have hnot : old ∉ keep := by simpa using find?_some hold
  have hmem : old ∈ ccr := ExtTreeMap.mem_keys.mp (mem_of_find?_eq_some hold)
  rw [evictFirst, hold]
  dsimp only
  refine ⟨SortedMap.getElem?_erase_ne fun heq ↦ hnot (heq ▸ hk), ?_⟩
  rw [size_erase, if_pos (ExtTreeMap.contains_iff_mem.mpr hmem)]
  exact Nat.sub_lt (SortedMap.size_pos_of_mem hmem) one_pos

/-- Eviction leaves what is to be kept. -/
theorem getElem?_enforceCcrCapacity {keep : List Str} (hk : k ∈ keep) :
    (enforceCcrCapacity c keep).ccr[k]? = c.ccr[k]? := by
  rw [enforceCcrCapacity]
  split
  · rfl
  · have hturn : ∀ ccr : ExtTreeMap Str Str, ccr[k]? = c.ccr[k]? →
        c.config.ccrCapacity < ccr.size ∧ (victim keep ccr).isSome →
        (evictFirst keep ccr)[k]? = c.ccr[k]? ∧ (evictFirst keep ccr).size < ccr.size := by
      intro ccr hsame htest
      obtain ⟨hkept, hlower⟩ := evictFirst_turn hk htest.2
      exact ⟨hkept.trans hsame, hlower⟩
    exact (@Loop.inv_and_exit _ _ _ _ (fun ccr : ExtTreeMap Str Str ↦ ccr[k]? = c.ccr[k]?) _ _
      (fun ccr ↦ ccr.size) hturn rfl le_rfl).1

/-- What the store gives back is right for an item. -/
def Kept (c : CausalCompressor F) (original : Str) (out : CompressedItem) : Prop :=
  out.content = original ∨ ∃ r, out.ccrRef = some r ∧ c.retrieve r = some original

/-- A single item is never lost. -/
theorem kept_compressItem (c : CausalCompressor F) (kind content : Str) (score : F) :
    Kept (compressItem alg c kind content score).2 content
      ⟨(compressItem alg c kind content score).1.1,
        (compressItem alg c kind content score).1.2.1⟩ := by
  obtain ⟨htext, href, hstore⟩ := @compressItemInner_spec F alg c kind content score
  rw [compressItem]
  dsimp only
  cases hleaves : leaves alg c.config kind content score with
  | true =>
    rw [hleaves, if_pos rfl] at href
    rw [href]
    exact Or.inl (htext.trans (shortened_of_leaves hleaves))
  | false =>
    rw [hleaves, if_neg Bool.false_ne_true] at href hstore
    rw [href]
    refine Or.inr ⟨refOf alg content, href, ?_⟩
    rw [retrieve, getElem?_enforceCcrCapacity (mem_singleton_self _), hstore]
    exact getElem?_insert_self

/-! ## The window after the first phase -/

namespace Compressed

/-- What of an item the later phases go by. -/
def visible (item : Compressed F) : Str × Str × Option CcrRef :=
  (item.uri, item.content, item.ccrRef)

end Compressed

/-- An item of the window after the first phase, as the later phases see it. -/
def firstPass (alg : Algorithms F) (config : CompressorConfig F)
    (item : WindowItem F) : Str × Str × Option CcrRef :=
  (item.uri, shortened alg config item.kind item.content item.score,
    if leaves alg config item.kind item.content item.score then none
    else some (refOf alg item.content))

theorem compressAll_spec (c : CausalCompressor F) (items : List (WindowItem F)) :
    (compressAll alg c items).1.map Compressed.visible =
      items.map (firstPass alg c.config) ∧
    (compressAll alg c items).2.config = c.config := by
  induction items generalizing c with
  | nil => exact ⟨rfl, rfl⟩
  | cons item items ih =>
    obtain ⟨htext, href, _⟩ :=
      @compressItemInner_spec F alg c item.kind item.content item.score
    obtain ⟨hrest, hconfig⟩ :=
      ih (compressItemInner alg c item.kind item.content item.score).2
    rw [config_compressItemInner] at hrest hconfig
    refine ⟨?_, hconfig⟩
    rw [compressAll, map_cons, map_cons, hrest]
    rw [Compressed.visible, firstPass, htext, href]

/-- The store holds the original of every item that was compressed. -/
theorem retrieve_compressAll {original : Str} (c : CausalCompressor F)
    (hfree : ∀ item ∈ items, refOf alg item.content = refOf alg original → item.content = original)
    (hstored : c.retrieve (refOf alg original) = some original ∨
      ∃ item ∈ items, item.content = original ∧
        leaves alg c.config item.kind item.content item.score = false) :
    (compressAll alg c items).2.retrieve (refOf alg original) = some original := by
  induction items generalizing c with
  | nil =>
    cases hstored with
    | inl hstored => exact hstored
    | inr hstored => exact absurd hstored.choose_spec.1 not_mem_nil
  | cons item items ih =>
    obtain ⟨_, _, hstore⟩ := @compressItemInner_spec F alg c item.kind item.content item.score
    rw [compressAll]
    apply ih _ fun other hother ↦ hfree other (mem_cons_of_mem item hother)
    rw [config_compressItemInner, hstore]
    cases hleaves : leaves alg c.config item.kind item.content item.score with
    | true =>
      rw [if_pos rfl]
      cases hstored with
      | inl hstored => exact Or.inl hstored
      | inr hstored =>
        obtain ⟨other, hother, hcontent, hcompressed⟩ := hstored
        cases List.mem_cons.mp hother with
        | inl heq => exact nomatch (heq ▸ hcompressed).symm.trans hleaves
        | inr hlater => exact Or.inr ⟨other, hlater, hcontent, hcompressed⟩
    | false =>
      rw [if_neg Bool.false_ne_true, store]
      dsimp only
      by_cases hsame : refOf alg item.content = refOf alg original
      · left
        have hcontent := hfree item mem_cons_self hsame
        rw [retrieve, ← hcontent]
        exact getElem?_insert_self
      · have hkey : (refOf alg item.content).key ≠ (refOf alg original).key :=
          fun heq ↦ hsame (congrArg CcrRef.mk heq)
        cases hstored with
        | inl hstored =>
          left
          rw [retrieve, SortedMap.getElem?_insert_ne _ hkey]
          exact hstored
        | inr hstored =>
          obtain ⟨other, hother, hcontent, hcompressed⟩ := hstored
          cases List.mem_cons.mp hother with
          | inl heq => exact absurd (congrArg (refOf alg) (heq ▸ hcontent)) hsame
          | inr hlater => exact Or.inr ⟨other, hlater, hcontent, hcompressed⟩

/-! ## Near-duplicates -/

/-- The item that stands in for an item of a window: the first one that is kept and that has a
compressed form similar to its own. -/
def duplicateOf (alg : Algorithms F) (config : CompressorConfig F) (items : List (WindowItem F))
    (i : ℕ) : Option ℕ :=
  if config.enableDedup ∧ 1 < items.length then
    ((dupOf (similarAt alg config (items.map fun item ↦
      shortened alg config item.kind item.content item.score)) items.length)[i]?).join
  else none

/-- The second phase replaces the text of the duplicates and leaves the handles. -/
theorem visible_suppressDuplicates {config : CompressorConfig F}
    {compressed : List (Compressed F)}
    (hcompressed : compressed.map Compressed.visible =
      items.map (firstPass alg config)) {i : ℕ} {item : WindowItem F}
    (hitem : items[i]? = some item) :
    ((suppressDuplicates alg config compressed)[i]?).map (fun x ↦ (x.content, x.ccrRef)) =
      some (((duplicateOf alg config items i).map fun j ↦
          placeholder ((items.map WindowItem.uri).getD j [])).getD
            (shortened alg config item.kind item.content item.score),
        (firstPass alg config item).2.2) := by
  have hlength : compressed.length = items.length := by
    have hmap := congrArg List.length hcompressed
    rwa [length_map, length_map] at hmap
  have hcontents : compressed.map Compressed.content = items.map fun item ↦
      shortened alg config item.kind item.content item.score := by
    have hmap := congrArg (List.map fun x ↦ x.2.1) hcompressed
    rwa [List.map_map, List.map_map] at hmap
  have huris : compressed.map Compressed.uri = items.map WindowItem.uri := by
    have hmap := congrArg (List.map fun x ↦ x.1) hcompressed
    rwa [List.map_map, List.map_map] at hmap
  have hith : (compressed[i]?).map Compressed.visible = some (firstPass alg config item) := by
    rw [← getElem?_map, hcompressed, getElem?_map, hitem, Option.map_some]
  obtain ⟨x, hx, hvisible⟩ := Option.map_eq_some_iff.mp hith
  have hcontent : x.content = shortened alg config item.kind item.content item.score :=
    congrArg (fun y ↦ y.2.1) hvisible
  have href : x.ccrRef = (firstPass alg config item).2.2 := congrArg (fun y ↦ y.2.2) hvisible
  rw [suppressDuplicates, duplicateOf, hlength, hcontents, huris]
  split
  · rw [getElem?_map, getElem?_zipIdx, hx]
    dsimp only [Option.map_some]
    rw [Nat.zero_add]
    cases ((dupOf (similarAt alg config (items.map fun item ↦ shortened alg config item.kind
        item.content item.score)) items.length)[i]?).join with
    | none => rw [← hcontent, ← href]; rfl
    | some j => rw [← href]; rfl
  · rw [hx, Option.map_some, hcontent, href]
    rfl

/-! ## When nothing is lost -/

/-- What the compressor owes to a window and to a single item. -/
structure Lossless (alg : Algorithms F) (c : CausalCompressor F) (items : List (WindowItem F)) :
    Prop where
  length : (compressWindow alg c items).1.length = items.length
  window : ∀ (i : ℕ) (item : WindowItem F) (out : CompressedItem), items[i]? = some item →
    (compressWindow alg c items).1[i]? = some out → Kept (compressWindow alg c items).2 item.content out
  item : ∀ kind content score, Kept (compressItem alg c kind content score).2 content
    ⟨(compressItem alg c kind content score).1.1, (compressItem alg c kind content score).1.2.1⟩

/-- No item that the first phase leaves as it is gives way to a near-duplicate, unless it reads like
the placeholder anyway. -/
def NothingSuppressed (alg : Algorithms F) (config : CompressorConfig F)
    (items : List (WindowItem F)) : Prop :=
  ∀ x ∈ items.zipIdx, leaves alg config x.1.kind x.1.content x.1.score = true →
    ∀ j ∈ duplicateOf alg config items x.2,
      x.1.content = placeholder ((items.map WindowItem.uri).getD j [])

instance (contents : List Str) : Decidable (CollisionFree alg contents) :=
  inferInstanceAs (Decidable (∀ a ∈ contents, ∀ b ∈ contents, _ → _))

instance (config : CompressorConfig F) : Decidable (NothingSuppressed alg config items) :=
  have (x : WindowItem F × ℕ) : Decidable (∀ j ∈ duplicateOf alg config items x.2,
      x.1.content = placeholder ((items.map WindowItem.uri).getD j [])) :=
    Option.decidableForallMem _
  inferInstanceAs (Decidable (∀ x ∈ items.zipIdx, _ → _))

/-- An item of the output by the item of the window. -/
theorem getElem?_compressWindow {i : ℕ} {item : WindowItem F} (hitem : items[i]? = some item) :
    (compressWindow alg c items).1[i]? = some
      ⟨((duplicateOf alg c.config items i).map fun j ↦
          placeholder ((items.map WindowItem.uri).getD j [])).getD
            (shortened alg c.config item.kind item.content item.score),
        (firstPass alg c.config item).2.2⟩ := by
  obtain ⟨hmap, hconfig⟩ := @compressAll_spec F alg { c with lastStats := [] } items
  have hvisible := visible_suppressDuplicates hmap hitem
  obtain ⟨x, hx, hpair⟩ := Option.map_eq_some_iff.mp hvisible
  obtain ⟨hcontent, href⟩ := Prod.mk.inj hpair
  rw [compressWindow]
  dsimp only
  rw [hconfig, getElem?_map, hx, Option.map_some, hcontent, href]

theorem length_compressWindow :
    (compressWindow alg c items).1.length = items.length := by
  obtain ⟨hmap, _⟩ := @compressAll_spec F alg { c with lastStats := [] } items
  have hlength := congrArg List.length hmap
  rw [length_map, length_map] at hlength
  rw [compressWindow]
  dsimp only
  rw [length_map, suppressDuplicates, ← hlength]
  split
  · rw [length_map, length_zipIdx]
  · rfl

/-- The handles of a window are answered right after it. -/
theorem retrieve_compressWindow (hfree : CollisionFree alg (items.map WindowItem.content)) {i : ℕ}
    {item : WindowItem F} (hitem : items[i]? = some item)
    (hleaves : leaves alg c.config item.kind item.content item.score = false) :
    (compressWindow alg c items).2.retrieve (refOf alg item.content) = some item.content := by
  have hmem : item ∈ items := mem_of_getElem? hitem
  have hout := @getElem?_compressWindow F alg c items i item hitem
  rw [firstPass, hleaves, if_neg Bool.false_ne_true] at hout
  have hkeep : (refOf alg item.content).key ∈ (compressWindow alg c items).1.filterMap fun item ↦
      item.ccrRef.map CcrRef.key :=
    List.mem_filterMap.mpr ⟨_, mem_of_getElem? hout, rfl⟩
  have hstored : (compressAll alg { c with lastStats := [] } items).2.retrieve
      (refOf alg item.content) = some item.content := by
    apply retrieve_compressAll
    · intro other hother
      exact hfree _ (mem_map_of_mem hother) _ (mem_map_of_mem hmem)
    · exact Or.inr ⟨item, hmem, rfl, hleaves⟩
  exact (getElem?_enforceCcrCapacity hkeep).trans hstored

theorem nothingSuppressed_of_lossless (hlossless : Lossless alg c items) :
    NothingSuppressed alg c.config items := by
  rintro ⟨item, i⟩ hmem hleaves j hdup
  have hitem : items[i]? = some item := List.mem_zipIdx_iff_getElem?.mp hmem
  have hout := @getElem?_compressWindow F alg c items i item hitem
  rw [firstPass, hleaves, if_pos rfl, Option.mem_def.mp hdup, Option.map_some,
    Option.getD_some] at hout
  cases hlossless.window i item _ hitem hout with
  | inl hsame => exact hsame.symm
  | inr hstored => exact nomatch hstored.choose_spec.1

theorem lossless_of_nothingSuppressed (hfree : CollisionFree alg (items.map WindowItem.content))
    (hnothing : NothingSuppressed alg c.config items) : Lossless alg c items := by
  refine ⟨length_compressWindow, fun i item out hitem hout ↦ ?_, kept_compressItem c⟩
  have hspec := @getElem?_compressWindow F alg c items i item hitem
  rw [hspec] at hout
  rw [← Option.some.inj hout]
  cases hleaves : leaves alg c.config item.kind item.content item.score with
  | true =>
    left
    cases hdup : duplicateOf alg c.config items i with
    | none => exact shortened_of_leaves hleaves
    | some j =>
      exact (hnothing (item, i) (List.mem_zipIdx_iff_getElem?.mpr hitem) hleaves j hdup).symm
  | false =>
    right
    refine ⟨refOf alg item.content, ?_, retrieve_compressWindow hfree hitem hleaves⟩
    rw [firstPass, hleaves, if_neg Bool.false_ne_true]

/-- **Compression loses nothing** if and only if no item without a handle is suppressed. -/
theorem lossless_iff_nothingSuppressed (c : CausalCompressor F)
    (hfree : CollisionFree alg (items.map WindowItem.content)) :
    Lossless alg c items ↔ NothingSuppressed alg c.config items :=
  ⟨nothingSuppressed_of_lossless, lossless_of_nothingSuppressed hfree⟩

/-! ## Short notes -/

/-- Algorithms for short texts, which the first phase leaves as they are. -/
def shortTexts : Algorithms ℚ where
  sha256Hex text :=
    if text = "ok".toList then "2689367b205c".toList else "9390298f3fb0".toList
  toLowercase text := text
  crush text := text
  skeletonizeWith text _ := text
  summarize text _ _ := text
  shingleSignature text := text.map Char.toNat
  estimatedJaccard a b :=
    if a.length ≠ b.length ∨ a = [] then 0
    else ((a.zip b).filter fun pair ↦ pair.1 = pair.2).length / a.length
  ge a b := b ≤ a
  one := 1
  quotient a b := a / b

def defaultCompressor : CausalCompressor ℚ where
  ccr := ∅
  lastStats := []
  config := ⟨true, true, true, 0, 4096, 30, true, 85 / 100, true, 8⟩

def shortNote (uri content : Str) : WindowItem ℚ := ⟨"note".toList, 1, uri, content⟩

theorem lossless_distinctNotes : Lossless shortTexts defaultCompressor
    [shortNote "a".toList "ok".toList, shortNote "b".toList "no".toList] :=
  (lossless_iff_nothingSuppressed defaultCompressor (by decide +kernel)).mpr (by decide +kernel)

/-- The second of two equal short notes is replaced, and nothing gives it back. -/
theorem not_lossless_equalNotes : CollisionFree shortTexts ["ok".toList, "ok".toList] ∧
    ¬ Lossless shortTexts defaultCompressor
      [shortNote "a".toList "ok".toList, shortNote "b".toList "ok".toList] := by
  refine ⟨by decide +kernel, fun hlossless ↦ ?_⟩
  exact absurd (nothingSuppressed_of_lossless hlossless) (by decide +kernel)

end SoulSystem.Ccos.CausalCompressor
