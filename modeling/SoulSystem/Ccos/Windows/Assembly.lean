import SoulSystem.Ccos.Compressor
import SoulSystem.Ccos.Memory.Arithmetic

/-!
# Assembling a recall window

The candidates of a recall are scored and sorted, and packed into a window until the budget is
full.  With a proximity every file has a quota besides, and a node that does not fit is
skipped instead.

The causal score of a node and the quota's share of the budget are left open.
-/

namespace SoulSystem.Ccos.Windows

open Library Std Memory List

/-! ## Floats -/

/-- `f64::partial_cmp`. -/
def partialCmp (a b : F64) : Option Ordering :=
  if a = .nan ∨ b = .nan then none
  else if a.lt b then some .lt
  else if b.lt a then some .gt
  else some .eq

/-- `as usize`. -/
def asUsize : F64 → ℕ
  | .nan => 0
  | .infinite negative => if negative then 0 else 2 ^ 64 - 1
  | .finite value => min ⌊value⌋.toNat (2 ^ 64 - 1)

/-- `as f64`. -/
def ofUsize (n : ℕ) : F64 := F64.ofRat n

/-! ## Data model -/

structure RecallItem where
  uri : Str
  score : F64
  kind : Str
  content : Str
  ccrRef : Option CcrRef
  deriving DecidableEq

structure RecallWindow where
  strategy : Str
  items : List RecallItem
  tokens : ℕ
  deriving DecidableEq

/-- The hops from an anchor, the attenuation of a hop, and the bound of the hops. -/
structure Proximity where
  dist : ExtTreeMap Str ℕ
  decay : F64
  maxHops : ℕ

/-- What a strategy chooses, whatever the budget is. -/
structure Selection where
  strategy : Str
  ids : List Str
  proximity : Option Proximity
  lsa : Option (ExtTreeMap Str F64)

/-- What is left open about the scores. -/
structure Scoring where
  computeNodeScore : MemoryGraph → GraphNode → F64
  recallFileCap : F64

/-- The name of a node type, as it is printed. -/
def debugName : NodeType → Str
  | .module => "Module".toList
  | .symbol => "Symbol".toList
  | .contextBlock => "ContextBlock".toList
  | .analysisResult => "AnalysisResult".toList
  | .codeRegion => "CodeRegion".toList
  | .unknown => "Unknown".toList

/-- The file that a node belongs to, or the id itself. -/
def fileOf (uri : Str) : Str :=
  match Str.stripPrefix "file:".toList uri with
  | some rest => rest
  | none =>
    match ["mod:", "use:", "sym:"].findSome? fun known ↦ Str.stripPrefix known.toList uri with
    | some rest => rest.takeWhile (· ≠ ':')
    | none => uri

def estimateTokens (content : Str) : ℕ := content.length / 4

/-! ## Scoring -/

def recallLsaWeight : F64 := .finite 3

/-- The hops of a node, as an `i32`. -/
def Proximity.hops (proximity : Proximity) (id : Str) : ℤ :=
  ((proximity.dist.getD id ((proximity.maxHops + 1) % 2 ^ 32) : ℕ) : ℤ).bmod (2 ^ 32)

/-- The score of a node, attenuated by its distance and promoted by its similarity. -/
def Selection.score (scoring : Scoring) (graph : MemoryGraph) (selection : Selection) (id : Str)
    (node : GraphNode) : F64 :=
  let score := scoring.computeNodeScore graph node
  let score :=
    match selection.proximity with
    | some proximity => score.mul (proximity.decay.powi (proximity.hops id))
    | none => score
  match selection.lsa.bind fun similarities ↦ similarities[id]? with
  | some sim => score.mul ((F64.finite 1).add (recallLsaWeight.mul (sim.max (.finite 0))))
  | none => score

def isDep (id : Str) : Bool := "dep:".toList.isPrefixOf id

def toItem (score : F64) (id : Str) (node : GraphNode) : RecallItem where
  uri := id
  score := score
  kind := debugName node.nodeType
  content := node.content
  ccrRef := none

/-- The items of the candidates that have not been seen. -/
def collect (scoring : Scoring) (graph : MemoryGraph) (selection : Selection) :
    List Str → List Str → List RecallItem
  | [], _ => []
  | id :: ids, seen =>
    if id ∈ seen then collect scoring graph selection ids seen
    else if isDep id then collect scoring graph selection ids (id :: seen)
    else
      match graph.nodes[id]? with
      | some node =>
        toItem (selection.score scoring graph id node) id node ::
          collect scoring graph selection ids (id :: seen)
      | none => collect scoring graph selection ids (id :: seen)

/-- By falling score, and by uri. -/
def compareScored (a b : Str × F64) : Ordering :=
  ((partialCmp b.2 a.2).getD .eq).then (compare a.1 b.1)

def compareItems (a b : RecallItem) : Ordering := compareScored (a.uri, a.score) (b.uri, b.score)

def NotAfter (a b : RecallItem) : Prop := compareItems a b ≠ .gt

instance : DecidableRel NotAfter := fun a b ↦ inferInstanceAs (Decidable (compareItems a b ≠ .gt))

/-! ## Packing -/

/-- The window so far, with the contents seen and the tokens of each file. -/
structure Packed where
  items : List RecallItem
  tokens : ℕ
  seenContent : List Str
  perFile : ExtTreeMap Str ℕ

def Packed.push (packed : Packed) (item : RecallItem) : Packed :=
  { packed with
    items := packed.items ++ [item]
    tokens := packed.tokens + estimateTokens item.content }

/-- Pack the items that are left. -/
def pack (budget : ℕ) (fileCap : Option ℕ) : List RecallItem → Packed → Packed
  | [], packed => packed
  | item :: rest, packed =>
    if Str.trim item.content = [] ∨ item.content ∈ packed.seenContent then
      pack budget fileCap rest packed
    else
      let packed := { packed with seenContent := item.content :: packed.seenContent }
      let t := estimateTokens item.content
      match fileCap with
      | some cap =>
        let file := fileOf item.uri
        let used := packed.perFile.getD file 0
        if packed.items ≠ [] ∧ cap < used + t then pack budget fileCap rest packed
        else if budget < packed.tokens + t ∧ packed.items ≠ [] then
          pack budget fileCap rest packed
        else
          let packed := { packed with perFile := packed.perFile.insert file (used + t) }
          pack budget fileCap rest (packed.push item)
      | none =>
        if budget < packed.tokens + t ∧ packed.items ≠ [] then packed
        else pack budget fileCap rest (packed.push item)

/-- The items of all candidates of a selection. -/
def candidates (scoring : Scoring) (graph : MemoryGraph) (selection : Selection) :
    List RecallItem :=
  collect scoring graph selection selection.ids []

def assembleWindow (scoring : Scoring) (graph : MemoryGraph) (selection : Selection) (budget : ℕ) :
    RecallWindow :=
  let scored := (candidates scoring graph selection).insertionSort NotAfter
  let fileCap := selection.proximity.map fun _ ↦
    asUsize ((ofUsize budget).mul scoring.recallFileCap)
  let packed := pack budget fileCap scored ⟨[], 0, [], ∅⟩
  ⟨selection.strategy, packed.items, packed.tokens⟩

/-- All nodes, by falling score. -/
def getNodeScores (scoring : Scoring) (graph : MemoryGraph) : List (Str × F64) :=
  (graph.nodes.toList.map fun (id, node) ↦ (id, scoring.computeNodeScore graph node)).insertionSort
    fun a b ↦ compareScored a b ≠ .gt

/-- What a recall of the working set selects. -/
def workingSet (scoring : Scoring) (graph : MemoryGraph) : Selection where
  strategy := "working-set".toList
  ids := (getNodeScores scoring graph).map Prod.fst
  proximity := none
  lsa := none

/-! ## The candidates -/

section Collect

variable {scoring : Scoring} {graph : MemoryGraph} {selection : Selection} {ids seen : List Str}
  {item : RecallItem}

/-- What is collected: nodes of the graph outside `dep:`, with their scores and contents. -/
theorem exists_of_mem_collect (hitem : item ∈ collect scoring graph selection ids seen) :
    item.uri ∈ ids ∧ item.uri ∉ seen ∧ isDep item.uri = false ∧
      ∃ node, graph.nodes[item.uri]? = some node ∧
        item = toItem (selection.score scoring graph item.uri node) item.uri node := by
  induction ids generalizing seen with
  | nil => cases hitem
  | cons id ids ih =>
    have hlater : ∀ {seen'}, (∀ x ∈ seen, x ∈ seen') →
        item ∈ collect scoring graph selection ids seen' →
        item.uri ∈ id :: ids ∧ item.uri ∉ seen ∧ isDep item.uri = false ∧
          ∃ node, graph.nodes[item.uri]? = some node ∧
            item = toItem (selection.score scoring graph item.uri node) item.uri node := by
      intro seen' hseen hmem
      obtain ⟨hid, hnew, hrest⟩ := ih hmem
      exact ⟨mem_cons_of_mem id hid, fun hold ↦ hnew (hseen _ hold), hrest⟩
    have hgrow : ∀ x ∈ seen, x ∈ id :: seen := fun x hx ↦ mem_cons_of_mem id hx
    rw [collect] at hitem
    split at hitem
    · exact hlater (fun x hx ↦ hx) hitem
    · next hnew =>
        split at hitem
        · exact hlater hgrow hitem
        · next hdep =>
            cases hnode : graph.nodes[id]? with
            | none =>
              rw [hnode] at hitem
              exact hlater hgrow hitem
            | some node =>
              rw [hnode] at hitem
              cases List.mem_cons.mp hitem with
              | inl hhead =>
                rw [hhead]
                exact ⟨mem_cons_self, hnew, Bool.eq_false_iff.mpr hdep, node, hnode, rfl⟩
              | inr htail => exact hlater hgrow htail

theorem nodup_uri_collect :
    ((collect scoring graph selection ids seen).map RecallItem.uri).Nodup := by
  induction ids generalizing seen with
  | nil => exact nodup_nil
  | cons id ids ih =>
    rw [collect]
    split
    · exact ih
    · split
      · exact ih
      · cases graph.nodes[id]? with
        | none => exact ih
        | some node =>
          refine List.nodup_cons.mpr ⟨fun hmem ↦ ?_, ih⟩
          obtain ⟨item, hitem, huri⟩ := List.mem_map.mp hmem
          have hnew := (exists_of_mem_collect hitem).2.1
          exact hnew (huri ▸ mem_cons_self)

end Collect

/-! ## The order -/

/-- The order of the floats that are numbers, with the others below. -/
def orderKey : F64 → ℤ ×ₗ ℚ
  | .nan => toLex (-2, 0)
  | .infinite true => toLex (-1, 0)
  | .finite value => toLex (0, value)
  | .infinite false => toLex (1, 0)

theorem orderKey_injective : Function.Injective orderKey := by
  intro a b hkey
  rcases a with _ | ⟨_ | _⟩ | value <;> rcases b with _ | ⟨_ | _⟩ | value' <;>
    simp_all [orderKey]

theorem lt_iff_orderKey {a b : F64} (ha : a ≠ .nan) (hb : b ≠ .nan) :
    a.lt b = true ↔ orderKey a < orderKey b := by
  rcases a with _ | ⟨_ | _⟩ | value <;> rcases b with _ | ⟨_ | _⟩ | value' <;>
    simp_all [orderKey, F64.lt, Prod.Lex.toLex_lt_toLex]

/-- The item ranks before another one, or is the same as far as score and uri tell. -/
def RanksLe (a b : RecallItem) : Prop :=
  orderKey b.score < orderKey a.score ∨
    (orderKey a.score = orderKey b.score ∧ (compare a.uri b.uri).isLE)

instance : DecidableRel RanksLe := fun a b ↦ inferInstanceAs (Decidable
  (orderKey b.score < orderKey a.score ∨
    (orderKey a.score = orderKey b.score ∧ (compare a.uri b.uri).isLE)))

instance : Std.Total RanksLe where
  total a b := by
    rcases Std.lt_trichotomy (orderKey a.score) (orderKey b.score) with hlt | heq | hgt
    · exact .inr (.inl hlt)
    · have horder : (compare a.uri b.uri).isLE ∨ (compare b.uri a.uri).isLE := by
        rw [@OrientedCmp.eq_swap _ compare _ b.uri]
        cases compare a.uri b.uri <;> decide
      exact horder.imp (fun hle ↦ .inr ⟨heq, hle⟩) fun hle ↦ .inr ⟨heq.symm, hle⟩
    · exact .inl (.inl hgt)

instance : IsTrans RecallItem RanksLe where
  trans a b c hab hbc := by
    rcases hab with hab | ⟨hab, huri⟩ <;> rcases hbc with hbc | ⟨hbc, huri'⟩
    · exact .inl (hbc.trans hab)
    · exact .inl (hbc ▸ hab)
    · exact .inl (hab ▸ hbc)
    · exact .inr ⟨hab.trans hbc, TransCmp.isLE_trans huri huri'⟩

theorem notAfter_iff {a b : RecallItem} (ha : a.score ≠ .nan) (hb : b.score ≠ .nan) :
    NotAfter a b ↔ RanksLe a b := by
  rw [NotAfter, compareItems, compareScored, partialCmp, if_neg (not_or.mpr ⟨hb, ha⟩), RanksLe]
  by_cases hlt : orderKey b.score < orderKey a.score
  · rw [if_pos ((lt_iff_orderKey hb ha).mpr hlt)]
    exact iff_of_true nofun (.inl hlt)
  · rw [if_neg (mt (lt_iff_orderKey hb ha).mp hlt)]
    by_cases hgt : orderKey a.score < orderKey b.score
    · rw [if_pos ((lt_iff_orderKey ha hb).mpr hgt)]
      refine iff_of_false (fun hne ↦ hne rfl) ?_
      rintro (hlt' | ⟨heq, _⟩)
      · exact hlt hlt'
      · exact absurd hgt heq.not_lt
    · rw [if_neg (mt (lt_iff_orderKey ha hb).mp hgt)]
      have heq : orderKey a.score = orderKey b.score :=
        Std.le_antisymm (Std.not_lt.mp hlt) (Std.not_lt.mp hgt)
      rw [or_iff_right hlt, and_iff_right heq]
      cases compare a.uri b.uri <;> decide

/-- The sort by the code's comparison sorts the items, if every score is a number. -/
theorem pairwise_insertionSort {items : List RecallItem}
    (hscores : ∀ item ∈ items, item.score ≠ .nan) :
    (items.insertionSort NotAfter).Pairwise RanksLe := by
  have hsame := map_insertionSort NotAfter RanksLe id items
    fun a ha b hb ↦ notAfter_iff (hscores a ha) (hscores b hb)
  rw [map_id, map_id] at hsame
  rw [hsame]
  exact List.pairwise_insertionSort RanksLe items

/-! ## The window -/

/-- What a window promises about its items and its budget.  Scores that are no numbers
have no order. -/
structure Proper (scored : List RecallItem) (budget : ℕ) (window : RecallWindow) : Prop where
  uris : (window.items.map RecallItem.uri).Nodup
  contents : (window.items.map RecallItem.content).Nodup
  ranked : (∀ item ∈ scored, item.score ≠ .nan) → window.items.Pairwise fun a b ↦
    b.score.lt a.score = true ∨ (a.score = b.score ∧ compare a.uri b.uri = .lt)
  noDep : ∀ item ∈ window.items, isDep item.uri = false
  notBlank : ∀ item ∈ window.items, Str.trim item.content ≠ []
  tokens : window.tokens = (window.items.map fun item ↦ estimateTokens item.content).sum
  budget : 1 < window.items.length → window.tokens ≤ budget

/-- What the packing keeps. -/
structure Packed.Inv (budget : ℕ) (packed : Packed) : Prop where
  contents : (packed.items.map RecallItem.content).Nodup
  seen : ∀ item ∈ packed.items, item.content ∈ packed.seenContent
  notBlank : ∀ item ∈ packed.items, Str.trim item.content ≠ []
  tokens : packed.tokens = (packed.items.map fun item ↦ estimateTokens item.content).sum
  budget : 1 < packed.items.length → packed.tokens ≤ budget

namespace Packed.Inv

variable {budget : ℕ} {packed : Packed} {item : RecallItem}

theorem empty : Inv budget ⟨[], 0, [], ∅⟩ where
  contents := nodup_nil
  seen _ hitem := absurd hitem not_mem_nil
  notBlank _ hitem := absurd hitem not_mem_nil
  tokens := rfl
  budget hlength := absurd hlength (Nat.not_lt_zero 1)

/-- A content may be seen, and the tokens of the files may change. -/
theorem see (hinv : packed.Inv budget) (content : Str) (perFile : ExtTreeMap Str ℕ) :
    Inv budget { packed with seenContent := content :: packed.seenContent, perFile } where
  contents := hinv.contents
  seen item hitem := mem_cons_of_mem content (hinv.seen item hitem)
  notBlank := hinv.notBlank
  tokens := hinv.tokens
  budget := hinv.budget

/-- A new content that fits, or comes first, may be pushed. -/
theorem push (hinv : packed.Inv budget) (hblank : Str.trim item.content ≠ [])
    (hnew : item.content ∉ packed.seenContent)
    (hfits : ¬ (budget < packed.tokens + estimateTokens item.content ∧ packed.items ≠ []))
    (perFile : ExtTreeMap Str ℕ) :
    Inv budget (Packed.push { packed with
      seenContent := item.content :: packed.seenContent, perFile } item) where
  contents := by
    rw [Packed.push, map_append, map_singleton, nodup_append]
    refine ⟨hinv.contents, nodup_singleton _, fun a ha b hb hab ↦ ?_⟩
    obtain ⟨other, hother, rfl⟩ := List.mem_map.mp ha
    rw [mem_singleton] at hb
    exact hnew (hb ▸ hab ▸ hinv.seen other hother)
  seen other hother := by
    cases List.mem_append.mp hother with
    | inl hold => exact mem_cons_of_mem _ (hinv.seen other hold)
    | inr hlast =>
      rw [List.mem_singleton.mp hlast]
      exact mem_cons_self
  notBlank other hother := by
    cases List.mem_append.mp hother with
    | inl hold => exact hinv.notBlank other hold
    | inr hlast =>
      rw [List.mem_singleton.mp hlast]
      exact hblank
  tokens := by
    rw [Packed.push, map_append, map_singleton, sum_append, sum_singleton,
      ← hinv.tokens]
  budget hlength := by
    have hitems : packed.items ≠ [] := by
      intro hempty
      rw [Packed.push, hempty] at hlength
      exact absurd hlength (Nat.lt_irrefl 1)
    exact Nat.not_lt.mp fun hover ↦ hfits ⟨hover, hitems⟩

end Packed.Inv

/-- The packing keeps its invariant, and takes its items in their order. -/
theorem pack_inv {budget : ℕ} {fileCap : Option ℕ} {items : List RecallItem} {packed : Packed}
    (hinv : packed.Inv budget) : (pack budget fileCap items packed).Inv budget ∧
      (pack budget fileCap items packed).items.Sublist (packed.items ++ items) := by
  induction items generalizing packed with
  | nil =>
    rw [append_nil]
    exact ⟨hinv, List.Sublist.refl _⟩
  | cons item rest ih =>
    have hskip : ∀ {next : Packed}, next.items = packed.items → next.Inv budget →
        (pack budget fileCap rest next).Inv budget ∧
          (pack budget fileCap rest next).items.Sublist (packed.items ++ item :: rest) := by
      intro next hitems hnext
      obtain ⟨hinv', hsub⟩ := ih hnext
      rw [hitems] at hsub
      exact ⟨hinv', hsub.trans ((sublist_cons_self item rest).append_left packed.items)⟩
    have hpush : ∀ {next : Packed}, next.items = packed.items ++ [item] → next.Inv budget →
        (pack budget fileCap rest next).Inv budget ∧
          (pack budget fileCap rest next).items.Sublist (packed.items ++ item :: rest) := by
      intro next hitems hnext
      obtain ⟨hinv', hsub⟩ := ih hnext
      rw [hitems, append_assoc, singleton_append] at hsub
      exact ⟨hinv', hsub⟩
    rw [pack]
    split
    · exact hskip rfl hinv
    · next hfresh =>
        obtain ⟨hblank, hnew⟩ := not_or.mp hfresh
        cases fileCap with
        | none =>
          dsimp only
          split
          · exact ⟨hinv.see _ _, sublist_append_left _ _⟩
          · next hfits => exact hpush rfl (hinv.push hblank hnew hfits _)
        | some cap =>
          dsimp only
          split
          · exact hskip rfl (hinv.see _ _)
          · split
            · exact hskip rfl (hinv.see _ _)
            · next hfits => exact hpush rfl (hinv.push hblank hnew hfits _)

section Window

variable (scoring : Scoring) (graph : MemoryGraph) (selection : Selection) (budget : ℕ)

/-- A window is what was packed: candidates, in the order of the sort. -/
theorem exists_packed : ∃ packed : Packed, packed.Inv budget ∧
    assembleWindow scoring graph selection budget =
      ⟨selection.strategy, packed.items, packed.tokens⟩ ∧
    packed.items.Sublist ((candidates scoring graph selection).insertionSort NotAfter) := by
  have hpacked := @pack_inv budget
    (selection.proximity.map fun _ ↦ asUsize ((ofUsize budget).mul scoring.recallFileCap))
    ((candidates scoring graph selection).insertionSort NotAfter) _ Packed.Inv.empty
  exact ⟨_, hpacked.1, rfl, hpacked.2⟩

/-- An item that ranks before one of another uri is strictly before it. -/
theorem RanksLe.strict {a b : RecallItem} (hle : RanksLe a b) (ha : a.score ≠ .nan)
    (hb : b.score ≠ .nan) (huri : a.uri ≠ b.uri) :
    b.score.lt a.score = true ∨ (a.score = b.score ∧ compare a.uri b.uri = .lt) := by
  rcases hle with hlt | ⟨heq, hle⟩
  · exact .inl ((lt_iff_orderKey hb ha).mpr hlt)
  · have hne : compare a.uri b.uri ≠ .eq := fun hsame ↦ huri (compare_eq_iff_eq.mp hsame)
    have hlt : compare a.uri b.uri = .lt := by
      cases hcompare : compare a.uri b.uri with
      | lt => rfl
      | eq => exact absurd hcompare hne
      | gt =>
        rw [hcompare] at hle
        cases hle
    exact .inr ⟨orderKey_injective heq, hlt⟩

theorem proper_assembleWindow : Proper (candidates scoring graph selection) budget
    (assembleWindow scoring graph selection budget) := by
  obtain ⟨packed, hinv, hwindow, hsub⟩ := exists_packed scoring graph selection budget
  rw [hwindow]
  have hsort := (candidates scoring graph selection).perm_insertionSort NotAfter
  have hmem : ∀ item ∈ packed.items, item ∈ candidates scoring graph selection :=
    fun item hitem ↦ hsort.subset (hsub.subset hitem)
  have huris : (packed.items.map RecallItem.uri).Nodup :=
    ((hsort.map RecallItem.uri).nodup_iff.mpr nodup_uri_collect).sublist
      (hsub.map RecallItem.uri)
  exact {
    uris := huris
    contents := hinv.contents
    ranked := by
      intro hscores
      have hranks := (pairwise_insertionSort hscores).sublist hsub
      have hapart := List.pairwise_map.mp huris
      exact (hranks.and hapart).imp_of_mem fun ha hb hab ↦
        hab.1.strict (hscores _ (hmem _ ha)) (hscores _ (hmem _ hb)) hab.2
    noDep := fun item hitem ↦ (exists_of_mem_collect (hmem item hitem)).2.2.1
    notBlank := hinv.notBlank
    tokens := hinv.tokens
    budget := hinv.budget }

end Window

end SoulSystem.Ccos.Windows
