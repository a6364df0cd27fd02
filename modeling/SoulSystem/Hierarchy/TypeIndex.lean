import SoulSystem.Hierarchy.Stores

/-!
# The type index of the semantic store

The index of a concept type holds the ids of all stores with that type, in order and for ever, while
an entry only shows the type of its latest store.  So the index answers exactly as long as no id is
stored a second time.
-/

namespace SoulSystem.Hierarchy.SemanticStore

open Library Std List

/-! ## Histories -/

inductive Op where
  | store (moment : Moment) (e : MemoryEntry) (conceptType : ConceptType)
  | access (moment : Moment) (id : Str)
  | decay (moment : Moment)

def apply (s : SemanticStore) : Op → SemanticStore
  | .store moment e conceptType => s.store moment e conceptType
  | .access moment id => s.access moment id
  | .decay moment => (s.decay moment).1

def run (config : SemanticConfig) (ops : List Op) : SemanticStore :=
  ops.foldl apply (new config)

/-- The id and the type of a store. -/
def Op.stored : Op → Option (Str × ConceptType)
  | .store _ e conceptType => some (e.id, conceptType)
  | .access _ _ => none
  | .decay _ => none

def stores (ops : List Op) : List (Str × ConceptType) := ops.filterMap Op.stored

/-- The ids of the stores of a history, in order. -/
def storedIds (ops : List Op) : List Str := (stores ops).map Prod.fst

/-- The concept type of the most recent store of an id. -/
def lastType (ops : List Op) (id : Str) : Option ConceptType :=
  ((stores ops).reverse.find? fun pair ↦ pair.1 = id).map Prod.snd

/-- What `by_type` owes to a history: each live entry exactly once under the type of its most recent
store, no other entry, and that type in the metadata. -/
structure TypeIndexExact (ops : List Op) (s : SemanticStore) : Prop where
  nodup : ∀ conceptType, (s.byType conceptType).Nodup
  mem_iff : ∀ conceptType e, e ∈ s.byType conceptType ↔
    s.entries.get? e.id = some e ∧ lastType ops e.id = some conceptType
  metadata : ∀ conceptType, ∀ e ∈ s.byType conceptType,
    e.metadata["concept_type".toList]? = some conceptType.json

variable {config : SemanticConfig} {ops : List Op} {op : Op} {id : Str} {e : MemoryEntry}
  {conceptType : ConceptType}

theorem run_concat : run config (ops ++ [op]) = (run config ops).apply op := by
  rw [run, foldl_concat, run]

theorem stores_concat : stores (ops ++ [op]) = stores ops ++ op.stored.toList := by
  rw [stores, filterMap_append, stores, filterMap_cons, filterMap_nil]
  cases op.stored <;> rfl

theorem storedIds_concat :
    storedIds (ops ++ [op]) = storedIds ops ++ (op.stored.map Prod.fst).toList := by
  rw [storedIds, stores_concat, map_append, storedIds]
  cases op.stored <;> rfl

theorem lastType_concat_of_stored (hstored : op.stored = some (id, conceptType)) {other : Str} :
    lastType (ops ++ [op]) other = if id = other then some conceptType else lastType ops other := by
  rw [lastType, stores_concat, hstored, Option.toList_some, reverse_append,
    reverse_singleton, singleton_append, find?_cons]
  by_cases heq : id = other
  · simp [heq]
  · simp [heq, lastType]

theorem lastType_concat_of_not_stored (hstored : op.stored = none) :
    lastType (ops ++ [op]) id = lastType ops id := by
  rw [lastType, stores_concat, hstored, Option.toList_none, append_nil, lastType]

/-- An id without repeated stores has the type of its only store. -/
theorem lastType_eq_some_iff (hnodup : (storedIds ops).Nodup) :
    lastType ops id = some conceptType ↔ (id, conceptType) ∈ stores ops := by
  rw [lastType, Option.map_eq_some_iff]
  constructor
  · rintro ⟨⟨found, foundType⟩, hfound, rfl⟩
    have hid : found = id := by simpa using find?_some hfound
    exact hid ▸ List.mem_reverse.mp (mem_of_find?_eq_some hfound)
  · intro hmem
    have hsome : ((stores ops).reverse.find? fun pair ↦ decide (pair.1 = id)).isSome :=
      List.find?_isSome.mpr ⟨(id, conceptType), List.mem_reverse.mpr hmem, by simp⟩
    obtain ⟨pair, hpair⟩ := Option.isSome_iff_exists.mp hsome
    have hid : pair.1 = id := by simpa using find?_some hpair
    have hmem' : pair ∈ stores ops := List.mem_reverse.mp (mem_of_find?_eq_some hpair)
    have heq : pair = (id, conceptType) := inj_on_of_nodup_map hnodup hmem' hmem hid
    exact ⟨pair, hpair, by rw [heq]⟩

/-! ## What a run leaves in the index and in the entries -/

theorem typeIndex_access (moment : Moment) (s : SemanticStore) :
    (s.access moment id).typeIndex = s.typeIndex := rfl

theorem typeIndex_decay (moment : Moment) (s : SemanticStore) :
    (s.decay moment).1.typeIndex = s.typeIndex := rfl

/-- The index of a type holds the ids of all stores with that type. -/
theorem typeIndex_run (config : SemanticConfig) (ops : List Op) (conceptType : ConceptType) :
    (run config ops).typeIndex conceptType =
      ((stores ops).filter fun pair ↦ pair.2 = conceptType).map Prod.fst := by
  induction ops using List.reverseRecOn with
  | nil => rfl
  | append_singleton ops op ih =>
    rw [run_concat, stores_concat, filter_append, map_append, ← ih]
    cases op with
    | store moment e stored =>
      by_cases heq : stored = conceptType
      · simp [apply, store, Op.stored, heq]
      · simp [apply, store, Op.stored, heq, Function.update_of_ne (Ne.symm heq)]
    | access moment other => simp [apply, typeIndex_access, Op.stored]
    | decay moment => simp [apply, typeIndex_decay, Op.stored]

theorem mem_typeIndex_run : id ∈ (run config ops).typeIndex conceptType ↔
    (id, conceptType) ∈ stores ops := by
  simp [typeIndex_run]

/-- A live entry carries the type of its most recent store. -/
theorem metadata_run (hlive : (run config ops).entries.get? id = some e) :
    ∃ conceptType, lastType ops id = some conceptType ∧
      e.metadata["concept_type".toList]? = some conceptType.json := by
  induction ops using List.reverseRecOn generalizing e with
  | nil => exact absurd hlive (by simp [run, new])
  | append_singleton ops op ih =>
    rw [run_concat] at hlive
    cases op with
    | store moment x stored =>
      have hid : (typed moment x stored).id = x.id := rfl
      rw [lastType_concat_of_stored rfl]
      rw [apply, store, Entries.get?_insert, hid] at hlive
      by_cases heq : x.id = id
      · rw [if_pos heq] at hlive ⊢
        refine ⟨stored, rfl, ?_⟩
        rw [← Option.some.inj hlive, typed, ExtTreeMap.getElem?_insert_self]
      · rw [if_neg heq] at hlive ⊢
        exact ih hlive
    | access moment other =>
      rw [lastType_concat_of_not_stored rfl]
      rw [apply, access, Entries.get?_modify] at hlive
      split at hlive
      · obtain ⟨x, hx, haccessed⟩ := Option.map_eq_some_iff.mp hlive
        have hmetadata : e.metadata = x.metadata := by
          rw [← haccessed, accessed]
        rw [hmetadata]
        exact ih hx
      · exact ih hlive
    | decay moment =>
      rw [lastType_concat_of_not_stored rfl]
      rw [apply, decay, Entries.get?_update] at hlive
      obtain ⟨x, hx, haged⟩ := Option.bind_eq_some_iff.mp hlive
      have hmetadata : e.metadata = x.metadata := by
        rw [eq_of_aged haged]
      rw [hmetadata]
      exact ih hx

theorem mem_byType {s : SemanticStore} :
    e ∈ s.byType conceptType ↔ s.entries.get? e.id = some e ∧ e.id ∈ s.typeIndex conceptType := by
  rw [byType, mem_filterMap]
  constructor
  · rintro ⟨id, hindex, hget⟩
    have hid : e.id = id := Entries.id_of_get? hget
    rw [hid]
    exact ⟨hget, hindex⟩
  · exact fun ⟨hget, hindex⟩ ↦ ⟨e.id, hindex, hget⟩

/-! ## When the index is exact -/

/-- The index of a type has no repetition when no id is stored twice. -/
theorem nodup_typeIndex (hnodup : (storedIds ops).Nodup) :
    ((run config ops).typeIndex conceptType).Nodup := by
  rw [typeIndex_run]
  exact hnodup.sublist (List.filter_sublist.map Prod.fst)

theorem typeIndexExact_of_nodup (hnodup : (storedIds ops).Nodup) :
    TypeIndexExact ops (run config ops) where
  nodup conceptType := by
    apply List.Nodup.filterMap _ (nodup_typeIndex hnodup)
    intro id other e hid hother
    rw [← Entries.id_of_get? (Option.mem_def.mp hid), Entries.id_of_get? (Option.mem_def.mp hother)]
  mem_iff conceptType e := by
    rw [mem_byType, mem_typeIndex_run, lastType_eq_some_iff hnodup]
  metadata conceptType e he := by
    obtain ⟨hlive, hindex⟩ := mem_byType.mp he
    obtain ⟨latest, hlatest, hmetadata⟩ := metadata_run hlive
    rw [mem_typeIndex_run, ← lastType_eq_some_iff hnodup, hlatest] at hindex
    rw [hmetadata, Option.some.inj hindex]

/-- A store under an id that was stored before leaves the index inexact. -/
theorem not_typeIndexExact_of_restored {moment : Moment} (hrestored : e.id ∈ storedIds ops) :
    ¬ TypeIndexExact (ops ++ [.store moment e conceptType])
      (run config (ops ++ [.store moment e conceptType])) := by
  intro hexact
  obtain ⟨⟨id, earlier⟩, hearlier, hid⟩ := List.mem_map.mp hrestored
  have hid : id = e.id := hid
  subst hid
  have hlive : (run config (ops ++ [.store moment e conceptType])).entries.get? e.id =
      some (typed moment e conceptType) := by
    rw [run_concat]
    exact Entries.get?_insert_self _
  have hlast : lastType (ops ++ [.store moment e conceptType]) e.id = some conceptType := by
    rw [lastType_concat_of_stored rfl, if_pos rfl]
  have hindexed : typed moment e conceptType ∈
      (run config (ops ++ [.store moment e conceptType])).byType earlier := by
    apply mem_byType.mpr
    refine ⟨hlive, mem_typeIndex_run.mpr ?_⟩
    rw [stores_concat]
    exact mem_append_left _ hearlier
  have hsame : earlier = conceptType := by
    have hshown := ((hexact.mem_iff earlier _).mp hindexed).2
    exact Option.some.inj (hshown.symm.trans hlast)
  subst hsame
  have hnodup := hexact.nodup earlier
  have hindex : (run config (ops ++ [.store moment e earlier])).typeIndex earlier =
      (run config ops).typeIndex earlier ++ [e.id] := by
    rw [run_concat]
    exact Function.update_self ..
  rw [byType, hindex, filterMap_append, nodup_append] at hnodup
  apply hnodup.2.2 (typed moment e earlier) _ (typed moment e earlier) _ rfl
  · exact List.mem_filterMap.mpr ⟨e.id, mem_typeIndex_run.mpr hearlier, hlive⟩
  · exact List.mem_filterMap.mpr ⟨e.id, mem_singleton_self _, hlive⟩

/-- The type index is exact throughout a history if and only if the history stores no id twice. -/
theorem typeIndexExact_iff_nodup (config : SemanticConfig) (ops : List Op) :
    (∀ past, past <+: ops → TypeIndexExact past (run config past)) ↔ (storedIds ops).Nodup := by
  constructor
  · intro hexact
    induction ops using List.reverseRecOn with
    | nil => exact nodup_nil
    | append_singleton ops op ih =>
      have hnodup := ih fun past hpast ↦ hexact past (hpast.trans (prefix_append ops [op]))
      have hlast := hexact _ (prefix_refl _)
      rw [storedIds_concat]
      cases op with
      | store moment e conceptType =>
        have hfresh : e.id ∉ storedIds ops :=
          fun hrestored ↦ not_typeIndexExact_of_restored hrestored hlast
        apply List.nodup_append.mpr
        refine ⟨hnodup, nodup_singleton _, ?_⟩
        intro id hid other hother heq
        have hid' : id = e.id := heq.trans (List.mem_singleton.mp hother)
        exact hfresh (hid' ▸ hid)
      | access moment id => simpa [Op.stored] using hnodup
      | decay moment => simpa [Op.stored] using hnodup
  · rintro hnodup past ⟨rest, rfl⟩
    apply typeIndexExact_of_nodup
    rw [storedIds, stores, filterMap_append, map_append] at hnodup
    exact hnodup.of_append_left

/-- A fact stored again as a skill is still listed among the facts. -/
theorem not_typeIndexExact_retyped :
    let moment : Moment := ⟨"2026-01-01T00:00:00Z".toList, fun _ ↦ none, fun _ _ ↦ 1⟩
    let note : MemoryEntry := ⟨"s1".toList, "cargo".toList, [], [], 0, 1 / 2, .semantic, [], none, [],
      ∅, .internal⟩
    ¬ ∀ past, past <+: [Op.store moment note .fact, Op.store moment note .skill] →
      TypeIndexExact past (run ⟨2592000, 1 / 20⟩ past) := by
  intro moment note hexact
  have hlast := hexact _ (prefix_refl _)
  have hids : ((run ⟨2592000, 1 / 20⟩ [Op.store moment note .fact,
      Op.store moment note .skill]).byType .fact).map MemoryEntry.id = ["s1".toList] := by
    decide +kernel
  obtain ⟨e, he, hid⟩ := List.mem_map.mp (hids ▸ mem_singleton_self "s1".toList)
  have hfact := ((hlast.mem_iff .fact e).mp he).2
  rw [hid] at hfact
  exact absurd hfact (by decide)

end SoulSystem.Hierarchy.SemanticStore
