import SoulSystem.Library.Machine
import SoulSystem.Agent.ProvenanceLog

/-!
# The provenance log never misreports trust

Every turn of the two eviction loops keeps the log coherent with the history of the records: the
queue lists the keys of the index, no key is both indexed and demoted, what is retained of a key is
the trust of its latest record, and every recorded key of which nothing is retained was counted.
-/

namespace SoulSystem.Agent.ProvenanceLog

open Library Std List SortedMap

variable {Text : Type} {json : IndexJson Text} {iteration : Iteration} {history : List MemoryProvenance}
  {s : ProvenanceLog} {p : MemoryProvenance} {k : Str}

/-! ## Keys -/

theorem label_injective : Function.Injective MemoryStore.label := by
  intro store other
  cases store <;> cases other <;> decide

/-- No label has the separator in it. -/
theorem takeWhile_keyOf (store : MemoryStore) (uri : Str) :
    (keyOf store uri).takeWhile (fun c ↦ c ≠ Char.ofNat 0) = store.label := by
  have hlabel : store.label.all (fun c ↦ c ≠ Char.ofNat 0) = true := by
    cases store <;> decide
  rw [keyOf, takeWhile_append_of_pos (List.all_eq_true.mp hlabel), takeWhile_cons_of_neg (by simp),
    append_nil]

theorem keyOf_injective {store other : MemoryStore} {uri uri' : Str}
    (hkey : keyOf store uri = keyOf other uri') : store = other ∧ uri = uri' := by
  have hstore : store = other := by
    apply label_injective
    rw [← takeWhile_keyOf store uri, hkey, takeWhile_keyOf]
  subst hstore
  exact ⟨rfl, (List.cons.inj (append_cancel_left hkey)).2⟩

theorem key_eq_keyOf {store : MemoryStore} {uri : Str} :
    key p = keyOf store uri ↔ p.store = store ∧ p.uri = uri := by
  constructor
  · exact keyOf_injective
  · rintro ⟨rfl, rfl⟩
    rfl

/-! ## Coherence with a history -/

/-- The trust of the most recent record under a key. -/
def keyTrust (history : List MemoryProvenance) (k : Str) : Option TrustLevel :=
  (history.reverse.find? fun p ↦ key p = k).map MemoryProvenance.trust

theorem keyTrust_concat :
    keyTrust (history ++ [p]) k = if key p = k then some p.trust else keyTrust history k := by
  rw [keyTrust, reverse_append, reverse_singleton, singleton_append,
    find?_cons]
  by_cases hkey : key p = k
  · simp [hkey]
  · simp [hkey, keyTrust]

/-- The recorded keys of which a log retains nothing. -/
def lostKeys (history : List MemoryProvenance) (s : ProvenanceLog) : Finset Str :=
  (history.map key).toFinset.filter fun k ↦ k ∉ s.latest ∧ k ∉ s.demoted

theorem mem_lostKeys :
    k ∈ lostKeys history s ↔ k ∈ history.map key ∧ k ∉ s.latest ∧ k ∉ s.demoted := by
  rw [lostKeys, Finset.mem_filter, mem_toFinset]

structure Coherent (history : List MemoryProvenance) (s : ProvenanceLog) : Prop where
  keyed : ∀ (k : Str) (p : MemoryProvenance), s.latest[k]? = some p → key p = k
  disjoint : ∀ k, k ∈ s.latest → k ∉ s.demoted
  nodup : s.indexOrder.Nodup
  mem_indexOrder : ∀ k, k ∈ s.indexOrder ↔ k ∈ s.latest
  latest_trust : ∀ (k : Str) (p : MemoryProvenance), s.latest[k]? = some p →
    keyTrust history k = some p.trust
  demoted_trust : ∀ (k : Str) (t : TrustLevel), s.demoted[k]? = some t →
    keyTrust history k = some t
  lost : (lostKeys history s).card ≤ s.forgotten
  path : s.path.isSome

namespace Coherent

theorem index (hcoherent : Coherent history s) (p : MemoryProvenance) :
    Coherent (history ++ [p]) (s.index p) where
  keyed k q hq := by
    rw [ProvenanceLog.index, ExtTreeMap.getElem?_insert] at hq
    split at hq
    · next heq => rw [← Option.some.inj hq, LawfulEqCmp.eq_of_compare heq]
    · exact hcoherent.keyed k q hq
  disjoint k hk := by
    rw [ProvenanceLog.index, SortedMap.mem_insert_iff] at hk
    rw [ProvenanceLog.index, mem_erase_iff]
    rintro ⟨hne, hdemoted⟩
    cases hk with
    | inl heq => exact hne heq
    | inr hmem => exact hcoherent.disjoint k hmem hdemoted
  nodup := by
    rw [ProvenanceLog.index]
    dsimp only
    split
    · exact hcoherent.nodup
    · next hnew =>
        rw [← hcoherent.mem_indexOrder] at hnew
        exact List.nodup_append.mpr ⟨hcoherent.nodup, nodup_singleton _, fun a ha b hb heq ↦
          hnew (List.mem_singleton.mp hb ▸ heq ▸ ha)⟩
  mem_indexOrder k := by
    rw [ProvenanceLog.index]
    dsimp only
    rw [SortedMap.mem_insert_iff]
    split
    · next hold =>
        rw [hcoherent.mem_indexOrder]
        exact ⟨Or.inr, fun hmem ↦ hmem.elim (fun heq ↦ heq ▸ hold) id⟩
    · rw [mem_append, mem_singleton, hcoherent.mem_indexOrder, or_comm, eq_comm]
  latest_trust k q hq := by
    rw [ProvenanceLog.index, ExtTreeMap.getElem?_insert] at hq
    rw [keyTrust_concat]
    split at hq
    · next heq => rw [if_pos (LawfulEqCmp.eq_of_compare heq), Option.some.inj hq]
    · next hne =>
        rw [if_neg (by rwa [LawfulEqCmp.compare_eq_iff_eq] at hne)]
        exact hcoherent.latest_trust k q hq
  demoted_trust k t ht := by
    rw [ProvenanceLog.index, ExtTreeMap.getElem?_erase] at ht
    rw [keyTrust_concat]
    split at ht
    · exact absurd ht (by simp)
    · next hne =>
        rw [if_neg (by rwa [LawfulEqCmp.compare_eq_iff_eq] at hne)]
        exact hcoherent.demoted_trust k t ht
  lost := by
    have hsubset : lostKeys (history ++ [p]) (s.index p) ⊆ lostKeys history s := by
      intro k hk
      rw [mem_lostKeys, ProvenanceLog.index, SortedMap.mem_insert_iff,
        mem_erase_iff] at hk
      obtain ⟨hrecorded, hlatest, hdemoted⟩ := hk
      have hne : k ≠ key p := fun heq ↦ hlatest (Or.inl heq)
      rw [map_append, mem_append, map_singleton, mem_singleton] at hrecorded
      exact mem_lostKeys.mpr ⟨hrecorded.resolve_right hne, fun hmem ↦ hlatest (Or.inr hmem),
        fun hmem ↦ hdemoted ⟨hne, hmem⟩⟩
    exact (Finset.card_le_card hsubset).trans hcoherent.lost
  path := hcoherent.path

/-- The key at the front of the queue is in the index. -/
theorem exists_latest {old : Str} {rest : List Str} (hcoherent : Coherent history s)
    (horder : s.indexOrder = old :: rest) : ∃ p, s.latest[old]? = some p := by
  apply exists_getElem?_of_mem
  rw [← hcoherent.mem_indexOrder, horder]
  exact mem_cons_self

theorem demoteOldest_eq {old : Str} {rest : List Str} (horder : s.indexOrder = old :: rest)
    (hlatest : s.latest[old]? = some p) : s.demoteOldest = { s with
      indexOrder := rest
      latest := s.latest.erase old
      demoted := s.demoted.insert old p.trust } := by
  rw [demoteOldest, horder]
  dsimp only
  rw [hlatest]

theorem demoteOldest (hcoherent : Coherent history s)
    (hlong : indexCapacity < s.indexOrder.length) : Coherent history s.demoteOldest ∧
      s.demoteOldest.indexOrder.length < s.indexOrder.length := by
  cases horder : s.indexOrder with
  | nil => exact absurd hlong (by simp [horder])
  | cons old rest =>
    obtain ⟨p, hp⟩ := hcoherent.exists_latest horder
    have hnodup := hcoherent.nodup
    rw [horder] at hnodup
    obtain ⟨hold, hrest⟩ := List.nodup_cons.mp hnodup
    rw [demoteOldest_eq horder hp]
    refine ⟨?_, by simp⟩
    exact {
      keyed := fun k q hq ↦ hcoherent.keyed k q (getElem?_of_getElem?_erase hq)
      disjoint := fun k hk hdemoted ↦ by
        obtain ⟨hne, hmem⟩ := SortedMap.mem_erase_iff.mp hk
        cases SortedMap.mem_insert_iff.mp hdemoted with
        | inl heq => exact hne heq
        | inr hdemoted => exact hcoherent.disjoint k hmem hdemoted
      nodup := hrest
      mem_indexOrder := fun k ↦ by
        have hmem := hcoherent.mem_indexOrder k
        rw [horder, mem_cons] at hmem
        rw [mem_erase_iff, ← hmem]
        constructor
        · exact fun hk ↦ ⟨fun heq ↦ hold (heq ▸ hk), Or.inr hk⟩
        · exact fun hk ↦ hk.2.resolve_left hk.1
      latest_trust := fun k q hq ↦
        hcoherent.latest_trust k q (getElem?_of_getElem?_erase hq)
      demoted_trust := fun k t ht ↦ by
        rw [ExtTreeMap.getElem?_insert] at ht
        split at ht
        · next heq =>
            rw [← LawfulEqCmp.eq_of_compare heq, ← Option.some.inj ht]
            exact hcoherent.latest_trust old p hp
        · exact hcoherent.demoted_trust k t ht
      lost := by
        have hsubset : lostKeys history { s with
            indexOrder := rest
            latest := s.latest.erase old
            demoted := s.demoted.insert old p.trust } ⊆ lostKeys history s := by
          intro k hk
          rw [mem_lostKeys, SortedMap.mem_insert_iff, mem_erase_iff] at hk
          obtain ⟨hrecorded, hlatest, hdemoted⟩ := hk
          have hne : k ≠ old := fun heq ↦ hdemoted (Or.inl heq)
          exact mem_lostKeys.mpr ⟨hrecorded, fun hmem ↦ hlatest ⟨hne, hmem⟩,
            fun hmem ↦ hdemoted (Or.inr hmem)⟩
        exact (Finset.card_le_card hsubset).trans hcoherent.lost
      path := hcoherent.path }

/-- A map with an entry has a first key. -/
theorem exists_head?_keys (iteration : Iteration) {m : ExtTreeMap Str TrustLevel}
    (hsize : 0 < m.size) : ∃ k, (iteration.keys m).head? = some k ∧ k ∈ m := by
  have hlength : (iteration.keys m).length = m.size := by
    rw [(iteration.perm m).length_eq, ExtTreeMap.length_keys]
  cases hkeys : iteration.keys m with
  | nil =>
    rw [hkeys, length_nil] at hlength
    omega
  | cons k rest =>
    refine ⟨k, rfl, ExtTreeMap.mem_keys.mp ((iteration.perm m).mem_iff.mp ?_)⟩
    rw [hkeys]
    exact mem_cons_self

theorem forgetFirst (iteration : Iteration) (hcoherent : Coherent history s)
    (hlarge : indexCapacity < s.demoted.size) :
    Coherent history (s.forgetFirst iteration) ∧
      (s.forgetFirst iteration).demoted.size < s.demoted.size := by
  obtain ⟨k, hfirst, hk⟩ := exists_head?_keys iteration (Nat.zero_lt_of_lt hlarge)
  have hforget : s.forgetFirst iteration =
      { s with demoted := s.demoted.erase k, forgotten := s.forgotten + 1 } := by
    rw [ProvenanceLog.forgetFirst, hfirst]
  have hsize : (s.demoted.erase k).size < s.demoted.size := by
    rw [ExtTreeMap.size_erase, if_pos (ExtTreeMap.contains_iff_mem.mpr hk)]
    exact Nat.sub_lt (size_pos_of_mem hk) one_pos
  rw [hforget]
  refine ⟨?_, hsize⟩
  exact {
    keyed := hcoherent.keyed
    disjoint := fun k hk hdemoted ↦
      hcoherent.disjoint k hk (SortedMap.mem_erase_iff.mp hdemoted).2
    nodup := hcoherent.nodup
    mem_indexOrder := hcoherent.mem_indexOrder
    latest_trust := hcoherent.latest_trust
    demoted_trust := fun k t ht ↦
      hcoherent.demoted_trust k t (getElem?_of_getElem?_erase ht)
    lost := by
      have hsubset : lostKeys history
          { s with demoted := s.demoted.erase k, forgotten := s.forgotten + 1 } ⊆
            insert k (lostKeys history s) := by
        intro x hx
        rw [mem_lostKeys, mem_erase_iff] at hx
        rw [Finset.mem_insert, mem_lostKeys]
        by_cases heq : x = k
        · exact Or.inl heq
        · exact Or.inr ⟨hx.1, hx.2.1, fun hmem ↦ hx.2.2 ⟨heq, hmem⟩⟩
      calc (lostKeys history
            { s with demoted := s.demoted.erase k, forgotten := s.forgotten + 1 }).card
          ≤ (insert k (lostKeys history s)).card := Finset.card_le_card hsubset
        _ ≤ (lostKeys history s).card + 1 := Finset.card_insert_le k _
        _ ≤ s.forgotten + 1 := Nat.add_le_add_right hcoherent.lost 1
    path := hcoherent.path }

theorem indexOrder_forgetFirst (iteration : Iteration) (s : ProvenanceLog) :
    (s.forgetFirst iteration).indexOrder = s.indexOrder := by
  rw [ProvenanceLog.forgetFirst]
  split <;> rfl

end Coherent

/-- Both maps are within the capacity of the index. -/
structure Bounded (s : ProvenanceLog) : Prop where
  indexOrder : s.indexOrder.length ≤ indexCapacity
  demoted : s.demoted.size ≤ indexCapacity

/-- A log that is coherent with a history and within its bounds. -/
structure Inv (history : List MemoryProvenance) (s : ProvenanceLog) : Prop where
  coherent : Coherent history s
  bounded : Bounded s

/-- Cutting the ring changes nothing that the index says. -/
theorem Inv.withEntries (hinv : Inv history s) (entries : List MemoryProvenance) :
    Inv history { s with entries } := by
  obtain ⟨⟨keyed, disjoint, nodup, mem, latest, demoted, lost, path⟩, ⟨order, size⟩⟩ := hinv
  exact ⟨⟨keyed, disjoint, nodup, mem, latest, demoted, lost, path⟩, ⟨order, size⟩⟩

theorem Coherent.inv_record (hcoherent : Coherent history s) (iteration : Iteration)
    (p : MemoryProvenance) : Inv (history ++ [p]) (s.record iteration p) := by
  have hdemote : ∀ s : ProvenanceLog, Coherent (history ++ [p]) s →
      indexCapacity < s.indexOrder.length → Coherent (history ++ [p]) s.demoteOldest ∧
        s.demoteOldest.indexOrder.length < s.indexOrder.length :=
    fun s hs hlong ↦ hs.demoteOldest hlong
  have hforget : ∀ s : ProvenanceLog,
      Coherent (history ++ [p]) s ∧ s.indexOrder.length ≤ indexCapacity →
        indexCapacity < s.demoted.size →
        (Coherent (history ++ [p]) (s.forgetFirst iteration) ∧
          (s.forgetFirst iteration).indexOrder.length ≤ indexCapacity) ∧
          (s.forgetFirst iteration).demoted.size < s.demoted.size := by
    intro s hs hlarge
    obtain ⟨hnext, hlower⟩ := Coherent.forgetFirst iteration hs.1 hlarge
    rw [Coherent.indexOrder_forgetFirst]
    exact ⟨⟨hnext, hs.2⟩, hlower⟩
  obtain ⟨hdemoted, horder⟩ := Loop.inv_and_exit (fun s : ProvenanceLog ↦ s.indexOrder.length)
    hdemote
    (hcoherent.index p) le_rfl
  obtain ⟨⟨hkept, hlength⟩, hsize⟩ :=
    Loop.inv_and_exit (fun s : ProvenanceLog ↦ s.demoted.size) hforget ⟨hdemoted, Nat.le_of_not_lt horder⟩ le_rfl
  exact Inv.withEntries ⟨hkept, hlength, Nat.le_of_not_lt hsize⟩ _

/-! ## Restarts -/

theorem foldl_loadEntry {ps : List MemoryProvenance} (hnodup : (ps.map key).Nodup)
    (hnew : ∀ p ∈ ps, key p ∉ s.latest) :
    (ps.foldl loadEntry s).indexOrder = s.indexOrder ++ ps.map key ∧
      (ps.foldl loadEntry s).latest = ps.foldl (fun m p ↦ m.insert (key p) p) s.latest ∧
      (ps.foldl loadEntry s).path = s.path := by
  induction ps generalizing s with
  | nil => exact ⟨(append_nil _).symm, rfl, rfl⟩
  | cons p ps ih =>
    obtain ⟨hp, hrest⟩ := List.nodup_cons.mp hnodup
    have hnext : ∀ q ∈ ps, key q ∉ (s.loadEntry p).latest := by
      intro q hq hmem
      cases SortedMap.mem_insert_iff.mp hmem with
      | inl heq => exact hp (heq ▸ mem_map_of_mem hq)
      | inr hmem => exact hnew q (mem_cons_of_mem p hq) hmem
    obtain ⟨horder, hlatest, hpath⟩ := ih hrest hnext
    rw [foldl_cons, horder, hlatest, hpath]
    refine ⟨?_, rfl, rfl⟩
    rw [loadEntry]
    dsimp only
    rw [if_neg (hnew p mem_cons_self), map_cons, append_assoc,
      singleton_append]

/-- The entries of a map, listed by its keys in any order, make up that map again. -/
theorem foldl_insert_keys {β : Type} (m : ExtTreeMap Str β) {keys : List Str}
    (hkeys : keys.Perm m.keys) :
    (keys.filterMap fun k ↦ m[k]?.map fun v ↦ (k, v)).foldl
      (fun m pair ↦ m.insert pair.1 pair.2) (∅ : ExtTreeMap Str β) = m := by
  have hfst : ((keys.filterMap fun k ↦ m[k]?.map fun v ↦ (k, v)).map Prod.fst).Nodup := by
    rw [map_filterMap]
    apply List.Nodup.filterMap _ (hkeys.nodup_iff.mpr (nodup_keys m))
    intro a b c hc hc'
    obtain ⟨pair, hpair, rfl⟩ := Option.map_eq_some_iff.mp hc
    obtain ⟨v, _, rfl⟩ := Option.map_eq_some_iff.mp hpair
    obtain ⟨pair', hpair', heq⟩ := Option.map_eq_some_iff.mp hc'
    obtain ⟨v', _, rfl⟩ := Option.map_eq_some_iff.mp hpair'
    exact heq.symm
  apply ExtTreeMap.ext_getElem?
  intro k
  cases hvalue : m[k]? with
  | none =>
    have hnot : k ∉ (keys.filterMap fun k ↦ m[k]?.map fun v ↦ (k, v)).map Prod.fst := by
      intro hmem
      obtain ⟨⟨k', v⟩, hpair, rfl⟩ := List.mem_map.mp hmem
      obtain ⟨x, _, hx⟩ := List.mem_filterMap.mp hpair
      obtain ⟨v', hv', heq⟩ := Option.map_eq_some_iff.mp hx
      obtain ⟨rfl, rfl⟩ := Prod.mk.inj heq
      exact absurd (hvalue.symm.trans hv') (by simp)
    have hfold := getElem?_foldl_insert_of_notMem id
      (∅ : ExtTreeMap Str β) hnot
    exact hfold.trans ExtTreeMap.getElem?_empty
  | some v =>
    apply getElem?_foldl_insert_of_mem id _ hfst
    apply List.mem_filterMap.mpr
    refine ⟨k, ?_, by rw [hvalue, Option.map_some]⟩
    exact hkeys.mem_iff.mpr (ExtTreeMap.mem_keys.mpr (mem_of_getElem?_eq_some hvalue))

/-- What is read back of an index that was just written. -/
theorem exists_restart (hcoherent : Coherent history s) (json : IndexJson Text) (iteration : Iteration)
    (capacity : ℕ) : ∃ s', s.restart json iteration capacity = .ok s' ∧ s'.latest = s.latest ∧
      s'.demoted = s.demoted ∧ s'.forgotten = s.forgotten ∧
      s'.indexOrder = iteration.keys s.latest ∧ s'.path = s.path := by
  obtain ⟨path, hpath⟩ := Option.isSome_iff_exists.mp hcoherent.path
  let start : ProvenanceLog := { withCapacity capacity with path := some path }
  have hperm := iteration.perm s.latest
  have hentries : ∀ k ∈ iteration.keys s.latest, ∃ p, s.latest[k]? = some p ∧ key p = k := by
    intro k hk
    obtain ⟨p, hp⟩ := exists_getElem?_of_mem (ExtTreeMap.mem_keys.mp (hperm.mem_iff.mp hk))
    exact ⟨p, hp, hcoherent.keyed k p hp⟩
  have hkeys : (s.durable iteration).entries.map key = iteration.keys s.latest := by
    rw [durable, map_filterMap]
    have hsome : ∀ k ∈ iteration.keys s.latest, s.latest[k]?.map key = some k := by
      intro k hk
      obtain ⟨p, hp, hkey⟩ := hentries k hk
      rw [hp, Option.map_some, hkey]
    rw [filterMap_congr hsome, filterMap_some]
  have hpairs : (s.durable iteration).entries.map (fun p ↦ (key p, p)) =
      (iteration.keys s.latest).filterMap fun k ↦ s.latest[k]?.map fun p ↦ (k, p) := by
    rw [durable, map_filterMap]
    apply filterMap_congr
    intro k hk
    obtain ⟨p, hp, hkey⟩ := hentries k hk
    rw [hp, Option.map_some, Option.map_some, hkey]
  have hnodup : ((s.durable iteration).entries.map key).Nodup := by
    rw [hkeys]
    exact hperm.nodup_iff.mpr (nodup_keys s.latest)
  obtain ⟨horder, hlatest, hpath'⟩ := @foldl_loadEntry start _ hnodup
    fun p _ hmem ↦ absurd hmem ExtTreeMap.not_mem_empty
  refine ⟨{ (s.durable iteration).entries.foldl loadEntry start with
    demoted := (s.durable iteration).demoted.foldl (fun m pair ↦ m.insert pair.1 pair.2) ∅
    forgotten := s.forgotten }, ?_, ?_, ?_, rfl, ?_, ?_⟩
  · rw [restart, persist, hpath]
    change ProvenanceLog.open json path (some (json.toString (s.durable iteration))) capacity = _
    rw [ProvenanceLog.open]
    dsimp only
    rw [json.lossless]
    rfl
  · have hmap : ((s.durable iteration).entries.map fun p ↦ (key p, p)).foldl
        (fun m pair ↦ m.insert pair.1 pair.2) (∅ : ExtTreeMap Str MemoryProvenance) =
          (s.durable iteration).entries.foldl (fun m p ↦ m.insert (key p) p) ∅ := foldl_map
    rw [hpairs, foldl_insert_keys s.latest hperm] at hmap
    exact hlatest.trans hmap.symm
  · exact foldl_insert_keys s.demoted (iteration.perm s.demoted)
  · exact horder.trans ((nil_append _).trans hkeys)
  · exact hpath'.trans hpath.symm

/-- A log that agrees with another one on the maps and the count tells the same. -/
theorem lookup_congr {s' : ProvenanceLog} (hlatest : s'.latest = s.latest)
    (hdemoted : s'.demoted = s.demoted) (store : MemoryStore) (uri : Str) :
    s'.lookup store uri = s.lookup store uri := by
  rw [lookup, lookup, hlatest, hdemoted]

theorem Inv.of_restart {s' : ProvenanceLog} {capacity : ℕ} (hinv : Inv history s)
    (hrestart : s.restart json iteration capacity = .ok s') : Inv history s' := by
  obtain ⟨loaded, hloaded, hlatest, hdemoted, hforgotten, horder, hpath⟩ :=
    exists_restart hinv.coherent json iteration capacity
  rw [hrestart] at hloaded
  cases hloaded
  obtain ⟨⟨keyed, disjoint, nodup, mem, latest, demoted, lost, path⟩, ⟨hlength, hsize⟩⟩ := hinv
  have hperm := iteration.perm s.latest
  have hmem : ∀ k, k ∈ iteration.keys s.latest ↔ k ∈ s.latest := by
    intro k
    rw [hperm.mem_iff, ExtTreeMap.mem_keys]
  have hnodup : (iteration.keys s.latest).Nodup :=
    hperm.nodup_iff.mpr (nodup_keys s.latest)
  have hsame : (iteration.keys s.latest).Perm s.indexOrder := by
    apply (perm_ext_iff_of_nodup hnodup nodup).mpr
    intro k
    rw [hmem, mem]
  have hlost : lostKeys history s' = lostKeys history s := by
    rw [lostKeys, lostKeys, hlatest, hdemoted]
  constructor
  · constructor
    · rwa [hlatest]
    · rwa [hlatest, hdemoted]
    · rwa [horder]
    · rw [horder, hlatest]
      exact hmem
    · rwa [hlatest]
    · rwa [hdemoted]
    · rwa [hlost, hforgotten]
    · rwa [hpath]
  · constructor
    · rwa [horder, hsame.length_eq]
    · rwa [hdemoted]

/-! ## Runs -/

inductive Event where
  | record (iteration : Iteration) (p : MemoryProvenance)
  | restart (iteration : Iteration) (capacity : ℕ)

def machine (json : IndexJson Text) : Machine ProvenanceLog Event where
  step s
    | .record iteration p => some (s.record iteration p)
    | .restart iteration capacity => (s.restart json iteration capacity).toOption

/-- What a run records, oldest first. -/
def recorded (events : List Event) : List MemoryProvenance :=
  events.filterMap fun
    | .record _ p => some p
    | .restart _ _ => none

/-- The trust of the most recent record for a store and a locator. -/
def lastTrust (history : List MemoryProvenance) (store : MemoryStore) (uri : Str) :
    Option TrustLevel :=
  (history.reverse.find? fun p ↦ p.store = store ∧ p.uri = uri).map MemoryProvenance.trust

theorem lastTrust_eq_keyTrust (history : List MemoryProvenance) (store : MemoryStore) (uri : Str) :
    lastTrust history store uri = keyTrust history (keyOf store uri) := by
  rw [lastTrust, keyTrust]
  congr 2
  funext p
  exact decide_eq_decide.mpr key_eq_keyOf.symm

/-- What a log with a history of records owes to its callers. -/
structure Trustworthy (json : IndexJson Text) (history : List MemoryProvenance) (s : ProvenanceLog) :
    Prop where
  disjoint : ∀ k, k ∈ s.latest → k ∉ s.demoted
  order_nodup : s.indexOrder.Nodup
  mem_order : ∀ k, k ∈ s.indexOrder ↔ k ∈ s.latest
  latest_size : s.latest.size ≤ indexCapacity
  demoted_size : s.demoted.size ≤ indexCapacity
  lookup : ∀ store uri, s.lookup store uri = .unknown ∨
    ∃ trust, (s.lookup store uri).trust = some trust ∧ lastTrust history store uri = some trust
  forgotten : ∀ p ∈ history, s.lookup p.store p.uri = .unknown → 0 < s.forgottenCount
  forgotten_card : (((history.map fun p ↦ (p.store, p.uri)).toFinset).filter
    fun record ↦ s.lookup record.1 record.2 = .unknown).card ≤ s.forgottenCount
  restart : ∀ iteration capacity, ∃ s', s.restart json iteration capacity = .ok s' ∧
    (∀ store uri, s'.lookup store uri = s.lookup store uri) ∧
    s'.forgottenCount = s.forgottenCount ∧ s'.demotedCount = s.demotedCount

theorem lookup_eq_unknown_iff {store : MemoryStore} {uri : Str} :
    s.lookup store uri = .unknown ↔ keyOf store uri ∉ s.latest ∧ keyOf store uri ∉ s.demoted := by
  rw [lookup, ← SortedMap.getElem?_eq_none_iff, ← SortedMap.getElem?_eq_none_iff]
  cases s.latest[keyOf store uri]? with
  | some p => simp
  | none => cases s.demoted[keyOf store uri]? <;> simp

theorem lookup_trust (hcoherent : Coherent history s) (store : MemoryStore) (uri : Str) :
    s.lookup store uri = .unknown ∨
      ∃ trust, (s.lookup store uri).trust = some trust ∧
        lastTrust history store uri = some trust := by
  rw [lookup, lastTrust_eq_keyTrust]
  cases hlatest : s.latest[keyOf store uri]? with
  | some p => exact Or.inr ⟨p.trust, rfl, hcoherent.latest_trust _ p hlatest⟩
  | none =>
    cases hdemoted : s.demoted[keyOf store uri]? with
    | some trust => exact Or.inr ⟨trust, rfl, hcoherent.demoted_trust _ trust hdemoted⟩
    | none => exact Or.inl rfl

theorem card_unknown_le (hcoherent : Coherent history s) :
    (((history.map fun p ↦ (p.store, p.uri)).toFinset).filter
      fun record ↦ s.lookup record.1 record.2 = .unknown).card ≤ s.forgotten := by
  have hmaps : ∀ record ∈ ((history.map fun p ↦ (p.store, p.uri)).toFinset).filter
      fun record ↦ s.lookup record.1 record.2 = .unknown,
      keyOf record.1 record.2 ∈ lostKeys history s := by
    rintro ⟨store, uri⟩ hrecord
    obtain ⟨hmem, hunknown⟩ := Finset.mem_filter.mp hrecord
    obtain ⟨p, hp, heq⟩ := List.mem_map.mp (List.mem_toFinset.mp hmem)
    obtain ⟨rfl, rfl⟩ := Prod.mk.inj heq
    exact mem_lostKeys.mpr ⟨List.mem_map.mpr ⟨p, hp, rfl⟩, lookup_eq_unknown_iff.mp hunknown⟩
  apply (Finset.card_le_card_of_injOn (fun record : MemoryStore × Str ↦
    keyOf record.1 record.2) hmaps _).trans hcoherent.lost
  rintro ⟨store, uri⟩ _ ⟨other, uri'⟩ _ hkey
  obtain ⟨rfl, rfl⟩ := keyOf_injective hkey
  rfl

theorem Inv.trustworthy (hinv : Inv history s) (json : IndexJson Text) : Trustworthy json history s where
  disjoint := hinv.coherent.disjoint
  order_nodup := hinv.coherent.nodup
  mem_order := hinv.coherent.mem_indexOrder
  latest_size := by
    have hsame : s.latest.keys.Perm s.indexOrder := by
      apply (perm_ext_iff_of_nodup (nodup_keys s.latest) hinv.coherent.nodup).mpr
      intro k
      rw [ExtTreeMap.mem_keys, hinv.coherent.mem_indexOrder]
    rw [← ExtTreeMap.length_keys, hsame.length_eq]
    exact hinv.bounded.indexOrder
  demoted_size := hinv.bounded.demoted
  lookup := lookup_trust hinv.coherent
  forgotten p hp hunknown := by
    have hlost : key p ∈ lostKeys history s :=
      mem_lostKeys.mpr ⟨mem_map_of_mem hp, lookup_eq_unknown_iff.mp hunknown⟩
    exact (Finset.card_pos.mpr ⟨key p, hlost⟩).trans_le hinv.coherent.lost
  forgotten_card := card_unknown_le hinv.coherent
  restart iteration capacity := by
    obtain ⟨s', hs', hlatest, hdemoted, hforgotten, _, _⟩ :=
      exists_restart hinv.coherent json iteration capacity
    exact ⟨s', hs', lookup_congr hlatest hdemoted, hforgotten,
      congrArg ExtTreeMap.size hdemoted⟩

theorem inv_open (json : IndexJson Text) (path : Str) (capacity : ℕ) :
    ∃ s, ProvenanceLog.open json path none capacity = .ok s ∧ Inv [] s := by
  refine ⟨_, rfl, ⟨?_, ⟨Nat.zero_le _, Nat.zero_le _⟩⟩⟩
  exact {
    keyed := fun k p hp ↦ absurd (hp.symm.trans ExtTreeMap.getElem?_empty) (by simp)
    disjoint := fun k hk ↦ absurd hk ExtTreeMap.not_mem_empty
    nodup := nodup_nil
    mem_indexOrder := fun k ↦ iff_of_false not_mem_nil ExtTreeMap.not_mem_empty
    latest_trust := fun k p hp ↦ absurd (hp.symm.trans ExtTreeMap.getElem?_empty) (by simp)
    demoted_trust := fun k t ht ↦ absurd (ht.symm.trans ExtTreeMap.getElem?_empty) (by simp)
    lost := Nat.le_refl _
    path := rfl }

/-- A run of records and restarts goes through, and what it leaves is coherent. -/
theorem exists_run (json : IndexJson Text) (events : List Event) (hinv : Inv history s) :
    ∃ s', (machine json).run s events = some s' ∧ Inv (history ++ recorded events) s' := by
  induction events generalizing s history with
  | nil => exact ⟨s, rfl, (append_nil history).symm ▸ hinv⟩
  | cons event events ih =>
    cases event with
    | record iteration p =>
      obtain ⟨s', hrun, hinv'⟩ := ih (hinv.coherent.inv_record iteration p)
      refine ⟨s', hrun, ?_⟩
      rwa [append_assoc] at hinv'
    | restart iteration capacity =>
      obtain ⟨next, hnext, _⟩ := exists_restart hinv.coherent json iteration capacity
      obtain ⟨s', hrun, hinv'⟩ := ih (hinv.of_restart hnext)
      refine ⟨s', ?_, hinv'⟩
      rw [Machine.run, machine]
      dsimp only
      rw [hnext]
      exact hrun

/-- **The log never misreports trust**, after any run of records and restarts. -/
theorem run_trustworthy (json : IndexJson Text) (path : Str) (capacity : ℕ) (events : List Event) :
    ∃ start s, ProvenanceLog.open json path none capacity = .ok start ∧
      (machine json).run start events = some s ∧ Trustworthy json (recorded events) s := by
  obtain ⟨start, hopen, hinv⟩ := inv_open json path capacity
  obtain ⟨s, hrun, hinv'⟩ := exists_run json events hinv
  exact ⟨start, s, hopen, hrun, hinv'.trustworthy json⟩

end SoulSystem.Agent.ProvenanceLog
