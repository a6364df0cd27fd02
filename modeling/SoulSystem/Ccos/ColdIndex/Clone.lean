import SoulSystem.Ccos.ColdIndex.CompactCrash

/-!
# A handle and its clone

Cloning a store copies the write buffer and the list of segments and shares the directory and the
read cache.  The source goes on with writes, flushes and reads, the clone only reads.  Segments are
never changed, so the clone's own data stay what they were; the cache is the one channel between
the handles.

The clone reads its snapshot exactly as long as the source caches nothing else: a read of the
source that takes a newer value from its segments puts that value where the clone looks first.
-/

namespace SoulSystem.Ccos.ColdIndex

open Library Library.LayeredMap Library.ByteCursor List

/-! ## Two handles on one directory -/

structure Pair where
  files : Files
  cache : Lru
  source : HuskStore
  clone : HuskStore

/-- `Clone` of a handle: the cache is shared through its `Arc`. -/
def State.clone (state : State) : Pair where
  files := state.files
  cache := state.cache
  source := state.store
  clone := state.store

def Pair.sourceState (pair : Pair) : State :=
  ⟨pair.files, pair.cache, pair.source⟩

def Pair.cloneState (pair : Pair) : State :=
  ⟨pair.files, pair.cache, pair.clone⟩

def Pair.withSource (pair : Pair) (state : State) : Pair :=
  { pair with files := state.files, cache := state.cache, source := state.store }

def Pair.withClone (pair : Pair) (state : State) : Pair :=
  { pair with files := state.files, cache := state.cache, clone := state.store }

/-- Writes, flushes and reads of the source, and reads of the clone. -/
inductive PairStep where
  | write (key : Str) (slot : Option Bytes)
  | flush
  | get (key : Str)
  | cloneGet (key : Str)

def runStep (pair : Pair) : PairStep → Pair × Except IoError Unit
  | .write key slot =>
    let outcome := writeSlot pair.sourceState key slot
    (pair.withSource outcome.1, outcome.2)
  | .flush =>
    let outcome := flush pair.sourceState
    (pair.withSource outcome.1, outcome.2)
  | .get key =>
    let outcome := get pair.sourceState key
    (pair.withSource outcome.1, outcome.2.map fun _ ↦ ())
  | .cloneGet key =>
    let outcome := get pair.cloneState key
    (pair.withClone outcome.1, outcome.2.map fun _ ↦ ())

def runSteps : Pair → List PairStep → Pair × Except IoError Unit
  | pair, [] => (pair, .ok ())
  | pair, step :: steps =>
    match runStep pair step with
    | (pair, .ok ()) => runSteps pair steps
    | (pair, .error e) => (pair, .error e)

/-- What a step may write fits the file format, and a sequence number is left for it. -/
def StepFits (pair : Pair) (step : PairStep) : Prop :=
  pair.source.nextSeq < 2 ^ 64 ∧
    match step with
    | .write key slot => Fits (slotRecords (pair.source.buffer.insert key slot))
    | .flush | .get _ | .cloneGet _ => True

def StepsFit : Pair → List PairStep → Prop
  | _, [] => True
  | pair, step :: steps => StepFits pair step ∧ StepsFit (runStep pair step).1 steps

/-- A read of the source that goes to its segments, with a cache to fill, finds a live value only
if the clone's segments have the same one, or the clone has the key in its buffer. -/
def StepSafe (pair : Pair) : PairStep → Prop
  | .get key =>
    pair.source.buffer[key]? = none → (pair.cache.get key).2 = none → pair.cache.cap ≠ 0 →
      pair.clone.buffer[key]? = none → ∀ value : Bytes,
      getSegments pair.files key pair.source.segments.reverse = .ok (some value) →
        getSegments pair.files key pair.clone.segments.reverse = .ok (some value)
  | .write _ _ | .flush | .cloneGet _ => True

def StepsSafe : Pair → List PairStep → Prop
  | _, [] => True
  | pair, step :: steps => StepSafe pair step ∧ StepsSafe (runStep pair step).1 steps

/-! ## The invariant of the pair -/

/-- The source stands over its own segments and the clone over the older ones it was made with. -/
structure PairInv (pair : Pair) (stale held cloned : List Entry) : Prop where
  source : HandleInv pair.files pair.source stale held
  segments : pair.clone.segments = cloned.map segmentOf
  holds : ∀ entry ∈ cloned, Holds pair.files entry
  below : ∀ entry ∈ cloned, entry.1 < pair.source.nextSeq
  bound : ∀ entry ∈ cloned, entry.1 < 2 ^ 64

/-- Every cached value that the clone can meet is the one it shows. -/
def CloneAgrees (cache : Lru) (clone : HuskStore) (cloned : List Entry) : Prop :=
  ∀ key : Str, ∀ cached : Bytes × ℕ, cache.map[key]? = some cached → clone.buffer[key]? = none →
    shown clone cloned key = some cached.1

theorem State.clone_inv {state : State} {stale held : List Entry}
    (hstate : Describes state stale held) : PairInv state.clone stale held held where
  source := hstate.inv
  segments := hstate.inv.segments
  holds := hstate.inv.holds
  below := fun entry hentry ↦ hstate.inv.below entry (mem_append_right _ hentry)
  bound := fun entry hentry ↦ hstate.inv.directory.bound entry (mem_append_right _ hentry)

section Steps

variable {pair : Pair} {stale held cloned : List Entry}

/-- Frame of a flush of the source: the clone's files are not touched. -/
theorem PairInv.flushed {state state' : State} (hpair : PairInv pair stale held cloned)
    (hfiles : state.files = pair.files) (hseq : state.store.nextSeq = pair.source.nextSeq)
    (hbound : pair.source.nextSeq < 2 ^ 64) (hflushed : Flushed state state' stale held) :
    PairInv (pair.withSource state') stale (held ++ flushedEntries state.store) cloned where
  source := hflushed.inv
  segments := hpair.segments
  holds := by
    intro entry hentry
    have hne : segName entry.1 ≠ segName state.store.nextSeq := by
      intro heq
      rw [hseq] at heq
      have hsame := segName_injOn (hpair.bound entry hentry) hbound heq
      exact absurd (hpair.below entry hentry) (by omega)
    refine ⟨?_, (hpair.holds entry hentry).fits⟩
    change state'.files[segName entry.1]? = _
    rw [hflushed.frame _ hne, hfiles]
    exact (hpair.holds entry hentry).file
  below := by
    intro entry hentry
    have hgrows := hflushed.grows
    rw [hseq] at hgrows
    exact (hpair.below entry hentry).trans_le hgrows
  bound := hpair.bound

/-- A read of the clone is right exactly when the cache does not hold another value for it. -/
theorem cloneGet_eq_iff (hpair : PairInv pair stale held cloned) (key : Str) :
    (get pair.cloneState key).2 = .ok (shown pair.clone cloned key) ↔
      ∀ cached, pair.cache.map[key]? = some cached → pair.clone.buffer[key]? = none →
        shown pair.clone cloned key = some cached.1 := by
  cases hbuffer : pair.clone.buffer[key]? with
  | some slot =>
    rw [@get_of_buffer pair.cloneState key slot hbuffer, shown_of_buffer_eq_some hbuffer]
    simp
  | none =>
    cases hcached : (pair.cache.get key).2 with
    | none =>
      have hnone : pair.cache.map[key]? = none := by
        cases hmap : pair.cache.map[key]? with
        | none => rfl
        | some cached =>
          have hsome := Lru.get_eq_some_iff.mpr ⟨cached.2, hmap⟩
          rw [hcached] at hsome
          exact absurd hsome (by simp)
      have hread := getSegments_shown hpair.segments hpair.holds hbuffer
      rw [@get_of_segments pair.cloneState key _ hbuffer hcached hread, hnone]
      simp
    | some value =>
      obtain ⟨clock, hmap⟩ := Lru.get_eq_some_iff.mp hcached
      rw [@get_of_cached pair.cloneState key value hbuffer hcached, hmap]
      simp [eq_comm]

/-- What a read can put into the cache: a value that was read from the segments. -/
theorem get_cache_cases {state : State} {held : List Entry}
    (hsegments : state.store.segments = held.map segmentOf)
    (hholds : ∀ entry ∈ held, Holds state.files entry) (key : Str) :
    ∃ cache found, get state key = ({ state with cache }, .ok found) ∧
      ∀ other cached, cache.map[other]? = some cached →
        (∃ clock, state.cache.map[other]? = some (cached.1, clock)) ∨
        state.cache.cap ≠ 0 ∧ key = other ∧ state.store.buffer[key]? = none ∧
          (state.cache.get key).2 = none ∧
          getSegments state.files key state.store.segments.reverse = .ok (some cached.1) := by
  cases hbuffer : state.store.buffer[key]? with
  | some slot =>
    exact ⟨_, _, get_of_buffer hbuffer, fun other cached hcached ↦ .inl ⟨cached.2, hcached⟩⟩
  | none =>
    cases hcached : (state.cache.get key).2 with
    | some value =>
      exact ⟨_, _, get_of_cached hbuffer hcached, fun other cached hmap ↦ .inl (Lru.get_map hmap)⟩
    | none =>
      have hread := getSegments_shown hsegments hholds hbuffer
      refine ⟨_, _, get_of_segments hbuffer hcached hread, ?_⟩
      intro other cached hmap
      cases hshown : shown state.store held key with
      | none =>
        rw [hshown] at hmap
        exact .inl (Lru.get_map hmap)
      | some value =>
        rw [hshown] at hmap hread
        rcases Lru.insert_map hmap with hnew | hold
        · rw [Lru.get_fst_cap] at hnew
          rw [hnew.2.2]
          exact .inr ⟨hnew.1, hnew.2.1, rfl, rfl, hread⟩
        · exact .inl (Lru.get_map hold)

theorem CloneAgrees.remove {cache : Lru} {clone : HuskStore}
    (hagrees : CloneAgrees cache clone cloned) (key : Str) :
    CloneAgrees (cache.remove key) clone cloned := by
  intro other cached hcached
  exact hagrees other cached (Lru.remove_map hcached).2

/-- A write of the source leaves the clone as it was. -/
theorem PairInv.writeSlot (hpair : PairInv pair stale held cloned) {key : Str} {slot : Option Bytes}
    (hseq : pair.source.nextSeq < 2 ^ 64)
    (hfits : Fits (slotRecords (pair.source.buffer.insert key slot))) :
    ∃ state' held', writeSlot pair.sourceState key slot = (state', .ok ()) ∧
      state'.cache = pair.cache.remove key ∧
      PairInv (pair.withSource state') stale held' cloned := by
  have hsource : HandleInv pair.sourceState.files pair.sourceState.store stale held := hpair.source
  rcases writeSlot_spec hsource hseq hfits with hkept | hflushed
  · exact ⟨_, held, hkept.1, rfl, hkept.2, hpair.segments, hpair.holds, hpair.below, hpair.bound⟩
  · obtain ⟨state', hwrite, hflushed⟩ := hflushed
    exact ⟨state', _, hwrite, hflushed.cache, hpair.flushed rfl rfl hseq hflushed⟩

/-- A read of the source keeps the clone's reads right exactly when it is safe. -/
theorem PairInv.get (hpair : PairInv pair stale held cloned)
    (hagrees : CloneAgrees pair.cache pair.clone cloned) (key : Str) :
    ∃ cache found, get pair.sourceState key = ({ pair.sourceState with cache }, .ok found) ∧
      (CloneAgrees cache pair.clone cloned ↔ StepSafe pair (.get key)) := by
  obtain ⟨cache, found, hget, hcases⟩ :=
    @get_cache_cases pair.sourceState held hpair.source.segments hpair.source.holds key
  have hclone (hbuffer : pair.clone.buffer[key]? = none) :
      getSegments pair.files key pair.clone.segments.reverse = .ok (shown pair.clone cloned key) :=
    getSegments_shown hpair.segments hpair.holds hbuffer
  refine ⟨cache, found, hget, ?_, ?_⟩
  · intro hcache hbuffer hcached hcap hcloneBuffer value hread
    have hfill := @get_of_segments pair.sourceState key _ hbuffer hcached hread
    rw [hget, Prod.mk.injEq] at hfill
    have hcacheEq : cache = (pair.cache.get key).1.insert key value :=
      congrArg State.cache hfill.1
    have hself : ((pair.cache.get key).1.insert key value).map[key]? =
        some (value, (pair.cache.get key).1.clock + 1) := by
      apply Lru.insert_self
      rw [Lru.get_fst_cap]
      exact hcap
    rw [← hcacheEq] at hself
    rw [hclone hcloneBuffer, hcache key _ hself hcloneBuffer]
  · intro hsafe other cached hmap hbuffer
    rcases hcases other cached hmap with hold | hnew
    · obtain ⟨clock, hold⟩ := hold
      exact hagrees other (cached.1, clock) hold hbuffer
    · obtain ⟨hcap, rfl, hsourceBuffer, hcached, hread⟩ := hnew
      have hsame := hsafe hsourceBuffer hcached hcap hbuffer cached.1 hread
      rw [hclone hbuffer] at hsame
      exact Except.ok.inj hsame

/-- A read of the clone caches only what the clone shows. -/
theorem PairInv.cloneGet (hpair : PairInv pair stale held cloned)
    (hagrees : CloneAgrees pair.cache pair.clone cloned) (key : Str) :
    ∃ cache found, ColdIndex.get pair.cloneState key =
        ({ pair.cloneState with cache }, .ok found) ∧
      CloneAgrees cache pair.clone cloned := by
  obtain ⟨cache, found, hget, hcases⟩ :=
    @get_cache_cases pair.cloneState cloned hpair.segments hpair.holds key
  refine ⟨cache, found, hget, ?_⟩
  intro other cached hmap hbuffer
  rcases hcases other cached hmap with hold | hnew
  · obtain ⟨clock, hold⟩ := hold
    exact hagrees other (cached.1, clock) hold hbuffer
  · obtain ⟨-, rfl, -, -, hread⟩ := hnew
    have hshown : getSegments pair.files key pair.clone.segments.reverse =
        .ok (shown pair.clone cloned key) :=
      getSegments_shown hpair.segments hpair.holds hbuffer
    exact Except.ok.inj (hshown.symm.trans hread)

/-- A safe step keeps the clone's reads right, any other one breaks them. -/
theorem PairInv.runStep (hpair : PairInv pair stale held cloned)
    (hagrees : CloneAgrees pair.cache pair.clone cloned) {step : PairStep}
    (hfits : StepFits pair step) :
    ∃ pair' held', runStep pair step = (pair', .ok ()) ∧ PairInv pair' stale held' cloned ∧
      pair'.clone = pair.clone ∧
      (CloneAgrees pair'.cache pair'.clone cloned ↔ StepSafe pair step) := by
  cases step with
  | write key slot =>
    obtain ⟨state', held', hwrite, hcache, hpair'⟩ := hpair.writeSlot hfits.1 hfits.2
    refine ⟨pair.withSource state', held', ?_, hpair', rfl, ?_⟩
    · simp only [ColdIndex.runStep, hwrite]
    · have hremoved := hagrees.remove key
      rw [← hcache] at hremoved
      exact ⟨fun _ ↦ trivial, fun _ ↦ hremoved⟩
  | flush =>
    have hsource : HandleInv pair.sourceState.files pair.sourceState.store stale held :=
      hpair.source
    obtain ⟨state', hflush, hflushed⟩ := flush_spec hsource hfits.1
    refine ⟨pair.withSource state', _, ?_, hpair.flushed rfl rfl hfits.1 hflushed, rfl, ?_⟩
    · simp only [ColdIndex.runStep, hflush]
    · have hkept := hagrees
      have hcache : state'.cache = pair.cache := hflushed.cache
      rw [← hcache] at hkept
      exact ⟨fun _ ↦ trivial, fun _ ↦ hkept⟩
  | get key =>
    obtain ⟨cache, found, hget, hiff⟩ := hpair.get hagrees key
    refine ⟨{ pair with cache }, held, ?_,
      ⟨hpair.source, hpair.segments, hpair.holds, hpair.below, hpair.bound⟩, rfl, hiff⟩
    simp only [ColdIndex.runStep, hget]
    rfl
  | cloneGet key =>
    obtain ⟨cache, found, hget, hcache⟩ := hpair.cloneGet hagrees key
    refine ⟨{ pair with cache }, held, ?_,
      ⟨hpair.source, hpair.segments, hpair.holds, hpair.below, hpair.bound⟩, rfl,
      fun _ ↦ trivial, fun _ ↦ hcache⟩
    simp only [ColdIndex.runStep, hget]
    rfl

end Steps

/-! ## The clone as a snapshot -/

/-- After every part of a run, the run has not failed and every read of the clone returns the value
that a map gives. -/
def ReadsSnapshot (pair : Pair) (steps : List PairStep) (snapshot : Str → Option Bytes) : Prop :=
  ∀ done, done <+: steps → (runSteps pair done).2 = .ok () ∧
    ∀ key, (get (runSteps pair done).1.cloneState key).2 = .ok (snapshot key)

theorem readsSnapshot_cons {pair pair' : Pair} {step : PairStep} {steps : List PairStep}
    {snapshot : Str → Option Bytes} (hstep : runStep pair step = (pair', .ok ())) :
    ReadsSnapshot pair (step :: steps) snapshot ↔
      (∀ key, (get pair.cloneState key).2 = .ok (snapshot key)) ∧
        ReadsSnapshot pair' steps snapshot := by
  have hsteps (done : List PairStep) : runSteps pair (step :: done) = runSteps pair' done := by
    rw [runSteps, hstep]
  constructor
  · intro hreads
    refine ⟨(hreads [] nil_prefix).2, ?_⟩
    intro done hdone
    rw [← hsteps]
    exact hreads (step :: done) ((prefix_cons_inj step).mpr hdone)
  · intro hreads done hdone
    cases done with
    | nil => exact ⟨rfl, hreads.1⟩
    | cons first done =>
      obtain ⟨rfl, hrest⟩ := List.cons_prefix_cons.mp hdone
      rw [hsteps]
      exact hreads.2 done hrest

theorem cloneAgrees_iff_reads {pair : Pair} {stale held cloned : List Entry}
    (hpair : PairInv pair stale held cloned) :
    CloneAgrees pair.cache pair.clone cloned ↔
      ∀ key, (get pair.cloneState key).2 = .ok (shown pair.clone cloned key) := by
  apply forall_congr'
  intro key
  exact (cloneGet_eq_iff hpair key).symm

theorem PairInv.readsSnapshot_iff {pair : Pair} {stale held cloned : List Entry}
    (hpair : PairInv pair stale held cloned) (hagrees : CloneAgrees pair.cache pair.clone cloned)
    {steps : List PairStep} (hfits : StepsFit pair steps) :
    ReadsSnapshot pair steps (shown pair.clone cloned) ↔ StepsSafe pair steps := by
  induction steps generalizing pair held with
  | nil =>
    have hreads := (cloneAgrees_iff_reads hpair).mp hagrees
    refine ⟨fun _ ↦ trivial, ?_⟩
    intro _ done hdone
    rw [List.prefix_nil.mp hdone]
    exact ⟨rfl, hreads⟩
  | cons step steps ih =>
    obtain ⟨pair', held', hstep, hpair', hclone, hiff⟩ := hpair.runStep hagrees hfits.1
    have hrest := hfits.2
    rw [hstep] at hrest
    have hreads := (cloneAgrees_iff_reads hpair).mp hagrees
    rw [readsSnapshot_cons hstep, StepsSafe, ← hiff, hstep, ← hclone]
    constructor
    · intro hsnapshot
      have hagrees' : CloneAgrees pair'.cache pair'.clone cloned :=
        (cloneAgrees_iff_reads hpair').mpr (hsnapshot.2 [] nil_prefix).2
      exact ⟨hagrees', (ih hpair' hagrees' hrest).mp hsnapshot.2⟩
    · intro hsafe
      refine ⟨?_, (ih hpair' hsafe.1 hrest).mpr hsafe.2⟩
      rw [hclone]
      exact hreads

/-- In every run of a store and its clone the clone reads what the store held when it was cloned,
exactly when no read of the store caches a value that differs from it. -/
theorem clone_reads_snapshot_iff (bufferLimit cacheCap : ℕ) (history : List Event)
    (hhistory : HistoryFits (initial bufferLimit cacheCap) history) (state : State)
    (hrun : runHistory (initial bufferLimit cacheCap) history = (state, .ok ()))
    (steps : List PairStep) (hsteps : StepsFit state.clone steps) :
    ∃ snapshot : Str → Option Bytes, (∀ key, (get state key).2 = .ok (snapshot key)) ∧
      (ReadsSnapshot state.clone steps snapshot ↔ StepsSafe state.clone steps) := by
  have hinitial := initial_standsFor bufferLimit cacheCap
  have hfits : HistoryFits (initial bufferLimit cacheCap) (history ++ []) := by
    rw [append_nil]
    exact hhistory
  obtain ⟨state', stale, held, hrun', hstate, -⟩ :=
    Describes.runHistory ⟨hinitial.inv, hinitial.cache⟩ hfits
  rw [hrun, Prod.mk.injEq] at hrun'
  obtain ⟨rfl, -⟩ := hrun'
  have hpair := State.clone_inv hstate
  have hagrees : CloneAgrees state.clone.cache state.clone.clone held :=
    fun key cached hcached _ ↦ hstate.cache key cached hcached
  refine ⟨shown state.store held, ?_, hpair.readsSnapshot_iff hagrees hsteps⟩
  intro key
  obtain ⟨cache, hget, -⟩ := get_spec hstate.inv.segments hstate.inv.holds hstate.cache key
  rw [hget]

theorem clone_reads_snapshot_iff_buffered_write :
    ∃ snapshot : Str → Option Bytes, (∀ key, (get (initial 8 4) key).2 = .ok (snapshot key)) ∧
      (ReadsSnapshot (initial 8 4).clone [.write ['a'] (some [7]), .cloneGet ['a']] snapshot ↔
        StepsSafe (initial 8 4).clone [.write ['a'] (some [7]), .cloneGet ['a']]) := by
  apply clone_reads_snapshot_iff 8 4 [] trivial (initial 8 4) rfl
  exact ⟨⟨by decide, by decide, by decide, by decide, by decide⟩, ⟨by decide, trivial⟩, trivial⟩

/-! ## A value that leaks through the cache -/

/-- A store and its clone after the source wrote one key, with a cache of one entry. -/
def leakedPair : Pair :=
  (initial 1 1).clone.withSource { writtenOnce with cache := (Lru.new 1).remove ['k'] }

theorem runStep_leakedPair :
    runStep (initial 1 1).clone (.write ['k'] (some [1])) = (leakedPair, .ok ()) := by
  have hflush : writeSlot (initial 1 1) ['k'] (some [1]) =
      ({ writtenOnce with cache := (Lru.new 1).remove ['k'] }, .ok ()) :=
    @flush_eq (buffered (initial 1 1) ['k'] (some [1])) _ (by decide) (open_insert _ _ fits_liveSlot)
  change ((initial 1 1).clone.withSource (writeSlot (initial 1 1) ['k'] (some [1])).1,
    (writeSlot (initial 1 1) ['k'] (some [1])).2) = _
  rw [hflush]
  rfl

/-- A clone can read a value that was written after it was made. -/
theorem not_all_clones_read_snapshot : ¬ ∀ (history : List Event) (state : State)
    (steps : List PairStep) (snapshot : Str → Option Bytes),
    runHistory (initial 1 1) history = (state, .ok ()) →
      (∀ key, (get state key).2 = .ok (snapshot key)) →
      ReadsSnapshot state.clone steps snapshot := by
  intro hall
  have hinitial := initial_standsFor 1 1
  have hpair := State.clone_inv ⟨hinitial.inv, hinitial.cache⟩
  have hagrees : CloneAgrees (initial 1 1).clone.cache (initial 1 1).clone.clone [] :=
    fun key cached hcached _ ↦ hinitial.cache key cached hcached
  have hfits : StepsFit (initial 1 1).clone [.write ['k'] (some [1]), .get ['k']] := by
    refine ⟨⟨by decide, fits_liveSlot⟩, ?_⟩
    rw [runStep_leakedPair]
    exact ⟨⟨by decide, trivial⟩, trivial⟩
  have hreads := hall [] (initial 1 1) [.write ['k'] (some [1]), .get ['k']]
    (shown (initial 1 1).store []) rfl (by
      intro key
      obtain ⟨cache, hget, -⟩ :=
        get_spec hinitial.inv.segments hinitial.inv.holds hinitial.cache key
      rw [hget])
  have hsafe := (hpair.readsSnapshot_iff hagrees hfits).mp hreads
  have hstep : StepSafe leakedPair (.get ['k']) := by
    have hsecond := hsafe.2.1
    rw [runStep_leakedPair] at hsecond
    exact hsecond
  have hholds : ∀ entry ∈ [((0 : ℕ), liveSlot)], Holds leakedPair.files entry := by
    intro entry hentry
    rw [List.mem_singleton.mp hentry]
    exact ⟨Std.ExtTreeMap.getElem?_insert_self, fits_liveSlot⟩
  have hread : getSegments leakedPair.files ['k'] leakedPair.source.segments.reverse =
      .ok (some [1]) :=
    getSegments_eq_view hholds ['k']
  have hsame := hstep rfl rfl (by decide) rfl [1] hread
  exact absurd hsame (by decide)

end SoulSystem.Ccos.ColdIndex
