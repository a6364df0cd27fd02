import Mathlib.Data.List.Sort
import SoulSystem.Ccos.Session.Sync

/-!
# The merged view of several timelines

The view replays the own operations and every imported log in the order of their agent ids.  Own and
imported operations share one map, in which an agent that is not set stands under a default id: a
log that was imported under that id takes the place of the own one.

The view replays every timeline exactly when the id of the own operations is not an imported id, or
nothing was recorded.
-/

namespace SoulSystem.Ccos.Session

open Library SortedMap Std.ExtTreeMap

namespace AgentSession

variable {Op Memory : Type} (engine : Engine Op Memory)

def setAgent (session : AgentSession Op Memory) (agent : Str) : AgentSession Op Memory :=
  { session with agent }

/-- The id of the own operations in the view. -/
def ownId (session : AgentSession Op Memory) : Str :=
  if session.agent.isEmpty then "local".toList else session.agent

/-- The operations of the view under the ids of their agents. -/
def streams (session : AgentSession Op Memory) : Std.ExtTreeMap Str (List Op) :=
  session.foreign.foldl (fun streams id log ↦ streams.insert id log.ops)
    ((∅ : Std.ExtTreeMap Str (List Op)).insert session.ownId session.ops)

def mergedView (session : AgentSession Op Memory) : Memory :=
  let result := session.streams.toList.foldl
    (fun state stream ↦ stream.2.foldl engine.applyOp state) (engine.new, false)
  if result.2 then engine.resolve result.1 else result.1

/-! ## What the view is to replay -/

/-- The operations that the view applies, in their order. -/
def mergedOps (session : AgentSession Op Memory) : List Op :=
  session.streams.toList.flatMap Prod.snd

/-- The timelines that a session knows. -/
def timelines (session : AgentSession Op Memory) : List (Str × List Op) :=
  (session.ownId, session.ops) :: session.foreign.toList.map fun entry ↦ (entry.1, entry.2.ops)

def sortedTimelines (session : AgentSession Op Memory) : List (Str × List Op) :=
  session.timelines.insertionSort fun a b ↦ (compare a.1 b.1).isLE

/-- All known timelines one after the other, in the order of the agent ids. -/
def timelineOps (session : AgentSession Op Memory) : List Op :=
  session.sortedTimelines.flatMap Prod.snd

/-- No imported log takes the place of own operations. -/
def Distinct (session : AgentSession Op Memory) : Prop :=
  session.ownId ∈ session.foreign → session.ops = []

end AgentSession

open AgentSession

variable {Op Memory : Type} {engine : Engine Op Memory} {check : SignatureCheck Op}
  {session : AgentSession Op Memory}

/-! ## The streams -/

theorem mergedView_eq (session : AgentSession Op Memory) :
    session.mergedView engine = applyAll engine engine.new session.mergedOps := by
  unfold mergedView applyAll mergedOps
  rw [List.foldl_flatMap]

/-- An imported log stands under its id, the own operations under theirs if no log does. -/
theorem getElem?_streams (session : AgentSession Op Memory) (key : Str) :
    session.streams[key]? = (session.foreign[key]?.map ForeignLog.ops).or
      (if session.ownId = key then some session.ops else none) := by
  unfold streams
  rw [getElem?_foldl_insert_map]
  congr 1
  by_cases hkey : session.ownId = key
  · rw [if_pos hkey, ← hkey, getElem?_insert_self]
  · rw [if_neg hkey, getElem?_insert_ne _ hkey, getElem?_empty]

/-- The imported logs under their ids. -/
def foreignOps (session : AgentSession Op Memory) : Std.ExtTreeMap Str (List Op) :=
  session.foreign.map fun _ log ↦ log.ops

theorem streams_of_notMem (hown : session.ownId ∉ session.foreign) :
    session.streams = (foreignOps session).insert session.ownId session.ops := by
  apply ext_getElem?
  intro key
  rw [getElem?_streams]
  by_cases hkey : session.ownId = key
  · rw [if_pos hkey, ← hkey, getElem?_insert_self, getElem?_eq_none_iff.mpr hown]
    rfl
  · rw [if_neg hkey, getElem?_insert_ne _ hkey, foreignOps, getElem?_map,
      Option.or_none]

theorem streams_of_mem (hown : session.ownId ∈ session.foreign) :
    session.streams = foreignOps session := by
  apply ext_getElem?
  intro key
  rw [getElem?_streams, foreignOps, getElem?_map]
  by_cases hkey : session.ownId = key
  · obtain ⟨log, hlog⟩ := exists_getElem?_of_mem hown
    rw [← hkey, hlog]
    rfl
  · rw [if_neg hkey, Option.or_none]

theorem timelines_eq (session : AgentSession Op Memory) :
    session.timelines = (session.ownId, session.ops) :: (foreignOps session).toList := by
  rw [timelines, foreignOps, toList_map]

/-! ## Timelines in order -/

/-- The timelines that record something. -/
def nonempty (timelines : List (Str × List Op)) : List (Str × List Op) :=
  timelines.filter fun timeline ↦ !timeline.2.isEmpty

theorem flatMap_nonempty (timelines : List (Str × List Op)) :
    (nonempty timelines).flatMap Prod.snd = timelines.flatMap Prod.snd := by
  induction timelines with
  | nil => rfl
  | cons timeline timelines ih =>
    unfold nonempty at ih ⊢
    rw [List.filter_cons, List.flatMap_cons, ← ih]
    cases hops : timeline.2 with
    | nil => simp
    | cons op ops => simp [hops]

/-- Where nothing is displaced, the streams are the known timelines. -/
theorem AgentSession.Distinct.nonempty_perm (hdistinct : session.Distinct) :
    (nonempty session.streams.toList).Perm (nonempty session.timelines) := by
  rw [timelines_eq]
  by_cases hown : session.ownId ∈ session.foreign
  · rw [streams_of_mem hown, hdistinct hown]
    exact List.Perm.refl _
  · have hnew : session.ownId ∉ foreignOps session := by
      rwa [foreignOps, mem_map]
    rw [streams_of_notMem hown]
    exact (toList_insert_perm session.ops hnew).filter _

/-- The streams that record something, in ascending order of their ids. -/
theorem pairwise_nonempty_streams (session : AgentSession Op Memory) :
    (nonempty session.streams.toList).Pairwise fun a b ↦ compare a.1 b.1 = .lt :=
  List.Pairwise.filter _ ordered_keys_toList

/-- A list in ascending order whose ids are distinct up to order is in strictly ascending order. -/
theorem ascending_of_perm {first second : List (Str × List Op)} (hperm : first.Perm second)
    (hfirst : first.Pairwise fun a b ↦ compare a.1 b.1 = .lt)
    (hsecond : second.Pairwise fun a b ↦ (compare a.1 b.1).isLE) :
    second.Pairwise fun a b ↦ compare a.1 b.1 = .lt := by
  have hids : second.Pairwise fun a b ↦ a.1 ≠ b.1 := by
    apply hperm.pairwise (hfirst.imp Str.ne_of_compare_lt)
    exact fun hne ↦ hne.symm
  apply (hsecond.and hids).imp
  rintro a b ⟨hle, hne⟩
  cases hcompare : compare a.1 b.1 with
  | lt => rfl
  | eq => exact absurd (Std.LawfulEqCmp.eq_of_compare hcompare) hne
  | gt =>
    rw [hcompare] at hle
    cases hle

theorem pairwise_sortedTimelines (session : AgentSession Op Memory) :
    session.sortedTimelines.Pairwise fun a b ↦ (compare a.1 b.1).isLE := by
  have htotal : Std.Total fun a b : Str × List Op ↦ (compare a.1 b.1).isLE := by
    constructor
    intro a b
    cases hcompare : compare a.1 b.1 with
    | lt => exact .inl rfl
    | eq => exact .inl rfl
    | gt =>
      right
      rw [Str.compare_gt_iff.mp hcompare]
      rfl
  have htrans : IsTrans (Str × List Op) fun a b ↦ (compare a.1 b.1).isLE := by
    constructor
    exact fun a b c ↦ Std.TransCmp.isLE_trans
  exact List.pairwise_insertionSort _ session.timelines

theorem perm_sortedTimelines (session : AgentSession Op Memory) :
    session.sortedTimelines.Perm session.timelines :=
  List.perm_insertionSort _ _

/-- Where nothing is displaced, the view replays the timelines in their order. -/
theorem AgentSession.Distinct.mergedOps_eq (hdistinct : session.Distinct) :
    session.mergedOps = session.timelineOps := by
  have hperm : (nonempty session.streams.toList).Perm (nonempty session.sortedTimelines) :=
    hdistinct.nonempty_perm.trans ((perm_sortedTimelines session).symm.filter _)
  have hstreams := pairwise_nonempty_streams session
  have hsorted : (nonempty session.sortedTimelines).Pairwise fun a b ↦
      (compare a.1 b.1).isLE := (pairwise_sortedTimelines session).filter _
  have heq := Str.eq_of_perm_of_ascending hperm hstreams (ascending_of_perm hperm hstreams hsorted)
  rw [mergedOps, timelineOps, ← flatMap_nonempty, heq, flatMap_nonempty]

/-- A log under the own id leaves the own operations out. -/
theorem length_timelineOps (hown : session.ownId ∈ session.foreign) :
    session.timelineOps.length = session.ops.length + session.mergedOps.length := by
  have hperm := (perm_sortedTimelines session).flatMap_right Prod.snd
  rw [timelines_eq, List.flatMap_cons, ← streams_of_mem hown] at hperm
  rw [timelineOps, hperm.length_eq, List.length_append]
  rfl

theorem mergedOps_eq_iff (session : AgentSession Op Memory) :
    session.mergedOps = session.timelineOps ↔ session.Distinct := by
  constructor
  · intro hmerged hown
    have hlength := length_timelineOps hown
    rw [← hmerged] at hlength
    exact List.eq_nil_of_length_eq_zero (by omega)
  · exact AgentSession.Distinct.mergedOps_eq

/-- Sessions with the same timelines replay the same operations. -/
theorem mergedOps_congr {first second : AgentSession Op Memory} (hfirst : first.Distinct)
    (hsecond : second.Distinct)
    (hsame : ∀ timeline, timeline ∈ first.timelines ↔ timeline ∈ second.timelines) :
    first.mergedOps = second.mergedOps := by
  have hnodup : ∀ session : AgentSession Op Memory, (nonempty session.streams.toList).Nodup :=
    fun session ↦ (nodup_toList session.streams).filter _
  have hperm : (nonempty first.streams.toList).Perm (nonempty second.streams.toList) := by
    apply (List.perm_ext_iff_of_nodup (hnodup first) (hnodup second)).mpr
    intro timeline
    rw [hfirst.nonempty_perm.mem_iff, hsecond.nonempty_perm.mem_iff, nonempty, nonempty,
      List.mem_filter, List.mem_filter, hsame]
  have heq := Str.eq_of_perm_of_ascending hperm (pairwise_nonempty_streams first)
    (pairwise_nonempty_streams second)
  rw [mergedOps, mergedOps, ← flatMap_nonempty, heq, flatMap_nonempty]

/-! ## Runs -/

/-- One call on a session that exchanges timelines. -/
inductive Exchange (Op Memory : Type) where
  | setAgent (agent : Str)
  | record (op : Op) (live : Memory)
  | importBundle (bundle : SyncBundle Op)

namespace AgentSession

def exchange (engine : Engine Op Memory) (check : SignatureCheck Op)
    (session : AgentSession Op Memory) : Exchange Op Memory → AgentSession Op Memory
  | .setAgent agent => session.setAgent agent
  | .record op live => session.record engine op live
  | .importBundle bundle => (session.importBundle engine check bundle).1

def exchangeAll (engine : Engine Op Memory) (check : SignatureCheck Op)
    (session : AgentSession Op Memory) (exchanges : List (Exchange Op Memory)) :
    AgentSession Op Memory :=
  exchanges.foldl (exchange engine check) session

/-- A call that keeps the own id apart from the imported ones. -/
def KeepsApart (session : AgentSession Op Memory) : Exchange Op Memory → Prop
  | .setAgent agent => (session.setAgent agent).ownId ∉ session.foreign
  | .record _ _ => True
  | .importBundle bundle => bundle.agent ≠ session.ownId

/-- Every call of a run keeps the ids apart in the state it is made in. -/
def AllKeepApart (engine : Engine Op Memory) (check : SignatureCheck Op) :
    AgentSession Op Memory → List (Exchange Op Memory) → Prop
  | _, [] => True
  | session, exchange :: exchanges =>
    session.KeepsApart exchange ∧
      AllKeepApart engine check (session.exchange engine check exchange) exchanges

end AgentSession

theorem ownId_notMem_exchange (hown : session.ownId ∉ session.foreign)
    {exchange : Exchange Op Memory} (hapart : session.KeepsApart exchange) :
    (session.exchange engine check exchange).ownId ∉
      (session.exchange engine check exchange).foreign := by
  cases exchange with
  | setAgent agent => exact hapart
  | record op live => exact hown
  | importBundle bundle =>
    simp only [AgentSession.exchange]
    rcases importBundle_cases engine check session bundle with
      ⟨error, hresult⟩ | ⟨pin, _, hresult⟩
    · rw [hresult]
      exact hown
    · rw [hresult]
      change session.ownId ∉ session.foreign.insert bundle.agent _
      rw [mem_insert_iff, not_or]
      exact ⟨Ne.symm hapart, hown⟩

theorem ownId_notMem_exchangeAll {exchanges : List (Exchange Op Memory)}
    (hown : session.ownId ∉ session.foreign)
    (hapart : session.AllKeepApart engine check exchanges) :
    (session.exchangeAll engine check exchanges).ownId ∉
      (session.exchangeAll engine check exchanges).foreign := by
  induction exchanges generalizing session with
  | nil => exact hown
  | cons exchange exchanges ih => exact ih (ownId_notMem_exchange hown hapart.1) hapart.2

/-- **The view replays every timeline** of a session, in the order of the ids, exactly when no
imported log stands under the id of own operations.  Then the view depends on the set of timelines
only, and in every run whose calls keep the ids apart it is so in every state. -/
theorem mergedView_replays_all_iff (engine : Engine Op Memory) (check : SignatureCheck Op) :
    (∀ session : AgentSession Op Memory,
      session.mergedView engine = applyAll engine engine.new session.mergedOps ∧
      (session.mergedOps = session.timelineOps ↔
        (session.ownId ∈ session.foreign → session.ops = []))) ∧
    (∀ first second : AgentSession Op Memory,
      (first.ownId ∈ first.foreign → first.ops = []) →
      (second.ownId ∈ second.foreign → second.ops = []) →
      (∀ timeline, timeline ∈ first.timelines ↔ timeline ∈ second.timelines) →
      first.mergedView engine = second.mergedView engine) ∧
    (∀ exchanges : List (Exchange Op Memory),
      (AgentSession.new engine).AllKeepApart engine check exchanges →
      ((AgentSession.new engine).exchangeAll engine check exchanges).mergedOps =
        ((AgentSession.new engine).exchangeAll engine check exchanges).timelineOps) := by
  refine ⟨fun session ↦ ⟨mergedView_eq session, mergedOps_eq_iff session⟩, ?_, ?_⟩
  · intro first second hfirst hsecond hsame
    rw [mergedView_eq, mergedView_eq, mergedOps_congr hfirst hsecond hsame]
  · intro exchanges hapart
    have hnew : (AgentSession.new engine).ownId ∉ (AgentSession.new engine).foreign :=
      not_mem_empty
    apply AgentSession.Distinct.mergedOps_eq
    intro hown
    exact absurd hown (ownId_notMem_exchangeAll hnew hapart)

/-- The two failures imported by an agent that has recorded the second one itself. -/
theorem mergedView_replays_all_failures :
    ((AgentSession.new listEngine).exchangeAll listEngine unsigned
      [.setAgent ['b'], .record failureOps.2 [failureOps.2],
        .importBundle failureBundle]).mergedOps =
      ((AgentSession.new listEngine).exchangeAll listEngine unsigned
        [.setAgent ['b'], .record failureOps.2 [failureOps.2],
          .importBundle failureBundle]).timelineOps := by
  apply (mergedView_replays_all_iff listEngine unsigned).2.2
  refine ⟨?_, trivial, ?_, trivial⟩
  · exact not_mem_empty
  · change ['a'] ≠ ['b']
    decide

/-- Without an agent id, a log that is imported under the default id displaces the own one. -/
theorem not_mergedView_replays_all :
    ¬ ∀ exchanges : List (Exchange Str (List Str)),
      ((AgentSession.new listEngine).exchangeAll listEngine unsigned exchanges).mergedOps =
        ((AgentSession.new listEngine).exchangeAll listEngine unsigned exchanges).timelineOps := by
  intro hall
  have hmerged := hall [.record failureOps.2 [failureOps.2],
    .importBundle { failureBundle with agent := "local".toList }]
  have hown := (mergedOps_eq_iff _).mp hmerged (by decide +kernel)
  exact absurd hown (by decide +kernel)

end SoulSystem.Ccos.Session
