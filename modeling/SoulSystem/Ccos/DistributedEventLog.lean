import SoulSystem.Library.ByteCursor
import SoulSystem.Library.HashChain

/-!
# The distributed event log

`DistributedEventLog` keeps its events and a hash chain over them side by side.  Its verification
walks the chain: every link must have an event at its position and must recompute from it.  Events
past the end of the chain are never looked at, and neither is the id that a link carries, so a valid
log commits to its linked events and to nothing else.
-/

namespace SoulSystem.Ccos.Distributed

open Library List

/-! ## The log -/

structure Event where
  id : UInt64
  payload : Str
  timestamp : UInt64
  source : Str

structure HashChainLink where
  eventId : UInt64
  hash : Str
  previousHash : Str

structure DistributedEventLog where
  events : List Event
  hashChain : List HashChainLink
  nextId : UInt64

structure IntegrityReport where
  valid : Bool
  totalEvents : ℕ
  verifiedEvents : ℕ
  errors : List Str

def genesis : Str :=
  "GENESIS".toList

/-- What identifies an event in a replay. -/
def Event.content (event : Event) : UInt64 × Str :=
  (event.id, event.payload)

/-- The hashed bytes of a link. -/
def linkInput (id : UInt64) (payload previousHash : Str) : Bytes :=
  ByteCursor.leBytes 8 id.toNat ++ Str.utf8 payload ++ Str.utf8 previousHash

namespace DistributedEventLog

variable (sha256 : Bytes → Str)

def new : DistributedEventLog where
  events := []
  hashChain := []
  nextId := 0

def computeLinkHash (id : UInt64) (payload previousHash : Str) : Str :=
  sha256 (linkInput id payload previousHash)

/-- The log after an append at a given time; the id of the new event is the old `next_id`. -/
def append (log : DistributedEventLog) (payload source : Str) (now : UInt64) :
    DistributedEventLog :=
  let previousHash := (log.hashChain.getLast?.map HashChainLink.hash).getD genesis
  { events := log.events ++ [{ id := log.nextId, payload, timestamp := now, source }]
    hashChain := log.hashChain ++ [{
      eventId := log.nextId
      hash := computeLinkHash sha256 log.nextId payload previousHash
      previousHash }]
    nextId := log.nextId + 1 }

def replay (log : DistributedEventLog) : List Event :=
  log.events

/-- The predecessor that the link at a position must name. -/
def expectedPrev (log : DistributedEventLog) : ℕ → Str
  | 0 => genesis
  | i + 1 => ((log.hashChain[i]?).map HashChainLink.hash).getD []

def decimal (n : ℕ) : Str :=
  Nat.toDigits 10 n

/-- What the verification finds wrong with one link. -/
def linkErrors (log : DistributedEventLog) (i : ℕ) (link : HashChainLink) : List Str :=
  match log.events[i]? with
  | none =>
    ["Event index ".toList ++ decimal i ++ " not found for hash chain link ".toList ++
      decimal link.eventId.toNat]
  | some event =>
    let recomputed := computeLinkHash sha256 event.id event.payload link.previousHash
    (if link.previousHash ≠ log.expectedPrev i then
      ["Chain broken at event ".toList ++ decimal link.eventId.toNat ++
        ": expected prev_hash ".toList ++ log.expectedPrev i ++ ", got ".toList ++
        link.previousHash]
    else []) ++
    (if recomputed ≠ link.hash then
      ["Hash mismatch at event ".toList ++ decimal link.eventId.toNat ++ ": stored ".toList ++
        link.hash ++ ", computed ".toList ++ recomputed]
    else [])

def verifyIntegrity (log : DistributedEventLog) : IntegrityReport :=
  if log.hashChain.isEmpty then
    { valid := true, totalEvents := 0, verifiedEvents := 0, errors := [] }
  else
    let errors := log.hashChain.zipIdx.flatMap fun entry ↦ linkErrors sha256 log entry.2 entry.1
    { valid := errors.isEmpty
      totalEvents := log.events.length
      verifiedEvents := (log.hashChain.zipIdx.filter fun entry ↦
        (log.events[entry.2]?).isSome).length
      errors }

/-! ## What is linked and what is not -/

/-- The contents that a replay returns, in order. -/
def replayed (log : DistributedEventLog) : List (UInt64 × Str) :=
  log.replay.map Event.content

/-- The contents of the events past the end of the chain. -/
def unlinked (log : DistributedEventLog) : List (UInt64 × Str) :=
  (log.events.drop log.hashChain.length).map Event.content

/-- Every link carries the id of the event at its position. -/
def LinksNameEvents (log : DistributedEventLog) : Prop :=
  ∀ (i : ℕ) (link : HashChainLink) (event : Event), log.hashChain[i]? = some link →
    log.events[i]? = some event → link.eventId = event.id

def endsIn (log : DistributedEventLog) (hash : Str) : Prop :=
  log.hashChain.getLast?.map HashChainLink.hash = some hash

/-- The byte strings that the chain of a log hashes. -/
def hashed (log : DistributedEventLog) : List Bytes :=
  (log.hashChain.zip log.events).map fun entry ↦
    linkInput entry.2.id entry.2.payload entry.1.previousHash

end DistributedEventLog

/-- The digest as text: sixty-four hexadecimal digits. -/
structure HexDigest (sha256 : Bytes → Str) : Prop where
  length : ∀ bytes, (sha256 bytes).length = 64
  digits : ∀ bytes, ∀ c ∈ sha256 bytes, c ∈ "0123456789abcdef".toList

/-- A predecessor of a link. -/
def IsPrev (sha256 : Bytes → Str) (hash : Str) : Prop :=
  hash = genesis ∨ ∃ bytes, hash = sha256 bytes

/-! ## The hashed bytes determine the event -/

theorem utf8_append (s t : Str) : Str.utf8 (s ++ t) = Str.utf8 s ++ Str.utf8 t :=
  flatMap_append

theorem utf8_injective : Function.Injective Str.utf8 := by
  intro s t heq
  have hread := Str.fromUtf8_utf8 s
  rw [heq, Str.fromUtf8_utf8] at hread
  exact (Option.some.inj hread).symm

theorem leBytes_toNat_injective {a b : UInt64}
    (heq : ByteCursor.leBytes 8 a.toNat = ByteCursor.leBytes 8 b.toNat) : a = b := by
  have hread := ByteCursor.fromLeBytes_leBytes 8 a.toNat
  rw [heq, ByteCursor.fromLeBytes_leBytes] at hread
  have ha : a.toNat < 256 ^ 8 := a.toNat_lt
  have hb : b.toNat < 256 ^ 8 := b.toNat_lt
  rw [Nat.mod_eq_of_lt ha, Nat.mod_eq_of_lt hb] at hread
  exact UInt64.toNat_inj.mp hread.symm

section Digest

variable {sha256 : Bytes → Str}

/-- No text ends both in the start marker and in a digest. -/
theorem genesis_append_ne (hdigest : HexDigest sha256) (s t : Str) (bytes : Bytes) :
    s ++ genesis ≠ t ++ sha256 bytes := by
  intro heq
  have hlast := congrArg List.getLast? heq
  have hne : sha256 bytes ≠ [] := by
    intro hnil
    have hlength := hdigest.length bytes
    rw [hnil] at hlength
    cases hlength
  rw [getLast?_append_of_ne_nil _ hne, getLast?_append_of_ne_nil _ (by decide)] at hlast
  have hmark : genesis.getLast? = some 'S' := by decide
  rw [hmark] at hlast
  have hdigit := hdigest.digits bytes 'S' (mem_of_getLast? hlast.symm)
  exact absurd hdigit (by decide)

/-- A payload and a predecessor are told apart although nothing stands between them. -/
theorem append_prev_inj (hdigest : HexDigest sha256) {payload payload' prev prev' : Str}
    (hprev : IsPrev sha256 prev) (hprev' : IsPrev sha256 prev')
    (heq : payload ++ prev = payload' ++ prev') : payload = payload' ∧ prev = prev' := by
  rcases hprev with rfl | ⟨bytes, rfl⟩
  · rcases hprev' with rfl | ⟨bytes', rfl⟩
    · exact append_inj' heq rfl
    · exact absurd heq (genesis_append_ne hdigest _ _ _)
  · rcases hprev' with rfl | ⟨bytes', rfl⟩
    · exact absurd heq.symm (genesis_append_ne hdigest _ _ _)
    · apply append_inj' heq
      rw [hdigest.length, hdigest.length]

theorem linkInput_inj (hdigest : HexDigest sha256) {id id' : UInt64}
    {payload payload' prev prev' : Str} (hprev : IsPrev sha256 prev)
    (hprev' : IsPrev sha256 prev')
    (heq : linkInput id payload prev = linkInput id' payload' prev') :
    id = id' ∧ payload = payload' ∧ prev = prev' := by
  unfold linkInput at heq
  rw [append_assoc, append_assoc, ← utf8_append, ← utf8_append] at heq
  obtain ⟨hid, htext⟩ := append_inj heq (by simp)
  exact ⟨leBytes_toNat_injective hid, append_prev_inj hdigest hprev hprev' (utf8_injective htext)⟩

theorem digest_ne_genesis (hdigest : HexDigest sha256) (bytes : Bytes) :
    sha256 bytes ≠ genesis := by
  intro heq
  exact genesis_append_ne hdigest [] [] bytes (by rw [heq])

end Digest

/-! ## What a valid log commits to -/

namespace DistributedEventLog

variable {sha256 : Bytes → Str} {log other : DistributedEventLog}

/-- The links of the log as a hash chain over its events. -/
def eventLink (sha256 : Bytes → Str) (previousHash : Str) (_ : ℕ) (event : Event) : Str :=
  computeLinkHash sha256 event.id event.payload previousHash

def hashes (log : DistributedEventLog) : List Str :=
  log.hashChain.map HashChainLink.hash

theorem linkErrors_eq_nil_iff {i : ℕ} {link : HashChainLink} :
    linkErrors sha256 log i link = [] ↔ ∃ event, log.events[i]? = some event ∧
      link.previousHash = log.expectedPrev i ∧
      link.hash = computeLinkHash sha256 event.id event.payload link.previousHash := by
  unfold linkErrors
  cases hevent : log.events[i]? with
  | none => simp
  | some event =>
    simp only [append_eq_nil_iff, ite_eq_right_iff, cons_ne_nil, imp_false, not_not,
      Option.some.injEq, exists_eq_left']
    rw [eq_comm (a := link.hash)]

theorem valid_iff : (verifyIntegrity sha256 log).valid = true ↔
    ∀ (i : ℕ) (link : HashChainLink), log.hashChain[i]? = some link →
      ∃ event, log.events[i]? = some event ∧ link.previousHash = log.expectedPrev i ∧
        link.hash = computeLinkHash sha256 event.id event.payload link.previousHash := by
  unfold verifyIntegrity
  split
  · rename_i hempty
    rw [List.isEmpty_iff] at hempty
    simp [hempty]
  · simp only [List.isEmpty_iff, flatMap_eq_nil_iff]
    constructor
    · intro hall i link hlink
      rw [← linkErrors_eq_nil_iff]
      exact hall (link, i) (List.mem_zipIdx_iff_getElem?.mpr hlink)
    · intro hall entry hentry
      rw [linkErrors_eq_nil_iff]
      exact hall entry.2 entry.1 (List.mem_zipIdx_iff_getElem?.mp hentry)

theorem length_le_of_valid (hvalid : (verifyIntegrity sha256 log).valid = true) :
    log.hashChain.length ≤ log.events.length := by
  by_contra hshort
  have hlast : log.events.length < log.hashChain.length := Nat.lt_of_not_le hshort
  obtain ⟨event, hevent, _⟩ := valid_iff.mp hvalid log.events.length
    log.hashChain[log.events.length] (getElem?_eq_getElem hlast)
  rw [getElem?_eq_none (le_refl _)] at hevent
  cases hevent

theorem expectedPrev_eq_head {i : ℕ} (hi : i ≤ log.hashChain.length) :
    log.expectedPrev i = HashChain.head genesis (log.hashes.take i) := by
  cases i with
  | zero => rfl
  | succ i =>
    have hlt : i < log.hashes.length := by simpa [hashes] using hi
    rw [HashChain.head_take_succ hlt, expectedPrev, getElem?_eq_getElem hi]
    simp [hashes]

/-- The hashes of a valid log are the chain over its linked events. -/
theorem hashes_eq_chainOver (hvalid : (verifyIntegrity sha256 log).valid = true) :
    log.hashes = HashChain.chainOver (eventLink sha256) genesis 0
      (log.events.take log.hashChain.length) := by
  have hfits := length_le_of_valid hvalid
  apply HashChain.eq_chainOver_of_getElem?
  · simp [hashes, hfits]
  · intro i event hash hevent hhash
    rw [hashes, getElem?_map, Option.map_eq_some_iff] at hhash
    obtain ⟨link, hlink, rfl⟩ := hhash
    obtain ⟨found, hfound, hprev, hlinked⟩ := valid_iff.mp hvalid i link hlink
    have hi : i < log.hashChain.length := (List.getElem?_eq_some_iff.mp hlink).1
    rw [getElem?_take_of_lt hi, hfound] at hevent
    cases hevent
    rw [hlinked, hprev, expectedPrev_eq_head hi.le, eventLink]

/-- What the recomputation of a valid log hashes is what its chain hashes. -/
theorem mem_hashed_of_mem_inputs (hvalid : (verifyIntegrity sha256 log).valid = true)
    {input : Str × ℕ × Event}
    (hinput : input ∈ HashChain.inputs (eventLink sha256) genesis 0
      (log.events.take log.hashChain.length)) :
    linkInput input.2.2.id input.2.2.payload input.1 ∈ log.hashed := by
  obtain ⟨i, hget⟩ := mem_iff_getElem?.mp hinput
  rw [HashChain.getElem?_inputs, ← hashes_eq_chainOver hvalid, Option.map_eq_some_iff] at hget
  obtain ⟨event, hevent, rfl⟩ := hget
  have hi : i < log.hashChain.length := by
    have hlt := (List.getElem?_eq_some_iff.mp hevent).1
    rw [length_take] at hlt
    omega
  rw [getElem?_take_of_lt hi] at hevent
  have hlink := getElem?_eq_getElem hi
  obtain ⟨_, _, hprev, _⟩ := valid_iff.mp hvalid i _ hlink
  rw [expectedPrev_eq_head hi.le] at hprev
  refine List.mem_map.mpr ⟨(log.hashChain[i], event), ?_, by rw [← hprev]⟩
  apply mem_iff_getElem?.mpr
  exact ⟨i, List.getElem?_zip_eq_some.mpr ⟨hlink, hevent⟩⟩

theorem isPrev_of_mem_inputs {events : List Event} {input : Str × ℕ × Event}
    (hinput : input ∈ HashChain.inputs (eventLink sha256) genesis 0 events) :
    IsPrev sha256 input.1 := by
  rcases HashChain.prev_of_mem_inputs hinput with hanchor | ⟨prev, _, event, hlink⟩
  · exact .inl hanchor
  · exact .inr ⟨linkInput event.id event.payload prev, hlink⟩

/-- Two valid logs that end in one hash have the same linked events. -/
theorem linked_eq_of_endsIn (hdigest : HexDigest sha256)
    (hinjective : Set.InjOn sha256 (fun bytes ↦ bytes ∈ log.hashed ∨ bytes ∈ other.hashed))
    (hvalid : (verifyIntegrity sha256 log).valid = true)
    (hvalid' : (verifyIntegrity sha256 other).valid = true) {hash : Str}
    (hend : log.endsIn hash) (hend' : other.endsIn hash) :
    (log.events.take log.hashChain.length).map Event.content =
      (other.events.take other.hashChain.length).map Event.content := by
  have hhead : ∀ log : DistributedEventLog, log.endsIn hash →
      HashChain.head genesis log.hashes = hash := by
    intro log hlog
    rw [HashChain.head, hashes, getLast?_map, hlog]
    rfl
  have hbinding : HashChain.Binding (eventLink sha256) Event.content
      (HashChain.inputs (eventLink sha256) genesis 0 (log.events.take log.hashChain.length))
      (HashChain.inputs (eventLink sha256) genesis 0
        (other.events.take other.hashChain.length)) := by
    intro a ha b hb hcollide
    have hbytes := hinjective (.inl (mem_hashed_of_mem_inputs hvalid ha))
      (.inr (mem_hashed_of_mem_inputs hvalid' hb)) hcollide
    obtain ⟨hid, hpayload, hprev⟩ := linkInput_inj hdigest (isPrev_of_mem_inputs ha)
      (isPrev_of_mem_inputs hb) hbytes
    exact ⟨hprev, by rw [Event.content, Event.content, hid, hpayload]⟩
  have hfresh : ∀ inputs, HashChain.Fresh (eventLink sha256) genesis inputs :=
    fun _ _ _ ↦ digest_ne_genesis hdigest _
  apply HashChain.map_code_eq_of_head_eq hbinding (hfresh _) (hfresh _)
  rw [← hashes_eq_chainOver hvalid, ← hashes_eq_chainOver hvalid', hhead log hend,
    hhead other hend']

/-- The replay of a log is its linked events and then the others. -/
theorem replayed_eq (log : DistributedEventLog) : log.replayed =
    (log.events.take log.hashChain.length).map Event.content ++ log.unlinked := by
  rw [unlinked, ← map_append, take_append_drop]
  rfl

theorem length_events_eq_iff (hvalid : (verifyIntegrity sha256 log).valid = true) :
    log.events.length = log.hashChain.length ↔ log.unlinked = [] := by
  have hfits := length_le_of_valid hvalid
  rw [unlinked, map_eq_nil_iff, drop_eq_nil_iff]
  omega

theorem expectedPrev_append {payload source : Str} {now : UInt64} {i : ℕ}
    (hi : i ≤ log.hashChain.length) :
    (append sha256 log payload source now).expectedPrev i = log.expectedPrev i := by
  cases i with
  | zero => rfl
  | succ i =>
    unfold expectedPrev append
    simp only []
    rw [getElem?_append_left hi]

theorem expectedPrev_length : log.expectedPrev log.hashChain.length =
    (log.hashChain.getLast?.map HashChainLink.hash).getD genesis := by
  rw [expectedPrev_eq_head (le_refl _), HashChain.head, hashes, ← length_map, take_length,
    getLast?_map]

/-- An append to a valid log whose events are all linked and named gives such a log. -/
theorem append_linked (hvalid : (verifyIntegrity sha256 log).valid = true)
    (hlength : log.events.length = log.hashChain.length) (hnames : log.LinksNameEvents)
    (payload source : Str) (now : UInt64) :
    (verifyIntegrity sha256 (append sha256 log payload source now)).valid = true ∧
      (append sha256 log payload source now).events.length =
        (append sha256 log payload source now).hashChain.length ∧
      (append sha256 log payload source now).LinksNameEvents := by
  have hcases : ∀ (i : ℕ) (link : HashChainLink),
      (append sha256 log payload source now).hashChain[i]? = some link →
      log.hashChain[i]? = some link ∧ i < log.hashChain.length ∨
        i = log.hashChain.length ∧ link = ⟨log.nextId, computeLinkHash sha256 log.nextId payload
          (log.expectedPrev i), log.expectedPrev i⟩ := by
    intro i link hlink
    unfold append at hlink
    simp only [] at hlink
    rcases Nat.lt_or_ge i log.hashChain.length with hlt | hge
    · rw [getElem?_append_left hlt] at hlink
      exact .inl ⟨hlink, hlt⟩
    · rw [getElem?_append_right hge, getElem?_singleton] at hlink
      have hi : i = log.hashChain.length := by
        by_contra hne
        rw [if_neg (by omega)] at hlink
        cases hlink
      rw [if_pos (by omega), ← expectedPrev_length, ← hi, Option.some.injEq] at hlink
      exact .inr ⟨hi, hlink.symm⟩
  have hold : ∀ i < log.hashChain.length,
      (append sha256 log payload source now).events[i]? = log.events[i]? := by
    intro i hi
    exact getElem?_append_left (by omega)
  have hnew : (append sha256 log payload source now).events[log.hashChain.length]? =
      some ⟨log.nextId, payload, now, source⟩ := by
    rw [← hlength]
    exact getElem?_concat_length
  refine ⟨?_, by simp [append, hlength], ?_⟩
  · rw [valid_iff]
    intro i link hlink
    rcases hcases i link hlink with ⟨hlink, hi⟩ | ⟨rfl, rfl⟩
    · rw [hold i hi, expectedPrev_append hi.le]
      exact valid_iff.mp hvalid i link hlink
    · exact ⟨_, hnew, (expectedPrev_append (le_refl _)).symm, rfl⟩
  · intro i link event hlink hevent
    rcases hcases i link hlink with ⟨hlink, hi⟩ | ⟨rfl, rfl⟩
    · rw [hold i hi] at hevent
      exact hnames i link event hlink hevent
    · rw [hnew] at hevent
      cases hevent
      rfl

/-- Every log that appends build is valid, and its chain covers and names every event. -/
theorem linked_of_appends (sha256 : Bytes → Str) (calls : List (Str × Str × UInt64)) :
    let log := calls.foldl (fun log call ↦ append sha256 log call.1 call.2.1 call.2.2) new
    (verifyIntegrity sha256 log).valid = true ∧ log.events.length = log.hashChain.length ∧
      log.LinksNameEvents := by
  induction calls using reverseRecOn with
  | nil =>
    refine ⟨rfl, rfl, ?_⟩
    intro i link event hlink
    cases hlink
  | append_singleton calls call ih =>
    obtain ⟨hvalid, hlength, hnames⟩ := ih
    rw [foldl_append]
    exact append_linked hvalid hlength hnames call.1 call.2.1 call.2.2

/-! ## An event without a link -/

/-- A digest that is right about the one link of the log below. -/
def sampleDigest (bytes : Bytes) : Str :=
  if bytes = linkInput 0 ['a'] genesis then
    ["680cddab88422f21", "a67b18c1883df02d", "0053cc8469847ca0",
      "0ffe956deb2ade01"].flatMap String.toList
  else
    List.replicate 64 '0'

theorem sampleDigest_hex : HexDigest sampleDigest where
  length := by
    intro bytes
    unfold sampleDigest
    split
    · decide
    · exact length_replicate
  digits := by
    intro bytes
    change sampleDigest bytes ⊆ "0123456789abcdef".toList
    unfold sampleDigest
    split
    · decide +kernel
    · decide +kernel

def oneEvent : DistributedEventLog :=
  append sampleDigest new ['a'] ['s'] 0

/-- The same event at another time. -/
def laterEvent : DistributedEventLog :=
  append sampleDigest new ['a'] ['t'] 5

/-- The same log with an event slipped in behind the chain. -/
def slipped : DistributedEventLog :=
  { oneEvent with events := oneEvent.events ++ [⟨7, ['x'], 0, ['s']⟩] }

end DistributedEventLog

end SoulSystem.Ccos.Distributed
