import SoulSystem.Ccos.ColdIndex.Segment

/-!
# A written segment reads back as its records

For records whose sizes fit the fields of the file format, opening the written file succeeds and
the three scans return what the list of records says: the value under a key, all the records, and
the records whose key starts with a given string.

The sparse index is described by position: its entry `m` is the record `stride * m` with the
number of bytes before it.  A search therefore starts at a record that no earlier record can match.
-/

namespace SoulSystem.Ccos.ColdIndex

open Library Library.ByteCursor List

/-! ## The layout of a segment file -/

def recordBytes (record : Record) : Bytes :=
  putBytes (Str.utf8 record.1) ++ putBytes record.2

def recordsBytes (records : List Record) : Bytes :=
  records.flatMap recordBytes

@[simp] theorem recordsBytes_nil : recordsBytes [] = [] := rfl

@[simp] theorem recordsBytes_cons (record : Record) (records : List Record) :
    recordsBytes (record :: records) = recordBytes record ++ recordsBytes records := rfl

@[simp] theorem recordsBytes_append (left right : List Record) :
    recordsBytes (left ++ right) = recordsBytes left ++ recordsBytes right := by
  simp [recordsBytes]

theorem length_recordBytes (record : Record) :
    (recordBytes record).length = 8 + (Str.utf8 record.1).length + record.2.length := by
  simp only [recordBytes, length_append, length_putBytes]
  omega

theorem writeRecords_concat (records : List Record) (record : Record) :
    writeRecords (records ++ [record]) = (writeRecords records).push record := by
  simp [writeRecords]

theorem writeRecords_count (records : List Record) :
    (writeRecords records).count = records.length := by
  induction records using List.reverseRecOn with
  | nil => rfl
  | append_singleton records record ih =>
    rw [writeRecords_concat, Writer.push, ih, length_append, length_singleton]

theorem writeRecords_buf (records : List Record) :
    (writeRecords records).buf = recordsBytes records := by
  induction records using List.reverseRecOn with
  | nil => rfl
  | append_singleton records record ih =>
    rw [writeRecords_concat, Writer.push, ih, recordsBytes_append]
    simp [recordBytes]

/-- The number of sparse entries is the number of records divided by the stride, rounded up. -/
theorem writeRecords_sparse_length (records : List Record) :
    (writeRecords records).sparse.length = (records.length + 63) / stride := by
  induction records using List.reverseRecOn with
  | nil => rfl
  | append_singleton records record ih =>
    rw [writeRecords_concat, Writer.push, writeRecords_count]
    by_cases hboundary : records.length % stride = 0
    · simp only [if_pos hboundary, length_append, length_singleton, ih]
      simp only [stride] at hboundary ⊢
      omega
    · simp only [if_neg hboundary, length_append, length_singleton, ih]
      simp only [stride] at hboundary ⊢
      omega

/-- The sparse entry `m` is the record `stride * m` with the bytes before it. -/
theorem writeRecords_sparse_getElem? (records : List Record) (m : ℕ) :
    (writeRecords records).sparse[m]? = records[stride * m]?.map fun record ↦
      (record.1, (recordsBytes (records.take (stride * m))).length) := by
  induction records using List.reverseRecOn with
  | nil => simp [writeRecords]
  | append_singleton records record ih =>
    have hold (hlt : stride * m < records.length) :
        (records ++ [record])[stride * m]?.map (fun record' ↦ (record'.1,
            (recordsBytes ((records ++ [record]).take (stride * m))).length)) =
          (writeRecords records).sparse[m]? := by
      rw [ih, getElem?_append_left hlt, take_append_of_le_length hlt.le]
    have hcount := writeRecords_sparse_length records
    have hpast (hge : records.length < stride * m) :
        (records ++ [record])[stride * m]? = none := by
      apply getElem?_eq_none
      rw [length_append, length_singleton]
      exact hge
    rw [writeRecords_concat, Writer.push, writeRecords_count, writeRecords_buf]
    by_cases hboundary : records.length % stride = 0
    · rw [if_pos hboundary]
      rcases Nat.lt_trichotomy (stride * m) records.length with hlt | heq | hgt
      · rw [hold hlt, getElem?_append_left]
        simp only [stride] at *
        omega
      · have hm : m = (writeRecords records).sparse.length := by
          simp only [stride] at *
          omega
        rw [hm, getElem?_concat_length, ← hm, heq]
        simp
      · rw [hpast hgt, getElem?_eq_none]
        · rfl
        · rw [length_append, length_singleton]
          simp only [stride] at *
          omega
    · rw [if_neg hboundary]
      rcases Nat.lt_or_ge (stride * m) records.length with hlt | hge
      · rw [hold hlt]
      · have hgt : records.length < stride * m := by
          simp only [stride] at *
          omega
        rw [hpast hgt, getElem?_eq_none]
        · rfl
        · simp only [stride] at *
          omega

/-! ## What fits the format -/

/-- The sizes of a list of records fit the fields of the file: lengths and the number of sparse
entries in 32 bits, offsets in 64. -/
structure Fits (records : List Record) : Prop where
  key : ∀ record ∈ records, (Str.utf8 record.1).length < 2 ^ 32
  value : ∀ record ∈ records, record.2.length < 2 ^ 32
  count : records.length ≤ stride * (2 ^ 32 - 1)
  offset : (recordsBytes records).length < 2 ^ 64

/-- The handle that opening a written segment gives. -/
def opened (path : Str) (records : List Record) : Segment where
  path := path
  sparse := (writeRecords records).sparse
  recordsEnd := (recordsBytes records).length

theorem readSparse_entries (entries : List (Str × ℕ)) (rest : Bytes)
    (hkey : ∀ entry ∈ entries, (Str.utf8 entry.1).length < 2 ^ 32)
    (hoffset : ∀ entry ∈ entries, entry.2 < 2 ^ 64) :
    readSparse entries.length (entries.flatMap sparseEntry ++ rest) = .ok (entries, rest) := by
  induction entries with
  | nil => rfl
  | cons entry entries ih =>
    have hentries := ih (fun e he ↦ hkey e (mem_cons_of_mem entry he))
      (fun e he ↦ hoffset e (mem_cons_of_mem entry he))
    have hhead : entry ∈ entry :: entries := mem_cons_self
    rw [length_cons, readSparse, flatMap_cons, sparseEntry, append_assoc,
      append_assoc, readString_putBytes (hkey entry hhead), ok_bind]
    simp only [readU64_leBytes (hoffset entry hhead), ok_bind, hentries]
    rfl

theorem mem_sparse {records : List Record} {entry : Str × ℕ}
    (hentry : entry ∈ (writeRecords records).sparse) :
    ∃ record ∈ records, ∃ n, entry = (record.1, (recordsBytes (records.take n)).length) := by
  obtain ⟨m, hm⟩ := mem_iff_getElem?.mp hentry
  rw [writeRecords_sparse_getElem?] at hm
  obtain ⟨record, hrecord, rfl⟩ := Option.map_eq_some_iff.mp hm
  exact ⟨record, mem_of_getElem? hrecord, stride * m, rfl⟩

theorem length_recordsBytes_take_le (records : List Record) (n : ℕ) :
    (recordsBytes (records.take n)).length ≤ (recordsBytes records).length := by
  calc
    (recordsBytes (records.take n)).length ≤
        (recordsBytes (records.take n)).length + (recordsBytes (records.drop n)).length :=
      Nat.le_add_right _ _
    _ = (recordsBytes records).length := by
      rw [← length_append, ← recordsBytes_append, take_append_drop]

/-- The part of a segment file after its records. -/
def trailer (records : List Record) : Bytes :=
  leBytes 4 (writeRecords records).sparse.length ++
    ((writeRecords records).sparse.flatMap sparseEntry ++
      (leBytes 8 (recordsBytes records).length ++ leBytes 8 magic))

theorem encodeSegment_eq (records : List Record) :
    encodeSegment records = recordsBytes records ++ trailer records := by
  simp only [encodeSegment, trailer, writeRecords_buf, append_assoc]

theorem openFile_eq {files : Files} {path : Str} {bytes : Bytes} (hfile : files[path]? = some bytes) :
    openFile files path = .ok bytes := by
  simp only [openFile, hfile]

/-- Opening a written segment gives the sparse index of its records, whatever their values. -/
theorem open_encodeSegment {files : Files} {path : Str} {records : List Record}
    (hkey : ∀ record ∈ records, (Str.utf8 record.1).length < 2 ^ 32)
    (hrecords : records.length ≤ stride * (2 ^ 32 - 1)) (hbytes : (recordsBytes records).length < 2 ^ 64)
    (hfile : files[path]? = some (encodeSegment records)) :
    Segment.open files path = .ok (opened path records) := by
  have hcount : (writeRecords records).sparse.length < 2 ^ 32 := by
    rw [writeRecords_sparse_length]
    simp only [stride] at hrecords ⊢
    omega
  have hentries (rest : Bytes) :
      readSparse (writeRecords records).sparse.length
          ((writeRecords records).sparse.flatMap sparseEntry ++ rest) =
        .ok ((writeRecords records).sparse, rest) := by
    apply readSparse_entries
    · intro entry hentry
      obtain ⟨record, hrecord, n, rfl⟩ := mem_sparse hentry
      exact hkey record hrecord
    · intro entry hentry
      obtain ⟨record, hrecord, n, rfl⟩ := mem_sparse hentry
      exact (length_recordsBytes_take_le records n).trans_lt hbytes
  have hfooter : (encodeSegment records).drop ((encodeSegment records).length - 16) =
      leBytes 8 (recordsBytes records).length ++ (leBytes 8 magic ++ []) := by
    have hsplit : encodeSegment records = (recordsBytes records ++
        (leBytes 4 (writeRecords records).sparse.length ++
          (writeRecords records).sparse.flatMap sparseEntry)) ++
        (leBytes 8 (recordsBytes records).length ++ leBytes 8 magic) := by
      simp only [encodeSegment_eq, trailer, append_assoc]
    rw [hsplit]
    apply drop_left'
    simp only [length_append, length_leBytes]
    omega
  have hmagic : magic < 2 ^ 64 := by decide
  have hlength : (encodeSegment records).length =
      (recordsBytes records).length + (trailer records).length := by
    rw [encodeSegment_eq, length_append]
  have htrailer : 16 ≤ (trailer records).length := by
    simp only [trailer, length_append, length_leBytes]
    omega
  have hseek : (encodeSegment records).drop (recordsBytes records).length = trailer records := by
    rw [encodeSegment_eq, drop_left]
  rw [Segment.open, openFile_eq hfile, ok_bind]
  simp only [hfooter]
  rw [if_neg (by omega), readU64_leBytes hbytes, ok_bind]
  simp only [readU64_leBytes hmagic, ok_bind]
  rw [if_neg (by simp), if_neg (by omega), hseek, trailer, readU32_leBytes hcount, ok_bind]
  simp only [hentries, ok_bind]
  rfl

/-! ## Scanning -/

/-- The visits of a scan over a list of records. -/
def visitAll {σ : Type} (visit : σ → Str → Bytes → ForInStep σ) (acc : σ) : List Record → σ
  | [] => acc
  | record :: records =>
    match visit acc record.1 record.2 with
    | .done acc => acc
    | .yield acc => visitAll visit acc records

theorem scanRecords_eq_visitAll {σ : Type} (visit : σ → Str → Bytes → ForInStep σ)
    (records : List Record) (rest : Bytes) (pos : ℕ) (acc : σ)
    (hkey : ∀ record ∈ records, (Str.utf8 record.1).length < 2 ^ 32)
    (hvalue : ∀ record ∈ records, record.2.length < 2 ^ 32) :
    scanRecords (pos + (recordsBytes records).length) visit pos (recordsBytes records ++ rest) acc =
      .ok (visitAll visit acc records) := by
  induction records generalizing pos acc with
  | nil =>
    rw [scanRecords]
    simp [visitAll]
  | cons record records ih =>
    have hhead : record ∈ record :: records := mem_cons_self
    have htail (acc : σ) := ih (pos + (recordBytes record).length) acc
      (fun r hr ↦ hkey r (mem_cons_of_mem record hr))
      (fun r hr ↦ hvalue r (mem_cons_of_mem record hr))
    have hend : pos + (recordsBytes (record :: records)).length =
        pos + (recordBytes record).length + (recordsBytes records).length := by
      rw [recordsBytes_cons, length_append, Nat.add_assoc]
    have hpos := length_recordBytes record
    rw [scanRecords, if_pos (by omega), hend, recordsBytes_cons, recordBytes, append_assoc,
      append_assoc, readString_putBytes (hkey record hhead)]
    simp only [readBytes_putBytes (hvalue record hhead)]
    rw [visitAll]
    cases visit acc record.1 record.2 with
    | done acc => rfl
    | yield acc =>
      rw [← hpos]
      exact htail acc

/-- A scan of a written segment that starts at the record `n`. -/
theorem scanRecords_encodeSegment {σ : Type} (visit : σ → Str → Bytes → ForInStep σ)
    {records : List Record} (hfits : Fits records) (n : ℕ) (acc : σ) :
    scanRecords (recordsBytes records).length visit (recordsBytes (records.take n)).length
        ((encodeSegment records).drop (recordsBytes (records.take n)).length) acc =
      .ok (visitAll visit acc (records.drop n)) := by
  have hsplit : recordsBytes records =
      recordsBytes (records.take n) ++ recordsBytes (records.drop n) := by
    rw [← recordsBytes_append, take_append_drop]
  have hdrop : (encodeSegment records).drop (recordsBytes (records.take n)).length =
      recordsBytes (records.drop n) ++ trailer records := by
    rw [encodeSegment_eq, hsplit, append_assoc, drop_left]
  have hend : (recordsBytes records).length =
      (recordsBytes (records.take n)).length + (recordsBytes (records.drop n)).length := by
    rw [← length_append, ← hsplit]
  rw [hdrop, hend]
  apply scanRecords_eq_visitAll
  · intro record hrecord
    exact hfits.key record (mem_of_mem_drop hrecord)
  · intro record hrecord
    exact hfits.value record (mem_of_mem_drop hrecord)

/-! ## The order of the keys -/

theorem Ascending.pairwise {α : Type} {records : List (Str × α)} (hsorted : Ascending records) :
    records.Pairwise fun a b ↦ compare a.1 b.1 = .lt := by
  have htrans : Trans (fun a b : Str × α ↦ compare a.1 b.1 = .lt)
      (fun a b : Str × α ↦ compare a.1 b.1 = .lt) (fun a b : Str × α ↦ compare a.1 b.1 = .lt) :=
    ⟨fun hab hbc ↦ Std.TransCmp.lt_trans hab hbc⟩
  exact List.isChain_iff_pairwise.mp hsorted

theorem Ascending.drop {α : Type} {records : List (Str × α)} (hsorted : Ascending records) (n : ℕ) :
    Ascending (records.drop n) :=
  List.IsChain.drop hsorted n

/-- Records before one whose key does not exceed `key` stand strictly before `key`. -/
theorem Ascending.take_lt {records : List Record} (hsorted : Ascending records) {n : ℕ}
    {record : Record} (hrecord : records[n]? = some record) {key : Str}
    (hle : (compare record.1 key).isLE) :
    ∀ earlier ∈ records.take n, compare earlier.1 key = .lt := by
  intro earlier hearlier
  obtain ⟨hn, hget⟩ := List.getElem?_eq_some_iff.mp hrecord
  obtain ⟨m, hm, rfl⟩ := List.mem_take_iff_getElem.mp hearlier
  have hlt : compare (records[m].1) (records[n].1) = .lt :=
    List.pairwise_iff_getElem.mp hsorted.pairwise m n (by omega) hn (by omega)
  rw [hget] at hlt
  exact Std.TransCmp.lt_of_lt_of_isLE hlt hle

theorem lookup_eq_none_of_lt {α : Type} {records : List (Str × α)} {key : Str}
    (hlt : ∀ record ∈ records, compare record.1 key = .lt) : records.lookup key = none := by
  apply List.lookup_eq_none_iff.mpr
  intro record hrecord
  exact bne_iff_ne.mpr (Str.ne_of_compare_lt (hlt record hrecord)).symm

theorem not_prefix_of_lt {start key : Str} (hlt : compare key start = .lt) : ¬ start <+: key := by
  intro hstart
  have hle := Str.compare_isLE_of_prefix hstart
  rw [Str.compare_gt_iff.mpr hlt] at hle
  exact absurd hle (by decide)

/-- A search may skip the records before its key. -/
theorem lookup_drop {α : Type} {records : List (Str × α)} {n : ℕ} {key : Str}
    (hlt : ∀ record ∈ records.take n, compare record.1 key = .lt) :
    (records.drop n).lookup key = records.lookup key := by
  conv_rhs => rw [← take_append_drop n records]
  rw [lookup_append, lookup_eq_none_of_lt hlt, Option.none_or]

theorem filter_prefix_drop {records : List Record} {n : ℕ} {start : Str}
    (hlt : ∀ record ∈ records.take n, compare record.1 start = .lt) :
    (records.drop n).filter (fun record ↦ start <+: record.1) =
      records.filter fun record ↦ start <+: record.1 := by
  have hnone : (records.take n).filter (fun record ↦ start <+: record.1) = [] := by
    apply List.filter_eq_nil_iff.mpr
    intro record hrecord
    simpa using not_prefix_of_lt (hlt record hrecord)
  conv_rhs => rw [← take_append_drop n records]
  rw [filter_append, hnone, nil_append]

/-! ## The visitors of the three scans -/

theorem visitAll_seekKey {records : List Record} (hsorted : Ascending records) (key : Str) :
    visitAll (seekKey key) none records = records.lookup key := by
  induction records with
  | nil => rfl
  | cons record records ih =>
    have htail := ih (hsorted.drop 1)
    rw [visitAll, seekKey, lookup_cons]
    cases hcompare : compare record.1 key with
    | eq =>
      have hkey : record.1 = key := Std.LawfulEqCmp.eq_of_compare hcompare
      simp [hkey]
    | lt =>
      have hne : (key == record.1) = false :=
        beq_false_of_ne (Str.ne_of_compare_lt hcompare).symm
      simp only [hne]
      exact htail
    | gt =>
      have hkey : compare key record.1 = .lt := Str.compare_gt_iff.mp hcompare
      have hne : (key == record.1) = false := beq_false_of_ne (Str.ne_of_compare_lt hkey)
      have habsent : records.lookup key = none := by
        apply List.lookup_eq_none_iff.mpr
        intro later hlater
        have hrecord : compare record.1 later.1 = .lt :=
          rel_of_pairwise_cons hsorted.pairwise hlater
        exact bne_iff_ne.mpr (Str.ne_of_compare_lt (Std.TransCmp.lt_trans hkey hrecord))
      simp only [hne, habsent]

theorem visitAll_records (records out : List Record) :
    visitAll (fun out k v ↦ .yield (out ++ [(k, v)])) out records = out ++ records := by
  induction records generalizing out with
  | nil => simp [visitAll]
  | cons record records ih =>
    rw [visitAll]
    simp only [ih]
    simp

theorem visitAll_collectPrefix {records : List Record} (hsorted : Ascending records) (start : Str)
    (out : List Record) :
    visitAll (collectPrefix start) out records =
      out ++ records.filter fun record ↦ start <+: record.1 := by
  induction records generalizing out with
  | nil => simp [visitAll]
  | cons record records ih =>
    have htail (out : List Record) := ih (hsorted.drop 1) out
    rw [visitAll, collectPrefix]
    by_cases hlt : compare record.1 start = .lt
    · simp only [if_pos hlt, htail]
      simp [not_prefix_of_lt hlt]
    · by_cases hstart : start <+: record.1
      · simp only [if_neg hlt, if_pos hstart, htail]
        simp [hstart]
      · have hnone : records.filter (fun record ↦ start <+: record.1) = [] := by
          apply List.filter_eq_nil_iff.mpr
          intro later hmem
          have hlater : compare record.1 later.1 = .lt :=
            rel_of_pairwise_cons hsorted.pairwise hmem
          simpa using Str.not_prefix_of_compare_lt hlt hstart hlater
        simp only [if_neg hlt, if_neg hstart]
        simp [hstart, hnone]

/-! ## Searching through the sparse index -/

theorem getElem?_of_lt_length_takeWhile {α : Type} {test : α → Bool} {xs : List α} {m : ℕ}
    (hm : m < (xs.takeWhile test).length) : ∃ x, xs[m]? = some x ∧ test x := by
  have hstart := xs.takeWhile_prefix test
  have hmem : (xs.takeWhile test)[m] ∈ xs.takeWhile test := getElem_mem hm
  refine ⟨(xs.takeWhile test)[m], ?_, List.all_eq_true.mp all_takeWhile _ hmem⟩
  rw [List.getElem?_eq_some_iff]
  exact ⟨hm.trans_le hstart.length_le, (hstart.getElem hm).symm⟩

theorem test_getElem?_length_takeWhile {α : Type} {test : α → Bool} {xs : List α} {x : α}
    (hx : xs[(xs.takeWhile test).length]? = some x) : test x = false := by
  induction xs with
  | nil => simp at hx
  | cons y xs ih =>
    cases htest : test y with
    | false =>
      rw [takeWhile_cons, htest] at hx
      simp only [Bool.false_eq_true, if_false, length_nil, getElem?_cons_zero,
        Option.some.injEq] at hx
      rw [← hx, htest]
    | true =>
      rw [takeWhile_cons, htest] at hx
      simp only [if_true, length_cons, getElem?_cons_succ] at hx
      exact ih hx

/-- The record that a sparse entry stands for, and the bytes before it. -/
theorem opened_entry {path : Str} {records : List Record} {i : ℕ} {entry : Str × ℕ}
    (hentry : (opened path records).sparse[i]? = some entry) :
    ∃ record, records[stride * i]? = some record ∧ record.1 = entry.1 ∧
      (opened path records).offset i = (recordsBytes (records.take (stride * i))).length := by
  have hsparse := writeRecords_sparse_getElem? records i
  change (writeRecords records).sparse[i]? = some entry at hentry
  rw [hentry] at hsparse
  obtain ⟨record, hrecord, heq⟩ := Option.map_eq_some_iff.mp hsparse.symm
  refine ⟨record, hrecord, by rw [← heq], ?_⟩
  change ((writeRecords records).sparse[i]?.map Prod.snd).getD 0 = _
  rw [hentry, ← heq]
  rfl

/-- Where a search through the sparse index starts: at a record with nothing from its key on
before it, or before all the records. -/
theorem binarySearch_opened {path : Str} {records : List Record} (hsorted : Ascending records)
    (key : Str) :
    match binarySearch (opened path records).sparse key with
    | .ok i | .error (i + 1) =>
      (opened path records).offset i = (recordsBytes (records.take (stride * i))).length ∧
        ∀ record ∈ records.take (stride * i), compare record.1 key = .lt
    | .error 0 => ∀ record ∈ records, compare key record.1 = .lt := by
  set sparse := (opened path records).sparse with hsparse
  set i := (sparse.takeWhile fun entry ↦ compare entry.1 key == .lt).length with hi
  have hbefore (m : ℕ) (hm : m < i) :
      (opened path records).offset m = (recordsBytes (records.take (stride * m))).length ∧
        ∀ record ∈ records.take (stride * m), compare record.1 key = .lt := by
    obtain ⟨entry, hentry, hlt⟩ := getElem?_of_lt_length_takeWhile hm
    obtain ⟨record, hrecord, hkey, hoffset⟩ := opened_entry hentry
    refine ⟨hoffset, hsorted.take_lt hrecord ?_⟩
    rw [hkey, eq_of_beq hlt]
    rfl
  have hfirst (hzero : i = 0) (hne : ∀ entry, sparse[i]? = some entry → compare entry.1 key ≠ .eq) :
      ∀ record ∈ records, compare key record.1 = .lt := by
    intro record hmem
    cases records with
    | nil => simp at hmem
    | cons first records =>
      have hentry : sparse[i]? = some (first.1, 0) := by
        rw [hzero]
        exact (writeRecords_sparse_getElem? (first :: records) 0).trans rfl
      have hnotLt := test_getElem?_length_takeWhile hentry
      have hkey : compare key first.1 = .lt := by
        have hnotEq := hne _ hentry
        cases hcompare : compare first.1 key with
        | lt => simp [hcompare] at hnotLt
        | eq => exact absurd hcompare hnotEq
        | gt => exact Str.compare_gt_iff.mp hcompare
      rcases List.mem_cons.mp hmem with rfl | htail
      · exact hkey
      · exact Std.TransCmp.lt_trans hkey (rel_of_pairwise_cons hsorted.pairwise htail)
  rw [binarySearch]
  simp only [← hi]
  cases hentry : sparse[i]? with
  | none =>
    cases hcase : i with
    | zero =>
      apply hfirst hcase
      simp [hentry]
    | succ m => exact hbefore m (by omega)
  | some entry =>
    by_cases heq : compare entry.1 key = .eq
    · obtain ⟨record, hrecord, hkey, hoffset⟩ := opened_entry (hsparse ▸ hentry)
      simp only [if_pos heq]
      refine ⟨hoffset, hsorted.take_lt hrecord ?_⟩
      rw [hkey, heq]
      rfl
    · simp only [if_neg heq]
      cases hcase : i with
      | zero =>
        apply hfirst hcase
        intro other hother
        rw [hentry] at hother
        rw [← Option.some.inj hother]
        exact heq
      | succ m => exact hbefore m (by omega)

/-! ## The three scans of a written segment -/

section Written

variable {files : Files} {path : Str} {records : List Record}

theorem sparse_isEmpty_iff : (opened path records).sparse.isEmpty ↔ records = [] := by
  have hlength := writeRecords_sparse_length records
  change (writeRecords records).sparse.isEmpty ↔ _
  rw [List.isEmpty_iff, ← length_eq_zero_iff, ← length_eq_zero_iff, hlength]
  simp only [stride]
  omega

theorem get_opened (hsorted : Ascending records) (hfits : Fits records)
    (hfile : files[path]? = some (encodeSegment records)) (key : Str) :
    (opened path records).get files key = .ok (records.lookup key) := by
  have hread (i : ℕ) (hoffset : (opened path records).offset i =
      (recordsBytes (records.take (stride * i))).length)
      (hlt : ∀ record ∈ records.take (stride * i), compare record.1 key = .lt) :
      (opened path records).readAt files ((opened path records).offset i) key =
        .ok (records.lookup key) := by
    rw [Segment.readAt]
    change (openFile files path >>= fun bytes ↦ scanRecords (recordsBytes records).length _ _ _ _) = _
    rw [openFile_eq hfile, ok_bind, hoffset, scanRecords_encodeSegment _ hfits,
      visitAll_seekKey (hsorted.drop _), lookup_drop hlt]
  have hstart := @binarySearch_opened path records hsorted key
  rw [Segment.get]
  by_cases hempty : records = []
  · rw [if_pos (sparse_isEmpty_iff.mpr hempty), hempty]
    rfl
  · rw [if_neg (fun h ↦ hempty (sparse_isEmpty_iff.mp h))]
    cases hsearch : binarySearch (opened path records).sparse key with
    | ok i =>
      rw [hsearch] at hstart
      exact hread i hstart.1 hstart.2
    | error i =>
      rw [hsearch] at hstart
      cases i with
      | zero =>
        have habsent : records.lookup key = none := by
          apply List.lookup_eq_none_iff.mpr
          intro record hrecord
          exact bne_iff_ne.mpr (Str.ne_of_compare_lt (hstart record hrecord))
        rw [habsent]
      | succ i => exact hread i hstart.1 hstart.2

theorem records_opened (hfits : Fits records)
    (hfile : files[path]? = some (encodeSegment records)) :
    (opened path records).records files = .ok records := by
  have hscan := scanRecords_encodeSegment (fun out k v ↦ .yield (out ++ [(k, v)])) hfits 0 []
  rw [take_zero, drop_zero, visitAll_records] at hscan
  rw [Segment.records]
  change (openFile files path >>= fun bytes ↦ scanRecords (recordsBytes records).length _ _ _ _) = _
  rw [openFile_eq hfile, ok_bind]
  exact hscan

theorem scanPrefix_opened (hsorted : Ascending records) (hfits : Fits records)
    (hfile : files[path]? = some (encodeSegment records)) (start : Str) :
    (opened path records).scanPrefix files start =
      .ok (records.filter fun record ↦ start <+: record.1) := by
  have hread (n : ℕ) (hlt : ∀ record ∈ records.take n, compare record.1 start = .lt) :
      scanRecords (recordsBytes records).length (collectPrefix start)
          (recordsBytes (records.take n)).length
          ((encodeSegment records).drop (recordsBytes (records.take n)).length) [] =
        .ok (records.filter fun record ↦ start <+: record.1) := by
    rw [scanRecords_encodeSegment _ hfits, visitAll_collectPrefix (hsorted.drop _),
      filter_prefix_drop hlt, nil_append]
  have hstart := @binarySearch_opened path records hsorted start
  rw [Segment.scanPrefix]
  by_cases hempty : records = []
  · rw [if_pos (sparse_isEmpty_iff.mpr hempty), hempty]
    rfl
  · rw [if_neg (fun h ↦ hempty (sparse_isEmpty_iff.mp h))]
    change (openFile files path >>= fun bytes ↦ scanRecords (recordsBytes records).length _ _ _ _) = _
    rw [openFile_eq hfile, ok_bind]
    cases hsearch : binarySearch (opened path records).sparse start with
    | ok i =>
      rw [hsearch] at hstart
      simp only [hstart.1]
      exact hread _ hstart.2
    | error i =>
      rw [hsearch] at hstart
      cases i with
      | zero => exact hread 0 (by simp)
      | succ i =>
        simp only [hstart.1]
        exact hread _ hstart.2

end Written

end SoulSystem.Ccos.ColdIndex
