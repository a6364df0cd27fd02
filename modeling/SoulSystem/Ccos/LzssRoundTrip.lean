import SoulSystem.Ccos.Lzss

/-!
# Losslessness of the LZSS codec

The compressor is followed token by token.  The hash chains only ever name positions before the
current one, so a candidate is compared inside the input and becomes a back-reference that reaches
at most `window` bytes back.  Each emitted token extends the decoded prefix of the input, and the
flag byte written over its placeholder selects exactly the emitted kinds of tokens.  The decoder's
meaning function then returns the input.
-/

namespace SoulSystem.Ccos.Lzss

open Library.LempelZiv List

/-! ## Words and flag bytes -/

/-- A position that wraps around is stored as an earlier one, or as no position at all. -/
theorem toI32_le (n : ℕ) : toI32 n ≤ n := by
  have hmod : (n : ℤ) % ((2 ^ 32 : ℕ) : ℤ) ≤ n := by
    rw [← Int.natCast_mod]
    exact Int.ofNat_le.mpr (Nat.mod_le n _)
  unfold toI32
  rw [Int.bmod_def]
  split
  · exact hmod
  · exact le_trans (by omega) hmod

theorem flagBit_toNat {bit : ℕ} (hbit : bit < 8) : (flagBit bit).toNat = 2 ^ bit := by
  interval_cases bit <;> rfl

theorem flagged_iff_testBit (flag : UInt8) {bit : ℕ} (hbit : bit < 8) :
    flag &&& flagBit bit ≠ 0 ↔ flag.toNat.testBit bit = true := by
  rw [← UInt8.toNat_inj.ne, UInt8.toNat_and, flagBit_toNat hbit]
  constructor
  · intro hmask
    by_contra hclear
    apply hmask
    apply Nat.eq_of_testBit_eq
    intro i
    rw [Nat.testBit_and, Nat.testBit_two_pow]
    by_cases hi : bit = i
    · subst hi
      simpa using hclear
    · simp [hi]
  · intro hset hzero
    have hbits := congrArg (fun n ↦ n.testBit bit) hzero
    simp [Nat.testBit_and, hset] at hbits

theorem not_flagged_zero {bit : ℕ} (hbit : bit < 8) : ¬((0 : UInt8) &&& flagBit bit ≠ 0) := by
  rw [flagged_iff_testBit 0 hbit]
  simp

/-- Setting one flag bit leaves the other seven alone. -/
theorem flagged_or_iff (flag : UInt8) {bit other : ℕ} (hbit : bit < 8) (hother : other < 8) :
    (flag ||| flagBit bit) &&& flagBit other ≠ 0 ↔ flag &&& flagBit other ≠ 0 ∨ bit = other := by
  rw [flagged_iff_testBit _ hother, flagged_iff_testBit _ hother, UInt8.toNat_or,
    flagBit_toNat hbit, Nat.testBit_or, Nat.testBit_two_pow]
  simp

theorem refCode_toNat {offset length : ℕ} (hoffset : offset - 1 < 2 ^ 12)
    (hlength : length - minMatch < 2 ^ 4) :
    (refCode offset length).toNat = (offset - 1) * 2 ^ 4 + (length - minMatch) := by
  have hmodOffset : (offset - 1) % 2 ^ 16 = offset - 1 := Nat.mod_eq_of_lt (by omega)
  have hmodLength : (length - minMatch) % 2 ^ 16 = length - minMatch :=
    Nat.mod_eq_of_lt (by omega)
  have hshift : (offset - 1) <<< 4 < 2 ^ 16 := by
    rw [Nat.shiftLeft_eq]
    omega
  rw [refCode, UInt16.toNat_or, UInt16.toNat_shiftLeft, UInt16.toNat_ofNat',
    UInt16.toNat_ofNat', hmodOffset, hmodLength]
  change ((offset - 1) <<< 4) % 2 ^ 16 ||| _ = _
  rw [Nat.mod_eq_of_lt hshift, ← Nat.shiftLeft_add_eq_or_of_lt hlength, Nat.shiftLeft_eq]

/-- The two bytes of a word read back as the word. -/
theorem readCode_split (code : UInt16) :
    readCode (code >>> 8).toUInt8 (code &&& 0xFF).toUInt8 = code := by
  have hcode := code.toNat_lt
  have hlow : (code &&& 0xFF).toUInt8.toNat = code.toNat % 2 ^ 8 := by
    rw [UInt16.toNat_toUInt8, UInt16.toNat_and]
    change (code.toNat &&& (2 ^ 8 - 1)) % 2 ^ 8 = _
    rw [Nat.and_two_pow_sub_one_eq_mod, Nat.mod_mod]
  have hhigh : (code >>> 8).toUInt8.toNat = code.toNat / 2 ^ 8 := by
    rw [UInt16.toNat_toUInt8, UInt16.toNat_shiftRight]
    change (code.toNat >>> 8) % 2 ^ 8 = _
    rw [Nat.shiftRight_eq_div_pow, Nat.mod_eq_of_lt (by omega)]
  have hshift : (code.toNat / 2 ^ 8) <<< 8 < 2 ^ 16 := by
    rw [Nat.shiftLeft_eq]
    omega
  apply UInt16.toNat_inj.mp
  rw [readCode, UInt16.toNat_or, UInt16.toNat_shiftLeft, UInt8.toNat_toUInt16,
    UInt8.toNat_toUInt16, hlow, hhigh]
  change ((code.toNat / 2 ^ 8) <<< 8) % 2 ^ 16 ||| _ = _
  rw [Nat.mod_eq_of_lt hshift,
    ← Nat.shiftLeft_add_eq_or_of_lt (Nat.mod_lt _ (by norm_num : 0 < 2 ^ 8)), Nat.shiftLeft_eq]
  omega

theorem refToken_refCode {offset length : ℕ} (hpos : 1 ≤ offset) (hoffset : offset ≤ window)
    (hmin : minMatch ≤ length) (hmax : length ≤ maxMatch) :
    refToken (refCode offset length >>> 8).toUInt8 (refCode offset length &&& 0xFF).toUInt8 =
      .reference offset length := by
  simp only [window, minMatch, maxMatch] at hoffset hmin hmax
  have hcode := @refCode_toNat offset length (by omega) (by simp only [minMatch]; omega)
  simp only [minMatch] at hcode
  have hreadOffset : refOffset (refCode offset length) = offset := by
    rw [refOffset, UInt16.toNat_add, UInt16.toNat_shiftRight]
    change ((refCode offset length).toNat >>> 4 + 1) % 2 ^ 16 = _
    rw [hcode, Nat.shiftRight_eq_div_pow]
    omega
  have hreadLength : refLength (refCode offset length) = length := by
    rw [refLength, UInt16.toNat_and]
    change ((refCode offset length).toNat &&& (2 ^ 4 - 1)) + minMatch = _
    rw [hcode, Nat.and_two_pow_sub_one_eq_mod]
    simp only [minMatch]
    omega
  rw [refToken, readCode_split, hreadOffset, hreadLength]

/-! ## The hash chains name earlier positions -/

/-- Every chain entry is a position before the one that would follow it. -/
structure Chains.Earlier (data : Bytes) (chains : Chains) (pos : ℕ) : Prop where
  head_length : chains.head.length = hashSize
  prev_length : chains.prev.length = data.length
  head_lt : ∀ cand ∈ chains.head, cand < (pos : ℤ)
  prev_lt : ∀ (c : ℕ) (cand : ℤ), chains.prev[c]? = some cand → cand < (c : ℤ)

theorem Chains.empty_earlier (data : Bytes) : (Chains.empty data.length).Earlier data 0 where
  head_length := length_replicate
  prev_length := length_replicate
  head_lt cand hmem := by
    rw [eq_of_mem_replicate hmem]
    norm_num
  prev_lt c cand hcand := by
    have hmem : cand ∈ List.replicate data.length (-1 : ℤ) := mem_of_getElem? hcand
    rw [eq_of_mem_replicate hmem]
    omega

theorem hash3_ok {data : Bytes} {pos : ℕ} (hfit : pos + minMatch ≤ data.length) :
    ∃ h < hashSize, hash3 data pos = .ok h := by
  simp only [minMatch] at hfit
  have hfirst : pos < data.length := by omega
  have hsecond : pos + 1 < data.length := by omega
  have hthird : pos + 2 < data.length := by omega
  refine ⟨((data[pos].toNat <<< 10) ^^^ (data[pos + 1].toNat <<< 5) ^^^ data[pos + 2].toNat) &&&
    (hashSize - 1), Nat.lt_of_le_of_lt Nat.and_le_right (by decide), ?_⟩
  rw [hash3, index_of_lt hfirst, index_of_lt hsecond, index_of_lt hthird]
  rfl

theorem insert_earlier {data : Bytes} {chains : Chains} {pos : ℕ}
    (hchains : chains.Earlier data pos) :
    ∃ chains', insert data chains pos = .ok chains' ∧ chains'.Earlier data (pos + 1) := by
  have hweak : ∀ cand ∈ chains.head, cand < ((pos + 1 : ℕ) : ℤ) := by
    intro cand hmem
    have h := hchains.head_lt cand hmem
    omega
  by_cases hfit : pos + minMatch ≤ data.length
  · obtain ⟨h, hh, hhash⟩ := hash3_ok hfit
    have hhead : h < chains.head.length := by
      rw [hchains.head_length]
      exact hh
    have hprev : pos < chains.prev.length := by
      rw [hchains.prev_length]
      simp only [minMatch] at hfit
      omega
    refine ⟨⟨chains.head.set h (toI32 pos), chains.prev.set pos chains.head[h]⟩, ?_, ?_⟩
    · rw [insert, if_pos hfit, hhash]
      simp only [bind, Except.bind, index_of_lt hhead, store, if_pos hhead, if_pos hprev, pure,
        Except.pure]
    · refine ⟨?_, ?_, ?_, ?_⟩
      · rw [length_set, hchains.head_length]
      · rw [length_set, hchains.prev_length]
      · intro cand hmem
        rcases mem_or_eq_of_mem_set hmem with hold | hnew
        · exact hweak cand hold
        · rw [hnew]
          exact lt_of_le_of_lt (toI32_le pos) (Int.ofNat_lt.mpr (Nat.lt_succ_self pos))
      · intro c cand hcand
        by_cases hc : pos = c
        · subst hc
          rw [getElem?_set_self hprev] at hcand
          cases hcand
          exact hchains.head_lt _ (getElem_mem hhead)
        · rw [getElem?_set_ne hc] at hcand
          exact hchains.prev_lt c cand hcand
  · refine ⟨chains, ?_, hchains.head_length, hchains.prev_length, hweak, hchains.prev_lt⟩
    rw [insert, if_neg hfit]

theorem insertAll_earlier {data : Bytes} (count : ℕ) {chains : Chains} {pos : ℕ}
    (hchains : chains.Earlier data pos) :
    ∃ chains', insertAll data (List.range' pos count) chains = .ok chains' ∧
      chains'.Earlier data (pos + count) := by
  induction count generalizing chains pos with
  | zero => exact ⟨chains, rfl, hchains⟩
  | succ count ih =>
    obtain ⟨middle, hinsert, hmiddle⟩ := insert_earlier hchains
    obtain ⟨chains', hrest, hearlier⟩ := ih hmiddle
    refine ⟨chains', ?_, ?_⟩
    · rw [range'_succ, insertAll, hinsert]
      exact hrest
    · rw [show pos + (count + 1) = pos + 1 + count by omega]
      exact hearlier

/-! ## Candidate matches are real matches -/

/-- A match of `best.1` bytes at distance `best.2`, or no match at all. -/
def GoodMatch (data : Bytes) (pos maxLen : ℕ) (best : Best) : Prop :=
  best.1 ≤ maxLen ∧ (0 < best.1 → 1 ≤ best.2 ∧ best.2 ≤ window ∧ best.2 ≤ pos ∧
    ∀ k < best.1, data[pos - best.2 + k]? = data[pos + k]?)

theorem matchLength_spec {data : Bytes} {c pos : ℕ} (hc : c < pos) (left l : ℕ)
    (hfit : pos + l + left ≤ data.length) :
    ∃ r, matchLength data c pos left l = .ok r ∧ r ≤ l + left ∧
      ∀ k, l ≤ k → k < r → data[c + k]? = data[pos + k]? := by
  induction left generalizing l with
  | zero =>
    refine ⟨l, rfl, Nat.le_refl l, ?_⟩
    intro k hlk hkl
    omega
  | succ left ih =>
    have hleft : c + l < data.length := by omega
    have hright : pos + l < data.length := by omega
    by_cases hbyte : data[c + l] = data[pos + l]
    · obtain ⟨r, hrun, hbound, hsame⟩ := ih (l + 1) (by omega)
      refine ⟨r, ?_, by omega, ?_⟩
      · rw [matchLength, index_of_lt hleft, index_of_lt hright]
        simp only [bind, Except.bind, if_pos hbyte]
        exact hrun
      · intro k hlk hkr
        rcases Nat.eq_or_lt_of_le hlk with rfl | hlt
        · rw [getElem?_eq_getElem hleft, getElem?_eq_getElem hright, hbyte]
        · exact hsame k hlt hkr
    · refine ⟨l, ?_, by omega, ?_⟩
      · rw [matchLength, index_of_lt hleft, index_of_lt hright]
        simp only [bind, Except.bind, if_neg hbyte]
      · intro k hlk hkl
        omega

theorem searchChain_spec {data : Bytes} {chains : Chains} {pos maxLen : ℕ}
    (hchains : chains.Earlier data pos) (hfit : pos + maxLen ≤ data.length) (left : ℕ) (cand : ℤ)
    (best : Best) (hcand : cand < pos) (hbest : GoodMatch data pos maxLen best) :
    ∃ found, searchChain data chains.prev pos (pos - window) maxLen left cand best = .ok found ∧
      GoodMatch data pos maxLen found := by
  induction left generalizing cand best with
  | zero => exact ⟨best, rfl, hbest⟩
  | succ left ih =>
    rw [searchChain]
    by_cases hguard : 0 ≤ cand ∧ pos - window ≤ cand.toNat
    · have hc : cand.toNat < pos := by omega
      have hprev : cand.toNat < chains.prev.length := by
        rw [hchains.prev_length]
        omega
      have hnext : chains.prev[cand.toNat] < (pos : ℤ) := by
        have h := hchains.prev_lt cand.toNat _ (getElem?_eq_getElem hprev)
        omega
      obtain ⟨l, hrun, hbound, hsame⟩ := matchLength_spec hc maxLen 0 (by omega)
      have hfound : GoodMatch data pos maxLen (l, pos - cand.toNat) := by
        refine ⟨by omega, ?_⟩
        intro _
        refine ⟨by omega, by omega, Nat.sub_le _ _, ?_⟩
        intro k hk
        rw [Nat.sub_sub_self (Nat.le_of_lt hc)]
        exact hsame k (Nat.zero_le k) hk
      simp only [if_pos hguard, hrun, bind, Except.bind, index_of_lt hprev]
      by_cases hbetter : best.1 < l
      · rw [if_pos hbetter]
        by_cases hfull : l = maxLen
        · rw [if_pos hfull]
          exact ⟨_, rfl, hfound⟩
        · rw [if_neg hfull]
          exact ih _ _ hnext hfound
      · rw [if_neg hbetter]
        exact ih _ _ hnext hbest
    · rw [if_neg hguard]
      exact ⟨best, rfl, hbest⟩

theorem bestMatch_spec {data : Bytes} {chains : Chains} {pos : ℕ}
    (hchains : chains.Earlier data pos) (hpos : pos < data.length) :
    ∃ best, bestMatch data chains pos = .ok best ∧
      GoodMatch data pos (min (data.length - pos) maxMatch) best := by
  have hnone : GoodMatch data pos (min (data.length - pos) maxMatch) (0, 0) :=
    ⟨Nat.zero_le _, fun h ↦ absurd h (Nat.lt_irrefl 0)⟩
  rw [bestMatch]
  by_cases hroom : minMatch ≤ min (data.length - pos) maxMatch
  · have hfit : pos + minMatch ≤ data.length := by omega
    obtain ⟨h, hh, hhash⟩ := hash3_ok hfit
    have hhead : h < chains.head.length := by
      rw [hchains.head_length]
      exact hh
    simp only [if_pos hroom, hhash, bind, Except.bind, index_of_lt hhead]
    exact searchChain_spec hchains (by omega) maxChain _ _
      (hchains.head_lt _ (getElem_mem hhead)) hnone
  · simp only [if_neg hroom]
    exact ⟨_, rfl, hnone⟩

/-! ## The emitted tokens decode to the input -/

/-- Whether a token is announced by a set flag bit. -/
def isReference : Token UInt8 → Bool
  | .literal _ => false
  | .reference _ _ => true

/-- One emitted token: the bytes it was written as are read back as it. -/
structure Emitted (token : Token UInt8) (bytes : Bytes) : Prop where
  ne_nil : bytes ≠ []
  reads : ∀ (flag : UInt8) (left : ℕ) (rest : Bytes),
    (flag &&& flagBit (7 - left) ≠ 0 ↔ isReference token = true) →
      parseBlock flag (left + 1) (bytes ++ rest) =
        (token :: (parseBlock flag left rest).1, (parseBlock flag left rest).2)

theorem emitted_literal (byte : UInt8) : Emitted (.literal byte) [byte] where
  ne_nil := cons_ne_nil _ _
  reads flag left rest hflag := by
    have hclear : ¬(flag &&& flagBit (7 - left) ≠ 0) := by
      rw [hflag]
      exact Bool.false_ne_true
    rw [singleton_append, parseBlock_cons, if_neg hclear]

theorem emitted_reference {offset length : ℕ} (hpos : 1 ≤ offset) (hoffset : offset ≤ window)
    (hmin : minMatch ≤ length) (hmax : length ≤ maxMatch) :
    Emitted (.reference offset length)
      [(refCode offset length >>> 8).toUInt8, (refCode offset length &&& 0xFF).toUInt8] where
  ne_nil := cons_ne_nil _ _
  reads flag left rest hflag := by
    have hset : flag &&& flagBit (7 - left) ≠ 0 := by
      rw [hflag]
      rfl
    rw [cons_append, singleton_append, parseBlock_cons, if_pos hset]
    simp only [refToken_refCode hpos hoffset hmin hmax]

/-- What one iteration of the block loop does. -/
theorem packToken_spec {data : Bytes} {bit : ℕ} (hbit : bit < 8)
    {s : Packer} (hchains : s.chains.Earlier data s.pos) (hpos : s.pos < data.length) :
    ∃ s' token bytes, packToken data bit s = .ok s' ∧ Emitted token bytes ∧
      s'.out = s.out ++ bytes ∧ s.pos < s'.pos ∧ s'.pos ≤ data.length ∧
      s'.chains.Earlier data s'.pos ∧
      expand [token] (data.take s.pos) = some (data.take s'.pos) ∧
      ∀ other < 8, (s'.flag &&& flagBit other ≠ 0 ↔
        s.flag &&& flagBit other ≠ 0 ∨ (bit = other ∧ isReference token = true)) := by
  obtain ⟨best, hbest, hgood⟩ := bestMatch_spec hchains hpos
  obtain ⟨chains, hinsert, hearlier⟩ := insert_earlier hchains
  have htake : (data.take s.pos).length = s.pos := by
    rw [length_take]
    omega
  rw [packToken, hbest, hinsert]
  simp only [bind, Except.bind]
  by_cases hmin : minMatch ≤ best.1
  · have hlength := hgood.1
    obtain ⟨hone, hwindow, hreach, hsame⟩ := hgood.2 (by simp only [minMatch] at hmin; omega)
    obtain ⟨chains', hinsertAll, hearlier'⟩ :=
      insertAll_earlier (best.1 - 1) hearlier
    have hnext : s.pos + 1 + (best.1 - 1) = s.pos + best.1 := by
      simp only [minMatch] at hmin
      omega
    rw [hnext] at hearlier'
    simp only [if_pos hmin, hinsertAll]
    refine ⟨_, .reference best.2 best.1, _, rfl,
      emitted_reference hone hwindow hmin (by omega), rfl, ?_, ?_, hearlier', ?_, ?_⟩
    · change s.pos < s.pos + best.1
      simp only [minMatch] at hmin
      omega
    · change s.pos + best.1 ≤ data.length
      omega
    · rw [expand, htake, if_pos hreach,
        copyBack_take hone best.1 s.pos hreach (by omega) hsame]
      rfl
    · intro other hother
      rw [flagged_or_iff s.flag hbit hother]
      simp [isReference]
  · simp only [if_neg hmin, index_of_lt hpos]
    refine ⟨_, .literal data[s.pos], _, rfl, emitted_literal _, rfl, Nat.lt_succ_self _, hpos,
      hearlier, ?_, ?_⟩
    · rw [expand, expand_nil, take_add_one, getElem?_eq_getElem hpos]
      rfl
    · intro other hother
      simp [isReference]

/-- What the block loop does from bit `8 - left` on: it appends the bytes of some tokens, it leaves
the flag bits it has passed alone, and a decoder that sees the flag byte reads the tokens back. -/
theorem packBlock_spec {data : Bytes} (left : ℕ) (hleft : left ≤ 8)
    {s : Packer} (hchains : s.chains.Earlier data s.pos) (hpos : s.pos ≤ data.length)
    (hclear : ∀ other < 8, 8 - left ≤ other → ¬(s.flag &&& flagBit other ≠ 0)) :
    ∃ s' tokens bytes, packBlock data left s = .ok s' ∧ s'.out = s.out ++ bytes ∧
      s.pos ≤ s'.pos ∧ s'.pos ≤ data.length ∧
      (0 < left → s.pos < data.length → s.pos < s'.pos) ∧
      s'.chains.Earlier data s'.pos ∧
      expand tokens (data.take s.pos) = some (data.take s'.pos) ∧
      (∀ other < 8, other < 8 - left →
        (s'.flag &&& flagBit other ≠ 0 ↔ s.flag &&& flagBit other ≠ 0)) ∧
      ∀ rest : Bytes, (data.length ≤ s'.pos → rest = []) →
        parseBlock s'.flag left (bytes ++ rest) = (tokens, some rest) := by
  induction left generalizing s with
  | zero =>
    refine ⟨s, [], [], rfl, (append_nil _).symm, Nat.le_refl _, hpos, ?_, hchains, rfl,
      fun _ _ _ ↦ Iff.rfl, fun rest _ ↦ rfl⟩
    intro hzero
    exact absurd hzero (Nat.lt_irrefl 0)
  | succ left ih =>
    rw [packBlock]
    by_cases hend : data.length ≤ s.pos
    · rw [if_pos hend]
      refine ⟨s, [], [], rfl, (append_nil _).symm, Nat.le_refl _, hpos, ?_, hchains, rfl,
        fun _ _ _ ↦ Iff.rfl, ?_⟩
      · intro _ hlt
        omega
      · intro rest hrest
        rw [hrest hend]
        rfl
    · have hlt : s.pos < data.length := Nat.lt_of_not_le hend
      have hbit : 7 - left < 8 := by omega
      obtain ⟨mid, token, bytes, hrun, hemitted, hout, hgrow, hmidPos, hmidChains, hexpand,
        hmidFlag⟩ := packToken_spec hbit hchains hlt
      have hmidClear : ∀ other < 8, 8 - left ≤ other → ¬(mid.flag &&& flagBit other ≠ 0) := by
        intro other hother hge
        rw [hmidFlag other hother]
        rintro (hold | ⟨hsame, -⟩)
        · exact hclear other hother (by omega) hold
        · omega
      obtain ⟨s', tokens, more, hrest, hout', hmono, hpos', -, hchains', hexpand', hflag',
        hparse⟩ := ih (by omega) hmidChains hmidPos hmidClear
      refine ⟨s', token :: tokens, bytes ++ more, ?_, ?_, by omega, hpos', ?_, hchains', ?_, ?_,
        ?_⟩
      · rw [if_neg hend, hrun]
        exact hrest
      · rw [hout', hout, append_assoc]
      · intro _ _
        omega
      · rw [show token :: tokens = [token] ++ tokens from rfl, expand_append, hexpand]
        exact hexpand'
      · intro other hother hlow
        rw [hflag' other hother (by omega), hmidFlag other hother]
        constructor
        · rintro (hold | ⟨hsame, -⟩)
          · exact hold
          · omega
        · exact Or.inl
      · intro rest hdone
        have hself : s'.flag &&& flagBit (7 - left) ≠ 0 ↔ isReference token = true := by
          rw [hflag' (7 - left) hbit (by omega), hmidFlag (7 - left) hbit]
          constructor
          · rintro (hold | ⟨-, href⟩)
            · exact absurd hold (hclear (7 - left) hbit (by omega))
            · exact href
          · intro href
            exact Or.inr ⟨rfl, href⟩
        rw [append_assoc, hemitted.reads s'.flag left (more ++ rest) hself, hparse rest hdone]

theorem packLoop_done {data : Bytes} {pos : ℕ} (hend : data.length ≤ pos) (fuel : ℕ) (out : Bytes)
    (chains : Chains) : packLoop data fuel pos out chains = .ok out := by
  cases fuel with
  | zero => rw [packLoop, if_pos hend]
  | succ fuel => rw [packLoop, if_pos hend]

/-- The main loop appends a payload that parses without truncation and means the rest of the
input. -/
theorem packLoop_spec {data : Bytes} (fuel pos : ℕ) (out : Bytes)
    {chains : Chains} (hchains : chains.Earlier data pos) (hpos : pos ≤ data.length)
    (hfuel : data.length - pos ≤ fuel) :
    ∃ payload tokens, packLoop data fuel pos out chains = .ok (out ++ payload) ∧
      expand tokens (data.take pos) = some data ∧
      ∀ depth, payload.length ≤ depth → parseLoop depth payload = (tokens, false) := by
  induction fuel generalizing pos out chains with
  | zero =>
    have hend : data.length ≤ pos := by omega
    refine ⟨[], [], ?_, ?_, ?_⟩
    · rw [packLoop_done hend, append_nil]
    · rw [expand_nil, take_of_length_le hend]
    · intro depth _
      cases depth <;> rfl
  | succ fuel ih =>
    by_cases hend : data.length ≤ pos
    · refine ⟨[], [], ?_, ?_, ?_⟩
      · rw [packLoop_done hend, append_nil]
      · rw [expand_nil, take_of_length_le hend]
      · intro depth _
        cases depth <;> rfl
    · have hlt : pos < data.length := Nat.lt_of_not_le hend
      obtain ⟨s', tokens, bytes, hrun, hout, -, hpos', hgrow, hchains', hexpand, -, hparse⟩ :=
        packBlock_spec (s := ⟨pos, 0, out ++ [0], chains⟩) 8 (Nat.le_refl 8) hchains hpos
          (fun other hother _ ↦ not_flagged_zero hother)
      have hgrow' : pos < s'.pos := hgrow (by norm_num) hlt
      obtain ⟨payload, more, hrest, hexpand', hparse'⟩ :=
        ih s'.pos (out ++ s'.flag :: bytes) hchains' hpos' (by omega)
      have hstore : store s'.out out.length s'.flag = .ok (out ++ s'.flag :: bytes) := by
        rw [hout]
        simp [store]
      have hempty : data.length ≤ s'.pos → payload = [] := by
        intro hdone
        rw [packLoop_done hdone] at hrest
        have hsame := Except.ok.inj hrest
        simpa using hsame
      refine ⟨s'.flag :: bytes ++ payload, tokens ++ more, ?_, ?_, ?_⟩
      · rw [packLoop, if_neg hend, hrun]
        simp only [bind, Except.bind, hstore]
        rw [hrest]
        simp
      · rw [expand_append, hexpand]
        exact hexpand'
      · intro depth hdepth
        cases depth with
        | zero => simp at hdepth
        | succ depth =>
          have hlength : payload.length ≤ depth := by
            simp only [length_append, length_cons] at hdepth
            omega
          rw [cons_append, parseLoop, hparse payload hempty]
          simp only [hparse' depth hlength]

theorem lzssCompress_spec (data : Bytes) :
    ∃ packed, lzssCompress data = .ok packed ∧ lzssDecompress packed = .ok (some data) := by
  obtain ⟨packed, tokens, hrun, hexpand, hparse⟩ :=
    packLoop_spec data.length 0 [] (Chains.empty_earlier data) (Nat.zero_le _) (by omega)
  refine ⟨packed, hrun, ?_⟩
  rw [lzssDecompress_eq, parse, hparse packed.length (Nat.le_refl _), loopResult]
  rw [take_zero] at hexpand
  simp [hexpand]

/-- Compression succeeds, is undone by decompression, and adds at most the header byte. -/
theorem compress_spec (data : Bytes) :
    ∃ blob, compress data = .ok blob ∧ decompress blob = .ok (some data) ∧
      blob.length ≤ data.length + 1 := by
  obtain ⟨packed, hpack, hunpack⟩ := lzssCompress_spec data
  by_cases hshorter : packed.length < data.length
  · refine ⟨1 :: packed, ?_, hunpack, ?_⟩
    · simp [compress, hpack, bind, Except.bind, hshorter, pure, Except.pure]
    · rw [length_cons]
      omega
  · refine ⟨0 :: data, ?_, rfl, Nat.le_refl _⟩
    simp [compress, hpack, bind, Except.bind, hshorter, pure, Except.pure]

/-- **The codec is lossless and total.**  Every input below `2 ^ 31` bytes is compressed to a blob
that is at most one byte longer and decompresses to the input.  Every blob whatsoever is decoded
without an access outside a slice, where the copy of a back-reference reads the output produced so
far, and is refused exactly when it is malformed. -/
theorem codec_lossless_and_total :
    (∀ data : Bytes, data.length < 2 ^ 31 →
      ∃ blob, compress data = .ok blob ∧ decompress blob = .ok (some data) ∧
        blob.length ≤ data.length + 1) ∧
    ∀ blob : Bytes, ∃ result, decompress blob = .ok result ∧ (result = none ↔ Malformed blob) :=
  ⟨fun data _ ↦ compress_spec data, decompress_total⟩

theorem codec_lossless_on_run :
    ∃ blob, compress [7, 7, 7, 7, 7, 7, 7, 7] = .ok blob ∧
      decompress blob = .ok (some [7, 7, 7, 7, 7, 7, 7, 7]) ∧ blob.length ≤ 9 :=
  codec_lossless_and_total.1 [7, 7, 7, 7, 7, 7, 7, 7] (by decide)

end SoulSystem.Ccos.Lzss
