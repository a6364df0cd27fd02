import Mathlib.Tactic
import SoulSystem.Library.LempelZiv

/-!
# The LZSS codec of the COLD spill store

`compress` and `decompress` of `lzss.rs`, with every slice access written as a partial access: an
access past the end of a slice is the `Fault.outOfBounds` that the program would panic with.  The
two `while` loops whose trip count depends on the data carry a fuel argument, and running out of it
is a fault as well, so that a theorem that excludes faults also says that the loops end.

The hash chains keep the source's `i32` entries.  A position is stored through the wrapping cast
`pos as i32`, written `toI32`, and is only meaningful below `2 ^ 31`.

`parse` splits a payload into the tokens that the format description of `lzss.rs` assigns to it,
without looking at any output.  The decoder is shown to compute the meaning of those tokens: it
never faults, it stops, and it rejects a payload exactly when the payload ends in the middle of a
back-reference or when one of its back-references points before the start of the output.
-/

namespace SoulSystem.Ccos.Lzss

open List

abbrev Bytes := List UInt8

/-- What stops a run of the codec other than a returned value. -/
inductive Fault where
  | outOfBounds
  | outOfFuel
  deriving DecidableEq, Repr

def window : ℕ := 4096
def minMatch : ℕ := 3
def maxMatch : ℕ := 18
def maxChain : ℕ := 64
def hashSize : ℕ := 1 <<< 13

/-- `xs[i]` of a slice. -/
def index {α : Type} (xs : List α) (i : ℕ) : Except Fault α :=
  match xs[i]? with
  | some value => .ok value
  | none => .error .outOfBounds

/-- `xs[i] = value` of a slice. -/
def store {α : Type} (xs : List α) (i : ℕ) (value : α) : Except Fault (List α) :=
  if i < xs.length then .ok (xs.set i value) else .error .outOfBounds

/-- The cast `n as i32`. -/
def toI32 (n : ℕ) : ℤ :=
  (n : ℤ).bmod (2 ^ 32)

/-- The mask `1 << bit` of a flag byte. -/
def flagBit (bit : ℕ) : UInt8 :=
  (1 : UInt8) <<< UInt8.ofNat bit

/-! ## Compression -/

def hash3 (data : Bytes) (pos : ℕ) : Except Fault ℕ := do
  let a ← index data pos
  let b ← index data (pos + 1)
  let c ← index data (pos + 2)
  return ((a.toNat <<< 10) ^^^ (b.toNat <<< 5) ^^^ c.toNat) &&& (hashSize - 1)

/-- The hash-chain index: the newest position of each hash, and for each position the one before
it on its chain. -/
structure Chains where
  head : List ℤ
  prev : List ℤ

def Chains.empty (n : ℕ) : Chains where
  head := List.replicate hashSize (-1)
  prev := List.replicate n (-1)

/-- The closure `insert` of `lzss_compress`. -/
def insert (data : Bytes) (chains : Chains) (pos : ℕ) : Except Fault Chains :=
  if pos + minMatch ≤ data.length then do
    let h ← hash3 data pos
    let newest ← index chains.head h
    let prev ← store chains.prev pos newest
    let head ← store chains.head h (toI32 pos)
    return ⟨head, prev⟩
  else
    .ok chains

/-- Insert every position of a list in turn. -/
def insertAll (data : Bytes) : List ℕ → Chains → Except Fault Chains
  | [], chains => .ok chains
  | pos :: positions, chains => do
      let chains ← insert data chains pos
      insertAll data positions chains

/-- The comparison loop: `left` is `max_len - l`. -/
def matchLength (data : Bytes) (c pos : ℕ) : ℕ → ℕ → Except Fault ℕ
  | 0, l => .ok l
  | left + 1, l => do
      let a ← index data (c + l)
      let b ← index data (pos + l)
      if a = b then matchLength data c pos left (l + 1) else .ok l

/-- A candidate match, as the pair `(best_len, best_off)`. -/
abbrev Best := ℕ × ℕ

/-- The chain walk: `left` is `MAX_CHAIN - chain`. -/
def searchChain (data : Bytes) (prev : List ℤ) (pos winStart maxLen : ℕ) :
    ℕ → ℤ → Best → Except Fault Best
  | 0, _, best => .ok best
  | left + 1, cand, best =>
    if 0 ≤ cand ∧ winStart ≤ cand.toNat then do
      let c := cand.toNat
      let l ← matchLength data c pos maxLen 0
      if best.1 < l then
        if l = maxLen then
          return (l, pos - c)
        else do
          let next ← index prev c
          searchChain data prev pos winStart maxLen left next (l, pos - c)
      else do
        let next ← index prev c
        searchChain data prev pos winStart maxLen left next best
    else
      .ok best

/-- The longest match found for the bytes at `pos`. -/
def bestMatch (data : Bytes) (chains : Chains) (pos : ℕ) : Except Fault Best :=
  let maxLen := min (data.length - pos) maxMatch
  if minMatch ≤ maxLen then do
    let h ← hash3 data pos
    let cand ← index chains.head h
    searchChain data chains.prev pos (pos - window) maxLen maxChain cand (0, 0)
  else
    .ok (0, 0)

/-- The 16-bit word `code` of a back-reference. -/
def refCode (offset length : ℕ) : UInt16 :=
  (UInt16.ofNat (offset - 1) <<< 4) ||| UInt16.ofNat (length - minMatch)

/-- The variables of the block loop. -/
structure Packer where
  pos : ℕ
  flag : UInt8
  out : Bytes
  chains : Chains

/-- One iteration of `for bit in 0..8`. -/
def packToken (data : Bytes) (bit : ℕ) (s : Packer) : Except Fault Packer := do
  let best ← bestMatch data s.chains s.pos
  let chains ← insert data s.chains s.pos
  if minMatch ≤ best.1 then
    let code := refCode best.2 best.1
    let chains ← insertAll data (List.range' (s.pos + 1) (best.1 - 1)) chains
    return {
      pos := s.pos + best.1
      flag := s.flag ||| flagBit bit
      out := s.out ++ [(code >>> 8).toUInt8, (code &&& 0xFF).toUInt8]
      chains := chains }
  else
    let byte ← index data s.pos
    return { pos := s.pos + 1, flag := s.flag, out := s.out ++ [byte], chains := chains }

/-- The loop `for bit in 0..8`; `left` is `8 - bit`. -/
def packBlock (data : Bytes) : ℕ → Packer → Except Fault Packer
  | 0, s => .ok s
  | left + 1, s =>
    if data.length ≤ s.pos then .ok s
    else do
      let s ← packToken data (7 - left) s
      packBlock data left s

/-- The loop `while pos < n`. -/
def packLoop (data : Bytes) : ℕ → ℕ → Bytes → Chains → Except Fault Bytes
  | fuel, pos, out, chains =>
    if data.length ≤ pos then .ok out
    else
      match fuel with
      | 0 => .error .outOfFuel
      | fuel + 1 => do
          let flagIdx := out.length
          let s ← packBlock data 8 ⟨pos, 0, out ++ [0], chains⟩
          let out ← store s.out flagIdx s.flag
          packLoop data fuel s.pos out s.chains

def lzssCompress (data : Bytes) : Except Fault Bytes :=
  packLoop data data.length 0 [] (Chains.empty data.length)

def compress (data : Bytes) : Except Fault Bytes := do
  let packed ← lzssCompress data
  if packed.length < data.length then return 1 :: packed else return 0 :: data

/-! ## Decompression -/

/-- The copy loop `for k in 0..len`; `left` is `len - k`. -/
def copyLoop (start : ℕ) : ℕ → ℕ → Bytes → Except Fault Bytes
  | 0, _, out => .ok out
  | left + 1, k, out => do
      let byte ← index out (start + k)
      copyLoop start left (k + 1) (out ++ [byte])

/-- `off` of a back-reference word. -/
def refOffset (code : UInt16) : ℕ :=
  ((code >>> 4) + 1).toNat

/-- `len` of a back-reference word. -/
def refLength (code : UInt16) : ℕ :=
  (code &&& 0xF).toNat + minMatch

/-- The word `code` read back from its two bytes. -/
def readCode (high low : UInt8) : UInt16 :=
  (high.toUInt16 <<< 8) ||| low.toUInt16

/-- The loop `for bit in 0..8` over one flag byte; `left` is `8 - bit`.  `none` is the early
`return None`. -/
def unpackBlock (blob : Bytes) (flag : UInt8) : ℕ → ℕ → Bytes → Except Fault (Option (ℕ × Bytes))
  | 0, i, out => .ok (some (i, out))
  | left + 1, i, out =>
    if blob.length ≤ i then .ok (some (i, out))
    else if flag &&& flagBit (7 - left) ≠ 0 then
      if blob.length ≤ i + 1 then .ok none
      else do
        let high ← index blob i
        let low ← index blob (i + 1)
        let code := readCode high low
        if out.length < refOffset code then return none
        else do
          let out ← copyLoop (out.length - refOffset code) (refLength code) 0 out
          unpackBlock blob flag left (i + 2) out
    else do
      let byte ← index blob i
      unpackBlock blob flag left (i + 1) (out ++ [byte])

/-- The loop `while i < blob.len()`. -/
def unpackLoop (blob : Bytes) : ℕ → ℕ → Bytes → Except Fault (Option Bytes)
  | fuel, i, out =>
    if blob.length ≤ i then .ok (some out)
    else
      match fuel with
      | 0 => .error .outOfFuel
      | fuel + 1 => do
          let flag ← index blob i
          match ← unpackBlock blob flag 8 (i + 1) out with
          | none => return none
          | some (i, out) => unpackLoop blob fuel i out

def lzssDecompress (blob : Bytes) : Except Fault (Option Bytes) :=
  unpackLoop blob blob.length 0 []

def decompress (blob : Bytes) : Except Fault (Option Bytes) :=
  match blob with
  | 0 :: rest => .ok (some rest)
  | 1 :: rest => lzssDecompress rest
  | _ => .ok none

open Library.LempelZiv

/-! ## The format -/

/-- The token of a back-reference word. -/
def refToken (high low : UInt8) : Token UInt8 :=
  .reference (refOffset (readCode high low)) (refLength (readCode high low))

/-- The tokens of one flag byte and what follows them; `none` marks a cut back-reference. -/
def parseBlock (flag : UInt8) : ℕ → Bytes → List (Token UInt8) × Option Bytes
  | 0, rest => ([], some rest)
  | _ + 1, [] => ([], some [])
  | left + 1, byte :: rest =>
    if flag &&& flagBit (7 - left) ≠ 0 then
      match rest with
      | [] => ([], none)
      | low :: rest =>
        let parsed := parseBlock flag left rest
        (refToken byte low :: parsed.1, parsed.2)
    else
      let parsed := parseBlock flag left rest
      (.literal byte :: parsed.1, parsed.2)

theorem parseBlock_cons (flag : UInt8) (left : ℕ) (byte : UInt8) (rest : Bytes) :
    parseBlock flag (left + 1) (byte :: rest) =
      if flag &&& flagBit (7 - left) ≠ 0 then
        match rest with
        | [] => ([], none)
        | low :: rest =>
          (refToken byte low :: (parseBlock flag left rest).1, (parseBlock flag left rest).2)
      else
        (.literal byte :: (parseBlock flag left rest).1, (parseBlock flag left rest).2) := by
  cases rest <;> rfl

/-- The tokens of a payload, and whether it ends inside a back-reference. -/
def parseLoop : ℕ → Bytes → List (Token UInt8) × Bool
  | 0, _ => ([], false)
  | _ + 1, [] => ([], false)
  | fuel + 1, flag :: rest =>
    let block := parseBlock flag 8 rest
    match block.2 with
    | none => (block.1, true)
    | some tail =>
      let parsed := parseLoop fuel tail
      (block.1 ++ parsed.1, parsed.2)

def parse (payload : Bytes) : List (Token UInt8) × Bool :=
  parseLoop payload.length payload

/-- The reason for which a blob is refused: no header, an unknown header, a back-reference cut by
the end of the blob, or a back-reference that points before the start of the output. -/
def Malformed : Bytes → Prop
  | 0 :: _ => False
  | 1 :: payload =>
    (parse payload).2 = true ∨
      ∃ before offset length after,
        (parse payload).1 = before ++ .reference offset length :: after ∧
          totalSize before < offset
  | _ => True

theorem refOffset_pos (code : UInt16) : 1 ≤ refOffset code := by
  have hcode := code.toNat_lt
  have hshift : (code >>> 4).toNat = code.toNat / 2 ^ 4 := by
    rw [UInt16.toNat_shiftRight, Nat.shiftRight_eq_div_pow]
    rfl
  have hadd : refOffset code = (code.toNat / 2 ^ 4 + 1) % 2 ^ 16 := by
    rw [refOffset, UInt16.toNat_add, hshift]
    rfl
  omega

theorem parseBlock_backward (flag : UInt8) (left : ℕ) (rest : Bytes) :
    Backward (parseBlock flag left rest).1 := by
  fun_induction parseBlock flag left rest with
  | case1 rest => simp [Backward]
  | case2 left => simp [Backward]
  | case3 left byte hflag => simp [Backward]
  | case4 left byte hflag low rest parsed ih =>
    intro offset length hmem
    rcases List.mem_cons.mp hmem with htoken | htail
    · obtain ⟨rfl, -⟩ := Token.reference.inj htoken
      exact refOffset_pos _
    · exact ih offset length htail
  | case5 left byte rest hflag parsed ih =>
    intro offset length hmem
    rcases List.mem_cons.mp hmem with htoken | htail
    · cases htoken
    · exact ih offset length htail

theorem parseLoop_backward (fuel : ℕ) (payload : Bytes) :
    Backward (parseLoop fuel payload).1 := by
  fun_induction parseLoop fuel payload with
  | case1 payload => simp [Backward]
  | case2 fuel => simp [Backward]
  | case3 fuel flag rest block hblock => exact parseBlock_backward flag 8 rest
  | case4 fuel flag rest block tail hblock parsed ih =>
    intro offset length hmem
    rcases List.mem_append.mp hmem with hfirst | hrest
    · exact parseBlock_backward flag 8 rest offset length hfirst
    · exact ih offset length hrest

/-- What a block leaves unread is a suffix of what it was given. -/
theorem parseBlock_suffix (flag : UInt8) (left : ℕ) (rest tail : Bytes)
    (htail : (parseBlock flag left rest).2 = some tail) : tail <:+ rest := by
  fun_induction parseBlock flag left rest with
  | case1 rest =>
    cases htail
    exact suffix_refl _
  | case2 left =>
    cases htail
    exact suffix_refl _
  | case3 left byte hflag => cases htail
  | case4 left byte hflag low rest parsed ih =>
    exact (ih htail).trans ((suffix_cons low rest).trans (suffix_cons byte _))
  | case5 left byte rest hflag parsed ih =>
    exact (ih htail).trans (suffix_cons byte rest)

/-! ## The decoder computes the meaning of the tokens -/

@[simp]
theorem index_of_lt {α : Type} {xs : List α} {i : ℕ} (h : i < xs.length) :
    index xs i = .ok xs[i] := by
  simp [index, h]

/-- The copy loop reads only values that were already produced. -/
theorem copyLoop_eq_copyBack {offset : ℕ} (hoffset : 1 ≤ offset) (start left k : ℕ) (out : Bytes)
    (hstart : start + k + offset = out.length) :
    copyLoop start left k out = .ok (copyBack offset left out) := by
  induction left generalizing k out with
  | zero => rfl
  | succ left ih =>
    have hindex : start + k < out.length := by omega
    have hvalue : out[out.length - offset]? = some out[start + k] := by
      rw [show out.length - offset = start + k by omega, getElem?_eq_getElem hindex]
    rw [copyLoop, copyBack, index_of_lt hindex, hvalue]
    change copyLoop start left (k + 1) (out ++ [out[start + k]]) = _
    rw [ih (k + 1) (out ++ [out[start + k]])]
    rw [length_append, length_singleton]
    omega

/-- The result of a block in terms of its tokens. -/
def blockResult (blob : Bytes) (parsed : List (Token UInt8) × Option Bytes) (out : Bytes) :
    Option (ℕ × Bytes) :=
  (expand parsed.1 out).bind fun out' ↦ parsed.2.map fun tail ↦ (blob.length - tail.length, out')

theorem unpackBlock_eq (blob : Bytes) (flag : UInt8) (left i : ℕ) (out : Bytes)
    (hi : i ≤ blob.length) :
    unpackBlock blob flag left i out =
      .ok (blockResult blob (parseBlock flag left (blob.drop i)) out) := by
  induction left generalizing i out with
  | zero =>
    rw [unpackBlock, parseBlock, blockResult]
    simp only [expand_nil, Option.bind_some, Option.map_some, length_drop]
    rw [Nat.sub_sub_self hi]
  | succ left ih =>
    rw [unpackBlock]
    by_cases hend : blob.length ≤ i
    · rw [if_pos hend, drop_eq_nil_of_le hend, parseBlock, blockResult]
      simp only [expand_nil, Option.bind_some, Option.map_some, length_nil, Nat.sub_zero]
      rw [Nat.le_antisymm hi hend]
    · have hlt : i < blob.length := Nat.lt_of_not_le hend
      rw [if_neg hend, drop_eq_getElem_cons hlt, parseBlock_cons]
      by_cases hflag : flag &&& flagBit (7 - left) ≠ 0
      · rw [if_pos hflag, if_pos hflag]
        by_cases hcut : blob.length ≤ i + 1
        · rw [if_pos hcut, drop_eq_nil_of_le hcut]
          rfl
        · have hlow : i + 1 < blob.length := Nat.lt_of_not_le hcut
          rw [if_neg hcut, drop_eq_getElem_cons hlow, index_of_lt hlt, index_of_lt hlow]
          simp only [bind, Except.bind, blockResult, refToken, expand]
          by_cases hreach : out.length < refOffset (readCode blob[i] blob[i + 1])
          · rw [if_pos hreach, if_neg (Nat.not_le_of_lt hreach)]
            rfl
          · have hle := Nat.le_of_not_lt hreach
            have hcopy := copyLoop_eq_copyBack (refOffset_pos (readCode blob[i] blob[i + 1]))
              (out.length - refOffset (readCode blob[i] blob[i + 1]))
              (refLength (readCode blob[i] blob[i + 1])) 0 out (by omega)
            rw [if_neg hreach, if_pos hle, hcopy]
            exact ih (i + 2) _ hlow
      · rw [if_neg hflag, if_neg hflag, index_of_lt hlt]
        exact ih (i + 1) _ hlt

/-- The result of the whole payload in terms of its tokens. -/
def loopResult (parsed : List (Token UInt8) × Bool) (out : Bytes) : Option Bytes :=
  (expand parsed.1 out).bind fun out' ↦ if parsed.2 then none else some out'

theorem unpackLoop_eq (blob : Bytes) (fuel i : ℕ) (out : Bytes) (hi : i ≤ blob.length)
    (hfuel : blob.length - i ≤ fuel) :
    unpackLoop blob fuel i out = .ok (loopResult (parseLoop fuel (blob.drop i)) out) := by
  induction fuel generalizing i out with
  | zero =>
    have hend : blob.length ≤ i := by omega
    rw [unpackLoop, if_pos hend]
    rfl
  | succ fuel ih =>
    rw [unpackLoop]
    by_cases hend : blob.length ≤ i
    · rw [if_pos hend, drop_eq_nil_of_le hend]
      rfl
    · have hlt : i < blob.length := Nat.lt_of_not_le hend
      rw [if_neg hend, drop_eq_getElem_cons hlt, index_of_lt hlt]
      simp only [bind, Except.bind]
      rw [unpackBlock_eq blob blob[i] 8 (i + 1) out hlt, parseLoop]
      cases hblock : (parseBlock blob[i] 8 (blob.drop (i + 1))).2 with
      | none =>
        simp only [blockResult, loopResult, hblock, Option.map_none, Option.bind_fun_none,
          if_true]
        rfl
      | some tail =>
        have hsuffix := parseBlock_suffix _ _ _ _ hblock
        have htail : blob.drop (blob.length - tail.length) = tail :=
          (List.suffix_iff_eq_drop.mp
            (hsuffix.trans (drop_suffix (i + 1) blob))).symm
        have hlength : tail.length ≤ blob.length - (i + 1) := by
          simpa only [length_drop] using hsuffix.length_le
        simp only [blockResult, loopResult, hblock, Option.map_some, expand_append]
        cases hout : expand (parseBlock blob[i] 8 (blob.drop (i + 1))).1 out with
        | none => rfl
        | some out' =>
          simp only [Option.bind_some]
          rw [ih _ out' (Nat.sub_le _ _) (by omega), htail]
          rfl

theorem lzssDecompress_eq (payload : Bytes) :
    lzssDecompress payload = .ok (loopResult (parse payload) []) := by
  rw [lzssDecompress, unpackLoop_eq payload payload.length 0 [] (Nat.zero_le _) (by omega)]
  rfl

theorem loopResult_eq_none_iff (payload : Bytes) :
    loopResult (parse payload) [] = none ↔ Malformed (1 :: payload) := by
  have hexpand := expand_eq_none_iff (parseLoop_backward payload.length payload) []
  simp only [length_nil, Nat.zero_add] at hexpand
  change _ ↔ _ ∨ _
  rw [show (parse payload).1 = (parseLoop payload.length payload).1 from rfl, ← hexpand,
    loopResult]
  change ((expand (parseLoop payload.length payload).1 []).bind _ = none ↔ _)
  cases hout : expand (parseLoop payload.length payload).1 [] with
  | none => simp
  | some out => simp

/-- Every blob is decoded without a fault, and refused exactly when it is malformed. -/
theorem decompress_total (blob : Bytes) :
    ∃ result, decompress blob = .ok result ∧ (result = none ↔ Malformed blob) := by
  fun_cases decompress blob with
  | case1 rest => exact ⟨some rest, rfl, by simp [Malformed]⟩
  | case2 rest =>
    refine ⟨_, lzssDecompress_eq rest, ?_⟩
    exact loopResult_eq_none_iff rest
  | case3 blob hzero hone =>
    refine ⟨none, rfl, ?_⟩
    simp only [true_iff]
    unfold Malformed
    split
    · exact absurd rfl (hzero _)
    · exact absurd rfl (hone _)
    · trivial

end SoulSystem.Ccos.Lzss
