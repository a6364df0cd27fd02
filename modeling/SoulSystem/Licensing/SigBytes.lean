import SoulSystem.Licensing.HashSig
import SoulSystem.Library.Ascii

/-!
# The bytes of a signature

A signature is written as its leaf, the length of its path, the path and what it reveals, in
hexadecimal digits.  Text of another length or with another character is no signature, and what is
written is read back.
-/

namespace SoulSystem.Licensing

open Library ByteCursor Str List

def hashLen : ℕ := 32

def revealBytes : ℕ := msgBits * (hashLen + hashLen)

/-! ## Bytes -/

def MerkleSig.toBytes (sig : MerkleSig) : Bytes :=
  leBytes 4 sig.leaf.toNat ++ [UInt8.ofNat sig.path.length] ++
    sig.path.flatMap List.Vector.toList ++
    sig.reveals.flatMap fun reveal ↦ reveal.1.toList ++ reveal.2.toList

/-- The next hash of bytes that are long enough. -/
def takeHash (bytes : Bytes) : Hash :=
  List.Vector.ofFn fun j ↦ bytes.getD j 0

def takePath : ℕ → Bytes → List Hash × Bytes
  | 0, bytes => ([], bytes)
  | n + 1, bytes =>
    let rest := takePath n (bytes.drop hashLen)
    (takeHash bytes :: rest.1, rest.2)

def takeReveals : ℕ → Bytes → List (Hash × Hash)
  | 0, _ => []
  | n + 1, bytes =>
    (takeHash bytes, takeHash (bytes.drop hashLen)) ::
      takeReveals n ((bytes.drop hashLen).drop hashLen)

def MerkleSig.fromBytes (bytes : Bytes) : Option MerkleSig :=
  if bytes.length < 5 then none
  else
    let leaf := UInt32.ofNat (fromLeBytes (bytes.take 4))
    let pathLen := (bytes.getD 4 0).toNat
    if bytes.length ≠ 5 + pathLen * hashLen + revealBytes then none
    else
      let path := takePath pathLen (bytes.drop 5)
      some ⟨leaf, takeReveals msgBits path.2, path.1⟩

/-! ## Reading by offsets -/

/-- `b[off..off + HASH_LEN]`, copied to a hash.  There is none out of range. -/
def hashAt (b : Bytes) (off : ℕ) : Option Hash :=
  if off + hashLen ≤ b.length then some (takeHash (b.drop off)) else none

/-- The loop over the path, with the offset where it ends. -/
def readPath (b : Bytes) : ℕ → ℕ → List Hash → Option (List Hash × ℕ)
  | 0, off, path => some (path, off)
  | n + 1, off, path =>
    (hashAt b off).bind fun node ↦ readPath b n (off + hashLen) (path ++ [node])

/-- The loop over the reveals. -/
def readReveals (b : Bytes) : ℕ → ℕ → List (Hash × Hash) → Option (List (Hash × Hash))
  | 0, _, reveals => some reveals
  | n + 1, off, reveals =>
    (hashAt b off).bind fun s ↦ (hashAt b (off + hashLen)).bind fun c ↦
      readReveals b n (off + hashLen + hashLen) (reveals ++ [(s, c)])

/-- `from_bytes` with its indices and offsets.  There is no result, not even a refusal, when one of
them is out of range. -/
def MerkleSig.readBytes (b : Bytes) : Option (Option MerkleSig) :=
  if b.length < 5 then some none
  else
    b[0]?.bind fun b0 ↦ b[1]?.bind fun b1 ↦ b[2]?.bind fun b2 ↦ b[3]?.bind fun b3 ↦
      b[4]?.bind fun b4 ↦
        let leaf := UInt32.ofNat (fromLeBytes [b0, b1, b2, b3])
        let pathLen := b4.toNat
        if b.length ≠ 5 + pathLen * hashLen + revealBytes then some none
        else
          (readPath b pathLen 5 []).bind fun (path, off) ↦
            (readReveals b msgBits off []).map fun reveals ↦ some ⟨leaf, reveals, path⟩

/-! ## Hexadecimal digits -/

def nibble (n : UInt8) : Char :=
  if n.toNat ≤ 9 then latin1 (asciiByte '0' + n) else latin1 (asciiByte 'a' + (n - 10))

def unhex (c : UInt8) : Option UInt8 :=
  if asciiByte '0' ≤ c ∧ c ≤ asciiByte '9' then some (c - asciiByte '0')
  else if asciiByte 'a' ≤ c ∧ c ≤ asciiByte 'f' then some (c - asciiByte 'a' + 10)
  else if asciiByte 'A' ≤ c ∧ c ≤ asciiByte 'F' then some (c - asciiByte 'A' + 10)
  else none

def unhexPairs : Bytes → Option Bytes
  | hi :: lo :: rest => (unhex hi).bind fun hi ↦ (unhex lo).bind fun lo ↦
      (unhexPairs rest).map fun bytes ↦ ((hi <<< 4) ||| lo) :: bytes
  | _ => some []

def hexDecode (s : Str) : Option Bytes :=
  if (utf8 s).length % 2 ≠ 0 then none else unhexPairs (utf8 s)

def hexEncode (bytes : Bytes) : Str :=
  bytes.flatMap fun byte : UInt8 ↦ [nibble (byte >>> 4), nibble (byte &&& 0xf)]

def MerkleSig.toHex (sig : MerkleSig) : Str := hexEncode sig.toBytes

def MerkleSig.fromHex (s : Str) : Option MerkleSig := (hexDecode s).bind MerkleSig.fromBytes

/-! ## Reading back -/

theorem takeHash_append (hash : Hash) (rest : Bytes) : takeHash (hash.toList ++ rest) = hash := by
  refine List.Vector.ext fun j ↦ ?_
  have hj : j.val < hash.toList.length := by
    rw [List.Vector.toList_length]
    exact j.isLt
  rw [takeHash, List.Vector.get_ofFn, getD_append _ _ _ _ hj, getD_eq_getElem _ _ hj,
    List.Vector.get_eq_get_toList]
  rfl

theorem drop_hash_append (hash : Hash) (rest : Bytes) :
    (hash.toList ++ rest).drop hashLen = rest :=
  drop_left' (List.Vector.toList_length hash)

theorem takePath_append (path : List Hash) (rest : Bytes) :
    takePath path.length (path.flatMap List.Vector.toList ++ rest) = (path, rest) := by
  induction path with
  | nil => rfl
  | cons hash path ih =>
    rw [flatMap_cons, append_assoc, length_cons, takePath, takeHash_append,
      drop_hash_append, ih]

theorem takeReveals_append (reveals : List (Hash × Hash)) :
    takeReveals reveals.length
      (reveals.flatMap fun reveal ↦ reveal.1.toList ++ reveal.2.toList) = reveals := by
  induction reveals with
  | nil => rfl
  | cons reveal reveals ih =>
    rw [flatMap_cons, append_assoc, length_cons, takeReveals, takeHash_append,
      drop_hash_append, takeHash_append, drop_hash_append, ih]

theorem length_hashes (path : List Hash) :
    (path.flatMap List.Vector.toList).length = path.length * hashLen := by
  induction path with
  | nil => rfl
  | cons hash path ih =>
    rw [flatMap_cons, length_append, ih, List.Vector.toList_length, length_cons,
      Nat.succ_mul, add_comm, hashLen]

theorem length_reveals (reveals : List (Hash × Hash)) :
    (reveals.flatMap fun reveal ↦ reveal.1.toList ++ reveal.2.toList).length =
      reveals.length * (hashLen + hashLen) := by
  induction reveals with
  | nil => rfl
  | cons reveal reveals ih =>
    rw [flatMap_cons, length_append, ih, length_append, List.Vector.toList_length,
      List.Vector.toList_length, length_cons, Nat.succ_mul, add_comm, hashLen]

/-- A signature of full length with a path that fits its length byte. -/
structure MerkleSig.Full (sig : MerkleSig) : Prop where
  reveals : sig.reveals.length = msgBits
  path : sig.path.length < 256

theorem fromBytes_toBytes {sig : MerkleSig} (hfull : sig.Full) :
    MerkleSig.fromBytes sig.toBytes = some sig := by
  have hlen : (UInt8.ofNat sig.path.length).toNat = sig.path.length := by
    rw [UInt8.toNat_ofNat', Nat.mod_eq_of_lt hfull.path]
  have hshape : sig.toBytes = leBytes 4 sig.leaf.toNat ++ (UInt8.ofNat sig.path.length ::
      (sig.path.flatMap List.Vector.toList ++
        sig.reveals.flatMap fun reveal ↦ reveal.1.toList ++ reveal.2.toList)) := by
    rw [MerkleSig.toBytes, append_assoc, append_assoc, singleton_append]
  have hlength : sig.toBytes.length = 5 + sig.path.length * hashLen + revealBytes := by
    rw [hshape, length_append, length_leBytes, length_cons, length_append,
      length_hashes, length_reveals, hfull.reveals, revealBytes]
    omega
  have htake : sig.toBytes.take 4 = leBytes 4 sig.leaf.toNat := by
    rw [hshape]
    exact take_left' (length_leBytes 4 _)
  have hdrop4 : sig.toBytes.drop 4 = UInt8.ofNat sig.path.length ::
      (sig.path.flatMap List.Vector.toList ++
        sig.reveals.flatMap fun reveal ↦ reveal.1.toList ++ reveal.2.toList) := by
    rw [hshape]
    exact drop_left' (length_leBytes 4 _)
  have hbyte : sig.toBytes.getD 4 0 = UInt8.ofNat sig.path.length := by
    rw [getD_eq_getElem?_getD, ← head?_drop, hdrop4]
    rfl
  have hdrop : sig.toBytes.drop 5 = sig.path.flatMap List.Vector.toList ++
      sig.reveals.flatMap fun reveal ↦ reveal.1.toList ++ reveal.2.toList := by
    rw [← drop_drop (i := 1) (j := 4), hdrop4]
    rfl
  have hleaf : UInt32.ofNat (fromLeBytes (leBytes 4 sig.leaf.toNat)) = sig.leaf := by
    have hlt : sig.leaf.toNat < 256 ^ 4 := sig.leaf.toNat_lt
    rw [fromLeBytes_leBytes, Nat.mod_eq_of_lt hlt, UInt32.ofNat_toNat]
  have hreveals := takeReveals_append sig.reveals
  rw [hfull.reveals] at hreveals
  rw [MerkleSig.fromBytes, if_neg (by omega)]
  dsimp only
  rw [hbyte, hlen, if_neg (not_not.mpr hlength), hdrop, takePath_append, hreveals, htake, hleaf]

theorem unhex_nibble : ∀ byte : UInt8,
    utf8 [nibble (byte >>> 4), nibble (byte &&& 0xf)] =
        [asciiByte (nibble (byte >>> 4)), asciiByte (nibble (byte &&& 0xf))] ∧
      unhex (asciiByte (nibble (byte >>> 4))) = some (byte >>> 4) ∧
      unhex (asciiByte (nibble (byte &&& 0xf))) = some (byte &&& 0xf) ∧
      ((byte >>> 4) <<< 4) ||| (byte &&& 0xf) = byte := by
  have hall : ∀ n : Fin 256,
      utf8 [nibble (UInt8.ofNat n >>> 4), nibble (UInt8.ofNat n &&& 0xf)] =
          [asciiByte (nibble (UInt8.ofNat n >>> 4)), asciiByte (nibble (UInt8.ofNat n &&& 0xf))] ∧
        unhex (asciiByte (nibble (UInt8.ofNat n >>> 4))) = some (UInt8.ofNat n >>> 4) ∧
        unhex (asciiByte (nibble (UInt8.ofNat n &&& 0xf))) = some (UInt8.ofNat n &&& 0xf) ∧
        ((UInt8.ofNat n >>> 4) <<< 4) ||| (UInt8.ofNat n &&& 0xf) = UInt8.ofNat n := by
    decide +kernel
  intro byte
  have hbyte := hall ⟨byte.toNat, byte.toNat_lt⟩
  rwa [UInt8.ofNat_toNat] at hbyte

theorem unhexPairs_hexEncode (bytes : Bytes) : (utf8 (hexEncode bytes)).length % 2 = 0 ∧
    unhexPairs (utf8 (hexEncode bytes)) = some bytes := by
  induction bytes with
  | nil => exact ⟨rfl, rfl⟩
  | cons byte bytes ih =>
    obtain ⟨hutf8, hhi, hlo, hbyte⟩ := unhex_nibble byte
    rw [hexEncode, flatMap_cons, utf8_append, hutf8, ← hexEncode]
    refine ⟨?_, ?_⟩
    · rw [length_append, length_cons, length_singleton]
      omega
    · rw [cons_append, singleton_append, unhexPairs, hhi, hlo, ih.2, Option.bind_some,
        Option.bind_some, Option.map_some, hbyte]

/-- What is written of a signature is read back. -/
theorem fromHex_toHex {sig : MerkleSig} (hfull : sig.Full) :
    MerkleSig.fromHex sig.toHex = some sig := by
  obtain ⟨heven, hpairs⟩ := unhexPairs_hexEncode sig.toBytes
  rw [MerkleSig.fromHex, MerkleSig.toHex, hexDecode, if_neg (not_not.mpr heven), hpairs,
    Option.bind_some, fromBytes_toBytes hfull]

/-! ## No read out of range -/

theorem hashAt_eq {b : Bytes} {off : ℕ} (hrange : off + hashLen ≤ b.length) :
    hashAt b off = some (takeHash (b.drop off)) :=
  if_pos hrange

theorem takePath_snd (n : ℕ) (bytes : Bytes) : (takePath n bytes).2 = bytes.drop (n * hashLen) := by
  induction n generalizing bytes with
  | zero =>
    rw [Nat.zero_mul]
    rfl
  | succ n ih =>
    rw [takePath, ih, drop_drop, Nat.succ_mul, Nat.add_comm]

/-- The path is read at offsets within the bytes that the length byte promises. -/
theorem readPath_eq {b : Bytes} {n off : ℕ} {path : List Hash}
    (hrange : off + n * hashLen ≤ b.length) :
    readPath b n off path = some (path ++ (takePath n (b.drop off)).1, off + n * hashLen) := by
  induction n generalizing off path with
  | zero => rw [readPath, takePath, append_nil, Nat.zero_mul, Nat.add_zero]
  | succ n ih =>
    rw [Nat.succ_mul] at hrange
    rw [readPath, hashAt_eq (by omega), Option.bind_some, ih (by omega), takePath, drop_drop,
      append_assoc, singleton_append, Nat.succ_mul, Nat.add_assoc,
      Nat.add_comm hashLen]

theorem readReveals_eq {b : Bytes} {n off : ℕ} {reveals : List (Hash × Hash)}
    (hrange : off + n * (hashLen + hashLen) ≤ b.length) :
    readReveals b n off reveals = some (reveals ++ takeReveals n (b.drop off)) := by
  induction n generalizing off reveals with
  | zero => rw [readReveals, takeReveals, append_nil]
  | succ n ih =>
    rw [Nat.succ_mul] at hrange
    rw [readReveals, hashAt_eq (by omega), hashAt_eq (by omega), Option.bind_some,
      Option.bind_some, ih (by omega), takeReveals, append_assoc, singleton_append,
      drop_drop, drop_drop]

/-- Every index and every offset is in range, whatever the bytes are. -/
theorem readBytes_eq (b : Bytes) : MerkleSig.readBytes b = some (MerkleSig.fromBytes b) := by
  rw [MerkleSig.readBytes, MerkleSig.fromBytes]
  by_cases hshort : b.length < 5
  · rw [if_pos hshort, if_pos hshort]
  · rw [if_neg hshort, if_neg hshort]
    match b with
    | b0 :: b1 :: b2 :: b3 :: b4 :: rest =>
      dsimp only [getElem?_cons_zero, getElem?_cons_succ, Option.bind_some]
      have hbyte : (b0 :: b1 :: b2 :: b3 :: b4 :: rest).getD 4 0 = b4 := rfl
      rw [hbyte]
      split
      · rfl
      · next hlength =>
          have hlength := not_not.mp hlength
          rw [readPath_eq (by omega), Option.bind_some]
          dsimp only
          rw [readReveals_eq (by rw [hlength, revealBytes]), Option.map_some, takePath_snd,
            drop_drop]
          rfl
    | [] | [_] | [_, _] | [_, _, _] | [_, _, _, _] => exact absurd (by simp) hshort

/-! ## Writing back -/

theorem toList_takeHash {bytes : Bytes} (hlength : hashLen ≤ bytes.length) :
    (takeHash bytes).toList = bytes.take hashLen := by
  apply ext_getElem
  · rw [List.Vector.toList_length, length_take, Nat.min_eq_left hlength]
    rfl
  · intro j hj hj'
    have hlt : j < hashLen := by
      rwa [List.Vector.toList_length] at hj
    have hget := List.Vector.get_ofFn (fun j : Fin 32 ↦ bytes.getD j 0) ⟨j, hlt⟩
    rw [getElem_take, ← getD_eq_getElem bytes 0 (hlt.trans_le hlength)]
    rw [← hget, List.Vector.get_eq_get_toList]
    rfl

theorem takePath_written {n : ℕ} {bytes : Bytes} (hlength : n * hashLen ≤ bytes.length) :
    (takePath n bytes).1.flatMap List.Vector.toList = bytes.take (n * hashLen) ∧
      (takePath n bytes).1.length = n := by
  induction n generalizing bytes with
  | zero =>
    rw [Nat.zero_mul]
    exact ⟨rfl, rfl⟩
  | succ n ih =>
    rw [Nat.succ_mul] at hlength
    obtain ⟨hpath, hcount⟩ := @ih (bytes.drop hashLen) (by rw [length_drop]; omega)
    rw [takePath, flatMap_cons, hpath, toList_takeHash (by omega), length_cons, hcount,
      Nat.succ_mul, Nat.add_comm, take_add]
    exact ⟨rfl, rfl⟩

theorem takeReveals_written {n : ℕ} {bytes : Bytes}
    (hlength : n * (hashLen + hashLen) ≤ bytes.length) :
    ((takeReveals n bytes).flatMap fun reveal ↦ reveal.1.toList ++ reveal.2.toList) =
      bytes.take (n * (hashLen + hashLen)) := by
  induction n generalizing bytes with
  | zero =>
    rw [Nat.zero_mul]
    rfl
  | succ n ih =>
    rw [Nat.succ_mul] at hlength
    have hsecond : hashLen ≤ (bytes.drop hashLen).length := by
      rw [length_drop]
      omega
    have hrest : n * (hashLen + hashLen) ≤ ((bytes.drop hashLen).drop hashLen).length := by
      rw [length_drop, length_drop]
      omega
    rw [takeReveals, flatMap_cons, ih hrest, toList_takeHash (by omega),
      toList_takeHash hsecond, Nat.succ_mul, Nat.add_comm (n * (hashLen + hashLen)),
      take_add, take_add, drop_drop]

/-- Only the bytes of a signature are read as it. -/
theorem toBytes_of_fromBytes {b : Bytes} {sig : MerkleSig}
    (hsig : MerkleSig.fromBytes b = some sig) : sig.toBytes = b := by
  rw [MerkleSig.fromBytes] at hsig
  split at hsig
  · cases hsig
  next hshort =>
    dsimp only at hsig
    split at hsig
    · cases hsig
    next hlength =>
      have hlength := not_not.mp hlength
      cases hsig
      set n := (b.getD 4 0).toNat with hn
      have hrest : (b.drop 5).length = n * hashLen + revealBytes := by
        rw [length_drop]
        omega
      obtain ⟨hpath, hcount⟩ := @takePath_written n (b.drop 5) (by omega)
      have htail : ((b.drop 5).drop (n * hashLen)).length = msgBits * (hashLen + hashLen) := by
        rw [length_drop, hrest, Nat.add_sub_cancel_left, revealBytes]
      have hleaf : leBytes 4 (UInt32.ofNat (fromLeBytes (b.take 4))).toNat = b.take 4 := by
        have htake : (b.take 4).length = 4 := by
          rw [length_take]
          omega
        have hlt : fromLeBytes (b.take 4) < 2 ^ 32 :=
          (fromLeBytes_lt (b.take 4)).trans_eq (by rw [htake]; rfl)
        have hback := leBytes_fromLeBytes (b.take 4)
        rw [htake] at hback
        rw [UInt32.toNat_ofNat', Nat.mod_eq_of_lt hlt, hback]
      have hbyte : [UInt8.ofNat n] = (b.drop 4).take 1 := by
        have hlt : 4 < b.length := by omega
        rw [hn, UInt8.ofNat_toNat, getD_eq_getElem b 0 hlt, drop_eq_getElem_cons hlt]
        rfl
      have hreveals := @takeReveals_written msgBits (takePath n (b.drop 5)).2
        (by rw [takePath_snd, htail])
      rw [takePath_snd, ← htail, take_length] at hreveals
      rw [MerkleSig.toBytes]
      dsimp only
      rw [hleaf, hcount, hbyte, hpath, takePath_snd, hreveals, ← take_add,
        ← take_add, drop_drop, take_append_drop]

/-! ## Letter case -/

/-- A digit of either case stands for a number below 16, and in lower case it is its digit. -/
theorem nibble_of_unhex {b v : UInt8} (hdigit : unhex b = some v) :
    b.toNat < 128 ∧ v < 16 ∧ (latin1 b).toLower = nibble v := by
  have hall : ∀ n : Fin 256, (unhex (UInt8.ofNat n)).all (fun v ↦
      decide (n.val < 128 ∧ v < 16 ∧ (latin1 (UInt8.ofNat n)).toLower = nibble v)) = true := by
    decide +kernel
  have hbyte := hall ⟨b.toNat, b.toNat_lt⟩
  rw [UInt8.ofNat_toNat, hdigit] at hbyte
  exact of_decide_eq_true hbyte

/-- A character that is a digit in lower case stands for the same number. -/
theorem unhex_of_toLower {c : Char} {v : UInt8} (hv : v < 16) (hlower : c.toLower = nibble v) :
    isAscii c = true ∧ unhex (asciiByte c) = some v := by
  have hdigits : ∀ n : Fin 16, isAscii (nibble (UInt8.ofNat n)) = true ∧
      unhex (asciiByte (nibble (UInt8.ofNat n))) = some (UInt8.ofNat n) := by
    decide
  have hupper : ∀ n : Fin 26, ∀ v : Fin 16,
      (Char.ofNat (65 + n)).toLower = nibble (UInt8.ofNat v) →
        unhex (asciiByte (Char.ofNat (65 + n))) = some (UInt8.ofNat v) := by
    decide +kernel
  have hnumber : UInt8.ofNat (⟨v.toNat, hv⟩ : Fin 16) = v := UInt8.ofNat_toNat
  by_cases hcase : 'A'.val ≤ c.val ∧ c.val ≤ 'Z'.val
  · have hlow : 65 ≤ c.toNat := hcase.1
    have hhigh : c.toNat ≤ 90 := hcase.2
    have hletter : Char.ofNat (65 + (c.toNat - 65)) = c := by
      rw [Nat.add_sub_cancel' hlow, Char.ofNat_toNat]
    have hdigit := hupper ⟨c.toNat - 65, by omega⟩ ⟨v.toNat, hv⟩
    rw [hnumber, hletter] at hdigit
    exact ⟨isAscii_iff.mpr (by omega), hdigit hlower⟩
  · have hsame : c.toLower = c := dif_neg hcase
    have hdigit := hdigits ⟨v.toNat, hv⟩
    rwa [hnumber, ← hlower, hsame] at hdigit

theorem nibbles_lt (byte : UInt8) : byte >>> 4 < 16 ∧ byte &&& 0xf < 16 := by
  have hbyte := byte.toNat_lt
  constructor
  · rw [UInt8.lt_iff_toNat_lt, UInt8.toNat_shiftRight]
    change byte.toNat >>> 4 < 16
    rw [Nat.shiftRight_eq_div_pow]
    omega
  · rw [UInt8.lt_iff_toNat_lt, UInt8.toNat_and]
    exact Nat.and_lt_two_pow (n := 4) _ (by decide)

/-- Two digits make a byte, and the byte has these digits. -/
theorem nibbles_of_digits {hi lo : UInt8} (hhi : hi < 16) (hlo : lo < 16) :
    ((hi <<< 4) ||| lo) >>> 4 = hi ∧ ((hi <<< 4) ||| lo) &&& 0xf = lo := by
  have hall : ∀ n m : Fin 16,
      ((UInt8.ofNat n <<< 4) ||| UInt8.ofNat m) >>> 4 = UInt8.ofNat n ∧
        ((UInt8.ofNat n <<< 4) ||| UInt8.ofNat m) &&& 0xf = UInt8.ofNat m := by
    decide
  have hdigits := hall ⟨hi.toNat, hhi⟩ ⟨lo.toNat, hlo⟩
  rwa [UInt8.ofNat_toNat, UInt8.ofNat_toNat] at hdigits

theorem hexEncode_cons (byte : UInt8) (bytes : Bytes) :
    hexEncode (byte :: bytes) = nibble (byte >>> 4) :: nibble (byte &&& 0xf) :: hexEncode bytes :=
  rfl

/-- What is decoded was written with the digits of its bytes, in either case. -/
theorem hexEncode_of_unhexPairs {written bytes : Bytes} (heven : written.length % 2 = 0)
    (hpairs : unhexPairs written = some bytes) :
    (∀ b ∈ written, b.toNat < 128) ∧
      written.map (fun b ↦ (latin1 b).toLower) = hexEncode bytes := by
  induction written using unhexPairs.induct generalizing bytes with
  | case1 first second rest ih =>
    rw [unhexPairs, Option.bind_eq_some_iff] at hpairs
    obtain ⟨hi, hhi, hpairs⟩ := hpairs
    obtain ⟨lo, hlo, hpairs⟩ := Option.bind_eq_some_iff.mp hpairs
    obtain ⟨tail, htail, rfl⟩ := Option.map_eq_some_iff.mp hpairs
    obtain ⟨hfirst, hhi', hlower⟩ := nibble_of_unhex hhi
    obtain ⟨hsecond, hlo', hlower'⟩ := nibble_of_unhex hlo
    obtain ⟨hhigh, hlow⟩ := nibbles_of_digits hhi' hlo'
    have hrest : rest.length % 2 = 0 := by
      rw [length_cons, length_cons] at heven
      omega
    obtain ⟨hascii, hencode⟩ := ih hrest htail
    refine ⟨List.forall_mem_cons.mpr ⟨hfirst, List.forall_mem_cons.mpr ⟨hsecond, hascii⟩⟩, ?_⟩
    rw [map_cons, map_cons, hencode, hlower, hlower', hexEncode_cons, hhigh, hlow]
  | case2 written hshort =>
    match written with
    | [] =>
      cases hpairs
      exact ⟨nofun, rfl⟩
    | [_] => cases heven
    | first :: second :: rest => exact absurd rfl (hshort first second rest)

/-- Text whose bytes are all ASCII. -/
theorem isAscii_of_utf8 {text : Str} (hbytes : ∀ b ∈ utf8 text, b.toNat < 128) :
    ∀ c ∈ text, isAscii c = true := by
  intro c hc
  by_contra hforeign
  obtain ⟨b, hb⟩ := exists_mem_of_ne_nil _ (utf8EncodeChar_ne_nil c)
  have hle := le_of_mem_utf8EncodeChar (Bool.eq_false_iff.mpr hforeign) hb
  have hlt := hbytes b (List.mem_flatMap.mpr ⟨c, hc, hb⟩)
  omega

theorem unhexPairs_of_toLower {t : Str} {bytes : Bytes}
    (hlower : t.map Char.toLower = hexEncode bytes) :
    (∀ c ∈ t, isAscii c = true) ∧ t.length % 2 = 0 ∧
      unhexPairs (t.map asciiByte) = some bytes := by
  induction bytes generalizing t with
  | nil =>
    obtain rfl := List.map_eq_nil_iff.mp hlower
    exact ⟨nofun, rfl, rfl⟩
  | cons byte bytes ih =>
    rw [hexEncode_cons, map_eq_cons_iff] at hlower
    obtain ⟨first, rest, rfl, hfirst, hrest⟩ := hlower
    obtain ⟨second, rest, rfl, hsecond, hrest⟩ := List.map_eq_cons_iff.mp hrest
    obtain ⟨hhi, hlo⟩ := nibbles_lt byte
    obtain ⟨hascii, hvalue⟩ := unhex_of_toLower hhi hfirst
    obtain ⟨hascii', hvalue'⟩ := unhex_of_toLower hlo hsecond
    obtain ⟨hall, heven, hpairs⟩ := ih hrest
    obtain ⟨-, -, -, hbyte⟩ := unhex_nibble byte
    refine ⟨List.forall_mem_cons.mpr ⟨hascii, List.forall_mem_cons.mpr ⟨hascii', hall⟩⟩, ?_, ?_⟩
    · rw [length_cons, length_cons]
      omega
    · rw [map_cons, map_cons, unhexPairs, hvalue, hvalue', hpairs, Option.bind_some,
        Option.bind_some, Option.map_some, hbyte]

theorem hexDecode_eq_some_iff {t : Str} {bytes : Bytes} :
    hexDecode t = some bytes ↔ t.map Char.toLower = hexEncode bytes := by
  rw [hexDecode]
  constructor
  · intro hdecode
    split at hdecode
    · cases hdecode
    next heven =>
      obtain ⟨hbytes, hencode⟩ := hexEncode_of_unhexPairs (not_not.mp heven) hdecode
      have hascii := isAscii_of_utf8 hbytes
      rw [utf8_of_ascii hascii, map_map] at hencode
      rw [← hencode]
      apply map_congr_left
      intro c hc
      rw [Function.comp_apply, latin1_asciiByte (hascii c hc)]
  · intro hlower
    obtain ⟨hascii, heven, hpairs⟩ := unhexPairs_of_toLower hlower
    rw [utf8_of_ascii hascii, length_map, if_neg (not_not.mpr heven), hpairs]

theorem hexDecode_hexEncode (bytes : Bytes) : hexDecode (hexEncode bytes) = some bytes := by
  obtain ⟨heven, hpairs⟩ := unhexPairs_hexEncode bytes
  rw [hexDecode, if_neg (not_not.mpr heven), hpairs]

/-- **The codec of signatures is a bijection onto its image.**  Signatures of full length are read
back, from bytes and from text, no read is out of range, nothing but the bytes of a signature is
read as it, and hexadecimal text stands for bytes up to the case of its letters. -/
theorem codec_exact :
    (∀ sig : MerkleSig, sig.path.length ≤ 255 → sig.reveals.length = 256 →
      MerkleSig.readBytes sig.toBytes = some (some sig) ∧
        MerkleSig.fromHex sig.toHex = some sig) ∧
      (∀ b, ∃ result, MerkleSig.readBytes b = some result) ∧
      (∀ b sig, MerkleSig.readBytes b = some (some sig) → sig.toBytes = b) ∧
      (∀ x, hexDecode (hexEncode x) = some x) ∧
      ∀ t x, hexDecode t = some x ↔ t.map Char.toLower = hexEncode x := by
  refine ⟨fun sig hpath hreveals ↦ ?_, fun b ↦ ⟨_, readBytes_eq b⟩, fun b sig hsig ↦ ?_,
    hexDecode_hexEncode, fun _ _ ↦ hexDecode_eq_some_iff⟩
  · have hfull : sig.Full := ⟨hreveals, Nat.lt_succ_of_le hpath⟩
    rw [readBytes_eq, fromBytes_toBytes hfull]
    exact ⟨rfl, fromHex_toHex hfull⟩
  · rw [readBytes_eq] at hsig
    exact toBytes_of_fromBytes (Option.some.inj hsig)

end SoulSystem.Licensing
