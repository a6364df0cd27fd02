import SoulSystem.Library.Str

/-!
# Reading framed bytes

A reader consumes a prefix of the remaining bytes of a file and returns what is left.  Integers are
little-endian with a fixed width, and a byte string is framed by its length in four bytes.  The
length is written modulo `2 ^ 32`, so a frame only reads back when its content is shorter than that.
-/

namespace SoulSystem.Library

/-- The kinds of input/output errors, with the message of those that the program makes itself. -/
inductive IoError where
  | notFound
  | unexpectedEof
  | invalidInput (message : String)
  | invalidData (message : String)
  deriving DecidableEq, Repr

namespace ByteCursor

/-! ## Little-endian integers -/

/-- `to_le_bytes` of an integer of `width` bytes; the high part is cut off. -/
def leBytes : ℕ → ℕ → Bytes
  | 0, _ => []
  | width + 1, n => UInt8.ofNat n :: leBytes width (n / 256)

/-- `from_le_bytes`. -/
def fromLeBytes : Bytes → ℕ
  | [] => 0
  | b :: bytes => b.toNat + 256 * fromLeBytes bytes

@[simp] theorem length_leBytes (width n : ℕ) : (leBytes width n).length = width := by
  induction width generalizing n with
  | zero => rfl
  | succ width ih => simp [leBytes, ih]

theorem fromLeBytes_leBytes (width n : ℕ) : fromLeBytes (leBytes width n) = n % 256 ^ width := by
  induction width generalizing n with
  | zero => simp [leBytes, fromLeBytes, Nat.mod_one]
  | succ width ih =>
    have hbyte : (UInt8.ofNat n).toNat = n % 256 := by simp
    rw [leBytes, fromLeBytes, ih, hbyte, pow_succ', Nat.mod_mul]

theorem leBytes_inj {width n m : ℕ} (hn : n < 256 ^ width) (hm : m < 256 ^ width)
    (heq : leBytes width n = leBytes width m) : n = m := by
  have hvalue := congrArg fromLeBytes heq
  rwa [fromLeBytes_leBytes, fromLeBytes_leBytes, Nat.mod_eq_of_lt hn, Nat.mod_eq_of_lt hm] at hvalue

theorem fromLeBytes_lt (bytes : Bytes) : fromLeBytes bytes < 256 ^ bytes.length := by
  induction bytes with
  | nil => exact Nat.one_pos
  | cons b bytes ih =>
    have hbyte := b.toNat_lt
    rw [fromLeBytes, List.length_cons, pow_succ]
    omega

theorem leBytes_fromLeBytes (bytes : Bytes) : leBytes bytes.length (fromLeBytes bytes) = bytes := by
  induction bytes with
  | nil => rfl
  | cons b bytes ih =>
    have hbyte := b.toNat_lt
    have hlow : UInt8.ofNat (b.toNat + 256 * fromLeBytes bytes) = b := by
      apply UInt8.toNat_inj.mp
      rw [UInt8.toNat_ofNat']
      omega
    have hhigh : (b.toNat + 256 * fromLeBytes bytes) / 256 = fromLeBytes bytes := by omega
    rw [fromLeBytes, List.length_cons, leBytes, hlow, hhigh, ih]

theorem leBytes_append_inj {width n m : ℕ} {rest rest' : Bytes} (hn : n < 256 ^ width)
    (hm : m < 256 ^ width) (heq : leBytes width n ++ rest = leBytes width m ++ rest') :
    n = m ∧ rest = rest' := by
  obtain ⟨hbytes, hrest⟩ := List.append_inj heq (by rw [length_leBytes, length_leBytes])
  exact ⟨leBytes_inj hn hm hbytes, hrest⟩

/-! ## Readers -/

/-- A reader takes the remaining bytes to a value and the bytes after it. -/
abbrev Reader (α : Type) := Bytes → Except IoError (α × Bytes)

@[simp] theorem ok_bind {ε α β : Type} (a : α) (f : α → Except ε β) :
    (Except.ok a >>= f) = f a := rfl

/-- `read_exact` into a buffer of `n` bytes. -/
def readExact (n : ℕ) : Reader Bytes := fun bytes ↦
  if n ≤ bytes.length then .ok (bytes.take n, bytes.drop n) else .error .unexpectedEof

def readU32 : Reader ℕ := fun bytes ↦ do
  let (frame, rest) ← readExact 4 bytes
  return (fromLeBytes frame, rest)

def readU64 : Reader ℕ := fun bytes ↦ do
  let (frame, rest) ← readExact 8 bytes
  return (fromLeBytes frame, rest)

def readBytes : Reader Bytes := fun bytes ↦ do
  let (len, rest) ← readU32 bytes
  readExact len rest

def readString : Reader Str := fun bytes ↦ do
  let (frame, rest) ← readBytes bytes
  match Str.fromUtf8 frame with
  | some s => return (s, rest)
  | none => .error (.invalidData "non-utf8 key")

/-- A byte string behind its length, which is cast to `u32`. -/
def putBytes (content : Bytes) : Bytes :=
  leBytes 4 content.length ++ content

@[simp] theorem length_putBytes (content : Bytes) :
    (putBytes content).length = 4 + content.length := by
  simp [putBytes]

/-! ## Reading back what was written -/

theorem readExact_append {n : ℕ} (frame rest : Bytes) (hlength : frame.length = n) :
    readExact n (frame ++ rest) = .ok (frame, rest) := by
  subst hlength
  simp [readExact]

theorem readU32_leBytes {n : ℕ} (hn : n < 2 ^ 32) (rest : Bytes) :
    readU32 (leBytes 4 n ++ rest) = .ok (n, rest) := by
  have hvalue : fromLeBytes (leBytes 4 n) = n := by
    rw [fromLeBytes_leBytes, Nat.mod_eq_of_lt (by simpa using hn)]
  rw [readU32, readExact_append _ _ (length_leBytes 4 n)]
  simp only [ok_bind, hvalue]
  rfl

theorem readU64_leBytes {n : ℕ} (hn : n < 2 ^ 64) (rest : Bytes) :
    readU64 (leBytes 8 n ++ rest) = .ok (n, rest) := by
  have hvalue : fromLeBytes (leBytes 8 n) = n := by
    rw [fromLeBytes_leBytes, Nat.mod_eq_of_lt (by simpa using hn)]
  rw [readU64, readExact_append _ _ (length_leBytes 8 n)]
  simp only [ok_bind, hvalue]
  rfl

/-- A frame reads back the part of its content that its length field counts. -/
theorem readBytes_putBytes_mod (content rest : Bytes) :
    readBytes (putBytes content ++ rest) = readExact (content.length % 2 ^ 32) (content ++ rest) := by
  have hlen : readU32 (leBytes 4 content.length ++ (content ++ rest)) =
      .ok (content.length % 2 ^ 32, content ++ rest) := by
    rw [readU32, readExact_append _ _ (length_leBytes 4 content.length)]
    simp only [ok_bind, fromLeBytes_leBytes]
    rfl
  rw [readBytes, putBytes, List.append_assoc, hlen, ok_bind]

theorem readBytes_putBytes {content : Bytes} (hlength : content.length < 2 ^ 32) (rest : Bytes) :
    readBytes (putBytes content ++ rest) = .ok (content, rest) := by
  rw [readBytes_putBytes_mod, Nat.mod_eq_of_lt hlength]
  exact readExact_append content rest rfl

theorem readString_putBytes {s : Str} (hlength : (Str.utf8 s).length < 2 ^ 32) (rest : Bytes) :
    readString (putBytes (Str.utf8 s) ++ rest) = .ok (s, rest) := by
  rw [readString, readBytes_putBytes hlength, ok_bind]
  simp only [Str.fromUtf8_utf8]
  rfl

end ByteCursor

end SoulSystem.Library
