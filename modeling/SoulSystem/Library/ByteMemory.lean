import SoulSystem.Library.ByteCursor

/-!
# Bytes by address

A memory gives the byte at each address.  What is read at an address after a write is what was
written there, and what was there before when the two ranges are apart.

The bytes of an area of some capacity are addressed by positions that grow without bound, each taken
modulo the capacity.  Bytes that are stored at a position are read there again, and leave what is
read from positions less than a turn before them.
-/

namespace SoulSystem.Library

open List Function

abbrev ByteMemory := ℕ → UInt8

namespace ByteMemory

open ByteCursor

def zeros : ByteMemory := fun _ ↦ 0

def read (mem : ByteMemory) (addr len : ℕ) : Bytes :=
  (List.range len).map fun i ↦ mem (addr + i)

def write (mem : ByteMemory) (addr : ℕ) (bytes : Bytes) : ByteMemory := fun a ↦
  if addr ≤ a then bytes.getD (a - addr) (mem a) else mem a

/-- A little-endian word of four bytes. -/
def readWord (mem : ByteMemory) (addr : ℕ) : ℕ := fromLeBytes (mem.read addr 4)

def writeWord (mem : ByteMemory) (addr n : ℕ) : ByteMemory := mem.write addr (leBytes 4 n)

/-- The bytes up to a length, with zeros after them. -/
def setLen (mem : ByteMemory) (len : ℕ) : ByteMemory := fun a ↦ if a < len then mem a else 0

variable {mem mem' : ByteMemory} {addr addr' len n : ℕ} {bytes : Bytes}

theorem length_read : (mem.read addr len).length = len := by
  rw [read, length_map, length_range]

theorem read_congr (hsame : ∀ a, addr ≤ a → a < addr + len → mem a = mem' a) :
    mem.read addr len = mem'.read addr len := by
  refine map_congr_left fun i hi ↦ ?_
  have hlt := List.mem_range.mp hi
  exact hsame _ (Nat.le_add_right _ _) (by omega)

theorem write_of_lt {a : ℕ} (hlt : a < addr) : mem.write addr bytes a = mem a :=
  if_neg (not_le.mpr hlt)

theorem write_of_ge {a : ℕ} (hge : addr + bytes.length ≤ a) : mem.write addr bytes a = mem a := by
  rw [write]
  split
  · rw [getD_eq_getElem?_getD, getElem?_eq_none (by omega), Option.getD_none]
  · rfl

theorem read_write_self : (mem.write addr bytes).read addr bytes.length = bytes := by
  apply ext_getElem length_read
  intro i hi hi'
  simp [read, write, hi']

/-- A write leaves what is apart from it. -/
theorem read_write_apart (hapart : addr' + len ≤ addr ∨ addr + bytes.length ≤ addr') :
    (mem.write addr bytes).read addr' len = mem.read addr' len := by
  refine read_congr fun a hlow hhigh ↦ ?_
  rcases hapart with hbefore | hafter
  · exact write_of_lt (by omega)
  · exact write_of_ge (by omega)

theorem readWord_writeWord_self (hn : n < 2 ^ 32) : (mem.writeWord addr n).readWord addr = n := by
  have hread : (mem.writeWord addr n).read addr 4 = leBytes 4 n := by
    have hself := @read_write_self mem addr (leBytes 4 n)
    rwa [length_leBytes] at hself
  rw [readWord, hread, fromLeBytes_leBytes]
  exact Nat.mod_eq_of_lt hn

theorem readWord_write_apart (hapart : addr' + 4 ≤ addr ∨ addr + bytes.length ≤ addr') :
    (mem.write addr bytes).readWord addr' = mem.readWord addr' := by
  rw [readWord, read_write_apart hapart, readWord]

theorem read_writeWord_apart (hapart : addr' + len ≤ addr ∨ addr + 4 ≤ addr') :
    (mem.writeWord addr n).read addr' len = mem.read addr' len :=
  read_write_apart (by rwa [length_leBytes])

theorem readWord_writeWord_apart (hapart : addr' + 4 ≤ addr ∨ addr + 4 ≤ addr') :
    (mem.writeWord addr n).readWord addr' = mem.readWord addr' :=
  readWord_write_apart (by rwa [length_leBytes])

theorem readWord_congr (hsame : ∀ a, addr ≤ a → a < addr + 4 → mem a = mem' a) :
    mem.readWord addr = mem'.readWord addr := by
  rw [readWord, read_congr hsame, readWord]

theorem readWord_lt (mem : ByteMemory) (addr : ℕ) : mem.readWord addr < 2 ^ 32 := by
  have hlt := fromLeBytes_lt (mem.read addr 4)
  rwa [length_read] at hlt

theorem readWord_eq_zero (hzero : ∀ a, addr ≤ a → a < addr + 4 → mem a = 0) :
    mem.readWord addr = 0 :=
  (@readWord_congr mem zeros addr hzero).trans rfl

end ByteMemory

end SoulSystem.Library

namespace SoulSystem.Library.CircularBytes

open List Function

/-! ## Bytes in a circle -/

/-- The address of each byte when bytes are placed one after the other. -/
def placed (place : ℕ → ℕ) (bytes : Bytes) : List (ℕ × UInt8) := bytes.mapIdx fun i b ↦ (place i, b)

def storeAll (mem : ByteMemory) (stores : List (ℕ × UInt8)) : ByteMemory :=
  stores.foldl (fun mem store ↦ update mem store.1 store.2) mem

/-- The addresses from a position on. -/
def addresses (cap pos len : ℕ) : List ℕ := (List.range len).map fun i ↦ (pos + i) % cap

def readAt (mem : ByteMemory) (cap pos len : ℕ) : Bytes := (addresses cap pos len).map mem

def storesAt (cap pos : ℕ) (bytes : Bytes) : List (ℕ × UInt8) := placed (fun i ↦ (pos + i) % cap) bytes

variable {mem : ByteMemory} {cap pos pos' len len' : ℕ} {bytes bytes' : Bytes}

theorem length_readAt : (readAt mem cap pos len).length = len := by
  rw [readAt, addresses, length_map, length_map, length_range]

theorem placed_append {place : ℕ → ℕ} : placed place (bytes ++ bytes') =
    placed place bytes ++ placed (fun i ↦ place (bytes.length + i)) bytes' := by
  rw [placed, mapIdx_append, placed, placed]
  simp only [Nat.add_comm]

theorem placed_congr {place place' : ℕ → ℕ} (hsame : ∀ i < bytes.length, place i = place' i) :
    placed place bytes = placed place' bytes := by
  apply ext_getElem
  · simp only [placed, length_mapIdx]
  · intro i hi hi'
    rw [placed, length_mapIdx] at hi
    simp only [placed, getElem_mapIdx, hsame i hi]

theorem addresses_congr (hsame : ∀ i < len, (pos + i) % cap = (pos' + i) % cap) :
    addresses cap pos len = addresses cap pos' len :=
  map_congr_left fun i hi ↦ hsame i (List.mem_range.mp hi)

theorem readAt_congr_pos (hmod : pos % cap = pos' % cap) :
    readAt mem cap pos len = readAt mem cap pos' len := by
  rw [readAt, readAt, addresses_congr fun i _ ↦ Nat.ModEq.add_right i hmod]

theorem storesAt_congr_pos (hmod : pos % cap = pos' % cap) :
    storesAt cap pos bytes = storesAt cap pos' bytes :=
  placed_congr fun i _ ↦ Nat.ModEq.add_right i hmod

theorem addresses_add : addresses cap pos (len + len') =
    addresses cap pos len ++ addresses cap (pos + len) len' := by
  rw [addresses, range_add, map_append, map_map, addresses, addresses]
  simp only [comp_def, Nat.add_assoc]

theorem readAt_add : readAt mem cap pos (len + len') =
    readAt mem cap pos len ++ readAt mem cap (pos + len) len' := by
  rw [readAt, addresses_add, map_append, readAt, readAt]

theorem lt_of_mem_addresses (hcap : 0 < cap) {a : ℕ} (hmem : a ∈ addresses cap pos len) : a < cap := by
  obtain ⟨i, -, rfl⟩ := List.mem_map.mp hmem
  exact Nat.mod_lt _ hcap

theorem map_fst_storesAt : (storesAt cap pos bytes).map Prod.fst =
    addresses cap pos bytes.length := by
  apply ext_getElem
  · simp [storesAt, placed, addresses]
  · intro i hi hi'
    simp [storesAt, placed, addresses]

theorem storesAt_cons {b : UInt8} : storesAt cap pos (b :: bytes) =
    (pos % cap, b) :: storesAt cap (pos + 1) bytes := by
  rw [storesAt, placed, mapIdx_cons, storesAt, placed, Nat.add_zero]
  simp only [Nat.add_assoc, Nat.add_comm 1]

theorem storeAll_of_notMem {stores : List (ℕ × UInt8)} {a : ℕ} (hnot : a ∉ stores.map Prod.fst) :
    storeAll mem stores a = mem a := by
  induction stores generalizing mem with
  | nil => rfl
  | cons store stores ih =>
    rw [map_cons, mem_cons, not_or] at hnot
    rw [storeAll, foldl_cons]
    exact (ih hnot.2).trans (update_of_ne hnot.1 ..)

/-- Positions less than a turn apart have different addresses. -/
theorem mod_ne_mod (hlt : pos < pos') (hturn : pos' < pos + cap) : pos % cap ≠ pos' % cap := by
  intro hsame
  have hdvd : cap ∣ pos' - pos := (Nat.modEq_iff_dvd' hlt.le).mp hsame
  exact absurd (Nat.le_of_dvd (by omega) hdvd) (by omega)

/-- Stores leave what is read from positions before them, up to a turn. -/
theorem readAt_storesAt_before (hbefore : pos + len ≤ pos') (hturn : pos' + bytes.length ≤ pos + cap) :
    readAt (storeAll mem (storesAt cap pos' bytes)) cap pos len = readAt mem cap pos len := by
  refine map_congr_left fun a ha ↦ storeAll_of_notMem ?_
  obtain ⟨i, hi, rfl⟩ := List.mem_map.mp ha
  have hlt := List.mem_range.mp hi
  rw [map_fst_storesAt]
  intro hmem
  obtain ⟨k, hk, hsame⟩ := List.mem_map.mp hmem
  have hkLt := List.mem_range.mp hk
  exact mod_ne_mod (by omega) (by omega) hsame.symm

/-- What is stored at a position is read there. -/
theorem readAt_storesAt_self (hfits : bytes.length ≤ cap) :
    readAt (storeAll mem (storesAt cap pos bytes)) cap pos bytes.length = bytes := by
  induction bytes generalizing mem pos with
  | nil => rfl
  | cons b bytes ih =>
    rw [length_cons] at hfits
    have hread : readAt (storeAll mem (storesAt cap pos (b :: bytes))) cap pos
        (1 + bytes.length) = readAt (storeAll (update mem (pos % cap) b)
          (storesAt cap (pos + 1) bytes)) cap pos (1 + bytes.length) := by
      rw [storesAt_cons]
      rfl
    rw [length_cons, Nat.add_comm, hread, readAt_add, ih (by omega),
      readAt_storesAt_before le_rfl (by omega)]
    simp [readAt, addresses]

end SoulSystem.Library.CircularBytes
