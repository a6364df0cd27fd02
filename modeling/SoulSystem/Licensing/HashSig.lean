import Mathlib.Data.Vector.Basic
import SoulSystem.Library.ByteCursor
import SoulSystem.Library.MerkleTree

/-!
# Hash-based signatures

A digest is signed bit by bit: for each bit there are two secrets, of which the signature reveals
one and carries the image of the other.  The images of all secrets of a one-time key are hashed into
a leaf of a Merkle tree, and the root of the tree is the public key.  SHA-256 is a parameter.

A signature with any leaf verifies.  When SHA-256 has no collision among the strings that are hashed
for the tree and for the verification, a signature that verifies reveals the genuine secrets of one
leaf for the bits of the digest, so for another digest it reveals a secret that no signature with
this leaf did.
-/

namespace SoulSystem.Licensing

open Library ByteCursor Str List

section Signing

abbrev Hash := List.Vector UInt8 32

/-- The number of bits of a digest. -/
def msgBits : ℕ := 256

def minTreeHeight : ℕ := 1

def maxTreeHeight : ℕ := 20

def effectiveHeight (requested : ℕ) : ℕ :=
  if requested < minTreeHeight then minTreeHeight
  else if requested > maxTreeHeight then maxTreeHeight
  else requested

def capacityForHeight (requested : ℕ) : ℕ := 1 <<< effectiveHeight requested

/-! ## What is hashed -/

def secretInput (master : Hash) (leaf : UInt32) (i : ℕ) (b : Bool) : Bytes :=
  utf8 "SRL.sk".toList ++ master.toList ++ leBytes 4 leaf.toNat ++ leBytes 2 i ++
    [if b then 1 else 0]

def imageInput (sk : Hash) : Bytes := utf8 "SRL.pk".toList ++ sk.toList

def nodeInput (left right : Hash) : Bytes :=
  utf8 "SRL.node".toList ++ left.toList ++ right.toList

/-- The images of both secrets for each bit. -/
def leafInput (images : List (Hash × Hash)) : Bytes :=
  utf8 "SRL.leaf".toList ++ images.flatMap fun pair ↦ pair.1.toList ++ pair.2.toList

/-- A bit of a digest, little-endian within each byte. -/
def digestBit (digest : Hash) (i : ℕ) : Bool :=
  (digest.toList.getD (i >>> 3) 0).toNat.testBit (i &&& 7)

/-! ## Signatures -/

/-- The leaf, for each bit the revealed secret and the image of the other, and the siblings up
to the root. -/
structure MerkleSig where
  leaf : UInt32
  reveals : List (Hash × Hash)
  path : List Hash

/-- The levels of the tree over a master seed, from its leaves to its root. -/
structure MerkleSigner where
  master : Hash
  height : ℕ
  levels : List (List Hash)

variable (sha : Bytes → Hash)

def deriveSecret (master : Hash) (leaf : UInt32) (i : ℕ) (b : Bool) : Hash :=
  sha (secretInput master leaf i b)

def imageOf (sk : Hash) : Hash := sha (imageInput sk)

def nodeHash (left right : Hash) : Hash := sha (nodeInput left right)

/-- The images of the secrets of a leaf. -/
def leafImages (master : Hash) (leaf : UInt32) : List (Hash × Hash) :=
  (List.range msgBits).map fun i ↦
    (imageOf sha (deriveSecret sha master leaf i false),
      imageOf sha (deriveSecret sha master leaf i true))

def leafCommitment (master : Hash) (leaf : UInt32) : Hash :=
  sha (leafInput (leafImages sha master leaf))

namespace MerkleSigner

def fromSeed (seed : Hash) (height : ℕ) : MerkleSigner where
  master := seed
  height := effectiveHeight height
  levels := MerkleTree.levels (nodeHash sha)
    ((List.range (capacityForHeight (effectiveHeight height))).map fun k ↦
      leafCommitment sha seed (UInt32.ofNat k))

/-- The public key, when the levels have a root. -/
def root (signer : MerkleSigner) : Option Hash :=
  signer.levels[signer.height]?.bind fun entries ↦ entries[0]?

def capacity (signer : MerkleSigner) : ℕ := capacityForHeight signer.height

/-- What a signature of a digest reveals. -/
def reveals (signer : MerkleSigner) (leaf : UInt32) (digest : Hash) : List (Hash × Hash) :=
  (List.range msgBits).map fun i ↦
    (deriveSecret sha signer.master leaf i (digestBit digest i),
      imageOf sha (deriveSecret sha signer.master leaf i !digestBit digest i))

/-- There is no signature with a leaf out of range. -/
def sign (signer : MerkleSigner) (leaf : UInt32) (digest : Hash) : Option MerkleSig :=
  if leaf.toNat < signer.capacity then
    (MerkleTree.siblings signer.levels signer.height 0 leaf.toNat).map fun path ↦
      ⟨leaf, signer.reveals sha leaf digest, path⟩
  else none

end MerkleSigner

/-- The images that a signature of a digest stands for. -/
def rebuiltImages (digest : Hash) (reveals : List (Hash × Hash)) : List (Hash × Hash) :=
  reveals.zipIdx.map fun reveal ↦
    if digestBit digest reveal.2 then (reveal.1.2, imageOf sha reveal.1.1)
    else (imageOf sha reveal.1.1, reveal.1.2)

def verify (root digest : Hash) (sig : MerkleSig) : Bool :=
  if sig.reveals.length ≠ msgBits then false
  else
    decide (MerkleTree.climb (nodeHash sha) (sha (leafInput (rebuiltImages sha digest sig.reveals)))
      sig.leaf.toNat sig.path = root)

/-! ## The tree -/

variable {sha} {seed : Hash} {requested : ℕ}

theorem effectiveHeight_le (requested : ℕ) : effectiveHeight requested ≤ 20 := by
  rw [effectiveHeight, minTreeHeight, maxTreeHeight]
  grind

theorem effectiveHeight_pos (requested : ℕ) : 0 < effectiveHeight requested := by
  rw [effectiveHeight, minTreeHeight, maxTreeHeight]
  grind

theorem effectiveHeight_idem (requested : ℕ) :
    effectiveHeight (effectiveHeight requested) = effectiveHeight requested := by
  have hle := effectiveHeight_le requested
  have hpos := effectiveHeight_pos requested
  rw [effectiveHeight, minTreeHeight, maxTreeHeight, if_neg (by omega), if_neg (by omega)]

theorem capacityForHeight_eq (requested : ℕ) :
    capacityForHeight (effectiveHeight requested) = 2 ^ effectiveHeight requested := by
  rw [capacityForHeight, effectiveHeight_idem, Nat.one_shiftLeft]

/-- The leaves of the tree over a seed. -/
def seedLeaf (sha : Bytes → Hash) (seed : Hash) (k : ℕ) : Hash :=
  leafCommitment sha seed (UInt32.ofNat k)

/-- The entries of the tree over a seed. -/
def seedEntry (sha : Bytes → Hash) (seed : Hash) : ℕ → ℕ → Hash :=
  MerkleTree.entry (nodeHash sha) (seedLeaf sha seed)

theorem fromSeed_levels (seed : Hash) (requested : ℕ) :
    (MerkleSigner.fromSeed sha seed requested).levels = MerkleTree.levels (nodeHash sha)
      (MerkleTree.level (nodeHash sha) (seedLeaf sha seed) (effectiveHeight requested) 0) := by
  rw [MerkleSigner.fromSeed, capacityForHeight_eq]
  rfl

theorem fromSeed_root (seed : Hash) (requested : ℕ) :
    (MerkleSigner.fromSeed sha seed requested).root =
      some (seedEntry sha seed (effectiveHeight requested) 0) := by
  have hzero : 0 < 2 ^ (effectiveHeight requested - effectiveHeight requested) := Nat.two_pow_pos _
  rw [MerkleSigner.root, fromSeed_levels]
  exact (congrArg (Option.bind · fun entries ↦ entries[0]?)
    (MerkleTree.levels_getElem? (nodeHash sha) le_rfl)).trans
    (MerkleTree.level_getElem? (nodeHash sha) hzero)

theorem fromSeed_capacity (seed : Hash) (requested : ℕ) :
    (MerkleSigner.fromSeed sha seed requested).capacity = 2 ^ effectiveHeight requested :=
  capacityForHeight_eq requested

/-- A signature with a leaf of the tree, and where its path leads. -/
theorem fromSeed_sign (sha : Bytes → Hash) (seed : Hash) {leaf : UInt32}
    (hleaf : leaf.toNat < 2 ^ effectiveHeight requested) (digest : Hash) :
    ∃ path, path.length = effectiveHeight requested ∧
    (MerkleSigner.fromSeed sha seed requested).sign sha leaf digest =
      some ⟨leaf, (MerkleSigner.fromSeed sha seed requested).reveals sha leaf digest, path⟩ ∧
    MerkleTree.climb (nodeHash sha) (leafCommitment sha seed leaf) leaf.toNat path =
      seedEntry sha seed (effectiveHeight requested) 0 := by
  obtain ⟨path, hpath, hlength, hclimb⟩ := MerkleTree.climb_siblings (nodeHash sha)
    (seedLeaf sha seed) (zero_add (effectiveHeight requested)) hleaf
  refine ⟨path, hlength, ?_, ?_⟩
  · rw [MerkleSigner.sign, fromSeed_capacity, if_pos hleaf, fromSeed_levels]
    exact congrArg (Option.map _) hpath
  · have hstart : MerkleTree.entry (nodeHash sha) (seedLeaf sha seed) 0 leaf.toNat =
        leafCommitment sha seed leaf := by
      rw [MerkleTree.entry, seedLeaf, UInt32.ofNat_toNat]
    rw [← hstart]
    exact hclimb

end Signing

/-! ## Completeness and binding of signatures -/

variable {sha : Bytes → Hash} {seed : Hash} {height requested : ℕ} {digest : Hash} {sig : MerkleSig}

/-! ## The strings that are hashed -/

/-- What is hashed for a tree over a seed. -/
inductive TreeInput (sha : Bytes → Hash) (seed : Hash) (height : ℕ) : Bytes → Prop
  | secret (k i : ℕ) (b : Bool) (hk : k < 2 ^ height) (hi : i < msgBits) :
      TreeInput sha seed height (secretInput seed (UInt32.ofNat k) i b)
  | image (k i : ℕ) (b : Bool) (hk : k < 2 ^ height) (hi : i < msgBits) :
      TreeInput sha seed height (imageInput (deriveSecret sha seed (UInt32.ofNat k) i b))
  | leaf (k : ℕ) (hk : k < 2 ^ height) :
      TreeInput sha seed height (leafInput (leafImages sha seed (UInt32.ofNat k)))
  | node (l k : ℕ) (hl : l < height) (hk : k < 2 ^ (height - (l + 1))) :
      TreeInput sha seed height
        (nodeInput (seedEntry sha seed l (2 * k)) (seedEntry sha seed l (2 * k + 1)))

/-- The leaf that a signature of a digest stands for. -/
def rebuiltLeaf (sha : Bytes → Hash) (digest : Hash) (sig : MerkleSig) : Hash :=
  sha (leafInput (rebuiltImages sha digest sig.reveals))

/-- What is hashed for the verification of a signature. -/
inductive VerifyInput (sha : Bytes → Hash) (digest : Hash) (sig : MerkleSig) : Bytes → Prop
  | image (reveal : Hash × Hash) (hreveal : reveal ∈ sig.reveals) :
      VerifyInput sha digest sig (imageInput reveal.1)
  | leaf : VerifyInput sha digest sig (leafInput (rebuiltImages sha digest sig.reveals))
  | node (pair : Hash × Hash) (hpair : pair ∈ MerkleTree.climbed (nodeHash sha)
      (rebuiltLeaf sha digest sig) sig.leaf.toNat sig.path) :
      VerifyInput sha digest sig (nodeInput pair.1 pair.2)

/-- All strings that are hashed for the tree and for the verification. -/
def hashed (sha : Bytes → Hash) (seed : Hash) (height : ℕ) (digest : Hash) (sig : MerkleSig) :
    Set Bytes :=
  {input | TreeInput sha seed height input ∨ VerifyInput sha digest sig input}

/-! ## The strings are told apart -/

theorem hash_toList_inj {a b : Hash} (heq : a.toList = b.toList) : a = b :=
  List.Vector.toList_injective heq

theorem append_hash_inj {a b : Hash} {rest rest' : Bytes}
    (heq : a.toList ++ rest = b.toList ++ rest') : a = b ∧ rest = rest' := by
  have hlength : a.toList.length = b.toList.length := by
    rw [List.Vector.toList_length, List.Vector.toList_length]
  obtain ⟨hhash, hrest⟩ := append_inj heq hlength
  exact ⟨hash_toList_inj hhash, hrest⟩

theorem nodeInput_inj {pair pair' : Hash × Hash}
    (heq : nodeInput pair.1 pair.2 = nodeInput pair'.1 pair'.2) : pair = pair' := by
  rw [nodeInput, nodeInput, append_assoc, append_assoc] at heq
  obtain ⟨hleft, hright⟩ := append_hash_inj (append_cancel_left heq)
  exact Prod.ext hleft (hash_toList_inj hright)

theorem imageInput_inj {sk sk' : Hash} (heq : imageInput sk = imageInput sk') : sk = sk' :=
  hash_toList_inj (append_cancel_left heq)

theorem leafInput_inj {images images' : List (Hash × Hash)}
    (heq : leafInput images = leafInput images') : images = images' := by
  have hflat := append_cancel_left heq
  have hcons : ∀ (pair : Hash × Hash) (rest : Bytes), pair.1.toList ++ pair.2.toList ++ rest ≠ [] := by
    intro pair rest hnil
    have hlength := congrArg List.length hnil
    rw [length_append, length_append, List.Vector.toList_length] at hlength
    simp only [length_nil] at hlength
    omega
  clear heq
  induction images generalizing images' with
  | nil =>
    cases images' with
    | nil => rfl
    | cons pair images' => exact absurd hflat.symm (hcons pair _)
  | cons pair images ih =>
    cases images' with
    | nil => exact absurd hflat (hcons pair _)
    | cons pair' images' =>
      rw [flatMap_cons, flatMap_cons, append_assoc, append_assoc] at hflat
      obtain ⟨hfirst, hrest⟩ := append_hash_inj hflat
      obtain ⟨hsecond, htail⟩ := append_hash_inj hrest
      rw [Prod.ext hfirst hsecond, ih htail]

theorem secretInput_inj {leaf leaf' : UInt32} {i i' : ℕ} {b b' : Bool} (hi : i < msgBits)
    (hi' : i' < msgBits) (heq : secretInput seed leaf i b = secretInput seed leaf' i' b') :
    leaf = leaf' ∧ i = i' ∧ b = b' := by
  simp only [secretInput, append_assoc] at heq
  have hrest := append_cancel_left (append_cancel_left heq)
  obtain ⟨hleaf, hrest⟩ := append_inj hrest (by rw [length_leBytes, length_leBytes])
  obtain ⟨hindex, hbit⟩ := append_inj hrest (by rw [length_leBytes, length_leBytes])
  refine ⟨UInt32.toNat_inj.mp (leBytes_inj leaf.toNat_lt leaf'.toNat_lt hleaf),
    leBytes_inj (hi.trans (by decide)) (hi'.trans (by decide)) hindex, ?_⟩
  cases b <;> cases b' <;> first | rfl | exact absurd hbit (by decide)

/-- The byte that tells what is hashed. -/
def kind (input : Bytes) : Option UInt8 := input[4]?

theorem kind_secretInput {leaf : UInt32} {i : ℕ} {b : Bool} :
    kind (secretInput seed leaf i b) = some 115 := rfl

theorem kind_imageInput {sk : Hash} : kind (imageInput sk) = some 112 := rfl

theorem kind_leafInput {images : List (Hash × Hash)} : kind (leafInput images) = some 108 := rfl

theorem kind_nodeInput {left right : Hash} : kind (nodeInput left right) = some 110 := rfl

/-- Strings of two kinds have two hashes. -/
theorem sha_ne {strings : Set Bytes} (hinjective : Set.InjOn sha strings) {input input' : Bytes}
    (hinput : input ∈ strings) (hinput' : input' ∈ strings) (hkind : kind input ≠ kind input') :
    sha input ≠ sha input' :=
  fun hsame ↦ hkind (congrArg kind (hinjective hinput hinput' hsame))

/-! ## Digests and their bits -/

/-- A digest is its bits. -/
theorem eq_of_digestBit {digest' : Hash}
    (hbits : ∀ i < msgBits, digestBit digest i = digestBit digest' i) : digest = digest' := by
  refine hash_toList_inj (ext_getElem ?_ fun q hq hq' ↦ ?_)
  · rw [List.Vector.toList_length, List.Vector.toList_length]
  · refine UInt8.toNat_inj.mp (Nat.eq_of_testBit_eq fun r ↦ ?_)
    have hlt : q < 32 := by
      rwa [List.Vector.toList_length] at hq
    by_cases hr : r < 8
    · have hbit := hbits (8 * q + r) (by rw [msgBits]; omega)
      have hbyte : (8 * q + r) >>> 3 = q := by
        rw [Nat.shiftRight_eq_div_pow]
        omega
      have hplace : (8 * q + r) &&& 7 = r := by
        rw [show 7 = 2 ^ 3 - 1 from rfl, Nat.and_two_pow_sub_one_eq_mod]
        omega
      rwa [digestBit, digestBit, hbyte, hplace, getD_eq_getElem _ _ hq,
        getD_eq_getElem _ _ hq'] at hbit
    · have hhigh : ∀ b : UInt8, b.toNat.testBit r = false := by
        intro b
        have hpow : 2 ^ 8 ≤ 2 ^ r := Nat.pow_le_pow_right (by decide) (not_lt.mp hr)
        exact Nat.testBit_lt_two_pow (b.toNat_lt.trans_le hpow)
      rw [hhigh, hhigh]

/-! ## Completeness -/

/-- The images that a genuine signature stands for are those of its leaf. -/
theorem rebuiltImages_reveals (leaf : UInt32) (digest : Hash) :
    rebuiltImages sha digest ((MerkleSigner.fromSeed sha seed requested).reveals sha leaf digest) =
      leafImages sha seed leaf := by
  have hrange : (List.range msgBits).zipIdx = (List.range msgBits).map fun i ↦ (i, i) := by
    decide +kernel
  rw [rebuiltImages, MerkleSigner.reveals, zipIdx_map, hrange, map_map, map_map,
    leafImages]
  refine map_congr_left fun i _ ↦ ?_
  simp only [Function.comp_apply, Prod.map_apply, id_eq]
  cases digestBit digest i <;> rfl

/-- **A signature verifies.** -/
theorem verify_sign {leaf : UInt32} (hleaf : leaf.toNat < 2 ^ effectiveHeight requested)
    (digest : Hash) : ∃ sig,
    (MerkleSigner.fromSeed sha seed requested).sign sha leaf digest = some sig ∧
      verify sha (seedEntry sha seed (effectiveHeight requested) 0) digest sig = true := by
  obtain ⟨path, -, hsign, hclimb⟩ := fromSeed_sign sha seed hleaf digest
  refine ⟨_, hsign, ?_⟩
  have hlength : ((MerkleSigner.fromSeed sha seed requested).reveals sha leaf digest).length =
      msgBits := by
    rw [MerkleSigner.reveals, length_map, length_range]
  rw [verify, if_neg (not_not.mpr hlength), rebuiltImages_reveals]
  exact decide_eq_true hclimb

/-! ## Binding -/

variable {strings : Set Bytes}

/-- The pairs on the way to the root are told apart from those of the tree and from leaves. -/
theorem separate_of_injOn
    (hinjective : Set.InjOn sha (hashed sha seed height digest sig)) :
    MerkleTree.Separate (nodeHash sha) (seedLeaf sha seed) height (rebuiltLeaf sha digest sig)
      (MerkleTree.climbed (nodeHash sha) (rebuiltLeaf sha digest sig) sig.leaf.toNat sig.path) where
  pair := fun pair hpair l hl k hk hsame ↦
    nodeInput_inj (hinjective (Or.inr (.node pair hpair)) (Or.inl (.node l k hl hk)) hsame)
  apart := fun pair hpair k hk ↦
    sha_ne hinjective (Or.inr (.node pair hpair)) (Or.inl (.leaf k hk))
      (by rw [kind_nodeInput, kind_leafInput]; decide)
  start := fun l hl k hk ↦
    sha_ne hinjective (Or.inr .leaf) (Or.inl (.node l k hl hk))
      (by rw [kind_nodeInput, kind_leafInput]; decide)

/-- The leaf of the tree that a signature is for. -/
def signedLeaf (height : ℕ) (sig : MerkleSig) : UInt32 := UInt32.ofNat (sig.leaf.toNat % 2 ^ height)

theorem images_of_verify (hinjective : Set.InjOn sha (hashed sha seed height digest sig))
    (hverify : verify sha (seedEntry sha seed height 0) digest sig = true) :
    sig.reveals.length = msgBits ∧ sig.path.length = height ∧
      rebuiltImages sha digest sig.reveals = leafImages sha seed (signedLeaf height sig) := by
  rw [verify] at hverify
  split at hverify
  case isTrue => cases hverify
  case isFalse hlength =>
    have hclimb := of_decide_eq_true hverify
    obtain ⟨hpath, hleaf⟩ := MerkleTree.eq_leaf_of_climb (nodeHash sha) le_rfl (Nat.two_pow_pos _)
      (separate_of_injOn hinjective) hclimb
    rw [zero_mul, zero_add] at hleaf
    have hk : sig.leaf.toNat % 2 ^ height < 2 ^ height := Nat.mod_lt _ (Nat.two_pow_pos height)
    have himages := hinjective (Or.inr .leaf) (Or.inl (.leaf _ hk)) hleaf
    exact ⟨not_not.mp hlength, hpath, leafInput_inj himages⟩

/-- **A signature that verifies reveals the genuine secrets of its leaf for the bits of the digest,
and carries the genuine images of the others.** -/
theorem reveals_of_verify (hinjective : Set.InjOn sha (hashed sha seed height digest sig))
    (hverify : verify sha (seedEntry sha seed height 0) digest sig = true) {i : ℕ} (hi : i < msgBits) :
    sig.reveals[i]? = some
      (deriveSecret sha seed (signedLeaf height sig) i (digestBit digest i),
        imageOf sha (deriveSecret sha seed (signedLeaf height sig) i !digestBit digest i)) := by
  obtain ⟨hlength, -, himages⟩ := images_of_verify hinjective hverify
  have hget : i < sig.reveals.length := hlength ▸ hi
  obtain ⟨⟨secret, complement⟩, hreveal⟩ : ∃ reveal, sig.reveals[i]? = some reveal :=
    ⟨_, getElem?_eq_getElem hget⟩
  have hk : sig.leaf.toNat % 2 ^ height < 2 ^ height := Nat.mod_lt _ (Nat.two_pow_pos height)
  have hpair := congrArg (·[i]?) himages
  simp only [rebuiltImages, leafImages, getElem?_map, getElem?_zipIdx, hreveal,
    getElem?_range hi, Option.map_some, zero_add, Option.some_inj] at hpair
  have hsecret : ∀ b, imageOf sha secret = imageOf sha (deriveSecret sha seed (signedLeaf height sig) i b)
      → secret = deriveSecret sha seed (signedLeaf height sig) i b := fun b hsame ↦
    imageInput_inj (hinjective (Or.inr (.image _ (mem_of_getElem? hreveal)))
      (Or.inl (.image _ i b hk hi)) hsame)
  rw [hreveal]
  cases hbit : digestBit digest i with
  | false =>
    rw [hbit, if_neg Bool.false_ne_true] at hpair
    obtain ⟨hfirst, hsecond⟩ := Prod.mk.inj hpair
    rw [hsecret false hfirst, hsecond]
    rfl
  | true =>
    rw [hbit, if_pos rfl] at hpair
    obtain ⟨hfirst, hsecond⟩ := Prod.mk.inj hpair
    rw [hsecret true hsecond, hfirst]
    rfl

/-! ## Signatures of other digests -/

/-- All hashes in a signature. -/
def MerkleSig.values (sig : MerkleSig) : List Hash :=
  sig.reveals.map Prod.fst ++ sig.reveals.map Prod.snd ++ sig.path

theorem eq_of_sign {leaf : UInt32} {signed : MerkleSig} {signedDigest : Hash}
    (hsign : (MerkleSigner.fromSeed sha seed requested).sign sha leaf signedDigest = some signed) :
    leaf.toNat < 2 ^ effectiveHeight requested ∧
      signed.reveals = (MerkleSigner.fromSeed sha seed requested).reveals sha leaf signedDigest ∧
      ∀ x ∈ signed.path, ∃ l < effectiveHeight requested,
        ∃ k < 2 ^ (effectiveHeight requested - l), x = seedEntry sha seed l k := by
  rw [MerkleSigner.sign, fromSeed_capacity] at hsign
  obtain ⟨hleaf, hmap⟩ := Option.ite_none_right_eq_some.mp hsign
  obtain ⟨path, hpath, hsame⟩ := Option.map_eq_some_iff.mp hmap
  cases hsame
  rw [fromSeed_levels] at hpath
  refine ⟨hleaf, rfl, fun x hx ↦ ?_⟩
  exact MerkleTree.mem_siblings (nodeHash sha) (zero_add (effectiveHeight requested)) hleaf hpath hx

/-- No entry of the tree below its root is a secret. -/
theorem deriveSecret_ne_entry (hinjective : Set.InjOn sha (hashed sha seed height digest sig))
    {i k l k' : ℕ} {b : Bool} (hi : i < msgBits) (hk : k < 2 ^ height) (hl : l < height)
    (hk' : k' < 2 ^ (height - l)) :
    deriveSecret sha seed (UInt32.ofNat k) i b ≠ seedEntry sha seed l k' := by
  have hsecret : secretInput seed (UInt32.ofNat k) i b ∈ hashed sha seed height digest sig :=
    Or.inl (.secret k i b hk hi)
  cases l with
  | zero =>
    exact sha_ne hinjective hsecret (Or.inl (.leaf k' hk'))
      (by rw [kind_secretInput, kind_leafInput]; decide)
  | succ l =>
    exact sha_ne hinjective hsecret (Or.inl (.node l k' (Nat.lt_of_succ_lt hl) hk'))
      (by rw [kind_secretInput, kind_nodeInput]; decide)

/-- A genuine signature contains a genuine secret only when it reveals it. -/
theorem eq_of_mem_values {leaf : UInt32} {i k : ℕ} {b : Bool} {signed : MerkleSig}
    {signedDigest : Hash}
    (hinjective : Set.InjOn sha (hashed sha seed (effectiveHeight requested) digest sig))
    (hsign : (MerkleSigner.fromSeed sha seed requested).sign sha leaf signedDigest = some signed)
    (hi : i < msgBits) (hk : k < 2 ^ effectiveHeight requested)
    (hmem : deriveSecret sha seed (UInt32.ofNat k) i b ∈ signed.values) :
    UInt32.ofNat k = leaf ∧ b = digestBit signedDigest i := by
  obtain ⟨hleaf, hreveals, hpath⟩ := eq_of_sign hsign
  have hofNat : UInt32.ofNat leaf.toNat = leaf := UInt32.ofNat_toNat
  have hsecret : secretInput seed (UInt32.ofNat k) i b ∈
      hashed sha seed (effectiveHeight requested) digest sig := Or.inl (.secret k i b hk hi)
  rw [MerkleSig.values, hreveals, MerkleSigner.reveals, map_map, map_map] at hmem
  cases List.mem_append.mp hmem with
  | inr hnode =>
    obtain ⟨l, hl, k', hk', hsame⟩ := hpath _ hnode
    exact absurd hsame (deriveSecret_ne_entry hinjective hi hk hl hk')
  | inl hreveal =>
    cases List.mem_append.mp hreveal with
    | inl hfirst =>
      obtain ⟨j, hj, hsame⟩ := List.mem_map.mp hfirst
      have hj := List.mem_range.mp hj
      have hsigned : TreeInput sha seed (effectiveHeight requested)
          (secretInput seed leaf j (digestBit signedDigest j)) :=
        hofNat ▸ .secret leaf.toNat j _ hleaf hj
      obtain ⟨hsameLeaf, hindex, hbit⟩ :=
        secretInput_inj hi hj (hinjective hsecret (Or.inl hsigned) hsame.symm)
      exact ⟨hsameLeaf, hindex ▸ hbit⟩
    | inr hsecond =>
      obtain ⟨j, hj, hsame⟩ := List.mem_map.mp hsecond
      have hsigned : TreeInput sha seed (effectiveHeight requested)
          (imageInput (deriveSecret sha seed leaf j !digestBit signedDigest j)) :=
        hofNat ▸ .image leaf.toNat j _ hleaf (List.mem_range.mp hj)
      refine absurd hsame.symm (sha_ne hinjective hsecret (Or.inl hsigned) ?_)
      rw [kind_secretInput, kind_imageInput]
      decide

/-- **Signatures are complete and binding.**  Every leaf signs every digest.  Without a collision
among the strings that are hashed, whatever verifies has a path as long as the tree is high and
reveals the genuine secrets of its leaf for the bits of the digest, one of which is in no signature
of another digest with this leaf. -/
theorem signatures_complete_and_binding (sha : Bytes → Hash) (seed : Hash) (requested : ℕ) :
    ∃ root, (MerkleSigner.fromSeed sha seed requested).root = some root ∧
      (∀ leaf : UInt32, leaf.toNat < 2 ^ effectiveHeight requested → ∀ digest, ∃ sig,
        (MerkleSigner.fromSeed sha seed requested).sign sha leaf digest = some sig ∧
          verify sha root digest sig = true) ∧
      ∀ digest sig, Set.InjOn sha (hashed sha seed (effectiveHeight requested) digest sig) →
        verify sha root digest sig = true →
        sig.path.length = effectiveHeight requested ∧
        (∀ i < msgBits, sig.reveals[i]? = some
          (deriveSecret sha seed (signedLeaf (effectiveHeight requested) sig) i (digestBit digest i),
            imageOf sha (deriveSecret sha seed (signedLeaf (effectiveHeight requested) sig) i
              !digestBit digest i))) ∧
        ∀ signedDigest signed,
          (MerkleSigner.fromSeed sha seed requested).sign sha
            (signedLeaf (effectiveHeight requested) sig) signedDigest = some signed →
          signedDigest ≠ digest →
          ∃ reveal ∈ sig.reveals, reveal.1 ∉ signed.values := by
  refine ⟨_, fromSeed_root seed requested, fun _ hleaf digest ↦ verify_sign hleaf digest,
    fun digest sig hinjective hverify ↦ ?_⟩
  have hreveals := fun (i : ℕ) (hi : i < msgBits) ↦ reveals_of_verify hinjective hverify hi
  refine ⟨(images_of_verify hinjective hverify).2.1, hreveals,
    fun signedDigest signed hsign hne ↦ ?_⟩
  obtain ⟨i, hi, hbit⟩ : ∃ i < msgBits, digestBit signedDigest i ≠ digestBit digest i := by
    by_contra hall
    push Not at hall
    exact hne (eq_of_digestBit hall)
  refine ⟨_, mem_of_getElem? (hreveals i hi), fun hmem ↦ hbit ?_⟩
  have hk := Nat.mod_lt sig.leaf.toNat (Nat.two_pow_pos (effectiveHeight requested))
  exact (eq_of_mem_values hinjective hsign hi hk hmem).2.symm

end SoulSystem.Licensing
