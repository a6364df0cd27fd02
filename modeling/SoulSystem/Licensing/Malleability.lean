import SoulSystem.Licensing.HashSig

/-!
# Malleability of signatures

The hashes of a signature that verifies are all determined: what it reveals and its path are those
of the genuine signature for its leaf, modulo the number of leaves.  The number of the leaf itself
enters only bit by bit, once for each level of the tree, and is not checked against the number of
leaves.  A genuine signature still verifies when a multiple of it is added to its leaf.
-/

namespace SoulSystem.Licensing

open Library ByteCursor Str List

variable {sha : Bytes → Hash} {seed root digest : Hash} {requested : ℕ} {leaf : UInt32}
  {genuine sig : MerkleSig}

/-! ## Genuine signatures -/

/-- The path of the genuine signature of a leaf. -/
def genuinePath (sha : Bytes → Hash) (seed : Hash) (height leaf : ℕ) : List Hash :=
  (List.range height).map fun l ↦ seedEntry sha seed l ((leaf >>> l) ^^^ 1)

theorem eq_genuine
    (hsign : (MerkleSigner.fromSeed sha seed requested).sign sha leaf digest = some genuine) :
    leaf.toNat < 2 ^ effectiveHeight requested ∧
      genuine = ⟨leaf, (MerkleSigner.fromSeed sha seed requested).reveals sha leaf digest,
        genuinePath sha seed (effectiveHeight requested) leaf.toNat⟩ := by
  rw [MerkleSigner.sign, fromSeed_capacity] at hsign
  obtain ⟨hleaf, hmap⟩ := Option.ite_none_right_eq_some.mp hsign
  obtain ⟨path, hpath, hsame⟩ := Option.map_eq_some_iff.mp hmap
  have hheight :
      (MerkleSigner.fromSeed sha seed requested).height = effectiveHeight requested := rfl
  rw [fromSeed_levels, hheight, MerkleTree.siblings_eq (nodeHash sha) (Nat.zero_add _) hleaf,
    Option.some_inj] at hpath
  refine ⟨hleaf, hsame.symm.trans (congrArg _ (hpath.symm.trans ?_))⟩
  apply map_congr_left
  intro l _
  rw [Nat.zero_add, seedEntry]

theorem leaf_genuine
    (hsign : (MerkleSigner.fromSeed sha seed requested).sign sha leaf digest = some genuine) :
    genuine.leaf = leaf := by
  rw [(eq_genuine hsign).2]

/-! ## Signatures that verify -/

theorem length_reveals_fromSeed : ((MerkleSigner.fromSeed sha seed requested).reveals sha leaf
    digest).length = msgBits := by
  rw [MerkleSigner.reveals, length_map, length_range]

/-- **What a signature that verifies reveals, and its path, are the genuine ones for its leaf
modulo the number of leaves.** -/
theorem eq_of_verify
    (hinjective : Set.InjOn sha (hashed sha seed (effectiveHeight requested) digest sig))
    (hverify : verify sha (seedEntry sha seed (effectiveHeight requested) 0) digest sig = true) :
    sig.reveals = (MerkleSigner.fromSeed sha seed requested).reveals sha
        (signedLeaf (effectiveHeight requested) sig) digest ∧
      sig.path = genuinePath sha seed (effectiveHeight requested)
        (sig.leaf.toNat % 2 ^ effectiveHeight requested) := by
  obtain ⟨hlength, -, -⟩ := images_of_verify hinjective hverify
  constructor
  · apply ext_getElem?
    intro i
    by_cases hi : i < msgBits
    · rw [reveals_of_verify hinjective hverify hi, MerkleSigner.reveals, getElem?_map,
        getElem?_range hi]
      rfl
    · rw [getElem?_eq_none (by omega),
        getElem?_eq_none (by rw [length_reveals_fromSeed]; omega)]
  · rw [verify, if_neg (not_not.mpr hlength)] at hverify
    have hpath := MerkleTree.path_of_climb (nodeHash sha) le_rfl (Nat.two_pow_pos _)
      (separate_of_injOn hinjective) (of_decide_eq_true hverify)
    rwa [Nat.zero_mul, Nat.zero_add] at hpath

/-- A signature with the genuine hashes of its leaf verifies. -/
theorem verify_of_genuine (hleaf : sig.leaf.toNat % 2 ^ effectiveHeight requested = leaf.toNat)
    (hsign : (MerkleSigner.fromSeed sha seed requested).sign sha leaf digest = some genuine)
    (hreveals : sig.reveals = genuine.reveals) (hpath : sig.path = genuine.path) :
    verify sha (seedEntry sha seed (effectiveHeight requested) 0) digest sig = true := by
  obtain ⟨hlt, heq⟩ := eq_genuine hsign
  obtain ⟨signed, hsigned, hverify⟩ := @verify_sign sha seed requested leaf hlt digest
  rw [hsign] at hsigned
  cases hsigned
  have hlength : sig.path.length = effectiveHeight requested := by
    rw [hpath, heq, genuinePath, length_map, length_range]
  have hclimb : sig.leaf.toNat % 2 ^ sig.path.length = leaf.toNat % 2 ^ sig.path.length := by
    rw [hlength, hleaf, Nat.mod_eq_of_lt hlt]
  rw [verify, hreveals, MerkleTree.climb_congr _ hclimb, hpath]
  rw [verify, leaf_genuine hsign] at hverify
  exact hverify

/-! ## Uniqueness -/

/-- A signature that is for the same leaf modulo the number of leaves, or that differs from the
genuine one in the leaf only, is rejected unless it is the genuine one. -/
def Unmalleable (sha : Bytes → Hash) (signer : MerkleSigner) (root digest : Hash)
    (genuine sig : MerkleSig) : Prop :=
  sig.leaf.toNat % signer.capacity = genuine.leaf.toNat ∨
      sig.reveals = genuine.reveals ∧ sig.path = genuine.path →
    verify sha root digest sig = true → sig = genuine

/-- A multiple of the number of leaves is added to the leaf of a genuine signature, and nothing else
is changed. -/
structure Wraps (signer : MerkleSigner) (genuine sig : MerkleSig) : Prop where
  capacity_le : signer.capacity ≤ sig.leaf.toNat
  leaf : sig.leaf.toNat % signer.capacity = genuine.leaf.toNat
  reveals : sig.reveals = genuine.reveals
  path : sig.path = genuine.path

/-- Two leaves of a tree reveal two lists. -/
theorem leaf_of_reveals {leaf' : UInt32} (hleaf : leaf.toNat < 2 ^ effectiveHeight requested)
    (hleaf' : leaf'.toNat < 2 ^ effectiveHeight requested)
    (hinjective : Set.InjOn sha (hashed sha seed (effectiveHeight requested) digest sig))
    (hsame : (MerkleSigner.fromSeed sha seed requested).reveals sha leaf digest =
      (MerkleSigner.fromSeed sha seed requested).reveals sha leaf' digest) : leaf = leaf' := by
  have hzero : 0 < msgBits := by decide
  have hmem {k : UInt32} (hk : k.toNat < 2 ^ effectiveHeight requested) :
      secretInput seed k 0 (digestBit digest 0) ∈
        hashed sha seed (effectiveHeight requested) digest sig := by
    have hsecret : TreeInput sha seed (effectiveHeight requested)
        (secretInput seed (UInt32.ofNat k.toNat) 0 (digestBit digest 0)) :=
      .secret k.toNat 0 _ hk hzero
    rw [UInt32.ofNat_toNat] at hsecret
    exact Or.inl hsecret
  have hfirst := congrArg (·[0]?) hsame
  simp only [MerkleSigner.reveals, getElem?_map, getElem?_range hzero, Option.map_some,
    Option.some_inj, Prod.mk.injEq] at hfirst
  exact (secretInput_inj hzero hzero (hinjective (hmem hleaf) (hmem hleaf') hfirst.1)).1

/-- **A signature is malleable exactly by wrapping its leaf around.** -/
theorem unmalleable_iff
    (hroot : (MerkleSigner.fromSeed sha seed requested).root = some root)
    (hsign : (MerkleSigner.fromSeed sha seed requested).sign sha leaf digest = some genuine)
    (hinjective : Set.InjOn sha (hashed sha seed (effectiveHeight requested) digest sig)) :
    Unmalleable sha (MerkleSigner.fromSeed sha seed requested) root digest genuine sig ↔
      ¬ Wraps (MerkleSigner.fromSeed sha seed requested) genuine sig := by
  have hcapacity := @fromSeed_capacity sha seed requested
  rw [fromSeed_root, Option.some_inj] at hroot
  obtain ⟨hlt, heq⟩ := eq_genuine hsign
  have hgenuine := leaf_genuine hsign
  constructor
  · intro hunmalleable hwraps
    have hverify := verify_of_genuine (hgenuine ▸ hcapacity ▸ hwraps.leaf) hsign hwraps.reveals
      hwraps.path
    have hsame := hunmalleable (.inl hwraps.leaf) (hroot ▸ hverify)
    have hle := hwraps.capacity_le
    rw [hsame, hgenuine, hcapacity] at hle
    exact absurd hlt (Nat.not_lt.mpr hle)
  · intro hwraps hrelated hverify
    obtain ⟨hreveals, hpath⟩ := eq_of_verify hinjective (hroot ▸ hverify)
    have hsigned : (signedLeaf (effectiveHeight requested) sig).toNat =
        sig.leaf.toNat % 2 ^ effectiveHeight requested :=
      UInt32.toNat_ofNat_of_lt' ((Nat.mod_le _ _).trans_lt sig.leaf.toNat_lt)
    have hmod : sig.leaf.toNat % 2 ^ effectiveHeight requested = leaf.toNat := by
      cases hrelated with
      | inl hleaf => rwa [hcapacity, hgenuine] at hleaf
      | inr hsame =>
        have hleaf : signedLeaf (effectiveHeight requested) sig = leaf := by
          have hlt' : (signedLeaf (effectiveHeight requested) sig).toNat <
              2 ^ effectiveHeight requested := by
            rw [hsigned]
            exact Nat.mod_lt _ (Nat.two_pow_pos _)
          apply leaf_of_reveals hlt' hlt hinjective
          rw [← hreveals, hsame.1, heq]
        rw [← hsigned, hleaf]
    have hleaf : signedLeaf (effectiveHeight requested) sig = leaf := by
      apply UInt32.toNat_inj.mp
      rw [hsigned, hmod]
    have hreveals' : sig.reveals = genuine.reveals := by rw [hreveals, hleaf, heq]
    have hpath' : sig.path = genuine.path := by rw [hpath, hmod, heq]
    have hsmall : sig.leaf.toNat < 2 ^ effectiveHeight requested := by
      by_contra hlarge
      refine hwraps ⟨?_, ?_, hreveals', hpath'⟩
      · rw [hcapacity]
        exact Nat.not_lt.mp hlarge
      · rw [hcapacity, hmod, hgenuine]
    have hsame : sig.leaf = genuine.leaf := by
      rw [hgenuine]
      apply UInt32.toNat_inj.mp
      rw [← hmod, Nat.mod_eq_of_lt hsmall]
    cases sig
    cases genuine
    cases hsame
    cases hreveals'
    cases hpath'
    rfl

/-! ## A tree of two leaves -/

/-- A hash that keeps the kind of a string and the bytes that tell the strings of a small tree
apart. -/
def fingerprint (input : Bytes) : Hash :=
  let offset := if kind input = some 115 then 37 else if kind input = some 112 then 6 else 8
  List.Vector.ofFn fun j ↦ if j = 0 then (kind input).getD 0 else input.getD (offset + j) 0

def zeroHash : Hash := List.Vector.replicate 32 0

/-- The bytes that tell a secret. -/
def tag (leaf : UInt32) (i : ℕ) (b : Bool) : Bytes :=
  leBytes 4 leaf.toNat ++ leBytes 2 i ++ [if b then 1 else 0]

theorem secretInput_eq (leaf : UInt32) (i : ℕ) (b : Bool) :
    secretInput zeroHash leaf i b = utf8 "SRL.sk".toList ++ zeroHash.toList ++ tag leaf i b := by
  simp only [secretInput, tag, append_assoc]

theorem secret_bytes (leaf : UInt32) (i : ℕ) (b : Bool) :
    (deriveSecret fingerprint zeroHash leaf i b).toList =
      115 :: (tag leaf i b ++ List.replicate 24 0) :=
  rfl

theorem image_bytes (leaf : UInt32) (i : ℕ) (b : Bool) :
    (imageOf fingerprint (deriveSecret fingerprint zeroHash leaf i b)).toList =
      112 :: (tag leaf i b ++ List.replicate 24 0) :=
  rfl

theorem leaf_bytes (leaf : UInt32) :
    (leafCommitment fingerprint zeroHash leaf).toList =
      108 :: (tag leaf 0 false ++ List.replicate 24 0) :=
  rfl

theorem tag_inj {kind : UInt8} {leaf leaf' : UInt32} {i i' : ℕ} {b b' : Bool}
    (hbytes : kind :: (tag leaf i b ++ List.replicate 24 0) =
      kind :: (tag leaf' i' b' ++ List.replicate 24 0)) : tag leaf i b = tag leaf' i' b' :=
  append_cancel_right (List.cons.inj hbytes).2

/-- Strings of two kinds have two fingerprints. -/
theorem kind_of_fingerprint {input input' : Bytes}
    (hsame : fingerprint input = fingerprint input') :
    (kind input).getD 0 = (kind input').getD 0 := by
  have hfirst := congrArg (fun hash : Hash ↦ hash.get 0) hsame
  simp only [fingerprint, List.Vector.get_ofFn, if_true] at hfirst
  exact hfirst

theorem secretInput_of_tag {leaf leaf' : UInt32} {i i' : ℕ} {b b' : Bool}
    (htag : tag leaf i b = tag leaf' i' b') :
    secretInput zeroHash leaf i b = secretInput zeroHash leaf' i' b' := by
  rw [secretInput_eq, secretInput_eq, htag]

/-- The strings that are hashed for a tree of two leaves have different fingerprints. -/
theorem injOn_fingerprint :
    Set.InjOn fingerprint {input | TreeInput fingerprint zeroHash 1 input} := by
  intro input hinput input' hinput' hsame
  have hkind := kind_of_fingerprint hsame
  cases hinput with
  | secret k i b hk hi =>
    rw [kind_secretInput] at hkind
    cases hinput' with
    | secret k' i' b' hk' hi' =>
      have hbytes : (deriveSecret fingerprint zeroHash (UInt32.ofNat k) i b).toList =
          (deriveSecret fingerprint zeroHash (UInt32.ofNat k') i' b').toList :=
        congrArg List.Vector.toList hsame
      rw [secret_bytes, secret_bytes] at hbytes
      exact secretInput_of_tag (tag_inj hbytes)
    | image k' i' b' hk' hi' => exact absurd (kind_imageInput ▸ hkind) (by decide)
    | leaf k' hk' => exact absurd (kind_leafInput ▸ hkind) (by decide)
    | node l' k' hl' hk' => exact absurd (kind_nodeInput ▸ hkind) (by decide)
  | image k i b hk hi =>
    rw [kind_imageInput] at hkind
    cases hinput' with
    | secret k' i' b' hk' hi' => exact absurd (kind_secretInput ▸ hkind) (by decide)
    | image k' i' b' hk' hi' =>
      have hbytes : (imageOf fingerprint
            (deriveSecret fingerprint zeroHash (UInt32.ofNat k) i b)).toList =
          (imageOf fingerprint
            (deriveSecret fingerprint zeroHash (UInt32.ofNat k') i' b')).toList :=
        congrArg List.Vector.toList hsame
      rw [image_bytes, image_bytes] at hbytes
      exact congrArg (fun input ↦ imageInput (fingerprint input))
        (secretInput_of_tag (tag_inj hbytes))
    | leaf k' hk' => exact absurd (kind_leafInput ▸ hkind) (by decide)
    | node l' k' hl' hk' => exact absurd (kind_nodeInput ▸ hkind) (by decide)
  | leaf k hk =>
    rw [kind_leafInput] at hkind
    cases hinput' with
    | secret k' i' b' hk' hi' => exact absurd (kind_secretInput ▸ hkind) (by decide)
    | image k' i' b' hk' hi' => exact absurd (kind_imageInput ▸ hkind) (by decide)
    | leaf k' hk' =>
      have hbytes : (leafCommitment fingerprint zeroHash (UInt32.ofNat k)).toList =
          (leafCommitment fingerprint zeroHash (UInt32.ofNat k')).toList :=
        congrArg List.Vector.toList hsame
      rw [leaf_bytes, leaf_bytes] at hbytes
      have hsecret := secretInput_of_tag (tag_inj hbytes)
      rw [(secretInput_inj (by decide) (by decide) hsecret).1]
    | node l' k' hl' hk' => exact absurd (kind_nodeInput ▸ hkind) (by decide)
  | node l k hl hk =>
    rw [kind_nodeInput] at hkind
    cases hinput' with
    | secret k' i' b' hk' hi' => exact absurd (kind_secretInput ▸ hkind) (by decide)
    | image k' i' b' hk' hi' => exact absurd (kind_imageInput ▸ hkind) (by decide)
    | leaf k' hk' => exact absurd (kind_leafInput ▸ hkind) (by decide)
    | node l' k' hl' hk' =>
      obtain rfl := Nat.lt_one_iff.mp hl
      obtain rfl := Nat.lt_one_iff.mp hl'
      obtain rfl := Nat.lt_one_iff.mp hk
      obtain rfl := Nat.lt_one_iff.mp hk'
      rfl

/-- The signer of a tree of two leaves. -/
def smallSigner : MerkleSigner := MerkleSigner.fromSeed fingerprint zeroHash 1

/-- Its signature of a digest of zeros with the first leaf. -/
def firstSig : MerkleSig :=
  ⟨0, smallSigner.reveals fingerprint 0 zeroHash, genuinePath fingerprint zeroHash 1 0⟩

theorem sign_smallSigner : smallSigner.sign fingerprint 0 zeroHash = some firstSig := by
  obtain ⟨genuine, hsign, -⟩ := @verify_sign fingerprint zeroHash 1 0 (by decide) zeroHash
  exact hsign.trans (congrArg some (eq_genuine hsign).2)

theorem root_smallSigner : smallSigner.root = some (seedEntry fingerprint zeroHash 1 0) :=
  fromSeed_root zeroHash 1

/-- The same signature with the number of leaves added to its leaf. -/
def wrappedSig : MerkleSig := { firstSig with leaf := 2 }

/-- Its verification hashes what is hashed for the tree, where no two strings have one hash. -/
theorem injOn_wrappedSig :
    Set.InjOn fingerprint (hashed fingerprint zeroHash 1 zeroHash wrappedSig) := by
  have himages : rebuiltImages fingerprint zeroHash wrappedSig.reveals =
      leafImages fingerprint zeroHash 0 := rebuiltImages_reveals 0 zeroHash
  apply injOn_fingerprint.mono
  rintro input (htree | hverify)
  · exact htree
  · cases hverify with
    | image reveal hreveal =>
      obtain ⟨i, hi, rfl⟩ := List.mem_map.mp hreveal
      exact .image 0 i _ (by decide) (List.mem_range.mp hi)
    | leaf =>
      rw [himages]
      exact .leaf 0 (by decide)
    | node pair hpair =>
      rw [rebuiltLeaf, himages] at hpair
      obtain rfl := List.mem_singleton.mp hpair
      exact .node 0 0 (by decide) (by decide)

theorem unmalleable_iff_wrappedSig :
    Unmalleable fingerprint smallSigner (seedEntry fingerprint zeroHash 1 0) zeroHash firstSig
        wrappedSig ↔ ¬ Wraps smallSigner firstSig wrappedSig :=
  unmalleable_iff root_smallSigner sign_smallSigner injOn_wrappedSig

/-- The first leaf of two is also accepted as the third one. -/
theorem not_unmalleable : ¬ Unmalleable fingerprint smallSigner
    (seedEntry fingerprint zeroHash 1 0) zeroHash firstSig wrappedSig := by
  intro hunmalleable
  have hverify :
      verify fingerprint (seedEntry fingerprint zeroHash 1 0) zeroHash wrappedSig = true :=
    @verify_of_genuine fingerprint zeroHash zeroHash 1 0 firstSig wrappedSig (by decide)
      sign_smallSigner rfl rfl
  have hleaf := congrArg MerkleSig.leaf (hunmalleable (.inl (by decide)) hverify)
  exact absurd hleaf (by decide)

end SoulSystem.Licensing
