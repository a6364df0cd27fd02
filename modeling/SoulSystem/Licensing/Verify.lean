import SoulSystem.Licensing.License
import SoulSystem.Licensing.SigBytes
import SoulSystem.Library.Outcome

/-!
# Verification of licenses

All ways to accept a license check the signature of its encoding, its expiry and its node
lock.  When the vendor gave each leaf to one license and the presented signature has no secret from
elsewhere, what is accepted agrees with a license of the vendor.

A presented license that is accepted has a signature with the genuine secrets for the bits of its
digest. As each of them was revealed for a license of the vendor with the same leaf, that license
has all bits of the digest, hence the same encoding and the same terms.
-/

namespace SoulSystem.Licensing

open Library ByteCursor Str List

section Acceptance

/-! ## Licenses on machines and in time -/

/-- What is hashed for a machine, salted with the license. -/
def fingerprintInput (licensee licenseId machineId : Str) : Bytes :=
  utf8 "scirust-node-lock:v2\x00".toList ++ (putBytes (utf8 licensee) ++
    (putBytes (utf8 licenseId) ++ putBytes (utf8 machineId)))

def nodeFingerprint (sha : Bytes → Hash) (licensee licenseId machineId : Str) : Hash :=
  sha (fingerprintInput licensee licenseId machineId)

namespace License

def digest (sha : Bytes → Hash) (license : License) : Hash := sha license.canonicalBytes

def isValidAt (license : License) (now : UInt64) : Bool :=
  match license.expiresAt with
  | none => true
  | some t => decide (now ≤ t)

def isNodeLocked (license : License) : Bool := license.nodeLock.isSome

def allowsNode (sha : Bytes → Hash) (license : License) (machineId : Str) : Bool :=
  match license.nodeLock with
  | none => true
  | some fp => decide (fp = nodeFingerprint sha license.licensee license.licenseId machineId)

def withNodeLock (sha : Bytes → Hash) (license : License) (machineId : Str) : License :=
  { license with
    nodeLock := some (nodeFingerprint sha license.licensee license.licenseId machineId) }

end License

inductive LicenseError where
  | malformedSignature
  | badSignature
  | expired (expiredAt now : UInt64)
  | notEntitled (m : Module)
  | nodeMismatch
  | nodeRequired

/-- A license with its signature in hexadecimal digits. -/
structure SignedLicense where
  license : License
  signature : Str

/-! ## Entitlements -/

structure Entitlements where
  licensee : Str
  licenseId : Str
  modules : List Module
  expiresAt : Option UInt64

namespace Entitlements

def allows (ent : Entitlements) (m : Module) : Bool := ent.modules.contains m

def require (ent : Entitlements) (m : Module) : Except LicenseError Unit :=
  if ent.allows m then .ok () else .error (.notEntitled m)

/-- All modules are required in turn. -/
def requireAll (ent : Entitlements) : List Module → Except LicenseError Unit
  | [] => .ok ()
  | m :: required => (ent.require m).bind fun _ ↦ ent.requireAll required

end Entitlements

def entitlementsOf (license : License) : Entitlements where
  licensee := license.licensee
  licenseId := license.licenseId
  modules := license.modules
  expiresAt := license.expiresAt

/-! ## Ways to accept a license -/

variable (sha : Bytes → Hash)

def verifySignatureAndWindow (signed : SignedLicense) (root : Hash) (now : UInt64) :
    Except LicenseError Unit :=
  match MerkleSig.fromHex signed.signature with
  | none => .error .malformedSignature
  | some sig =>
    if !verify sha root (signed.license.digest sha) sig then .error .badSignature
    else if !signed.license.isValidAt now then
      .error (.expired (signed.license.expiresAt.getD 0) now)
    else .ok ()

def verifyLicense (signed : SignedLicense) (root : Hash) (now : UInt64) :
    Except LicenseError Entitlements :=
  (verifySignatureAndWindow sha signed root now).bind fun _ ↦
    if signed.license.isNodeLocked then .error .nodeRequired
    else .ok (entitlementsOf signed.license)

def verifyLicenseOnNode (signed : SignedLicense) (root : Hash) (now : UInt64) (machineId : Str) :
    Except LicenseError Entitlements :=
  (verifySignatureAndWindow sha signed root now).bind fun _ ↦
    if !signed.license.allowsNode sha machineId then .error .nodeMismatch
    else .ok (entitlementsOf signed.license)

inductive NodePolicy where
  | floating
  | bound (machineId : Str)

inductive DenyReason where
  | noLicense
  | invalid (error : LicenseError)

inductive Activation where
  | granted (ent : Entitlements)
  | denied (reason : DenyReason)

/-- The license is verified by the policy for the node. -/
def verifyByPolicy (signed : SignedLicense) (root : Hash) (now : UInt64) :
    NodePolicy → Except LicenseError Entitlements
  | .floating => verifyLicense sha signed root now
  | .bound machineId => verifyLicenseOnNode sha signed root now machineId

def gate (license : Option SignedLicense) (root : Hash) (now : UInt64) (node : NodePolicy)
    (required : List Module) : Activation :=
  match license with
  | none => .denied .noLicense
  | some signed =>
    match verifyByPolicy sha signed root now node with
    | .error error => .denied (.invalid error)
    | .ok ent =>
      match ent.requireAll required with
      | .error error => .denied (.invalid error)
      | .ok () => .granted ent

/-! ## The vendor -/

structure Vendor where
  signer : MerkleSigner

namespace Vendor

def fromSeed (seed : Hash) (height : ℕ) : Vendor := ⟨MerkleSigner.fromSeed sha seed height⟩

def root (vendor : Vendor) : Option Hash := vendor.signer.root

def issueWithLeaf (vendor : Vendor) (license : License) (leaf : UInt32) : Option SignedLicense :=
  (vendor.signer.sign sha leaf (license.digest sha)).map fun sig ↦ ⟨license, sig.toHex⟩

end Vendor

end Acceptance

/-! ## No license grants more than the vendor signed -/

variable {sha : Bytes → Hash} {seed root : Hash} {requested : ℕ} {signed : SignedLicense}
  {now : UInt64} {machineId : Str} {ent : Entitlements}

/-! ## What acceptance checks -/

theorem verifySignatureAndWindow_ok
    (hok : verifySignatureAndWindow sha signed root now = .ok ()) :
    ∃ sig, MerkleSig.fromHex signed.signature = some sig ∧
      verify sha root (signed.license.digest sha) sig = true ∧
      signed.license.isValidAt now = true := by
  rw [verifySignatureAndWindow] at hok
  cases hhex : MerkleSig.fromHex signed.signature with
  | none =>
    rw [hhex] at hok
    cases hok
  | some sig =>
    rw [hhex] at hok
    dsimp only at hok
    cases hverify : verify sha root (signed.license.digest sha) sig with
    | false =>
      rw [hverify] at hok
      cases hok
    | true =>
      cases hvalid : signed.license.isValidAt now with
      | false =>
        rw [hverify, hvalid] at hok
        cases hok
      | true => exact ⟨sig, rfl, hverify, rfl⟩

/-- The license may be used under the policy: it is locked to no machine or to the presented one. -/
def License.OnNode (sha : Bytes → Hash) (license : License) (node : NodePolicy) : Prop :=
  license.nodeLock = none ∨ ∃ machineId, node = .bound machineId ∧
    license.nodeLock = some (nodeFingerprint sha license.licensee license.licenseId machineId)

/-- What every way to accept a license has checked. -/
structure Accepted (sha : Bytes → Hash) (signed : SignedLicense) (root : Hash) (now : UInt64)
    (node : NodePolicy) (ent : Entitlements) : Prop where
  signature : ∃ sig, MerkleSig.fromHex signed.signature = some sig ∧
    verify sha root (signed.license.digest sha) sig = true
  valid : signed.license.isValidAt now = true
  node : signed.license.OnNode sha node
  entitlements : ent = entitlementsOf signed.license

theorem accepted_of_verifyLicense (hok : verifyLicense sha signed root now = .ok ent) :
    Accepted sha signed root now .floating ent := by
  obtain ⟨_, hcheck, hok⟩ := Outcome.bind_eq_ok.mp hok
  obtain ⟨sig, hhex, hverify, hvalid⟩ := verifySignatureAndWindow_ok hcheck
  cases hlock : signed.license.nodeLock with
  | some fp =>
    rw [License.isNodeLocked, hlock, Option.isSome_some, if_pos rfl] at hok
    cases hok
  | none =>
    rw [License.isNodeLocked, hlock, Option.isSome_none, if_neg Bool.false_ne_true] at hok
    exact ⟨⟨sig, hhex, hverify⟩, hvalid, Or.inl hlock, (Except.ok.inj hok).symm⟩

theorem onNode_of_allowsNode {license : License}
    (hallows : license.allowsNode sha machineId = true) : license.OnNode sha (.bound machineId) := by
  rw [License.allowsNode] at hallows
  cases hlock : license.nodeLock with
  | none => exact Or.inl hlock
  | some fp =>
    rw [hlock] at hallows
    exact Or.inr ⟨machineId, rfl, hlock.trans (congrArg some (of_decide_eq_true hallows))⟩

theorem accepted_of_verifyLicenseOnNode
    (hok : verifyLicenseOnNode sha signed root now machineId = .ok ent) :
    Accepted sha signed root now (.bound machineId) ent := by
  obtain ⟨_, hcheck, hok⟩ := Outcome.bind_eq_ok.mp hok
  obtain ⟨sig, hhex, hverify, hvalid⟩ := verifySignatureAndWindow_ok hcheck
  cases hallows : signed.license.allowsNode sha machineId with
  | false =>
    rw [hallows] at hok
    cases hok
  | true =>
    rw [hallows] at hok
    exact ⟨⟨sig, hhex, hverify⟩, hvalid, onNode_of_allowsNode hallows, (Except.ok.inj hok).symm⟩

theorem allows_of_requireAll {required : List Module} (hok : ent.requireAll required = .ok ()) :
    ∀ m ∈ required, ent.allows m = true := by
  induction required with
  | nil => exact fun m hm ↦ absurd hm not_mem_nil
  | cons m required ih =>
    obtain ⟨_, hfirst, hrest⟩ := Outcome.bind_eq_ok.mp hok
    have hallows : ent.allows m = true := by
      by_contra hdenied
      rw [Entitlements.require, if_neg hdenied] at hfirst
      cases hfirst
    exact List.forall_mem_cons.mpr ⟨hallows, ih hrest⟩

/-- What the gate grants was accepted under the policy and covers what is required. -/
theorem accepted_of_gate {license : Option SignedLicense} {node : NodePolicy}
    {required : List Module} (hgate : gate sha license root now node required = .granted ent) :
    ∃ signed, license = some signed ∧ Accepted sha signed root now node ent ∧
      ∀ m ∈ required, ent.allows m = true := by
  cases license with
  | none => cases hgate
  | some signed =>
    rw [gate] at hgate
    cases hverified : verifyByPolicy sha signed root now node with
    | error error =>
      rw [hverified] at hgate
      cases hgate
    | ok verified =>
      rw [hverified] at hgate
      dsimp only at hgate
      cases hrequired : verified.requireAll required with
      | error error =>
        rw [hrequired] at hgate
        cases hgate
      | ok done =>
        rw [hrequired] at hgate
        cases hgate
        refine ⟨signed, rfl, ?_, allows_of_requireAll hrequired⟩
        cases node with
        | floating => exact accepted_of_verifyLicense hverified
        | bound machineId => exact accepted_of_verifyLicenseOnNode hverified

/-! ## Genuine licenses -/

/-- A machine with a short name is told by its fingerprint. -/
theorem nodeFingerprint_eq_iff {licensee licenseId machineId' : Str}
    (hmachine : (utf8 machineId).length < 2 ^ 32) (hmachine' : (utf8 machineId').length < 2 ^ 32)
    (hinjective : Set.InjOn sha {fingerprintInput licensee licenseId machineId,
      fingerprintInput licensee licenseId machineId'}) :
    nodeFingerprint sha licensee licenseId machineId =
      nodeFingerprint sha licensee licenseId machineId' ↔ machineId = machineId' := by
  refine ⟨fun hsame ↦ ?_, fun hsame ↦ hsame ▸ rfl⟩
  have hinput := hinjective (Set.mem_insert _ _) (Set.mem_insert_of_mem _ rfl) hsame
  have hput := append_cancel_left (append_cancel_left (append_cancel_left hinput))
  rw [← append_nil (putBytes (utf8 machineId)), ← append_nil (putBytes (utf8 machineId'))]
    at hput
  exact License.utf8_injective (License.putBytes_append_inj hmachine hmachine' hput).1

theorem full_of_sign {leaf : UInt32} {digest : Hash} {sig : MerkleSig}
    (hsign : (MerkleSigner.fromSeed sha seed requested).sign sha leaf digest = some sig) :
    sig.Full := by
  obtain ⟨path, hlength, hgenuine, -⟩ := fromSeed_sign sha seed (eq_of_sign hsign).1 digest
  cases hsign.symm.trans hgenuine
  exact ⟨by rw [MerkleSigner.reveals, length_map, length_range],
    hlength.trans_lt ((effectiveHeight_le requested).trans_lt (by decide))⟩

/-- A license that is issued with a leaf of the tree passes the checks until it expires. -/
theorem issueWithLeaf_verifies {license : License} {leaf : UInt32}
    (hleaf : leaf.toNat < 2 ^ effectiveHeight requested) (hvalid : license.isValidAt now = true) :
    ∃ issued, (Vendor.fromSeed sha seed requested).issueWithLeaf sha license leaf = some issued ∧
      issued.license = license ∧
      verifySignatureAndWindow sha issued (seedEntry sha seed (effectiveHeight requested) 0) now =
        .ok () := by
  obtain ⟨sig, hsign, hverify⟩ : ∃ sig,
      (MerkleSigner.fromSeed sha seed requested).sign sha leaf (license.digest sha) = some sig ∧ _ :=
    verify_sign hleaf (license.digest sha)
  refine ⟨⟨license, sig.toHex⟩, congrArg (Option.map _) hsign, rfl, ?_⟩
  rw [verifySignatureAndWindow, fromHex_toHex (full_of_sign hsign)]
  dsimp only
  rw [hverify, hvalid]
  rfl

theorem requireAll_ok {required : List Module} (hallows : ∀ m ∈ required, ent.allows m = true) :
    ent.requireAll required = .ok () := by
  induction required with
  | nil => rfl
  | cons m required ih =>
    obtain ⟨hfirst, hrest⟩ := forall_mem_cons.mp hallows
    rw [Entitlements.requireAll, Entitlements.require, if_pos hfirst]
    exact ih hrest

theorem verifyByPolicy_ok {node : NodePolicy} (hnode : signed.license.OnNode sha node)
    (hcheck : verifySignatureAndWindow sha signed root now = .ok ()) :
    verifyByPolicy sha signed root now node = .ok (entitlementsOf signed.license) := by
  cases node with
  | floating =>
    obtain hlock | ⟨_, hbound, _⟩ := hnode
    · rw [verifyByPolicy, verifyLicense, hcheck, License.isNodeLocked, hlock]
      rfl
    · cases hbound
  | bound machineId =>
    have hallows : signed.license.allowsNode sha machineId = true := by
      rw [License.allowsNode]
      obtain hlock | ⟨_, hbound, hlock⟩ := hnode
      · rw [hlock]
      · cases hbound
        rw [hlock]
        exact decide_eq_true rfl
    rw [verifyByPolicy, verifyLicenseOnNode, hcheck, Except.bind, hallows]
    rfl

theorem gate_granted {node : NodePolicy} {required : List Module}
    (hnode : signed.license.OnNode sha node)
    (hcheck : verifySignatureAndWindow sha signed root now = .ok ())
    (hrequired : ∀ m ∈ required, m ∈ signed.license.modules) :
    gate sha (some signed) root now node required = .granted (entitlementsOf signed.license) := by
  have hallows : (entitlementsOf signed.license).requireAll required = .ok () :=
    requireAll_ok fun m hm ↦ contains_iff_mem.mpr (hrequired m hm)
  rw [gate, verifyByPolicy_ok hnode hcheck]
  dsimp only
  rw [hallows]

/-- **What the vendor signs is granted.**  Until it expires, a license that was issued with a leaf
of the tree opens the gate for its modules, wherever its node lock lets it run. -/
theorem gate_issued {license : License} {leaf : UInt32} {node : NodePolicy}
    {required : List Module} (hleaf : leaf.toNat < 2 ^ effectiveHeight requested)
    (hvalid : license.isValidAt now = true) (hnode : license.OnNode sha node)
    (hrequired : ∀ m ∈ required, m ∈ license.modules) :
    ∃ issued, (Vendor.fromSeed sha seed requested).issueWithLeaf sha license leaf = some issued ∧
      gate sha (some issued) (seedEntry sha seed (effectiveHeight requested) 0) now node required =
        .granted (entitlementsOf license) := by
  obtain ⟨issued, hissued, rfl, hcheck⟩ := issueWithLeaf_verifies hleaf hvalid
  exact ⟨issued, hissued, gate_granted hnode hcheck hrequired⟩

def blankHash : Hash := List.Vector.replicate 32 0

/-- A license for one module, which is locked to a machine. -/
def lockedLicense : License where
  licensee := []
  licenseId := []
  modules := [.nlp]
  issuedAt := 0
  expiresAt := some 5
  nodeLock := some blankHash

theorem gate_issued_lockedLicense :
    ∃ issued, (Vendor.fromSeed (fun _ ↦ blankHash) blankHash 1).issueWithLeaf (fun _ ↦ blankHash)
        lockedLicense 0 = some issued ∧
      gate (fun _ ↦ blankHash) (some issued)
        (seedEntry (fun _ ↦ blankHash) blankHash (effectiveHeight 1) 0) 5 (.bound "node".toList)
        [.nlp] = .granted (entitlementsOf lockedLicense) :=
  gate_issued (by decide) rfl (.inr ⟨_, rfl, rfl⟩) fun _ hm ↦ hm

/-- **A node lock opens one machine.**  Where the hash tells two machines apart, a license that was
locked to the one and issued is granted on the other if and only if they are the same. -/
theorem gate_nodeLock_iff {license : License} {leaf : UInt32} {machineId' : Str}
    {required : List Module} (hleaf : leaf.toNat < 2 ^ effectiveHeight requested)
    (hvalid : license.isValidAt now = true) (hrequired : ∀ m ∈ required, m ∈ license.modules)
    (hmachine : (utf8 machineId).length < 2 ^ 32) (hmachine' : (utf8 machineId').length < 2 ^ 32)
    (hinjective : Set.InjOn sha {fingerprintInput license.licensee license.licenseId machineId,
      fingerprintInput license.licensee license.licenseId machineId'}) :
    ∃ issued, (Vendor.fromSeed sha seed requested).issueWithLeaf sha
        (license.withNodeLock sha machineId) leaf = some issued ∧
      (gate sha (some issued) (seedEntry sha seed (effectiveHeight requested) 0) now
          (.bound machineId') required = .granted (entitlementsOf license) ↔
        machineId = machineId') := by
  have hlocked : (license.withNodeLock sha machineId).isValidAt now = true := hvalid
  obtain ⟨issued, hissued, hlicense, hcheck⟩ := issueWithLeaf_verifies hleaf hlocked
  refine ⟨issued, hissued, fun hgate ↦ ?_, ?_⟩
  · obtain ⟨_, hsigned, haccepted, -⟩ := accepted_of_gate hgate
    cases hsigned
    have hnode := haccepted.node
    rw [hlicense] at hnode
    obtain hnone | ⟨_, hbound, hlock⟩ := hnode
    · cases hnone
    · cases hbound
      exact (nodeFingerprint_eq_iff hmachine hmachine' hinjective).mp (Option.some.inj hlock)
  · rintro rfl
    have hnode : issued.license.OnNode sha (.bound machineId) := by
      rw [hlicense]
      exact .inr ⟨machineId, rfl, rfl⟩
    have hmodules : ∀ m ∈ required, m ∈ issued.license.modules := by
      rw [hlicense]
      exact hrequired
    rw [gate_granted hnode hcheck hmodules, hlicense]
    rfl

/-- A digest of the last byte. -/
def lastByte (bytes : Bytes) : Hash := List.Vector.replicate 32 (bytes.getLastD 0)

theorem lastByte_injOn : Set.InjOn lastByte
    {fingerprintInput [] [] "a".toList, fingerprintInput [] [] "b".toList} := by
  rintro _ (rfl | rfl) _ (rfl | rfl) hsame
  · rfl
  · exact absurd hsame (by decide +kernel)
  · exact absurd hsame (by decide +kernel)
  · rfl

theorem gate_nodeLock_iff_lockedLicense :
    ∃ issued, (Vendor.fromSeed lastByte blankHash 1).issueWithLeaf lastByte
        (lockedLicense.withNodeLock lastByte "a".toList) 0 = some issued ∧
      (gate lastByte (some issued) (seedEntry lastByte blankHash (effectiveHeight 1) 0) 5
          (.bound "b".toList) [.nlp] = .granted (entitlementsOf lockedLicense) ↔
        "a".toList = "b".toList) :=
  gate_nodeLock_iff (by decide) rfl (fun _ hm ↦ hm) (by decide) (by decide) lastByte_injOn

/-! ## What the vendor issued -/

/-- The licenses that a vendor signed, each with its own leaf. -/
structure Issuance where
  issued : Set (License × UInt32)
  ownLeaf : ∀ entry ∈ issued, ∀ entry' ∈ issued, entry.2 = entry'.2 → entry.1 = entry'.1
  short : ∀ entry ∈ issued, entry.1.Short

/-- A hash is part of a signature of the vendor. -/
def Issuance.Revealed (issuance : Issuance) (sha : Bytes → Hash) (seed : Hash) (requested : ℕ)
    (x : Hash) : Prop :=
  ∃ entry ∈ issuance.issued, ∃ signed, (MerkleSigner.fromSeed sha seed requested).sign sha entry.2
    (entry.1.digest sha) = some signed ∧ x ∈ signed.values

/-- The presented license has short strings, there is no collision among the strings that are hashed
for it, for the tree and for what was issued, and its signature has only those secrets that the
vendor revealed. -/
structure Presented (sha : Bytes → Hash) (seed : Hash) (requested : ℕ) (issuance : Issuance)
    (signed : SignedLicense) (sig : MerkleSig) : Prop where
  short : signed.license.Short
  injective : Set.InjOn sha
    ({input | ∃ entry ∈ issuance.issued, input = entry.1.canonicalBytes} ∪
      ({signed.license.canonicalBytes} ∪
        hashed sha seed (effectiveHeight requested) (signed.license.digest sha) sig))
  revealed : ∀ k < 2 ^ effectiveHeight requested, ∀ i < msgBits, ∀ b,
    deriveSecret sha seed (UInt32.ofNat k) i b ∈ sig.values →
      issuance.Revealed sha seed requested (deriveSecret sha seed (UInt32.ofNat k) i b)

variable {issuance : Issuance} {sig : MerkleSig}

/-- A bit of the digest is the bit of a license that was issued with the leaf of the signature. -/
theorem issued_of_bit (hpresented : Presented sha seed requested issuance signed sig)
    (hverify : verify sha (seedEntry sha seed (effectiveHeight requested) 0)
      (signed.license.digest sha) sig = true) {i : ℕ} (hi : i < msgBits) :
    ∃ entry ∈ issuance.issued, entry.2 = signedLeaf (effectiveHeight requested) sig ∧
      digestBit (signed.license.digest sha) i = digestBit (entry.1.digest sha) i := by
  have hinjective : Set.InjOn sha
      (hashed sha seed (effectiveHeight requested) (signed.license.digest sha) sig) :=
    hpresented.injective.mono (Set.subset_union_right.trans Set.subset_union_right)
  have hk : sig.leaf.toNat % 2 ^ effectiveHeight requested < 2 ^ effectiveHeight requested :=
    Nat.mod_lt _ (Nat.two_pow_pos _)
  have hreveal := mem_of_getElem? (reveals_of_verify hinjective hverify hi)
  have hvalue : deriveSecret sha seed (signedLeaf (effectiveHeight requested) sig) i
      (digestBit (signed.license.digest sha) i) ∈ sig.values :=
    mem_append_left _ (mem_append_left _ (mem_map_of_mem hreveal))
  obtain ⟨entry, hentry, genuine, hsign, hmem⟩ := hpresented.revealed _ hk i hi _ hvalue
  obtain ⟨hleaf, hbit⟩ := eq_of_mem_values hinjective hsign hi hk hmem
  exact ⟨entry, hentry, hleaf.symm, hbit⟩

/-- **A signature that verifies is for a license that was issued.** -/
theorem issued_of_verify (hpresented : Presented sha seed requested issuance signed sig)
    (hverify : verify sha (seedEntry sha seed (effectiveHeight requested) 0)
      (signed.license.digest sha) sig = true) :
    ∃ entry ∈ issuance.issued, signed.license.SameTerms entry.1 := by
  obtain ⟨entry, hentry, hleaf, -⟩ := issued_of_bit hpresented hverify (Nat.two_pow_pos 8)
  have hdigest : signed.license.digest sha = entry.1.digest sha := by
    refine eq_of_digestBit fun i hi ↦ ?_
    obtain ⟨other, hother, hotherLeaf, hbit⟩ := issued_of_bit hpresented hverify hi
    rw [hbit, issuance.ownLeaf other hother entry hentry (hotherLeaf.trans hleaf.symm)]
  have hbytes : signed.license.canonicalBytes = entry.1.canonicalBytes :=
    hpresented.injective (Or.inr (Or.inl rfl)) (Or.inl ⟨entry, hentry, rfl⟩) hdigest
  exact ⟨entry, hentry,
    (License.canonicalBytes_eq_iff hpresented.short (issuance.short entry hentry)).mp hbytes⟩

/-! ## What is granted -/

/-- The entitlements are those of a license that the vendor issued, that is not expired and that is
locked to no machine or to the presented one. -/
def Issuance.Grants (issuance : Issuance) (sha : Bytes → Hash) (license : License) (now : UInt64)
    (node : NodePolicy) (ent : Entitlements) : Prop :=
  ∃ entry ∈ issuance.issued, license.SameTerms entry.1 ∧ entry.1.isValidAt now = true ∧
    entry.1.OnNode sha node ∧ ∀ m, ent.allows m = true ↔ m ∈ entry.1.modules

theorem License.SameTerms.isValidAt {a b : License} (hsame : a.SameTerms b) (now : UInt64) :
    a.isValidAt now = b.isValidAt now := by
  rw [License.isValidAt, License.isValidAt, hsame.expiresAt]

theorem License.SameTerms.onNode {a b : License} (hsame : a.SameTerms b) {node : NodePolicy}
    (ha : a.OnNode sha node) : b.OnNode sha node := by
  rwa [License.OnNode, hsame.nodeLock, hsame.licensee, hsame.licenseId] at ha

theorem allows_entitlementsOf {license : License} {m : Module} :
    (entitlementsOf license).allows m = true ↔ m ∈ license.modules :=
  contains_iff_mem

theorem grants_of_accepted {node : NodePolicy}
    (hpresented : ∀ sig, MerkleSig.fromHex signed.signature = some sig →
      Presented sha seed requested issuance signed sig)
    (haccepted : Accepted sha signed (seedEntry sha seed (effectiveHeight requested) 0) now node ent) :
    issuance.Grants sha signed.license now node ent := by
  obtain ⟨sig, hhex, hverify⟩ := haccepted.signature
  obtain ⟨entry, hentry, hsame⟩ := issued_of_verify (hpresented sig hhex) hverify
  refine ⟨entry, hentry, hsame, hsame.isValidAt now ▸ haccepted.valid,
    hsame.onNode haccepted.node, fun m ↦ ?_⟩
  rw [haccepted.entitlements, allows_entitlementsOf]
  exact hsame.modules m

/-- **No license grants more than the vendor signed.**  The encoding tells licenses with short
strings apart by their terms, and whatever is accepted agrees with a license that was issued. -/
theorem grants_at_most_issued (sha : Bytes → Hash) (seed : Hash) (requested : ℕ) :
    (∀ a b : License, a.Short → b.Short →
      (a.canonicalBytes = b.canonicalBytes ↔ a.SameTerms b)) ∧
    ∃ root, (Vendor.fromSeed sha seed requested).root = some root ∧
      ∀ (issuance : Issuance) (signed : SignedLicense),
        (∀ sig, MerkleSig.fromHex signed.signature = some sig →
          Presented sha seed requested issuance signed sig) →
        ∀ now ent,
          (verifyLicense sha signed root now = .ok ent →
            issuance.Grants sha signed.license now .floating ent) ∧
          (∀ machineId, verifyLicenseOnNode sha signed root now machineId = .ok ent →
            issuance.Grants sha signed.license now (.bound machineId) ent) ∧
          ∀ node required, gate sha (some signed) root now node required = .granted ent →
            issuance.Grants sha signed.license now node ent ∧
              ∀ m ∈ required, ent.allows m = true := by
  refine ⟨fun a b ha hb ↦ License.canonicalBytes_eq_iff ha hb, _, fromSeed_root seed requested,
    fun issuance signed hpresented now ent ↦ ⟨fun hok ↦ ?_, fun machineId hok ↦ ?_,
      fun node required hgate ↦ ?_⟩⟩
  · exact grants_of_accepted hpresented (accepted_of_verifyLicense hok)
  · exact grants_of_accepted hpresented (accepted_of_verifyLicenseOnNode hok)
  · obtain ⟨_, hsigned, haccepted, hrequired⟩ := accepted_of_gate hgate
    cases hsigned
    exact ⟨grants_of_accepted hpresented haccepted, hrequired⟩

end SoulSystem.Licensing
