import SoulSystem.Licensing.HashSig

/-!
# Licenses and their canonical encoding

The encoding frames the strings with their lengths and sorts the codes of the modules, so two
licenses with strings shorter than `2 ^ 32` have one encoding exactly when they agree on all terms.
-/

namespace SoulSystem.Licensing

open Library ByteCursor Str List

/-! ## Modules -/

inductive Module where
  | core
  | tensorNetwork
  | nlp
  | vision
  | audio
  | graph
  | autoMl
  | reasoning
  | reinforcementLearning
  | evolution
  | edge
  | events
  | retrieval
  | gpu
  | estimation
  | navigation
  | water
  | control
  | battery
  | grid
  | structuralHealth
  | hvac
  | robotics
  | metrology
  | signal
  | predictiveMaintenance
  | reliability
  | functionalSafety
  | otSecurity
  | mlOps
  | biomed
  | trading
  | spc
  | industrial
  deriving DecidableEq

def Module.code : Module → ℕ
  | .core => 1
  | .tensorNetwork => 2
  | .nlp => 3
  | .vision => 4
  | .audio => 5
  | .graph => 6
  | .autoMl => 7
  | .reasoning => 8
  | .reinforcementLearning => 9
  | .evolution => 10
  | .edge => 11
  | .events => 12
  | .retrieval => 13
  | .gpu => 14
  | .estimation => 50
  | .navigation => 51
  | .water => 52
  | .control => 53
  | .battery => 54
  | .grid => 55
  | .structuralHealth => 56
  | .hvac => 57
  | .robotics => 58
  | .metrology => 59
  | .signal => 60
  | .predictiveMaintenance => 61
  | .reliability => 62
  | .functionalSafety => 63
  | .otSecurity => 64
  | .mlOps => 65
  | .biomed => 66
  | .trading => 67
  | .spc => 68
  | .industrial => 69

theorem Module.code_injective : Function.Injective Module.code := by
  intro a b hcode
  cases a <;> cases b <;> first | rfl | exact absurd hcode (by decide)

theorem Module.code_lt (m : Module) : m.code < 70 := by
  cases m <;> decide

/-! ## Sorted codes -/

/-- `dedup`, which drops repetitions that follow each other. -/
def dedup : List ℕ → List ℕ
  | a :: b :: rest => if a = b then dedup (b :: rest) else a :: dedup (b :: rest)
  | codes => codes

/-- The codes in ascending order, each of them once. -/
def sortedCodes (modules : List Module) : List ℕ :=
  dedup ((modules.map Module.code).mergeSort fun a b ↦ decide (a ≤ b))

theorem mem_dedup {n : ℕ} (codes : List ℕ) : n ∈ dedup codes ↔ n ∈ codes := by
  fun_induction dedup codes with
  | case1 a rest ih =>
    have hmem : n ∈ a :: a :: rest ↔ n ∈ a :: rest := by
      rw [mem_cons, or_iff_right_iff_imp]
      exact fun hn ↦ hn ▸ mem_cons_self
    rw [ih, hmem]
  | case2 a b rest hne ih => rw [mem_cons, ih, ← mem_cons]
  | case3 codes => rfl

theorem dedup_ascending {codes : List ℕ} (hsorted : codes.Pairwise (· ≤ ·)) :
    (dedup codes).Pairwise (· < ·) := by
  fun_induction dedup codes with
  | case1 a rest ih => exact ih (List.pairwise_cons.mp hsorted).2
  | case2 a b rest hne ih =>
    obtain ⟨hle, htail⟩ := List.pairwise_cons.mp hsorted
    refine List.pairwise_cons.mpr ⟨fun n hn ↦ ?_, ih htail⟩
    have hfirst : a < b := lt_of_le_of_ne (hle b mem_cons_self) hne
    cases List.mem_cons.mp ((mem_dedup _).mp hn) with
    | inl hhead => exact hhead ▸ hfirst
    | inr hmem => exact hfirst.trans_le ((List.pairwise_cons.mp htail).1 n hmem)
  | case3 codes hshort =>
    cases codes with
    | nil => exact List.Pairwise.nil
    | cons a codes =>
      cases codes with
      | nil => exact pairwise_singleton _ a
      | cons b rest => exact absurd rfl (hshort a b rest)

theorem mem_sortedCodes {n : ℕ} {modules : List Module} :
    n ∈ sortedCodes modules ↔ ∃ m ∈ modules, m.code = n := by
  rw [sortedCodes, mem_dedup, mem_mergeSort, mem_map]

theorem sortedCodes_ascending (modules : List Module) : (sortedCodes modules).Pairwise (· < ·) := by
  refine dedup_ascending ?_
  have htrans : ∀ a b c : ℕ, decide (a ≤ b) = true → decide (b ≤ c) = true →
      decide (a ≤ c) = true := fun a b c hab hbc ↦
    decide_eq_true ((of_decide_eq_true hab).trans (of_decide_eq_true hbc))
  have htotal : ∀ a b : ℕ, (decide (a ≤ b) || decide (b ≤ a)) = true := fun a b ↦ by
    simpa using le_total a b
  exact (pairwise_mergeSort htrans htotal (modules.map Module.code)).imp of_decide_eq_true

/-- The sorted codes are the set of the modules. -/
theorem sortedCodes_eq_iff {modules modules' : List Module} :
    sortedCodes modules = sortedCodes modules' ↔ ∀ m, m ∈ modules ↔ m ∈ modules' := by
  have hmem : ∀ modules : List Module, ∀ m, m ∈ modules ↔ m.code ∈ sortedCodes modules := by
    intro modules m
    rw [mem_sortedCodes]
    exact ⟨fun hm ↦ ⟨m, hm, rfl⟩, fun ⟨m', hm', hcode⟩ ↦ Module.code_injective hcode ▸ hm'⟩
  constructor
  · intro hsame m
    rw [hmem modules, hmem modules', hsame]
  · intro hsame
    have hcodes : ∀ n, n ∈ sortedCodes modules ↔ n ∈ sortedCodes modules' := by
      intro n
      rw [mem_sortedCodes, mem_sortedCodes]
      exact exists_congr fun m ↦ and_congr_left' (hsame m)
    have hnodup : ∀ modules, (sortedCodes modules).Nodup := fun modules ↦
      (sortedCodes_ascending modules).imp Nat.ne_of_lt
    have hperm : (sortedCodes modules).Perm (sortedCodes modules') :=
      (perm_ext_iff_of_nodup (hnodup modules) (hnodup modules')).mpr hcodes
    exact hperm.eq_of_pairwise (fun _ _ _ _ hlt hgt ↦ absurd hlt hgt.asymm)
      (sortedCodes_ascending modules) (sortedCodes_ascending modules')

theorem length_sortedCodes_le (modules : List Module) : (sortedCodes modules).length ≤ 70 := by
  have hnodup : (sortedCodes modules).Nodup := (sortedCodes_ascending modules).imp Nat.ne_of_lt
  have hsubset : (sortedCodes modules).toFinset ⊆ Finset.range 70 := by
    intro n hn
    obtain ⟨m, -, hcode⟩ := mem_sortedCodes.mp (List.mem_toFinset.mp hn)
    exact Finset.mem_range.mpr (hcode ▸ m.code_lt)
  rw [← toFinset_card_of_nodup hnodup]
  exact (Finset.card_le_card hsubset).trans_eq (Finset.card_range 70)

/-! ## Licenses -/

structure License where
  licensee : Str
  licenseId : Str
  modules : List Module
  issuedAt : UInt64
  expiresAt : Option UInt64
  nodeLock : Option Hash

namespace License

def expiryBytes : Option UInt64 → Bytes
  | some t => 1 :: leBytes 8 t.toNat
  | none => [0]

def lockBytes : Option Hash → Bytes
  | some fp => 1 :: fp.toList
  | none => [0]

def codesBytes (codes : List ℕ) : Bytes := leBytes 4 codes.length ++ codes.flatMap (leBytes 2)

/-- The canonical encoding. -/
def canonicalBytes (license : License) : Bytes :=
  utf8 "SRL2".toList ++ (putBytes (utf8 license.licensee) ++ (putBytes (utf8 license.licenseId) ++
    (leBytes 8 license.issuedAt.toNat ++ (expiryBytes license.expiresAt ++
      (codesBytes (sortedCodes license.modules) ++ lockBytes license.nodeLock)))))

/-- The strings are shorter than `2 ^ 32` bytes. -/
def Short (license : License) : Prop :=
  (utf8 license.licensee).length < 2 ^ 32 ∧ (utf8 license.licenseId).length < 2 ^ 32

/-- The licenses agree on all terms, the modules as a set. -/
structure SameTerms (a b : License) : Prop where
  licensee : a.licensee = b.licensee
  licenseId : a.licenseId = b.licenseId
  issuedAt : a.issuedAt = b.issuedAt
  expiresAt : a.expiresAt = b.expiresAt
  modules : ∀ m, m ∈ a.modules ↔ m ∈ b.modules
  nodeLock : a.nodeLock = b.nodeLock

/-! ## The encoding is injective -/

theorem putBytes_append_inj {content content' rest rest' : Bytes} (hcontent : content.length < 2 ^ 32)
    (hcontent' : content'.length < 2 ^ 32)
    (heq : putBytes content ++ rest = putBytes content' ++ rest') :
    content = content' ∧ rest = rest' := by
  rw [putBytes, putBytes, append_assoc, append_assoc] at heq
  obtain ⟨hlength, hrest⟩ := leBytes_append_inj hcontent hcontent' heq
  exact append_inj hrest hlength

theorem utf8_injective : Function.Injective utf8 := by
  intro s s' heq
  have hback := congrArg fromUtf8 heq
  rw [fromUtf8_utf8, fromUtf8_utf8] at hback
  exact Option.some.inj hback

theorem expiryBytes_append_inj {expiry expiry' : Option UInt64} {rest rest' : Bytes}
    (heq : expiryBytes expiry ++ rest = expiryBytes expiry' ++ rest') :
    expiry = expiry' ∧ rest = rest' := by
  cases expiry with
  | none =>
    cases expiry' with
    | none => exact ⟨rfl, (List.cons.inj heq).2⟩
    | some t' => exact absurd (List.cons.inj heq).1 (by decide)
  | some t =>
    cases expiry' with
    | none => exact absurd (List.cons.inj heq).1 (by decide)
    | some t' =>
      obtain ⟨htime, hrest⟩ := leBytes_append_inj t.toNat_lt t'.toNat_lt (List.cons.inj heq).2
      exact ⟨congrArg some (UInt64.toNat_inj.mp htime), hrest⟩

theorem lockBytes_inj {lock lock' : Option Hash} (heq : lockBytes lock = lockBytes lock') :
    lock = lock' := by
  cases lock with
  | none =>
    cases lock' with
    | none => rfl
    | some fp' => exact absurd (List.cons.inj heq).1 (by decide)
  | some fp =>
    cases lock' with
    | none => exact absurd (List.cons.inj heq).1 (by decide)
    | some fp' =>
      exact congrArg some (List.Vector.toList_injective (List.cons.inj heq).2)

theorem codesBytes_append_inj {codes codes' : List ℕ} {rest rest' : Bytes}
    (hcodes : ∀ n ∈ codes, n < 256 ^ 2) (hcodes' : ∀ n ∈ codes', n < 256 ^ 2)
    (hlength : codes.length < 256 ^ 4) (hlength' : codes'.length < 256 ^ 4)
    (heq : codesBytes codes ++ rest = codesBytes codes' ++ rest') : codes = codes' ∧ rest = rest' := by
  rw [codesBytes, codesBytes, append_assoc, append_assoc] at heq
  obtain ⟨hsame, hflat⟩ := leBytes_append_inj hlength hlength' heq
  clear heq hlength hlength'
  induction codes generalizing codes' with
  | nil =>
    cases codes' with
    | nil => exact ⟨rfl, hflat⟩
    | cons n' codes' => cases hsame
  | cons n codes ih =>
    cases codes' with
    | nil => cases hsame
    | cons n' codes' =>
      rw [flatMap_cons, flatMap_cons, append_assoc, append_assoc] at hflat
      obtain ⟨hhead, htail⟩ := leBytes_append_inj (hcodes n mem_cons_self)
        (hcodes' n' mem_cons_self) hflat
      obtain ⟨hrest, hlast⟩ := ih (fun m hm ↦ hcodes m (mem_cons_of_mem n hm))
        (fun m hm ↦ hcodes' m (mem_cons_of_mem n' hm)) (Nat.succ_injective hsame) htail
      exact ⟨by rw [hhead, hrest], hlast⟩

theorem lt_of_mem_sortedCodes {modules : List Module} : ∀ n ∈ sortedCodes modules, n < 256 ^ 2 := by
  intro n hn
  obtain ⟨m, -, hcode⟩ := mem_sortedCodes.mp hn
  exact hcode ▸ m.code_lt.trans (by decide)

theorem length_sortedCodes_lt (modules : List Module) :
    (sortedCodes modules).length < 256 ^ 4 :=
  (length_sortedCodes_le modules).trans_lt (by decide)

/-- **Two licenses with short strings have one encoding exactly when they agree on all terms.** -/
theorem canonicalBytes_eq_iff {a b : License} (ha : a.Short) (hb : b.Short) :
    a.canonicalBytes = b.canonicalBytes ↔ a.SameTerms b := by
  constructor
  · intro heq
    obtain ⟨hlicensee, heq⟩ := putBytes_append_inj ha.1 hb.1 (append_cancel_left heq)
    obtain ⟨hlicenseId, heq⟩ := putBytes_append_inj ha.2 hb.2 heq
    obtain ⟨hissuedAt, heq⟩ := leBytes_append_inj a.issuedAt.toNat_lt b.issuedAt.toNat_lt heq
    obtain ⟨hexpiresAt, heq⟩ := expiryBytes_append_inj heq
    obtain ⟨hcodes, heq⟩ := codesBytes_append_inj lt_of_mem_sortedCodes lt_of_mem_sortedCodes
      (length_sortedCodes_lt a.modules) (length_sortedCodes_lt b.modules) heq
    exact {
      licensee := utf8_injective hlicensee
      licenseId := utf8_injective hlicenseId
      issuedAt := UInt64.toNat_inj.mp hissuedAt
      expiresAt := hexpiresAt
      modules := sortedCodes_eq_iff.mp hcodes
      nodeLock := lockBytes_inj heq }
  · intro hsame
    rw [canonicalBytes, canonicalBytes, hsame.licensee, hsame.licenseId, hsame.issuedAt,
      hsame.expiresAt, sortedCodes_eq_iff.mpr hsame.modules, hsame.nodeLock]

end License

end SoulSystem.Licensing
