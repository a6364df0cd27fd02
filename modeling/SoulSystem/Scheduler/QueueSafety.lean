import SoulSystem.Scheduler.QueueSteps

/-!
# Every step keeps the invariant of the task deque

One lemma for each kind of step: those that only read, the two steps of a stealer that change the
deque, and those of a push and of a pop.
-/

namespace SoulSystem.Scheduler

open Library Function SoulSystem.Scheduler.LockFreeTaskDeque SoulSystem.Scheduler.Pc

variable {ι τ : Type}

/-! ## One thread moves -/

/-- Whether a thief reads the slot that it has won. -/
def Pc.isTake : Pc τ → Bool
  | .stealTake _ _ => true
  | _ => false

theorem Pc.ne_stealTake {pc : Pc τ} (hpc : pc.isTake = false) (h : ℕ) (found : Option τ) :
    pc ≠ .stealTake h found := by
  intro htake
  rw [htake] at hpc
  cases hpc

section Update

variable {pc : ι → Pc τ} {own new : Pc τ} {i : ι}

theorem Owned.own_eq (howned : Owned pc own) (hbusy : (pc i).Busy) : own = pc i := by
  rcases howned with ⟨-, hfree⟩ | ⟨j, hj, -, honly⟩
  · exact absurd hbusy (hfree i)
  · rw [honly i hbusy, hj]

theorem Owned.eq_of_busy (howned : Owned pc own) (hbusy : (pc i).Busy) {j : ι}
    (hother : (pc j).Busy) : j = i := by
  rcases howned with ⟨-, hfree⟩ | ⟨k, -, -, honly⟩
  · exact absurd hbusy (hfree i)
  · rw [honly i hbusy, honly j hother]

variable [DecidableEq ι]

theorem forall_update {P : Pc τ → Prop} (hnew : P new) (hrest : ∀ j, j ≠ i → P (pc j)) (j : ι) :
    P (update pc i new j) :=
  (forall_update_iff pc fun _ pc ↦ P pc).mpr ⟨hnew, hrest⟩ j

theorem Owned.update_free (howned : Owned pc own) (hold : ¬ (pc i).Busy) (hnew : ¬ new.Busy) :
    Owned (update pc i new) own := by
  have hbusy : ∀ j, (update pc i new j).Busy ↔ (pc j).Busy := by
    intro j
    by_cases hsame : j = i
    · rw [hsame, update_self]
      exact iff_of_false hnew hold
    · rw [update_of_ne hsame]
  rcases howned with ⟨hown, hfree⟩ | ⟨j, hj, hown, honly⟩
  · exact Or.inl ⟨hown, fun j ↦ mt (hbusy j).mp (hfree j)⟩
  · have hne : j ≠ i := by
      rintro rfl
      exact hold (hj ▸ hown)
    exact Or.inr ⟨j, by rw [update_of_ne hne, hj], hown, fun k hk ↦
      honly k ((hbusy k).mp hk)⟩

theorem Owned.update_busy (hothers : ∀ j, (pc j).Busy → j = i) (hnew : new.Busy) :
    Owned (update pc i new) new := by
  refine Or.inr ⟨i, update_self .., hnew, fun j hj ↦ ?_⟩
  by_contra hne
  rw [update_of_ne hne] at hj
  exact hne (hothers j hj)

theorem Owned.update_done (hothers : ∀ j, (pc j).Busy → j = i) (hnew : ¬ new.Busy) :
    Owned (update pc i new) .idle := by
  refine Or.inl ⟨rfl, fun j hj ↦ ?_⟩
  by_cases hsame : j = i
  · rw [hsame, update_self] at hj
    exact hnew hj
  · rw [update_of_ne hsame] at hj
    exact hsame (hothers j hj)

/-- A stealer that holds an index after a step of another thread held it before. -/
theorem take_of_update (hnew : ∀ h found, new ≠ .stealTake h found) {j : ι} {h : ℕ}
    {found : Option τ} (htake : update pc i new j = .stealTake h found) :
    pc j = .stealTake h found := by
  by_cases hsame : j = i
  · rw [hsame, update_self] at htake
    exact absurd htake (hnew h found)
  · rwa [update_of_ne hsame] at htake

theorem update_of_take (hold : ∀ h found, pc i ≠ .stealTake h found) {j : ι} {h : ℕ}
    {found : Option τ} (htake : pc j = .stealTake h found) :
    update pc i new j = .stealTake h found := by
  have hne : j ≠ i := by
    rintro rfl
    exact hold h found htake
  rwa [update_of_ne hne]

end Update

/-- Some slot is full. -/
def LockFreeTaskDeque.Nonempty (d : LockFreeTaskDeque τ) : Prop :=
  ∃ place task, d.buffer place = some task

/-- What a thread that is not changing the tail knows stays true when head moves on, the bound does
not fall back to head, and the slots that stealers have won are left alone. -/
theorem Pc.Knows.frame {pc own own' : Pc τ} {d d' : LockFreeTaskDeque τ} (hknows : pc.Knows own d)
    (hfree : ¬ pc.Busy) (hhead : d.head ≤ d'.head)
    (hbound : d'.head = d.head → d.head < own.bound d.tail → d.head < own'.bound d'.tail)
    (htake : ∀ h found, pc = .stealTake h found → d.buffer (slot h) = found →
      d'.buffer (slot h) = found ∧ (found ≠ none → h < d.head → own.extent d.tail ≤ h + 4096 →
        own'.extent d'.tail ≤ h + 4096)) : pc.Knows own' d' := by
  cases pc with
  | pushWrite task t h => exact ⟨hknows.1.trans hhead, hknows.2⟩
  | stealTail h => exact le_trans hknows hhead
  | stealExchange h =>
    refine ⟨hknows.1.trans hhead, hknows.2.1, fun heq ↦ ?_⟩
    have hsame : d'.head = d.head := le_antisymm (heq ▸ hknows.1) hhead
    have hless := hknows.2.2 (heq.trans hsame)
    rw [heq, hsame] at hless ⊢
    exact hbound hsame hless
  | stealTake h found =>
    obtain ⟨hslot, hwon⟩ := hknows
    obtain ⟨hslot', hextent⟩ := htake h found rfl hslot
    exact ⟨hslot', fun hsome ↦ ⟨(hwon hsome).1.trans_le hhead,
      hextent hsome (hwon hsome).1 (hwon hsome).2⟩⟩
  | popStore t => exact hknows
  | pushStore => exact absurd trivial hfree
  | popHead => exact absurd trivial hfree
  | popTake => exact absurd trivial hfree
  | popExchange => exact absurd trivial hfree
  | popRestore => exact absurd trivial hfree
  | idle => trivial
  | pushBegin => trivial
  | pushHead => trivial
  | popBegin => trivial
  | stealBegin => trivial

theorem Pc.bound_le_extent (own : Pc τ) {d : LockFreeTaskDeque τ} (hknows : own.Knows own d) :
    own.bound d.tail ≤ own.extent d.tail := by
  cases own with
  | pushStore task t =>
    have htail : d.tail = t := hknows.1
    simp only [bound, extent, htail]
    omega
  | popTake t h =>
    simp only [bound, extent]
    split <;> omega
  | _ => exact le_refl _

namespace DequeState

variable {s : DequeState ι τ} {own : Pc τ} {i : ι}

theorem Inv.knows_own (hinv : s.Inv own) : own.Knows own s.deque := by
  rcases hinv.owner with ⟨rfl, -⟩ | ⟨j, hj, -⟩
  · trivial
  · have hknows := hinv.knows j
    rwa [hj] at hknows

/-- A full slot is not that of an index outside the claimed window which no stealer has won. -/
theorem Inv.empty_of_untouched (hinv : s.Inv own) {t : ℕ} (huntouched : s.Untouched t)
    (hlow : own.extent s.deque.tail ≤ t) (hhigh : t < s.deque.head + 4096) :
    s.deque.buffer (slot t) = none := by
  cases hcontent : s.deque.buffer (slot t) with
  | none => rfl
  | some task =>
    rcases (hinv.placed _ task hcontent).2 with ⟨index, hfrom, hto, hslot⟩ | ⟨j, h, htake, hslot⟩
    · exact absurd hslot (slot_ne hfrom (by omega) (by omega) hhigh (by omega))
    · exact absurd hslot (huntouched.slot_ne htake)

variable [DecidableEq ι]

/-! ## Steps that only read -/

theorem Inv.silent (hinv : s.Inv own) {new : Pc τ} (hold : ¬ (s.pc i).Busy) (hnew : ¬ new.Busy)
    (hnotOld : ∀ h found, s.pc i ≠ .stealTake h found) (hnotNew : ∀ h found, new ≠ .stealTake h found)
    (hknows : new.Knows own s.deque) : (s.moveTo i s.deque new).Inv own where
  head_lt := hinv.head_lt
  tail_lt := hinv.tail_lt
  head_le := hinv.head_le
  owner := hinv.owner.update_free hold hnew
  knows := forall_update (P := fun pc ↦ pc.Knows own s.deque) hknows fun j _ ↦ hinv.knows j
  placed := by
    intro place task hfull
    obtain ⟨hplace, hindex | ⟨j, h, htake, hslot⟩⟩ := hinv.placed place task hfull
    · exact ⟨hplace, Or.inl hindex⟩
    · exact ⟨hplace, Or.inr ⟨j, h, update_of_take hnotOld htake, hslot⟩⟩
  fits := hinv.fits
  apart := fun j k h h' task hj hk ↦
    hinv.apart j k h h' task (take_of_update hnotNew hj) (take_of_update hnotNew hk)
  balance := hinv.balance

/-! ## The steps of a stealer -/

theorem Inv.stealExchange (hinv : s.Inv own) {h : ℕ} (hpc : s.pc i = .stealExchange h)
    (hhead : s.deque.head = h) (hrace : ∀ j, (s.pc j).heldIndex ≠ some h) :
    (s.moveTo i (s.deque.setHead (wrappingAdd h 1))
      (.stealTake h (s.deque.buffer (slot h)))).Inv own := by
  have hknows := hinv.knows i
  rw [hpc] at hknows
  obtain ⟨-, hlast, hbound⟩ := hknows
  have hless : s.deque.head < own.bound s.deque.tail := hhead ▸ hbound hhead.symm
  have hmore : wrappingAdd h 1 = s.deque.head + 1 := by
    rw [wrappingAdd, hhead]
    omega
  have hold : ¬ (s.pc i).Busy := by
    rw [hpc]
    exact id
  have hnotOld : ∀ k found, s.pc i ≠ .stealTake k found := ne_stealTake (hpc ▸ rfl)
  have hextent : s.deque.head < own.extent s.deque.tail :=
    hless.trans_le (own.bound_le_extent hinv.knows_own)
  have hfresh : ∀ j k task, s.pc j = .stealTake k (some task) → slot k ≠ slot s.deque.head := by
    intro j k task htake
    have hother := hinv.knows j
    rw [htake] at hother
    obtain ⟨-, hwon⟩ := hother
    obtain ⟨hbelow, hwindow⟩ := hwon (Option.some_ne_none task)
    exact slot_ne (le_refl k) hbelow.le (by omega) (by omega) hbelow.ne
  rw [hmore]
  exact {
    head_lt := by
      rw [moveTo_deque, setHead_head]
      omega
    tail_lt := hinv.tail_lt
    head_le := hless
    owner := hinv.owner.update_free hold id
    knows := by
      refine forall_update
        (P := fun pc ↦ pc.Knows own (s.deque.setHead (s.deque.head + 1))) ?_ fun j hne ↦ ?_
      · refine ⟨rfl, fun hsome ↦ ?_⟩
        obtain ⟨task, htask⟩ := Option.ne_none_iff_exists'.mp hsome
        have hfits := hinv.fits _ task htask
        rw [← hhead]
        exact ⟨Nat.lt_succ_self _, hfits⟩
      · have hothers := hinv.knows j
        by_cases hbusy : (s.pc j).Busy
        · have hown := hinv.owner.own_eq hbusy
          cases hother : s.pc j with
          | pushStore task t =>
            rw [hother] at hothers
            refine ⟨hothers.1, hothers.2.1, hothers.2.2.1, ?_⟩
            rw [setHead_head]
            exact hothers.2.2.2.trans (by omega)
          | popHead t =>
            rw [hother] at hothers
            exact hothers
          | popTake t k =>
            rw [hother] at hothers
            exact ⟨hothers.1, hothers.2.1.trans (Nat.le_succ _), hothers.2.2⟩
          | popExchange t content =>
            rw [hother] at hothers hown
            obtain ⟨htail, hfrom, hholds, hempty⟩ := hothers
            refine ⟨htail, hfrom.trans (Nat.le_succ _), fun hsome ↦ ?_, hempty⟩
            obtain ⟨task, rfl⟩ := Option.ne_none_iff_exists'.mp hsome
            have hat : t = h := by rw [← hholds hsome, hhead]
            exfalso
            apply hrace j
            rw [hother, Pc.heldIndex, hat]
          | popRestore t content =>
            rw [hother] at hothers hown
            rw [hown, Pc.bound, hothers.2] at hless
            exact absurd hless (lt_irrefl _)
          | _ =>
            rw [hother] at hbusy
            exact absurd hbusy id
        · refine hothers.frame hbusy (Nat.le_succ _) (fun hsame ↦ ?_) fun k found _ hslot ↦
            ⟨hslot, fun _ _ hwindow ↦ hwindow⟩
          rw [setHead_head] at hsame
          omega
    placed := by
      intro place task hfull
      obtain ⟨hplace, ⟨index, hfrom, hto, hslot⟩ | ⟨j, k, htake, hslot⟩⟩ := hinv.placed place task hfull
      · by_cases hat : index = h
        · refine ⟨hplace, Or.inr ⟨i, h, ?_, hat ▸ hslot⟩⟩
          have hcontent : s.deque.buffer (slot h) = some task := by
            rw [← hat, hslot]
            exact hfull
          rw [moveTo_pc, hcontent, update_self]
        · refine ⟨hplace, Or.inl ⟨index, ?_, hto, hslot⟩⟩
          rw [moveTo_deque, setHead_head]
          omega
      · exact ⟨hplace, Or.inr ⟨j, k, update_of_take hnotOld htake, hslot⟩⟩
    fits := fun place task hfull ↦ (hinv.fits place task hfull).trans (by
      rw [moveTo_deque, setHead_head]
      omega)
    apart := by
      intro j k m n task hj hk hslot
      rw [moveTo_pc] at hj hk
      by_cases hji : j = i
      · by_cases hki : k = i
        · rw [hji, hki]
        · rw [hji, update_self] at hj
          rw [update_of_ne hki] at hk
          rw [← (Pc.stealTake.inj hj).1, ← hhead] at hslot
          exact absurd hslot.symm (hfresh k n task hk)
      · rw [update_of_ne hji] at hj
        by_cases hki : k = i
        · rw [hki, update_self] at hk
          rw [← (Pc.stealTake.inj hk).1, ← hhead] at hslot
          exact absurd hslot (hfresh j m task hj)
        · rw [update_of_ne hki] at hk
          exact hinv.apart j k m n task hj hk hslot
    balance := hinv.balance }

/-- A slot that is emptied was empty, or is none that a stealer has won. -/
theorem kept_of_setSlot {d : LockFreeTaskDeque τ} {index k : ℕ} {found : Option τ}
    (hslot : d.buffer (slot k) = found) (hother : d.buffer (slot index) ≠ none → slot k ≠ slot index) :
    (d.setSlot index none).buffer (slot k) = found := by
  rw [setSlot_buffer]
  by_cases hsame : slot k = slot index
  · have hempty : d.buffer (slot index) = none := by
      by_contra hfull
      exact hother hfull hsame
    rw [hsame, update_self, ← hslot, hsame, hempty]
  · rw [update_of_ne hsame, hslot]

theorem full_of_setSlot {d : LockFreeTaskDeque τ} {index place : ℕ} {task : τ}
    (hfull : (d.setSlot index none).buffer place = some task) :
    place ≠ slot index ∧ d.buffer place = some task := by
  rw [setSlot_buffer] at hfull
  by_cases hsame : place = slot index
  · rw [hsame, update_self] at hfull
    cases hfull
  · rw [update_of_ne hsame] at hfull
    exact ⟨hsame, hfull⟩

theorem contents_setSlot_none (d : LockFreeTaskDeque τ) (index : ℕ) :
    (d.setSlot index none).contents + Slots.ofSlot (d.buffer (slot index)) = d.contents := by
  rw [contents_setSlot]
  exact Multiset.add_zero _

theorem Inv.stealTake (hinv : s.Inv own) {h : ℕ} {found : Option τ}
    (hpc : s.pc i = .stealTake h found) :
    (s.settle i (s.deque.setSlot h none) (.returned (s.deque.buffer (slot h)))).Inv own := by
  have hknows := hinv.knows i
  rw [hpc] at hknows
  obtain ⟨hslot, hwon⟩ := hknows
  have hold : ¬ (s.pc i).Busy := by
    rw [hpc]
    exact id
  have hnotNew : ∀ k found, (Pc.idle : Pc τ) ≠ .stealTake k found := ne_stealTake rfl
  have hmine : ∀ j k, j ≠ i → s.pc j = .stealTake k (s.deque.buffer (slot k)) →
      s.deque.buffer (slot h) ≠ none → slot k ≠ slot h := by
    intro j k hne htake hfull hsame
    obtain ⟨task, htask⟩ := Option.ne_none_iff_exists'.mp hfull
    rw [hsame, htask] at htake
    rw [htask] at hslot
    exact hne (hinv.apart j i k h task htake (hslot ▸ hpc) hsame)
  exact {
    head_lt := hinv.head_lt
    tail_lt := hinv.tail_lt
    head_le := hinv.head_le
    owner := hinv.owner.update_free hold id
    knows := by
      refine forall_update (P := fun pc ↦ pc.Knows own (s.deque.setSlot h none)) trivial
        fun j hne ↦ ?_
      have hothers := hinv.knows j
      by_cases hbusy : (s.pc j).Busy
      · have hown := hinv.owner.own_eq hbusy
        cases hother : s.pc j with
        | pushStore task t =>
          rw [hother] at hothers hown
          obtain ⟨htail, hcontent, hlast, hwindow⟩ := hothers
          refine ⟨htail, kept_of_setSlot hcontent fun hfull ↦ ?_, hlast, hwindow⟩
          obtain ⟨hbelow, hextent⟩ := hwon (hslot ▸ hfull)
          have hle := hinv.head_le
          rw [hown] at hextent hle
          simp only [Pc.bound, Pc.extent] at hextent hle
          exact slot_ne (by omega) (le_refl h) (by omega) (by omega) (by omega)
        | popExchange t content =>
          rw [hother] at hothers
          obtain ⟨htail, hfrom, hholds, hempty⟩ := hothers
          refine ⟨htail, hfrom, hholds, kept_of_setSlot hempty fun hfull hsame ↦ ?_⟩
          exact hfull (hsame ▸ hempty)
        | popHead =>
          rw [hother] at hothers
          exact hothers
        | popTake =>
          rw [hother] at hothers
          exact hothers
        | popRestore =>
          rw [hother] at hothers
          exact hothers
        | _ =>
          rw [hother] at hbusy
          exact absurd hbusy id
      · refine hothers.frame hbusy (le_refl _) (fun _ hless ↦ hless) fun k content htake hcontent ↦
          ⟨kept_of_setSlot hcontent ?_, fun _ _ hwindow ↦ hwindow⟩
        exact hmine j k hne (hcontent ▸ htake)
    placed := by
      intro place task hfull
      obtain ⟨hne, hfull⟩ := full_of_setSlot hfull
      obtain ⟨hplace, hindex | ⟨j, k, htake, hat⟩⟩ := hinv.placed place task hfull
      · exact ⟨hplace, Or.inl hindex⟩
      · have hji : j ≠ i := by
          rintro rfl
          rw [hpc] at htake
          rw [← hat, ← (Pc.stealTake.inj htake).1] at hne
          exact hne rfl
        refine ⟨hplace, Or.inr ⟨j, k, ?_, hat⟩⟩
        exact (update_of_ne hji _ _).trans htake
    fits := fun place task hfull ↦ hinv.fits place task (full_of_setSlot hfull).2
    apart := fun j k m n task hj hk ↦
      hinv.apart j k m n task (take_of_update hnotNew hj) (take_of_update hnotNew hk)
    balance := by
      have hbalance := hinv.balance
      rw [← contents_setSlot_none s.deque h] at hbalance
      simp only [settle, moveTo_deque, moveTo_accepted, hbalance]
      abel }

/-! ## The steps of a push -/

theorem Inv.pushWrite (hinv : s.Inv own) {task : τ} {t h : ℕ} (hpc : s.pc i = .pushWrite task t h)
    (hlast : t ≠ 2 ^ 64 - 1) (huntouched : s.Untouched t) (htail : s.deque.tail = t)
    (hfree : ∀ j, ¬ (s.pc j).Busy) :
    (s.moveTo i (s.deque.setSlot t (some task)) (.pushStore task t)).Inv (.pushStore task t) := by
  obtain rfl : own = .idle := by
    rcases hinv.owner with ⟨hown, -⟩ | ⟨j, hj, hbusy, -⟩
    · exact hown
    · exact absurd (hj ▸ hbusy) (hfree j)
  have hknows := hinv.knows i
  rw [hpc] at hknows
  obtain ⟨hread, hroom⟩ := hknows
  have hhead : s.deque.head ≤ t := htail ▸ hinv.head_le
  have htail_lt := hinv.tail_lt
  have hwindow : t + 1 ≤ s.deque.head + 4096 := by
    rw [wrappingSub] at hroom
    omega
  have hempty : s.deque.buffer (slot t) = none :=
    hinv.empty_of_untouched huntouched htail.le (by omega)
  have hnotOld : ∀ k found, s.pc i ≠ .stealTake k found := ne_stealTake (hpc ▸ rfl)
  have hnotNew : ∀ k found, Pc.pushStore task t ≠ .stealTake k found := ne_stealTake rfl
  exact {
    head_lt := hinv.head_lt
    tail_lt := hinv.tail_lt
    head_le := hinv.head_le
    owner := .update_busy (fun j hj ↦ absurd hj (hfree j)) trivial
    knows := by
      refine forall_update (P := fun pc ↦ pc.Knows (.pushStore task t)
        (s.deque.setSlot t (some task))) ?_ fun j hne ↦ ?_
      · exact ⟨htail, update_self .., by omega, hwindow⟩
      · refine (hinv.knows j).frame (hfree j) (le_refl _) (fun _ hless ↦ hless)
          fun k found htake hslot ↦ ⟨?_, fun _ hbelow hextent ↦ ?_⟩
        · exact (update_of_ne (huntouched.slot_ne htake) _ _).trans hslot
        · have hne := huntouched.slot_ne htake
          simp only [Pc.extent] at hextent ⊢
          rw [slot_eq, slot_eq] at hne
          omega
    placed := by
      intro place content hfull
      by_cases hsame : place = slot t
      · exact ⟨hsame ▸ slot_lt t, Or.inl ⟨t, hhead, Nat.lt_succ_self t, hsame.symm⟩⟩
      · have hold : s.deque.buffer place = some content :=
          (update_of_ne hsame _ _).symm.trans hfull
        obtain ⟨hplace, ⟨index, hfrom, hto, hslot⟩ | ⟨j, k, htake, hslot⟩⟩ :=
          hinv.placed place content hold
        · refine ⟨hplace, Or.inl ⟨index, hfrom, ?_, hslot⟩⟩
          simp only [Pc.extent] at hto ⊢
          omega
        · exact ⟨hplace, Or.inr ⟨j, k, update_of_take hnotOld htake, hslot⟩⟩
    fits := fun _ _ _ ↦ hwindow
    apart := fun j k m n content hj hk ↦
      hinv.apart j k m n content (take_of_update hnotNew hj) (take_of_update hnotNew hk)
    balance := by
      have hbalance := hinv.balance
      have hcontents := contents_setSlot s.deque t (some task)
      rw [hempty] at hcontents
      have hmore : (s.deque.setSlot t (some task)).contents = s.deque.contents + {task} :=
        (Multiset.add_zero _).symm.trans hcontents
      simp only [Pc.early, Pc.hand, add_zero] at hbalance ⊢
      rw [moveTo_accepted, moveTo_returned, moveTo_deque, hmore, hbalance]
      abel }

/-- A step of the thread that is changing the tail which fills no slot. -/
structure OwnStep (s : DequeState ι τ) (own : Pc τ) (i : ι) (d : LockFreeTaskDeque τ) (new own' : Pc τ) :
    Prop where
  notOld : ∀ h found, s.pc i ≠ .stealTake h found
  notNew : ∀ h found, new ≠ .stealTake h found
  others : ∀ j, (s.pc j).Busy → j = i
  owner : Owned (update s.pc i new) own'
  head_lt : d.head < 2 ^ 64
  tail_lt : d.tail < 2 ^ 64
  head_le : d.head ≤ own'.bound d.tail
  head_mono : s.deque.head ≤ d.head
  bound : d.head = s.deque.head → s.deque.head < own.bound s.deque.tail →
    s.deque.head < own'.bound d.tail
  extent : s.deque.Nonempty → own'.extent d.tail ≤ own.extent s.deque.tail
  knows : new.Knows own' d
  kept : ∀ j h found, s.pc j = .stealTake h found → s.deque.buffer (slot h) = found →
    d.buffer (slot h) = found
  full : ∀ place task, d.buffer place = some task → s.deque.buffer place = some task
  placed : ∀ index task, d.buffer (slot index) = some task → s.deque.head ≤ index →
    index < own.extent s.deque.tail → d.head ≤ index ∧ index < own'.extent d.tail

theorem Inv.ownStep (hinv : s.Inv own) (new : Pc τ) {d : LockFreeTaskDeque τ} {own' : Pc τ}
    {accepted returned : Multiset τ} (hstep : s.OwnStep own i d new own')
    (hbalance : accepted + own'.early = returned + d.contents + own'.hand) :
    (DequeState.mk d (update s.pc i new) accepted returned).Inv own' where
  head_lt := hstep.head_lt
  tail_lt := hstep.tail_lt
  head_le := hstep.head_le
  owner := hstep.owner
  knows := by
    refine forall_update (P := fun pc ↦ pc.Knows own' d) hstep.knows fun j hne ↦ ?_
    refine (hinv.knows j).frame (fun hj ↦ hne (hstep.others j hj)) hstep.head_mono hstep.bound
      fun h found htake hslot ↦ ⟨hstep.kept j h found htake hslot, fun hsome _ hextent ↦ ?_⟩
    obtain ⟨task, htask⟩ := Option.ne_none_iff_exists'.mp hsome
    exact (hstep.extent ⟨slot h, task, hslot.trans htask⟩).trans hextent
  placed := by
    intro place task hfull
    obtain ⟨hplace, ⟨index, hfrom, hto, hslot⟩ | ⟨j, h, htake, hslot⟩⟩ :=
      hinv.placed place task (hstep.full place task hfull)
    · obtain ⟨hfrom', hto'⟩ := hstep.placed index task (hslot ▸ hfull) hfrom hto
      exact ⟨hplace, Or.inl ⟨index, hfrom', hto', hslot⟩⟩
    · exact ⟨hplace, Or.inr ⟨j, h, update_of_take hstep.notOld htake, hslot⟩⟩
  fits := by
    intro place task hfull
    have hold := hstep.full place task hfull
    calc
      own'.extent d.tail ≤ own.extent s.deque.tail := hstep.extent ⟨place, task, hold⟩
      _ ≤ s.deque.head + 4096 := hinv.fits place task hold
      _ ≤ d.head + 4096 := Nat.add_le_add_right hstep.head_mono 4096
  apart := fun j k m n task hj hk ↦ hinv.apart j k m n task (take_of_update hstep.notNew hj)
    (take_of_update hstep.notNew hk)
  balance := hbalance

omit [DecidableEq ι] in
/-- Of the thread that is changing the tail the invariant knows where it stands. -/
theorem Inv.own_of_busy (hinv : s.Inv own) {pc : Pc τ} (hpc : s.pc i = pc) (hbusy : pc.Busy) :
    own = pc ∧ pc.Knows pc s.deque ∧ ∀ j, (s.pc j).Busy → j = i := by
  have hbusy' : (s.pc i).Busy := hpc ▸ hbusy
  have hown : own = pc := (hinv.owner.own_eq hbusy').trans hpc
  have hknows := hinv.knows_own
  rw [hown] at hknows
  exact ⟨hown, hknows, fun j hj ↦ hinv.owner.eq_of_busy hbusy' hj⟩

theorem Inv.pushStore (hinv : s.Inv own) {task : τ} {t : ℕ} (hpc : s.pc i = .pushStore task t) :
    (s.settle i (s.deque.setTail (wrappingAdd t 1)) (.accepted task)).Inv .idle := by
  obtain ⟨rfl, ⟨htail, -, hlast, -⟩, hothers⟩ := hinv.own_of_busy hpc trivial
  have hmore : wrappingAdd t 1 = t + 1 := by
    rw [wrappingAdd]
    omega
  have hhead : s.deque.head ≤ t := htail ▸ hinv.head_le
  rw [hmore]
  have hbalance := hinv.balance
  simp only [Pc.early, Pc.hand, add_zero] at hbalance
  refine hinv.ownStep .idle {
    notOld := ne_stealTake (hpc ▸ rfl)
    notNew := ne_stealTake rfl
    others := hothers
    owner := .update_done hothers id
    head_lt := hinv.head_lt
    tail_lt := hlast
    head_le := hhead.trans (Nat.le_succ t)
    head_mono := le_refl _
    bound := fun _ _ ↦ Nat.lt_succ_of_le hhead
    extent := fun _ ↦ le_refl _
    knows := trivial
    kept := fun _ _ _ _ hslot ↦ hslot
    full := fun _ _ hfull ↦ hfull
    placed := fun _ _ _ hfrom hto ↦ ⟨hfrom, hto⟩ } ?_
  simp only [Pc.early, Pc.hand, add_zero]
  exact hbalance

/-! ## The steps of a pop -/

theorem Inv.popStore (hinv : s.Inv own) {t : ℕ} (hpc : s.pc i = .popStore t)
    (htail : s.deque.tail = wrappingAdd t 1) (hfree : ∀ j, ¬ (s.pc j).Busy) :
    (s.moveTo i (s.deque.setTail t) (.popHead t)).Inv (.popHead t) := by
  obtain rfl : own = .idle := by
    rcases hinv.owner with ⟨hown, -⟩ | ⟨j, hj, hbusy, -⟩
    · exact hown
    · exact absurd (hj ▸ hbusy) (hfree j)
  have hlt := hinv.knows i
  rw [hpc] at hlt
  have hless : t < 2 ^ 64 := hlt
  have hhead : s.deque.head ≤ s.deque.tail := hinv.head_le
  have hsame : s.deque.Nonempty → s.deque.tail = t + 1 := by
    rintro ⟨place, task, hfull⟩
    by_contra hne
    have hzero : s.deque.tail = 0 := by
      rw [htail, wrappingAdd] at hne ⊢
      omega
    rcases (hinv.placed place task hfull).2 with ⟨index, -, hto, -⟩ | ⟨j, h, htake, -⟩
    · simp only [Pc.extent, hzero] at hto
      exact absurd hto (Nat.not_lt_zero index)
    · have hknows := hinv.knows j
      rw [htake] at hknows
      have hbelow := (hknows.2 (Option.some_ne_none task)).1
      omega
  have hbound : s.deque.tail ≤ t + 1 := by
    rw [htail, wrappingAdd]
    exact Nat.mod_le _ _
  have hothers : ∀ j, (s.pc j).Busy → j = i := fun j hj ↦ absurd hj (hfree j)
  exact hinv.ownStep _ {
    notOld := ne_stealTake (hpc ▸ rfl)
    notNew := ne_stealTake rfl
    others := hothers
    owner := .update_busy hothers trivial
    head_lt := hinv.head_lt
    tail_lt := hless
    head_le := hhead.trans hbound
    head_mono := le_refl _
    bound := fun _ hbelow ↦ lt_of_lt_of_le hbelow hbound
    extent := fun hfull ↦ (hsame hfull).ge
    knows := rfl
    kept := fun _ _ _ _ hslot ↦ hslot
    full := fun _ _ hfull ↦ hfull
    placed := fun _ _ _ hfrom hto ↦ ⟨hfrom, lt_of_lt_of_le hto hbound⟩ } hinv.balance

theorem Inv.popHead_below (hinv : s.Inv own) {t : ℕ} (hpc : s.pc i = .popHead t)
    (hbelow : s.deque.head ≤ t) :
    (s.moveTo i s.deque (.popTake t s.deque.head)).Inv (.popTake t s.deque.head) := by
  obtain ⟨rfl, htail, hothers⟩ := hinv.own_of_busy hpc trivial
  have hbound : s.deque.head ≤ (Pc.popTake t s.deque.head : Pc τ).bound s.deque.tail ∧
      s.deque.head < (Pc.popTake t s.deque.head : Pc τ).bound s.deque.tail := by
    simp only [Pc.bound]
    split
    · omega
    · omega
  exact hinv.ownStep _ {
    notOld := ne_stealTake (hpc ▸ rfl)
    notNew := ne_stealTake rfl
    others := hothers
    owner := .update_busy hothers trivial
    head_lt := hinv.head_lt
    tail_lt := hinv.tail_lt
    head_le := hbound.1
    head_mono := le_refl _
    bound := fun _ _ ↦ hbound.2
    extent := fun _ ↦ le_refl _
    knows := ⟨htail, le_refl _, hbelow⟩
    kept := fun _ _ _ _ hslot ↦ hslot
    full := fun _ _ hfull ↦ hfull
    placed := fun _ _ _ hfrom hto ↦ ⟨hfrom, hto⟩ } hinv.balance

theorem Inv.popHead_above (hinv : s.Inv own) {t : ℕ} (hpc : s.pc i = .popHead t)
    (habove : ¬ s.deque.head ≤ t) :
    (s.moveTo i s.deque (.popRestore t none)).Inv (.popRestore t none) := by
  obtain ⟨rfl, htail, hothers⟩ := hinv.own_of_busy hpc trivial
  have hle : s.deque.head ≤ t + 1 := hinv.head_le
  exact hinv.ownStep _ {
    notOld := ne_stealTake (hpc ▸ rfl)
    notNew := ne_stealTake rfl
    others := hothers
    owner := .update_busy hothers trivial
    head_lt := hinv.head_lt
    tail_lt := hinv.tail_lt
    head_le := hle
    head_mono := le_refl _
    bound := fun _ hless ↦ hless
    extent := fun _ ↦ le_refl _
    knows := ⟨htail, by omega⟩
    kept := fun _ _ _ _ hslot ↦ hslot
    full := fun _ _ hfull ↦ hfull
    placed := fun _ _ _ hfrom hto ↦ ⟨hfrom, hto⟩ } hinv.balance

omit [DecidableEq ι] in
/-- What a pop takes from a slot that no stealer has won is that of its own index. -/
theorem Inv.popTake_full (hinv : s.Inv own) {t h : ℕ} {task : τ} (hpc : s.pc i = .popTake t h)
    (hcontent : s.deque.buffer (slot t) = some task) (huntouched : s.Untouched t) :
    s.deque.head ≤ t := by
  obtain ⟨rfl, -, -⟩ := hinv.own_of_busy hpc trivial
  rcases (hinv.placed _ task hcontent).2 with ⟨index, hfrom, hto, -⟩ | ⟨j, k, htake, hslot⟩
  · exact hfrom.trans (Nat.le_of_lt_succ hto)
  · exact absurd hslot (huntouched.slot_ne htake)

theorem Inv.popTake_last (hinv : s.Inv own) {t : ℕ} (hpc : s.pc i = .popTake t t)
    (hrace : s.deque.buffer (slot t) ≠ none → s.Untouched t) :
    (s.moveTo i (s.deque.setSlot t none) (.popExchange t (s.deque.buffer (slot t)))).Inv
      (.popExchange t (s.deque.buffer (slot t))) := by
  have hat : s.deque.buffer (slot t) ≠ none → s.deque.head ≤ t := by
    intro hfull
    obtain ⟨task, htask⟩ := Option.ne_none_iff_exists'.mp hfull
    exact hinv.popTake_full hpc htask (hrace hfull)
  obtain ⟨rfl, ⟨htail, hread, -⟩, hothers⟩ := hinv.own_of_busy hpc trivial
  have hle : s.deque.head ≤ t + 1 := by
    have hbound := hinv.head_le
    rwa [Pc.bound, if_neg (lt_irrefl t)] at hbound
  refine hinv.ownStep _ {
    notOld := ne_stealTake (hpc ▸ rfl)
    notNew := ne_stealTake rfl
    others := hothers
    owner := .update_busy hothers trivial
    head_lt := hinv.head_lt
    tail_lt := hinv.tail_lt
    head_le := hle
    head_mono := le_refl _
    bound := by
      intro _ hless
      rwa [Pc.bound, if_neg (lt_irrefl t)] at hless
    extent := fun _ ↦ le_refl _
    knows := ⟨htail, hread, fun hfull ↦ le_antisymm (hat hfull) hread, update_self ..⟩
    kept := fun _ _ _ htake hslot ↦ kept_of_setSlot hslot fun hfull ↦ (hrace hfull).slot_ne htake
    full := fun _ _ hfull ↦ (full_of_setSlot hfull).2
    placed := fun _ _ _ hfrom hto ↦ ⟨hfrom, hto⟩ } ?_
  have hbalance := hinv.balance
  rw [← contents_setSlot_none s.deque t] at hbalance
  simp only [Pc.early, Pc.hand, add_zero] at hbalance ⊢
  rw [hbalance]
  abel

theorem Inv.popTake_more (hinv : s.Inv own) {t h : ℕ} (hpc : s.pc i = .popTake t h) (hmore : h ≠ t)
    (hrace : s.deque.buffer (slot t) ≠ none → s.Untouched t) :
    (s.settle i (s.deque.setSlot t none) (.returned (s.deque.buffer (slot t)))).Inv .idle := by
  obtain ⟨rfl, ⟨htail, hread, hbelow⟩, hothers⟩ := hinv.own_of_busy hpc trivial
  have hless : h < t := lt_of_le_of_ne hbelow hmore
  have hbound : (Pc.popTake t h : Pc τ).bound s.deque.tail = t := if_pos hless
  have hle : s.deque.head ≤ t := hbound ▸ hinv.head_le
  have hbalance := hinv.balance
  rw [← contents_setSlot_none s.deque t] at hbalance
  simp only [Pc.early, Pc.hand, add_zero] at hbalance
  refine hinv.ownStep .idle {
    notOld := ne_stealTake (hpc ▸ rfl)
    notNew := ne_stealTake rfl
    others := hothers
    owner := .update_done hothers id
    head_lt := hinv.head_lt
    tail_lt := hinv.tail_lt
    head_le := htail ▸ hle
    head_mono := le_refl _
    bound := by
      intro _ hfrom
      rw [hbound] at hfrom
      exact htail ▸ hfrom
    extent := fun _ ↦ htail ▸ Nat.le_succ t
    knows := trivial
    kept := fun _ _ _ htake hslot ↦ kept_of_setSlot hslot fun hfull ↦ (hrace hfull).slot_ne htake
    full := fun _ _ hfull ↦ (full_of_setSlot hfull).2
    placed := by
      intro index task hfull hfrom hto
      have hne : index ≠ t := by
        rintro rfl
        exact (full_of_setSlot hfull).1 rfl
      refine ⟨hfrom, ?_⟩
      simp only [Pc.extent] at hto
      show index < s.deque.tail
      omega } ?_
  simp only [Pc.early, Pc.hand, add_zero]
  rw [moveTo_accepted, moveTo_deque, hbalance]
  abel

theorem Inv.popExchange_won (hinv : s.Inv own) {t : ℕ} {task : Option τ}
    (hpc : s.pc i = .popExchange t task) (hhead : s.deque.head = t) (hlast : t ≠ 2 ^ 64 - 1) :
    (s.moveTo i (s.deque.setHead (wrappingAdd t 1)) (.popRestore t task)).Inv
      (.popRestore t task) := by
  obtain ⟨rfl, ⟨htail, -, -, hempty⟩, hothers⟩ := hinv.own_of_busy hpc trivial
  have hlt := hinv.tail_lt
  have hmore : wrappingAdd t 1 = t + 1 := by
    rw [wrappingAdd]
    omega
  rw [hmore]
  exact hinv.ownStep _ {
    notOld := ne_stealTake (hpc ▸ rfl)
    notNew := ne_stealTake rfl
    others := hothers
    owner := .update_busy hothers trivial
    head_lt := by
      rw [setHead_head]
      omega
    tail_lt := hinv.tail_lt
    head_le := le_refl (t + 1)
    head_mono := by
      rw [setHead_head]
      omega
    bound := by
      intro hsame
      rw [setHead_head] at hsame
      omega
    extent := fun _ ↦ le_refl _
    knows := ⟨htail, rfl⟩
    kept := fun _ _ _ _ hslot ↦ hslot
    full := fun _ _ hfull ↦ hfull
    placed := by
      intro index content hfull hfrom hto
      have hne : index ≠ t := by
        rintro rfl
        exact absurd (hempty.symm.trans hfull) (Option.some_ne_none content).symm
      refine ⟨?_, hto⟩
      rw [setHead_head]
      omega } hinv.balance

theorem Inv.popExchange_lost (hinv : s.Inv own) {t : ℕ} {task : Option τ}
    (hpc : s.pc i = .popExchange t task) (hhead : s.deque.head ≠ t) :
    (s.moveTo i s.deque (.popRestore t none)).Inv (.popRestore t none) := by
  obtain ⟨rfl, ⟨htail, hfrom, hholds, -⟩, hothers⟩ := hinv.own_of_busy hpc trivial
  have hle : s.deque.head ≤ t + 1 := hinv.head_le
  obtain rfl : task = none := by
    by_contra hsome
    exact hhead (hholds hsome)
  exact hinv.ownStep _ {
    notOld := ne_stealTake (hpc ▸ rfl)
    notNew := ne_stealTake rfl
    others := hothers
    owner := .update_busy hothers trivial
    head_lt := hinv.head_lt
    tail_lt := hinv.tail_lt
    head_le := hle
    head_mono := le_refl _
    bound := fun _ hless ↦ hless
    extent := fun _ ↦ le_refl _
    knows := ⟨htail, by omega⟩
    kept := fun _ _ _ _ hslot ↦ hslot
    full := fun _ _ hfull ↦ hfull
    placed := fun _ _ _ hfrom hto ↦ ⟨hfrom, hto⟩ } hinv.balance

theorem Inv.popRestore (hinv : s.Inv own) {t : ℕ} {task : Option τ}
    (hpc : s.pc i = .popRestore t task) :
    (s.settle i (s.deque.setTail (wrappingAdd t 1)) (.returned task)).Inv .idle := by
  obtain ⟨rfl, ⟨htail, hhead⟩, hothers⟩ := hinv.own_of_busy hpc trivial
  have hlt := hinv.head_lt
  have hmore : wrappingAdd t 1 = t + 1 := by
    rw [wrappingAdd]
    omega
  have hbalance := hinv.balance
  simp only [Pc.early, Pc.hand, add_zero] at hbalance
  rw [hmore]
  refine hinv.ownStep .idle {
    notOld := ne_stealTake (hpc ▸ rfl)
    notNew := ne_stealTake rfl
    others := hothers
    owner := .update_done hothers id
    head_lt := hlt
    tail_lt := by
      rw [moveTo_deque, setTail_tail]
      omega
    head_le := hhead.le
    head_mono := le_refl _
    bound := fun _ hless ↦ hless
    extent := fun _ ↦ le_refl _
    knows := trivial
    kept := fun _ _ _ _ hslot ↦ hslot
    full := fun _ _ hfull ↦ hfull
    placed := fun _ _ _ hfrom hto ↦ ⟨hfrom, hto⟩ } ?_
  simp only [Pc.early, Pc.hand, add_zero]
  rw [moveTo_accepted, hbalance]
  change _ = s.returned + Slots.ofSlot task + s.deque.contents
  abel

omit [DecidableEq ι] in
theorem Inv.tail_le_bound (hinv : s.Inv own) : s.deque.tail ≤ own.bound s.deque.tail := by
  have hknows := hinv.knows_own
  cases own with
  | popHead t => exact (Eq.le hknows).trans (Nat.le_succ t)
  | popTake t h =>
    have htail : s.deque.tail = t := hknows.1
    simp only [Pc.bound]
    split
    · exact htail.le
    · exact htail.le.trans (Nat.le_succ t)
  | popExchange t task => exact (Eq.le hknows.1).trans (Nat.le_succ t)
  | popRestore t task => exact (Eq.le hknows.1).trans (Nat.le_succ t)
  | _ => exact le_refl _

/-! ## Every step -/

theorem Inv.call (hinv : s.Inv own) (hpc : s.pc i = .idle) (c : Call τ) :
    (s.moveTo i s.deque (.begin c)).Inv own := by
  cases c <;> exact hinv.silent (by rw [hpc]; exact id) id
    (ne_stealTake (hpc ▸ rfl)) (ne_stealTake rfl) trivial

theorem settle_returned_none (s : DequeState ι τ) (i : ι) (d : LockFreeTaskDeque τ) :
    s.settle i d (.returned none) = s.moveTo i d .idle := by
  rw [settle, Slots.ofSlot, add_zero]
  rfl

/-- **One step** of a thread keeps the invariant. -/
theorem Inv.step (hinv : s.Inv own) {s' : DequeState ι τ} (hrace : s.RaceFree (.step i))
    (hexclusive : s.Exclusive (.step i))
    (hstep : (dequeMachine ι τ).step s (.step i) = some s') : ∃ own', s'.Inv own' := by
  obtain ⟨⟨d, outcome⟩, hadvance, rfl⟩ := Option.map_eq_some_iff.mp hstep
  have hknows := hinv.knows i
  simp only [RaceFree] at hrace
  simp only [Exclusive] at hexclusive
  have hreads : ∀ new : Pc τ, ¬ (s.pc i).Busy → ¬ new.Busy →
      (∀ h found, s.pc i ≠ .stealTake h found) → (∀ h found, new ≠ .stealTake h found) →
        new.Knows own s.deque → ∃ own', (s.moveTo i s.deque new).Inv own' :=
    fun new hold hnew hnotOld hnotNew hknows ↦ ⟨own, hinv.silent hold hnew hnotOld hnotNew hknows⟩
  cases hpc : s.pc i with
  | idle =>
    rw [hpc] at hadvance
    cases hadvance
  | pushBegin task =>
    rw [hpc] at hadvance hreads
    cases hadvance
    exact hreads _ id id (ne_stealTake rfl) (ne_stealTake rfl) trivial
  | pushHead task t =>
    rw [hpc, LockFreeTaskDeque.advance] at hadvance
    rw [hpc] at hreads
    by_cases hfull : wrappingSub t s.deque.head ≥ dequeCapacity
    · rw [if_pos hfull] at hadvance
      cases hadvance
      exact hreads _ id id (ne_stealTake rfl) (ne_stealTake rfl) trivial
    · rw [if_neg hfull] at hadvance
      cases hadvance
      exact hreads _ id id (ne_stealTake rfl) (ne_stealTake rfl)
        ⟨le_refl _, not_le.mp hfull⟩
  | pushWrite task t h =>
    rw [hpc] at hadvance hrace hexclusive
    cases hadvance
    exact ⟨_, hinv.pushWrite hpc hrace.1 hrace.2 hexclusive.1 hexclusive.2⟩
  | pushStore task t =>
    rw [hpc] at hadvance
    cases hadvance
    exact ⟨_, hinv.pushStore hpc⟩
  | popBegin =>
    rw [hpc] at hadvance hreads
    cases hadvance
    refine hreads _ id id (ne_stealTake rfl) (ne_stealTake rfl) ?_
    rw [Pc.Knows, wrappingSub]
    exact Nat.mod_lt _ (Nat.two_pow_pos 64)
  | popStore t =>
    rw [hpc] at hadvance hexclusive
    cases hadvance
    exact ⟨_, hinv.popStore hpc hexclusive.1 hexclusive.2⟩
  | popHead t =>
    rw [hpc, LockFreeTaskDeque.advance] at hadvance
    by_cases hbelow : s.deque.head ≤ t
    · rw [if_pos hbelow] at hadvance
      cases hadvance
      exact ⟨_, hinv.popHead_below hpc hbelow⟩
    · rw [if_neg hbelow] at hadvance
      cases hadvance
      exact ⟨_, hinv.popHead_above hpc hbelow⟩
  | popTake t h =>
    rw [hpc] at hrace
    rw [hpc, LockFreeTaskDeque.advance] at hadvance
    by_cases hlast : h = t
    · rw [if_pos hlast] at hadvance
      cases hadvance
      exact ⟨_, hinv.popTake_last (hlast ▸ hpc) hrace⟩
    · rw [if_neg hlast] at hadvance
      cases hadvance
      exact ⟨_, hinv.popTake_more hpc hlast hrace⟩
  | popExchange t task =>
    rw [hpc] at hrace
    rw [hpc, LockFreeTaskDeque.advance] at hadvance
    by_cases hhead : s.deque.head = t
    · rw [if_pos hhead] at hadvance
      cases hadvance
      exact ⟨_, hinv.popExchange_won hpc hhead (hrace hhead)⟩
    · rw [if_neg hhead] at hadvance
      cases hadvance
      exact ⟨_, hinv.popExchange_lost hpc hhead⟩
  | popRestore t task =>
    rw [hpc] at hadvance
    cases hadvance
    exact ⟨_, hinv.popRestore hpc⟩
  | stealBegin =>
    rw [hpc] at hadvance hreads
    cases hadvance
    exact hreads _ id id (ne_stealTake rfl) (ne_stealTake rfl)
      (le_refl s.deque.head)
  | stealTail h =>
    rw [hpc, LockFreeTaskDeque.advance] at hadvance
    rw [hpc] at hreads hknows
    have hread : h ≤ s.deque.head := hknows
    by_cases hempty : h ≥ s.deque.tail
    · rw [if_pos hempty] at hadvance
      cases hadvance
      rw [settle_returned_none]
      exact hreads _ id id (ne_stealTake rfl) (ne_stealTake rfl) trivial
    · rw [if_neg hempty] at hadvance
      cases hadvance
      refine hreads _ id id (ne_stealTake rfl) (ne_stealTake rfl) ?_
      have hlt := hinv.tail_lt
      exact ⟨hread, by omega, fun _ ↦ (not_le.mp hempty).trans_le (hinv.tail_le_bound)⟩
  | stealExchange h =>
    rw [hpc] at hrace hreads
    rw [hpc, LockFreeTaskDeque.advance] at hadvance
    by_cases hhead : s.deque.head = h
    · rw [if_pos hhead] at hadvance
      cases hadvance
      exact ⟨_, hinv.stealExchange hpc hhead (hrace hhead)⟩
    · rw [if_neg hhead] at hadvance
      cases hadvance
      exact hreads _ id id (ne_stealTake rfl) (ne_stealTake rfl) trivial
  | stealTake h found =>
    rw [hpc] at hadvance
    cases hadvance
    exact ⟨_, hinv.stealTake hpc⟩

/-- The condition under which a step keeps the invariant. -/
def Safe (s : DequeState ι τ) (event : DequeEvent ι τ) : Prop :=
  s.RaceFree event ∧ s.Exclusive event

theorem inv_step (s : DequeState ι τ) (event : DequeEvent ι τ) (s' : DequeState ι τ)
    (hinv : ∃ own, s.Inv own) (hsafe : s.Safe event)
    (hstep : (dequeMachine ι τ).step s event = some s') : ∃ own, s'.Inv own := by
  obtain ⟨own, hinv⟩ := hinv
  cases event with
  | call i c =>
    simp only [dequeMachine] at hstep
    cases hpc : s.pc i with
    | idle =>
      rw [hpc] at hstep
      cases hstep
      exact ⟨own, hinv.call hpc c⟩
    | _ =>
      rw [hpc] at hstep
      cases hstep
  | step i => exact hinv.step hsafe.1 hsafe.2 hstep

/-- **Exactly once** in every run whose steps are all safe. -/
theorem exactlyOnce_of_safe {events : List (DequeEvent ι τ)} {s : DequeState ι τ}
    (hsafe : (dequeMachine ι τ).Meets Safe new events)
    (hrun : (dequeMachine ι τ).run new events = some s) : s.ExactlyOnce := by
  obtain ⟨own, hinv⟩ := Machine.inv_of_run inv_step ⟨_, inv_new⟩ hsafe hrun
  exact hinv.exactlyOnce

end DequeState

end SoulSystem.Scheduler
