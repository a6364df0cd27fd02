import SoulSystem.Ipc.Bus

/-!
# Every step keeps the invariant of the bus

The steps that only read, the exchange, write and store of a publish, and the exchange and store
of a dequeue.
-/

namespace SoulSystem.Ipc

open Library List Function SoulSystem.Ipc.InterAgentBus

variable {ι : Type}

/-! ## One thread moves -/

section Update

variable [DecidableEq ι] {pc : ι → Pc} {i : ι} {new : Pc} {bus : InterAgentBus}
  {won : List AgentMessage}

theorem knows_update (hnew : new.Knows bus won) (hothers : ∀ j, j ≠ i → (pc j).Knows bus won)
    (j : ι) : (update pc i new j).Knows bus won :=
  (forall_update_iff pc fun _ pc ↦ pc.Knows bus won).mpr ⟨hnew, hothers⟩ j

theorem apart_update
    (hapart : ∀ j k pos, (pc j).owned = some pos → (pc k).owned = some pos → j = k)
    (hnew : ∀ pos, new.owned = some pos → ∀ j, j ≠ i → (pc j).owned ≠ some pos) (j k : ι) (pos : ℕ)
    (hj : (update pc i new j).owned = some pos)
    (hk : (update pc i new k).owned = some pos) : j = k :=
  @Threads.Apart.update ι Pc ℕ _ Pc.owned pc i new hapart hnew j k pos hj hk

end Update

namespace BusState

variable {s : BusState ι} {i : ι} {message : AgentMessage} {pos : ℕ}

/-! ## What the threads own -/

/-- The cell of a position that a thread has won: a publish finds the position there, a dequeue one
more. -/
theorem Inv.sequence_owned (hs : s.Inv) {i : ι} {pos : ℕ} (howned : (s.pc i).owned = some pos) :
    s.bus.sequence pos = pos ∧ pos < s.bus.enqueuePos ∨
      s.bus.sequence pos = pos + 1 ∧ pos < s.bus.dequeuePos := by
  have hknows := hs.knows i
  cases hpc : s.pc i with
  | publishWrite message p =>
    rw [hpc] at hknows howned
    cases howned
    exact Or.inl ⟨hknows.2.1, hknows.1⟩
  | publishStore message p =>
    rw [hpc] at hknows howned
    cases howned
    exact Or.inl ⟨hknows.2.1, hknows.1⟩
  | dequeueRead p =>
    rw [hpc] at hknows howned
    cases howned
    exact Or.inr ⟨hknows.2, hknows.1⟩
  | dequeueStore p message =>
    rw [hpc] at hknows howned
    cases howned
    exact Or.inr ⟨hknows.2.1, hknows.1⟩
  | _ =>
    rw [hpc] at howned
    cases howned

/-- Positions that two threads have won have different cells. -/
theorem Inv.cellOf_ne (hs : s.Inv) {i j : ι} (hne : j ≠ i) {p q : ℕ}
    (hi : (s.pc i).owned = some p) (hj : (s.pc j).owned = some q) : cellOf q ≠ cellOf p := by
  intro hcell
  have hsame := s.bus.sequence_congr hcell
  rcases hs.sequence_owned hi with ⟨hp, -⟩ | ⟨hp, -⟩ <;>
    rcases hs.sequence_owned hj with ⟨hq, -⟩ | ⟨hq, -⟩ <;> rw [hp, hq] at hsame
  · exact hne (hs.apart j i p (hsame ▸ hj) hi)
  · exact cellOf_succ_ne q (hsame ▸ hcell)
  · exact cellOf_succ_ne p (hsame ▸ hcell).symm
  · exact hne (hs.apart j i p (Nat.succ_injective hsame ▸ hj) hi)

/-! ## The store of a sequence number -/

/-- A store of a number that is no smaller lowers none. -/
theorem sequence_le_setSequence (bus : InterAgentBus) {n : ℕ} (hle : bus.sequence pos ≤ n) (p : ℕ) :
    bus.sequence p ≤ (bus.setSequence pos n).sequence p := by
  rw [setSequence_sequence]
  split
  case isTrue hsame => rwa [bus.sequence_congr hsame]
  case isFalse => exact le_refl _

theorem Inv.cell_setSequence (hs : s.Inv) {n next : ℕ} (hnext : cellOf next = cellOf pos)
    (hstored : (s.bus.setSequence pos n).CellAt s.won next) (p : ℕ) :
    ∃ current, cellOf current = cellOf p ∧ (s.bus.setSequence pos n).CellAt s.won current := by
  obtain ⟨current, hcell, hat⟩ := hs.cell p
  by_cases hsame : cellOf current = cellOf pos
  · exact ⟨next, hnext.trans (hsame.symm.trans hcell), hstored⟩
  · refine ⟨current, hcell, hat.enqueue_le, hat.lt_dequeue, ?_⟩
    rw [setSequence_sequence, if_neg hsame, setSequence_message]
    exact hat.content

/-- No other thread waits for the cell of a position that a thread has won. -/
theorem Inv.knows_setSequence (hs : s.Inv) (hown : (s.pc i).owned = some pos) (n : ℕ) {j : ι}
    (hne : j ≠ i) : (s.pc j).Knows (s.bus.setSequence pos n) s.won := by
  refine (hs.knows j).frame (le_refl _) (le_refl _) (fun _ _ hm ↦ hm) (fun _ hfree ↦ ?_)
    (fun _ hready ↦ ?_) fun p hp ↦ ⟨?_, setSequence_message ..⟩
  · have hother : cellOf s.bus.enqueuePos ≠ cellOf pos := by
      intro hsame
      rw [s.bus.sequence_congr hsame] at hfree
      rcases hs.sequence_owned hown with ⟨hsequence, hlt⟩ | ⟨hsequence, -⟩ <;>
        rw [hsequence] at hfree
      · omega
      · exact cellOf_succ_ne pos (hfree ▸ hsame).symm
    rw [setSequence_sequence, if_neg hother, hfree]
  · have hother : cellOf s.bus.dequeuePos ≠ cellOf pos := by
      intro hsame
      rw [s.bus.sequence_congr hsame] at hready
      rcases hs.sequence_owned hown with ⟨hsequence, -⟩ | ⟨hsequence, hlt⟩ <;>
        rw [hsequence] at hready
      · exact cellOf_succ_ne s.bus.dequeuePos (hready ▸ hsame)
      · omega
    rw [setSequence_sequence, if_neg hother, hready]
  · rw [setSequence_sequence, if_neg (hs.cellOf_ne hne hown hp)]

variable [DecidableEq ι]

/-! ## Reads -/

theorem Inv.begin (hs : s.Inv) (i : ι) (c : Call) : (s.begin i c).Inv where
  dequeue_le := hs.dequeue_le
  length_won := hs.length_won
  cell := hs.cell
  knows := knows_update (by cases c <;> trivial) fun j _ ↦ hs.knows j
  apart := apart_update hs.apart fun pos hpos ↦ by cases c <;> cases hpos
  published := hs.published
  returned := hs.returned
  nodup := hs.nodup

/-- A step that only reads the bus. -/
theorem Inv.read (hs : s.Inv) {outcome : Outcome} (hwon : outcome.won = [])
    (hpublished : outcome.publishedAt = []) (hreturned : outcome.returnedAt = [])
    (howned : ∀ pos, ((s.caller i).resume outcome).owned = some pos → (s.pc i).owned = some pos)
    (hknows : ((s.caller i).resume outcome).Knows s.bus s.won) :
    (s.settle i s.bus outcome).Inv := by
  rw [settle, hwon, hpublished, hreturned, append_nil, append_nil, append_nil]
  exact {
    dequeue_le := hs.dequeue_le
    length_won := hs.length_won
    cell := hs.cell
    knows := knows_update hknows fun j _ ↦ hs.knows j
    apart := apart_update hs.apart fun pos hpos j hne hj ↦
      hne (hs.apart j i pos hj (howned pos hpos))
    published := hs.published
    returned := hs.returned
    nodup := hs.nodup }

/-! ## The steps of a publish -/

theorem Inv.winPublish (hs : s.Inv) (hpc : s.pc i = .publishExchange message pos)
    (hpos : s.bus.enqueuePos = pos) :
    (s.settle i { s.bus with enqueuePos := pos + 1 } (.goesOn (.publishWrite message pos))).Inv := by
  have hsequence : s.bus.sequence pos = pos := by
    have hknows := hs.knows i
    rw [hpc] at hknows
    exact hknows.2 hpos
  obtain ⟨hcurrent, hle⟩ := hs.cellAt_free hsequence
  have hlength : s.won.length = pos := hs.length_won.trans hpos
  have hwon : ∀ (p : ℕ) m, s.won[p]? = some m → (s.won ++ [message])[p]? = some m := by
    intro p m hm
    rw [getElem?_append_left (List.getElem?_eq_some_iff.mp hm).1, hm]
  rw [settle_publishWrite]
  exact {
    dequeue_le := hle.trans (Nat.le_succ pos)
    length_won := by
      rw [length_append, hlength, length_singleton]
    cell := by
      intro p
      obtain ⟨current, hcell, hat⟩ := hs.cell p
      refine ⟨current, hcell, ?_, hat.lt_dequeue, ?_⟩
      · by_contra hlt
        have hlap : current + 8192 = pos := by
          have hle := hat.enqueue_le
          change ¬ pos + 1 ≤ current + 8192 at hlt
          omega
        have hsame : cellOf current = cellOf pos := by
          rw [← hlap, cellOf_add_size]
        rw [← s.bus.sequence_congr hsame] at hsequence
        rcases hat.content with ⟨hfree, -⟩ | ⟨hfull, -⟩ <;> omega
      · rcases hat.content with hfree | ⟨hfull, hlt, hmessage⟩
        · exact Or.inl hfree
        · exact Or.inr ⟨hfull, (hpos ▸ hlt).trans (Nat.lt_succ_self pos), hwon _ _ hmessage⟩
    knows := by
      refine knows_update ⟨Nat.lt_succ_self pos, hsequence, ?_⟩ fun j _ ↦ ?_
      · rw [← hlength, getElem?_concat_length]
      · refine (hs.knows j).frame (hpos ▸ Nat.le_succ pos) (le_refl _) hwon (fun habsurd ↦ ?_)
          (fun _ hready ↦ hready) fun _ _ ↦ ⟨rfl, rfl⟩
        change pos + 1 = s.bus.enqueuePos at habsurd
        omega
    apart := by
      refine apart_update hs.apart fun p hp j _ hj ↦ ?_
      cases hp
      have hle := hs.dequeue_le
      rcases hs.sequence_owned hj with ⟨-, hlt⟩ | ⟨-, hlt⟩ <;> omega
    published := fun p m hmem ↦
      ⟨hwon p m (hs.published p m hmem).1, (hs.published p m hmem).2⟩
    returned := fun p m hmem ↦ ⟨hwon p m (hs.returned p m hmem).1, (hs.returned p m hmem).2⟩
    nodup := hs.nodup }

theorem Inv.write (hs : s.Inv) (hpc : s.pc i = .publishWrite message pos) :
    (s.settle i (s.bus.setMessage pos message) (.goesOn (.publishStore message pos))).Inv := by
  have hown : (s.pc i).owned = some pos := congrArg Pc.owned hpc
  have hknows := hs.knows i
  rw [hpc] at hknows
  obtain ⟨hlt, hsequence, hwon⟩ := hknows
  rw [settle_goesOn s i _ rfl]
  exact {
    dequeue_le := hs.dequeue_le
    length_won := hs.length_won
    cell := by
      intro p
      obtain ⟨current, hcell, hat⟩ := hs.cell p
      refine ⟨current, hcell, hat.enqueue_le, hat.lt_dequeue, ?_⟩
      rw [setMessage_sequence, setMessage_message]
      rcases hat.content with hfree | ⟨hfull, hlt, hmessage⟩
      · exact Or.inl hfree
      · have hne : cellOf current ≠ cellOf pos := by
          intro hsame
          have habsurd := s.bus.sequence_congr hsame
          rw [hfull, hsequence] at habsurd
          exact cellOf_succ_ne current (habsurd ▸ hsame)
        rw [if_neg hne]
        exact Or.inr ⟨hfull, hlt, hmessage⟩
    knows := by
      refine knows_update ⟨hlt, ?_, hwon, ?_⟩ fun j hne ↦ ?_
      · rw [setMessage_sequence, hsequence]
      · rw [setMessage_message, if_pos rfl]
      · refine (hs.knows j).frame (le_refl _) (le_refl _) (fun _ _ hm ↦ hm) (fun _ hfree ↦ ?_)
          (fun _ hready ↦ ?_) fun p hp ↦ ⟨setMessage_sequence .., ?_⟩
        · rw [setMessage_sequence, hfree]
        · rw [setMessage_sequence, hready]
        · rw [setMessage_message, if_neg (hs.cellOf_ne hne hown hp)]
    apart := apart_update hs.apart fun p hp j hne hj ↦ by
      cases hp
      exact hne (hs.apart j i pos hj hown)
    published := by
      intro p m hmem
      rw [setMessage_sequence]
      exact hs.published p m hmem
    returned := by
      intro p m hmem
      rw [setMessage_sequence]
      exact hs.returned p m hmem
    nodup := hs.nodup }

theorem Inv.publishStore (hs : s.Inv) (hpc : s.pc i = .publishStore message pos) :
    (s.settle i (s.bus.setSequence pos (pos + 1)) (.published pos message)).Inv := by
  have hown : (s.pc i).owned = some pos := congrArg Pc.owned hpc
  have hknows := hs.knows i
  rw [hpc] at hknows
  obtain ⟨hlt, hsequence, hwon, hwritten⟩ := hknows
  obtain ⟨hcurrent, hle⟩ := hs.cellAt_free hsequence
  rw [settle_published]
  exact {
    dequeue_le := hs.dequeue_le
    length_won := hs.length_won
    cell := by
      refine hs.cell_setSequence rfl ⟨hcurrent.enqueue_le, hcurrent.lt_dequeue, Or.inr ?_⟩
      rw [setSequence_sequence, if_pos rfl, setSequence_message,
        hwritten]
      exact ⟨rfl, hlt, hwon⟩
    knows := knows_update trivial fun j hne ↦ hs.knows_setSequence hown _ hne
    apart := apart_update hs.apart fun p hp ↦ nomatch hp
    published := by
      intro p m hmem
      rcases List.mem_append.mp hmem with hold | hnew
      · obtain ⟨hm, hkept⟩ := hs.published p m hold
        refine ⟨hm, hkept.imp_right fun hfull ↦ ?_⟩
        have hother : cellOf p ≠ cellOf pos := by
          intro hsame
          have habsurd := s.bus.sequence_congr hsame
          rw [hfull, hsequence] at habsurd
          exact cellOf_succ_ne p (habsurd ▸ hsame)
        rw [setSequence_sequence, if_neg hother, hfull]
      · cases List.mem_singleton.mp hnew
        refine ⟨hwon, Or.inr ?_⟩
        rw [setSequence_sequence, if_pos rfl]
    returned := fun p m hmem ↦
      ⟨(hs.returned p m hmem).1, (hs.returned p m hmem).2.trans
        (sequence_le_setSequence s.bus (hsequence.trans_le (Nat.le_succ pos)) p)⟩
    nodup := hs.nodup }

/-! ## The steps of a dequeue -/

theorem Inv.winDequeue (hs : s.Inv) (hpc : s.pc i = .dequeueExchange pos)
    (hpos : s.bus.dequeuePos = pos) :
    (s.settle i { s.bus with dequeuePos := pos + 1 } (.goesOn (.dequeueRead pos))).Inv := by
  have hsequence : s.bus.sequence pos = pos + 1 := by
    have hknows := hs.knows i
    rw [hpc] at hknows
    exact hknows.2 hpos
  obtain ⟨hcurrent, hlt, hwon⟩ := hs.cellAt_full hsequence
  rw [settle_goesOn s i _ rfl]
  exact {
    dequeue_le := hlt
    length_won := hs.length_won
    cell := by
      intro p
      obtain ⟨current, hcell, hat⟩ := hs.cell p
      refine ⟨current, hcell, hat.enqueue_le, ?_, ?_⟩
      · have hle := hat.lt_dequeue
        change current < pos + 1 + 8192
        omega
      · rcases hat.content with ⟨hfree, hle⟩ | hfull
        · refine Or.inl ⟨hfree, ?_⟩
          have hne : current ≠ pos := by
            rintro rfl
            rw [hsequence] at hfree
            omega
          change pos + 1 ≤ current
          omega
        · exact Or.inr hfull
    knows := by
      refine knows_update ⟨Nat.lt_succ_self pos, hsequence⟩ fun j _ ↦ (hs.knows j).frame (le_refl _)
        (hpos ▸ Nat.le_succ pos) (fun _ _ hm ↦ hm) (fun _ hfree ↦ hfree) (fun habsurd ↦ ?_)
        fun _ _ ↦ ⟨rfl, rfl⟩
      change pos + 1 = s.bus.dequeuePos at habsurd
      omega
    apart := by
      refine apart_update hs.apart fun p hp j _ hj ↦ ?_
      cases hp
      rcases hs.sequence_owned hj with ⟨habsurd, -⟩ | ⟨-, hlt⟩ <;> omega
    published := hs.published
    returned := hs.returned
    nodup := hs.nodup }

theorem Inv.dequeueStore (hs : s.Inv) (hpc : s.pc i = .dequeueStore pos message) :
    (s.settle i (s.bus.setSequence pos (pos + ipcQueueSize)) (.returned pos message)).Inv := by
  have hown : (s.pc i).owned = some pos := congrArg Pc.owned hpc
  have hknows := hs.knows i
  rw [hpc] at hknows
  obtain ⟨hlt, hsequence, hread⟩ := hknows
  obtain ⟨hcurrent, -, hwon⟩ := hs.cellAt_full hsequence
  have hle := hs.dequeue_le
  have hlap := hcurrent.enqueue_le
  rw [ipcQueueSize, settle_returned]
  exact {
    dequeue_le := hs.dequeue_le
    length_won := hs.length_won
    cell := by
      refine hs.cell_setSequence (cellOf_add_size pos) ⟨?_, ?_, Or.inl ?_⟩
      · change s.bus.enqueuePos ≤ _
        omega
      · change _ < s.bus.dequeuePos + 8192
        omega
      · rw [setSequence_sequence, if_pos (cellOf_add_size pos)]
        exact ⟨rfl, hle.trans hlap⟩
    knows := knows_update (Call.knows_resume_returned ..) fun j hne ↦
      hs.knows_setSequence hown _ hne
    apart := apart_update hs.apart fun p hp ↦ by
      rw [Call.owned_resume_returned] at hp
      cases hp
    published := by
      intro p m hmem
      obtain ⟨hm, hkept⟩ := hs.published p m hmem
      refine ⟨hm, ?_⟩
      rcases hkept with hold | hfull
      · exact Or.inl (mem_append_left _ hold)
      · by_cases hsame : cellOf p = cellOf pos
        · have hposition : p = pos := by
            have habsurd := s.bus.sequence_congr hsame
            rw [hfull, hsequence] at habsurd
            omega
          rw [hposition, hwon, hread] at hm
          rw [hposition, Option.some.inj hm]
          exact Or.inl (mem_append_right _ mem_cons_self)
        · rw [setSequence_sequence, if_neg hsame]
          exact Or.inr hfull
    returned := by
      intro p m hmem
      rcases List.mem_append.mp hmem with hold | hnew
      · have hle : s.bus.sequence pos ≤ pos + 8192 := by omega
        have hmono := sequence_le_setSequence s.bus hle p
        exact ⟨(hs.returned p m hold).1, (hs.returned p m hold).2.trans hmono⟩
      · cases List.mem_singleton.mp hnew
        refine ⟨hread ▸ hwon, ?_⟩
        rw [setSequence_sequence, if_pos rfl]
    nodup := by
      rw [map_append, nodup_append']
      refine ⟨hs.nodup, nodup_singleton _, fun p hp hnew ↦ ?_⟩
      cases List.mem_singleton.mp hnew
      obtain ⟨⟨q, m⟩, hmem, hq⟩ := List.mem_map.mp hp
      have hreleased := (hs.returned q m hmem).2
      change q = pos at hq
      rw [hq, hsequence] at hreleased
      omega }

/-! ## Every step -/

theorem Inv.step (hs : s.Inv) {event : BusEvent ι} {s' : BusState ι}
    (hstep : (busMachine ι).step s event = some s') : s'.Inv := by
  cases event with
  | call i c =>
    simp only [busMachine] at hstep
    split at hstep
    · cases hstep
      exact hs.begin i c
    · cases hstep
  | step i spurious =>
    obtain ⟨⟨bus, outcome⟩, hadvance, rfl⟩ := Option.map_eq_some_iff.mp hstep
    have hknows := hs.knows i
    cases hpc : s.pc i with
    | idle =>
      rw [hpc] at hadvance
      cases hadvance
    | publishBegin message =>
      rw [hpc] at hadvance
      cases hadvance
      exact hs.read rfl rfl rfl (fun _ hp ↦ nomatch hp) (le_refl _)
    | publishCell message pos =>
      rw [hpc] at hadvance hknows
      rw [InterAgentBus.advance] at hadvance
      split at hadvance
      case isTrue hdiff =>
        cases hadvance
        exact hs.read rfl rfl rfl (fun _ hp ↦ nomatch hp) ⟨hknows, fun _ ↦ by omega⟩
      case isFalse =>
        split at hadvance
        case isTrue =>
          cases hadvance
          refine hs.read rfl rfl rfl (fun _ hp ↦ ?_) (Call.knows_resume_refused ..)
          rw [Call.owned_resume_refused] at hp
          cases hp
        case isFalse =>
          cases hadvance
          exact hs.read rfl rfl rfl (fun _ hp ↦ nomatch hp) trivial
    | publishExchange message pos =>
      rw [hpc, InterAgentBus.advance] at hadvance
      split at hadvance
      case isTrue hexchange =>
        cases hadvance
        exact hs.winPublish hpc hexchange.1
      case isFalse =>
        cases hadvance
        exact hs.read rfl rfl rfl (fun _ hp ↦ nomatch hp) (le_refl _)
    | publishWrite message pos =>
      rw [hpc] at hadvance
      cases hadvance
      exact hs.write hpc
    | publishStore message pos =>
      rw [hpc] at hadvance
      cases hadvance
      exact hs.publishStore hpc
    | dequeueBegin =>
      rw [hpc] at hadvance
      cases hadvance
      exact hs.read rfl rfl rfl (fun _ hp ↦ nomatch hp) (le_refl _)
    | dequeueCell pos =>
      rw [hpc] at hadvance hknows
      rw [InterAgentBus.advance] at hadvance
      split at hadvance
      case isTrue hdiff =>
        cases hadvance
        exact hs.read rfl rfl rfl (fun _ hp ↦ nomatch hp) ⟨hknows, fun _ ↦ by omega⟩
      case isFalse =>
        split at hadvance <;> cases hadvance <;>
          exact hs.read rfl rfl rfl (fun _ hp ↦ nomatch hp) trivial
    | dequeueExchange pos =>
      rw [hpc, InterAgentBus.advance] at hadvance
      split at hadvance
      case isTrue hexchange =>
        cases hadvance
        exact hs.winDequeue hpc hexchange.1
      case isFalse =>
        cases hadvance
        exact hs.read rfl rfl rfl (fun _ hp ↦ nomatch hp) (le_refl _)
    | dequeueRead pos =>
      rw [hpc] at hadvance hknows
      cases hadvance
      exact hs.read rfl rfl rfl (fun _ hp ↦ (congrArg Pc.owned hpc).trans hp)
        ⟨hknows.1, hknows.2, rfl⟩
    | dequeueStore pos message =>
      rw [hpc] at hadvance
      cases hadvance
      exact hs.dequeueStore hpc

end BusState

end SoulSystem.Ipc
