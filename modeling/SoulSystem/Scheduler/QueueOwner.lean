import SoulSystem.Scheduler.QueueSafety
import Mathlib.Data.Fintype.Basic

/-!
# The task deque with one owner

When one thread makes all the pushes and pops, the tail it has read cannot move and no other thread
is changing it, so the races are all that can go wrong.
-/

namespace SoulSystem.Scheduler

open Library Function

variable {ι τ : Type}

/-- Only the owner pushes and pops. -/
def DequeEvent.OwnedBy (owner : ι) : DequeEvent ι τ → Prop
  | .call i (.push _) | .call i .pop => i = owner
  | _ => True

/-- The thread is in no push and in no pop. -/
def Pc.Stealing : Pc τ → Prop
  | .idle | .stealBegin | .stealTail _ | .stealExchange _ | .stealTake _ _ => True
  | _ => False

/-- What the tail is to the owner where it stands. -/
def Pc.ReadTail (pc : Pc τ) (tail : ℕ) : Prop :=
  match pc with
  | .pushHead _ t | .pushWrite _ t _ => tail = t
  | .popStore t => t < 2 ^ 64 ∧ tail = wrappingAdd t 1
  | _ => True

theorem wrappingAdd_lt (a b : ℕ) : wrappingAdd a b < 2 ^ 64 :=
  Nat.mod_lt _ (Nat.two_pow_pos 64)

theorem wrappingSub_lt (a b : ℕ) : wrappingSub a b < 2 ^ 64 :=
  Nat.mod_lt _ (Nat.two_pow_pos 64)

theorem wrappingAdd_wrappingSub {a : ℕ} (ha : a < 2 ^ 64) : wrappingAdd (wrappingSub a 1) 1 = a := by
  rw [wrappingAdd, wrappingSub]
  omega

theorem Pc.not_busy_of_stealing {pc : Pc τ} (hstealing : pc.Stealing) : ¬ pc.Busy := by
  cases pc with
  | pushStore => exact hstealing.elim
  | popHead => exact hstealing.elim
  | popTake => exact hstealing.elim
  | popExchange => exact hstealing.elim
  | popRestore => exact hstealing.elim
  | _ => exact id

/-- A step of a stealing thread leaves the tail and goes on stealing. -/
theorem advance_stealing {d d' : LockFreeTaskDeque τ} {pc : Pc τ} {outcome : Outcome τ}
    (hstealing : pc.Stealing) (hadvance : d.advance pc = some (d', outcome)) :
    d'.tail = d.tail ∧ outcome.next.Stealing := by
  cases pc with
  | idle => cases hadvance
  | stealBegin =>
    cases hadvance
    exact ⟨rfl, trivial⟩
  | stealTail h =>
    rw [LockFreeTaskDeque.advance] at hadvance
    split at hadvance <;> cases hadvance <;> exact ⟨rfl, trivial⟩
  | stealExchange h =>
    rw [LockFreeTaskDeque.advance] at hadvance
    split at hadvance <;> cases hadvance <;> exact ⟨rfl, trivial⟩
  | stealTake h found =>
    cases hadvance
    exact ⟨rfl, trivial⟩
  | _ => exact hstealing.elim

/-- A step of the owner leaves it with a tail that it has read. -/
theorem advance_readTail {d d' : LockFreeTaskDeque τ} {pc : Pc τ} {outcome : Outcome τ}
    (hlt : d.tail < 2 ^ 64) (hread : pc.ReadTail d.tail)
    (hadvance : d.advance pc = some (d', outcome)) :
    d'.tail < 2 ^ 64 ∧ outcome.next.ReadTail d'.tail := by
  cases pc with
  | idle => cases hadvance
  | pushBegin task =>
    cases hadvance
    exact ⟨hlt, rfl⟩
  | pushHead task t =>
    rw [LockFreeTaskDeque.advance] at hadvance
    split at hadvance
    · cases hadvance
      exact ⟨hlt, trivial⟩
    · cases hadvance
      exact ⟨hlt, hread⟩
  | pushWrite task t h =>
    cases hadvance
    exact ⟨hlt, trivial⟩
  | pushStore task t =>
    cases hadvance
    exact ⟨wrappingAdd_lt t 1, trivial⟩
  | popBegin =>
    cases hadvance
    exact ⟨hlt, wrappingSub_lt d.tail 1, (wrappingAdd_wrappingSub hlt).symm⟩
  | popStore t =>
    cases hadvance
    exact ⟨hread.1, trivial⟩
  | popHead t =>
    rw [LockFreeTaskDeque.advance] at hadvance
    split at hadvance <;> cases hadvance <;> exact ⟨hlt, trivial⟩
  | popTake t h =>
    rw [LockFreeTaskDeque.advance] at hadvance
    split at hadvance <;> cases hadvance <;> exact ⟨hlt, trivial⟩
  | popExchange t task =>
    rw [LockFreeTaskDeque.advance] at hadvance
    split at hadvance <;> cases hadvance <;> exact ⟨hlt, trivial⟩
  | popRestore t task =>
    cases hadvance
    exact ⟨wrappingAdd_lt t 1, trivial⟩
  | stealBegin =>
    cases hadvance
    exact ⟨hlt, trivial⟩
  | stealTail h =>
    rw [LockFreeTaskDeque.advance] at hadvance
    split at hadvance <;> cases hadvance <;> exact ⟨hlt, trivial⟩
  | stealExchange h =>
    rw [LockFreeTaskDeque.advance] at hadvance
    split at hadvance <;> cases hadvance <;> exact ⟨hlt, trivial⟩
  | stealTake h found =>
    cases hadvance
    exact ⟨hlt, trivial⟩

namespace DequeState

/-- One thread makes all the pushes and pops. -/
structure Owner (s : DequeState ι τ) (owner : ι) : Prop where
  tail_lt : s.deque.tail < 2 ^ 64
  stealing : ∀ i, i ≠ owner → (s.pc i).Stealing
  readTail : (s.pc owner).ReadTail s.deque.tail

theorem owner_new (owner : ι) : (new : DequeState ι τ).Owner owner where
  tail_lt := Nat.two_pow_pos 64
  stealing := fun _ _ ↦ trivial
  readTail := trivial

variable {s : DequeState ι τ} {owner : ι}

/-- With one owner no push or pop meets another one. -/
theorem Owner.exclusive (hs : s.Owner owner) (event : DequeEvent ι τ) : s.Exclusive event := by
  have hothers : ∀ i, ¬ (s.pc i).Stealing → i = owner := by
    intro i hnot
    by_contra hne
    exact hnot (hs.stealing i hne)
  have hfree : ∀ i, ¬ (s.pc i).Stealing → ¬ (s.pc i).Busy → ∀ j, ¬ (s.pc j).Busy := by
    intro i hnot hbusy j
    by_cases hsame : j = i
    · exact hsame ▸ hbusy
    · exact Pc.not_busy_of_stealing (hs.stealing j fun hj ↦ hsame (hj.trans (hothers i hnot).symm))
  cases event with
  | call => trivial
  | step i =>
    rw [Exclusive]
    cases hpc : s.pc i with
    | pushWrite task t h =>
      have hnot : ¬ (s.pc i).Stealing := by
        rw [hpc]
        exact id
      have hread := hs.readTail
      rw [← hothers i hnot, hpc] at hread
      exact ⟨hread, hfree i hnot (by rw [hpc]; exact id)⟩
    | popStore t =>
      have hnot : ¬ (s.pc i).Stealing := by
        rw [hpc]
        exact id
      have hread := hs.readTail
      rw [← hothers i hnot, hpc] at hread
      exact ⟨hread.2, hfree i hnot (by rw [hpc]; exact id)⟩
    | _ => trivial

variable [DecidableEq ι]

theorem Owner.update (hs : s.Owner owner) {i : ι} {d : LockFreeTaskDeque τ} {new : Pc τ}
    {accepted returned : Multiset τ} (hlt : d.tail < 2 ^ 64)
    (hothers : i ≠ owner → d.tail = s.deque.tail ∧ new.Stealing)
    (hown : i = owner → new.ReadTail d.tail) :
    (DequeState.mk d (update s.pc i new) accepted returned).Owner owner where
  tail_lt := hlt
  stealing := by
    intro j hj
    dsimp only
    by_cases hsame : j = i
    · rw [hsame, update_self]
      exact (hothers (hsame ▸ hj)).2
    · rw [update_of_ne hsame]
      exact hs.stealing j hj
  readTail := by
    dsimp only
    by_cases hsame : owner = i
    · rw [hsame, update_self]
      exact hown hsame.symm
    · rw [update_of_ne hsame, (hothers (Ne.symm hsame)).1]
      exact hs.readTail

theorem Owner.step (hs : s.Owner owner) {event : DequeEvent ι τ} (howned : event.OwnedBy owner)
    {s' : DequeState ι τ} (hstep : (dequeMachine ι τ).step s event = some s') : s'.Owner owner := by
  cases event with
  | call i c =>
    simp only [dequeMachine] at hstep
    cases hpc : s.pc i with
    | idle =>
      rw [hpc] at hstep
      cases hstep
      cases c with
      | push task => exact hs.update hs.tail_lt (fun hne ↦ absurd howned hne) fun _ ↦ trivial
      | pop => exact hs.update hs.tail_lt (fun hne ↦ absurd howned hne) fun _ ↦ trivial
      | steal => exact hs.update hs.tail_lt (fun _ ↦ ⟨rfl, trivial⟩) fun _ ↦ trivial
    | _ =>
      rw [hpc] at hstep
      cases hstep
  | step i =>
    obtain ⟨⟨d, outcome⟩, hadvance, rfl⟩ := Option.map_eq_some_iff.mp hstep
    rw [settle_eq]
    by_cases hsame : i = owner
    · obtain ⟨hlt, hread⟩ := advance_readTail hs.tail_lt (hsame ▸ hs.readTail) hadvance
      exact hs.update hlt (fun hne ↦ absurd hsame hne) fun _ ↦ hread
    · obtain ⟨htail, hstealing⟩ := advance_stealing (hs.stealing i hsame) hadvance
      exact hs.update (htail ▸ hs.tail_lt) (fun _ ↦ ⟨htail, hstealing⟩) fun h ↦ absurd h hsame

/-! ## Exactly once, or a race -/

/-- **Exactly once with one owner**, in every interleaving without a race. -/
theorem exactlyOnce_of_raceFree (owner : ι) (events : List (DequeEvent ι τ)) (s : DequeState ι τ)
    (howned : ∀ event ∈ events, event.OwnedBy owner)
    (hrace : (dequeMachine ι τ).Meets RaceFree new events)
    (hrun : (dequeMachine ι τ).run new events = some s) : s.ExactlyOnce := by
  have hboth := (Machine.meets_of_forall howned).and hrace
  have hkeeps : ∀ (s : DequeState ι τ) (event : DequeEvent ι τ) (s' : DequeState ι τ),
      s.Owner owner → event.OwnedBy owner ∧ s.RaceFree event →
        (dequeMachine ι τ).step s event = some s' → s'.Owner owner :=
    fun _ _ _ hs hok hstep ↦ hs.step hok.1 hstep
  have hsafe := Machine.meets_of_inv hkeeps
    (fun _ event hs hok ↦ (⟨hok.2, hs.exclusive event⟩ : Safe _ event)) (owner_new owner) hboth
  exact exactlyOnce_of_safe hsafe hrun

section Runs

variable [Fintype ι]

instance (s : DequeState ι τ) (index : ℕ) : Decidable (s.Untouched index) :=
  inferInstanceAs (Decidable (∀ _, _))

instance (s : DequeState ι τ) (pc : Pc τ) : Decidable (s.RaceFreeAt pc) :=
  match pc with
  | .pushWrite _ _ _ => inferInstanceAs (Decidable (_ ∧ _))
  | .popTake _ _ => inferInstanceAs (Decidable (_ → _))
  | .popExchange _ _ => inferInstanceAs (Decidable (_ → _))
  | .stealExchange _ => inferInstanceAs (Decidable (_ → _))
  | .idle | .pushBegin _ | .pushHead _ _ | .pushStore _ _ | .popBegin | .popStore _ | .popHead _
  | .popRestore _ _ | .stealBegin | .stealTail _ | .stealTake _ _ => isTrue trivial

instance (s : DequeState ι τ) (event : DequeEvent ι τ) : Decidable (s.RaceFree event) :=
  match event with
  | .call _ _ => isTrue trivial
  | .step i => inferInstanceAs (Decidable (s.RaceFreeAt (s.pc i)))

end Runs

/-- One thread pushes a task and another one steals it. -/
def pushThenSteal : List (DequeEvent Bool ℕ) :=
  [.call true (.push 7), .step true, .step true, .step true, .step true,
    .call false .steal, .step false, .step false, .step false, .step false]

theorem exactlyOnce_pushThenSteal :
    ∃ s, (dequeMachine Bool ℕ).run new pushThenSteal = some s ∧ s.ExactlyOnce := by
  have hsome : ((dequeMachine Bool ℕ).run new pushThenSteal).isSome = true := by decide +kernel
  obtain ⟨s, hrun⟩ := Option.isSome_iff_exists.mp hsome
  have howned : ∀ event ∈ pushThenSteal, event.OwnedBy true := by
    simp [pushThenSteal, DequeEvent.OwnedBy]
  have hrace : (dequeMachine Bool ℕ).Meets RaceFree new pushThenSteal := by decide +kernel
  exact ⟨s, hrun, exactlyOnce_of_raceFree true pushThenSteal s howned hrace hrun⟩

/-- A stealer wins the last index after the owner has emptied its slot, and both return nothing. -/
def bothReturnNothing : List (DequeEvent Bool ℕ) :=
  [.call true (.push 7), .step true, .step true, .step true, .step true,
    .call false .steal, .step false, .step false,
    .call true .pop, .step true, .step true, .step true, .step true,
    .step false, .step false, .step true, .step true]

theorem not_exactlyOnce_bothReturnNothing :
    ¬ ∀ (events : List (DequeEvent Bool ℕ)) (s : DequeState Bool ℕ),
      (∀ event ∈ events, event.OwnedBy true) → (dequeMachine Bool ℕ).run new events = some s →
        s.ExactlyOnce := by
  intro hall
  have hend : ((dequeMachine Bool ℕ).run new bothReturnNothing).map
      (fun s ↦ decide (s.accepted = {7} ∧ s.returned = 0 ∧ s.deque.head = 1 ∧ s.deque.tail = 1 ∧
        s.pc true = .idle ∧ s.pc false = .idle)) = some true := by decide +kernel
  obtain ⟨s, hrun, hs⟩ := Option.map_eq_some_iff.mp hend
  obtain ⟨haccepted, hreturned, hhead, htail, howner, hstealer⟩ := of_decide_eq_true hs
  have howned : ∀ event ∈ bothReturnNothing, event.OwnedBy true := by
    simp [bothReturnNothing, DequeEvent.OwnedBy]
  have hbalance := (hall bothReturnNothing s howned hrun).balance fun i ↦ by
    cases i
    · exact hstealer
    · exact howner
  rw [haccepted, hreturned, held, hhead, htail, Finset.Ico_self, Finset.sum_empty] at hbalance
  exact absurd hbalance (by decide)

end DequeState

end SoulSystem.Scheduler
