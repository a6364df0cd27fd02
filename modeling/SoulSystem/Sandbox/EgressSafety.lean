import SoulSystem.Sandbox.Egress

/-!
# Egress supervision is fail-closed

As long as no call stores its socket while the cell holds another one, and `execute_with_stdin`
forks no child, every child that reaches exec has installed a listener that its own call takes to a
supervisor.  The cell belongs to the call whose socket it holds, from the store to the swap.

Without the condition both fail: a child of `execute_with_stdin` has no listener, and two calls at
once take each other's socket.
-/

namespace SoulSystem.Sandbox.Egress

open Library List

variable {ι P : Type}

/-! ## What a call still uses -/

namespace Pc

/-- The descriptors that a call still has to use, and what they have to stand for. -/
def uses : Pc → List (Fd × End)
  | .paired _ own | .stored _ own | .ready _ (some own) _ | .running _ (some own) _
  | .spawned _ own _ | .swapped _ own _ _ =>
    [(own.parent, own.parentEnd), (own.child, own.childEnd)]
  | .released _ own _ | .received _ own _ => [(own.parent, own.parentEnd)]
  | _ => []

/-- The socket pair of a call. -/
def owned : Pc → Option ℕ
  | .paired _ own | .stored _ own | .ready _ (some own) _ | .running _ (some own) _
  | .spawned _ own _ | .swapped _ own _ _ | .released _ own _ | .received _ own _ => some own.pair
  | _ => none

/-- The call is between its store and its swap. -/
def holding : Pc → Option Sockets
  | .stored _ own | .ready _ (some own) _ | .running _ (some own) _ | .spawned _ own _ => some own
  | _ => none

/-- A call with the listener of its child on the way to it. -/
def holds (queue : End → List ℕ) : Pc → Option (ℕ × ℕ)
  | .spawned call own true | .swapped call own true _ | .released call own true =>
    (queue own.parentEnd).head?.map fun listener ↦ (call, listener)
  | .received call _ listener | .listening call listener => some (call, listener)
  | _ => none

/-- A call of `execute_with_stdin` is about to fork. -/
def withoutSockets : Pc → Bool
  | .ready _ none _ => true
  | _ => false

end Pc

/-! ## The property -/

namespace EgressState

variable (s : EgressState ι P) (policy : P)

/-- The listener of a child is with a supervisor that the child's own call started, or on its way
there. -/
def Handed (child : Child) (listener : ℕ) : Prop :=
  ⟨child.call, listener, policy⟩ ∈ s.shared.supervisors ∨
    ∃ i, (s.pc i).holds s.shared.queue = some (child.call, listener)

/-- **Fail-closed.**  Every child that has reached exec has installed a listener, which its own call
hands to a supervisor with the policy, and every descriptor that a call still has to use stands for
its socket. -/
structure FailClosed : Prop where
  supervised : ∀ child ∈ s.shared.children, ∃ listener,
    child.listener = some listener ∧ s.Handed policy child listener
  intact : ∀ i, ∀ use ∈ (s.pc i).uses, endAt s.shared.fds use.1 = some use.2

/-- A call stores its socket only while the cell is empty, and `execute_with_stdin` does not
fork. -/
def Exclusive : Event ι → Prop
  | .step _ .store => s.shared.egressChildSock = none
  | .step i .fork => (s.pc i).withoutSockets = false
  | _ => True

instance (event : Event ι) : Decidable (s.Exclusive event) := by
  unfold Exclusive
  split <;> infer_instance

/-! ## The invariant -/

/-- What a call knows about its child and its queue. -/
def Knows (queue : End → List ℕ) : Pc → Prop
  | .paired _ own | .stored _ own => queue own.parentEnd = []
  | .ready _ (some own) egressSock => queue own.parentEnd = [] ∧ egressSock = some own.child
  | .running _ (some own) process =>
    process.egressSock = some own.child ∧ endAt process.fds own.child = some own.childEnd ∧
      (process.sent = false → queue own.parentEnd = []) ∧
      (process.sent = true → ∃ listener, process.listener = some listener ∧
        queue own.parentEnd = [listener])
  | .running _ none _ => False
  | .spawned _ own true | .released _ own true => ∃ listener, queue own.parentEnd = [listener]
  | .swapped _ own ok childSock => childSock = some own.child ∧
      (ok = true → ∃ listener, queue own.parentEnd = [listener])
  | _ => True

structure Inv : Prop extends s.FailClosed policy where
  apart : Threads.Apart Pc.owned s.pc
  made : ∀ i pair, (s.pc i).owned = some pair → pair < s.shared.pairs
  cell : ∀ i own, (s.pc i).holding = some own → s.shared.egressChildSock = some own.child
  knows : ∀ i, Knows s.shared.queue (s.pc i)
  fresh : ∀ e : End, s.shared.pairs ≤ e.pair → s.shared.queue e = []

theorem inv_new (used : Fd → Bool) : (new used : EgressState ι P).Inv policy where
  supervised := fun _ hmem ↦ absurd hmem not_mem_nil
  intact := fun _ _ hmem ↦ absurd hmem not_mem_nil
  apart := fun _ _ _ hi ↦ nomatch hi
  made := fun _ _ hi ↦ nomatch hi
  cell := fun _ _ hi ↦ nomatch hi
  knows := fun _ ↦ trivial
  fresh := fun _ _ ↦ rfl

end EgressState

/-! ## What other steps leave alone -/

section Congr

variable {queue queue' : End → List ℕ} {pc : Pc}

theorem knows_congr
    (hqueue : ∀ pair, pc.owned = some pair → queue' ⟨pair, .parent⟩ = queue ⟨pair, .parent⟩)
    (hknows : EgressState.Knows queue pc) : EgressState.Knows queue' pc := by
  unfold EgressState.Knows at hknows ⊢
  split at hknows <;>
    simp_all [Pc.owned, Sockets.parentEnd]

theorem holds_congr
    (hqueue : ∀ pair, pc.owned = some pair → queue' ⟨pair, .parent⟩ = queue ⟨pair, .parent⟩) :
    pc.holds queue' = pc.holds queue := by
  unfold Pc.holds
  split <;> simp_all [Pc.owned, Sockets.parentEnd]

end Congr

/-! ## Descriptors -/

theorem endAt_update_of_ne {fds : Table} {fd fd' : Fd} (hne : fd' ≠ fd) (entry : Option Entry) :
    endAt (Function.update fds fd entry) fd' = endAt fds fd' := by
  rw [endAt, endAt, Function.update_of_ne hne]

theorem endAt_update_self (fds : Table) (fd : Fd) (e : End) :
    endAt (Function.update fds fd (some (.socket e))) fd = some e := by
  rw [endAt, Function.update_self]

theorem ne_of_endAt {fds : Table} {fd fd' : Fd} {e : End} (hnone : endAt fds fd = none)
    (hsome : endAt fds fd' = some e) : fd' ≠ fd := by
  rintro rfl
  rw [hnone] at hsome
  cases hsome

theorem endAt_of_free {fds : Table} {fd : Fd} (hfree : fds fd = none) : endAt fds fd = none := by
  rw [endAt, hfree]

theorem endAt_of_foreign {fds : Table} {fd : Fd} (hforeign : (fds fd).any Entry.foreign) :
    endAt fds fd = none := by
  unfold endAt
  split
  case h_1 e he =>
    rw [he] at hforeign
    cases hforeign
  case h_2 => rfl

theorem owned_of_mem_uses {pc : Pc} {use : Fd × End} (huse : use ∈ pc.uses) :
    pc.owned = some use.2.pair := by
  unfold Pc.uses at huse
  split at huse <;> simp only [mem_cons, not_mem_nil, or_false] at huse <;>
    rcases huse with rfl | rfl <;> rfl

theorem uses_of_holding {pc : Pc} {own : Sockets} (hholding : pc.holding = some own) :
    (own.child, own.childEnd) ∈ pc.uses := by
  unfold Pc.holding at hholding
  split at hholding <;> cases hholding <;> simp [Pc.uses]

namespace Pc

/-- A call goes on with what it has, or with less. -/
structure Continues (queue : End → List ℕ) (pc pc' : Pc) : Prop where
  uses : ∀ use ∈ pc'.uses, use ∈ pc.uses
  owned : ∀ pair, pc'.owned = some pair → pc.owned = some pair
  holding : ∀ own, pc'.holding = some own → pc.holding = some own
  holds : ∀ held, pc.holds queue = some held → pc'.holds queue = some held

theorem Continues.of_eq {queue : End → List ℕ} {pc pc' : Pc} (huses : pc'.uses = pc.uses)
    (howned : pc'.owned = pc.owned) (hholding : pc'.holding = pc.holding)
    (hholds : pc.holds queue = none) : pc.Continues queue pc' where
  uses := fun _ huse ↦ huses ▸ huse
  owned := fun _ hpair ↦ howned ▸ hpair
  holding := fun _ hown ↦ hholding ▸ hown
  holds := fun held hheld ↦ by
    rw [hholds] at hheld
    cases hheld

end Pc

/-! ## One step of a call -/

namespace EgressState.Inv

variable {s : EgressState ι P} {policy : P} (hs : s.Inv policy)
include hs

/-- Two calls use different descriptors. -/
theorem ne_of_uses {i j : ι} (hne : j ≠ i) {use use' : Fd × End} (huse : use ∈ (s.pc i).uses)
    (huse' : use' ∈ (s.pc j).uses) : use'.1 ≠ use.1 := by
  intro heq
  have hend := hs.intact i use huse
  have hend' := hs.intact j use' huse'
  rw [heq, hend] at hend'
  have howned := owned_of_mem_uses huse
  have howned' := owned_of_mem_uses huse'
  rw [← Option.some.inj hend'] at howned'
  exact hne (hs.apart j i _ howned' howned)

theorem owned_apart {i : ι} {pair : ℕ} (howned : (s.pc i).owned = some pair) :
    pair < s.shared.pairs ∧ ∀ j, j ≠ i → (s.pc j).owned ≠ some pair :=
  ⟨hs.made i pair howned, fun j hji hj ↦ hji (hs.apart j i pair hj howned)⟩

/-- While a call is between its store and its swap, no other call is. -/
theorem not_holding {i j : ι} (hne : j ≠ i) {own : Sockets}
    (hholding : (s.pc i).holding = some own) : (s.pc j).holding = none := by
  cases hother : (s.pc j).holding with
  | none => rfl
  | some own' =>
    have hcell := hs.cell i own hholding
    have hcell' := hs.cell j own' hother
    rw [hcell] at hcell'
    have hdistinct := hs.ne_of_uses hne (uses_of_holding hholding) (uses_of_holding hother)
    exact absurd (Option.some.inj hcell').symm hdistinct

variable [DecidableEq ι] {i : ι} {shared : Shared P} {pc : Pc}

/-- What a step of a call has to keep. -/
theorem move (huses : ∀ use ∈ pc.uses, endAt shared.fds use.1 = some use.2)
    (hfds : ∀ j, j ≠ i → ∀ use ∈ (s.pc j).uses, endAt shared.fds use.1 = endAt s.shared.fds use.1)
    (howned : ∀ pair, pc.owned = some pair →
      pair < shared.pairs ∧ ∀ j, j ≠ i → (s.pc j).owned ≠ some pair)
    (hpairs : s.shared.pairs ≤ shared.pairs)
    (hcell : ∀ own, pc.holding = some own → shared.egressChildSock = some own.child)
    (hcells : ∀ j, j ≠ i → (s.pc j).holding ≠ none →
      shared.egressChildSock = s.shared.egressChildSock)
    (hknows : Knows shared.queue pc)
    (hqueue : ∀ j, j ≠ i → ∀ pair, (s.pc j).owned = some pair →
      shared.queue ⟨pair, .parent⟩ = s.shared.queue ⟨pair, .parent⟩)
    (hfresh : ∀ e : End, shared.pairs ≤ e.pair → shared.queue e = [])
    (hchildren : ∀ child ∈ shared.children, child ∈ s.shared.children ∨
      ∃ listener, child.listener = some listener ∧
        pc.holds shared.queue = some (child.call, listener))
    (hholds : ∀ call listener, (s.pc i).holds s.shared.queue = some (call, listener) →
      pc.holds shared.queue = some (call, listener) ∨
        ⟨call, listener, policy⟩ ∈ shared.supervisors)
    (hsupervisors : s.shared.supervisors ⊆ shared.supervisors) :
    EgressState.Inv { shared, pc := Function.update s.pc i pc } policy where
  supervised := by
    intro child hchild
    rcases hchildren child hchild with hold | ⟨listener, hlistener, hnew⟩
    · obtain ⟨listener, hlistener, hhanded⟩ := hs.supervised child hold
      refine ⟨listener, hlistener, ?_⟩
      rcases hhanded with hsupervisor | ⟨j, hj⟩
      · exact .inl (hsupervisors hsupervisor)
      · by_cases hji : j = i
        · subst hji
          cases hholds _ _ hj with
          | inl hstill => exact .inr ⟨j, by simpa using hstill⟩
          | inr hsupervisor => exact .inl hsupervisor
        · refine .inr ⟨j, ?_⟩
          simp only [Function.update_of_ne hji]
          rw [holds_congr (hqueue j hji), hj]
    · exact ⟨listener, hlistener, .inr ⟨i, by simpa using hnew⟩⟩
  intact := by
    intro j use huse
    by_cases hji : j = i
    · subst hji
      simp only [Function.update_self] at huse
      exact huses use huse
    · simp only [Function.update_of_ne hji] at huse
      rw [hfds j hji use huse, hs.intact j use huse]
  apart := hs.apart.update fun pair hpair ↦ (howned pair hpair).2
  made := by
    intro j pair hpair
    by_cases hji : j = i
    · subst hji
      simp only [Function.update_self] at hpair
      exact (howned pair hpair).1
    · simp only [Function.update_of_ne hji] at hpair
      exact (hs.made j pair hpair).trans_le hpairs
  cell := by
    intro j own hholding
    by_cases hji : j = i
    · subst hji
      simp only [Function.update_self] at hholding
      exact hcell own hholding
    · simp only [Function.update_of_ne hji] at hholding
      rw [hcells j hji (by rw [hholding]; exact Option.some_ne_none own), hs.cell j own hholding]
  knows := by
    intro j
    by_cases hji : j = i
    · subst hji
      simpa using hknows
    · simp only [Function.update_of_ne hji]
      exact knows_congr (hqueue j hji) (hs.knows j)
  fresh := hfresh

/-- A step of a call that touches neither descriptors nor queues nor the cell. -/
theorem withinCall {calls listeners : ℕ} (hshared : shared = { s.shared with calls, listeners })
    (hcontinues : (s.pc i).Continues s.shared.queue pc) (hknows : Knows s.shared.queue pc) :
    EgressState.Inv { shared, pc := Function.update s.pc i pc } policy := by
  subst hshared
  exact hs.move (fun use huse ↦ hs.intact i use (hcontinues.uses use huse)) (fun _ _ _ _ ↦ rfl)
    (fun pair hpair ↦ hs.owned_apart (hcontinues.owned pair hpair)) le_rfl
    (fun own hown ↦ hs.cell i own (hcontinues.holding own hown)) (fun _ _ _ ↦ rfl) hknows
    (fun _ _ _ _ ↦ rfl) hs.fresh (fun _ hmem ↦ .inl hmem)
    (fun _ _ hlistener ↦ .inl (hcontinues.holds _ hlistener)) (List.Subset.refl _)

/-- A spawn that fails leaves the sockets of its call as they are. -/
theorem spawnFails {call : ℕ} {own : Option Sockets}
    (hcontinues : (s.pc i).Continues s.shared.queue (.afterSpawn call false own)) :
    EgressState.Inv
      { shared := s.shared
        pc := Function.update s.pc i (.afterSpawn call false own) } policy := by
  refine hs.withinCall rfl hcontinues ?_
  cases own with
  | none => trivial
  | some own => trivial

theorem socketpair {call : ℕ} {parent child : Fd} (hpc : s.pc i = .begun call)
    (hne : parent ≠ child) (hparent : s.shared.fds parent = none)
    (hchild : s.shared.fds child = none)
    (hshared : shared = { s.shared with
      pairs := s.shared.pairs + 1
      fds := Function.update
        (Function.update s.shared.fds parent (some (.socket ⟨s.shared.pairs, .parent⟩))) child
        (some (.socket ⟨s.shared.pairs, .child⟩)) }) :
    EgressState.Inv
      { shared
        pc := Function.update s.pc i (.paired call ⟨s.shared.pairs, parent, child⟩) } policy := by
  subst hshared
  refine hs.move (fun use huse ↦ ?_) (fun j _ use huse ↦ ?_) (fun pair hpair ↦ ⟨?_, ?_⟩)
    (Nat.le_succ _) (fun own hown ↦ by cases hown) (fun _ _ _ ↦ rfl) (hs.fresh _ le_rfl)
    (fun _ _ _ _ ↦ rfl) (fun e he ↦ hs.fresh e (Nat.le_of_succ_le he)) (fun child hmem ↦ .inl hmem)
    (fun call' listener hlistener ↦ ?_) (List.Subset.refl _)
  · simp only [Pc.uses, mem_cons, not_mem_nil, or_false] at huse
    rcases huse with rfl | rfl
    · rw [endAt_update_of_ne hne, endAt_update_self]
      rfl
    · exact endAt_update_self ..
  · have hend := hs.intact j use huse
    rw [endAt_update_of_ne (ne_of_endAt (endAt_of_free hchild) hend),
      endAt_update_of_ne (ne_of_endAt (endAt_of_free hparent) hend)]
  · cases hpair
    exact Nat.lt_succ_self _
  · intro j _ hj
    cases hpair
    exact absurd (hs.made j _ hj) (Nat.lt_irrefl _)
  · rw [hpc] at hlistener
    cases hlistener

theorem store {call : ℕ} {own : Sockets} (hpc : s.pc i = .paired call own)
    (hempty : s.shared.egressChildSock = none)
    (hshared : shared = { s.shared with egressChildSock := some own.child }) :
    EgressState.Inv { shared, pc := Function.update s.pc i (.stored call own) } policy := by
  subst hshared
  have hknows := hs.knows i
  rw [hpc] at hknows
  refine hs.move (fun use huse ↦ hs.intact i use (by rwa [hpc])) (fun _ _ _ _ ↦ rfl)
    (fun pair howned ↦ hs.owned_apart (by rwa [hpc])) le_rfl (fun own' hown ↦ ?_)
    (fun j _ hholding ↦ ?_) hknows (fun _ _ _ _ ↦ rfl) hs.fresh (fun child hmem ↦ .inl hmem)
    (fun call' listener hlistener ↦ ?_) (List.Subset.refl _)
  · cases hown
    rfl
  · obtain ⟨own', hown⟩ := Option.ne_none_iff_exists'.mp hholding
    have hcell := hs.cell j own' hown
    rw [hempty] at hcell
    cases hcell
  · rw [hpc] at hlistener
    cases hlistener

/-- The listener goes to the call of the child. -/
theorem sendFd {call : ℕ} {own : Sockets} {process : Process} {listener : ℕ}
    (hpc : s.pc i = .running call (some own) process) (hlistener : process.listener = some listener)
    (hsent : process.sent = false)
    (hshared : shared = { s.shared with queue := s.shared.send own.childEnd listener }) :
    EgressState.Inv
      { shared
        pc := Function.update s.pc i (.running call (some own) { process with sent := true }) }
      policy := by
  subst hshared
  have hknows := hs.knows i
  rw [hpc] at hknows
  obtain ⟨hsock, hend, hunsent, -⟩ := hknows
  have hpeer : own.childEnd.peer = own.parentEnd := rfl
  have hself : s.shared.send own.childEnd listener own.parentEnd = [listener] := by
    rw [Shared.send, hpeer, Function.update_self, hunsent hsent]
    rfl
  have hpair : (s.pc i).owned = some own.pair := by rw [hpc]; rfl
  have hother : ∀ e : End, e ≠ own.parentEnd →
      s.shared.send own.childEnd listener e = s.shared.queue e := fun e he ↦
    Function.update_of_ne (by rwa [hpeer]) ..
  refine hs.move (fun use huse ↦ hs.intact i use (by rwa [hpc])) (fun _ _ _ _ ↦ rfl)
    (fun pair howned ↦ hs.owned_apart (by rwa [hpc])) le_rfl
    (fun own' hown ↦ hs.cell i own' (by rwa [hpc])) (fun _ _ _ ↦ rfl)
    ⟨hsock, hend, (fun hfalse ↦ by cases hfalse), fun _ ↦ ⟨listener, hlistener, hself⟩⟩
    (fun j hji pair hj ↦ hother _ fun heq ↦ ?_) (fun e he ↦ ?_) (fun child hmem ↦ .inl hmem)
    (fun call' listener' hheld ↦ ?_) (List.Subset.refl _)
  · cases heq
    exact hji (hs.apart j i own.pair hj hpair)
  · have hmade := hs.made i own.pair hpair
    refine (hother e fun heq ↦ ?_).trans (hs.fresh e he)
    rw [heq] at he
    exact absurd hmade (Nat.not_lt.mpr he)
  · rw [hpc] at hheld
    cases hheld

/-- A child that reaches exec has sent its listener to its call. -/
theorem exec {call : ℕ} {own : Sockets} {process : Process}
    (hpc : s.pc i = .running call (some own) process)
    (hdone : process.egressSock.isSome → process.sent = true)
    (hshared : shared = { s.shared with
      children := s.shared.children ++ [⟨call, process.listener⟩] }) :
    EgressState.Inv { shared, pc := Function.update s.pc i (.spawned call own true) } policy := by
  subst hshared
  have hknows := hs.knows i
  rw [hpc] at hknows
  obtain ⟨hsock, -, -, hsent⟩ := hknows
  obtain ⟨listener, hlistener, hqueue⟩ := hsent (hdone (by rw [hsock]; rfl))
  refine hs.move (fun use huse ↦ hs.intact i use (by rwa [hpc])) (fun _ _ _ _ ↦ rfl)
    (fun pair howned ↦ hs.owned_apart (by rwa [hpc])) le_rfl
    (fun own' hown ↦ hs.cell i own' (by rwa [hpc])) (fun _ _ _ ↦ rfl)
    ⟨listener, hqueue⟩ (fun _ _ _ _ ↦ rfl) hs.fresh (fun child hmem ↦ ?_)
    (fun call' listener' hheld ↦ ?_) (List.Subset.refl _)
  · cases List.mem_append.mp hmem with
    | inl hold => exact .inl hold
    | inr hnew =>
      rw [List.mem_singleton.mp hnew]
      refine .inr ⟨listener, hlistener, ?_⟩
      rw [Pc.holds, hqueue]
      rfl
  · rw [hpc] at hheld
    cases hheld

theorem swap {call : ℕ} {own : Sockets} {ok : Bool} (hpc : s.pc i = .spawned call own ok)
    (hshared : shared = { s.shared with egressChildSock := none }) :
    EgressState.Inv
      { shared
        pc := Function.update s.pc i (.swapped call own ok s.shared.egressChildSock) } policy := by
  subst hshared
  have hholding : (s.pc i).holding = some own := by rw [hpc]; rfl
  have hknows := hs.knows i
  rw [hpc] at hknows
  refine hs.move (fun use huse ↦ hs.intact i use (by rwa [hpc])) (fun _ _ _ _ ↦ rfl)
    (fun pair howned ↦ hs.owned_apart (by rwa [hpc])) le_rfl (fun own' hown ↦ by cases hown)
    (fun j hji hother ↦ ?_)
    ⟨hs.cell i own hholding, fun hok ↦ ?_⟩ (fun _ _ _ _ ↦ rfl) hs.fresh
    (fun child hmem ↦ .inl hmem) (fun call' listener' hheld ↦ .inl ?_) (List.Subset.refl _)
  · exact absurd (hs.not_holding hji hholding) hother
  · subst hok
    exact hknows
  · rw [hpc] at hheld
    cases ok with
    | true => exact hheld
    | false => cases hheld

theorem closeChildSock {call : ℕ} {own : Sockets} {ok : Bool} {childSock : Option Fd}
    (hpc : s.pc i = .swapped call own ok childSock)
    (hshared : shared = { s.shared with fds := childSock.elim s.shared.fds s.shared.close }) :
    EgressState.Inv { shared, pc := Function.update s.pc i (.released call own ok) } policy := by
  subst hshared
  have hknows := hs.knows i
  rw [hpc] at hknows
  obtain ⟨hsock, hqueue⟩ := hknows
  subst hsock
  have hparent : (own.parent, own.parentEnd) ∈ (s.pc i).uses := by rw [hpc]; simp [Pc.uses]
  have hchild : (own.child, own.childEnd) ∈ (s.pc i).uses := by rw [hpc]; simp [Pc.uses]
  have hdistinct : own.parent ≠ own.child := by
    intro heq
    have hsame := hs.intact i _ hparent
    rw [heq, hs.intact i _ hchild] at hsame
    cases hsame
  refine hs.move (fun use huse ↦ ?_) (fun j hji use huse ↦ ?_)
    (fun pair howned ↦ hs.owned_apart (by rwa [hpc])) le_rfl
    (fun own' hown ↦ by cases hown) (fun _ _ _ ↦ rfl) ?_ (fun _ _ _ _ ↦ rfl) hs.fresh
    (fun child hmem ↦ .inl hmem) (fun call' listener' hheld ↦ .inl ?_) (List.Subset.refl _)
  · rw [Pc.uses, mem_singleton] at huse
    rw [huse]
    exact (endAt_update_of_ne hdistinct none).trans (hs.intact i _ hparent)
  · exact endAt_update_of_ne (hs.ne_of_uses hji hchild huse) none
  · cases ok with
    | true => exact hqueue rfl
    | false => trivial
  · rw [hpc] at hheld
    cases ok with
    | true => exact hheld
    | false => cases hheld

/-- What the call receives is the listener of its child. -/
theorem recvFd {call : ℕ} {own : Sockets} {fd : Fd} {e : End} {listener : ℕ}
    (hpc : s.pc i = .released call own true) (he : endAt s.shared.fds own.parent = some e)
    (hhead : (s.shared.queue e).head? = some listener) (hfree : s.shared.fds fd = none)
    (hshared : shared = { s.shared with
      queue := Function.update s.shared.queue e (s.shared.queue e).tail
      fds := Function.update s.shared.fds fd (some (.listener listener)) }) :
    EgressState.Inv { shared, pc := Function.update s.pc i (.received call own listener) }
      policy := by
  subst hshared
  have hparent : (own.parent, own.parentEnd) ∈ (s.pc i).uses := by rw [hpc]; simp [Pc.uses]
  have hend := hs.intact i _ hparent
  rw [he] at hend
  cases hend
  have hpair : (s.pc i).owned = some own.pair := by rw [hpc]; rfl
  refine hs.move (fun use huse ↦ ?_) (fun j hji use huse ↦ ?_)
    (fun pair howned ↦ hs.owned_apart (by rwa [hpc])) le_rfl
    (fun own' hown ↦ by cases hown) (fun _ _ _ ↦ rfl) trivial (fun j hji pair hj ↦ ?_)
    (fun e' he' ↦ ?_) (fun child hmem ↦ .inl hmem) (fun call' listener' hheld ↦ .inl ?_)
    (List.Subset.refl _)
  · rw [Pc.uses, mem_singleton] at huse
    rw [huse]
    exact (endAt_update_of_ne (ne_of_endAt (endAt_of_free hfree) he) _).trans he
  · exact endAt_update_of_ne (ne_of_endAt (endAt_of_free hfree) (hs.intact j use huse)) _
  · refine Function.update_of_ne (fun heq ↦ ?_) ..
    cases heq
    exact hji (hs.apart j i own.pair hj hpair)
  · by_cases heq : e' = own.parentEnd
    · rw [heq] at he'
      exact absurd (hs.made i own.pair hpair) (Nat.not_lt.mpr he')
    · exact (Function.update_of_ne heq ..).trans (hs.fresh e' he')
  · rw [hpc, Pc.holds, hhead] at hheld
    cases hheld
    rfl

theorem closeParent {own : Sockets} (hparent : (own.parent, own.parentEnd) ∈ (s.pc i).uses)
    (huses : pc.uses = []) (howned : pc.owned = none) (hholding : pc.holding = none)
    (hknows : Knows s.shared.queue pc)
    (hholds : ∀ call listener, (s.pc i).holds s.shared.queue = some (call, listener) →
      pc.holds s.shared.queue = some (call, listener))
    (hshared : shared = { s.shared with fds := s.shared.close own.parent }) :
    EgressState.Inv { shared, pc := Function.update s.pc i pc } policy := by
  subst hshared
  refine hs.move (fun use huse ↦ ?_) (fun j hji use huse ↦ ?_) (fun pair hpair ↦ ?_) le_rfl
    (fun own' hown ↦ ?_) (fun _ _ _ ↦ rfl) hknows (fun _ _ _ _ ↦ rfl) hs.fresh
    (fun child hmem ↦ .inl hmem) (fun call' listener' hheld ↦ .inl (hholds call' listener' hheld))
    (List.Subset.refl _)
  · rw [huses] at huse
    cases huse
  · exact endAt_update_of_ne (hs.ne_of_uses hji hparent huse) none
  · rw [howned] at hpair
    cases hpair
  · rw [hholding] at hown
    cases hown

theorem supervise {call listener : ℕ} (hpc : s.pc i = .listening call listener)
    (hshared : shared = { s.shared with
      supervisors := s.shared.supervisors ++ [⟨call, listener, policy⟩] }) :
    EgressState.Inv { shared, pc := Function.update s.pc i .idle } policy := by
  subst hshared
  refine hs.move (fun use huse ↦ by cases huse) (fun _ _ _ _ ↦ rfl)
    (fun pair hpair ↦ by cases hpair) le_rfl (fun own' hown ↦ by cases hown) (fun _ _ _ ↦ rfl)
    trivial (fun _ _ _ _ ↦ rfl) hs.fresh (fun child hmem ↦ .inl hmem)
    (fun call' listener' hheld ↦ .inr ?_) (subset_append_left _ _)
  rw [hpc] at hheld
  cases hheld
  exact mem_append_right _ (List.mem_singleton.mpr rfl)

theorem advance {action : Action} {next : Shared P × Pc}
    (hexclusive : s.Exclusive (.step i action))
    (hstep : s.shared.advance policy action (s.pc i) = some next) :
    EgressState.Inv { shared := next.1, pc := Function.update s.pc i next.2 } policy := by
  have hknows := hs.knows i
  unfold Shared.advance at hstep
  split at hstep
  case h_1 kind hpc =>
    cases hstep
    refine hs.withinCall rfl ?_ ?_
    · rw [hpc]
      split <;> exact .of_eq rfl rfl rfl rfl
    · dsimp only
      split <;> trivial
  case h_2 parent child call hpc =>
    split at hstep
    case isTrue hfree =>
      cases hstep
      exact hs.socketpair hpc hfree.1 hfree.2.1 hfree.2.2 rfl
    case isFalse => cases hstep
  case h_3 call hpc =>
    cases hstep
    exact hs.withinCall rfl (by rw [hpc]; exact .of_eq rfl rfl rfl rfl) trivial
  case h_4 call own hpc =>
    cases hstep
    exact hs.store hpc hexclusive rfl
  case h_5 call own hpc =>
    cases hstep
    have hholding : (s.pc i).holding = some own := by rw [hpc]; rfl
    rw [hpc] at hknows
    exact hs.withinCall rfl (by rw [hpc]; exact .of_eq rfl rfl rfl rfl)
      ⟨hknows, hs.cell i own hholding⟩
  case h_6 call hpc =>
    cases hstep
    exact hs.withinCall rfl (by rw [hpc]; exact .of_eq rfl rfl rfl rfl) trivial
  case h_7 call own egressSock hpc =>
    cases hstep
    cases own with
    | none =>
      have hforks : (s.pc i).withoutSockets = false := hexclusive
      rw [hpc] at hforks
      cases hforks
    | some own =>
      have hchild : (own.child, own.childEnd) ∈ (s.pc i).uses := by rw [hpc]; simp [Pc.uses]
      rw [hpc] at hknows
      refine hs.withinCall rfl (by rw [hpc]; exact .of_eq rfl rfl rfl rfl)
        ⟨hknows.2, hs.intact i _ hchild, fun _ ↦ hknows.1, fun hsent ↦ ?_⟩
      cases hsent
  case h_8 call own egressSock hpc =>
    cases hstep
    refine hs.spawnFails ?_
    rw [hpc]
    cases own with
    | none => exact .of_eq rfl rfl rfl rfl
    | some own => exact .of_eq rfl rfl rfl rfl
  case h_9 call own process hpc =>
    rw [hpc] at hknows
    split at hstep
    case isTrue hnew =>
      cases hstep
      cases own with
      | none => exact hknows.elim
      | some own =>
        refine hs.withinCall rfl (by rw [hpc]; exact .of_eq rfl rfl rfl rfl)
          ⟨hknows.1, hknows.2.1, hknows.2.2.1, fun hsent ↦ ?_⟩
        obtain ⟨listener, hlistener, -⟩ := hknows.2.2.2 hsent
        rw [hnew.2] at hlistener
        cases hlistener
    case isFalse => cases hstep
  case h_10 call own process hpc =>
    simp only [Option.bind_eq_bind, Option.bind_eq_some_iff] at hstep
    obtain ⟨sock, hsock, listener, hlistener, e, he, hstep⟩ := hstep
    split at hstep
    case isTrue hsent =>
      cases hstep
      rw [hpc] at hknows
      cases own with
      | none => exact hknows.elim
      | some own =>
        rw [hknows.1] at hsock
        cases hsock
        rw [hknows.2.1] at he
        cases he
        exact hs.sendFd hpc hlistener hsent rfl
    case isFalse => cases hstep
  case h_11 call own process hpc =>
    cases hstep
    refine hs.spawnFails ?_
    rw [hpc]
    cases own with
    | none => exact .of_eq rfl rfl rfl rfl
    | some own => exact .of_eq rfl rfl rfl rfl
  case h_12 call own process hpc =>
    rw [hpc] at hknows
    split at hstep
    case isTrue hdone =>
      cases hstep
      cases own with
      | none => exact hknows.elim
      | some own => exact hs.exec hpc hdone rfl
    case isFalse => cases hstep
  case h_13 call own ok hpc =>
    cases hstep
    exact hs.swap hpc rfl
  case h_14 call own ok childSock hpc =>
    cases hstep
    exact hs.closeChildSock hpc rfl
  case h_15 fd call own hpc =>
    simp only [Option.bind_eq_bind, Option.bind_eq_some_iff] at hstep
    obtain ⟨e, he, listener, hhead, hstep⟩ := hstep
    split at hstep
    case isTrue hfree =>
      cases hstep
      exact hs.recvFd hpc he hhead hfree rfl
    case isFalse => cases hstep
  case h_16 call own hpc =>
    have hparent : (own.parent, own.parentEnd) ∈ (s.pc i).uses := by rw [hpc]; simp [Pc.uses]
    rw [hpc] at hknows
    obtain ⟨listener, hqueue⟩ := hknows
    rw [hs.intact i _ hparent, Option.bind_some, hqueue, head?_cons, if_neg nofun] at hstep
    cases hstep
  case h_17 call own hpc =>
    cases hstep
    have hparent : (own.parent, own.parentEnd) ∈ (s.pc i).uses := by rw [hpc]; simp [Pc.uses]
    refine hs.closeParent hparent rfl rfl rfl trivial ?_ rfl
    intro call' listener hheld
    rw [hpc] at hheld
    cases hheld
  case h_18 call own listener hpc =>
    cases hstep
    have hparent : (own.parent, own.parentEnd) ∈ (s.pc i).uses := by rw [hpc]; simp [Pc.uses]
    refine hs.closeParent hparent rfl rfl rfl trivial ?_ rfl
    intro call' listener' hheld
    rwa [hpc] at hheld
  case h_19 call listener hpc =>
    cases hstep
    exact hs.supervise hpc rfl
  case h_20 => cases hstep

omit [DecidableEq ι] in
/-- What the rest of the process does to descriptors that are not sockets. -/
theorem withFds {fds : Table}
    (hfds : ∀ fd e, endAt s.shared.fds fd = some e → endAt fds fd = some e) :
    (s.withFds fds).Inv policy where
  supervised := hs.supervised
  intact := fun i use huse ↦ hfds _ _ (hs.intact i use huse)
  apart := hs.apart
  made := hs.made
  cell := hs.cell
  knows := hs.knows
  fresh := hs.fresh

theorem step {event : Event ι} {next : EgressState ι P} (hexclusive : s.Exclusive event)
    (hstep : (egressMachine ι policy).step s event = some next) : next.Inv policy := by
  cases event with
  | step i action =>
    obtain ⟨moved, hmoved, rfl⟩ := Option.map_eq_some_iff.mp hstep
    exact hs.advance hexclusive hmoved
  | opens fd =>
    obtain ⟨hfree, hnext⟩ := Option.ite_none_right_eq_some.mp hstep
    cases hnext
    exact hs.withFds fun fd' e he ↦
      (endAt_update_of_ne (ne_of_endAt (endAt_of_free hfree) he) _).trans he
  | closes fd =>
    obtain ⟨hforeign, hnext⟩ := Option.ite_none_right_eq_some.mp hstep
    cases hnext
    exact hs.withFds fun fd' e he ↦
      (endAt_update_of_ne (ne_of_endAt (endAt_of_foreign hforeign) he) _).trans he

end EgressState.Inv

/-- **Egress supervision is fail-closed under its condition.**  Any number of threads run any
commands, one step at a time. -/
theorem failClosed_of_exclusive [DecidableEq ι] (policy : P) (used : Fd → Bool)
    (events : List (Event ι)) (s : EgressState ι P)
    (hmeets : (egressMachine ι policy).Meets EgressState.Exclusive (EgressState.new used) events)
    (hrun : (egressMachine ι policy).run (EgressState.new used) events = some s) :
    s.FailClosed policy := by
  have hstep : ∀ (s : EgressState ι P) (event : Event ι) (next : EgressState ι P), s.Inv policy →
      s.Exclusive event → (egressMachine ι policy).step s event = some next → next.Inv policy :=
    fun _ _ _ hs hexclusive hnext ↦ hs.step hexclusive hnext
  exact (Machine.inv_of_run hstep (EgressState.inv_new policy used) hmeets hrun).toFailClosed

/-! ## Runs -/

/-- From the start of a call to the store of its socket. -/
def begins (i : Bool) (parent child : Fd) : List (Event Bool) :=
  [.step i (.call .execute), .step i (.socketpair parent child), .step i .store]

/-- From the load to the exec of the child. -/
def spawns (i : Bool) : List (Event Bool) :=
  [.step i .load, .step i .fork, .step i .installListener, .step i .sendFd, .step i .exec]

/-- The second call starts while the first one waits for its listener. -/
def oneAfterTheOther : List (Event Bool) :=
  begins false 3 4 ++ spawns false ++ [.step false .swap, .step false .closeChildSock] ++
    begins true 4 5 ++ spawns true ++ [.step false (.recvFd 6), .step true .swap,
      .step false .closeParent, .step false .supervise, .step true .closeChildSock]

theorem failClosed_of_exclusive_oneAfterTheOther :
    ∃ s : EgressState Bool ℕ,
      (egressMachine Bool 0).run (.new fun fd ↦ fd < 3) oneAfterTheOther = some s ∧
        s.FailClosed 0 := by
  have hsome :
      ((egressMachine Bool 0).run (.new fun fd ↦ fd < 3) oneAfterTheOther).isSome = true := by
    decide +kernel
  obtain ⟨s, hrun⟩ := Option.isSome_iff_exists.mp hsome
  exact ⟨s, hrun, failClosed_of_exclusive 0 (fun fd ↦ fd < 3) oneAfterTheOther s (by decide +kernel)
    hrun⟩

/-- A command with input on its own. -/
def withInput : List (Event Bool) :=
  [.step false (.call .executeWithStdin), .step false .load, .step false .fork, .step false .exec]

/-- Both calls load the socket of the second one, which the first one closes. -/
def bothAtOnce : List (Event Bool) :=
  begins false 3 4 ++ begins true 5 6 ++ spawns false ++ [.step false .swap, .step true .load,
    .step false .closeChildSock]

/-- A command with input runs without a listener, and of two calls at once the first one closes the
socket that the second one is about to use. -/
theorem not_failClosed_withInput :
    (¬ ∀ s : EgressState Bool ℕ,
      (egressMachine Bool 0).run (.new fun fd ↦ fd < 3) withInput = some s → s.FailClosed 0) ∧
    ¬ ∀ s : EgressState Bool ℕ,
      (egressMachine Bool 0).run (.new fun fd ↦ fd < 3) bothAtOnce = some s → s.FailClosed 0 := by
  constructor
  · intro hclaim
    have hchildren : ((egressMachine Bool 0).run (.new fun fd ↦ fd < 3) withInput).map
        (fun s ↦ s.shared.children) = some [⟨0, none⟩] := by decide +kernel
    obtain ⟨s, hrun, hs⟩ := Option.map_eq_some_iff.mp hchildren
    obtain ⟨listener, hlistener, -⟩ := (hclaim s hrun).supervised ⟨0, none⟩ (by rw [hs]; simp)
    cases hlistener
  · intro hclaim
    have hclosed : ((egressMachine Bool 0).run (.new fun fd ↦ fd < 3) bothAtOnce).map
        (fun s ↦ ((s.pc true).uses, endAt s.shared.fds 6)) =
          some ([(5, ⟨1, .parent⟩), (6, ⟨1, .child⟩)], none) := by decide +kernel
    obtain ⟨s, hrun, hs⟩ := Option.map_eq_some_iff.mp hclosed
    obtain ⟨huses, hend⟩ := Prod.mk.inj hs
    have hintact := (hclaim s hrun).intact true (6, ⟨1, .child⟩) (by rw [huses]; simp)
    rw [hend] at hintact
    cases hintact

end SoulSystem.Sandbox.Egress
