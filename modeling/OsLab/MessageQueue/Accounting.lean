import OsLab.Foundation.Holdings
import OsLab.MessageQueue.Protocol

/-!
# The byte accounting of the device

`queued_bytes` and the list are updated by separate statements of one critical section.
The invariant `Accounted` says what they are at every point of it:

* the clients in a critical section are the holder of the lock, and no other;
* a message in the list and not yet in `queued_bytes` is the one its holder just
  linked, a message in `queued_bytes` and no longer in the list is the one its
  holder just unlinked;
* the messages in the list and those the clients own are paid for by the memory
  allocated, so no sum of lengths reaches `2^64`.

`Accounted.step` is the step lemma, `accounted_of_reachable` carries it over the
runs, and `queuedBytes_accounted` is the result on the code.
-/

set_option autoImplicit false

namespace OsLab.MessageQueue

open OsLab.Foundation

variable {ι : Type}

/-! ## What a phase holds -/

/-- Between `mutex_lock` and `mutex_unlock`. -/
def Phase.critical : Phase ι → Bool
  | .inspecting _ | .testing _ | .denied _ | .granted _ | .linking _ _ | .linked _ _
  | .counted _ _ | .unlinked _ _ | .uncounted _ _ => true
  | _ => false

/-- The bytes of the message that the client owns and that is not in the list. -/
def Phase.held : Phase ι → Nat
  | .allocated a | .faulted a => a.count
  | .filled _ m | .linking _ m | .unlinked _ m | .uncounted _ m | .taken _ m
  | .copied _ m _ _ => m.len
  | _ => 0

/-- The objects of type `struct msg` that the client owns and that are not in the list. -/
def Phase.heldNodes : Phase ι → Nat
  | .hollow _ | .allocated _ | .faulted _ | .stripped _ | .filled _ _ | .linking _ _
  | .unlinked _ _ | .uncounted _ _ | .taken _ _ | .copied _ _ _ _ | .emptied _ _ _ _ => 1
  | _ => 0

/-- The bytes in the list and not yet in `queued_bytes`. -/
def Phase.missing : Phase ι → Nat
  | .linked _ m => m.len
  | _ => 0

/-- The bytes in `queued_bytes` and no longer in the list. -/
def Phase.surplus : Phase ι → Nat
  | .unlinked _ m => m.len
  | _ => 0

/-- The lengths `m2m_write` lets pass. -/
def Permitted (len : Nat) : Prop := 1 ≤ len ∧ len ≤ maxMsg

/-- The length a phase works on is a permitted one. -/
def Phase.Sized : Phase ι → Prop
  | .trying a | .testing a | .denied a | .granted a | .admitted a | .hollow a | .allocated a
  | .faulted a | .stripped a => Permitted a.count
  | .filled _ m | .linking _ m | .linked _ m | .counted _ m | .announcing _ m
  | .unlinked _ m | .uncounted _ m | .taken _ m | .copied _ m _ _ | .emptied _ m _ _
  | .freed _ m _ _ => Permitted m.len
  | _ => True

/-- The sum of `len` over a list of messages. -/
def totalLen : List (Msg ι) → Nat
  | [] => 0
  | m :: rest => m.len + totalLen rest

@[simp] theorem totalLen_nil : totalLen ([] : List (Msg ι)) = 0 := rfl

@[simp] theorem totalLen_cons (m : Msg ι) (l : List (Msg ι)) :
    totalLen (m :: l) = m.len + totalLen l := rfl

@[simp] theorem totalLen_append (l l' : List (Msg ι)) :
    totalLen (l ++ l') = totalLen l + totalLen l' := by
  induction l with
  | nil => simp
  | cons m rest ih => simp [ih, Nat.add_assoc]

theorem totalLen_le {l : List (Msg ι)} (short : ∀ m ∈ l, m.len ≤ maxMsg) :
    totalLen l ≤ l.length * maxMsg := by
  induction l with
  | nil => simp
  | cons m rest ih =>
      obtain ⟨first, others⟩ := List.forall_mem_cons.mp short
      calc totalLen (m :: rest)
          = m.len + totalLen rest := rfl
        _ ≤ maxMsg + rest.length * maxMsg := Nat.add_le_add first (ih others)
        _ = (m :: rest).length * maxMsg := by rw [List.length_cons, Nat.succ_mul, Nat.add_comm]

/-! ## What a move changes -/

section Moves

variable {i : ι} {number : Nat} {p p' : Phase ι}

theorem Quiet.keeps (moves : Quiet i number p p') :
    p'.critical = p.critical ∧ p'.missing = p.missing ∧ p'.surplus = p.surplus ∧
      p'.held = p.held ∧ p'.heldNodes = p.heldNodes := by
  cases moves <;> exact ⟨rfl, rfl, rfl, rfl, rfl⟩

theorem Quiet.sized (moves : Quiet i number p p') (sized : p.Sized) : p'.Sized := by
  cases moves with
  | enter a positive short => exact ⟨positive, short⟩
  | refuse | giveUp | noMemory | announce | announceRoom => trivial
  | again | retry | inspect | deny | noData | fault | fill | copy | copyFault => exact sized

/-- An acquisition enters a critical section with the books in order. -/
theorem Acquire.enters (moves : Acquire p p') :
    p.critical = false ∧ p'.critical = true ∧ p'.missing = 0 ∧ p'.surplus = 0 ∧
      p'.held = p.held ∧ p'.heldNodes = p.heldNodes := by
  cases moves <;> exact ⟨rfl, rfl, rfl, rfl, rfl, rfl⟩

theorem Acquire.sized (moves : Acquire p p') (sized : p.Sized) : p'.Sized := by
  cases moves with
  | inspect => trivial
  | test | link => exact sized

/-- A release leaves a critical section with the books in order. -/
theorem Release.leaves (moves : Release p p') :
    p.critical = true ∧ p'.critical = false ∧ p.missing = 0 ∧ p.surplus = 0 ∧
      p'.held = p.held ∧ p'.heldNodes = p.heldNodes := by
  cases moves <;> exact ⟨rfl, rfl, rfl, rfl, rfl, rfl⟩

theorem Release.sized (moves : Release p p') (sized : p.Sized) : p'.Sized := by
  cases moves with
  | again | refuse => trivial
  | deny | passed | announce | take => exact sized

theorem Kfree.gives {bytes : Nat} (moves : Kfree p bytes p') :
    p.critical = false ∧ p'.critical = false ∧ p.held = bytes ∧ p'.held = 0 ∧
      p'.heldNodes = p.heldNodes := by
  cases moves <;> exact ⟨rfl, rfl, rfl, rfl, rfl⟩

theorem Kfree.sized {bytes : Nat} (moves : Kfree p bytes p') (sized : p.Sized) : p'.Sized := by
  cases moves with
  | fault | message => exact sized

theorem KfreeMsg.gives (moves : KfreeMsg p p') :
    p.critical = false ∧ p'.critical = false ∧ p'.held = p.held ∧ p.heldNodes = 1 ∧
      p'.heldNodes = 0 := by
  cases moves <;> exact ⟨rfl, rfl, rfl, rfl, rfl⟩

theorem KfreeMsg.sized (moves : KfreeMsg p p') (sized : p.Sized) : p'.Sized := by
  cases moves with
  | refuse => trivial
  | message => exact sized

/-- Outside of the critical sections the books are in order. -/
theorem Phase.in_order (outside : p.critical = false) : p.missing = 0 ∧ p.surplus = 0 := by
  cases p with
  | linked | unlinked => cases outside
  | _ => exact ⟨rfl, rfl⟩

end Moves

/-! ## Mutual exclusion -/

namespace Protocol

/-- The clients in a critical section are the holder of the lock. -/
def Exclusive (s : Protocol ι) : Prop :=
  ∀ i, (s.phase i).critical = true ↔ s.lock = some i

theorem Exclusive.free {s : Protocol ι} (exclusive : s.Exclusive) (free : s.lock = none) (i : ι) :
    (s.phase i).critical = false := by
  rw [Bool.eq_false_iff, ne_eq, exclusive i, free]
  exact nofun

theorem Exclusive.unique {s : Protocol ι} (exclusive : s.Exclusive) {i j : ι}
    (first : (s.phase i).critical = true) (second : (s.phase j).critical = true) : j = i := by
  have same := ((exclusive j).mp second).symm.trans ((exclusive i).mp first)
  exact Option.some.inj same

variable [DecidableEq ι]

/-- What a step does to the lock. -/
theorem Step.lock_cases {s t : Protocol ι} {i : ι} (stepped : Step s i t) :
    (t.lock = s.lock ∧ (t.phase i).critical = (s.phase i).critical) ∨
    (s.lock = none ∧ t.lock = some i ∧ (t.phase i).critical = true) ∨
    ((s.phase i).critical = true ∧ t.lock = none ∧ (t.phase i).critical = false) := by
  cases stepped with
  | quiet moves => exact .inl ⟨rfl, by simpa using moves.keeps.1⟩
  | acquire free moves => exact .inr (.inl ⟨free, rfl, by simpa using moves.enters.2.1⟩)
  | release moves => exact .inr (.inr ⟨moves.leaves.1, rfl, by simpa using moves.leaves.2.1⟩)
  | kfree moves => exact .inl ⟨rfl, by simp [moves.gives.1, moves.gives.2.1]⟩
  | kfreeMsg moves => exact .inl ⟨rfl, by simp [moves.gives.1, moves.gives.2.1]⟩
  | begin _ phase | grant phase | kmallocMsg phase | kmalloc phase | link phase | count phase
  | unlink phase | uncount phase | finish phase =>
      exact .inl ⟨rfl, by simp [phase, Phase.critical]⟩

/-- What is measured of the phases changes at the mover only. -/
theorem Step.measure_eq (measure : Phase ι → Nat) {s t : Protocol ι} {i : ι}
    (stepped : Step s i t) :
    measure ∘ t.phase = Function.update (measure ∘ s.phase) i (measure (t.phase i)) := by
  funext j
  rcases eq_or_ne j i with rfl | other
  · simp
  · simp [other, stepped.phase_other other]

/-- A client outside of its critical sections leaves the list and `queued_bytes`. -/
theorem Step.outside {s t : Protocol ι} {i : ι} (stepped : Step s i t)
    (outside : (s.phase i).critical = false) :
    t.queuedBytes = s.queuedBytes ∧ t.msgList = s.msgList := by
  cases stepped with
  | link phase | count phase | unlink phase | uncount phase =>
      rw [phase] at outside
      cases outside
  | _ => exact ⟨rfl, rfl⟩

theorem Exclusive.step {s t : Protocol ι} {i : ι} (exclusive : s.Exclusive)
    (stepped : Step s i t) : t.Exclusive := by
  intro j
  rcases eq_or_ne j i with rfl | other
  · rcases stepped.lock_cases with ⟨lock, same⟩ | ⟨_, lock, critical⟩ | ⟨_, lock, critical⟩
    · rw [lock, same]
      exact exclusive j
    · simp [lock, critical]
    · simp [lock, critical]
  · rw [stepped.phase_other other, exclusive j]
    rcases stepped.lock_cases with ⟨lock, _⟩ | ⟨free, lock, _⟩ | ⟨critical, lock, _⟩
    · rw [lock]
    · simp [free, lock, other.symm]
    · simp [(exclusive i).mp critical, lock, other.symm]

/-! ## The invariant -/

/-- `queued_bytes` is the length of the list, up to what client `i` owes. -/
def Balanced (s : Protocol ι) (i : ι) : Prop :=
  s.queuedBytes + (s.phase i).missing = totalLen s.msgList + (s.phase i).surplus

/-- Where the bytes are at every point of a run. -/
structure Accounted (s : Protocol ι) : Prop where
  exclusive : s.Exclusive
  sized : ∀ i, (s.phase i).Sized
  queued : ∀ m ∈ s.msgList, Permitted m.len
  settled : s.lock = none → s.queuedBytes = totalLen s.msgList
  balanced : ∀ i, (s.phase i).critical = true → s.Balanced i
  heap : Covered s.live (totalLen s.msgList) (Phase.held ∘ s.phase)
  small : s.live ≤ kernelSpace

omit [DecidableEq ι] in
theorem accounted_init : (init : Protocol ι).Accounted where
  exclusive _ := ⟨nofun, nofun⟩
  sized _ := trivial
  queued := nofun
  settled _ := rfl
  balanced := nofun
  heap := Covered.zero (Nat.le_refl 0)
  small := Nat.zero_le _

namespace Accounted

variable {s t : Protocol ι} {i : ι}

omit [DecidableEq ι] in
theorem queuedBytes_le (accounted : s.Accounted) : s.queuedBytes ≤ s.live := by
  cases lock : s.lock with
  | none =>
      rw [accounted.settled lock]
      exact accounted.heap.common_le
  | some i =>
      have balanced := accounted.balanced i ((accounted.exclusive i).mpr lock)
      have paid : totalLen s.msgList + (s.phase i).held ≤ s.live := accounted.heap.one_le i
      unfold Balanced at balanced
      have part : (s.phase i).surplus ≤ (s.phase i).held := by
        cases s.phase i <;> simp [Phase.surplus, Phase.held]
      omega

omit [DecidableEq ι] in
/-- `queued_bytes + bytes` does not wrap for the length of a message. -/
theorem addSize_eq (accounted : s.Accounted) {bytes : Nat} (permitted : Permitted bytes) :
    addSize s.queuedBytes bytes = s.queuedBytes + bytes := by
  have below := accounted.queuedBytes_le
  have small := accounted.small
  have short := permitted.2
  unfold kernelSpace at small
  unfold maxMsg at short
  refine Nat.mod_eq_of_lt ?_
  unfold sizeModulus
  omega

omit [DecidableEq ι] in
/-- `queued_bytes - bytes` does not wrap for the message just unlinked. -/
theorem subSize_eq (accounted : s.Accounted) {a : ReadArgs} {m : Msg ι}
    (phase : s.phase i = .unlinked a m) :
    subSize s.queuedBytes m.len + m.len = s.queuedBytes := by
  have balanced := accounted.balanced i (by rw [phase]; rfl)
  simp only [Balanced, phase, Phase.missing, Phase.surplus] at balanced
  have below := accounted.queuedBytes_le
  have small := accounted.small
  unfold kernelSpace at small
  unfold subSize sizeModulus
  omega

theorem step_sized (accounted : s.Accounted) (stepped : Step s i t) (j : ι) :
    (t.phase j).Sized := by
  rcases eq_or_ne j i with rfl | other
  · have before := accounted.sized j
    cases stepped with
    | quiet moves => simpa using moves.sized before
    | acquire _ moves => simpa using moves.sized before
    | release moves => simpa using moves.sized before
    | kfree moves => simpa using moves.sized before
    | kfreeMsg moves => simpa using moves.sized before
    | unlink phase first =>
        have permitted := accounted.queued _ (first ▸ List.mem_cons_self ..)
        simpa [Phase.Sized] using permitted
    | begin | finish => simp [Phase.Sized]
    | grant phase | kmallocMsg phase | kmalloc phase | link phase | count phase
    | uncount phase =>
        rw [phase] at before
        simpa [Phase.Sized] using before
  · rw [stepped.phase_other other]
    exact accounted.sized j

theorem step_queued (accounted : s.Accounted) (stepped : Step s i t) :
    ∀ m ∈ t.msgList, Permitted m.len := by
  have before := accounted.queued
  cases stepped with
  | link phase =>
      have permitted := accounted.sized i
      rw [phase] at permitted
      intro m member
      rcases List.mem_append.mp member with old | new
      · exact before m old
      · rw [List.mem_singleton.mp new]
        exact permitted
  | unlink phase first =>
      intro m member
      exact before m (first ▸ List.mem_cons_of_mem _ member)
  | _ => exact before

/-- What the list and the client gain is allocated, and what they lose is freed. -/
theorem step_balance (accounted : s.Accounted) (stepped : Step s i t) :
    totalLen t.msgList + (t.phase i).held + s.live =
      t.live + (totalLen s.msgList + (s.phase i).held) := by
  have paid : totalLen s.msgList + (s.phase i).held ≤ s.live := accounted.heap.one_le i
  cases stepped with
  | quiet moves =>
      have same := moves.keeps.2.2.2.1
      simp only [move_live, move_msgList, move_phase, Function.update_self]
      omega
  | acquire _ moves =>
      have same := moves.enters.2.2.2.2.1
      simp only [move_live, move_msgList, move_phase, Function.update_self]
      omega
  | release moves =>
      have same := moves.leaves.2.2.2.2.1
      simp only [move_live, move_msgList, move_phase, Function.update_self]
      omega
  | kfree moves =>
      obtain ⟨_, _, before, after, _⟩ := moves.gives
      simp only [move_live, move_msgList, move_phase, Function.update_self]
      omega
  | kfreeMsg moves =>
      have same := moves.gives.2.2.1
      simp only [move_live, move_msgList, move_phase, Function.update_self]
      omega
  | link phase =>
      simp only [move_live, move_msgList, move_phase, Function.update_self, phase, Phase.held,
        totalLen_append, totalLen_cons, totalLen_nil]
      omega
  | unlink phase first =>
      simp only [move_live, move_msgList, move_phase, Function.update_self, phase, first,
        Phase.held, totalLen_cons]
      omega
  | begin _ phase | finish phase | grant phase | kmallocMsg phase | kmalloc phase | count phase
  | uncount phase =>
      simp only [move_live, move_msgList, move_phase, Function.update_self, phase, Phase.held]
      omega

theorem step_small (accounted : s.Accounted) (stepped : Step s i t) : t.live ≤ kernelSpace := by
  have small := accounted.small
  cases stepped with
  | kmalloc phase fits => exact fits
  | kfree moves => exact (Nat.sub_le ..).trans small
  | _ => exact small

omit [DecidableEq ι] in
theorem balanced_of_free (accounted : s.Accounted) (free : s.lock = none) : s.Balanced i := by
  obtain ⟨missing, surplus⟩ := Phase.in_order (accounted.exclusive.free free i)
  rw [Balanced, missing, surplus, accounted.settled free]

/-- A step keeps the books of the client that takes it. -/
theorem step_balanced (accounted : s.Accounted) (stepped : Step s i t)
    (balanced : s.Balanced i) : t.Balanced i := by
  unfold Balanced at balanced ⊢
  cases stepped with
  | quiet moves =>
      obtain ⟨_, missing, surplus, -⟩ := moves.keeps
      simpa [missing, surplus] using balanced
  | acquire free moves =>
      obtain ⟨_, _, missing, surplus, -⟩ := moves.enters
      simpa [missing, surplus] using accounted.settled free
  | release moves =>
      obtain ⟨_, outside, missing, surplus, -⟩ := moves.leaves
      obtain ⟨missing', surplus'⟩ := Phase.in_order outside
      simpa [missing, surplus, missing', surplus'] using balanced
  | kfree moves =>
      obtain ⟨outside, outside', -⟩ := moves.gives
      obtain ⟨missing, surplus⟩ := Phase.in_order outside
      obtain ⟨missing', surplus'⟩ := Phase.in_order outside'
      simpa [missing, surplus, missing', surplus'] using balanced
  | kfreeMsg moves =>
      obtain ⟨outside, outside', -⟩ := moves.gives
      obtain ⟨missing, surplus⟩ := Phase.in_order outside
      obtain ⟨missing', surplus'⟩ := Phase.in_order outside'
      simpa [missing, surplus, missing', surplus'] using balanced
  | count phase =>
      have permitted := accounted.sized i
      rw [phase] at permitted
      have exact_sum := accounted.addSize_eq permitted
      simpa [phase, Phase.missing, Phase.surplus, exact_sum] using balanced
  | uncount phase =>
      have exact_difference := accounted.subSize_eq phase
      simp only [phase, Phase.missing, Phase.surplus] at balanced
      simp only [move_queuedBytes, move_msgList, move_phase, Function.update_self,
        Phase.missing, Phase.surplus]
      omega
  | unlink phase first =>
      simp only [phase, Phase.missing, Phase.surplus, first, totalLen_cons] at balanced
      simp only [move_queuedBytes, move_msgList, move_phase, Function.update_self,
        Phase.missing, Phase.surplus]
      omega
  | link phase =>
      simpa [phase, Phase.missing, Phase.surplus] using balanced
  | begin _ phase | finish phase | grant phase | kmallocMsg phase | kmalloc phase =>
      simpa [phase, Phase.missing, Phase.surplus] using balanced

theorem step_settled (accounted : s.Accounted) (stepped : Step s i t) (free : t.lock = none) :
    t.queuedBytes = totalLen t.msgList := by
  have balanced : s.Balanced i := by
    rcases stepped.lock_cases with ⟨lock, _⟩ | ⟨_, lock, _⟩ | ⟨critical, _, _⟩
    · exact accounted.balanced_of_free (lock ▸ free)
    · cases lock.symm.trans free
    · exact accounted.balanced i critical
  have after := accounted.step_balanced stepped balanced
  obtain ⟨missing, surplus⟩ :=
    Phase.in_order ((accounted.exclusive.step stepped).free free i)
  simpa [Balanced, missing, surplus] using after

theorem step_holder (accounted : s.Accounted) (stepped : Step s i t) (j : ι)
    (critical : (t.phase j).critical = true) : t.Balanced j := by
  rcases eq_or_ne j i with rfl | other
  · refine accounted.step_balanced stepped ?_
    rcases stepped.lock_cases with ⟨_, same⟩ | ⟨free, _, _⟩ | ⟨inside, _, _⟩
    · exact accounted.balanced j (same ▸ critical)
    · exact accounted.balanced_of_free free
    · exact accounted.balanced j inside
  · rw [stepped.phase_other other] at critical
    have outside : (s.phase i).critical = false := by
      by_contra inside
      exact other (accounted.exclusive.unique (Bool.eq_true_of_not_eq_false inside) critical)
    obtain ⟨bytes, list⟩ := stepped.outside outside
    have before := accounted.balanced j critical
    rwa [Balanced, bytes, list, stepped.phase_other other]

/-- **A step keeps the accounts.** -/
theorem step (accounted : s.Accounted) (stepped : Step s i t) : t.Accounted where
  exclusive := accounted.exclusive.step stepped
  sized := accounted.step_sized stepped
  queued := accounted.step_queued stepped
  settled := accounted.step_settled stepped
  balanced := accounted.step_holder stepped
  heap := by
    rw [stepped.measure_eq]
    exact accounted.heap.update i (accounted.step_balance stepped).le
  small := accounted.step_small stepped

omit [DecidableEq ι] in
/-- A queue of `n` messages has at most `n + 1` messages in `queued_bytes`: the
holder of the lock may have unlinked one. -/
theorem queuedBytes_le_length (accounted : s.Accounted) :
    s.queuedBytes ≤ (s.msgList.length + 1) * maxMsg := by
  have list := totalLen_le fun m member => (accounted.queued m member).2
  cases lock : s.lock with
  | none =>
      rw [accounted.settled lock, Nat.add_mul]
      omega
  | some i =>
      have balanced := accounted.balanced i ((accounted.exclusive i).mpr lock)
      have sized := accounted.sized i
      have part : (s.phase i).surplus ≤ maxMsg := by
        cases phase : s.phase i with
        | unlinked a m =>
            rw [phase] at sized
            exact sized.2
        | _ => exact Nat.zero_le _
      unfold Balanced at balanced
      rw [Nat.add_mul]
      omega

end Accounted

end Protocol

/-! ## The result on the code -/

variable [DecidableEq ι]

theorem accounted_of_reachable [KernelMemory] {s : State ι} (reached : ReachableState s) :
    s.protocol.Accounted :=
  (protocol_reachable reached).invariant Protocol.Accounted Protocol.accounted_init
    fun _ _ _ before stepped => before.step stepped

/-- Positions at which `m2m_write` evaluates `queued_bytes + count`. -/
def Pc.AtCapacityTest (pc : Pc ι) (a : WriteArgs) : Prop :=
  pc = .writing a .test ∨ ∃ wait, pc = .writing a (.wait wait)

omit [DecidableEq ι] in
theorem sized_at_capacityTest {pc : Pc ι} {a : WriteArgs} (sized : pc.phase.Sized)
    (position : pc.AtCapacityTest a) : Permitted a.count := by
  rcases position with rfl | ⟨wait, rfl⟩ <;> exact sized

/-- **The byte accounting.** In every reachable state: while the lock is free
`queued_bytes` is the sum of the lengths in the list, the lengths are permitted ones,
`queued_bytes -= m->len` takes off exactly the length of the message, and
`queued_bytes + count` is the exact sum as long as fewer than `2^40` messages are
queued. -/
theorem queuedBytes_accounted [KernelMemory] {s : State ι} (reached : ReachableState s) :
    (s.dev.lock = none → s.dev.queuedBytes = totalLen s.dev.msgList) ∧
    (∀ m ∈ s.dev.msgList, 1 ≤ m.len ∧ m.len ≤ maxMsg) ∧
    (∀ i a m, (s.client i).pc = .reading a (.subBytes m) →
      m.len ≤ s.dev.queuedBytes ∧
        subSize s.dev.queuedBytes m.len = s.dev.queuedBytes - m.len) ∧
    (∀ i a, (s.client i).pc.AtCapacityTest a → s.dev.msgList.length < 2 ^ 40 →
      s.dev.queuedBytes + a.count < sizeModulus ∧
        addSize s.dev.queuedBytes a.count = s.dev.queuedBytes + a.count) := by
  have accounted := accounted_of_reachable reached
  refine ⟨accounted.settled, accounted.queued, ?_, ?_⟩
  · intro i a m position
    have phase : s.protocol.phase i = .unlinked a m := by
      simp only [State.protocol, position]
      rfl
    have difference : subSize s.dev.queuedBytes m.len + m.len = s.dev.queuedBytes :=
      accounted.subSize_eq phase
    omega
  · intro i a position few
    have permitted := sized_at_capacityTest (accounted.sized i) position
    have below : s.dev.queuedBytes ≤ (s.dev.msgList.length + 1) * maxMsg :=
      accounted.queuedBytes_le_length
    have short := permitted.2
    have exact_sum : addSize s.dev.queuedBytes a.count = s.dev.queuedBytes + a.count :=
      accounted.addSize_eq permitted
    refine ⟨?_, exact_sum⟩
    unfold maxMsg at below short
    unfold sizeModulus
    omega

/-- After one write of three bytes the queue is not empty and the lock is free. -/
theorem queuedBytes_accounted_one_message :
    ∃ s : State (Fin 2), s.dev.lock = none ∧ s.dev.msgList.length = 1 ∧
      s.dev.queuedBytes = totalLen s.dev.msgList := by
  obtain ⟨s, ran⟩ := Option.isSome_iff_exists.mp
    (show (runSchedule (alone (0 : Fin 2) (.m2mWrite ⟨false, 3, fun _ => 7⟩) 13)
      m2mInit).isSome from rfl)
  have accounted := queuedBytes_accounted (reachable_of_runSchedule .refl ran)
  cases ran
  exact ⟨_, rfl, rfl, accounted.1 rfl⟩

end OsLab.MessageQueue
