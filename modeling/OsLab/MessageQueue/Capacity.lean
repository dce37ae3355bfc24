import OsLab.MessageQueue.Accounting

/-!
# The capacity of the device

`m2m_write` tests `queued_bytes + count <= MAX_BYTES` in one critical section
and appends in another. A writer that passed the test has been promised its bytes,
and the test of the next writer does not count them. Two writers can pass the same
test and the queue exceeds `MAX_BYTES` (`queuedBytes_exceeds_maxBytes`).

What the test leaves out is the whole of the defect: in a run in which every write
that is let through fits beside the bytes promised to the others, `queued_bytes`
never exceeds `MAX_BYTES` (`queuedBytes_le_maxBytes_of_fits`). The invariant is
that `queued_bytes` and all promises together fit. The condition is needed: where a
test overlooks a promise the clients can go on to an overflow
(`overflow_of_overlooked`).
-/

set_option autoImplicit false

namespace OsLab.MessageQueue

open OsLab.Foundation

variable {ι : Type}

/-- The bytes a writer was let through with and has not yet added. -/
def Phase.promised : Phase ι → Nat
  | .granted a | .admitted a | .hollow a | .allocated a => a.count
  | .filled _ m | .linking _ m | .linked _ m => m.len
  | _ => 0

section Moves

variable {i : ι} {number : Nat} {p p' : Phase ι}

/-- A writer that stops gives its promise back. -/
theorem Quiet.promised_le (moves : Quiet i number p p') : p'.promised ≤ p.promised := by
  cases moves with
  | noMemory | noData | fault => exact Nat.zero_le _
  | _ => exact Nat.le_refl _

theorem Acquire.promised_eq (moves : Acquire p p') : p'.promised = p.promised := by
  cases moves <;> rfl

theorem Release.promised_eq (moves : Release p p') : p'.promised = p.promised := by
  cases moves <;> rfl

theorem Kfree.promised_eq {bytes : Nat} (moves : Kfree p bytes p') :
    p'.promised = p.promised := by
  cases moves <;> rfl

theorem KfreeMsg.promised_eq (moves : KfreeMsg p p') : p'.promised = p.promised := by
  cases moves <;> rfl

end Moves

namespace Protocol

/-- `queued_bytes` and the promises fit into `MAX_BYTES`. -/
def Within (s : Protocol ι) : Prop :=
  Covered maxBytes s.queuedBytes (Phase.promised ∘ s.phase)

/-- If client `i` is let through by the test, its write fits beside the promises. -/
def Fits (s : Protocol ι) (i : ι) : Prop :=
  ∀ a, s.phase i = .testing a → addSize s.queuedBytes a.count ≤ maxBytes →
    Covered maxBytes (s.queuedBytes + a.count) (Phase.promised ∘ s.phase)

variable [DecidableEq ι] {s t : Protocol ι} {i : ι}

/-- A step is the test that lets a writer through, or it adds no more to
`queued_bytes` than the promise of its client goes down. -/
theorem Accounted.step_promise (accounted : s.Accounted) (stepped : Step s i t) :
    (∃ a, s.phase i = .testing a ∧ addSize s.queuedBytes a.count ≤ maxBytes ∧
      t = s.move i (.granted a)) ∨
    t.queuedBytes + (t.phase i).promised ≤ s.queuedBytes + (s.phase i).promised := by
  cases stepped with
  | grant phase room => exact .inl ⟨_, phase, room, rfl⟩
  | quiet moves => exact .inr (by simpa using moves.promised_le)
  | acquire _ moves => exact .inr (by simp [moves.promised_eq])
  | release moves => exact .inr (by simp [moves.promised_eq])
  | kfree moves => exact .inr (by simp [moves.promised_eq])
  | kfreeMsg moves => exact .inr (by simp [moves.promised_eq])
  | count phase =>
      have permitted := accounted.sized i
      rw [phase] at permitted
      exact .inr (by simp [phase, Phase.promised, accounted.addSize_eq permitted])
  | uncount phase =>
      have difference := accounted.subSize_eq phase
      refine .inr ?_
      simp only [move_queuedBytes, move_phase, Function.update_self, phase, Phase.promised]
      omega
  | begin _ phase | kmallocMsg phase | kmalloc phase | link phase | unlink phase
  | finish phase =>
      exact .inr (by simp [phase, Phase.promised])

theorem Within.step (within : s.Within) (accounted : s.Accounted) (fits : s.Fits i)
    (stepped : Step s i t) : t.Within := by
  unfold Within
  rw [stepped.measure_eq]
  rcases accounted.step_promise stepped with ⟨a, phase, room, rfl⟩ | gained
  · -- the promise made here is what `Fits` set aside
    refine (fits a phase room).update i ?_
    simp only [move_queuedBytes, move_phase, Function.update_self, Function.comp_apply, phase,
      Phase.promised]
    omega
  · refine Covered.update within i ?_
    simp only [Function.comp_apply]
    omega

end Protocol

/-! ## Runs of the code -/

/-- The write that is at its test of the capacity. -/
def Pc.atTest : Pc ι → Option WriteArgs
  | .writing args .test => some args
  | _ => none

theorem atTest_eq_some_iff {pc : Pc ι} {args : WriteArgs} :
    pc.atTest = some args ↔ pc = .writing args .test := by
  constructor
  · intro test
    unfold Pc.atTest at test
    split at test
    · cases test
      rfl
    · cases test
  · rintro rfl
    rfl

variable [DecidableEq ι]

/-- The condition on a statement: a write that the capacity test lets through fits
into `MAX_BYTES` beside `queued_bytes` and the bytes promised to any writers that
passed the test and have not yet added theirs. -/
def FitsBesidePromises (s : State ι) (a : ι × Choice) : Prop :=
  ∀ args, (s.client a.1).pc = .writing args .test → s.dev.hasRoom args.count = true →
    Covered maxBytes (s.dev.queuedBytes + args.count) fun j => (s.client j).pc.phase.promised

/-- The invariant of the runs in which no promise is overlooked. -/
def Promises (s : State ι) : Prop := s.protocol.Accounted ∧ s.protocol.Within

section Runs

variable [KernelMemory]

theorem Promises.step {s t : State ι} {a : ι × Choice} (promises : Promises s)
    (fits : FitsBesidePromises s a) (stepped : Step s a t) : Promises t := by
  obtain ⟨accounted, within⟩ := promises
  have simulated := protocol_step stepped
  have beside : s.protocol.Fits a.1 := by
    intro args phase room
    exact fits args (phase_eq_testing_iff.mp phase) (decide_eq_true room)
  exact ⟨accounted.step simulated, within.step accounted beside simulated⟩

/-- **The capacity holds where no promise is overlooked.** In every run in which
each write that is let through fits beside the promises, `queued_bytes` is at most
`MAX_BYTES` in every state in which the lock is free. -/
theorem queuedBytes_le_maxBytes_of_fits {trace : List (State ι × (ι × Choice))} {s : State ι}
    (run : Run Step m2mInit trace s) (fits : ∀ p ∈ trace, FitsBesidePromises p.1 p.2) :
    (s.dev.lock = none → s.dev.queuedBytes ≤ maxBytes) ∧
    ∀ p ∈ trace, p.1.dev.lock = none → p.1.dev.queuedBytes ≤ maxBytes := by
  have start : Promises (m2mInit : State ι) :=
    ⟨Protocol.accounted_init, Covered.zero (Nat.zero_le _)⟩
  obtain ⟨last, earlier⟩ := run.always_of_guard Promises FitsBesidePromises start
    (fun _ _ _ before fits stepped => before.step fits stepped) fits
  refine ⟨fun _ => last.2.common_le, ?_⟩
  intro p member _
  exact (earlier p member).2.common_le

end Runs

omit [DecidableEq ι] in
theorem fitsBesidePromises_iff [Fintype ι] {s : State ι} {a : ι × Choice} :
    FitsBesidePromises s a ↔ ∀ args ∈ (s.client a.1).pc.atTest, s.dev.hasRoom args.count = true →
      s.dev.queuedBytes + args.count + ∑ j, (s.client j).pc.phase.promised ≤ maxBytes := by
  refine forall_congr' fun args => ?_
  rw [Option.mem_def, atTest_eq_some_iff, covered_iff_sum_univ]

instance [Fintype ι] (s : State ι) (a : ι × Choice) : Decidable (FitsBesidePromises s a) :=
  decidable_of_iff _ fitsBesidePromises_iff.symm

/-- A write of the largest length. -/
def largest : WriteArgs := ⟨false, maxMsg, fun _ => 0⟩

/-- Client 0 writes some messages of `MAX_MSG` bytes. Then both clients pass the test
for one more, and both append it. -/
def race (before : Nat) : List (Fin 2 × Choice) :=
  (List.replicate before (alone 0 (.m2mWrite largest) 13)).flatten ++
    alone 0 (.m2mWrite largest) 4 ++ alone 1 (.m2mWrite largest) 4 ++
    List.replicate 7 (0, .go) ++ List.replicate 7 (1, .go)

/-- After 14 messages there is room for two, so the writers that pass the test together overlook
no promise and fill the queue. -/
theorem queuedBytes_le_maxBytes_together :
    ∃ trace, ∃ s : State (Fin 2), Run Step m2mInit trace s ∧ s.dev.queuedBytes = 65536 ∧
      s.dev.lock = none ∧ s.dev.queuedBytes ≤ maxBytes := by
  have outcome : ((runSchedule (race 14) m2mInit).map fun s => (s.dev.lock, s.dev.queuedBytes)) =
      some (none, 65536) := by
    decide +kernel
  obtain ⟨s, ran, observed⟩ := Option.map_eq_some_iff.mp outcome
  obtain ⟨lock, bytes⟩ := Prod.mk.inj observed
  have run := run_of_runSchedule ran
  have fits : ∀ p ∈ scheduleTrace (race 14), FitsBesidePromises p.1 p.2 := by
    decide +kernel
  exact ⟨_, s, run, bytes, lock, (queuedBytes_le_maxBytes_of_fits run fits).1 lock⟩

/-- **Two writers pass the same test.** -/
theorem queuedBytes_exceeds_maxBytes :
    ∃ s : State (Fin 2), ReachableState s ∧ s.dev.lock = none ∧ s.dev.queuedBytes = 69632 ∧
      maxBytes < s.dev.queuedBytes := by
  have outcome : ((runSchedule (race 15) m2mInit).map fun s => (s.dev.lock, s.dev.queuedBytes)) =
      some (none, 69632) := by
    decide +kernel
  obtain ⟨s, ran, observed⟩ := Option.map_eq_some_iff.mp outcome
  obtain ⟨lock, bytes⟩ := Prod.mk.inj observed
  exact ⟨s, reachable_of_runSchedule .refl ran, lock, bytes, by rw [bytes]; decide⟩

/-! ## An overlooked promise can be kept -/

variable [KernelMemory]

/-- What client `j` leaves when it went on alone. -/
structure Undisturbed (s t : State ι) (j : ι) : Prop where
  reached : ReachableState t
  free : t.dev.lock = none
  others : ∀ k, k ≠ j → (t.client k).pc = (s.client k).pc

/-- A statement that wakes nobody disturbs nobody. -/
theorem Undisturbed.of_after {s t : State ι} {j : ι} {effect : Effect ι} {pc : Pc ι}
    (later : Undisturbed (s.after j effect pc) t j) (silent : effect.wake = id) :
    Undisturbed s t j where
  reached := later.reached
  free := later.free
  others k other := (later.others k other).trans (after_pc_other s pc silent other)

/-- A statement of a writer that goes on. -/
theorem reachable_after {s : State ι} {j : ι} {a : WriteArgs} {pc : WritePc ι}
    (reached : ReachableState s) (position : (s.client j).pc = .writing a pc) (effect : Effect ι)
    (pc' : Pc ι)
    (decided : m2mWriteNext s.dev s.live j (s.client j).calls a pc .go = some (effect, pc')) :
    ReachableState (s.after j effect pc') := by
  refine reached.next (a := (j, .go)) ?_
  simp only [Step, step, next, position, decided]

/-- A writer with its message filled appends it. -/
theorem append_filled {s : State ι} {j : ι} {a : WriteArgs} {m : Msg ι}
    (reached : ReachableState s) (free : s.dev.lock = none)
    (position : (s.client j).pc = .writing a (.lockAppend m)) :
    ∃ t, Undisturbed s t j ∧ t.live = s.live ∧
      t.dev.queuedBytes = s.dev.queuedBytes + m.len := by
  have accounted := accounted_of_reachable reached
  have permitted : Permitted m.len := by
    have sized := accounted.sized j
    rwa [protocol_phase position] at sized
  have sum : addSize s.dev.queuedBytes m.len = s.dev.queuedBytes + m.len :=
    accounted.addSize_eq permitted
  have locked := reachable_after reached position .mutexLock (.writing a (.addTail m))
    (by simp [m2mWriteNext, free])
  have linked := reachable_after locked (after_pc_self _ _ _ rfl)
    (.listAddTail m) (.writing a (.addBytes m)) rfl
  have counted := reachable_after linked (after_pc_self _ _ _ rfl)
    (.addBytes m.len) (.writing a (.unlockAppend m)) rfl
  have unlocked := reachable_after counted (after_pc_self _ _ _ rfl)
    .mutexUnlock (.writing a (.wake m)) rfl
  refine ⟨_, ⟨unlocked, rfl, ?_⟩, rfl, sum⟩
  intro k other
  rw [after_pc_other _ _ rfl other, after_pc_other _ _ rfl other, after_pc_other _ _ rfl other,
    after_pc_other _ _ rfl other]

/-- A writer that has its memory fills the message and appends it. -/
theorem append_allocated {s : State ι} {j : ι} {a : WriteArgs} (reached : ReachableState s)
    (free : s.dev.lock = none) (position : (s.client j).pc = .writing a .copy) :
    ∃ t, Undisturbed s t j ∧ t.live = s.live ∧
      t.dev.queuedBytes = s.dev.queuedBytes + a.count := by
  have filled := reachable_after reached position .skip
    (.writing a (.lockAppend (msgAlloc j (s.client j).calls a))) rfl
  obtain ⟨t, appended, live, bytes⟩ := append_filled (j := j) filled free
    (after_pc_self _ _ _ rfl)
  exact ⟨t, appended.of_after rfl, live, bytes⟩

/-- A writer that has its `struct msg` and finds memory for the data appends its message. -/
theorem append_hollow {s : State ι} {j : ι} {a : WriteArgs} (reached : ReachableState s)
    (free : s.dev.lock = none) (position : (s.client j).pc = .writing a .allocData)
    (memory : s.live + a.count ≤ KernelMemory.bytes) :
    ∃ t, Undisturbed s t j ∧ t.live = s.live + a.count ∧
      t.dev.queuedBytes = s.dev.queuedBytes + a.count := by
  have allocated := reachable_after reached position (.kmalloc a.count) (.writing a .copy)
    (by simp [m2mWriteNext, memory])
  obtain ⟨t, appended, live, bytes⟩ := append_allocated (j := j) allocated free
    (after_pc_self _ _ _ rfl)
  exact ⟨t, appended.of_after rfl, live, bytes⟩

/-- A writer that was let through and finds memory appends its message. -/
theorem append_admitted {s : State ι} {j : ι} {a : WriteArgs} (reached : ReachableState s)
    (free : s.dev.lock = none) (position : (s.client j).pc = .writing a .allocMsg)
    (memory : s.live + a.count ≤ KernelMemory.bytes) :
    ∃ t, Undisturbed s t j ∧ t.live = s.live + a.count ∧
      t.dev.queuedBytes = s.dev.queuedBytes + a.count := by
  have hollow := reachable_after reached position .kmallocMsg (.writing a .allocData) rfl
  obtain ⟨t, appended, live, bytes⟩ := append_hollow (j := j) hollow free
    (after_pc_self _ _ _ rfl) memory
  exact ⟨t, appended.of_after rfl, live, bytes⟩

/-- While the lock is free every promise can be kept. -/
theorem keep_promise {s : State ι} (j : ι) (reached : ReachableState s)
    (free : s.dev.lock = none)
    (memory : s.live + (s.client j).pc.phase.promised ≤ KernelMemory.bytes) :
    ∃ t, Undisturbed s t j ∧ t.live ≤ s.live + (s.client j).pc.phase.promised ∧
      t.dev.queuedBytes = s.dev.queuedBytes + (s.client j).pc.phase.promised := by
  have outside := (accounted_of_reachable reached).exclusive.free free j
  rw [protocol_phase rfl] at outside
  have idle : (s.client j).pc.phase.promised = 0 →
      ∃ t, Undisturbed s t j ∧ t.live ≤ s.live + (s.client j).pc.phase.promised ∧
        t.dev.queuedBytes = s.dev.queuedBytes + (s.client j).pc.phase.promised := by
    intro nothing
    exact ⟨s, ⟨reached, free, fun _ _ => rfl⟩, by omega, by omega⟩
  cases position : (s.client j).pc with
  | writing a wpc =>
      rw [position] at outside memory idle
      cases wpc with
      | allocMsg =>
          obtain ⟨t, appended, live, bytes⟩ := append_admitted reached free position memory
          exact ⟨t, appended, live.le, bytes⟩
      | allocData =>
          obtain ⟨t, appended, live, bytes⟩ := append_hollow reached free position memory
          exact ⟨t, appended, live.le, bytes⟩
      | copy =>
          obtain ⟨t, appended, live, bytes⟩ := append_allocated reached free position
          exact ⟨t, appended, live.le.trans (Nat.le_add_right ..), bytes⟩
      | lockAppend m =>
          obtain ⟨t, appended, live, bytes⟩ := append_filled reached free position
          exact ⟨t, appended, live.le.trans (Nat.le_add_right ..), bytes⟩
      | unlockRoom | addTail | addBytes => cases outside
      | _ => exact idle rfl
  | reading a rpc =>
      rw [position] at idle
      cases rpc <;> exact idle rfl
  | polling ppc =>
      rw [position] at idle
      cases ppc <;> exact idle rfl
  | _ =>
      rw [position] at idle
      exact idle rfl

/-- The clients of a group keep their promises one after the other. -/
theorem keep_promises (group : Finset ι) {s : State ι} (reached : ReachableState s)
    (free : s.dev.lock = none)
    (memory : s.live + ∑ j ∈ group, (s.client j).pc.phase.promised ≤ KernelMemory.bytes) :
    ∃ t : State ι, ReachableState t ∧ t.dev.lock = none ∧ t.dev.queuedBytes =
      s.dev.queuedBytes + ∑ j ∈ group, (s.client j).pc.phase.promised := by
  induction group using Finset.induction_on generalizing s with
  | empty => exact ⟨s, reached, free, by simp⟩
  | insert j rest absent ih =>
      rw [Finset.sum_insert absent] at memory ⊢
      obtain ⟨t, gone, live, bytes⟩ := keep_promise j reached free (by omega)
      have same : ∑ k ∈ rest, (t.client k).pc.phase.promised =
          ∑ k ∈ rest, (s.client k).pc.phase.promised := by
        refine Finset.sum_congr rfl fun k member => ?_
        have other : k ≠ j := by
          rintro rfl
          exact absent member
        rw [gone.others k other]
      obtain ⟨u, reached', free', bytes'⟩ := ih gone.reached gone.free (by omega)
      exact ⟨u, reached', free', by omega⟩

/-- **The condition is needed.** Where a write is let through that does not fit beside
the promises, and the memory for the promised messages is there, the clients can go on so
that `queued_bytes` exceeds `MAX_BYTES` while the lock is free. -/
theorem overflow_of_overlooked {s : State ι} {a : ι × Choice} (reached : ReachableState s)
    (overlooked : ¬ FitsBesidePromises s a)
    (memory : Covered KernelMemory.bytes (s.live + maxMsg) fun j =>
      (s.client j).pc.phase.promised) :
    ∃ t : State ι, ReachableState t ∧ t.dev.lock = none ∧
      maxBytes < t.dev.queuedBytes := by
  obtain ⟨i, choice⟩ := a
  simp only [FitsBesidePromises, Covered, not_forall, not_le] at overlooked
  obtain ⟨args, position, room, group, beyond⟩ := overlooked
  have permitted : Permitted args.count :=
    sized_at_capacityTest ((accounted_of_reachable reached).sized i) (.inl position)
  have short := permitted.2
  -- client `i` is let through and releases the lock
  have granted := reachable_after reached position .skip (.writing args .unlockRoom)
    (by simp [m2mWriteNext, room])
  obtain ⟨u, admitted, same⟩ : ∃ u, ReachableState u ∧
      u = (s.after i .skip (.writing args .unlockRoom)).after i .mutexUnlock
        (.writing args .allocMsg) :=
    ⟨_, reachable_after granted (after_pc_self _ _ _ rfl) _ _ rfl, rfl⟩
  have own : (u.client i).pc.phase.promised = args.count := by
    rw [same, after_pc_self _ _ _ rfl]
    rfl
  have others : ∑ j ∈ group.erase i, (u.client j).pc.phase.promised =
      ∑ j ∈ group, (s.client j).pc.phase.promised := by
    calc ∑ j ∈ group.erase i, (u.client j).pc.phase.promised
        = ∑ j ∈ group.erase i, (s.client j).pc.phase.promised := by
          refine Finset.sum_congr rfl fun j member => ?_
          have other := Finset.ne_of_mem_erase member
          rw [same, after_pc_other _ _ rfl other, after_pc_other _ _ rfl other]
      _ = ∑ j ∈ group, (s.client j).pc.phase.promised := by
          refine Finset.sum_erase group ?_
          rw [position]
          rfl
  -- then it and the group keep their promises
  have total : ∑ j ∈ insert i (group.erase i), (u.client j).pc.phase.promised =
      args.count + ∑ j ∈ group, (s.client j).pc.phase.promised := by
    rw [Finset.sum_insert (Finset.notMem_erase i group), own, others]
  have paid : s.live + maxMsg + ∑ j ∈ group, (s.client j).pc.phase.promised ≤
      KernelMemory.bytes := memory group
  have live : u.live = s.live := by rw [same]; rfl
  have bytes : u.dev.queuedBytes = s.dev.queuedBytes := by rw [same]; rfl
  obtain ⟨t, reached', free, kept⟩ := keep_promises (insert i (group.erase i)) admitted
    (by rw [same]; rfl) (by omega)
  exact ⟨t, reached', free, by omega⟩

end OsLab.MessageQueue
