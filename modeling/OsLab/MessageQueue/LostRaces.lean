import OsLab.MessageQueue.Wakeup

/-!
# Readers that lose a race

`m2m_read` tests the list three times: under the lock for an `O_NONBLOCK` file, in the
condition of the wait, and under the lock again before it takes a message. It drops the
lock between the tests, so another reader can take the last message there.

* An `O_NONBLOCK` reader that passed the first test waits like any other reader. If the
  last message is taken before it tests the condition, it sleeps.
* A blocking reader that left the wait goes to the exit of the last test if the message
  is taken before it has the lock, and returns `-EAGAIN`.

A statement that takes the last message while such a reader trusts in it is the only
cause. `nonblocking_never_asleep` and `blocking_never_eagain` are about the runs without
one, and `asleep_of_theft` and `eagain_of_theft` say that every one can be the beginning
of the failure. The writer tests again in a loop and has neither.

Both results are about a property of a position that depends on whether there is a
message. `Watch` collects what such a property needs to be kept by every statement.
-/

set_option autoImplicit false

namespace OsLab.MessageQueue

open OsLab.Foundation

variable {ι : Type}

/-! ## Who takes the last message -/

/-- `list_del` is a statement of a reader with the lock. -/
theorem next_listDel [KernelMemory] {s : State ι} {i : ι} {choice : Choice} {m : Msg ι} {pc : Pc ι}
    (decided : next s i choice = some (.listDel m, pc)) :
    ∃ a rest, (s.client i).pc = .reading a .take ∧ s.dev.msgList = m :: rest ∧
      pc = .reading a (.subBytes m) := by
  unfold next at decided
  split at decided
  case h_1 c _ => cases c <;> cases decided
  case h_2 =>
      unfold m2mOpenNext at decided
      split at decided <;> cases decided
  case h_3 =>
      unfold m2mReleaseNext at decided
      split at decided <;> cases decided
  case h_4 a rpc position =>
      unfold m2mReadNext at decided
      split at decided <;> grind
  case h_5 =>
      unfold m2mWriteNext at decided
      split at decided <;> grind
  case h_6 =>
      unfold m2mPollNext at decided
      split at decided <;> grind
  all_goals cases decided

/-- A wait is over only when its condition holds. -/
theorem waitEventInterruptible_proceed {condition : Bool} {w : WaitPc} {choice : Choice}
    (waits : waitEventInterruptible condition w choice = some .proceed) : condition = true := by
  cases condition with
  | true => rfl
  | false =>
      unfold waitEventInterruptible at waits
      split at waits <;> grind

variable [DecidableEq ι]

section Interference

variable [KernelMemory]

/-- A statement that empties the list takes its last message. -/
theorem hasMessage_after {s : State ι} {i : ι} {choice : Choice} {effect : Effect ι} {pc : Pc ι}
    (decided : next s i choice = some (effect, pc)) (message : s.dev.hasMessage = true)
    (emptied : (s.after i effect pc).dev.hasMessage = false) :
    ∃ a m, (s.client i).pc = .reading a .take ∧ s.dev.msgList = [m] ∧
      pc = .reading a (.subBytes m) := by
  cases effect with
  | listDel m =>
      obtain ⟨a, rest, position, list, moved⟩ := next_listDel decided
      have last : rest = [] := by
        simpa [State.after, State.apply, State.setClient, Mydev.hasMessage, list] using emptied
      exact ⟨a, m, position, by rw [list, last], moved⟩
  | listAddTail m =>
      simp [State.after, State.apply, State.setClient, Mydev.hasMessage] at emptied
  | file fileEffect =>
      have same : (s.after i (.file fileEffect) pc).dev.hasMessage = s.dev.hasMessage := by
        simp [State.after, State.apply, State.setClient, Mydev.hasMessage]
      cases message.symm.trans (same.symm.trans emptied)
  | _ => cases message.symm.trans emptied

/-- The condition on a statement: it does not take the last message while a reader
trusts in it. -/
def LeavesMessage (trusts : Pc ι → Bool) (s : State ι) (a : ι × Choice) : Prop :=
  ∀ args m, (s.client a.1).pc = .reading args .take → s.dev.msgList = [m] →
    ∀ j, trusts (s.client j).pc = false

/-- A reader with the lock, at the test before `list_del`. -/
def Pc.takes : Pc ι → Bool
  | .reading _ .take => true
  | _ => false

omit [DecidableEq ι] [KernelMemory] in
theorem leavesMessage_iff {trusts : Pc ι → Bool} {s : State ι} {a : ι × Choice} :
    LeavesMessage trusts s a ↔ ((s.client a.1).pc.takes = true → s.dev.msgList.length = 1 →
      ∀ j, trusts (s.client j).pc = false) := by
  constructor
  · intro leaves takes single
    obtain ⟨m, last⟩ := List.length_eq_one_iff.mp single
    unfold Pc.takes at takes
    split at takes
    · exact leaves _ m (by assumption) last
    · cases takes
  · intro leaves args m taking last
    exact leaves (by rw [taking]; rfl) (by rw [last]; rfl)

instance [Fintype ι] (trusts : Pc ι → Bool) (s : State ι) (a : ι × Choice) :
    Decidable (LeavesMessage trusts s a) :=
  decidable_of_iff _ leavesMessage_iff.symm

/-- A statement of a reader that goes on. -/
theorem reachable_reader {s : State ι} {i : ι} {a : ReadArgs} {pc : ReadPc ι}
    (reached : ReachableState s) (position : (s.client i).pc = .reading a pc) (effect : Effect ι)
    (pc' : Pc ι) (decided : m2mReadNext s.dev a pc .go = some (effect, pc')) :
    ReachableState (s.after i effect pc') := by
  refine reached.next (a := (i, .go)) ?_
  simp only [Step, step, next, position, decided]

/-- A call that returns is recorded. -/
theorem reachable_finish {s : State ι} {i : ι} {c : Call} {ret : Int} {delivered : List UInt8}
    (reached : ReachableState s) (position : (s.client i).pc = .returning c ret delivered) :
    ∃ t : State ι, ReachableState t ∧ ⟨i, (s.client i).calls, c, ret, delivered⟩ ∈ t.returned := by
  have finished : ReachableState (s.after i (.finish c ret delivered) .idle) := by
    refine reached.next (a := (i, .go)) ?_
    simp only [Step, step, next, position]
  refine ⟨_, finished, List.mem_append_right _ (List.mem_singleton.mpr ?_)⟩
  simp [State.setClient]

/-- The last message is taken: the list is empty and every other client is where it was. -/
theorem theft {s : State ι} {i : ι} {a : ReadArgs} {m : Msg ι} (reached : ReachableState s)
    (taking : (s.client i).pc = .reading a .take) (last : s.dev.msgList = [m]) :
    ∃ t, ReachableState t ∧ t.dev.msgList = [] ∧ (t.client i).pc = .reading a (.subBytes m) ∧
      ∀ j, j ≠ i → (t.client j).pc = (s.client j).pc := by
  have taken := reachable_reader reached taking (.listDel m) (.reading a (.subBytes m))
    (by simp only [m2mReadNext, last])
  refine ⟨_, taken, ?_, after_pc_self _ _ _ rfl, fun j other => after_pc_other _ _ rfl other⟩
  simp [State.after, State.apply, State.setClient, last]

/-- A property of positions that may need a message in the list. -/
structure Watch (P : Bool → Pc ι → Prop) : Prop where
  grows : ∀ pc, P false pc → P true pc
  woken : ∀ message pc (effect : Effect ι), P message pc → P message (effect.wake pc)
  taken : ∀ a m, P false (.reading a (.subBytes m))
  moved : ∀ (s : State ι) i choice effect pc, next s i choice = some (effect, pc) →
    P s.dev.hasMessage (s.client i).pc → P s.dev.hasMessage pc

/-- A statement keeps the property unless it takes the last message, and then it keeps
it for the clients that do not need one. -/
theorem Watch.step {P : Bool → Pc ι → Prop} (watch : Watch P) {s t : State ι} {i : ι}
    {choice : Choice} (stepped : step s i choice = some t)
    (holds : ∀ j, P s.dev.hasMessage (s.client j).pc)
    (spared : ∀ a m, (s.client i).pc = .reading a .take → s.dev.msgList = [m] →
      ∀ j, j ≠ i → P false (s.client j).pc) (j : ι) :
    P t.dev.hasMessage (t.client j).pc := by
  obtain ⟨effect, pc, decided, rfl⟩ := step_cases stepped
  rw [after_pc]
  refine watch.woken _ _ effect ?_
  have own := watch.moved s i choice effect pc decided (holds i)
  have before : P s.dev.hasMessage (if j = i then pc else (s.client j).pc) := by
    split
    · exact own
    · exact holds j
  cases later : (s.after i effect pc).dev.hasMessage with
  | true =>
      cases earlier : s.dev.hasMessage with
      | true => rwa [earlier] at before
      | false =>
          rw [earlier] at before
          exact watch.grows _ before
  | false =>
      cases earlier : s.dev.hasMessage with
      | false => rwa [earlier] at before
      | true =>
          obtain ⟨a, m, position, last, rfl⟩ := hasMessage_after decided earlier later
          split
          · exact watch.taken a m
          · rename_i other
            exact spared a m position last j other

end Interference

/-! ## `O_NONBLOCK` readers -/

/-- An `O_NONBLOCK` reader between its test under the lock and the one of the wait. -/
def Pc.trustsTest : Pc ι → Bool
  | .reading a (.wait .test) => a.nonblock
  | _ => false

/-- An `O_NONBLOCK` reader is at no position of its wait but the first test, and there
the list has a message. An `O_NONBLOCK` writer does not wait. -/
def Pc.Prompt (message : Bool) : Pc ι → Prop
  | .reading _ (.nonblockUnlock false) => message = true
  | .reading a (.wait w) => a.nonblock = true → w = .test ∧ message = true
  | .writing a (.wait _) => a.nonblock = false
  | _ => True

omit [DecidableEq ι] in
theorem m2mReadNext_prompt {dev : Mydev ι} {a : ReadArgs} {pc : ReadPc ι} {choice : Choice}
    {effect : Effect ι} {pc' : Pc ι} (decided : m2mReadNext dev a pc choice = some (effect, pc'))
    (before : (Pc.reading a pc).Prompt dev.hasMessage) : pc'.Prompt dev.hasMessage := by
  cases pc with
  | entry =>
      cases choice <;> cases decided
      cases nonblock : a.nonblock with
      | true => trivial
      | false => exact fun prompt => absurd prompt (by simp [nonblock])
  | nonblockTest =>
      cases choice <;> cases decided
      cases message : dev.hasMessage with
      | true => rfl
      | false => trivial
  | nonblockUnlock empty =>
      cases empty <;> cases choice <;> cases decided
      · exact fun _ => ⟨rfl, before⟩
      · trivial
  | wait w =>
      simp only [m2mReadNext] at decided
      split at decided <;> cases decided
      · rename_i waits
        intro nonblock
        -- at the first test with a message the wait is over
        obtain ⟨rfl, message⟩ := before nonblock
        rw [message] at waits
        cases choice <;> cases waits
      · trivial
      · trivial
  | nonblockLock | lock =>
      cases choice <;> try cases decided
      obtain ⟨_, same⟩ := lock_free_of_some decided
      cases same
      trivial
  | take =>
      cases choice <;> simp only [m2mReadNext, reduceCtorEq] at decided
      split at decided <;> cases decided <;> trivial
  | _ => cases choice <;> cases decided <;> trivial

section Nonblocking

variable [KernelMemory]

omit [DecidableEq ι] in
theorem m2mWriteNext_prompt {dev : Mydev ι} {live : Nat} {i : ι} {number : Nat} {a : WriteArgs}
    {pc : WritePc ι} {choice : Choice} {effect : Effect ι} {pc' : Pc ι}
    (decided : m2mWriteNext dev live i number a pc choice = some (effect, pc'))
    (before : (Pc.writing a pc).Prompt dev.hasMessage) : pc'.Prompt dev.hasMessage := by
  rcases m2mWriteNext_stays decided with ⟨wpc, rfl⟩ | ⟨ret, delivered, rfl⟩
  · cases wpc with
    | wait w =>
        cases pc with
        | wait w₀ => exact before
        | full =>
            cases choice <;> simp only [m2mWriteNext, reduceCtorEq] at decided
            split at decided
            · cases decided
            · rename_i blocking
              exact Bool.eq_false_iff.mpr blocking
        | _ =>
            unfold m2mWriteNext at decided
            split at decided <;> grind
    | _ => trivial
  · trivial

omit [DecidableEq ι] in
theorem watch_prompt : Watch (Pc.Prompt (ι := ι)) where
  grows pc holds := by
    cases pc with
    | reading a rpc =>
        cases rpc with
        | nonblockUnlock empty => cases empty <;> trivial
        | wait w => exact fun nonblock => ⟨(holds nonblock).1, rfl⟩
        | _ => trivial
    | writing a wpc => cases wpc <;> exact holds
    | _ => trivial
  woken message pc effect holds := by
    cases effect with
    | wakeReadq =>
        cases pc with
        | reading a rpc =>
            cases rpc with
            | wait w =>
                intro nonblock
                obtain ⟨rfl, there⟩ := holds nonblock
                exact ⟨rfl, there⟩
            | _ => exact holds
        | _ => exact holds
    | wakeWriteq =>
        cases pc with
        | writing a wpc => cases wpc <;> exact holds
        | _ => exact holds
    | _ => exact holds
  taken _ _ := trivial
  moved s i choice effect pc decided holds := by
    unfold next at decided
    split at decided
    case h_1 c _ => cases c <;> cases decided <;> trivial
    case h_2 => rcases m2mOpenNext_stays decided with ⟨_, rfl⟩ | ⟨_, rfl⟩ <;> trivial
    case h_3 => rcases m2mReleaseNext_stays decided with ⟨_, rfl⟩ | rfl <;> trivial
    case h_4 position =>
        rw [position] at holds
        exact m2mReadNext_prompt decided holds
    case h_5 position =>
        rw [position] at holds
        exact m2mWriteNext_prompt decided holds
    case h_6 =>
        rcases m2mPollNext_stays decided with ⟨_, rfl⟩ | ⟨_, rfl⟩ <;> trivial
    all_goals cases decided <;> trivial

/-- No `O_NONBLOCK` call sleeps on either queue. -/
def State.NonblockingAwake (s : State ι) : Prop :=
  ∀ j, (∀ a, a.nonblock = true → (s.client j).pc ≠ .reading a (.wait .asleep)) ∧
    ∀ a, a.nonblock = true → (s.client j).pc ≠ .writing a (.wait .asleep)

/-- The invariant of the runs in which nobody takes what an `O_NONBLOCK` reader trusts in. -/
def PromptClients (s : State ι) : Prop :=
  s.protocol.Accounted ∧ ∀ j, (s.client j).pc.Prompt s.dev.hasMessage

theorem PromptClients.step {s t : State ι} {a : ι × Choice} (prompt : PromptClients s)
    (leaves : LeavesMessage Pc.trustsTest s a) (stepped : Step s a t) : PromptClients t := by
  obtain ⟨i, choice⟩ := a
  obtain ⟨accounted, holds⟩ := prompt
  refine ⟨accounted.step (protocol_step stepped), ?_⟩
  refine watch_prompt.step stepped holds ?_
  intro args m taking last j other
  have untrusting := leaves args m taking last j
  cases position : (s.client j).pc with
  | reading b rpc =>
      rw [position] at untrusting
      cases rpc with
      | nonblockUnlock empty =>
          -- that reader would hold the lock too
          refine absurd (accounted.exclusive.unique (i := i) (j := j) ?_ ?_) other
          · rw [protocol_phase taking]
            rfl
          · rw [protocol_phase position]
            rfl
      | wait w =>
          intro nonblock
          have before := holds j
          rw [position] at before
          obtain ⟨rfl, -⟩ := before nonblock
          cases nonblock.symm.trans untrusting
      | _ => trivial
  | writing b wpc =>
      have before := holds j
      rw [position] at before
      cases wpc <;> exact before
  | _ => trivial

omit [DecidableEq ι] [KernelMemory] in
theorem PromptClients.awake {s : State ι} (prompt : PromptClients s) : s.NonblockingAwake := by
  intro j
  have holds := prompt.2 j
  constructor
  · intro a nonblock asleep
    rw [asleep] at holds
    cases (holds nonblock).1
  · intro a nonblock asleep
    rw [asleep] at holds
    cases nonblock.symm.trans holds

/-- **`O_NONBLOCK` calls do not sleep where nobody takes the last message between the two
tests.** -/
theorem nonblocking_never_asleep {trace : List (State ι × (ι × Choice))} {s : State ι}
    (run : Run Step m2mInit trace s)
    (leaves : ∀ p ∈ trace, LeavesMessage Pc.trustsTest p.1 p.2) :
    s.NonblockingAwake ∧ ∀ p ∈ trace, p.1.NonblockingAwake := by
  have start : PromptClients (m2mInit : State ι) := ⟨Protocol.accounted_init, fun _ => trivial⟩
  obtain ⟨last, earlier⟩ := run.always_of_guard PromptClients (LeavesMessage Pc.trustsTest) start
    (fun _ _ _ before leaves stepped => before.step leaves stepped) leaves
  exact ⟨last.awake, fun p member => (earlier p member).awake⟩

end Nonblocking

/-- Client 0 writes two messages. Client 1 finds one in the first test of its `O_NONBLOCK` read,
client 2 takes the first, client 1 goes on and takes the second, and client 2 finds none. -/
def sharedWithNonblocking : List (Fin 3 × Choice) :=
  alone 0 (.m2mWrite ⟨false, 3, fun _ => 7⟩) 13 ++ alone 0 (.m2mWrite ⟨false, 4, fun _ => 8⟩) 13 ++
    alone 1 (.m2mRead ⟨true, 8⟩) 4 ++ alone 2 (.m2mRead ⟨false, 8⟩) 11 ++
    List.replicate 10 (1, .go) ++ alone 2 (.m2mRead ⟨true, 8⟩) 5

theorem nonblocking_never_asleep_shared :
    ∃ trace, ∃ s : State (Fin 3), Run Step m2mInit trace s ∧
      (s.returned.map fun r => (r.client, r.ret)) = [(0, 3), (0, 4), (2, 3), (1, 4), (2, -11)] ∧
      s.NonblockingAwake := by
  obtain ⟨s, ran⟩ := Option.isSome_iff_exists.mp
    (show (runSchedule sharedWithNonblocking m2mInit).isSome from rfl)
  have run := run_of_runSchedule ran
  have leaves : ∀ p ∈ scheduleTrace sharedWithNonblocking, LeavesMessage Pc.trustsTest p.1 p.2 := by
    decide +kernel
  have results : (s.returned.map fun r => (r.client, r.ret)) =
      [(0, 3), (0, 4), (2, 3), (1, 4), (2, -11)] := by
    cases ran
    rfl
  exact ⟨_, s, run, results, (nonblocking_never_asleep run leaves).1⟩

/-- Client 0 writes one message. Client 1 finds it in the first test of its `O_NONBLOCK`
read, client 2 takes it, and client 1 waits. -/
def stolenFromNonblocking : List (Fin 3 × Choice) :=
  alone 0 (.m2mWrite ⟨false, 3, fun _ => 7⟩) 13 ++ alone 1 (.m2mRead ⟨true, 8⟩) 4 ++
    alone 2 (.m2mRead ⟨false, 8⟩) 10 ++ List.replicate 4 (1, .go)

/-- **An `O_NONBLOCK` reader sleeps.** -/
theorem nonblocking_reader_asleep :
    ∃ s : State (Fin 3), ReachableState s ∧
      (s.client 1).pc = .reading ⟨true, 8⟩ (.wait .asleep) ∧ ¬ s.NonblockingAwake := by
  obtain ⟨s, ran⟩ := Option.isSome_iff_exists.mp
    (show (runSchedule stolenFromNonblocking m2mInit).isSome from rfl)
  have asleep : (s.client 1).pc = .reading ⟨true, 8⟩ (.wait .asleep) := by
    cases ran
    rfl
  exact ⟨s, reachable_of_runSchedule .refl ran, asleep, fun awake => (awake 1).1 _ rfl asleep⟩

/-- **The condition is needed.** Where the last message is taken from an `O_NONBLOCK` reader,
that reader can go on to sleep. -/
theorem asleep_of_theft [KernelMemory] {s : State ι} {a : ι × Choice} (reached : ReachableState s)
    (stolen : ¬ LeavesMessage Pc.trustsTest s a) :
    ∃ t : State ι, ReachableState t ∧ ¬ t.NonblockingAwake := by
  simp only [LeavesMessage, not_forall, Bool.not_eq_false] at stolen
  obtain ⟨args, m, taking, last, j, trusts⟩ := stolen
  obtain ⟨b, position, nonblock⟩ :
      ∃ b, (s.client j).pc = .reading b (.wait .test) ∧ b.nonblock = true := by
    unfold Pc.trustsTest at trusts
    split at trusts
    · exact ⟨_, by assumption, trusts⟩
    · cases trusts
  have other : j ≠ a.1 := by
    rintro rfl
    cases position.symm.trans taking
  obtain ⟨u, reached, empty, -, others⟩ := theft reached taking last
  rw [← others j other] at position
  have none : u.dev.hasMessage = false := by simp [Mydev.hasMessage, empty]
  -- the four statements of the wait that follow on an empty list
  have prepared := reachable_reader reached position .skip (.reading b (.wait .prepare))
    (by simp [m2mReadNext, waitEventInterruptible, none])
  have queued := reachable_reader prepared (after_pc_self _ _ _ rfl) .skip
    (.reading b (.wait (.retest false false))) rfl
  have tested := reachable_reader queued (after_pc_self _ _ _ rfl) .skip
    (.reading b (.wait (.schedule false)))
    (by simp [m2mReadNext, waitEventInterruptible, State.after, State.apply, State.setClient, none])
  have asleep := reachable_reader tested (after_pc_self _ _ _ rfl) .skip
    (.reading b (.wait .asleep)) rfl
  exact ⟨_, asleep, fun awake => (awake j).1 b nonblock (after_pc_self _ _ _ rfl)⟩

/-! ## Blocking readers -/

/-- A blocking reader between the wait and the lock. -/
def Pc.trustsWait : Pc ι → Bool
  | .reading a .lock => !a.nonblock
  | _ => false

/-- What a call that may block answers. -/
def Answer (ret : Int) : Prop :=
  0 ≤ ret ∨ ret = -erestartsys ∨ ret = -efault ∨ ret = -enomem ∨ ret = -emsgsize

/-- A read or a write on a file without `O_NONBLOCK`. -/
def Call.blocking : Call → Bool
  | .m2mRead a => !a.nonblock
  | .m2mWrite a => !a.nonblock
  | _ => false

/-- A blocking reader that left its wait finds a message, so it does not come to the exit
for the empty list, and no result is `-EAGAIN`. -/
def Pc.Patient (message : Bool) : Pc ι → Prop
  | .reading a .nonblockLock | .reading a .nonblockTest | .reading a (.nonblockUnlock _)
  | .reading a .unlockEmpty => a.nonblock = true
  | .reading a .lock | .reading a .take => a.nonblock = false → message = true
  | .reading _ (.freeData _ ret _) | .reading _ (.freeMsg _ ret _)
  | .reading _ (.wake _ ret _) => Answer ret
  | .returning c ret _ => c.blocking = true → Answer ret
  | _ => True

omit [DecidableEq ι] in
theorem m2mReadNext_patient {dev : Mydev ι} {a : ReadArgs} {pc : ReadPc ι} {choice : Choice}
    {effect : Effect ι} {pc' : Pc ι} (decided : m2mReadNext dev a pc choice = some (effect, pc'))
    (before : (Pc.reading a pc).Patient dev.hasMessage) : pc'.Patient dev.hasMessage := by
  cases pc with
  | entry =>
      cases choice <;> cases decided
      cases nonblock : a.nonblock with
      | true => exact nonblock
      | false => trivial
  | nonblockUnlock empty =>
      cases empty <;> cases choice <;> cases decided
      · trivial
      · have nonblock : a.nonblock = true := before
        exact fun blocking => absurd blocking (by simp [Call.blocking, nonblock])
  | wait w =>
      simp only [m2mReadNext] at decided
      split at decided <;> cases decided
      · trivial
      · rename_i waits
        exact fun _ => waitEventInterruptible_proceed waits
      · exact fun _ => .inr (.inl rfl)
  | nonblockLock | lock =>
      cases choice <;> try cases decided
      obtain ⟨_, same⟩ := lock_free_of_some decided
      cases same
      exact before
  | take =>
      cases choice <;> simp only [m2mReadNext, reduceCtorEq] at decided
      split at decided
      · rename_i empty
        cases decided
        cases nonblock : a.nonblock with
        | true => exact nonblock
        | false =>
            have message := before nonblock
            simp [Mydev.hasMessage, empty] at message
      · cases decided
        trivial
  | unlockEmpty =>
      cases choice <;> cases decided
      have nonblock : a.nonblock = true := before
      exact fun blocking => absurd blocking (by simp [Call.blocking, nonblock])
  | copy m =>
      cases choice <;> cases decided
      · exact .inl (Int.natCast_nonneg _)
      · exact .inr (.inr (.inl rfl))
  | wake m ret delivered =>
      cases choice <;> cases decided
      exact fun _ => before
  | nonblockTest | freeData m ret delivered | freeMsg m ret delivered =>
      cases choice <;> cases decided
      exact before
  | subBytes | unlock =>
      cases choice <;> cases decided
      trivial

section Blocking

variable [KernelMemory]

omit [DecidableEq ι] in
theorem m2mWriteNext_patient {dev : Mydev ι} {live : Nat} {i : ι} {number : Nat} {a : WriteArgs}
    {pc : WritePc ι} {choice : Choice} {effect : Effect ι} {pc' : Pc ι}
    (decided : m2mWriteNext dev live i number a pc choice = some (effect, pc')) :
    pc'.Patient dev.hasMessage := by
  have results : ∀ ret delivered, pc' = .returning (.m2mWrite a) ret delivered →
      a.nonblock = false → Answer ret := by
    rintro ret delivered rfl blocking
    unfold m2mWriteNext at decided
    unfold Answer
    split at decided <;> grind
  rcases m2mWriteNext_stays decided with ⟨wpc, rfl⟩ | ⟨ret, delivered, rfl⟩
  · trivial
  · intro blocking
    exact results ret delivered rfl (by simpa [Call.blocking] using blocking)

omit [DecidableEq ι] in
theorem watch_patient : Watch (Pc.Patient (ι := ι)) where
  grows pc holds := by
    cases pc with
    | reading a rpc =>
        cases rpc with
        | lock | take => exact fun _ => rfl
        | _ => exact holds
    | _ => exact holds
  woken message pc effect holds := by
    cases effect with
    | wakeReadq =>
        cases pc with
        | reading a rpc => cases rpc <;> exact holds
        | _ => exact holds
    | wakeWriteq =>
        cases pc with
        | writing a wpc => cases wpc <;> exact holds
        | _ => exact holds
    | _ => exact holds
  taken _ _ := trivial
  moved s i choice effect pc decided holds := by
    unfold next at decided
    split at decided
    case h_1 c _ => cases c <;> cases decided <;> trivial
    case h_2 =>
        rcases m2mOpenNext_stays decided with ⟨_, rfl⟩ | ⟨_, rfl⟩
        · trivial
        · exact nofun
    case h_3 =>
        rcases m2mReleaseNext_stays decided with ⟨_, rfl⟩ | rfl
        · trivial
        · exact nofun
    case h_4 position =>
        rw [position] at holds
        exact m2mReadNext_patient decided holds
    case h_5 => exact m2mWriteNext_patient decided
    case h_6 =>
        rcases m2mPollNext_stays decided with ⟨_, rfl⟩ | ⟨_, rfl⟩
        · trivial
        · exact nofun
    all_goals cases decided <;> trivial

omit [DecidableEq ι] [KernelMemory] in
theorem returning_position {pc : Pc ι} {c : Call} {ret : Int} {delivered : List UInt8}
    (phase : pc.phase = .returning c ret delivered) : pc = .returning c ret delivered := by
  cases pc with
  | returning => cases phase; rfl
  | writing b wpc => cases wpc <;> cases phase
  | reading b rpc => cases rpc <;> cases phase
  | polling ppc => cases ppc <;> cases phase
  | _ => cases phase

/-- A result is recorded by the client that returns it. -/
theorem returned_cases {s t : State ι} {i : ι} {choice : Choice}
    (stepped : step s i choice = some t) :
    t.returned = s.returned ∨ ∃ c ret delivered, (s.client i).pc = .returning c ret delivered ∧
      t.returned = s.returned ++ [⟨i, (s.client i).calls, c, ret, delivered⟩] := by
  have simulated := protocol_step stepped
  generalize view : t.protocol = after at simulated
  have same : t.returned = after.returned := by rw [← view]; rfl
  rw [same]
  cases simulated with
  | finish phase => exact .inr ⟨_, _, _, returning_position phase, rfl⟩
  | _ => exact .inl rfl

/-- The blocking calls keep what they promise: they return an answer, and where a test
under the lock fails they go on waiting. A reader does not come to the exit for the empty
list, and a writer goes back to its wait. -/
structure State.BlockingPatient (s : State ι) : Prop where
  answers : ∀ r ∈ s.returned, r.call.blocking = true → Answer r.ret
  reader : ∀ j a, a.nonblock = false → (s.client j).pc ≠ .reading a .unlockEmpty
  writer : ∀ j a choice t, a.nonblock = false → (s.client j).pc = .writing a .full →
    step s j choice = some t → (t.client j).pc = .writing a (.wait .test)

/-- The invariant of the runs in which nobody takes what a blocking reader was woken for. -/
def PatientClients (s : State ι) : Prop :=
  s.protocol.Accounted ∧ (∀ j, (s.client j).pc.Patient s.dev.hasMessage) ∧
    ∀ r ∈ s.returned, r.call.blocking = true → Answer r.ret

theorem PatientClients.step {s t : State ι} {a : ι × Choice} (patient : PatientClients s)
    (leaves : LeavesMessage Pc.trustsWait s a) (stepped : Step s a t) : PatientClients t := by
  obtain ⟨i, choice⟩ := a
  obtain ⟨accounted, holds, answers⟩ := patient
  refine ⟨accounted.step (protocol_step stepped), ?_, ?_⟩
  · refine watch_patient.step stepped holds ?_
    intro args m taking last j other
    have untrusting := leaves args m taking last j
    have before := holds j
    cases position : (s.client j).pc with
    | reading b rpc =>
        rw [position] at untrusting before
        cases rpc with
        | lock => exact fun blocking => absurd untrusting (by simp [Pc.trustsWait, blocking])
        | take =>
            -- that reader would hold the lock too
            refine absurd (accounted.exclusive.unique (i := i) (j := j) ?_ ?_) other
            · rw [protocol_phase taking]
              rfl
            · rw [protocol_phase position]
              rfl
        | _ => exact before
    | returning c ret delivered =>
        rw [position] at before
        exact before
    | _ => trivial
  · rcases returned_cases stepped with same | ⟨c, ret, delivered, position, more⟩
    · rw [same]
      exact answers
    · have own := holds i
      rw [position] at own
      rw [more, List.forall_mem_append, List.forall_mem_singleton]
      exact ⟨answers, own⟩

theorem PatientClients.blockingPatient {s : State ι} (patient : PatientClients s) :
    s.BlockingPatient where
  answers := patient.2.2
  reader j a blocking position := by
    have holds := patient.2.1 j
    rw [position] at holds
    cases blocking.symm.trans holds
  writer j a choice t blocking position stepped := by
    obtain ⟨effect, pc, decided, rfl⟩ := step_cases stepped
    unfold next at decided
    rw [position] at decided
    cases choice <;> simp [m2mWriteNext, blocking] at decided
    obtain ⟨rfl, rfl⟩ := decided
    exact after_pc_self s j _ rfl

/-- **Blocking calls do not return `-EAGAIN` where nobody takes the last message between
the wait and the lock.** -/
theorem blocking_never_eagain {trace : List (State ι × (ι × Choice))} {s : State ι}
    (run : Run Step m2mInit trace s)
    (leaves : ∀ p ∈ trace, LeavesMessage Pc.trustsWait p.1 p.2) :
    s.BlockingPatient ∧ ∀ p ∈ trace, p.1.BlockingPatient := by
  have start : PatientClients (m2mInit : State ι) :=
    ⟨Protocol.accounted_init, fun _ => trivial, nofun⟩
  obtain ⟨last, earlier⟩ := run.always_of_guard PatientClients (LeavesMessage Pc.trustsWait) start
    (fun _ _ _ before leaves stepped => before.step leaves stepped) leaves
  exact ⟨last.blockingPatient, fun p member => (earlier p member).blockingPatient⟩

end Blocking

/-- Client 0 writes two messages. Clients 1 and 2 both leave their waits, and each takes one. -/
def sharedByBlocking : List (Fin 3 × Choice) :=
  alone 0 (.m2mWrite ⟨false, 3, fun _ => 7⟩) 13 ++ alone 0 (.m2mWrite ⟨false, 4, fun _ => 8⟩) 13 ++
    alone 1 (.m2mRead ⟨false, 8⟩) 2 ++ alone 2 (.m2mRead ⟨false, 8⟩) 2 ++
    List.replicate 9 (1, .go) ++ List.replicate 9 (2, .go)

theorem blocking_never_eagain_shared :
    ∃ trace, ∃ s : State (Fin 3), Run Step m2mInit trace s ∧
      (s.returned.map fun r => (r.client, r.ret)) = [(0, 3), (0, 4), (1, 3), (2, 4)] ∧
      s.BlockingPatient := by
  obtain ⟨s, ran⟩ := Option.isSome_iff_exists.mp
    (show (runSchedule sharedByBlocking m2mInit).isSome from rfl)
  have run := run_of_runSchedule ran
  have leaves : ∀ p ∈ scheduleTrace sharedByBlocking, LeavesMessage Pc.trustsWait p.1 p.2 := by
    decide +kernel
  have results : (s.returned.map fun r => (r.client, r.ret)) =
      [(0, 3), (0, 4), (1, 3), (2, 4)] := by
    cases ran
    rfl
  exact ⟨_, s, run, results, (blocking_never_eagain run leaves).1⟩

/-- Client 0 writes one message. Clients 1 and 2 both leave their waits, client 1 takes
the message, and client 2 finds the list empty. -/
def stolenFromBlocking : List (Fin 3 × Choice) :=
  alone 0 (.m2mWrite ⟨false, 3, fun _ => 7⟩) 13 ++ alone 1 (.m2mRead ⟨false, 8⟩) 2 ++
    alone 2 (.m2mRead ⟨false, 8⟩) 2 ++ List.replicate 9 (1, .go) ++ List.replicate 4 (2, .go)

/-- **A blocking read returns `-EAGAIN`.** -/
theorem blocking_reader_eagain :
    ∃ s : State (Fin 3), ReachableState s ∧
      (∃ r ∈ s.returned, r.call = .m2mRead ⟨false, 8⟩ ∧ r.ret = -eagain) ∧
      ¬ s.BlockingPatient := by
  obtain ⟨s, ran⟩ := Option.isSome_iff_exists.mp
    (show (runSchedule stolenFromBlocking m2mInit).isSome from rfl)
  have returned : s.returned[2]? =
      some ⟨2, 1, .m2mRead ⟨false, 8⟩, -eagain, []⟩ := by
    cases ran
    rfl
  have member := List.mem_of_getElem? returned
  refine ⟨s, reachable_of_runSchedule .refl ran, ⟨_, member, rfl, rfl⟩, fun patient => ?_⟩
  have answer := patient.answers _ member rfl
  simp [Answer, eagain, erestartsys, efault, enomem, emsgsize] at answer

/-- **The condition is needed.** Where the last message is taken from a blocking reader
that left its wait, that reader can go on to return `-EAGAIN`. -/
theorem eagain_of_theft [KernelMemory] {s : State ι} {a : ι × Choice} (reached : ReachableState s)
    (stolen : ¬ LeavesMessage Pc.trustsWait s a) :
    ∃ t : State ι, ReachableState t ∧
      ∃ r ∈ t.returned, r.call.blocking = true ∧ r.ret = -eagain := by
  simp only [LeavesMessage, not_forall, Bool.not_eq_false] at stolen
  obtain ⟨args, m, taking, last, j, trusts⟩ := stolen
  obtain ⟨b, position, blocking⟩ :
      ∃ b, (s.client j).pc = .reading b .lock ∧ b.nonblock = false := by
    unfold Pc.trustsWait at trusts
    split at trusts
    · exact ⟨_, by assumption, by simpa using trusts⟩
    · cases trusts
  have other : j ≠ a.1 := by
    rintro rfl
    cases position.symm.trans taking
  obtain ⟨u, reached, empty, thief, others⟩ := theft reached taking last
  rw [← others j other] at position
  -- the thief releases the lock
  have counted := reachable_reader reached thief (.subBytes m.len) (.reading args (.unlock m)) rfl
  have released := reachable_reader counted (after_pc_self _ _ _ rfl) .mutexUnlock
    (.reading args (.copy m)) rfl
  -- the reader takes it and finds the list empty
  have locked := reachable_reader released
    (by rw [after_pc_other _ _ rfl other, after_pc_other _ _ rfl other, position]) .mutexLock
    (.reading b .take) rfl
  have tested := reachable_reader locked (after_pc_self _ _ _ rfl) .skip (.reading b .unlockEmpty)
    (by simp [m2mReadNext, State.after, State.apply, State.setClient, empty])
  have returning := reachable_reader tested (after_pc_self _ _ _ rfl) .mutexUnlock
    (.returning (.m2mRead b) (-eagain) []) rfl
  obtain ⟨t, finished, recorded⟩ := reachable_finish returning (after_pc_self _ _ _ rfl)
  exact ⟨t, finished, _, recorded, by simp [Call.blocking, blocking], rfl⟩

end OsLab.MessageQueue
