import OsLab.MessageQueue.LostRaces

/-!
# What a call does alone

The sequential specification of the device. `Outcome` lists the ways a call can end when
no other client takes a statement meanwhile, with what each of them returns and does to the
list and to `queued_bytes`.

`Alone` is a call run in that way. At every position the client knows how the device
differs from the one it started with (`Pc.Since`). One statement keeps that knowledge
(`since_step`), and a call that is back at its beginning has had one of the outcomes
(`Alone.outcome`). With the lock free an `O_NONBLOCK` call and a poll do come to their
end (`Alone.completes`).

Two contracts are read off the outcomes: which failing calls leave the queue as it was
(`failed_call_keeps_queue`), and when the device is ready for a call that does not return
`-EAGAIN` (`poll_agrees`).
-/

set_option autoImplicit false

namespace OsLab.MessageQueue

open OsLab.Foundation

variable {ι : Type}

/-! ## Outcomes -/

/-- The list and `queued_bytes` are those of `dev₀`. -/
structure Same (dev₀ dev : Mydev ι) : Prop where
  list : dev.msgList = dev₀.msgList
  bytes : dev.queuedBytes = dev₀.queuedBytes

/-- The first message of `dev₀` is gone. -/
structure Removed (dev₀ dev : Mydev ι) (m : Msg ι) : Prop where
  list : dev₀.msgList = m :: dev.msgList
  bytes : dev.queuedBytes + m.len = dev₀.queuedBytes

/-- A message of the given length is at the end. -/
structure Appended (dev₀ dev : Mydev ι) (m : Msg ι) : Prop where
  list : dev.msgList = dev₀.msgList ++ [m]
  bytes : dev.queuedBytes = dev₀.queuedBytes + m.len

/-- What `m2m_poll` reports. -/
def Mydev.pollMask (dev : Mydev ι) : Int :=
  (if dev.hasMessage then pollin else 0) + if dev.queuedBytes < maxBytes then pollout else 0

/-- How a call can end that finds `dev₀` and leaves `dev`. -/
inductive Outcome (dev₀ dev : Mydev ι) : Call → Int → Prop where
  | opened (ret : Int) (same : Same dev₀ dev) : Outcome dev₀ dev .m2mOpen ret
  | released (ret : Int) (same : Same dev₀ dev) : Outcome dev₀ dev .m2mRelease ret
  | polled (same : Same dev₀ dev) (free : dev.lock = none) :
      Outcome dev₀ dev .m2mPoll dev₀.pollMask
  | empty (a : ReadArgs) (none : dev₀.hasMessage = false) (same : Same dev₀ dev) :
      Outcome dev₀ dev (.m2mRead a) (-eagain)
  | readInterrupted (a : ReadArgs) (blocking : a.nonblock = false) (same : Same dev₀ dev) :
      Outcome dev₀ dev (.m2mRead a) (-erestartsys)
  | taken (a : ReadArgs) (m : Msg ι) (removed : Removed dev₀ dev m) :
      Outcome dev₀ dev (.m2mRead a) (min a.count m.len : Nat)
  | takenFault (a : ReadArgs) (m : Msg ι) (removed : Removed dev₀ dev m) :
      Outcome dev₀ dev (.m2mRead a) (-efault)
  | nothing (a : WriteArgs) (zero : a.count = 0) (same : Same dev₀ dev) :
      Outcome dev₀ dev (.m2mWrite a) 0
  | tooLong (a : WriteArgs) (long : maxMsg < a.count) (same : Same dev₀ dev) :
      Outcome dev₀ dev (.m2mWrite a) (-emsgsize)
  | full (a : WriteArgs) (noRoom : maxBytes < dev₀.queuedBytes + a.count)
      (same : Same dev₀ dev) : Outcome dev₀ dev (.m2mWrite a) (-eagain)
  | writeInterrupted (a : WriteArgs) (blocking : a.nonblock = false) (same : Same dev₀ dev) :
      Outcome dev₀ dev (.m2mWrite a) (-erestartsys)
  | noMemory (a : WriteArgs) (room : dev₀.queuedBytes + a.count ≤ maxBytes)
      (same : Same dev₀ dev) : Outcome dev₀ dev (.m2mWrite a) (-enomem)
  | writeFault (a : WriteArgs) (room : dev₀.queuedBytes + a.count ≤ maxBytes)
      (same : Same dev₀ dev) : Outcome dev₀ dev (.m2mWrite a) (-efault)
  | appended (a : WriteArgs) (m : Msg ι) (room : dev₀.queuedBytes + a.count ≤ maxBytes)
      (whole : m.len = a.count) (atEnd : Appended dev₀ dev m) :
      Outcome dev₀ dev (.m2mWrite a) a.count

/-! ## What a client knows alone -/

def ReadPc.Since (dev₀ dev : Mydev ι) (a : ReadArgs) : ReadPc ι → Prop
  | .entry | .nonblockLock | .nonblockTest => Same dev₀ dev
  | .nonblockUnlock empty => Same dev₀ dev ∧ empty = !dev₀.hasMessage
  | .wait w => Same dev₀ dev ∧ (a.nonblock = true → w = .test ∧ dev₀.hasMessage = true)
  | .lock | .take => Same dev₀ dev ∧ dev₀.hasMessage = true
  -- the list does not become empty between the two tests
  | .unlockEmpty => False
  | .subBytes m => dev₀.msgList = m :: dev.msgList ∧ dev.queuedBytes = dev₀.queuedBytes
  | .unlock m | .copy m => Removed dev₀ dev m
  | .freeData m ret _ | .freeMsg m ret _ | .wake m ret _ =>
      Removed dev₀ dev m ∧ (ret = (min a.count m.len : Nat) ∨ ret = -efault)

def WritePc.Since (dev₀ dev : Mydev ι) (a : WriteArgs) : WritePc ι → Prop
  | .entry | .lock | .test => Same dev₀ dev
  | .unlockFull | .full => Same dev₀ dev ∧ maxBytes < dev₀.queuedBytes + a.count
  | .wait _ => Same dev₀ dev ∧ a.nonblock = false
  | .unlockRoom | .allocMsg | .allocData | .freeBare | .copy | .freeData | .freeMsg =>
      Same dev₀ dev ∧ dev₀.queuedBytes + a.count ≤ maxBytes
  | .lockAppend m | .addTail m =>
      Same dev₀ dev ∧ dev₀.queuedBytes + a.count ≤ maxBytes ∧ m.len = a.count
  | .addBytes m =>
      (dev.msgList = dev₀.msgList ++ [m] ∧ dev.queuedBytes = dev₀.queuedBytes) ∧
        dev₀.queuedBytes + a.count ≤ maxBytes ∧ m.len = a.count
  | .unlockAppend m | .wake m =>
      Appended dev₀ dev m ∧ dev₀.queuedBytes + a.count ≤ maxBytes ∧ m.len = a.count

def PollPc.Since (dev₀ dev : Mydev ι) : PollPc → Prop
  | .lock | .test => Same dev₀ dev
  | .unlock mask => Same dev₀ dev ∧ mask = dev₀.pollMask

/-- How the device differs from `dev₀` when the client was alone since it called `c`. -/
def Pc.Since (c : Call) (dev₀ dev : Mydev ι) : Pc ι → Prop
  | .idle => False
  | .opening _ => c = .m2mOpen ∧ Same dev₀ dev
  | .releasing _ => c = .m2mRelease ∧ Same dev₀ dev
  | .reading a pc => c = .m2mRead a ∧ pc.Since dev₀ dev a
  | .writing a pc => c = .m2mWrite a ∧ pc.Since dev₀ dev a
  | .polling pc => c = .m2mPoll ∧ pc.Since dev₀ dev
  | .returning c' ret _ => c' = c ∧ Outcome dev₀ dev c ret

theorem since_entry (c : Call) (dev : Mydev ι) : (c.entry : Pc ι).Since c dev dev := by
  cases c <;> exact ⟨rfl, rfl, rfl⟩

theorem Same.hasMessage {dev₀ dev : Mydev ι} (same : Same dev₀ dev) :
    dev.hasMessage = dev₀.hasMessage := by
  rw [Mydev.hasMessage, same.list, Mydev.hasMessage]

/-! ## One statement -/

section Statements

variable [DecidableEq ι] {s : State ι} {i : ι} {dev₀ : Mydev ι} {choice : Choice}
  {effect : Effect ι} {pc' : Pc ι}

/-- A statement on the file leaves the queue. -/
theorem Same.file (same : Same dev₀ s.dev) (e : FileEffect) :
    Same dev₀ (s.after i (.file e) pc').dev where
  list := by
    rw [← same.list]
    simp [State.after, State.apply, State.setClient]
  bytes := by
    rw [← same.bytes]
    simp [State.after, State.apply, State.setClient]

theorem since_open {pc : OpenPc} (decided : m2mOpenNext pc choice = some (effect, pc'))
    (same : Same dev₀ s.dev) : pc'.Since .m2mOpen dev₀ (s.after i effect pc').dev := by
  cases pc with
  | kzalloc =>
      cases choice <;> cases decided
      · exact ⟨rfl, same.file _⟩
      · exact ⟨rfl, .opened _ same⟩
  | setCtx | incReaders =>
      cases choice <;> cases decided
      exact ⟨rfl, same.file _⟩
  | incWriters =>
      cases choice <;> cases decided
      exact ⟨rfl, .opened _ (same.file _)⟩

theorem since_release {ctx : Bool} {pc : ReleasePc}
    (decided : m2mReleaseNext ctx pc choice = some (effect, pc')) (same : Same dev₀ s.dev) :
    pc'.Since .m2mRelease dev₀ (s.after i effect pc').dev := by
  cases pc with
  | test =>
      cases choice <;> cases decided
      cases ctx with
      | true => exact ⟨rfl, same⟩
      | false => exact ⟨rfl, .released _ same⟩
  | decReaders | decWriters | kfree =>
      cases choice <;> cases decided
      exact ⟨rfl, same.file _⟩
  | clearCtx =>
      cases choice <;> cases decided
      exact ⟨rfl, .released _ (same.file _)⟩

theorem since_read {a : ReadArgs} {pc : ReadPc ι} (accounted : s.protocol.Accounted)
    (position : (s.client i).pc = .reading a pc)
    (decided : m2mReadNext s.dev a pc choice = some (effect, pc'))
    (since : pc.Since dev₀ s.dev a) :
    pc'.Since (.m2mRead a) dev₀ (s.after i effect pc').dev := by
  cases pc with
  | entry =>
      cases choice <;> cases decided
      cases nonblock : a.nonblock with
      | true => exact ⟨rfl, since⟩
      | false => exact ⟨rfl, since, fun isSet => absurd isSet (by simp [nonblock])⟩
  | nonblockLock =>
      cases choice <;> try cases decided
      obtain ⟨_, same⟩ := lock_free_of_some decided
      cases same
      exact ⟨rfl, since.list, since.bytes⟩
  | nonblockTest =>
      cases choice <;> cases decided
      have same : Same dev₀ s.dev := since
      exact ⟨rfl, same, by rw [same.hasMessage]⟩
  | nonblockUnlock empty =>
      obtain ⟨same, found⟩ := since
      cases empty <;> cases choice <;> cases decided
      · exact ⟨rfl, ⟨same.list, same.bytes⟩, fun _ => ⟨rfl, by simpa using found.symm⟩⟩
      · exact ⟨rfl, .empty a (by simpa using found.symm) ⟨same.list, same.bytes⟩⟩
  | wait w =>
      obtain ⟨same, prompt⟩ := since
      simp only [m2mReadNext] at decided
      split at decided <;> cases decided <;> rename_i waits
      · refine ⟨rfl, same, fun nonblock => ?_⟩
        -- an `O_NONBLOCK` reader leaves the wait at its first test
        obtain ⟨rfl, message⟩ := prompt nonblock
        rw [same.hasMessage, message] at waits
        cases choice <;> cases waits
      · refine ⟨rfl, same, ?_⟩
        rw [← same.hasMessage]
        exact waitEventInterruptible_proceed waits
      · refine ⟨rfl, .readInterrupted a ?_ same⟩
        refine Bool.eq_false_iff.mpr fun nonblock => ?_
        obtain ⟨rfl, message⟩ := prompt nonblock
        rw [same.hasMessage, message] at waits
        cases choice <;> cases waits
  | lock =>
      cases choice <;> try cases decided
      obtain ⟨_, same⟩ := lock_free_of_some decided
      cases same
      exact ⟨rfl, ⟨since.1.list, since.1.bytes⟩, since.2⟩
  | take =>
      obtain ⟨same, message⟩ := since
      cases choice <;> simp only [m2mReadNext, reduceCtorEq] at decided
      rw [← same.hasMessage, Mydev.hasMessage] at message
      cases list : s.dev.msgList with
      | nil => simp [list] at message
      | cons m rest =>
          rw [list] at decided
          cases decided
          refine ⟨rfl, ?_, same.bytes⟩
          rw [← same.list, list]
          simp [State.after, State.apply, State.setClient, list]
  | unlockEmpty => cases since
  | subBytes m =>
      cases choice <;> cases decided
      refine ⟨rfl, since.1, ?_⟩
      have difference := accounted.subSize_eq (protocol_phase position)
      rw [← since.2]
      exact difference
  | unlock m =>
      cases choice <;> cases decided
      exact ⟨rfl, since.list, since.bytes⟩
  | copy m =>
      cases choice <;> cases decided
      · exact ⟨rfl, since, .inl rfl⟩
      · exact ⟨rfl, since, .inr rfl⟩
  | freeData m ret delivered | freeMsg m ret delivered =>
      cases choice <;> cases decided
      exact ⟨rfl, since⟩
  | wake m ret delivered =>
      cases choice <;> cases decided
      obtain ⟨removed, answer⟩ := since
      rcases answer with rfl | rfl
      · exact ⟨rfl, .taken a m removed⟩
      · exact ⟨rfl, .takenFault a m removed⟩

theorem since_write [KernelMemory] {a : WriteArgs} {pc : WritePc ι}
    (accounted : s.protocol.Accounted)
    (position : (s.client i).pc = .writing a pc)
    (decided : m2mWriteNext s.dev s.live i (s.client i).calls a pc choice = some (effect, pc'))
    (since : pc.Since dev₀ s.dev a) :
    pc'.Since (.m2mWrite a) dev₀ (s.after i effect pc').dev := by
  have sized := accounted.sized i
  rw [protocol_phase position] at sized
  cases pc with
  | entry =>
      cases choice <;> simp only [m2mWriteNext, reduceCtorEq] at decided
      split at decided
      · cases decided
        exact ⟨rfl, .nothing a (by assumption) since⟩
      · split at decided <;> cases decided
        · exact ⟨rfl, .tooLong a (by assumption) since⟩
        · exact ⟨rfl, since⟩
  | lock =>
      cases choice <;> try cases decided
      obtain ⟨_, same⟩ := lock_free_of_some decided
      cases same
      exact ⟨rfl, since.list, since.bytes⟩
  | test =>
      cases choice <;> cases decided
      have same : Same dev₀ s.dev := since
      have sum : addSize s.dev.queuedBytes a.count = s.dev.queuedBytes + a.count :=
        accounted.addSize_eq sized
      cases room : s.dev.hasRoom a.count with
      | true =>
          have fits := of_decide_eq_true room
          rw [sum, same.bytes] at fits
          exact ⟨rfl, same, fits⟩
      | false =>
          have noRoom := of_decide_eq_false room
          rw [sum, same.bytes] at noRoom
          exact ⟨rfl, same, Nat.lt_of_not_le noRoom⟩
  | unlockRoom | unlockFull =>
      cases choice <;> cases decided
      exact ⟨rfl, ⟨since.1.list, since.1.bytes⟩, since.2⟩
  | full =>
      cases choice <;> simp only [m2mWriteNext, reduceCtorEq] at decided
      split at decided <;> cases decided
      · exact ⟨rfl, .full a since.2 since.1⟩
      · rename_i blocking
        exact ⟨rfl, since.1, Bool.eq_false_iff.mpr blocking⟩
  | wait w =>
      simp only [m2mWriteNext] at decided
      split at decided <;> cases decided
      · exact ⟨rfl, since⟩
      · exact ⟨rfl, since.1⟩
      · exact ⟨rfl, .writeInterrupted a since.2 since.1⟩
  | allocMsg =>
      cases choice <;> cases decided
      · exact ⟨rfl, since⟩
      · exact ⟨rfl, .noMemory a since.2 since.1⟩
  | allocData =>
      cases choice <;> simp only [m2mWriteNext, reduceCtorEq] at decided
      · split at decided <;> cases decided <;> exact ⟨rfl, since⟩
      · cases decided
        exact ⟨rfl, since⟩
  | freeBare =>
      cases choice <;> cases decided
      exact ⟨rfl, .noMemory a since.2 since.1⟩
  | copy =>
      cases choice <;> cases decided
      · exact ⟨rfl, since.1, since.2, rfl⟩
      · exact ⟨rfl, since⟩
  | freeData =>
      cases choice <;> cases decided
      exact ⟨rfl, since⟩
  | freeMsg =>
      cases choice <;> cases decided
      exact ⟨rfl, .writeFault a since.2 since.1⟩
  | lockAppend m =>
      cases choice <;> try cases decided
      obtain ⟨_, same⟩ := lock_free_of_some decided
      cases same
      exact ⟨rfl, ⟨since.1.list, since.1.bytes⟩, since.2⟩
  | addTail m =>
      cases choice <;> cases decided
      refine ⟨rfl, ⟨?_, since.1.bytes⟩, since.2⟩
      rw [← since.1.list]
      rfl
  | addBytes m =>
      cases choice <;> cases decided
      obtain ⟨⟨list, bytes⟩, room, whole⟩ := since
      have sum : addSize s.dev.queuedBytes m.len = s.dev.queuedBytes + m.len :=
        accounted.addSize_eq sized
      rw [bytes] at sum
      refine ⟨rfl, ⟨list, ?_⟩, room, whole⟩
      rw [← sum, ← bytes]
      rfl
  | unlockAppend m =>
      cases choice <;> cases decided
      exact ⟨rfl, ⟨since.1.list, since.1.bytes⟩, since.2⟩
  | wake m =>
      cases choice <;> cases decided
      exact ⟨rfl, .appended a m since.2.1 since.2.2 since.1⟩

theorem since_poll {pc : PollPc} (decided : m2mPollNext s.dev pc choice = some (effect, pc'))
    (since : pc.Since dev₀ s.dev) : pc'.Since .m2mPoll dev₀ (s.after i effect pc').dev := by
  cases pc with
  | lock =>
      cases choice <;> try cases decided
      obtain ⟨_, same⟩ := lock_free_of_some decided
      cases same
      exact ⟨rfl, since.list, since.bytes⟩
  | test =>
      cases choice <;> cases decided
      have same : Same dev₀ s.dev := since
      refine ⟨rfl, same, ?_⟩
      rw [Mydev.pollMask, ← same.hasMessage, ← same.bytes]
  | unlock mask =>
      cases choice <;> cases decided
      obtain ⟨same, rfl⟩ := since
      exact ⟨rfl, .polled ⟨same.list, same.bytes⟩ rfl⟩

end Statements

/-- A wake-up changes nothing for a client that knows its wait is over. -/
theorem Pc.Since.wake {c : Call} {dev₀ dev : Mydev ι} {pc : Pc ι} (since : pc.Since c dev₀ dev)
    (effect : Effect ι) : (effect.wake pc).Since c dev₀ dev := by
  cases effect with
  | wakeReadq =>
      cases pc with
      | reading a rpc =>
          cases rpc with
          | wait w =>
              obtain ⟨call, same, prompt⟩ := since
              refine ⟨call, same, fun nonblock => ?_⟩
              obtain ⟨rfl, message⟩ := prompt nonblock
              exact ⟨rfl, message⟩
          | _ => exact since
      | _ => exact since
  | wakeWriteq =>
      cases pc with
      | writing a wpc => cases wpc <;> exact since
      | _ => exact since
  | _ => exact since

variable [DecidableEq ι]

/-- The call of client `i` is over with one of the outcomes. -/
def Finished (i : ι) (c : Call) (s : State ι) (dev₀ : Mydev ι) (t : State ι) : Prop :=
  (t.client i).pc = .idle ∧ ∃ r : Returned ι, t.returned = s.returned ++ [r] ∧ r.client = i ∧
    r.call = c ∧ Outcome dev₀ t.dev c r.ret

section Calls

variable [KernelMemory]

/-- One statement of a client that is alone. -/
theorem since_step {s t : State ι} {i : ι} {choice : Choice} {c : Call} {dev₀ : Mydev ι}
    (accounted : s.protocol.Accounted) (since : (s.client i).pc.Since c dev₀ s.dev)
    (stepped : step s i choice = some t) :
    ((t.client i).pc.Since c dev₀ t.dev ∧ t.returned = s.returned) ∨ Finished i c s dev₀ t := by
  have recorded := returned_cases stepped
  obtain ⟨effect, pc, decided, rfl⟩ := step_cases stepped
  have going : (∀ c' ret delivered, (s.client i).pc ≠ .returning c' ret delivered) →
      pc.Since c dev₀ (s.after i effect pc).dev →
      ((s.after i effect pc).client i).pc.Since c dev₀ (s.after i effect pc).dev ∧
        (s.after i effect pc).returned = s.returned := by
    intro busy moved
    rw [after_pc, if_pos rfl]
    rcases recorded with same | ⟨c', ret, delivered, returning, _⟩
    · exact ⟨moved.wake effect, same⟩
    · exact absurd returning (busy c' ret delivered)
  cases position : (s.client i).pc with
  | idle =>
      rw [position] at since
      exact since.elim
  | opening opc =>
      rw [position] at since going
      obtain ⟨rfl, same⟩ := since
      simp only [next, position] at decided
      exact .inl (going (by simp) (since_open decided same))
  | releasing rpc =>
      rw [position] at since going
      obtain ⟨rfl, same⟩ := since
      simp only [next, position] at decided
      exact .inl (going (by simp) (since_release decided same))
  | reading a rpc =>
      rw [position] at since going
      obtain ⟨rfl, since⟩ := since
      simp only [next, position] at decided
      exact .inl (going (by simp) (since_read accounted position decided since))
  | writing a wpc =>
      rw [position] at since going
      obtain ⟨rfl, since⟩ := since
      simp only [next, position] at decided
      exact .inl (going (by simp) (since_write accounted position decided since))
  | polling ppc =>
      rw [position] at since going
      obtain ⟨rfl, since⟩ := since
      simp only [next, position] at decided
      exact .inl (going (by simp) (since_poll decided since))
  | returning c' ret delivered =>
      rw [position] at since
      obtain ⟨rfl, outcome⟩ := since
      simp only [next, position] at decided
      cases choice <;> cases decided
      exact .inr ⟨after_pc_self _ _ _ rfl, _, rfl, rfl, rfl, outcome⟩

/-! ## A call without interference -/

/-- Client `i` calls `c` in the state `s`, and no other client takes a statement before
the call is over. -/
inductive Alone (i : ι) (s : State ι) (c : Call) : State ι → Prop where
  | begin {t : State ι} (idle : (s.client i).pc = .idle)
      (called : step s i (.call c) = some t) : Alone i s c t
  | next {t u : State ι} {choice : Choice} (soFar : Alone i s c t)
      (running : (t.client i).pc ≠ .idle) (moved : step t i choice = some u) : Alone i s c u

namespace Alone

variable {i : ι} {s t : State ι} {c : Call}

theorem reachable (reached : ReachableState s) (alone : Alone i s c t) : ReachableState t := by
  induction alone with
  | begin idle called => exact reached.next (a := (i, .call c)) called
  | next soFar running moved ih => exact ih.next (a := (i, _)) moved

theorem since (reached : ReachableState s) (alone : Alone i s c t) :
    ((t.client i).pc.Since c s.dev t.dev ∧ t.returned = s.returned) ∨ Finished i c s s.dev t := by
  induction alone with
  | begin idle called =>
      obtain ⟨effect, pc, decided, rfl⟩ := step_cases called
      simp only [MessageQueue.next, idle] at decided
      cases decided
      refine .inl ⟨?_, rfl⟩
      rw [after_pc_self _ _ _ rfl]
      exact since_entry c s.dev
  | next soFar running moved ih =>
      rcases ih with ⟨since, same⟩ | ⟨idle, -⟩
      · have accounted := accounted_of_reachable (soFar.reachable reached)
        have moves := since_step accounted since moved
        rwa [Finished, same] at moves
      · exact absurd idle running

/-- **A call that was alone ends with one of the outcomes.** -/
theorem outcome (reached : ReachableState s) (alone : Alone i s c t)
    (ended : (t.client i).pc = .idle) :
    ∃ r, t.returned = s.returned ++ [r] ∧ r.client = i ∧ r.call = c ∧
      Outcome s.dev t.dev c r.ret := by
  rcases alone.since reached with ⟨since, -⟩ | ⟨-, finished⟩
  · rw [ended] at since
    exact since.elim
  · exact finished

/-- The lock stays free for the others or is held by the client itself. -/
theorem lock_cases (alone : Alone i s c t) (free : s.dev.lock = none) :
    t.dev.lock = none ∨ t.dev.lock = some i := by
  induction alone with
  | begin idle called =>
      rcases (protocol_step called).lock_cases with ⟨same, -⟩ | ⟨-, locked, -⟩ | ⟨-, unlocked, -⟩
      · exact .inl (same.trans free)
      · exact .inr locked
      · exact .inl unlocked
  | next soFar running moved ih =>
      rcases (protocol_step moved).lock_cases with ⟨same, -⟩ | ⟨-, locked, -⟩ | ⟨-, unlocked, -⟩
      · rcases ih with unlocked | locked
        · exact .inl (same.trans unlocked)
        · exact .inr (same.trans locked)
      · exact .inr locked
      · exact .inl unlocked

end Alone

/-! ## Calls that do not wait come to their end -/

/-- The calls that do not wait. -/
def Call.Prompt : Call → Prop
  | .m2mRead a => a.nonblock = true
  | .m2mWrite a => a.nonblock = true
  | _ => True

def OpenPc.left : OpenPc → Nat
  | .kzalloc => 5
  | .setCtx => 4
  | .incReaders => 3
  | .incWriters => 2

def ReleasePc.left : ReleasePc → Nat
  | .test => 6
  | .decReaders => 5
  | .decWriters => 4
  | .kfree => 3
  | .clearCtx => 2

def ReadPc.left : ReadPc ι → Nat
  | .entry => 14
  | .nonblockLock => 13
  | .nonblockTest => 12
  | .nonblockUnlock _ => 11
  | .wait _ => 10
  | .lock => 9
  | .take => 8
  | .subBytes _ => 7
  | .unlock _ => 6
  | .copy _ => 5
  | .freeData _ _ _ => 4
  | .freeMsg _ _ _ => 3
  | .wake _ _ _ | .unlockEmpty => 2

def WritePc.left : WritePc ι → Nat
  | .entry => 13
  | .lock => 12
  | .test => 11
  | .unlockRoom => 10
  | .allocMsg => 9
  | .allocData => 8
  | .copy => 7
  | .lockAppend _ => 6
  | .addTail _ => 5
  | .addBytes _ => 4
  | .unlockAppend _ | .unlockFull | .freeData => 3
  | .wake _ | .full | .wait _ | .freeBare | .freeMsg => 2

def PollPc.left : PollPc → Nat
  | .lock => 4
  | .test => 3
  | .unlock _ => 2

/-- A bound on the statements that are left of a call that does not wait. -/
def Pc.left : Pc ι → Nat
  | .idle => 0
  | .returning _ _ _ => 1
  | .opening pc => pc.left
  | .releasing pc => pc.left
  | .reading _ pc => pc.left
  | .writing _ pc => pc.left
  | .polling pc => pc.left

section Progress

variable {t : State ι} {i : ι} {c : Call} {dev₀ : Mydev ι}

omit [DecidableEq ι] in
/-- A client that finds the lock free goes on, and fewer statements are left. -/
theorem next_of_since (since : (t.client i).pc.Since c dev₀ t.dev) (prompt : c.Prompt)
    (free : (t.client i).pc.phase.critical = false → t.dev.lock = none) :
    ∃ effect pc, next t i .go = some (effect, pc) ∧ pc.left < (t.client i).pc.left := by
  cases position : (t.client i).pc with
  | idle =>
      rw [position] at since
      exact since.elim
  | opening opc =>
      simp only [next, position]
      cases opc <;> exact ⟨_, _, rfl, by simp [Pc.left, OpenPc.left]⟩
  | releasing rpc =>
      simp only [next, position]
      cases rpc with
      | test =>
          refine ⟨_, _, rfl, ?_⟩
          split <;> simp [Pc.left, ReleasePc.left]
      | _ => exact ⟨_, _, rfl, by simp [Pc.left, ReleasePc.left]⟩
  | returning =>
      simp only [next, position]
      exact ⟨_, _, rfl, by simp [Pc.left]⟩
  | reading a rpc =>
      rw [position] at since free
      obtain ⟨rfl, since⟩ := since
      simp only [next, position]
      have nonblock : a.nonblock = true := prompt
      cases rpc with
      | entry => exact ⟨_, _, rfl, by simp [nonblock, Pc.left, ReadPc.left]⟩
      | nonblockLock | lock =>
          have unlocked := free rfl
          simp only [m2mReadNext, unlocked]
          exact ⟨_, _, rfl, by simp [Pc.left, ReadPc.left]⟩
      | nonblockUnlock empty => cases empty <;> exact ⟨_, _, rfl, by simp [Pc.left, ReadPc.left]⟩
      | wait w =>
          obtain ⟨same, past⟩ := since
          obtain ⟨rfl, message⟩ := past nonblock
          simp only [m2mReadNext, same.hasMessage, message]
          exact ⟨_, _, rfl, by simp [Pc.left, ReadPc.left]⟩
      | take =>
          obtain ⟨same, message⟩ := since
          rw [← same.hasMessage, Mydev.hasMessage] at message
          cases list : t.dev.msgList with
          | nil => simp [list] at message
          | cons m rest =>
              simp only [m2mReadNext, list]
              exact ⟨_, _, rfl, by simp [Pc.left, ReadPc.left]⟩
      | unlockEmpty => cases since
      | _ => exact ⟨_, _, rfl, by simp [Pc.left, ReadPc.left]⟩
  | writing a wpc =>
      rw [position] at since free
      obtain ⟨rfl, since⟩ := since
      simp only [next, position]
      have nonblock : a.nonblock = true := prompt
      cases wpc with
      | entry =>
          simp only [m2mWriteNext]
          split
          · exact ⟨_, _, rfl, by simp [Pc.left, WritePc.left]⟩
          · split <;> exact ⟨_, _, rfl, by simp [Pc.left, WritePc.left]⟩
      | lock | lockAppend =>
          have unlocked := free rfl
          simp only [m2mWriteNext, unlocked]
          exact ⟨_, _, rfl, by simp [Pc.left, WritePc.left]⟩
      | test =>
          refine ⟨_, _, rfl, ?_⟩
          cases t.dev.hasRoom a.count <;> simp [Pc.left, WritePc.left]
      | full =>
          simp only [m2mWriteNext, nonblock]
          exact ⟨_, _, rfl, by simp [Pc.left, WritePc.left]⟩
      | wait w => cases nonblock.symm.trans since.2
      | allocData =>
          simp only [m2mWriteNext]
          split <;> exact ⟨_, _, rfl, by simp [Pc.left, WritePc.left]⟩
      | _ => exact ⟨_, _, rfl, by simp [Pc.left, WritePc.left]⟩
  | polling ppc =>
      rw [position] at since free
      simp only [next, position]
      cases ppc with
      | lock =>
          have unlocked := free rfl
          simp only [m2mPollNext, unlocked]
          exact ⟨_, _, rfl, by simp [Pc.left, PollPc.left]⟩
      | _ => exact ⟨_, _, rfl, by simp [Pc.left, PollPc.left]⟩

omit [DecidableEq ι] [KernelMemory] in
theorem idle_of_left {pc : Pc ι} (done : pc.left = 0) : pc = .idle := by
  cases pc with
  | idle => rfl
  | opening opc => cases opc <;> cases done
  | releasing rpc => cases rpc <;> cases done
  | reading a rpc => cases rpc <;> cases done
  | writing a wpc => cases wpc <;> cases done
  | polling ppc => cases ppc <;> cases done
  | _ => cases done

omit [DecidableEq ι] [KernelMemory] in
theorem left_wake (effect : Effect ι) (pc : Pc ι) : (effect.wake pc).left = pc.left := by
  cases effect with
  | wakeReadq =>
      cases pc with
      | reading a rpc => cases rpc <;> rfl
      | _ => rfl
  | wakeWriteq =>
      cases pc with
      | writing a wpc => cases wpc <;> rfl
      | _ => rfl
  | _ => rfl

/-- While the call is not over its client goes on. -/
theorem Alone.progress {s : State ι} (reached : ReachableState s) (free : s.dev.lock = none)
    (prompt : c.Prompt) (alone : Alone i s c t) (running : (t.client i).pc ≠ .idle) :
    ∃ u, Alone i s c u ∧ (u.client i).pc.left < (t.client i).pc.left := by
  rcases alone.since reached with ⟨since, -⟩ | ⟨ended, -⟩
  · have unlocked : (t.client i).pc.phase.critical = false → t.dev.lock = none := by
      intro outside
      refine (alone.lock_cases free).resolve_right fun held => ?_
      have accounted := accounted_of_reachable (alone.reachable reached)
      have inside := (accounted.exclusive i).mpr held
      rw [protocol_phase rfl, outside] at inside
      cases inside
    obtain ⟨effect, pc, decided, fewer⟩ := next_of_since since prompt unlocked
    have moved : step t i .go = some (t.after i effect pc) := by
      simp only [step, decided]
    refine ⟨_, alone.next running moved, ?_⟩
    rw [after_pc, if_pos rfl, left_wake]
    exact fewer
  · exact absurd ended running

/-- **A call that does not wait ends**, with the lock free at its beginning and no other
client at work. -/
theorem Alone.completes {s : State ι} (reached : ReachableState s)
    (idle : (s.client i).pc = .idle) (free : s.dev.lock = none) (prompt : c.Prompt) :
    ∃ t, Alone i s c t ∧ (t.client i).pc = .idle := by
  have onwards : ∀ n t, Alone i s c t → (t.client i).pc.left ≤ n →
      ∃ u, Alone i s c u ∧ (u.client i).pc = .idle := by
    intro n
    induction n with
    | zero =>
        intro t alone done
        exact ⟨t, alone, idle_of_left (Nat.le_zero.mp done)⟩
    | succ n ih =>
        intro t alone atMost
        by_cases running : (t.client i).pc = .idle
        · exact ⟨t, alone, running⟩
        · obtain ⟨u, further, fewer⟩ := alone.progress reached free prompt running
          exact ih u further (by omega)
  have called : step s i (.call c) = some (s.after i .begin c.entry) := by
    simp only [step, MessageQueue.next, idle]
  exact onwards _ _ (.begin idle called) (Nat.le_refl _)

end Progress

/-! ## Failed calls -/

/-- A read or a write. -/
def Call.transfers : Call → Bool
  | .m2mRead _ | .m2mWrite _ => true
  | _ => false

/-- A read that failed to copy its message. -/
def Call.LostCopy (c : Call) (ret : Int) : Prop := (∃ a, c = .m2mRead a) ∧ ret = -efault

/-- **A failed call leaves the queue as it was, except for a read that fails to copy.** That
read has taken the first message off the list and its length off `queued_bytes`. -/
theorem failed_call_keeps_queue {i : ι} {s t : State ι} {c : Call} (reached : ReachableState s)
    (alone : Alone i s c t) (ended : (t.client i).pc = .idle) :
    ∃ r, t.returned = s.returned ++ [r] ∧ r.client = i ∧ r.call = c ∧
      (c.transfers = true → r.ret < 0 →
        (¬ c.LostCopy r.ret →
          t.dev.msgList = s.dev.msgList ∧ t.dev.queuedBytes = s.dev.queuedBytes) ∧
        (c.LostCopy r.ret → ∃ m, s.dev.msgList = m :: t.dev.msgList ∧
          t.dev.queuedBytes + m.len = s.dev.queuedBytes)) := by
  obtain ⟨r, recorded, client, call, outcome⟩ := alone.outcome reached ended
  refine ⟨r, recorded, client, call, fun transfers failed => ?_⟩
  generalize r.ret = ret at outcome failed
  cases outcome with
  | opened | released | polled => cases transfers
  | empty _ _ same | readInterrupted _ _ same =>
      refine ⟨fun _ => ⟨same.list, same.bytes⟩, fun lost => ?_⟩
      simp [Call.LostCopy, eagain, erestartsys, efault] at lost
  | tooLong _ _ same | full _ _ same | writeInterrupted _ _ same | noMemory _ _ same
  | writeFault _ _ same =>
      refine ⟨fun _ => ⟨same.list, same.bytes⟩, fun lost => ?_⟩
      simp [Call.LostCopy] at lost
  | takenFault a m removed =>
      exact ⟨fun kept => absurd ⟨⟨a, rfl⟩, rfl⟩ kept, fun _ => ⟨m, removed.list, removed.bytes⟩⟩
  | taken | nothing | appended => omega

/-- A statement that is no call is of a client at work. -/
theorem not_idle_of_step {s t : State ι} {i : ι} {choice : Choice}
    (moved : step s i choice = some t) (noCall : ∀ c, choice ≠ .call c) :
    (s.client i).pc ≠ .idle := by
  intro idle
  obtain ⟨effect, pc, decided, -⟩ := step_cases moved
  simp only [next, idle] at decided
  cases choice with
  | call c => exact noCall c rfl
  | _ => cases decided

theorem Alone.extend {i : ι} {s t u : State ι} {c : Call} (alone : Alone i s c t)
    (choices : List Choice) (noCall : ∀ choice ∈ choices, ∀ c, choice ≠ .call c)
    (ran : runSchedule (choices.map fun choice => (i, choice)) t = some u) : Alone i s c u := by
  induction choices generalizing t with
  | nil =>
      cases ran
      exact alone
  | cons choice rest ih =>
      simp only [List.map_cons, runSchedule, replay] at ran
      cases moved : step t i choice with
      | none =>
          rw [moved] at ran
          cases ran
      | some v =>
          rw [moved] at ran
          have running := not_idle_of_step moved (noCall choice List.mem_cons_self)
          have restNoCall : ∀ x ∈ rest, ∀ c, x ≠ .call c := by
            intro x member
            exact noCall x (List.mem_cons_of_mem _ member)
          exact ih (alone.next running moved) restNoCall ran

/-- A schedule with a call of one client is that call alone. -/
theorem Alone.of_runSchedule {i : ι} {s t : State ι} {c : Call} (idle : (s.client i).pc = .idle)
    (choices : List Choice) (noCall : ∀ choice ∈ choices, ∀ c, choice ≠ .call c)
    (ran : runSchedule ((i, .call c) :: choices.map fun choice => (i, choice)) s = some t) :
    Alone i s c t := by
  have called : step s i (.call c) = some (s.after i .begin c.entry) := by
    simp only [step, MessageQueue.next, idle]
  simp only [runSchedule, replay, called] at ran
  exact (Alone.begin idle called).extend choices noCall ran

end Calls

omit [DecidableEq ι] in
/-- The result of the call recorded last. -/
theorem ret_of_getLast {before after : List (Returned ι)} {r : Returned ι} {ret : Int}
    (recorded : after = before ++ [r])
    (evaluated : after.getLast?.map (fun r => r.ret) = some ret) : r.ret = ret := by
  rw [recorded, List.getLast?_concat] at evaluated
  exact Option.some.inj evaluated

/-- A client with one message in the queue writes a longer one than is permitted. -/
theorem failed_call_keeps_queue_tooLong :
    ∃ s t : State Unit, ReachableState s ∧ Alone () s (.m2mWrite ⟨false, 4097, fun _ => 0⟩) t ∧
      s.dev.msgList.length = 1 ∧ (∃ r, t.returned = s.returned ++ [r] ∧ r.ret = -emsgsize) ∧
      t.dev.msgList = s.dev.msgList := by
  obtain ⟨s, ran⟩ := Option.isSome_iff_exists.mp
    (show (runSchedule (alone () (.m2mWrite ⟨false, 3, fun _ => 7⟩) 13) m2mInit).isSome from rfl)
  obtain ⟨t, ran'⟩ := Option.isSome_iff_exists.mp
    (show (runSchedule (alone () (.m2mWrite ⟨false, 4097, fun _ => 0⟩) 2) s).isSome by
      cases ran
      rfl)
  have reached := reachable_of_runSchedule .refl ran
  have ended := Alone.of_runSchedule (by cases ran; rfl) [.go, .go] (by simp) ran'
  obtain ⟨r, recorded, -, -, kept⟩ :=
    failed_call_keeps_queue reached ended (by cases ran; cases ran'; rfl)
  have result : r.ret = -emsgsize := by
    refine ret_of_getLast recorded ?_
    cases ran
    cases ran'
    rfl
  have single : s.dev.msgList.length = 1 := by
    cases ran
    rfl
  refine ⟨s, t, reached, ended, single, ⟨r, recorded, result⟩, ?_⟩
  refine ((kept rfl (by rw [result]; decide)).1 ?_).1
  rintro ⟨⟨_, read⟩, -⟩
  cases read

/-- **A read that fails to copy loses its message.** -/
theorem failed_read_removes_message :
    ∃ s t : State Unit, ReachableState s ∧ Alone () s (.m2mRead ⟨false, 8⟩) t ∧
      (t.client ()).pc = .idle ∧
      (∃ r, t.returned = s.returned ++ [r] ∧ r.ret = -efault) ∧
      s.dev.queuedBytes = 3 ∧ t.dev.queuedBytes = 0 ∧ t.dev.msgList ≠ s.dev.msgList := by
  obtain ⟨s, ran⟩ := Option.isSome_iff_exists.mp
    (show (runSchedule (alone () (.m2mWrite ⟨false, 3, fun _ => 7⟩) 13) m2mInit).isSome from rfl)
  obtain ⟨t, ran'⟩ := Option.isSome_iff_exists.mp
    (show (runSchedule (((), .call (.m2mRead ⟨false, 8⟩)) ::
      [.go, .go, .go, .go, .go, .go, .fail, .go, .go, .go, .go].map fun choice =>
        ((), choice)) s).isSome by
      cases ran
      rfl)
  have ended := Alone.of_runSchedule (by cases ran; rfl)
    [.go, .go, .go, .go, .go, .go, .fail, .go, .go, .go, .go] (by simp) ran'
  have lists : t.dev.msgList.length = 0 ∧ s.dev.msgList.length = 1 := by
    cases ran
    cases ran'
    exact ⟨rfl, rfl⟩
  refine ⟨s, t, reachable_of_runSchedule .refl ran, ended, ?_, ⟨⟨(), 2, .m2mRead ⟨false, 8⟩,
    -efault, []⟩, ?_, rfl⟩, ?_, ?_, ?_⟩
  · cases ran; cases ran'; rfl
  · cases ran; cases ran'; rfl
  · cases ran; rfl
  · cases ran; cases ran'; rfl
  · intro same
    rw [same] at lists
    omega

/-! ## Readiness -/

/-- `POLLIN`, the bit `0x1`, is reported. -/
def reportsIn (mask : Int) : Bool := mask.toNat.testBit 0

/-- `POLLOUT`, the bit `0x4`, is reported. -/
def reportsOut (mask : Int) : Bool := mask.toNat.testBit 2

omit [DecidableEq ι] in
theorem reportsIn_pollMask (dev : Mydev ι) : reportsIn dev.pollMask = dev.hasMessage := by
  unfold Mydev.pollMask
  by_cases room : dev.queuedBytes < maxBytes
  · rw [if_pos room]
    cases dev.hasMessage <;> rfl
  · rw [if_neg room]
    cases dev.hasMessage <;> rfl

omit [DecidableEq ι] in
theorem reportsOut_pollMask (dev : Mydev ι) :
    reportsOut dev.pollMask = true ↔ dev.queuedBytes < maxBytes := by
  unfold Mydev.pollMask
  by_cases room : dev.queuedBytes < maxBytes
  · rw [if_pos room]
    cases dev.hasMessage <;> exact ⟨fun _ => room, fun _ => rfl⟩
  · rw [if_neg room]
    cases dev.hasMessage <;>
      exact ⟨fun reported => (nomatch reported), fun fits => absurd fits room⟩

/-- The call comes to its end, and whenever it did its result is as stated. -/
def Yields [KernelMemory] (j : ι) (u : State ι) (c : Call) (result : Int → Prop) : Prop :=
  (∃ t, Alone j u c t ∧ (t.client j).pc = .idle) ∧
    ∀ t, Alone j u c t → (t.client j).pc = .idle →
      ∃ r, t.returned = u.returned ++ [r] ∧ r.call = c ∧ result r.ret

theorem Yields.of_outcome [KernelMemory] {j : ι} {u : State ι} {c : Call} {result : Int → Prop}
    (reached : ReachableState u) (idle : (u.client j).pc = .idle) (free : u.dev.lock = none)
    (prompt : c.Prompt) (results : ∀ dev ret, Outcome u.dev dev c ret → result ret) :
    Yields j u c result := by
  refine ⟨Alone.completes reached idle free prompt, fun t alone ended => ?_⟩
  obtain ⟨r, recorded, -, call, outcome⟩ := alone.outcome reached ended
  exact ⟨r, recorded, call, results t.dev r.ret outcome⟩

omit [DecidableEq ι] in
theorem Outcome.read_eagain_iff {dev₀ dev : Mydev ι} {a : ReadArgs} {ret : Int}
    (outcome : Outcome dev₀ dev (.m2mRead a) ret) (nonblock : a.nonblock = true) :
    ret = -eagain ↔ dev₀.hasMessage = false := by
  have there : ∀ m, Removed dev₀ dev m → dev₀.hasMessage = true := by
    intro m removed
    rw [Mydev.hasMessage, removed.list]
    rfl
  cases outcome with
  | empty _ none => simp [none]
  | readInterrupted _ blocking => cases nonblock.symm.trans blocking
  | taken _ m removed =>
      rw [there m removed]
      simp only [eagain, Bool.true_eq_false, iff_false]
      omega
  | takenFault _ m removed =>
      rw [there m removed]
      decide

omit [DecidableEq ι] in
theorem Outcome.write_eagain_iff {dev₀ dev : Mydev ι} {a : WriteArgs} {ret : Int}
    (outcome : Outcome dev₀ dev (.m2mWrite a) ret) (nonblock : a.nonblock = true)
    (permitted : Permitted a.count) :
    ret = -eagain ↔ maxBytes < dev₀.queuedBytes + a.count := by
  obtain ⟨positive, short⟩ := permitted
  cases outcome with
  | nothing _ zero => omega
  | tooLong _ long => omega
  | full _ noRoom => simp [noRoom]
  | writeInterrupted _ blocking => cases nonblock.symm.trans blocking
  | noMemory _ room | writeFault _ room =>
      simp only [eagain, enomem, efault]
      omega
  | appended _ m room =>
      simp only [eagain]
      omega

/-- **Poll agrees with the operations.** `POLLIN` is reported exactly when a following
`O_NONBLOCK` read does not return `-EAGAIN`, `POLLOUT` exactly when a following `O_NONBLOCK`
write of one byte does not. A write of a larger permitted length returns `-EAGAIN` exactly
when it does not fit, and never succeeds without `POLLOUT`. -/
theorem poll_agrees [KernelMemory] {i j : ι} {s u : State ι} (reached : ReachableState s)
    (polled : Alone i s .m2mPoll u) (ended : (u.client i).pc = .idle)
    (ready : (u.client j).pc = .idle) :
    ∃ p, u.returned = s.returned ++ [p] ∧ p.call = .m2mPoll ∧
      (∀ count, Yields j u (.m2mRead ⟨true, count⟩) fun ret =>
        (reportsIn p.ret = true ↔ ret ≠ -eagain)) ∧
      ∀ a : WriteArgs, a.nonblock = true → 1 ≤ a.count → a.count ≤ maxMsg →
        Yields j u (.m2mWrite a) fun ret =>
          (ret = -eagain ↔ maxBytes < u.dev.queuedBytes + a.count) ∧
          (ret ≠ -eagain → reportsOut p.ret = true) ∧
          (a.count = 1 → (reportsOut p.ret = true ↔ ret ≠ -eagain)) := by
  obtain ⟨p, recorded, -, call, outcome⟩ := polled.outcome reached ended
  have reached' := polled.reachable reached
  generalize reported : p.ret = mask at outcome
  cases outcome with
  | polled same free =>
      refine ⟨p, recorded, call, ?_, ?_⟩
      · intro count
        refine .of_outcome reached' ready free rfl fun dev ret outcome => ?_
        rw [reported, reportsIn_pollMask, ne_eq, outcome.read_eagain_iff rfl, same.hasMessage,
          Bool.not_eq_false]
      · intro a nonblock positive short
        refine .of_outcome reached' ready free nonblock fun dev ret outcome => ?_
        have refused := outcome.write_eagain_iff nonblock ⟨positive, short⟩
        rw [reported, reportsOut_pollMask, ne_eq, refused, ← same.bytes]
        refine ⟨Iff.rfl, ?_, ?_⟩ <;> omega

/-- A client with one message in the queue polls, reads it, and finds room for a byte. -/
theorem poll_agrees_one_message :
    ∃ s u : State Unit, ReachableState s ∧ Alone () s .m2mPoll u ∧
      (∃ p, u.returned = s.returned ++ [p] ∧ p.ret = 0x145 ∧
        Yields () u (.m2mRead ⟨true, 8⟩) fun ret => ret ≠ -eagain) := by
  obtain ⟨s, ran⟩ := Option.isSome_iff_exists.mp
    (show (runSchedule (alone () (.m2mWrite ⟨false, 3, fun _ => 7⟩) 13) m2mInit).isSome from rfl)
  obtain ⟨u, ran'⟩ := Option.isSome_iff_exists.mp
    (show (runSchedule (alone () .m2mPoll 4) s).isSome by
      cases ran
      rfl)
  have reached := reachable_of_runSchedule .refl ran
  have polled := Alone.of_runSchedule (by cases ran; rfl) [.go, .go, .go, .go] (by simp) ran'
  have ended : (u.client ()).pc = .idle := by
    cases ran
    cases ran'
    rfl
  obtain ⟨p, recorded, -, reads, -⟩ := poll_agrees (j := ()) reached polled ended ended
  have mask : p.ret = 0x145 := by
    refine ret_of_getLast recorded ?_
    cases ran
    cases ran'
    rfl
  obtain ⟨ends, results⟩ := reads 8
  refine ⟨s, u, reached, polled, p, recorded, mask, ends, fun t alone ended => ?_⟩
  obtain ⟨r, recorded', call, agrees⟩ := results t alone ended
  exact ⟨r, recorded', call, agrees.mp (by rw [mask]; rfl)⟩

/-- A client writes 15 messages of `MAX_MSG` bytes and one byte. -/
def nearlyFull : List (Unit × Choice) :=
  (List.replicate 15 (alone () (.m2mWrite ⟨false, maxMsg, fun _ => 0⟩) 13)).flatten ++
    alone () (.m2mWrite ⟨false, 1, fun _ => 0⟩) 13

/-- **`POLLOUT` is reported and a write of a permitted length returns `-EAGAIN`.** -/
theorem poll_disagrees_near_capacity :
    ∃ s u t : State Unit, ∃ p r : Returned Unit, ReachableState s ∧
      Alone () s .m2mPoll u ∧ (u.client ()).pc = .idle ∧ u.returned = s.returned ++ [p] ∧
      reportsOut p.ret = true ∧
      Alone () u (.m2mWrite ⟨true, 4096, fun _ => 0⟩) t ∧ (t.client ()).pc = .idle ∧
      t.returned = u.returned ++ [r] ∧ r.ret = -eagain := by
  have observed : ((runSchedule nearlyFull m2mInit).map fun s =>
      (s.dev.lock, s.dev.queuedBytes, (s.client ()).pc.left)) = some (none, 61441, 0) := by
    decide +kernel
  obtain ⟨s, ran, values⟩ := Option.map_eq_some_iff.mp observed
  simp only [Prod.mk.injEq] at values
  obtain ⟨free, bytes, left⟩ := values
  have reached := reachable_of_runSchedule .refl ran
  obtain ⟨u, polled, ended⟩ :=
    Alone.completes (c := .m2mPoll) reached (idle_of_left left) free trivial
  obtain ⟨p, recorded, -, -, outcome⟩ := polled.outcome reached ended
  generalize reported : p.ret = mask at outcome
  cases outcome with
  | polled same free' =>
      have reached' := polled.reachable reached
      obtain ⟨t, wrote, ended'⟩ :=
        Alone.completes (c := .m2mWrite ⟨true, 4096, fun _ => 0⟩) reached' ended free' rfl
      obtain ⟨r, recorded', -, -, outcome'⟩ := wrote.outcome reached' ended'
      refine ⟨s, u, t, p, r, reached, polled, ended, recorded, ?_, wrote, ended', recorded', ?_⟩
      · rw [reported, reportsOut_pollMask, bytes]
        decide
      · refine (outcome'.write_eagain_iff rfl ⟨by decide, by decide⟩).mpr ?_
        rw [same.bytes, bytes]
        decide

end OsLab.MessageQueue
