import OsLab.MessageQueue.Accounting

/-!
# No wake-up is lost

A wake-up is issued after the lock is released and, in `m2m_read`, after a copy
that may fail. Between the change of the list and the wake-up the client owes it. The
invariant `Attended` says that a client which sleeps, or is about to sleep, while it
could go on is owed a wake-up by some client.

A step keeps it for three reasons: a client goes to sleep only after a test that
failed (`waitEventInterruptible_dormant`), a change that makes the condition true is
made by a client that owes a wake-up from then on, and a client stops owing it only by
the wake-up, after which nobody sleeps. `no_lost_wakeup` is the result for both
queues.
-/

set_option autoImplicit false

namespace OsLab.MessageQueue

open OsLab.Foundation

variable {ι : Type}

/-! ## Sleepers and debtors -/

/-- Asleep, or about to sleep with no wake-up since the enqueueing. -/
def WaitPc.dormant : WaitPc → Bool
  | .schedule false | .asleep => true
  | _ => false

@[simp] theorem WaitPc.dormant_wakeUp (w : WaitPc) : w.wakeUp.dormant = false := by
  cases w <;> rfl

/-- A task goes towards its sleep only after a test that failed. -/
theorem waitEventInterruptible_dormant {condition : Bool} {w w' : WaitPc} {choice : Choice}
    (waits : waitEventInterruptible condition w choice = some (.stay w'))
    (dormant : w'.dormant = true) : w.dormant = true ∨ condition = false := by
  cases condition with
  | false => exact .inr rfl
  | true =>
      refine .inl ?_
      cases w with
      | test | retest => cases choice <;> cases waits
      | prepare => cases choice <;> cases waits <;> cases dormant
      | schedule woken =>
          cases woken with
          | false => rfl
          | true => cases choice <;> cases waits <;> cases dormant
      | asleep => rfl

/-- Between `list_add_tail` and `wake_up_interruptible(&dev->readq)`. -/
def Phase.owesReaders : Phase ι → Bool
  | .linked _ _ | .counted _ _ | .announcing _ _ => true
  | _ => false

/-- Between `list_del` and `wake_up_interruptible(&dev->writeq)`. -/
def Phase.owesWriters : Phase ι → Bool
  | .unlinked _ _ | .uncounted _ _ | .taken _ _ | .copied _ _ _ _ | .emptied _ _ _ _
  | .freed _ _ _ _ => true
  | _ => false

namespace Protocol

variable [DecidableEq ι] {s t : Protocol ι} {i : ι}

/-- A message appears in an empty list only with a debtor. -/
theorem Step.message_raised (stepped : Step s i t) (message : t.msgList ≠ []) :
    s.msgList ≠ [] ∨ (t.phase i).owesReaders = true := by
  cases stepped with
  | link phase => exact .inr (by simp [Phase.owesReaders])
  | unlink phase first => exact .inl (by simp [first])
  | _ => exact .inl message

/-- Room appears only with a debtor. -/
theorem Accounted.room_raised (accounted : s.Accounted) (stepped : Step s i t) {bytes : Nat}
    (permitted : Permitted bytes) (room : addSize t.queuedBytes bytes ≤ maxBytes) :
    addSize s.queuedBytes bytes ≤ maxBytes ∨ (t.phase i).owesWriters = true := by
  have after := accounted.step stepped
  rw [after.addSize_eq permitted] at room
  rw [accounted.addSize_eq permitted]
  cases stepped with
  | uncount phase => exact .inr (by simp [Phase.owesWriters])
  | count phase =>
      have sized := accounted.sized i
      rw [phase] at sized
      have sum := accounted.addSize_eq sized
      simp only [move_queuedBytes] at room
      exact .inl (by omega)
  | _ => exact .inl room

/-- A writer owes its wake-up until it issues it. -/
theorem Step.owesReaders (stepped : Step s i t) (owes : (s.phase i).owesReaders = true) :
    (t.phase i).owesReaders = true ∨ ∃ a m, s.phase i = .announcing a m := by
  cases stepped with
  | quiet moves =>
      generalize s.phase i = p at moves owes
      cases moves with
      | announce a m => exact .inr ⟨a, m, rfl⟩
      | _ => cases owes
  | release moves =>
      generalize s.phase i = p at moves owes
      cases moves with
      | announce a m => exact .inl (by simp [Phase.owesReaders])
      | _ => cases owes
  | acquire _ moves | kfree moves | kfreeMsg moves =>
      generalize s.phase i = p at moves owes
      cases moves <;> cases owes
  | count => exact .inl (by simp [Phase.owesReaders])
  | begin _ phase | grant phase | kmallocMsg phase | kmalloc phase | link phase | unlink phase
  | uncount phase | finish phase =>
      rw [phase] at owes
      cases owes

/-- A reader owes its wake-up until it issues it, whether its copy failed or not. -/
theorem Step.owesWriters (stepped : Step s i t) (owes : (s.phase i).owesWriters = true) :
    (t.phase i).owesWriters = true ∨ ∃ a m ret delivered, s.phase i = .freed a m ret delivered := by
  cases stepped with
  | quiet moves =>
      generalize s.phase i = p at moves owes
      cases moves with
      | announceRoom a m ret delivered => exact .inr ⟨a, m, ret, delivered, rfl⟩
      | copy | copyFault => exact .inl (by simp [Phase.owesWriters])
      | _ => cases owes
  | release moves =>
      generalize s.phase i = p at moves owes
      cases moves with
      | take a m => exact .inl (by simp [Phase.owesWriters])
      | _ => cases owes
  | kfree moves =>
      generalize s.phase i = p at moves owes
      cases moves with
      | message a m ret delivered => exact .inl (by simp [Phase.owesWriters])
      | fault => cases owes
  | kfreeMsg moves =>
      generalize s.phase i = p at moves owes
      cases moves with
      | message a m ret delivered => exact .inl (by simp [Phase.owesWriters])
      | refuse => cases owes
  | acquire _ moves =>
      generalize s.phase i = p at moves owes
      cases moves <;> cases owes
  | uncount => exact .inl (by simp [Phase.owesWriters])
  | begin _ phase | grant phase | kmallocMsg phase | kmalloc phase | link phase | unlink phase
  | count phase | finish phase =>
      rw [phase] at owes
      cases owes

end Protocol

/-! ## What a statement does to the sleepers -/

/-- After a wake-up nobody sleeps on `readq`. -/
theorem wakeReadq_not_dormant {pc : Pc ι} {a : ReadArgs} {w : WaitPc}
    (position : pc.wakeReadq = .reading a (.wait w)) : w.dormant = false := by
  cases pc with
  | reading b rpc =>
      cases rpc with
      | wait w₀ =>
          cases position
          exact w₀.dormant_wakeUp
      | _ => cases position
  | _ => cases position

/-- After a wake-up nobody sleeps on `writeq`. -/
theorem wakeWriteq_not_dormant {pc : Pc ι} {a : WriteArgs} {w : WaitPc}
    (position : pc.wakeWriteq = .writing a (.wait w)) : w.dormant = false := by
  cases pc with
  | writing b wpc =>
      cases wpc with
      | wait w₀ =>
          cases position
          exact w₀.dormant_wakeUp
      | _ => cases position
  | _ => cases position

/-- Who sleeps on `readq` after a statement is there by its own statement, or was
there before. -/
theorem wake_dormant_read {effect : Effect ι} {pc : Pc ι} {a : ReadArgs} {w : WaitPc}
    (position : effect.wake pc = .reading a (.wait w)) (dormant : w.dormant = true) :
    pc = .reading a (.wait w) := by
  cases effect with
  | wakeReadq => cases dormant.symm.trans (wakeReadq_not_dormant position)
  | wakeWriteq =>
      cases pc with
      | writing b wpc => cases wpc <;> cases position
      | _ => exact position
  | _ => exact position

theorem wake_dormant_write {effect : Effect ι} {pc : Pc ι} {a : WriteArgs} {w : WaitPc}
    (position : effect.wake pc = .writing a (.wait w)) (dormant : w.dormant = true) :
    pc = .writing a (.wait w) := by
  cases effect with
  | wakeWriteq => cases dormant.symm.trans (wakeWriteq_not_dormant position)
  | wakeReadq =>
      cases pc with
      | reading b rpc => cases rpc <;> cases position
      | _ => exact position
  | _ => exact position

theorem m2mReadNext_stays {dev : Mydev ι} {a : ReadArgs} {pc : ReadPc ι} {choice : Choice}
    {effect : Effect ι} {pc' : Pc ι}
    (decided : m2mReadNext dev a pc choice = some (effect, pc')) :
    (∃ rpc, pc' = .reading a rpc) ∨
      ∃ ret delivered, pc' = .returning (.m2mRead a) ret delivered := by
  unfold m2mReadNext at decided
  split at decided <;> grind

theorem m2mWriteNext_stays [KernelMemory] {dev : Mydev ι} {live : Nat} {i : ι} {number : Nat}
    {a : WriteArgs} {pc : WritePc ι} {choice : Choice} {effect : Effect ι} {pc' : Pc ι}
    (decided : m2mWriteNext dev live i number a pc choice = some (effect, pc')) :
    (∃ wpc, pc' = .writing a wpc) ∨
      ∃ ret delivered, pc' = .returning (.m2mWrite a) ret delivered := by
  unfold m2mWriteNext at decided
  split at decided <;> grind

theorem m2mOpenNext_stays {pc : OpenPc} {choice : Choice} {effect : Effect ι} {pc' : Pc ι}
    (decided : m2mOpenNext pc choice = some (effect, pc')) :
    (∃ opc, pc' = .opening opc) ∨ ∃ ret, pc' = .returning .m2mOpen ret [] := by
  unfold m2mOpenNext at decided
  split at decided <;> grind

theorem m2mReleaseNext_stays {ctx : Bool} {pc : ReleasePc} {choice : Choice} {effect : Effect ι}
    {pc' : Pc ι} (decided : m2mReleaseNext ctx pc choice = some (effect, pc')) :
    (∃ rpc, pc' = .releasing rpc) ∨ pc' = .returning .m2mRelease 0 [] := by
  unfold m2mReleaseNext at decided
  split at decided <;> grind

theorem m2mPollNext_stays {dev : Mydev ι} {pc : PollPc} {choice : Choice} {effect : Effect ι}
    {pc' : Pc ι} (decided : m2mPollNext dev pc choice = some (effect, pc')) :
    (∃ ppc, pc' = .polling ppc) ∨ ∃ mask, pc' = .returning .m2mPoll mask [] := by
  unfold m2mPollNext at decided
  split at decided <;> grind

/-- A reader goes towards its sleep only while the list is empty. -/
theorem m2mReadNext_dormant {dev : Mydev ι} {a b : ReadArgs} {pc : ReadPc ι} {choice : Choice}
    {effect : Effect ι} {w : WaitPc}
    (decided : m2mReadNext dev a pc choice = some (effect, .reading b (.wait w)))
    (dormant : w.dormant = true) :
    (a = b ∧ ∃ w', pc = .wait w' ∧ w'.dormant = true) ∨ dev.hasMessage = false := by
  cases pc with
  | wait w₀ =>
      simp only [m2mReadNext] at decided
      split at decided <;> cases decided
      rename_i waits
      rcases waitEventInterruptible_dormant waits dormant with before | empty
      · exact .inl ⟨rfl, w₀, rfl, before⟩
      · exact .inr empty
  | entry =>
      cases choice <;> simp [m2mReadNext] at decided
      split at decided <;> simp at decided
      obtain ⟨-, -, rfl⟩ := decided
      cases dormant
  | nonblockLock | lock =>
      cases choice <;> try cases decided
      obtain ⟨_, same⟩ := lock_free_of_some decided
      cases same
  | nonblockUnlock empty =>
      cases empty <;> cases choice <;> cases decided
      cases dormant
  | take =>
      cases choice <;> simp only [m2mReadNext, reduceCtorEq] at decided
      split at decided <;> cases decided
  | _ => cases choice <;> cases decided

/-- A writer goes towards its sleep only while there is no room for it. -/
theorem m2mWriteNext_dormant [KernelMemory] {dev : Mydev ι} {live : Nat} {i : ι} {number : Nat}
    {a b : WriteArgs} {pc : WritePc ι} {choice : Choice} {effect : Effect ι} {w : WaitPc}
    (decided : m2mWriteNext dev live i number a pc choice =
      some (effect, .writing b (.wait w)))
    (dormant : w.dormant = true) :
    (a = b ∧ ∃ w', pc = .wait w' ∧ w'.dormant = true) ∨ dev.hasRoom b.count = false := by
  cases pc with
  | wait w₀ =>
      simp only [m2mWriteNext] at decided
      split at decided <;> cases decided
      rename_i waits
      rcases waitEventInterruptible_dormant waits dormant with before | noRoom
      · exact .inl ⟨rfl, w₀, rfl, before⟩
      · exact .inr noRoom
  | entry =>
      cases choice <;> simp only [m2mWriteNext, reduceCtorEq] at decided
      split at decided
      · cases decided
      · split at decided <;> cases decided
  | full =>
      cases choice <;> simp only [m2mWriteNext, reduceCtorEq] at decided
      split at decided <;> cases decided
      cases dormant
  | test =>
      cases choice <;> simp [m2mWriteNext] at decided
      split at decided <;> simp at decided
  | allocData =>
      cases choice <;> simp only [m2mWriteNext, reduceCtorEq] at decided
      · split at decided <;> cases decided
      · cases decided
  | lock | lockAppend =>
      cases choice <;> try cases decided
      obtain ⟨_, same⟩ := lock_free_of_some decided
      cases same
  | _ => cases choice <;> cases decided

theorem next_dormant_read [KernelMemory] {s : State ι} {i : ι} {choice : Choice} {effect : Effect ι}
    {a : ReadArgs} {w : WaitPc}
    (decided : next s i choice = some (effect, .reading a (.wait w)))
    (dormant : w.dormant = true) :
    (∃ w', (s.client i).pc = .reading a (.wait w') ∧ w'.dormant = true) ∨
      s.dev.hasMessage = false := by
  unfold next at decided
  split at decided
  case h_1 c _ => cases c <;> cases decided
  case h_2 => rcases m2mOpenNext_stays decided with ⟨_, other⟩ | ⟨_, other⟩ <;> cases other
  case h_3 => rcases m2mReleaseNext_stays decided with ⟨_, other⟩ | other <;> cases other
  case h_4 position =>
      rcases m2mReadNext_dormant decided dormant with ⟨rfl, w', rfl, before⟩ | empty
      · exact .inl ⟨w', position, before⟩
      · exact .inr empty
  case h_5 => rcases m2mWriteNext_stays decided with ⟨_, other⟩ | ⟨_, _, other⟩ <;> cases other
  case h_6 => rcases m2mPollNext_stays decided with ⟨_, other⟩ | ⟨_, other⟩ <;> cases other
  all_goals cases decided

theorem next_dormant_write [KernelMemory] {s : State ι} {i : ι} {choice : Choice}
    {effect : Effect ι} {a : WriteArgs} {w : WaitPc}
    (decided : next s i choice = some (effect, .writing a (.wait w)))
    (dormant : w.dormant = true) :
    (∃ w', (s.client i).pc = .writing a (.wait w') ∧ w'.dormant = true) ∨
      s.dev.hasRoom a.count = false := by
  unfold next at decided
  split at decided
  case h_1 c _ => cases c <;> cases decided
  case h_2 => rcases m2mOpenNext_stays decided with ⟨_, other⟩ | ⟨_, other⟩ <;> cases other
  case h_3 => rcases m2mReleaseNext_stays decided with ⟨_, other⟩ | other <;> cases other
  case h_5 position =>
      rcases m2mWriteNext_dormant decided dormant with ⟨rfl, w', rfl, before⟩ | noRoom
      · exact .inl ⟨w', position, before⟩
      · exact .inr noRoom
  case h_4 => rcases m2mReadNext_stays decided with ⟨_, other⟩ | ⟨_, _, other⟩ <;> cases other
  case h_6 => rcases m2mPollNext_stays decided with ⟨_, other⟩ | ⟨_, other⟩ <;> cases other
  all_goals cases decided

/-! ## The invariant -/

variable [DecidableEq ι]

/-- A reader sleeps, or is about to, while there is a message. -/
def State.ReaderStuck (s : State ι) (i : ι) : Prop :=
  ∃ a w, (s.client i).pc = .reading a (.wait w) ∧ w.dormant = true ∧ s.dev.msgList ≠ []

/-- A writer sleeps, or is about to, while there is room for it. -/
def State.WriterStuck (s : State ι) (i : ι) : Prop :=
  ∃ a w, (s.client i).pc = .writing a (.wait w) ∧ w.dormant = true ∧
    s.dev.hasRoom a.count = true

/-- Whoever is stuck is owed a wake-up. -/
def Attended (stuck : State ι → ι → Prop) (owes : Phase ι → Bool) (s : State ι) : Prop :=
  ∀ j, stuck s j → ∃ k, owes (s.protocol.phase k) = true

/-- The argument for either queue: who gets stuck is owed a wake-up by the client
that moved, and a debt ends only with nobody stuck. -/
theorem Attended.step {stuck : State ι → ι → Prop} {owes : Phase ι → Bool} {s t : State ι}
    {i : ι} (attended : Attended stuck owes s)
    (stepped : Protocol.Step s.protocol i t.protocol)
    (raised : ∀ j, stuck t j → stuck s j ∨ owes (t.protocol.phase i) = true)
    (kept : owes (s.protocol.phase i) = true →
      owes (t.protocol.phase i) = true ∨ ∀ j, ¬ stuck t j) : Attended stuck owes t := by
  intro j now
  rcases raised j now with before | owed
  · obtain ⟨k, owed⟩ := attended j before
    rcases eq_or_ne k i with rfl | other
    · rcases kept owed with still | nobody
      · exact ⟨k, still⟩
      · exact absurd now (nobody j)
    · exact ⟨k, by rwa [stepped.phase_other other]⟩
  · exact ⟨i, owed⟩

omit [DecidableEq ι] in
theorem announcing_position {pc : Pc ι} {a : WriteArgs} {m : Msg ι}
    (phase : pc.phase = .announcing a m) : pc = .writing a (.wake m) := by
  cases pc with
  | writing b wpc =>
      cases wpc with
      | wake m =>
          cases phase
          rfl
      | _ => cases phase
  | reading b rpc => cases rpc <;> cases phase
  | polling ppc => cases ppc <;> cases phase
  | _ => cases phase

omit [DecidableEq ι] in
theorem freed_position {pc : Pc ι} {a : ReadArgs} {m : Msg ι} {ret : Int}
    {delivered : List UInt8} (phase : pc.phase = .freed a m ret delivered) :
    pc = .reading a (.wake m ret delivered) := by
  cases pc with
  | reading b rpc =>
      cases rpc with
      | wake m ret delivered =>
          cases phase
          rfl
      | _ => cases phase
  | writing b wpc => cases wpc <;> cases phase
  | polling ppc => cases ppc <;> cases phase
  | _ => cases phase

section Statements

variable [KernelMemory]

theorem readerStuck_raised {s t : State ι} {i : ι} {choice : Choice}
    (stepped : step s i choice = some t) (j : ι) (stuck : t.ReaderStuck j) :
    s.ReaderStuck j ∨ (t.protocol.phase i).owesReaders = true := by
  obtain ⟨a, w, position, dormant, message⟩ := stuck
  rcases (protocol_step stepped).message_raised message with before | owes
  · obtain ⟨effect, pc, decided, rfl⟩ := step_cases stepped
    rw [after_pc] at position
    have here := wake_dormant_read position dormant
    refine .inl ?_
    split at here
    · rename_i same
      subst same
      subst here
      rcases next_dormant_read decided dormant with ⟨w', earlier, asleep⟩ | empty
      · exact ⟨a, w', earlier, asleep, before⟩
      · exact absurd (by simpa [Mydev.hasMessage, State.protocol] using empty) before
    · exact ⟨a, w, here, dormant, before⟩
  · exact .inr owes

theorem writerStuck_raised {s t : State ι} {i : ι} {choice : Choice}
    (accounted : s.protocol.Accounted) (stepped : step s i choice = some t) (j : ι)
    (stuck : t.WriterStuck j) :
    s.WriterStuck j ∨ (t.protocol.phase i).owesWriters = true := by
  obtain ⟨a, w, position, dormant, room⟩ := stuck
  have simulated := protocol_step stepped
  have permitted : Permitted a.count :=
    sized_at_capacityTest ((accounted.step simulated).sized j) (.inr ⟨w, position⟩)
  rcases accounted.room_raised simulated permitted (of_decide_eq_true room) with before | owes
  · obtain ⟨effect, pc, decided, rfl⟩ := step_cases stepped
    rw [after_pc] at position
    have here := wake_dormant_write position dormant
    refine .inl ?_
    split at here
    · rename_i same
      subst same
      subst here
      rcases next_dormant_write decided dormant with ⟨w', earlier, asleep⟩ | noRoom
      · exact ⟨a, w', earlier, asleep, decide_eq_true before⟩
      · exact absurd before (of_decide_eq_false noRoom)
    · exact ⟨a, w, here, dormant, decide_eq_true before⟩
  · exact .inr owes

/-- The last statement of a write wakes every reader. -/
theorem no_readerStuck_of_announcing {s t : State ι} {i : ι} {choice : Choice} {a : WriteArgs}
    {m : Msg ι} (stepped : step s i choice = some t)
    (phase : s.protocol.phase i = .announcing a m) (j : ι) : ¬ t.ReaderStuck j := by
  rintro ⟨b, w, position, dormant, -⟩
  obtain ⟨effect, pc, decided, rfl⟩ := step_cases stepped
  unfold next at decided
  rw [announcing_position phase] at decided
  cases choice <;> cases decided
  rw [after_pc] at position
  cases dormant.symm.trans (wakeReadq_not_dormant position)

/-- The last statement of a read wakes every writer. -/
theorem no_writerStuck_of_freed {s t : State ι} {i : ι} {choice : Choice} {a : ReadArgs}
    {m : Msg ι} {ret : Int} {delivered : List UInt8} (stepped : step s i choice = some t)
    (phase : s.protocol.phase i = .freed a m ret delivered) (j : ι) : ¬ t.WriterStuck j := by
  rintro ⟨b, w, position, dormant, -⟩
  obtain ⟨effect, pc, decided, rfl⟩ := step_cases stepped
  unfold next at decided
  rw [freed_position phase] at decided
  cases choice <;> cases decided
  rw [after_pc] at position
  cases dormant.symm.trans (wakeWriteq_not_dormant position)

theorem attended_step {s t : State ι} {i : ι} {choice : Choice}
    (stepped : step s i choice = some t)
    (attended : Attended State.ReaderStuck Phase.owesReaders s) :
    Attended State.ReaderStuck Phase.owesReaders t := by
  refine attended.step (protocol_step stepped) (readerStuck_raised stepped) ?_
  intro owes
  rcases (protocol_step stepped).owesReaders owes with still | ⟨a, m, phase⟩
  · exact .inl still
  · exact .inr (no_readerStuck_of_announcing stepped phase)

theorem attended_writers_step {s t : State ι} {i : ι} {choice : Choice}
    (accounted : s.protocol.Accounted) (stepped : step s i choice = some t)
    (attended : Attended State.WriterStuck Phase.owesWriters s) :
    Attended State.WriterStuck Phase.owesWriters t := by
  refine attended.step (protocol_step stepped) (writerStuck_raised accounted stepped) ?_
  intro owes
  rcases (protocol_step stepped).owesWriters owes with still | ⟨a, m, ret, delivered, phase⟩
  · exact .inl still
  · exact .inr (no_writerStuck_of_freed stepped phase)

theorem attended_of_reachable {s : State ι} (reached : ReachableState s) :
    Attended State.ReaderStuck Phase.owesReaders s ∧
      Attended State.WriterStuck Phase.owesWriters s := by
  refine (reached.invariant (fun s => s.protocol.Accounted ∧
    Attended State.ReaderStuck Phase.owesReaders s ∧
      Attended State.WriterStuck Phase.owesWriters s) ?_ ?_).2
  · refine ⟨Protocol.accounted_init, ?_, ?_⟩
    · rintro j ⟨a, w, position, -⟩
      cases position
    · rintro j ⟨a, w, position, -⟩
      cases position
  · rintro s ⟨i, choice⟩ t ⟨accounted, readers, writers⟩ stepped
    exact ⟨accounted.step (protocol_step stepped), attended_step stepped readers,
      attended_writers_step accounted stepped writers⟩

end Statements

/-! ## The result -/

/-- The statements of `m2m_write` between `list_add_tail` and
`wake_up_interruptible(&dev->readq)`. -/
def Pc.BetweenAppendAndWake (pc : Pc ι) : Prop :=
  ∃ a m, pc = .writing a (.addBytes m) ∨ pc = .writing a (.unlockAppend m) ∨
    pc = .writing a (.wake m)

/-- The statements of `m2m_read` between `list_del` and
`wake_up_interruptible(&dev->writeq)`. -/
def Pc.BetweenRemovalAndWake (pc : Pc ι) : Prop :=
  ∃ a m, pc = .reading a (.subBytes m) ∨ pc = .reading a (.unlock m) ∨
    pc = .reading a (.copy m) ∨ (∃ ret delivered, pc = .reading a (.freeData m ret delivered)) ∨
    (∃ ret delivered, pc = .reading a (.freeMsg m ret delivered)) ∨
    ∃ ret delivered, pc = .reading a (.wake m ret delivered)

omit [DecidableEq ι] in
theorem between_of_owesReaders {pc : Pc ι} (owes : pc.phase.owesReaders = true) :
    pc.BetweenAppendAndWake := by
  cases pc with
  | writing a wpc =>
      cases wpc with
      | addBytes m => exact ⟨a, m, .inl rfl⟩
      | unlockAppend m => exact ⟨a, m, .inr (.inl rfl)⟩
      | wake m => exact ⟨a, m, .inr (.inr rfl)⟩
      | _ => cases owes
  | reading a rpc => cases rpc <;> cases owes
  | polling ppc => cases ppc <;> cases owes
  | _ => cases owes

omit [DecidableEq ι] in
theorem between_of_owesWriters {pc : Pc ι} (owes : pc.phase.owesWriters = true) :
    pc.BetweenRemovalAndWake := by
  cases pc with
  | reading a rpc =>
      cases rpc with
      | subBytes m => exact ⟨a, m, .inl rfl⟩
      | unlock m => exact ⟨a, m, .inr (.inl rfl)⟩
      | copy m => exact ⟨a, m, .inr (.inr (.inl rfl))⟩
      | freeData m ret delivered => exact ⟨a, m, .inr (.inr (.inr (.inl ⟨ret, delivered, rfl⟩)))⟩
      | freeMsg m ret delivered =>
          exact ⟨a, m, .inr (.inr (.inr (.inr (.inl ⟨ret, delivered, rfl⟩))))⟩
      | wake m ret delivered =>
          exact ⟨a, m, .inr (.inr (.inr (.inr (.inr ⟨ret, delivered, rfl⟩))))⟩
      | _ => cases owes
  | writing a wpc => cases wpc <;> cases owes
  | polling ppc => cases ppc <;> cases owes
  | _ => cases owes

/-- **No wake-up is lost.** In no reachable state a reader is asleep while the list
has a message and no writer is between its append and its wake-up, and in none a writer
is asleep while its message has room and no reader is between its removal and its
wake-up. -/
theorem no_lost_wakeup [KernelMemory] {s : State ι} (reached : ReachableState s) :
    (¬ ∃ i a, (s.client i).pc = .reading a (.wait .asleep) ∧ s.dev.msgList ≠ [] ∧
      ∀ j, ¬ (s.client j).pc.BetweenAppendAndWake) ∧
    ¬ ∃ i a, (s.client i).pc = .writing a (.wait .asleep) ∧
      s.dev.hasRoom a.count = true ∧ ∀ j, ¬ (s.client j).pc.BetweenRemovalAndWake := by
  obtain ⟨readers, writers⟩ := attended_of_reachable reached
  constructor
  · rintro ⟨i, a, position, message, nobody⟩
    obtain ⟨j, owes⟩ := readers i ⟨a, .asleep, position, rfl, message⟩
    exact nobody j (between_of_owesReaders owes)
  · rintro ⟨i, a, position, room, nobody⟩
    obtain ⟨j, owes⟩ := writers i ⟨a, .asleep, position, rfl, room⟩
    exact nobody j (between_of_owesWriters owes)

/-- A reader falls asleep on the empty queue, and a writer appends: it is between its
append and its wake-up. -/
theorem no_lost_wakeup_reader_asleep :
    ∃ s : State (Fin 2), (s.client 1).pc = .reading ⟨false, 8⟩ (.wait .asleep) ∧
      s.dev.msgList ≠ [] ∧ ∃ j, (s.client j).pc.BetweenAppendAndWake := by
  obtain ⟨s, ran⟩ := Option.isSome_iff_exists.mp
    (show (runSchedule (alone (1 : Fin 2) (.m2mRead ⟨false, 8⟩) 5 ++
      alone 0 (.m2mWrite ⟨false, 3, fun _ => 7⟩) 9) m2mInit).isSome from rfl)
  have asleep : (s.client 1).pc = .reading ⟨false, 8⟩ (.wait .asleep) := by
    cases ran
    rfl
  have one : s.dev.msgList.length = 1 := by
    cases ran
    rfl
  have message : s.dev.msgList ≠ [] := by
    intro empty
    simp [empty] at one
  refine ⟨s, asleep, message, ?_⟩
  by_contra nobody
  exact (no_lost_wakeup (reachable_of_runSchedule .refl ran)).1
    ⟨1, _, asleep, message, not_exists.mp nobody⟩

end OsLab.MessageQueue
