import Mathlib.Logic.Function.Basic
import Mathlib.Tactic.Simps.Basic
import OsLab.MessageQueue.Model

/-!
# The protocol of a call

A call of the device goes through few phases: it holds nothing, it holds the
lock, it owns a message that is not in the list, it owes an update of
`queued_bytes`, or it owes a wake-up. `Protocol` is the device seen through these
phases. The positions in a wait, the repeated tests of the list and the counters of
open files are not in it.

`protocol_step` is the simulation: every statement of every client is a step of
the protocol. The invariants of the list, of `queued_bytes` and of the histories
are proved of the protocol, and `protocol_reachable` carries them to the code.
-/

set_option autoImplicit false

namespace OsLab.MessageQueue

open OsLab.Foundation

/-! ## Phases -/

/-- What a client holds and what it owes. -/
inductive Phase (ι : Type) where
  | idle
  /-- In a call, with nothing held. -/
  | calling (call : Call)
  /-- With the lock, and nothing changed. -/
  | inspecting (call : Call)
  /-- A write of a permitted length that was not admitted yet. -/
  | trying (a : WriteArgs)
  /-- With the lock, at the test of the capacity. -/
  | testing (a : WriteArgs)
  | denied (a : WriteArgs)
  | granted (a : WriteArgs)
  /-- The test passed and the lock is released. -/
  | admitted (a : WriteArgs)
  /-- With a `struct msg` that has no data. -/
  | hollow (a : WriteArgs)
  | allocated (a : WriteArgs)
  | faulted (a : WriteArgs)
  /-- The write fails, and its `struct msg` has no data and is not freed. -/
  | stripped (a : WriteArgs)
  | filled (a : WriteArgs) (m : Msg ι)
  /-- With the lock, before `list_add_tail`. -/
  | linking (a : WriteArgs) (m : Msg ι)
  /-- In the list, and not in `queued_bytes`. -/
  | linked (a : WriteArgs) (m : Msg ι)
  | counted (a : WriteArgs) (m : Msg ι)
  /-- The lock is released and the readers are not woken. -/
  | announcing (a : WriteArgs) (m : Msg ι)
  /-- Not in the list, and still in `queued_bytes`. -/
  | unlinked (a : ReadArgs) (m : Msg ι)
  | uncounted (a : ReadArgs) (m : Msg ι)
  | taken (a : ReadArgs) (m : Msg ι)
  | copied (a : ReadArgs) (m : Msg ι) (ret : Int) (delivered : List UInt8)
  /-- The data are freed and the `struct msg` is not. -/
  | emptied (a : ReadArgs) (m : Msg ι) (ret : Int) (delivered : List UInt8)
  /-- The message is freed and the writers are not woken. -/
  | freed (a : ReadArgs) (m : Msg ι) (ret : Int) (delivered : List UInt8)
  | returning (call : Call) (ret : Int) (delivered : List UInt8)

variable {ι : Type}

def ReadPc.phase (a : ReadArgs) : ReadPc ι → Phase ι
  | .entry | .nonblockLock | .wait _ | .lock => .calling (.m2mRead a)
  | .nonblockTest | .nonblockUnlock _ | .take | .unlockEmpty => .inspecting (.m2mRead a)
  | .subBytes m => .unlinked a m
  | .unlock m => .uncounted a m
  | .copy m => .taken a m
  | .freeData m ret delivered => .copied a m ret delivered
  | .freeMsg m ret delivered => .emptied a m ret delivered
  | .wake m ret delivered => .freed a m ret delivered

def WritePc.phase (a : WriteArgs) : WritePc ι → Phase ι
  | .entry => .calling (.m2mWrite a)
  | .lock | .full | .wait _ => .trying a
  | .test => .testing a
  | .unlockRoom => .granted a
  | .unlockFull => .denied a
  | .allocMsg => .admitted a
  | .allocData => .hollow a
  | .copy => .allocated a
  | .freeData => .faulted a
  | .freeBare | .freeMsg => .stripped a
  | .lockAppend m => .filled a m
  | .addTail m => .linking a m
  | .addBytes m => .linked a m
  | .unlockAppend m => .counted a m
  | .wake m => .announcing a m

def PollPc.phase : PollPc → Phase ι
  | .lock => .calling .m2mPoll
  | .test | .unlock _ => .inspecting .m2mPoll

def Pc.phase : Pc ι → Phase ι
  | .idle => .idle
  | .opening _ => .calling .m2mOpen
  | .releasing _ => .calling .m2mRelease
  | .reading a pc => pc.phase a
  | .writing a pc => pc.phase a
  | .polling pc => pc.phase
  | .returning call ret delivered => .returning call ret delivered

@[simp] theorem phase_entry (c : Call) : (c.entry : Pc ι).phase = .calling c := by
  cases c <;> rfl

/-- A wake-up moves a waiter within its wait only. -/
@[simp] theorem phase_wakeReadq (pc : Pc ι) : pc.wakeReadq.phase = pc.phase := by
  cases pc with
  | reading a pc => cases pc <;> rfl
  | _ => rfl

@[simp] theorem phase_wakeWriteq (pc : Pc ι) : pc.wakeWriteq.phase = pc.phase := by
  cases pc with
  | writing a pc => cases pc <;> rfl
  | _ => rfl

theorem phase_eq_testing_iff {pc : Pc ι} {a : WriteArgs} :
    pc.phase = .testing a ↔ pc = .writing a .test := by
  constructor
  · intro phase
    cases pc with
    | reading b pc => cases pc <;> cases phase
    | writing b pc =>
        cases pc with
        | test => cases phase; rfl
        | _ => cases phase
    | polling pc => cases pc <;> cases phase
    | _ => cases phase
  · rintro rfl
    rfl

/-! ## Steps of the protocol -/

/-- A result that says the call left the list as it was. -/
def Call.Refused : Call → Int → Prop
  | .m2mRead _, ret => ret < 0
  | .m2mWrite _, ret => ret ≤ 0
  | _, _ => True

/-- Moves that touch nothing but the client, the call `number` of client `i`. -/
inductive Quiet (i : ι) (number : Nat) : Phase ι → Phase ι → Prop where
  | again (c : Call) : Quiet i number (.calling c) (.calling c)
  | refuse (c : Call) (ret : Int) (refused : c.Refused ret) :
      Quiet i number (.calling c) (.returning c ret [])
  | enter (a : WriteArgs) (positive : 0 < a.count) (short : a.count ≤ maxMsg) :
      Quiet i number (.calling (.m2mWrite a)) (.trying a)
  | retry (a : WriteArgs) : Quiet i number (.trying a) (.trying a)
  | giveUp (a : WriteArgs) (ret : Int) (refused : ret ≤ 0) :
      Quiet i number (.trying a) (.returning (.m2mWrite a) ret [])
  | inspect (c : Call) : Quiet i number (.inspecting c) (.inspecting c)
  | deny (a : WriteArgs) : Quiet i number (.testing a) (.denied a)
  | noMemory (a : WriteArgs) :
      Quiet i number (.admitted a) (.returning (.m2mWrite a) (-enomem) [])
  | noData (a : WriteArgs) : Quiet i number (.hollow a) (.stripped a)
  | fault (a : WriteArgs) : Quiet i number (.allocated a) (.faulted a)
  | fill (a : WriteArgs) :
      Quiet i number (.allocated a) (.filled a (msgAlloc i number a))
  | announce (a : WriteArgs) (m : Msg ι) :
      Quiet i number (.announcing a m) (.returning (.m2mWrite a) a.count [])
  | copy (a : ReadArgs) (m : Msg ι) :
      Quiet i number (.taken a m)
        (.copied a m (min a.count m.len : Nat) (m.data.take (min a.count m.len)))
  | copyFault (a : ReadArgs) (m : Msg ι) :
      Quiet i number (.taken a m) (.copied a m (-efault) [])
  | announceRoom (a : ReadArgs) (m : Msg ι) (ret : Int) (delivered : List UInt8) :
      Quiet i number (.freed a m ret delivered) (.returning (.m2mRead a) ret delivered)

/-- Moves over a `mutex_lock`. -/
inductive Acquire : Phase ι → Phase ι → Prop where
  | inspect (c : Call) : Acquire (.calling c) (.inspecting c)
  | test (a : WriteArgs) : Acquire (.trying a) (.testing a)
  | link (a : WriteArgs) (m : Msg ι) : Acquire (.filled a m) (.linking a m)

/-- Moves over a `mutex_unlock`. -/
inductive Release : Phase ι → Phase ι → Prop where
  | again (c : Call) : Release (.inspecting c) (.calling c)
  | refuse (c : Call) (ret : Int) (refused : c.Refused ret) :
      Release (.inspecting c) (.returning c ret [])
  | deny (a : WriteArgs) : Release (.denied a) (.trying a)
  | passed (a : WriteArgs) : Release (.granted a) (.admitted a)
  | announce (a : WriteArgs) (m : Msg ι) : Release (.counted a m) (.announcing a m)
  | take (a : ReadArgs) (m : Msg ι) : Release (.uncounted a m) (.taken a m)

/-- Moves over a `kfree(m->data)`, with the bytes it gives back. -/
inductive Kfree : Phase ι → Nat → Phase ι → Prop where
  | fault (a : WriteArgs) : Kfree (.faulted a) a.count (.stripped a)
  | message (a : ReadArgs) (m : Msg ι) (ret : Int) (delivered : List UInt8) :
      Kfree (.copied a m ret delivered) m.len (.emptied a m ret delivered)

/-- Moves over a `kfree(m)`. -/
inductive KfreeMsg : Phase ι → Phase ι → Prop where
  | refuse (a : WriteArgs) (ret : Int) (refused : ret ≤ 0) :
      KfreeMsg (.stripped a) (.returning (.m2mWrite a) ret [])
  | message (a : ReadArgs) (m : Msg ι) (ret : Int) (delivered : List UInt8) :
      KfreeMsg (.emptied a m ret delivered) (.freed a m ret delivered)

/-- The device seen through the phases of its clients. -/
@[ext]
structure Protocol (ι : Type) where
  lock : Option ι
  msgList : List (Msg ι)
  queuedBytes : Nat
  phase : ι → Phase ι
  calls : ι → Nat
  live : Nat
  nodes : Nat
  appended : List (Msg ι)
  dequeued : List (Taken ι)
  returned : List (Returned ι)

namespace Protocol

def init : Protocol ι where
  lock := none
  msgList := []
  queuedBytes := 0
  phase _ := .idle
  calls _ := 0
  live := 0
  nodes := 0
  appended := []
  dequeued := []
  returned := []

variable [DecidableEq ι]

/-- Client `i` goes to another phase. -/
@[simps]
def move (s : Protocol ι) (i : ι) (p : Phase ι) : Protocol ι :=
  { s with phase := Function.update s.phase i p }

/-- The effect of a statement of client `i` on what the clients share. -/
def apply (s : Protocol ι) (i : ι) : Effect ι → Protocol ι
  | .skip | .file _ | .wakeReadq | .wakeWriteq => s
  | .begin => { s with calls := Function.update s.calls i (s.calls i + 1) }
  | .mutexLock => { s with lock := some i }
  | .mutexUnlock => { s with lock := none }
  | .kmallocMsg => { s with nodes := s.nodes + 1 }
  | .kmalloc bytes => { s with live := s.live + bytes }
  | .kfree bytes => { s with live := s.live - bytes }
  | .kfreeMsg => { s with nodes := s.nodes - 1 }
  | .listDel m =>
      { s with
        msgList := s.msgList.tail
        dequeued := s.dequeued ++ [(⟨i, s.calls i, m⟩ : Taken ι)] }
  | .subBytes bytes => { s with queuedBytes := subSize s.queuedBytes bytes }
  | .listAddTail m => { s with msgList := s.msgList ++ [m], appended := s.appended ++ [m] }
  | .addBytes bytes => { s with queuedBytes := addSize s.queuedBytes bytes }
  | .finish call ret delivered =>
      { s with
        returned := s.returned ++ [(⟨i, s.calls i, call, ret, delivered⟩ : Returned ι)] }

/-- One statement of client `i`. -/
inductive Step (s : Protocol ι) (i : ι) : Protocol ι → Prop where
  | begin (c : Call) (phase : s.phase i = .idle) :
      Step s i
        ({ s with calls := Function.update s.calls i (s.calls i + 1) }.move i (.calling c))
  | quiet {p : Phase ι} (moves : Quiet i (s.calls i) (s.phase i) p) : Step s i (s.move i p)
  | acquire {p : Phase ι} (free : s.lock = none) (moves : Acquire (s.phase i) p) :
      Step s i ({ s with lock := some i }.move i p)
  | release {p : Phase ι} (moves : Release (s.phase i) p) :
      Step s i ({ s with lock := none }.move i p)
  | grant {a : WriteArgs} (phase : s.phase i = .testing a)
      (room : addSize s.queuedBytes a.count ≤ maxBytes) : Step s i (s.move i (.granted a))
  | kmallocMsg {a : WriteArgs} (phase : s.phase i = .admitted a) :
      Step s i ({ s with nodes := s.nodes + 1 }.move i (.hollow a))
  | kmalloc {a : WriteArgs} (phase : s.phase i = .hollow a)
      (fits : s.live + a.count ≤ kernelSpace) :
      Step s i ({ s with live := s.live + a.count }.move i (.allocated a))
  | kfree {p : Phase ι} {bytes : Nat} (moves : Kfree (s.phase i) bytes p) :
      Step s i ({ s with live := s.live - bytes }.move i p)
  | kfreeMsg {p : Phase ι} (moves : KfreeMsg (s.phase i) p) :
      Step s i ({ s with nodes := s.nodes - 1 }.move i p)
  | link {a : WriteArgs} {m : Msg ι} (phase : s.phase i = .linking a m) :
      Step s i
        ({ s with msgList := s.msgList ++ [m], appended := s.appended ++ [m] }.move i
          (.linked a m))
  | count {a : WriteArgs} {m : Msg ι} (phase : s.phase i = .linked a m) :
      Step s i
        ({ s with queuedBytes := addSize s.queuedBytes m.len }.move i (.counted a m))
  | unlink {a : ReadArgs} {m : Msg ι} {rest : List (Msg ι)}
      (phase : s.phase i = .inspecting (.m2mRead a)) (first : s.msgList = m :: rest) :
      Step s i
        ({ s with
            msgList := rest
            dequeued := s.dequeued ++ [(⟨i, s.calls i, m⟩ : Taken ι)] }.move i (.unlinked a m))
  | uncount {a : ReadArgs} {m : Msg ι} (phase : s.phase i = .unlinked a m) :
      Step s i
        ({ s with queuedBytes := subSize s.queuedBytes m.len }.move i (.uncounted a m))
  | finish {c : Call} {ret : Int} {delivered : List UInt8}
      (phase : s.phase i = .returning c ret delivered) :
      Step s i
        ({ s with
            returned :=
              s.returned ++ [(⟨i, s.calls i, c, ret, delivered⟩ : Returned ι)] }.move i .idle)

theorem Step.phase_other {s t : Protocol ι} {i j : ι} (stepped : Step s i t) (other : j ≠ i) :
    t.phase j = s.phase j := by
  cases stepped <;> exact Function.update_of_ne other ..

end Protocol

/-! ## The simulation -/

/-- What the protocol sees of a state. -/
def State.protocol (s : State ι) : Protocol ι where
  lock := s.dev.lock
  msgList := s.dev.msgList
  queuedBytes := s.dev.queuedBytes
  phase i := (s.client i).pc.phase
  calls i := (s.client i).calls
  live := s.live
  nodes := s.nodes
  appended := s.appended
  dequeued := s.dequeued
  returned := s.returned

theorem protocol_phase {s : State ι} {i : ι} {pc : Pc ι} (position : (s.client i).pc = pc) :
    s.protocol.phase i = pc.phase := by
  simp only [State.protocol, position]

variable [DecidableEq ι]

theorem step_cases [KernelMemory] {s t : State ι} {i : ι} {choice : Choice}
    (stepped : step s i choice = some t) :
    ∃ effect pc, next s i choice = some (effect, pc) ∧ t = s.after i effect pc := by
  unfold step at stepped
  cases decided : next s i choice with
  | none => simp [decided] at stepped
  | some result =>
      obtain ⟨effect, pc⟩ := result
      simp only [decided, Option.some.injEq] at stepped
      exact ⟨effect, pc, rfl, stepped.symm⟩

/-- What a statement on the file of a client does to a client. -/
@[simp] theorem applyFile_client (s : State ι) (i j : ι) (effect : FileEffect) :
    (((s.applyFile i effect).client j).pc = (s.client j).pc) ∧
      ((s.applyFile i effect).client j).calls = (s.client j).calls := by
  rcases eq_or_ne j i with rfl | other
  · cases effect <;> simp [State.applyFile, State.setClient]
  · cases effect <;> simp [State.applyFile, State.setClient, other]

/-- It leaves the list, the lock, the messages and the histories. -/
@[simp] theorem applyFile_frame (s : State ι) (i : ι) (effect : FileEffect) :
    (s.applyFile i effect).dev.lock = s.dev.lock ∧
      (s.applyFile i effect).dev.msgList = s.dev.msgList ∧
      (s.applyFile i effect).dev.queuedBytes = s.dev.queuedBytes ∧
      (s.applyFile i effect).live = s.live ∧ (s.applyFile i effect).nodes = s.nodes ∧
      (s.applyFile i effect).appended = s.appended ∧
      (s.applyFile i effect).dequeued = s.dequeued ∧
      (s.applyFile i effect).returned = s.returned := by
  cases effect <;> exact ⟨rfl, rfl, rfl, rfl, rfl, rfl, rfl, rfl⟩

/-- The wake-up an effect issues. -/
def Effect.wake : Effect ι → Pc ι → Pc ι
  | .wakeReadq => Pc.wakeReadq
  | .wakeWriteq => Pc.wakeWriteq
  | _ => id

theorem after_pc (s : State ι) (i j : ι) (effect : Effect ι) (pc : Pc ι) :
    ((s.after i effect pc).client j).pc =
      effect.wake (if j = i then pc else (s.client j).pc) := by
  rcases eq_or_ne j i with rfl | other
  · cases effect <;> simp [State.after, State.apply, State.setClient, State.mapPc, Effect.wake]
  · cases effect <;>
      simp [State.after, State.apply, State.setClient, State.mapPc, Effect.wake, other]

theorem after_pc_self (s : State ι) (i : ι) {effect : Effect ι} (pc : Pc ι)
    (silent : effect.wake = id) : ((s.after i effect pc).client i).pc = pc := by
  rw [after_pc, silent, if_pos rfl]
  rfl

theorem after_pc_other (s : State ι) {i j : ι} {effect : Effect ι} (pc : Pc ι)
    (silent : effect.wake = id) (other : j ≠ i) :
    ((s.after i effect pc).client j).pc = (s.client j).pc := by
  rw [after_pc, silent, if_neg other]
  rfl

/-- The protocol sees a statement as its effect and a move of its client. -/
theorem protocol_after (s : State ι) (i : ι) (effect : Effect ι) (pc : Pc ι) :
    (s.after i effect pc).protocol = (s.protocol.apply i effect).move i pc.phase := by
  have phase : (s.after i effect pc).protocol.phase =
      Function.update (s.protocol.apply i effect).phase i pc.phase := by
    funext j
    rcases eq_or_ne j i with rfl | other
    · cases effect <;>
        simp [State.after, State.apply, State.setClient, State.mapPc, State.protocol]
    · cases effect <;>
        simp [State.after, State.apply, State.setClient, State.mapPc, State.protocol,
          Protocol.apply, other]
  have calls : (s.after i effect pc).protocol.calls = (s.protocol.apply i effect).calls := by
    funext j
    rcases eq_or_ne j i with rfl | other
    · cases effect <;>
        simp [State.after, State.apply, State.setClient, State.mapPc, State.protocol,
          Protocol.apply]
    · cases effect <;>
        simp [State.after, State.apply, State.setClient, State.mapPc, State.protocol,
          Protocol.apply, other]
  refine Protocol.ext ?_ ?_ ?_ phase calls ?_ ?_ ?_ ?_ ?_ <;>
    cases effect <;>
    simp [State.after, State.apply, State.setClient, State.mapPc, State.protocol, Protocol.apply]

/-- Effects the protocol does not see. -/
inductive Effect.Silent : Effect ι → Prop where
  | skip : Silent .skip
  | file (effect : FileEffect) : Silent (.file effect)
  | wakeReadq : Silent .wakeReadq
  | wakeWriteq : Silent .wakeWriteq

section Statements

variable {s : State ι} {i : ι} {pc₀ pc : Pc ι} (position : (s.client i).pc = pc₀)

include position

theorem Quiet.step {effect : Effect ι} (silent : effect.Silent)
    (moves : Quiet i (s.client i).calls pc₀.phase pc.phase) :
    Protocol.Step s.protocol i (s.after i effect pc).protocol := by
  subst position
  rw [protocol_after]
  cases silent <;> exact .quiet moves

theorem Acquire.step (free : s.dev.lock = none)
    (moves : Acquire pc₀.phase pc.phase) :
    Protocol.Step s.protocol i (s.after i .mutexLock pc).protocol := by
  subst position
  rw [protocol_after]
  exact .acquire free moves

theorem Release.step (moves : Release pc₀.phase pc.phase) :
    Protocol.Step s.protocol i (s.after i .mutexUnlock pc).protocol := by
  subst position
  rw [protocol_after]
  exact .release moves

theorem Kfree.step {bytes : Nat} (moves : Kfree pc₀.phase bytes pc.phase) :
    Protocol.Step s.protocol i (s.after i (.kfree bytes) pc).protocol := by
  subst position
  rw [protocol_after]
  exact .kfree moves

theorem KfreeMsg.step (moves : KfreeMsg pc₀.phase pc.phase) :
    Protocol.Step s.protocol i (s.after i .kfreeMsg pc).protocol := by
  subst position
  rw [protocol_after]
  exact .kfreeMsg moves

end Statements

omit [DecidableEq ι] in
/-- A `mutex_lock` goes on only while the lock is free. -/
theorem lock_free_of_some {lock : Option ι} {result expected : Effect ι × Pc ι}
    (decided : (if lock.isNone then some result else none) = some expected) :
    lock = none ∧ result = expected := by
  cases lock with
  | none => exact ⟨rfl, Option.some.inj decided⟩
  | some j => cases decided

theorem protocol_open {s : State ι} {i : ι} {pc : OpenPc} {choice : Choice}
    {effect : Effect ι} {pc' : Pc ι} (position : (s.client i).pc = .opening pc)
    (decided : m2mOpenNext pc choice = some (effect, pc')) :
    Protocol.Step s.protocol i (s.after i effect pc').protocol := by
  cases pc with
  | kzalloc =>
      cases choice <;> cases decided
      · exact Quiet.step position (.file _) (.again _)
      · exact Quiet.step position .skip (.refuse _ _ trivial)
  | setCtx | incReaders =>
      cases choice <;> cases decided
      exact Quiet.step position (.file _) (.again _)
  | incWriters =>
      cases choice <;> cases decided
      exact Quiet.step position (.file _) (.refuse _ _ trivial)

theorem protocol_release {s : State ι} {i : ι} {ctx : Bool} {pc : ReleasePc} {choice : Choice}
    {effect : Effect ι} {pc' : Pc ι} (position : (s.client i).pc = .releasing pc)
    (decided : m2mReleaseNext ctx pc choice = some (effect, pc')) :
    Protocol.Step s.protocol i (s.after i effect pc').protocol := by
  cases pc with
  | test =>
      cases choice <;> cases decided
      cases ctx with
      | true => exact Quiet.step position .skip (.again _)
      | false => exact Quiet.step position .skip (.refuse _ _ trivial)
  | decReaders | decWriters | kfree =>
      cases choice <;> cases decided
      exact Quiet.step position (.file _) (.again _)
  | clearCtx =>
      cases choice <;> cases decided
      exact Quiet.step position (.file _) (.refuse _ _ trivial)

theorem protocol_read {s : State ι} {i : ι} {a : ReadArgs} {pc : ReadPc ι}
    {choice : Choice} {effect : Effect ι} {pc' : Pc ι}
    (position : (s.client i).pc = .reading a pc)
    (decided : m2mReadNext s.dev a pc choice = some (effect, pc')) :
    Protocol.Step s.protocol i (s.after i effect pc').protocol := by
  cases pc with
  | entry =>
      cases choice <;> cases decided
      refine Quiet.step position .skip ?_
      split <;> exact .again _
  | nonblockLock =>
      cases choice <;> try cases decided
      obtain ⟨free, same⟩ := lock_free_of_some decided
      cases same
      exact Acquire.step position free (.inspect _)
  | nonblockTest =>
      cases choice <;> cases decided
      exact Quiet.step position .skip (.inspect _)
  | nonblockUnlock empty =>
      cases empty with
      | true =>
          cases choice <;> cases decided
          exact Release.step position (.refuse _ _ (show -eagain < 0 by decide))
      | false =>
          cases choice <;> cases decided
          exact Release.step position (.again _)
  | wait pc =>
      simp only [m2mReadNext] at decided
      split at decided <;> cases decided <;> refine Quiet.step position .skip ?_
      · exact .again _
      · exact .again _
      · exact .refuse _ _ (show -erestartsys < 0 by decide)
  | lock =>
      cases choice <;> try cases decided
      obtain ⟨free, same⟩ := lock_free_of_some decided
      cases same
      exact Acquire.step position free (.inspect _)
  | take =>
      cases choice <;> try cases decided
      cases queue : s.dev.msgList with
      | nil =>
          simp only [m2mReadNext, queue] at decided
          cases decided
          exact Quiet.step position .skip (.inspect _)
      | cons m rest =>
          simp only [m2mReadNext, queue] at decided
          cases decided
          have removed : s.protocol.apply i (.listDel m) =
              { s.protocol with
                msgList := rest
                dequeued := s.dequeued ++ [(⟨i, (s.client i).calls, m⟩ : Taken ι)] } := by
            simp [Protocol.apply, State.protocol, queue]
          rw [protocol_after, removed]
          exact .unlink (protocol_phase position) queue
  | unlockEmpty =>
      cases choice <;> cases decided
      exact Release.step position (.refuse _ _ (show -eagain < 0 by decide))
  | subBytes m =>
      cases choice <;> cases decided
      rw [protocol_after]
      exact .uncount (protocol_phase position)
  | unlock m =>
      cases choice <;> cases decided
      exact Release.step position (.take _ _)
  | copy m =>
      cases choice <;> cases decided <;> refine Quiet.step position .skip ?_
      · exact .copy _ _
      · exact .copyFault _ _
  | freeData m ret delivered =>
      cases choice <;> cases decided
      exact Kfree.step position (.message _ _ _ _)
  | freeMsg m ret delivered =>
      cases choice <;> cases decided
      exact KfreeMsg.step position (.message _ _ _ _)
  | wake m ret delivered =>
      cases choice <;> cases decided
      exact Quiet.step position .wakeWriteq (.announceRoom _ _ _ _)

theorem protocol_write [KernelMemory] {s : State ι} {i : ι} {a : WriteArgs} {pc : WritePc ι}
    {choice : Choice} {effect : Effect ι} {pc' : Pc ι}
    (position : (s.client i).pc = .writing a pc)
    (decided : m2mWriteNext s.dev s.live i (s.client i).calls a pc choice = some (effect, pc')) :
    Protocol.Step s.protocol i (s.after i effect pc').protocol := by
  cases pc with
  | entry =>
      cases choice <;> simp only [m2mWriteNext, reduceCtorEq] at decided
      split at decided
      · cases decided
        exact Quiet.step position .skip (.refuse _ _ (show (0 : Int) ≤ 0 by decide))
      · rename_i positive
        split at decided <;> cases decided <;> refine Quiet.step position .skip ?_
        · exact .refuse _ _ (show -emsgsize ≤ 0 by decide)
        · rename_i short
          exact .enter a (Nat.pos_of_ne_zero positive) (Nat.le_of_not_gt short)
  | lock =>
      cases choice <;> try cases decided
      obtain ⟨free, same⟩ := lock_free_of_some decided
      cases same
      exact Acquire.step position free (.test _)
  | test =>
      cases choice <;> try cases decided
      cases room : s.dev.hasRoom a.count with
      | true =>
          rw [if_pos rfl, protocol_after]
          exact .grant (protocol_phase position) (of_decide_eq_true room)
      | false =>
          exact Quiet.step position .skip (.deny _)
  | unlockRoom =>
      cases choice <;> cases decided
      exact Release.step position (.passed _)
  | unlockFull =>
      cases choice <;> cases decided
      exact Release.step position (.deny _)
  | full =>
      cases choice <;> simp only [m2mWriteNext, reduceCtorEq] at decided
      split at decided <;> cases decided <;> refine Quiet.step position .skip ?_
      · exact .giveUp _ _ (by decide)
      · exact .retry _
  | wait pc =>
      simp only [m2mWriteNext] at decided
      split at decided <;> cases decided <;> refine Quiet.step position .skip ?_
      · exact .retry _
      · exact .retry _
      · exact .giveUp _ _ (by decide)
  | allocMsg =>
      cases choice <;> cases decided
      · rw [protocol_after]
        exact .kmallocMsg (protocol_phase position)
      · exact Quiet.step position .skip (.noMemory _)
  | allocData =>
      cases choice <;> simp only [m2mWriteNext, reduceCtorEq] at decided
      · split at decided
        · rename_i fits
          cases decided
          rw [protocol_after]
          exact .kmalloc (protocol_phase position) (Nat.le_trans fits KernelMemory.small)
        · cases decided
          exact Quiet.step position .skip (.noData _)
      · cases decided
        exact Quiet.step position .skip (.noData _)
  | freeBare =>
      cases choice <;> cases decided
      exact KfreeMsg.step position (.refuse _ _ (by decide))
  | copy =>
      cases choice <;> cases decided <;> refine Quiet.step position .skip ?_
      · exact .fill _
      · exact .fault _
  | freeData =>
      cases choice <;> cases decided
      exact Kfree.step position (.fault _)
  | freeMsg =>
      cases choice <;> cases decided
      exact KfreeMsg.step position (.refuse _ _ (by decide))
  | lockAppend m =>
      cases choice <;> try cases decided
      obtain ⟨free, same⟩ := lock_free_of_some decided
      cases same
      exact Acquire.step position free (.link _ _)
  | addTail m =>
      cases choice <;> cases decided
      rw [protocol_after]
      exact .link (protocol_phase position)
  | addBytes m =>
      cases choice <;> cases decided
      rw [protocol_after]
      exact .count (protocol_phase position)
  | unlockAppend m =>
      cases choice <;> cases decided
      exact Release.step position (.announce _ _)
  | wake m =>
      cases choice <;> cases decided
      exact Quiet.step position .wakeReadq (.announce _ _)

theorem protocol_poll {s : State ι} {i : ι} {pc : PollPc} {choice : Choice}
    {effect : Effect ι} {pc' : Pc ι} (position : (s.client i).pc = .polling pc)
    (decided : m2mPollNext s.dev pc choice = some (effect, pc')) :
    Protocol.Step s.protocol i (s.after i effect pc').protocol := by
  cases pc with
  | lock =>
      cases choice <;> try cases decided
      obtain ⟨free, same⟩ := lock_free_of_some decided
      cases same
      exact Acquire.step position free (.inspect _)
  | test =>
      cases choice <;> cases decided
      exact Quiet.step position .skip (.inspect _)
  | unlock mask =>
      cases choice <;> cases decided
      exact Release.step position (.refuse _ _ trivial)

theorem protocol_begin (s : State ι) {i : ι} (c : Call) (position : (s.client i).pc = .idle) :
    Protocol.Step s.protocol i (s.after i .begin c.entry).protocol := by
  rw [protocol_after, phase_entry]
  exact .begin c (protocol_phase position)

theorem protocol_finish (s : State ι) {i : ι} {c : Call} {ret : Int} {delivered : List UInt8}
    (position : (s.client i).pc = .returning c ret delivered) :
    Protocol.Step s.protocol i (s.after i (.finish c ret delivered) .idle).protocol := by
  rw [protocol_after]
  exact .finish (protocol_phase position)

variable [KernelMemory]

/-- **The simulation.** Every statement of a client is a step of the protocol. -/
theorem protocol_step {s t : State ι} {i : ι} {choice : Choice}
    (stepped : step s i choice = some t) : Protocol.Step s.protocol i t.protocol := by
  obtain ⟨effect, pc, decided, rfl⟩ := step_cases stepped
  unfold next at decided
  split at decided
  · rename_i c position
    cases decided
    exact protocol_begin s c position
  · rename_i position
    exact protocol_open position decided
  · rename_i position
    exact protocol_release position decided
  · rename_i position
    exact protocol_read position decided
  · rename_i position
    exact protocol_write position decided
  · rename_i position
    exact protocol_poll position decided
  · rename_i position
    cases decided
    exact protocol_finish s position
  · cases decided

/-- The reachable states of the device are reachable in the protocol. -/
theorem protocol_reachable {s : State ι} (reached : ReachableState s) :
    Reachable Protocol.Step Protocol.init s.protocol :=
  reached.simulated State.protocol fun _ a _ stepped => ⟨a.1, protocol_step stepped⟩

end OsLab.MessageQueue
