import OsLab.Foundation.Ring
import OsLab.MessageQueue.Model

/-!
# The character device of `3lab/dev/globalvar.c`

Any number of clients call `globalvar_read` and `globalvar_write` on one device with a
circular buffer of `MAXNUM` bytes. One step is one statement of one client, so every
interleaving of the statements is a run.

* The semaphore is explicit. `down_interruptible` is a step that is possible while it is
  free, and can be interrupted while it is not. The statements up to the `up` are steps of
  their own.
* The flag is set after the `up` of a write and tested before the `down` of a read. The wait
  for it is `wait_event_interruptible` as in the model of the message queue.
* The pointers `rd`, `wr` and `end` are offsets into the buffer. Their differences are
  signed, and the casts to `size_t` are explicit.
* A copy to or from user memory may fail. A failed `copy_from_user` has copied some bytes
  and has filled the rest with zeros.

Two lists record the bytes that went through: those of the writes that moved `wr`, and
those of the reads that moved `rd`, both in the order of the semaphore.
-/

set_option autoImplicit false

namespace OsLab.Globalvar

open OsLab.Foundation
open OsLab.MessageQueue (WaitPc WaitNext waitEventInterruptible)

/-- `MAXNUM`, the offset of `end`. -/
def maxNum : Nat := 100

def efault : Int := 14

def erestartsys : Int := 512

/-- `(size_t)(p - q)` for two pointers into the buffer. -/
def sizeCast (difference : Int) : Nat := (difference % 0x10000000000000000).toNat

/-! ## Program positions -/

/-- The file operations. The user memory of a write is a function of the offset. -/
inductive Call where
  | globalvarRead (len : Nat)
  | globalvarWrite (len : Nat) (buf : Nat → UInt8)

/-- Positions in `globalvar_read`. From `copy` on, the length is the clipped one. -/
inductive ReadPc where
  | wait (pc : WaitPc)
  | down
  | clearFlag
  | clip
  | copy (len : Nat)
  | upFault
  | advance (len : Nat) (data : List UInt8)
  | wrap (len : Nat)
  | up (len : Nat)

/-- Positions in `globalvar_write`. From `copy` on, the length is the clipped one. -/
inductive WritePc where
  | down
  | clip
  | copy (len : Nat)
  | upFault
  | advance (len : Nat) (data : List UInt8)
  | wrap (len : Nat)
  | up (len : Nat)
  | setFlag (len : Nat)
  | wake (len : Nat)

/-- Where a client is. -/
inductive Pc where
  | idle
  | reading (len : Nat) (pc : ReadPc)
  | writing (len : Nat) (buf : Nat → UInt8) (pc : WritePc)
  | returning (ret : Int)

/-! ## States -/

variable (ι : Type)

/-- The fields of `struct Scull_Dev` the functions use. -/
structure ScullDev where
  sem : Option ι
  flag : Int
  buffer : List UInt8
  rd : Nat
  wr : Nat

/-- The device, the clients, and the bytes that went through. -/
structure State where
  dev : ScullDev ι
  pc : ι → Pc
  accepted : List UInt8
  returned : List UInt8

variable {ι}

/-- The device after `globalvar_init`, before any call. -/
def globalvarInit : State ι where
  dev := { sem := none, flag := 0, buffer := List.replicate (maxNum + 1) 0, rd := 0, wr := 0 }
  pc _ := .idle
  accepted := []
  returned := []

/-! ## Effects -/

/-- What a statement does besides moving its client on. -/
inductive Effect where
  | skip
  | down
  | up
  | clearFlag
  | setFlag
  | wake
  | store (data : List UInt8)
  | advanceRd (len : Nat) (data : List UInt8)
  | wrapRd
  | advanceWr (len : Nat) (data : List UInt8)
  | wrapWr

/-- A waiter of `outq` is woken. -/
def Pc.wakeUp : Pc → Pc
  | .reading len (.wait pc) => .reading len (.wait pc.wakeUp)
  | pc => pc

/-- `if (p == end) p = buffer`. -/
def wrapped (offset : Nat) : Nat := if offset = maxNum then 0 else offset

/-- The effect of a statement of client `i`. -/
def State.apply (s : State ι) (i : ι) : Effect → State ι
  | .skip => s
  | .down => { s with dev := { s.dev with sem := some i } }
  | .up => { s with dev := { s.dev with sem := none } }
  | .clearFlag => { s with dev := { s.dev with flag := 0 } }
  | .setFlag => { s with dev := { s.dev with flag := 1 } }
  | .wake => { s with pc := fun j => (s.pc j).wakeUp }
  | .store data => { s with dev := { s.dev with buffer := putAll s.dev.buffer s.dev.wr data } }
  | .advanceRd len data =>
      { s with dev := { s.dev with rd := s.dev.rd + len }, returned := s.returned ++ data }
  | .wrapRd => { s with dev := { s.dev with rd := wrapped s.dev.rd } }
  | .advanceWr len data =>
      { s with dev := { s.dev with wr := s.dev.wr + len }, accepted := s.accepted ++ data }
  | .wrapWr => { s with dev := { s.dev with wr := wrapped s.dev.wr } }

/-! ## Statements -/

/-- What decides how a statement ends where the device does not: the call an idle client
makes, the arrival of a signal, the failure of a copy after some bytes. -/
inductive Choice where
  | call (c : Call)
  | go
  | signal
  | fault (done : Nat)

/-- The choices of a wait. -/
def Choice.ofWait : Choice → Option MessageQueue.Choice
  | .go => some .go
  | .signal => some .signal
  | _ => none

/-- The length of a read: up to `wr`, or up to `end`. -/
def readLen (rd wr len : Nat) : Nat :=
  if rd < wr then min len (sizeCast ((wr : Int) - rd))
  else min len (sizeCast ((maxNum : Int) - rd))

/-- The length of a write: up to `end`, or up to one byte before `rd`. -/
def writeLen (rd wr len : Nat) : Nat :=
  if rd ≤ wr then min len (sizeCast ((maxNum : Int) - wr))
  else min len (sizeCast ((rd : Int) - wr - 1))

/-- The first `len` bytes at `buf`. -/
def userBytes (len : Nat) (buf : Nat → UInt8) : List UInt8 := (List.range len).map buf

/-- What a `copy_from_user` that fails after `done` bytes leaves. -/
def faultBytes (len done : Nat) (buf : Nat → UInt8) : List UInt8 :=
  userBytes done buf ++ List.replicate (len - done) 0

def globalvarReadNext (dev : ScullDev ι) (len : Nat) : ReadPc → Choice → Option (Effect × Pc)
  | .wait pc, choice =>
      match choice.ofWait with
      | none => none
      | some choice =>
          match waitEventInterruptible (dev.flag ≠ 0) pc choice with
          | none => none
          | some (.stay pc') => some (.skip, .reading len (.wait pc'))
          | some .proceed => some (.skip, .reading len .down)
          | some .interrupted => some (.skip, .returning (-erestartsys))
  | .down, .go => if dev.sem.isNone then some (.down, .reading len .clearFlag) else none
  | .down, .signal => if dev.sem.isNone then none else some (.skip, .returning (-erestartsys))
  | .clearFlag, .go => some (.clearFlag, .reading len .clip)
  | .clip, .go => some (.skip, .reading len (.copy (readLen dev.rd dev.wr len)))
  | .copy n, .go => some (.skip, .reading len (.advance n ((dev.buffer.drop dev.rd).take n)))
  | .copy n, .fault done => if done < n then some (.skip, .reading len .upFault) else none
  | .upFault, .go => some (.up, .returning (-efault))
  | .advance n data, .go => some (.advanceRd n data, .reading len (.wrap n))
  | .wrap n, .go => some (.wrapRd, .reading len (.up n))
  | .up n, .go => some (.up, .returning n)
  | _, _ => none

def globalvarWriteNext (dev : ScullDev ι) (len : Nat) (buf : Nat → UInt8) :
    WritePc → Choice → Option (Effect × Pc)
  | .down, .go => if dev.sem.isNone then some (.down, .writing len buf .clip) else none
  | .down, .signal => if dev.sem.isNone then none else some (.skip, .returning (-erestartsys))
  | .clip, .go => some (.skip, .writing len buf (.copy (writeLen dev.rd dev.wr len)))
  | .copy n, .go => some (.store (userBytes n buf), .writing len buf (.advance n (userBytes n buf)))
  | .copy n, .fault done =>
      if done < n then some (.store (faultBytes n done buf), .writing len buf .upFault) else none
  | .upFault, .go => some (.up, .returning (-efault))
  | .advance n data, .go => some (.advanceWr n data, .writing len buf (.wrap n))
  | .wrap n, .go => some (.wrapWr, .writing len buf (.up n))
  | .up n, .go => some (.up, .writing len buf (.setFlag n))
  | .setFlag n, .go => some (.setFlag, .writing len buf (.wake n))
  | .wake n, .go => some (.wake, .returning n)
  | _, _ => none

/-- The first position of a call. -/
def Call.entry : Call → Pc
  | .globalvarRead len => .reading len (.wait .test)
  | .globalvarWrite len buf => .writing len buf .down

/-- The next statement of a client: its effect and the position after it. -/
def next (dev : ScullDev ι) : Pc → Choice → Option (Effect × Pc)
  | .idle, .call c => some (.skip, c.entry)
  | .reading len pc, choice => globalvarReadNext dev len pc choice
  | .writing len buf pc, choice => globalvarWriteNext dev len buf pc choice
  | .returning _, .go => some (.skip, .idle)
  | _, _ => none

/-- A statement is a call or its return, or one of the two functions'. -/
theorem next_cases {dev : ScullDev ι} {pc pc' : Pc} {choice : Choice} {effect : Effect}
    (decided : next dev pc choice = some (effect, pc')) :
    (∃ c, pc = .idle ∧ effect = .skip ∧ pc' = Call.entry c) ∨
    (∃ ret, pc = .returning ret ∧ effect = .skip ∧ pc' = .idle) ∨
    (∃ len rpc, pc = .reading len rpc ∧
      globalvarReadNext dev len rpc choice = some (effect, pc')) ∨
    ∃ len buf wpc, pc = .writing len buf wpc ∧
      globalvarWriteNext dev len buf wpc choice = some (effect, pc') := by
  cases pc with
  | idle =>
      cases choice <;> cases decided
      exact .inl ⟨_, rfl, rfl, rfl⟩
  | reading len rpc => exact .inr (.inr (.inl ⟨len, rpc, rfl, decided⟩))
  | writing len buf wpc => exact .inr (.inr (.inr ⟨len, buf, wpc, rfl, decided⟩))
  | returning ret =>
      cases choice <;> cases decided
      exact .inr (.inl ⟨ret, rfl, rfl, rfl⟩)

variable [DecidableEq ι]

/-- The state after a statement of client `i`. -/
def State.after (s : State ι) (i : ι) (effect : Effect) (pc : Pc) : State ι :=
  State.apply { s with pc := fun j => if j = i then pc else s.pc j } i effect

/-- One statement of a client. -/
def step (s : State ι) (a : ι × Choice) : Option (State ι) :=
  match next s.dev (s.pc a.1) a.2 with
  | none => none
  | some (effect, pc) => some (s.after a.1 effect pc)

/-- The statements of all clients, in any order. -/
def Step (s : State ι) (a : ι × Choice) (t : State ι) : Prop := step s a = some t

/-- The states of the device and its clients after `globalvar_init`. -/
abbrev ReachableState : State ι → Prop := Reachable (Step (ι := ι)) globalvarInit

/-- Client `i` makes a call and takes the given number of statements. -/
def alone (i : ι) (c : Call) (statements : Nat) : List (ι × Choice) :=
  (i, .call c) :: List.replicate statements (i, .go)

theorem step_of_next {s : State ι} {i : ι} {choice : Choice} {pc pc' : Pc} {effect : Effect}
    (position : s.pc i = pc) (decided : next s.dev pc choice = some (effect, pc')) :
    step s (i, choice) = some (s.after i effect pc') := by
  rw [step, position, decided]

/-- A client takes one statement and goes on. -/
theorem replay_next {s t : State ι} {i : ι} {choice : Choice} {pc pc' : Pc} {effect : Effect}
    {rest : List (ι × Choice)} (position : s.pc i = pc)
    (decided : next s.dev pc choice = some (effect, pc'))
    (ran : replay step rest (s.after i effect pc') = some t) :
    replay step ((i, choice) :: rest) s = some t := by
  rw [replay, step_of_next position decided]
  exact ran

theorem step_cases {s t : State ι} {a : ι × Choice} (stepped : step s a = some t) :
    ∃ effect pc, next s.dev (s.pc a.1) a.2 = some (effect, pc) ∧ t = s.after a.1 effect pc := by
  unfold step at stepped
  cases decided : next s.dev (s.pc a.1) a.2 with
  | none => simp [decided] at stepped
  | some result =>
      obtain ⟨effect, pc⟩ := result
      simp only [decided, Option.some.injEq] at stepped
      exact ⟨effect, pc, rfl, stepped.symm⟩

end OsLab.Globalvar
