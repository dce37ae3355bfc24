import OsLab.Foundation.Runs

/-!
# The message queue device of `3lab/dev/glo_pro.c`

Any number of clients call `m2m_open`, `m2m_read`, `m2m_write`, `m2m_poll` and
`m2m_release` on one device. The model is a step function on the device, the
position of every client in its call, and the memory the module has allocated. One step
is one statement of one client, so every interleaving of the statements is a run.

* The mutex is explicit: `mutex_lock` is a step that is possible only while the
  lock is free, and the statements between it and `mutex_unlock` are steps of
  their own. The tests of a wait condition read the device without the lock.
* `wait_event_interruptible` first tests the condition, then enqueues the task, tests
  again, and sleeps only when no wake-up came after the enqueueing. A wake-up
  makes every waiter of the queue test again. A signal ends the wait.
* `size_t` arithmetic is modulo `2^64`. The module's live allocations are
  disjoint objects of the kernel's half of the address space, so there is a bound
  of at most `2^63` bytes on what `kmalloc` gives in total, the parameter
  `KernelMemory`. Any allocation and any copy to or from user memory may fail.
* A message is two objects, the `struct msg` and its data, each with its own
  `kmalloc` and `kfree`. An open file has a `struct client_ctx`.
* A message carries the call that allocated it. That pair is no data of the
  program. It stands for the identity of the node.

Three lists record what happened: the messages in the order of `list_add_tail`,
the messages in the order of `list_del` with the call that took them, and the
calls that returned with their results and the bytes they delivered.
-/

set_option autoImplicit false

namespace OsLab.MessageQueue

open OsLab.Foundation

/-! ## Constants -/

/-- `MAX_BYTES`. -/
def maxBytes : Nat := 64 * 1024

/-- `MAX_MSG`. -/
def maxMsg : Nat := 4 * 1024

/-- The number of values of a `size_t`, `2^64`. -/
def sizeModulus : Nat := 0x10000000000000000

/-- The kernel's half of the address space, `2^63` bytes. -/
def kernelSpace : Nat := 0x8000000000000000

/-- The bytes of message data `kmalloc` can have given out at a time. -/
class KernelMemory where
  bytes : Nat
  small : bytes ≤ kernelSpace

/-- All of the kernel's half. -/
instance (priority := low) KernelMemory.whole : KernelMemory := ⟨kernelSpace, Nat.le_refl _⟩

def eagain : Int := 11

def enomem : Int := 12

def efault : Int := 14

def emsgsize : Int := 90

def erestartsys : Int := 512

/-- `POLLIN | POLLRDNORM`. -/
def pollin : Int := 0x41

/-- `POLLOUT | POLLWRNORM`. -/
def pollout : Int := 0x104

/-- `a + b` on `size_t`. -/
def addSize (a b : Nat) : Nat := (a + b) % sizeModulus

/-- `a - b` on `size_t`. -/
def subSize (a b : Nat) : Nat := (a + (sizeModulus - b)) % sizeModulus

/-! ## Calls -/

/-- What `m2m_read` is called with. -/
structure ReadArgs where
  nonblock : Bool
  count : Nat

/-- What `m2m_write` is called with. The user memory at `buf` is a function of
the offset. -/
structure WriteArgs where
  nonblock : Bool
  count : Nat
  buf : Nat → UInt8

/-- The `count` bytes at `buf`. -/
def WriteArgs.bytes (a : WriteArgs) : List UInt8 := (List.range a.count).map a.buf

/-- The file operations. -/
inductive Call where
  | m2mOpen
  | m2mRelease
  | m2mRead (args : ReadArgs)
  | m2mWrite (args : WriteArgs)
  | m2mPoll

/-! ## Program positions -/

/-- Positions in `wait_event_interruptible`. -/
inductive WaitPc where
  /-- The first test, not yet on the queue. -/
  | test
  | prepare
  /-- On the queue, before the next test. The flags tell whether a signal was
  pending at the enqueueing and whether a wake-up came since. -/
  | retest (interrupted woken : Bool)
  /-- The test failed and the task is about to sleep. -/
  | schedule (woken : Bool)
  | asleep
  deriving DecidableEq, Repr

/-- Positions in `m2m_open`. -/
inductive OpenPc where
  | kzalloc
  /-- `filp->private_data = ctx`. -/
  | setCtx
  | incReaders
  | incWriters
  deriving DecidableEq, Repr

/-- Positions in `m2m_release`. -/
inductive ReleasePc where
  | test
  | decReaders
  | decWriters
  | kfree
  /-- `filp->private_data = NULL`. -/
  | clearCtx
  deriving DecidableEq, Repr

variable (ι : Type)

/-- `struct msg`, with the client and the number of the call that allocated it. -/
structure Msg where
  len : Nat
  data : List UInt8
  writer : ι
  call : Nat

/-- Positions in `m2m_read`. -/
inductive ReadPc where
  | entry
  | nonblockLock
  | nonblockTest
  | nonblockUnlock (empty : Bool)
  | wait (pc : WaitPc)
  | lock
  /-- The test of the list and, when it is not empty, `list_del` of the first
  entry. -/
  | take
  | unlockEmpty
  | subBytes (m : Msg ι)
  | unlock (m : Msg ι)
  | copy (m : Msg ι)
  /-- The two statements of `msg_free`. -/
  | freeData (m : Msg ι) (ret : Int) (delivered : List UInt8)
  | freeMsg (m : Msg ι) (ret : Int) (delivered : List UInt8)
  | wake (m : Msg ι) (ret : Int) (delivered : List UInt8)

/-- Positions in `m2m_write`. -/
inductive WritePc where
  | entry
  | lock
  | test
  | unlockRoom
  | unlockFull
  | full
  | wait (pc : WaitPc)
  /-- The two allocations of `msg_alloc`, and its `kfree` when the second fails. -/
  | allocMsg
  | allocData
  | freeBare
  | copy
  /-- The two statements of `msg_free` after a copy that failed. -/
  | freeData
  | freeMsg
  | lockAppend (m : Msg ι)
  | addTail (m : Msg ι)
  | addBytes (m : Msg ι)
  | unlockAppend (m : Msg ι)
  | wake (m : Msg ι)

/-- Positions in `m2m_poll`. -/
inductive PollPc where
  | lock
  | test
  | unlock (mask : Int)

/-- Where a client is. -/
inductive Pc where
  | idle
  | opening (pc : OpenPc)
  | releasing (pc : ReleasePc)
  | reading (args : ReadArgs) (pc : ReadPc ι)
  | writing (args : WriteArgs) (pc : WritePc ι)
  | polling (pc : PollPc)
  | returning (call : Call) (ret : Int) (delivered : List UInt8)

/-! ## States -/

/-- The fields of `struct mydev` the functions use. -/
structure Mydev where
  lock : Option ι
  msgList : List (Msg ι)
  queuedBytes : Nat
  readers : Int
  writers : Int

/-- A client: whether `private_data` is set, how many calls it began, and its
position. -/
structure Client where
  ctx : Bool
  calls : Nat
  pc : Pc ι

/-- A message taken from the list, with the call that took it. -/
structure Taken where
  reader : ι
  call : Nat
  msg : Msg ι

/-- A call that returned. -/
structure Returned where
  client : ι
  number : Nat
  call : Call
  ret : Int
  delivered : List UInt8

/-- The device, the clients, what the module has allocated, and what happened. `live` are the
bytes of message data, `nodes` and `contexts` the objects of type `struct msg` and
`struct client_ctx`. -/
structure State where
  dev : Mydev ι
  client : ι → Client ι
  live : Nat
  nodes : Nat
  contexts : Nat
  appended : List (Msg ι)
  dequeued : List (Taken ι)
  returned : List (Returned ι)

variable {ι}

/-- The device after `m2m_init`, before any call. -/
def m2mInit : State ι where
  dev := { lock := none, msgList := [], queuedBytes := 0, readers := 0, writers := 0 }
  client _ := { ctx := false, calls := 0, pc := .idle }
  live := 0
  nodes := 0
  contexts := 0
  appended := []
  dequeued := []
  returned := []

/-! ## Effects on what the clients share -/

/-- What a statement of `m2m_open` or `m2m_release` does. -/
inductive FileEffect where
  | kzalloc
  | setCtx
  | incReaders
  | incWriters
  | decReaders
  | decWriters
  | kfree
  | clearCtx

/-- What a statement does besides moving its client on. -/
inductive Effect (ι : Type) where
  | skip
  | begin
  | file (effect : FileEffect)
  | mutexLock
  | mutexUnlock
  | kmallocMsg
  | kmalloc (bytes : Nat)
  | kfree (bytes : Nat)
  | kfreeMsg
  | listDel (m : Msg ι)
  | subBytes (bytes : Nat)
  | listAddTail (m : Msg ι)
  | addBytes (bytes : Nat)
  | wakeReadq
  | wakeWriteq
  | finish (call : Call) (ret : Int) (delivered : List UInt8)

/-- `wake_up_interruptible` for one waiter. -/
def WaitPc.wakeUp : WaitPc → WaitPc
  | .retest interrupted _ => .retest interrupted true
  | .schedule _ => .schedule true
  | .asleep => .prepare
  | pc => pc

/-- A waiter of `readq` is woken. -/
def Pc.wakeReadq : Pc ι → Pc ι
  | .reading args (.wait pc) => .reading args (.wait pc.wakeUp)
  | pc => pc

/-- A waiter of `writeq` is woken. -/
def Pc.wakeWriteq : Pc ι → Pc ι
  | .writing args (.wait pc) => .writing args (.wait pc.wakeUp)
  | pc => pc

variable [DecidableEq ι]

/-- The state in which one client is replaced. -/
def State.setClient (s : State ι) (i : ι) (c : Client ι) : State ι :=
  { s with client := fun j => if j = i then c else s.client j }

/-- The state in which every client is woken by `wake`. -/
def State.mapPc (s : State ι) (wake : Pc ι → Pc ι) : State ι :=
  { s with client := fun j => { s.client j with pc := wake (s.client j).pc } }

/-- The effect of a statement of client `i` on its file and the counters of open files. -/
def State.applyFile (s : State ι) (i : ι) : FileEffect → State ι
  | .kzalloc => { s with contexts := s.contexts + 1 }
  | .setCtx => s.setClient i { s.client i with ctx := true }
  | .incReaders => { s with dev := { s.dev with readers := s.dev.readers + 1 } }
  | .incWriters => { s with dev := { s.dev with writers := s.dev.writers + 1 } }
  | .decReaders => { s with dev := { s.dev with readers := s.dev.readers - 1 } }
  | .decWriters => { s with dev := { s.dev with writers := s.dev.writers - 1 } }
  | .kfree => { s with contexts := s.contexts - 1 }
  | .clearCtx => s.setClient i { s.client i with ctx := false }

/-- The effect of a statement of client `i`, which is at its next position
already. -/
def State.apply (s : State ι) (i : ι) : Effect ι → State ι
  | .skip => s
  | .begin => s.setClient i { s.client i with calls := (s.client i).calls + 1 }
  | .file effect => s.applyFile i effect
  | .mutexLock => { s with dev := { s.dev with lock := some i } }
  | .mutexUnlock => { s with dev := { s.dev with lock := none } }
  | .kmallocMsg => { s with nodes := s.nodes + 1 }
  | .kmalloc bytes => { s with live := s.live + bytes }
  | .kfree bytes => { s with live := s.live - bytes }
  | .kfreeMsg => { s with nodes := s.nodes - 1 }
  | .listDel m =>
      { s with
        dev := { s.dev with msgList := s.dev.msgList.tail }
        dequeued := s.dequeued ++ [⟨i, (s.client i).calls, m⟩] }
  | .subBytes bytes =>
      { s with dev := { s.dev with queuedBytes := subSize s.dev.queuedBytes bytes } }
  | .listAddTail m =>
      { s with
        dev := { s.dev with msgList := s.dev.msgList ++ [m] }
        appended := s.appended ++ [m] }
  | .addBytes bytes =>
      { s with dev := { s.dev with queuedBytes := addSize s.dev.queuedBytes bytes } }
  | .wakeReadq => s.mapPc Pc.wakeReadq
  | .wakeWriteq => s.mapPc Pc.wakeWriteq
  | .finish call ret delivered =>
      { s with returned := s.returned ++ [⟨i, (s.client i).calls, call, ret, delivered⟩] }

/-! ## Statements -/

/-- What decides how a statement ends where the device does not: the call an
idle client makes, the arrival of a signal, the failure of an allocation or of a
copy. -/
inductive Choice where
  | call (c : Call)
  | go
  | signal
  | fail

/-- Where `wait_event_interruptible` goes on. -/
inductive WaitNext where
  | stay (pc : WaitPc)
  | proceed
  | interrupted

/-- One step of `wait_event_interruptible` while the condition has the given
value. A sleeping task moves only by a signal here, a wake-up is a step of the
task that issues it. -/
def waitEventInterruptible (condition : Bool) : WaitPc → Choice → Option WaitNext
  | .test, .go => some (if condition then .proceed else .stay .prepare)
  | .prepare, .go => some (.stay (.retest false false))
  | .prepare, .signal => some (.stay (.retest true false))
  | .retest interrupted woken, .go =>
      some (if condition then .proceed
        else if interrupted then .interrupted
        else .stay (.schedule woken))
  | .schedule woken, .go => some (.stay (if woken then .prepare else .asleep))
  | .schedule _, .signal => some (.stay .prepare)
  | .asleep, .signal => some (.stay .prepare)
  | _, _ => none

/-- `queued_bytes + count <= MAX_BYTES`. -/
def Mydev.hasRoom (dev : Mydev ι) (count : Nat) : Bool :=
  addSize dev.queuedBytes count ≤ maxBytes

/-- `!list_empty(&dev->msg_list)`. -/
def Mydev.hasMessage (dev : Mydev ι) : Bool := !dev.msgList.isEmpty

/-- The message of `msg_alloc` after the copy that fills it. -/
def msgAlloc (i : ι) (number : Nat) (a : WriteArgs) : Msg ι :=
  ⟨a.count, a.bytes, i, number⟩

def m2mOpenNext : OpenPc → Choice → Option (Effect ι × Pc ι)
  | .kzalloc, .go => some (.file .kzalloc, .opening .setCtx)
  | .kzalloc, .fail => some (.skip, .returning .m2mOpen (-enomem) [])
  | .setCtx, .go => some (.file .setCtx, .opening .incReaders)
  | .incReaders, .go => some (.file .incReaders, .opening .incWriters)
  | .incWriters, .go => some (.file .incWriters, .returning .m2mOpen 0 [])
  | _, _ => none

def m2mReleaseNext (ctx : Bool) : ReleasePc → Choice → Option (Effect ι × Pc ι)
  | .test, .go =>
      some (.skip, if ctx then .releasing .decReaders else .returning .m2mRelease 0 [])
  | .decReaders, .go => some (.file .decReaders, .releasing .decWriters)
  | .decWriters, .go => some (.file .decWriters, .releasing .kfree)
  | .kfree, .go => some (.file .kfree, .releasing .clearCtx)
  | .clearCtx, .go => some (.file .clearCtx, .returning .m2mRelease 0 [])
  | _, _ => none

def m2mReadNext (dev : Mydev ι) (a : ReadArgs) :
    ReadPc ι → Choice → Option (Effect ι × Pc ι)
  | .entry, .go =>
      some (.skip, .reading a (if a.nonblock then .nonblockLock else .wait .test))
  | .nonblockLock, .go =>
      if dev.lock.isNone then some (.mutexLock, .reading a .nonblockTest) else none
  | .nonblockTest, .go => some (.skip, .reading a (.nonblockUnlock (!dev.hasMessage)))
  | .nonblockUnlock true, .go => some (.mutexUnlock, .returning (.m2mRead a) (-eagain) [])
  | .nonblockUnlock false, .go => some (.mutexUnlock, .reading a (.wait .test))
  | .wait pc, choice =>
      match waitEventInterruptible dev.hasMessage pc choice with
      | none => none
      | some (.stay pc') => some (.skip, .reading a (.wait pc'))
      | some .proceed => some (.skip, .reading a .lock)
      | some .interrupted => some (.skip, .returning (.m2mRead a) (-erestartsys) [])
  | .lock, .go => if dev.lock.isNone then some (.mutexLock, .reading a .take) else none
  | .take, .go =>
      match dev.msgList with
      | [] => some (.skip, .reading a .unlockEmpty)
      | m :: _ => some (.listDel m, .reading a (.subBytes m))
  | .unlockEmpty, .go => some (.mutexUnlock, .returning (.m2mRead a) (-eagain) [])
  | .subBytes m, .go => some (.subBytes m.len, .reading a (.unlock m))
  | .unlock m, .go => some (.mutexUnlock, .reading a (.copy m))
  | .copy m, .go =>
      let toCopy := min a.count m.len
      some (.skip, .reading a (.freeData m toCopy (m.data.take toCopy)))
  | .copy m, .fail => some (.skip, .reading a (.freeData m (-efault) []))
  | .freeData m ret delivered, .go => some (.kfree m.len, .reading a (.freeMsg m ret delivered))
  | .freeMsg m ret delivered, .go => some (.kfreeMsg, .reading a (.wake m ret delivered))
  | .wake _ ret delivered, .go => some (.wakeWriteq, .returning (.m2mRead a) ret delivered)
  | _, _ => none

def m2mWriteNext [KernelMemory] (dev : Mydev ι) (live : Nat) (i : ι) (number : Nat)
    (a : WriteArgs) : WritePc ι → Choice → Option (Effect ι × Pc ι)
  | .entry, .go =>
      if a.count = 0 then some (.skip, .returning (.m2mWrite a) 0 [])
      else if a.count > maxMsg then some (.skip, .returning (.m2mWrite a) (-emsgsize) [])
      else some (.skip, .writing a .lock)
  | .lock, .go => if dev.lock.isNone then some (.mutexLock, .writing a .test) else none
  | .test, .go =>
      some (.skip, .writing a (if dev.hasRoom a.count then .unlockRoom else .unlockFull))
  | .unlockRoom, .go => some (.mutexUnlock, .writing a .allocMsg)
  | .unlockFull, .go => some (.mutexUnlock, .writing a .full)
  | .full, .go =>
      if a.nonblock then some (.skip, .returning (.m2mWrite a) (-eagain) [])
      else some (.skip, .writing a (.wait .test))
  | .wait pc, choice =>
      match waitEventInterruptible (dev.hasRoom a.count) pc choice with
      | none => none
      | some (.stay pc') => some (.skip, .writing a (.wait pc'))
      | some .proceed => some (.skip, .writing a .lock)
      | some .interrupted => some (.skip, .returning (.m2mWrite a) (-erestartsys) [])
  | .allocMsg, .go => some (.kmallocMsg, .writing a .allocData)
  | .allocMsg, .fail => some (.skip, .returning (.m2mWrite a) (-enomem) [])
  | .allocData, .go =>
      if live + a.count ≤ KernelMemory.bytes then some (.kmalloc a.count, .writing a .copy)
      else some (.skip, .writing a .freeBare)
  | .allocData, .fail => some (.skip, .writing a .freeBare)
  | .freeBare, .go => some (.kfreeMsg, .returning (.m2mWrite a) (-enomem) [])
  | .copy, .go => some (.skip, .writing a (.lockAppend (msgAlloc i number a)))
  | .copy, .fail => some (.skip, .writing a .freeData)
  | .freeData, .go => some (.kfree a.count, .writing a .freeMsg)
  | .freeMsg, .go => some (.kfreeMsg, .returning (.m2mWrite a) (-efault) [])
  | .lockAppend m, .go =>
      if dev.lock.isNone then some (.mutexLock, .writing a (.addTail m)) else none
  | .addTail m, .go => some (.listAddTail m, .writing a (.addBytes m))
  | .addBytes m, .go => some (.addBytes m.len, .writing a (.unlockAppend m))
  | .unlockAppend m, .go => some (.mutexUnlock, .writing a (.wake m))
  | .wake _, .go => some (.wakeReadq, .returning (.m2mWrite a) a.count [])
  | _, _ => none

def m2mPollNext (dev : Mydev ι) : PollPc → Choice → Option (Effect ι × Pc ι)
  | .lock, .go => if dev.lock.isNone then some (.mutexLock, .polling .test) else none
  | .test, .go =>
      let readable := if dev.hasMessage then pollin else 0
      let writable := if dev.queuedBytes < maxBytes then pollout else 0
      some (.skip, .polling (.unlock (readable + writable)))
  | .unlock mask, .go => some (.mutexUnlock, .returning .m2mPoll mask [])
  | _, _ => none

/-- The first position of a call. -/
def Call.entry : Call → Pc ι
  | .m2mOpen => .opening .kzalloc
  | .m2mRelease => .releasing .test
  | .m2mRead a => .reading a .entry
  | .m2mWrite a => .writing a .entry
  | .m2mPoll => .polling .lock

variable [KernelMemory]

/-- The next statement of a client: its effect and the position after it. -/
def next (s : State ι) (i : ι) (choice : Choice) : Option (Effect ι × Pc ι) :=
  match (s.client i).pc, choice with
  | .idle, .call c => some (.begin, c.entry)
  | .opening pc, choice => m2mOpenNext pc choice
  | .releasing pc, choice => m2mReleaseNext (s.client i).ctx pc choice
  | .reading a pc, choice => m2mReadNext s.dev a pc choice
  | .writing a pc, choice => m2mWriteNext s.dev s.live i (s.client i).calls a pc choice
  | .polling pc, choice => m2mPollNext s.dev pc choice
  | .returning c ret delivered, .go => some (.finish c ret delivered, .idle)
  | _, _ => none

/-- The state after a statement of client `i`. -/
def State.after (s : State ι) (i : ι) (effect : Effect ι) (pc : Pc ι) : State ι :=
  (s.setClient i { s.client i with pc := pc }).apply i effect

/-- One statement of client `i`. -/
def step (s : State ι) (i : ι) (choice : Choice) : Option (State ι) :=
  match next s i choice with
  | none => none
  | some (effect, pc) => some (s.after i effect pc)

/-- The statements of all clients, in any order. -/
def Step (s : State ι) (a : ι × Choice) (t : State ι) : Prop := step s a.1 a.2 = some t

/-- The states of the device and its clients after `m2m_init`. -/
abbrev ReachableState : State ι → Prop := Reachable (Step (ι := ι)) m2mInit

/-- A given order of statements. -/
abbrev runSchedule : List (ι × Choice) → State ι → Option (State ι) :=
  replay fun s a => step s a.1 a.2

/-- The statements of a schedule, each with the state it is taken in. -/
abbrev scheduleTrace (schedule : List (ι × Choice)) : List (State ι × (ι × Choice)) :=
  traceOf (fun s a => step s a.1 a.2) schedule m2mInit

theorem run_of_runSchedule {schedule : List (ι × Choice)} {s : State ι}
    (ran : runSchedule schedule m2mInit = some s) : Run Step m2mInit (scheduleTrace schedule) s :=
  run_of_replay ran

theorem reachable_of_runSchedule {schedule : List (ι × Choice)} {s t : State ι}
    (reached : ReachableState s) (ran : runSchedule schedule s = some t) : ReachableState t :=
  reached.replay ran

/-- Client `i` makes a call and takes the given number of statements. -/
def alone (i : ι) (c : Call) (statements : Nat) : List (ι × Choice) :=
  (i, .call c) :: List.replicate statements (i, .go)

end OsLab.MessageQueue
