import Mathlib.Logic.Function.Basic
import OsLab.Foundation.Runs

/-!
# A parent that signals its two children

The programs `2lab/1/1-2.c` and `2lab/1/1-3.c`. The parent forks two children and waits
until it has read one byte from each of them. It then waits for a signal of the user, or
five seconds, sends signal 16 to the first child and 17 to the second, and waits until
both have exited. A child installs its handler, writes its byte and pauses until the
handler has run. The two programs differ in the wait for the user: `1-2.c` sleeps five
times for one second, `1-3.c` sets an alarm and pauses.

A process is its next statement, its table of handlers, its pending signals and the two
global variables that the handlers write. A step is one statement of one process, the
delivery of one pending signal, a `SIGINT` or `SIGQUIT` of the user, or the end of the
alarm. A signal can be delivered before every statement. A call that may fail or return
without a result has both outcomes.

The positions of a child before and in `pause` are two: at `pause` it has found
`child_recv_sig == 0` and will call `pause()`, at `paused` it is suspended until a handler
returns.
-/

set_option autoImplicit false

namespace OsLab.Signals

open OsLab.Foundation

/-- The two programs: `1-2.c` sleeps, `1-3.c` sets an alarm. -/
inductive Program where
  | sleeps
  | alarms
  deriving DecidableEq, Repr

/-! ## Signals and processes -/

inductive Sig where
  | sig16
  | sig17
  | sigint
  | sigquit
  | sigalrm
  deriving DecidableEq, Repr

def Sig.number : Sig → Int
  | .sig16 => 16
  | .sig17 => 17
  | .sigint => 2
  | .sigquit => 3
  | .sigalrm => 14

/-- Without a handler, 17 (`SIGCHLD`) is ignored and the others terminate the process. -/
def Sig.ignoredByDefault : Sig → Bool
  | .sig17 => true
  | _ => false

inductive Handler where
  | interHandler
  | childSignalHandler
  deriving DecidableEq, Repr

/-- A process with its next statement. `none` in the table is the default disposition. -/
structure Process (ρ : Type) where
  pc : ρ
  handler : Sig → Option Handler
  pending : Sig → Bool
  parentRecvSig : Int
  childRecvSig : Int

namespace Process

variable {ρ : Type}

def goto (p : Process ρ) (pc : ρ) : Process ρ := { p with pc := pc }

/-- `signal(sig, handler)`. -/
def signal (p : Process ρ) (sig : Sig) (handler : Handler) : Process ρ :=
  { p with handler := Function.update p.handler sig (some handler) }

/-- A signal that is pending already is not queued again. -/
def send (p : Process ρ) (sig : Sig) : Process ρ :=
  { p with pending := Function.update p.pending sig true }

def handle (p : Process ρ) : Handler → Sig → Process ρ
  | .interHandler, sig => { p with parentRecvSig := sig.number }
  | .childSignalHandler, sig => { p with childRecvSig := sig.number }

/-- A pending signal is delivered. After the handler an interrupted call returns
(`resume`); without a handler the process is terminated (`dead`) or nothing happens. -/
def deliver (resume : ρ → ρ) (dead : ρ) (p : Process ρ) (sig : Sig) : Process ρ :=
  let p := { p with pending := Function.update p.pending sig false }
  match p.handler sig with
  | some handler => (p.handle handler sig).goto (resume p.pc)
  | none => if sig.ignoredByDefault then p else p.goto dead

section Deliver

variable {resume : ρ → ρ} {dead : ρ} {p : Process ρ} {sig : Sig}

theorem deliver_handler : (p.deliver resume dead sig).handler = p.handler := by
  simp only [deliver]
  split
  · rename_i handler _
    cases handler <;> rfl
  · split <;> rfl

theorem deliver_pending :
    (p.deliver resume dead sig).pending = Function.update p.pending sig false := by
  simp only [deliver]
  split
  · rename_i handler _
    cases handler <;> rfl
  · split <;> rfl

theorem deliver_pc {handler : Handler} (table : p.handler sig = some handler) :
    (p.deliver resume dead sig).pc = resume p.pc := by
  simp only [deliver, table]
  rfl

/-- Only `child_signal_handler` writes `child_recv_sig`. -/
theorem deliver_childRecvSig_of_ne (table : p.handler sig ≠ some .childSignalHandler) :
    (p.deliver resume dead sig).childRecvSig = p.childRecvSig := by
  simp only [deliver]
  split
  · rename_i handler found
    cases handler with
    | interHandler => rfl
    | childSignalHandler => exact absurd found table
  · split <;> rfl

theorem deliver_childRecvSig (table : p.handler sig = some .childSignalHandler) :
    (p.deliver resume dead sig).childRecvSig = sig.number := by
  simp only [deliver, table]
  rfl

end Deliver

end Process

/-! ## The positions -/

inductive Child where
  | one
  | two
  deriving DecidableEq, Repr

/-- The signal that terminates a child. -/
def Child.signal : Child → Sig
  | .one => .sig16
  | .two => .sig17

inductive ParentPc where
  | pipe
  | signalInt
  | signalQuit
  | signalAlrm
  | fork (c : Child)
  | closeWrite
  /-- The test of the loop around `read`. -/
  | ready (readyCount : Nat)
  | read (readyCount : Nat)
  | closeRead
  | sleepTest (waited : Nat)
  | sleep (waited : Nat)
  | alarm
  | pauseTest
  | pause
  | paused
  | kill (c : Child)
  | wait
  | exited
  deriving DecidableEq, Repr

inductive ChildPc where
  | unborn
  | closeRead
  | signal
  | write
  | test
  | pause
  | paused
  | report
  | exited (status : Int)
  | killed
  deriving DecidableEq, Repr

/-- A handler makes `sleep` and `pause` return. -/
def ParentPc.resume : ParentPc → ParentPc
  | .sleep waited => .sleepTest (waited + 1)
  | .paused => .pauseTest
  | pc => pc

def ChildPc.resume : ChildPc → ChildPc
  | .paused => .test
  | pc => pc

/-- The process has ended. -/
def ChildPc.ended : ChildPc → Bool
  | .exited _ | .killed => true
  | _ => false

/-- The process is there and has not ended. -/
def ChildPc.alive : ChildPc → Bool
  | .unborn | .exited _ | .killed => false
  | _ => true

/-! ## The system -/

/-- `bytes` are in the pipe, `armed` is the alarm of the parent, and `reaped` the children
whose end `wait` has returned. -/
structure State where
  parent : Process ParentPc
  child : Child → Process ChildPc
  bytes : Nat
  armed : Bool
  reaped : Child → Bool

def start : State where
  parent :=
    { pc := .pipe, handler := fun _ => none, pending := fun _ => false
      parentRecvSig := 0, childRecvSig := 0 }
  child := fun _ =>
    { pc := .unborn, handler := fun _ => none, pending := fun _ => false
      parentRecvSig := 0, childRecvSig := 0 }
  bytes := 0
  armed := false
  reaped := fun _ => false

def State.goto (s : State) (pc : ParentPc) : State := { s with parent := s.parent.goto pc }

def State.setChild (s : State) (c : Child) (p : Process ChildPc) : State :=
  { s with child := Function.update s.child c p }

@[simp] theorem setChild_self (s : State) (c : Child) (p : Process ChildPc) :
    (s.setChild c p).child c = p := Function.update_self ..

theorem setChild_of_ne (s : State) {c other : Child} (apart : other ≠ c) (p : Process ChildPc) :
    (s.setChild c p).child other = s.child other := Function.update_of_ne apart ..

/-- The child of a `fork` has the handlers and the memory of the parent and no pending
signal. -/
def Process.forked (p : Process ParentPc) : Process ChildPc :=
  { p with pc := .closeRead, pending := fun _ => false }

/-- The result of a call. -/
inductive Outcome where
  | done
  | failed
  deriving DecidableEq, Repr

/-- The next statement of the parent. -/
def parentNext (program : Program) (s : State) (outcome : Outcome) : Option State :=
  match s.parent.pc, outcome with
  | .pipe, .done => some (s.goto .signalInt)
  | .pipe, .failed => some (s.goto .exited)
  | .signalInt, .done =>
      some { s with parent := (s.parent.signal .sigint .interHandler).goto .signalQuit }
  | .signalInt, .failed => some (s.goto .exited)
  | .signalQuit, .done =>
      let next := match program with
        | .sleeps => .fork .one
        | .alarms => .signalAlrm
      some { s with parent := (s.parent.signal .sigquit .interHandler).goto next }
  | .signalQuit, .failed => some (s.goto .exited)
  | .signalAlrm, .done =>
      some { s with parent := (s.parent.signal .sigalrm .interHandler).goto (.fork .one) }
  | .signalAlrm, .failed => some (s.goto .exited)
  | .fork .one, .done => some ((s.setChild .one s.parent.forked).goto (.fork .two))
  | .fork .two, .done => some ((s.setChild .two s.parent.forked).goto .closeWrite)
  -- `while (pid == -1) pid = fork();`
  | .fork _, .failed => some s
  | .closeWrite, _ => some (s.goto (.ready 0))
  | .ready readyCount, _ =>
      some (s.goto (if readyCount < 2 then .read readyCount else .closeRead))
  | .read readyCount, .done =>
      if 0 < s.bytes then some { s.goto (.ready (readyCount + 1)) with bytes := s.bytes - 1 }
      else none
  -- `read` returns 0 or -1
  | .read readyCount, .failed => some (s.goto (.ready readyCount))
  | .closeRead, _ =>
      match program with
      | .sleeps => some (s.goto (.sleepTest 0))
      | .alarms => some (s.goto .alarm)
  | .sleepTest waited, _ =>
      some (s.goto (if waited < 5 ∧ s.parent.parentRecvSig = 0 then .sleep waited else .kill .one))
  | .sleep waited, _ => some (s.goto (.sleepTest (waited + 1)))
  | .alarm, _ => some { s.goto .pauseTest with armed := true }
  | .pauseTest, _ => some (s.goto (if s.parent.parentRecvSig = 0 then .pause else .kill .one))
  | .pause, _ => some (s.goto .paused)
  | .paused, _ => none
  | .kill .one, .done => some ((s.setChild .one ((s.child .one).send .sig16)).goto (.kill .two))
  | .kill .one, .failed => some (s.goto (.kill .two))
  | .kill .two, .done => some ((s.setChild .two ((s.child .two).send .sig17)).goto .wait)
  | .kill .two, .failed => some (s.goto .wait)
  -- `wait` returns -1 when no child is left
  | .wait, _ => if s.reaped .one ∧ s.reaped .two then some (s.goto .exited) else none
  | .exited, _ => none

/-- The next statement of a child. -/
def childNext (s : State) (c : Child) (outcome : Outcome) : Option State :=
  let p := s.child c
  match p.pc, outcome with
  | .unborn, _ => none
  | .closeRead, _ => some (s.setChild c (p.goto .signal))
  | .signal, .done =>
      some (s.setChild c ((p.signal c.signal .childSignalHandler).goto .write))
  | .signal, .failed => some (s.setChild c (p.goto (.exited 1)))
  | .write, .done => some { s.setChild c (p.goto .test) with bytes := s.bytes + 1 }
  | .write, .failed => some (s.setChild c (p.goto .test))
  | .test, _ => some (s.setChild c (p.goto (if p.childRecvSig = 0 then .pause else .report)))
  | .pause, _ => some (s.setChild c (p.goto .paused))
  | .paused, _ => none
  | .report, _ => some (s.setChild c (p.goto (.exited 0)))
  | .exited _, _ => none
  | .killed, _ => none

inductive Action where
  | parent (outcome : Outcome)
  | child (c : Child) (outcome : Outcome)
  | deliverParent (sig : Sig)
  | deliver (c : Child) (sig : Sig)
  | userParent (quit : Bool)
  | user (c : Child) (quit : Bool)
  | alarmExpires
  | reap (c : Child)
  deriving DecidableEq, Repr

/-- The signal of the user. -/
def userSig (quit : Bool) : Sig := if quit then .sigquit else .sigint

def step (program : Program) (s : State) : Action → Option State
  | .parent outcome => parentNext program s outcome
  | .child c outcome => childNext s c outcome
  | .deliverParent sig =>
      if s.parent.pc ≠ .exited ∧ s.parent.pending sig = true then
        some { s with parent := s.parent.deliver ParentPc.resume .exited sig }
      else none
  | .deliver c sig =>
      if (s.child c).pc.alive = true ∧ (s.child c).pending sig = true then
        some (s.setChild c ((s.child c).deliver ChildPc.resume .killed sig))
      else none
  | .userParent quit =>
      if s.parent.pc ≠ .exited then some { s with parent := s.parent.send (userSig quit) } else none
  | .user c quit =>
      if (s.child c).pc.alive = true then some (s.setChild c ((s.child c).send (userSig quit)))
      else none
  | .alarmExpires =>
      if s.armed = true then some { s with parent := s.parent.send .sigalrm, armed := false }
      else none
  | .reap c =>
      if s.parent.pc = .wait ∧ (s.child c).pc.ended = true ∧ s.reaped c = false then
        some { s with reaped := Function.update s.reaped c true }
      else none

/-- One step of the system. -/
def Step (program : Program) (s : State) (action : Action) (t : State) : Prop :=
  step program s action = some t

/-- The states of all interleavings. -/
def Reached (program : Program) (s : State) : Prop := Reachable (Step program) start s

end OsLab.Signals
