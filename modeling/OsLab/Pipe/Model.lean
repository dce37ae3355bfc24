import Mathlib.Logic.Function.Basic
import OsLab.Foundation.Runs

/-!
# Two children that write into one pipe

The programs `2lab/2/2-1.c` and `2lab/2/2-2.c`. The parent creates a pipe and two children.
Each child writes its digit a hundred times, one byte at a time, and exits. The parent closes
its write end, waits for both children, reads what is in the pipe, counts the digits and
prints. In `2-1.c` a child holds a record lock on the pipe (`lockf`) while it writes, in
`2-2.c` it does not. `Program` is what the two differ in, and the number of writes.

A step is one system call of one process. What the calls do:

* `fork` may fail, and then the parent prints an error and exits, with the children it has;
* `write` appends one byte to the pipe, waits while the pipe is full (`capacity`), and kills
  the caller when nobody has the read end open;
* `read` takes any number of bytes from 1 up to what it asks for and the pipe has, waits while
  the pipe is empty and somebody has the write end open, and returns 0 when nobody has. It may
  fail;
* `waitpid` and `wait` go on when the child has ended;
* `lockf` waits while the other child holds the lock.

`fork` and `read` are the calls that can fail. `pipe`, `lockf`, `close`, the waits, and a
`write` to a pipe with a reader are taken to succeed. The source looks at none of their results.

`total` is not a variable of its own: it is the number of bytes in `inPipe`.
-/

set_option autoImplicit false

namespace OsLab.Pipe

open OsLab.Foundation

/-! ## Programs and processes -/

/-- With `lockf` and `sleep` or without, and how often each child writes. -/
structure Program where
  lockf : Bool
  count : Nat
  deriving DecidableEq, Repr

/-- `2-1.c`. -/
def withLock : Program where
  lockf := true
  count := 100

/-- `2-2.c`. -/
def withoutLock : Program where
  lockf := false
  count := 100

/-- What the parent asks for in total. -/
def Program.limit (program : Program) : Nat := 2 * program.count

inductive Child where
  | one
  | two
  deriving DecidableEq, Repr

def Child.other : Child → Child
  | .one => .two
  | .two => .one

/-- `c1` and `c2`. -/
def Child.byte : Child → Char
  | .one => '1'
  | .two => '2'

/-- The next system call of a child. -/
inductive ChildPc where
  | unborn
  /-- `close(fd[0])`. -/
  | closeRead
  | lock
  | write (i : Nat)
  | sleep
  | unlock
  | exited
  /-- By `SIGPIPE`, in the round `i` of its loop. -/
  | killed (i : Nat)
  deriving DecidableEq, Repr

/-- `wait` reports the child. -/
def ChildPc.ended : ChildPc → Bool
  | .exited | .killed _ => true
  | _ => false

/-- The child has the write end open. -/
def ChildPc.writer : ChildPc → Bool
  | .unborn | .exited | .killed _ => false
  | _ => true

/-- The next system call of the parent. -/
inductive ParentPc where
  | fork1
  | fork2
  /-- `close(fd[1])`. -/
  | closeWrite
  | waitpid
  | wait
  | read
  | exited
  deriving DecidableEq, Repr

/-- The parent has the write end open. -/
def ParentPc.writer : ParentPc → Bool
  | .fork1 | .fork2 | .closeWrite => true
  | _ => false

/-- The line that is printed. -/
structure Report where
  total : Nat
  count1 : Nat
  count2 : Nat
  text : List Char
  deriving DecidableEq, Repr

structure State where
  /-- The bytes in the pipe, the oldest first. -/
  buffer : List Char
  /-- The holder of the record lock. -/
  owner : Option Child
  child : Child → ChildPc
  parent : ParentPc
  /-- `InPipe[0]` to `InPipe[total - 1]`. -/
  inPipe : List Char
  /-- The argument of every `perror`. -/
  errors : List String
  printed : Option Report

def start : State where
  buffer := []
  owner := none
  child := fun _ => .unborn
  parent := .fork1
  inPipe := []
  errors := []
  printed := none

/-! ## The children -/

/-- Somebody has the read end open. -/
def State.hasReader (s : State) : Bool :=
  s.parent ≠ .exited || s.child .one = .closeRead || s.child .two = .closeRead

/-- Somebody has the write end open. -/
def State.hasWriter (s : State) : Bool :=
  s.parent.writer || (s.child .one).writer || (s.child .two).writer

def State.move (s : State) (c : Child) (pc : ChildPc) : State :=
  { s with child := Function.update s.child c pc }

@[simp] theorem move_self (s : State) (c : Child) (pc : ChildPc) :
    (s.move c pc).child c = pc :=
  Function.update_self ..

theorem move_other (s : State) {c d : Child} (pc : ChildPc) (other : d ≠ c) :
    (s.move c pc).child d = s.child d :=
  Function.update_of_ne other ..

/-- The end of a process gives its record lock up. -/
def State.leave (s : State) (c : Child) : State :=
  { s with owner := if s.owner = some c then none else s.owner }

variable (program : Program) (capacity : Nat)

/-- The next system call of a child, when it returns. -/
def childStep (s : State) (c : Child) : Option State :=
  match s.child c with
  | .closeRead => some (s.move c (if program.lockf then .lock else .write 0))
  | .lock => if s.owner = none then some { s.move c (.write 0) with owner := some c } else none
  | .write i =>
      if i < program.count then
        if s.hasReader = false then some ((s.leave c).move c (.killed i))
        else if s.buffer.length < capacity then
          some { s.move c (.write (i + 1)) with buffer := s.buffer ++ [c.byte] }
        else none
      else some (s.move c (if program.lockf then .sleep else .exited))
  | .sleep => some (s.move c .unlock)
  | .unlock => some { s.move c .exited with owner := none }
  | _ => none

/-! ## The parent -/

/-- The loop that counts the digits. -/
def countDigits : List Char → Nat × Nat
  | [] => (0, 0)
  | x :: rest =>
      let (count1, count2) := countDigits rest
      if x = '1' then (count1 + 1, count2)
      else if x = '2' then (count1, count2 + 1)
      else (count1, count2)

/-- From the end of the `while` loop on: the digits are counted and printed. -/
def State.print (s : State) : State :=
  { s with
    parent := .exited
    printed := some
      { total := s.inPipe.length
        count1 := (countDigits s.inPipe).1
        count2 := (countDigits s.inPipe).2
        text := s.inPipe } }

/-- What decides how a call ends where the state does not: a failure, and the number of
bytes that are read. -/
inductive Choice where
  | go
  | fail
  | bytes (r : Nat)
  deriving DecidableEq, Repr

/-- The next system call of the parent, when it returns. -/
def parentStep (s : State) (choice : Choice) : Option State :=
  match s.parent, choice with
  | .fork1, .go => some { s.move .one .closeRead with parent := .fork2 }
  | .fork1, .fail => some { s with parent := .exited, errors := s.errors ++ ["Fork 1"] }
  | .fork2, .go => some { s.move .two .closeRead with parent := .closeWrite }
  | .fork2, .fail => some { s with parent := .exited, errors := s.errors ++ ["Fork 2"] }
  | .closeWrite, .go => some { s with parent := .waitpid }
  | .waitpid, .go => if (s.child .one).ended then some { s with parent := .wait } else none
  | .wait, .go => if (s.child .two).ended then some { s with parent := .read } else none
  | .read, .bytes r =>
      if s.inPipe.length < program.limit ∧ 1 ≤ r ∧ r ≤ program.limit - s.inPipe.length ∧
          r ≤ s.buffer.length then
        some { s with inPipe := s.inPipe ++ s.buffer.take r, buffer := s.buffer.drop r }
      else none
  | .read, .fail =>
      if s.inPipe.length < program.limit then
        some { s with errors := s.errors ++ ["Read"] }.print
      else none
  | .read, .go =>
      -- `read` returns 0, or the loop has come to its end
      if s.inPipe.length < program.limit then
        if s.buffer = [] ∧ s.hasWriter = false then some s.print else none
      else some s.print
  | _, _ => none

/-! ## The processes together -/

inductive Action where
  | child (c : Child)
  | parent (choice : Choice)
  deriving DecidableEq, Repr

def step (s : State) : Action → Option State
  | .child c => childStep program capacity s c
  | .parent choice => parentStep program s choice

/-- The states of all interleavings. -/
def Reached (s : State) : Prop :=
  Reachable (fun s a t => step program capacity s a = some t) start s

/-! ## What a step does -/

/-- What a step of child `c` does, by the call it is at. -/
inductive ChildTaken (s : State) (c : Child) : State → Prop where
  | closeRead (position : s.child c = .closeRead) :
      ChildTaken s c (s.move c (if program.lockf then .lock else .write 0))
  | acquire (position : s.child c = .lock) (free : s.owner = none) :
      ChildTaken s c { s.move c (.write 0) with owner := some c }
  | write {i : Nat} (position : s.child c = .write i) (more : i < program.count)
      (reader : s.hasReader = true) (room : s.buffer.length < capacity) :
      ChildTaken s c { s.move c (.write (i + 1)) with buffer := s.buffer ++ [c.byte] }
  | kill {i : Nat} (position : s.child c = .write i) (more : i < program.count)
      (noReader : s.hasReader = false) : ChildTaken s c ((s.leave c).move c (.killed i))
  | written {i : Nat} (position : s.child c = .write i) (last : program.count ≤ i) :
      ChildTaken s c (s.move c (if program.lockf then .sleep else .exited))
  | sleep (position : s.child c = .sleep) : ChildTaken s c (s.move c .unlock)
  | release (position : s.child c = .unlock) :
      ChildTaken s c { s.move c .exited with owner := none }

theorem childTaken_of_step {s t : State} {c : Child}
    (stepped : childStep program capacity s c = some t) : ChildTaken program capacity s c t := by
  unfold childStep at stepped
  cases position : s.child c with
  | closeRead =>
      simp only [position, Option.some.injEq] at stepped
      subst stepped
      exact .closeRead position
  | lock =>
      simp only [position, Option.ite_none_right_eq_some, Option.some.injEq] at stepped
      obtain ⟨free, rfl⟩ := stepped
      exact .acquire position free
  | write i =>
      simp only [position] at stepped
      split at stepped
      · rename_i more
        split at stepped
        · rename_i noReader
          cases stepped
          exact .kill position more noReader
        · rename_i reader
          split at stepped
          · rename_i room
            cases stepped
            exact .write position more (by simpa using reader) room
          · cases stepped
      · rename_i last
        cases stepped
        exact .written position (Nat.not_lt.mp last)
  | sleep =>
      simp only [position, Option.some.injEq] at stepped
      subst stepped
      exact .sleep position
  | unlock =>
      simp only [position, Option.some.injEq] at stepped
      subst stepped
      exact .release position
  | unborn | exited | killed i => simp [position] at stepped

theorem childStep_of_taken {s t : State} {c : Child} (taken : ChildTaken program capacity s c t) :
    childStep program capacity s c = some t := by
  unfold childStep
  cases taken with
  | closeRead position | sleep position | release position => simp only [position]
  | acquire position free => simp only [position, free, if_pos]
  | write position more reader room => simp [position, more, reader, room]
  | kill position more noReader => simp [position, more, noReader]
  | written position last => simp only [position, if_neg (Nat.not_lt.mpr last)]

/-- What a step of the parent does. -/
inductive ParentTaken (s : State) : State → Prop where
  | fork1 (position : s.parent = .fork1) :
      ParentTaken s { s.move .one .closeRead with parent := .fork2 }
  | fork2 (position : s.parent = .fork2) :
      ParentTaken s { s.move .two .closeRead with parent := .closeWrite }
  | forkFails {error : String} (position : s.parent = .fork1 ∨ s.parent = .fork2) :
      ParentTaken s { s with parent := .exited, errors := s.errors ++ [error] }
  | closeWrite (position : s.parent = .closeWrite) : ParentTaken s { s with parent := .waitpid }
  | waitpid (position : s.parent = .waitpid) (ended : (s.child .one).ended = true) :
      ParentTaken s { s with parent := .wait }
  | wait (position : s.parent = .wait) (ended : (s.child .two).ended = true) :
      ParentTaken s { s with parent := .read }
  | read {r : Nat} (position : s.parent = .read) (some : 1 ≤ r)
      (asked : r ≤ program.limit - s.inPipe.length) (there : r ≤ s.buffer.length) :
      ParentTaken s { s with inPipe := s.inPipe ++ s.buffer.take r, buffer := s.buffer.drop r }
  | readFails (position : s.parent = .read) :
      ParentTaken s { s with errors := s.errors ++ ["Read"] }.print
  | endOfFile (position : s.parent = .read) (more : s.inPipe.length < program.limit)
      (empty : s.buffer = []) : ParentTaken s s.print
  | complete (position : s.parent = .read) (all : program.limit ≤ s.inPipe.length) :
      ParentTaken s s.print

theorem parentTaken_of_step {s t : State} {choice : Choice}
    (stepped : parentStep program s choice = some t) : ParentTaken program s t := by
  unfold parentStep at stepped
  split at stepped
  all_goals rename_i position
  · cases stepped
    exact .fork1 position
  · cases stepped
    exact .forkFails (.inl position)
  · cases stepped
    exact .fork2 position
  · cases stepped
    exact .forkFails (.inr position)
  · cases stepped
    exact .closeWrite position
  · simp only [Option.ite_none_right_eq_some, Option.some.injEq] at stepped
    obtain ⟨ended, rfl⟩ := stepped
    exact .waitpid position ended
  · simp only [Option.ite_none_right_eq_some, Option.some.injEq] at stepped
    obtain ⟨ended, rfl⟩ := stepped
    exact .wait position ended
  · simp only [Option.ite_none_right_eq_some, Option.some.injEq] at stepped
    obtain ⟨⟨-, some, asked, there⟩, rfl⟩ := stepped
    exact .read position some asked there
  · simp only [Option.ite_none_right_eq_some, Option.some.injEq] at stepped
    obtain ⟨-, rfl⟩ := stepped
    exact .readFails position
  · split at stepped
    · rename_i more
      simp only [Option.ite_none_right_eq_some, Option.some.injEq] at stepped
      obtain ⟨⟨empty, -⟩, rfl⟩ := stepped
      exact .endOfFile position more empty
    · rename_i all
      cases stepped
      exact .complete position (Nat.not_lt.mp all)
  · cases stepped

end OsLab.Pipe
