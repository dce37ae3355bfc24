import Mathlib.Logic.Function.Basic
import OsLab.Foundation.Runs

/-!
# Two threads that start a program

The programs `1lab/2/2-3.c` and `1lab/2/2-4.c`. `main` allocates a number for each of two
threads, creates the threads with a pointer to it, waits for both and frees the numbers. A
thread reads its number, frees it and starts `./system_call`: in `2-3.c` in a child process it
waits for, in `2-4.c` in its own process, which ends the threads and `main` when it succeeds.

A step is one call, or the access to a number. Any call may fail. `freed` and `stale` are no
variables of the programs. They count the calls of `free` on each number, and record that a
number was read after one.

* The texts are left out.
* The child process of `2-3.c` has its own memory, and the parent looks only at whether
  `waitpid` succeeds. It may come back at any time.
-/

set_option autoImplicit false

namespace OsLab.Execve

open OsLab.Foundation

/-! ## Programs and threads -/

/-- Whether the threads fork before they call `execve`. -/
structure Program where
  forks : Bool
  deriving DecidableEq, Repr

/-- `2-3.c`. -/
def withFork : Program where
  forks := true

/-- `2-4.c`. -/
def withoutFork : Program where
  forks := false

inductive Thread where
  | t1
  | t2
  deriving DecidableEq, Repr

/-- The next statement of `worker`. -/
inductive Pc where
  | unborn
  | readId
  | freeArg
  | fork
  | waitpid
  | execve
  | ended
  deriving DecidableEq, Repr

/-- The next statement of `main`. -/
inductive MainPc where
  | malloc
  | noMemory
  | create1
  | create2
  /-- `pthread_join(t1, NULL)` after `t2` could not be created. -/
  | joinFirst
  | join1
  | join2
  | free1 (code : Int)
  | free2 (code : Int)
  | returned (code : Int)
  deriving DecidableEq, Repr

inductive Process where
  | running
  /-- A thread has called `_exit`. -/
  | exited
  /-- The process runs `system_call`. -/
  | replaced
  deriving DecidableEq, Repr

structure State where
  process : Process
  main : MainPc
  worker : Thread → Pc
  freed : Thread → Nat
  stale : Bool

def start : State where
  process := .running
  main := .malloc
  worker := fun _ => .unborn
  freed := fun _ => 0
  stale := false

def State.move (s : State) (w : Thread) (pc : Pc) : State :=
  { s with worker := Function.update s.worker w pc }

/-- `free` on the number of thread `w`. -/
def State.free (s : State) (w : Thread) : State :=
  { s with freed := Function.update s.freed w (s.freed w + 1) }

/-! ## Steps -/

inductive Choice where
  | go
  | fail
  deriving DecidableEq, Repr

variable (program : Program)

/-- The next statement of a thread. -/
def worker (s : State) (w : Thread) (choice : Choice) : Option State :=
  match s.worker w, choice with
  | .readId, .go => some { s.move w .freeArg with stale := s.stale || 0 < s.freed w }
  | .freeArg, .go => some ((s.free w).move w (if program.forks then .fork else .execve))
  | .fork, .go => some (s.move w .waitpid)
  -- `pthread_exit((void *)1)`, and after `waitpid` the same or a return
  | .fork, .fail | .waitpid, _ => some (s.move w .ended)
  | .execve, .go => some { s with process := .replaced }
  | .execve, .fail => some { s with process := .exited }
  | _, _ => none

/-- The next statement of `main`, when it can be executed. -/
def main (s : State) (choice : Choice) : Option State :=
  match s.main, choice with
  | .malloc, .go => some { s with main := .create1 }
  | .malloc, .fail => some { s with main := .noMemory }
  | .create1, .go => some { s.move .t1 .readId with main := .create2 }
  | .create1, .fail => some { s with main := .free1 1 }
  | .create2, .go => some { s.move .t2 .readId with main := .join1 }
  | .create2, .fail => some { s with main := .joinFirst }
  | .joinFirst, .go => if s.worker .t1 = .ended then some { s with main := .free1 1 } else none
  | .join1, .go => if s.worker .t1 = .ended then some { s with main := .join2 } else none
  | .join2, .go => if s.worker .t2 = .ended then some { s with main := .free1 0 } else none
  | .free1 code, .go => some { s.free .t1 with main := .free2 code }
  | .free2 code, .go => some { s.free .t2 with main := .returned code }
  | _, _ => none

inductive Action where
  | worker (w : Thread) (choice : Choice)
  | main (choice : Choice)
  deriving DecidableEq, Repr

/-- A step, while the process runs the program and `main` has not returned. -/
def step (s : State) (a : Action) : Option State :=
  match s.process, s.main with
  | .exited, _ | .replaced, _ | _, .noMemory | _, .returned _ => none
  | .running, _ =>
      match a with
      | .worker w choice => worker program s w choice
      | .main choice => main s choice

/-- The states of all interleavings. -/
abbrev Reached (s : State) : Prop :=
  Reachable (fun s a t => step program s a = some t) start s

/-! ## What a step does -/

/-- What a step of thread `w` does, by the statement it is at. -/
inductive WorkerTaken (s : State) (w : Thread) : State → Prop where
  | readId (position : s.worker w = .readId) :
      WorkerTaken s w { s.move w .freeArg with stale := s.stale || 0 < s.freed w }
  | freeArg (position : s.worker w = .freeArg) :
      WorkerTaken s w ((s.free w).move w (if program.forks then .fork else .execve))
  | fork (position : s.worker w = .fork) : WorkerTaken s w (s.move w .waitpid)
  | last (position : s.worker w = .fork ∨ s.worker w = .waitpid) :
      WorkerTaken s w (s.move w .ended)
  | execve (position : s.worker w = .execve) (process : Process) :
      WorkerTaken s w { s with process := process }

theorem workerTaken_of_step {s t : State} {w : Thread} {choice : Choice}
    (stepped : worker program s w choice = some t) : WorkerTaken program s w t := by
  unfold worker at stepped
  split at stepped
  all_goals rename_i position
  · cases stepped
    exact .readId position
  · cases stepped
    exact .freeArg position
  · cases stepped
    exact .fork position
  · cases stepped
    exact .last (.inl position)
  · cases stepped
    exact .last (.inr position)
  · cases stepped
    exact .execve position _
  · cases stepped
    exact .execve position _
  · cases stepped

/-- What a step of `main` does. -/
inductive MainTaken (s : State) : State → Prop where
  | malloc (position : s.main = .malloc) : MainTaken s { s with main := .create1 }
  | noMemory (position : s.main = .malloc) : MainTaken s { s with main := .noMemory }
  | create1 (position : s.main = .create1) :
      MainTaken s { s.move .t1 .readId with main := .create2 }
  | create1Fails (position : s.main = .create1) : MainTaken s { s with main := .free1 1 }
  | create2 (position : s.main = .create2) :
      MainTaken s { s.move .t2 .readId with main := .join1 }
  | create2Fails (position : s.main = .create2) : MainTaken s { s with main := .joinFirst }
  | joinFirst (position : s.main = .joinFirst) (ended : s.worker .t1 = .ended) :
      MainTaken s { s with main := .free1 1 }
  | join1 (position : s.main = .join1) (ended : s.worker .t1 = .ended) :
      MainTaken s { s with main := .join2 }
  | join2 (position : s.main = .join2) (ended : s.worker .t2 = .ended) :
      MainTaken s { s with main := .free1 0 }
  | free1 {code : Int} (position : s.main = .free1 code) :
      MainTaken s { s.free .t1 with main := .free2 code }
  | free2 {code : Int} (position : s.main = .free2 code) :
      MainTaken s { s.free .t2 with main := .returned code }

theorem mainTaken_of_step {s t : State} {choice : Choice} (stepped : main s choice = some t) :
    MainTaken s t := by
  unfold main at stepped
  split at stepped
  all_goals rename_i position
  · cases stepped
    exact .malloc position
  · cases stepped
    exact .noMemory position
  · cases stepped
    exact .create1 position
  · cases stepped
    exact .create1Fails position
  · cases stepped
    exact .create2 position
  · cases stepped
    exact .create2Fails position
  · simp only [Option.ite_none_right_eq_some, Option.some.injEq] at stepped
    obtain ⟨ended, rfl⟩ := stepped
    exact .joinFirst position ended
  · simp only [Option.ite_none_right_eq_some, Option.some.injEq] at stepped
    obtain ⟨ended, rfl⟩ := stepped
    exact .join1 position ended
  · simp only [Option.ite_none_right_eq_some, Option.some.injEq] at stepped
    obtain ⟨ended, rfl⟩ := stepped
    exact .join2 position ended
  · cases stepped
    exact .free1 position
  · cases stepped
    exact .free2 position
  · cases stepped

theorem step_cases {s t : State} {a : Action} (stepped : step program s a = some t) :
    (∃ w, WorkerTaken program s w t) ∨ MainTaken s t := by
  unfold step at stepped
  split at stepped
  · cases stepped
  · cases stepped
  · cases stepped
  · cases stepped
  · split at stepped
    · exact .inl ⟨_, workerTaken_of_step program stepped⟩
    · exact .inr (mainTaken_of_step stepped)

end OsLab.Execve
