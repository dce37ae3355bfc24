import Mathlib.Logic.Function.Basic
import OsLab.Foundation.Runs

/-!
# Two threads that count

The programs `1lab/2/2-1.c` and `1lab/2/2-2.c`. `main` creates two threads, waits for both and
prints `counter`; each thread adds one to `counter` in every round of a loop. In `2-2.c` the
addition stands between `sem_wait` and `sem_post` on a semaphore that starts at 1, in `2-1.c`
it does not. `Program` is what the two differ in, and the number of rounds.

A step is one access to the shared memory, one call, or the test of a loop. The addition is a
load and a store, with the loaded value in a register of the thread (`Pc.store`). The calls may
fail: `pthread_create`, after which `main` returns 1 and the process ends with the threads it
has; `sem_wait` and `sem_post`, after which the thread exits.

`misused` is no variable of the program. It records that a thread called `sem_wait` or
`sem_post` after `sem_destroy`, which has no defined behaviour.
-/

set_option autoImplicit false

namespace OsLab.Counter

open OsLab.Foundation

/-! ## Programs and threads -/

/-- With the semaphore or without, and the rounds of each thread. -/
structure Program where
  semaphore : Bool
  rounds : Nat
  deriving DecidableEq, Repr

/-- `2-1.c`. -/
def withoutSemaphore : Program where
  semaphore := false
  rounds := 100000

/-- `2-2.c`. -/
def withSemaphore : Program where
  semaphore := true
  rounds := 100

inductive Thread where
  | t1
  | t2
  deriving DecidableEq, Repr

def Thread.other : Thread → Thread
  | .t1 => .t2
  | .t2 => .t1

/-- The next statement of `worker`, with its local `i`. -/
inductive Pc where
  | unborn
  | loop (i : Nat)
  | wait (i : Nat)
  | load (i : Nat)
  | store (i : Nat) (value : Int)
  | post (i : Nat)
  | finished
  /-- `pthread_exit((void*)1)` after a failed `sem_wait`. -/
  | waitFailed (i : Nat)
  /-- `pthread_exit((void*)1)` after a failed `sem_post`. -/
  | postFailed (i : Nat)
  deriving DecidableEq, Repr

/-- `pthread_join` returns. -/
def Pc.ended : Pc → Bool
  | .finished | .waitFailed _ | .postFailed _ => true
  | _ => false

/-- The next statement of `main`. -/
inductive MainPc where
  | create1
  | create2
  | join1
  | join2
  | print
  /-- `sem_destroy`, before `return code`. -/
  | destroy (code : Int)
  | ret (code : Int)
  | returned (code : Int)
  deriving DecidableEq, Repr

structure State where
  counter : Int
  /-- The value of `sem`. -/
  sem : Nat
  destroyed : Bool
  misused : Bool
  worker : Thread → Pc
  main : MainPc
  /-- The argument of every `perror`. -/
  errors : List String
  printed : Option Int

/-- After `sem_init(&sem, 0, 1)`. -/
def start : State where
  counter := 0
  sem := 1
  destroyed := false
  misused := false
  worker := fun _ => .unborn
  main := .create1
  errors := []
  printed := none

/-- The value of a `long long` after an addition. -/
def toInt64 (value : Int) : Int := value.bmod 18446744073709551616

theorem toInt64_of_mem {value : Int} (low : 0 ≤ value) (high : value ≤ 9223372036854775807) :
    toInt64 value = value := by
  rw [toInt64, Int.bmod_eq_of_le] <;> omega

def State.move (s : State) (w : Thread) (pc : Pc) : State :=
  { s with worker := Function.update s.worker w pc }

@[simp] theorem move_self (s : State) (w : Thread) (pc : Pc) : (s.move w pc).worker w = pc :=
  Function.update_self ..

theorem move_other (s : State) {w v : Thread} (pc : Pc) (other : v ≠ w) :
    (s.move w pc).worker v = s.worker v :=
  Function.update_of_ne other ..

theorem eq_other_of_ne {w v : Thread} (different : v ≠ w) : v = w.other := by
  cases w <;> cases v <;> first | rfl | exact absurd rfl different

/-! ## Steps -/

inductive Choice where
  | go
  | fail
  deriving DecidableEq, Repr

variable (program : Program)

/-- The next statement of a thread, when it can be executed. -/
def worker (s : State) (w : Thread) (choice : Choice) : Option State :=
  match s.worker w, choice with
  | .loop i, .go =>
      some (s.move w (if i < program.rounds then
        if program.semaphore then .wait i else .load i
      else .finished))
  | .wait i, .go =>
      if 0 < s.sem then
        some { s.move w (.load i) with sem := s.sem - 1, misused := s.misused || s.destroyed }
      else none
  | .wait i, .fail =>
      some { s.move w (.waitFailed i) with
        misused := s.misused || s.destroyed, errors := s.errors ++ ["sem_wait"] }
  | .load i, .go => some (s.move w (.store i s.counter))
  | .store i value, .go =>
      some { s.move w (if program.semaphore then .post i else .loop (i + 1)) with
        counter := toInt64 (value + 1) }
  | .post i, .go =>
      some { s.move w (.loop (i + 1)) with
        sem := s.sem + 1, misused := s.misused || s.destroyed }
  | .post i, .fail =>
      some { s.move w (.postFailed i) with
        misused := s.misused || s.destroyed, errors := s.errors ++ ["sem_post"] }
  | _, _ => none

/-- Where `main` goes on its way to `return code`. -/
def leave (code : Int) : MainPc := if program.semaphore then .destroy code else .ret code

/-- The next statement of `main`, when it can be executed. -/
def main (s : State) (choice : Choice) : Option State :=
  match s.main, choice with
  | .create1, .go => some { s.move .t1 (.loop 0) with main := .create2 }
  | .create1, .fail =>
      some { s with main := leave program 1, errors := s.errors ++ ["pthread_create t1"] }
  | .create2, .go => some { s.move .t2 (.loop 0) with main := .join1 }
  | .create2, .fail =>
      some { s with main := leave program 1, errors := s.errors ++ ["pthread_create t2"] }
  | .join1, .go => if (s.worker .t1).ended then some { s with main := .join2 } else none
  | .join2, .go => if (s.worker .t2).ended then some { s with main := .print } else none
  | .print, .go => some { s with main := leave program 0, printed := some s.counter }
  | .destroy code, .go => some { s with main := .ret code, destroyed := true }
  | .ret code, .go => some { s with main := .returned code }
  | _, _ => none

inductive Action where
  | worker (w : Thread) (choice : Choice)
  | main (choice : Choice)
  deriving DecidableEq, Repr

/-- The process has ended. -/
def MainPc.over : MainPc → Bool
  | .returned _ => true
  | _ => false

def step (s : State) (a : Action) : Option State :=
  if s.main.over then none
  else
    match a with
    | .worker w choice => worker program s w choice
    | .main choice => main program s choice

/-- The states of all interleavings. -/
def Reached (s : State) : Prop := Reachable (fun s a t => step program s a = some t) start s

/-! ## What a step does -/

/-- What a step of thread `w` does, by the statement it is at. -/
inductive WorkerTaken (s : State) (w : Thread) : State → Prop where
  | next {i : Nat} (position : s.worker w = .loop i) (more : i < program.rounds) :
      WorkerTaken s w (s.move w (if program.semaphore then .wait i else .load i))
  | finish {i : Nat} (position : s.worker w = .loop i) (last : program.rounds ≤ i) :
      WorkerTaken s w (s.move w .finished)
  | wait {i : Nat} (position : s.worker w = .wait i) (free : 0 < s.sem) :
      WorkerTaken s w
        { s.move w (.load i) with sem := s.sem - 1, misused := s.misused || s.destroyed }
  | waitFails {i : Nat} (position : s.worker w = .wait i) :
      WorkerTaken s w
        { s.move w (.waitFailed i) with
          misused := s.misused || s.destroyed, errors := s.errors ++ ["sem_wait"] }
  | load {i : Nat} (position : s.worker w = .load i) :
      WorkerTaken s w (s.move w (.store i s.counter))
  | store {i : Nat} {value : Int} (position : s.worker w = .store i value) :
      WorkerTaken s w
        { s.move w (if program.semaphore then .post i else .loop (i + 1)) with
          counter := toInt64 (value + 1) }
  | post {i : Nat} (position : s.worker w = .post i) :
      WorkerTaken s w
        { s.move w (.loop (i + 1)) with
          sem := s.sem + 1, misused := s.misused || s.destroyed }
  | postFails {i : Nat} (position : s.worker w = .post i) :
      WorkerTaken s w
        { s.move w (.postFailed i) with
          misused := s.misused || s.destroyed, errors := s.errors ++ ["sem_post"] }

theorem workerTaken_of_step {s t : State} {w : Thread} {choice : Choice}
    (stepped : worker program s w choice = some t) : WorkerTaken program s w t := by
  unfold worker at stepped
  split at stepped
  all_goals rename_i position
  · cases stepped
    split
    · rename_i more
      exact .next position more
    · rename_i last
      exact .finish position (Nat.not_lt.mp last)
  · simp only [Option.ite_none_right_eq_some, Option.some.injEq] at stepped
    obtain ⟨free, rfl⟩ := stepped
    exact .wait position free
  · cases stepped
    exact .waitFails position
  · cases stepped
    exact .load position
  · cases stepped
    exact .store position
  · cases stepped
    exact .post position
  · cases stepped
    exact .postFails position
  · cases stepped

/-- What a step of `main` does. -/
inductive MainTaken (s : State) : State → Prop where
  | create1 (position : s.main = .create1) :
      MainTaken s { s.move .t1 (.loop 0) with main := .create2 }
  | create2 (position : s.main = .create2) :
      MainTaken s { s.move .t2 (.loop 0) with main := .join1 }
  | createFails {error : String}
      (position : s.main = .create1 ∨ s.main = .create2 ∧ error = "pthread_create t2") :
      MainTaken s { s with main := leave program 1, errors := s.errors ++ [error] }
  | join1 (position : s.main = .join1) (ended : (s.worker .t1).ended = true) :
      MainTaken s { s with main := .join2 }
  | join2 (position : s.main = .join2) (ended : (s.worker .t2).ended = true) :
      MainTaken s { s with main := .print }
  | print (position : s.main = .print) :
      MainTaken s { s with main := leave program 0, printed := some s.counter }
  | destroy {code : Int} (position : s.main = .destroy code) :
      MainTaken s { s with main := .ret code, destroyed := true }
  | ret {code : Int} (position : s.main = .ret code) :
      MainTaken s { s with main := .returned code }

theorem mainTaken_of_step {s t : State} {choice : Choice}
    (stepped : main program s choice = some t) : MainTaken program s t := by
  unfold main at stepped
  split at stepped
  all_goals rename_i position
  · cases stepped
    exact .create1 position
  · cases stepped
    exact .createFails (.inl position)
  · cases stepped
    exact .create2 position
  · cases stepped
    exact .createFails (.inr ⟨position, rfl⟩)
  · simp only [Option.ite_none_right_eq_some, Option.some.injEq] at stepped
    obtain ⟨ended, rfl⟩ := stepped
    exact .join1 position ended
  · simp only [Option.ite_none_right_eq_some, Option.some.injEq] at stepped
    obtain ⟨ended, rfl⟩ := stepped
    exact .join2 position ended
  · cases stepped
    exact .print position
  · cases stepped
    exact .destroy position
  · cases stepped
    exact .ret position
  · cases stepped

/-- A step is one of a thread or of `main`, in a process that has not ended. -/
theorem step_cases {s t : State} {a : Action} (stepped : step program s a = some t) :
    s.main.over = false ∧
      ((∃ w, WorkerTaken program s w t) ∨ MainTaken program s t) := by
  unfold step at stepped
  split at stepped
  · cases stepped
  · rename_i running
    refine ⟨by simpa using running, ?_⟩
    cases a with
    | worker w choice => exact .inl ⟨w, workerTaken_of_step program stepped⟩
    | main choice => exact .inr (mainTaken_of_step program stepped)

end OsLab.Counter
