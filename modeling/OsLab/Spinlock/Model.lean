import Mathlib.Logic.Function.Basic
import OsLab.Foundation.Runs

/-!
# The spinlock

The program of `1lab/3/3-1.c`. Its threads all run `thread_function` on one lock: every
round of the loop takes the lock, adds one to `shared_value` and releases the lock. The
program starts two threads with 5000 rounds each; here there are any number of threads,
each with a number of rounds of its own.

A step is one access to the shared memory by one thread, or the test of its loop. The two
`__sync` builtins are atomic. The addition is not: it is a load and a store, with the
value that was loaded in a register of the thread (`Pc.store`).
-/

set_option autoImplicit false

namespace OsLab.Spinlock

open OsLab.Foundation

/-! ## The lock -/

/-- `spinlock_t`. -/
structure Lock where
  flag : Int
  deriving DecidableEq, Repr

def spinlockInit : Lock where
  flag := 0

/-- `__sync_lock_test_and_set`: the value before, and the lock with the new one. -/
def testAndSet (lock : Lock) (value : Int) : Int × Lock := (lock.flag, { lock with flag := value })

/-- `__sync_lock_release`. -/
def lockRelease (lock : Lock) : Lock := { lock with flag := 0 }

/-- The value of an `int` after an addition. -/
def toInt32 (value : Int) : Int := value.bmod 4294967296

theorem toInt32_of_mem {value : Int} (low : -2147483648 ≤ value) (high : value ≤ 2147483647) :
    toInt32 value = value := by
  rw [toInt32, Int.bmod_eq_of_le] <;> omega

theorem toInt32_add (value added : Int) :
    toInt32 (toInt32 value + added) = toInt32 (value + added) :=
  Int.bmod_add_bmod ..

/-! ## A thread -/

/-- The next statement of a thread, with its local `i`. -/
inductive Pc where
  | loop (i : Nat)
  /-- In `spinlock_lock`: the next `__sync_lock_test_and_set`. -/
  | lock (i : Nat)
  | load (i : Nat)
  | store (i : Nat) (value : Int)
  | unlock (i : Nat)
  | finished
  deriving DecidableEq, Repr

/-- Between `spinlock_lock` and `spinlock_unlock`. -/
def Pc.inside : Pc → Bool
  | .load _ | .store _ _ | .unlock _ => true
  | _ => false

/-- One step of `thread_function`. -/
def threadFunction (iterations : Nat) (lock : Lock) (sharedValue : Int) :
    Pc → Option (Lock × Int × Pc)
  | .loop i => some (lock, sharedValue, if i < iterations then .lock i else .finished)
  | .lock i =>
      let (old, lock) := testAndSet lock 1
      -- the `while` tries again as long as the value before was not 0
      some (lock, sharedValue, if old = 0 then .load i else .lock i)
  | .load i => some (lock, sharedValue, .store i sharedValue)
  | .store i value => some (lock, toInt32 (value + 1), .unlock i)
  | .unlock i => some (lockRelease lock, sharedValue, .loop (i + 1))
  | .finished => none

/-! ## All threads -/

structure State (ι : Type) where
  lock : Lock
  sharedValue : Int
  pc : ι → Pc

variable {ι : Type}

/-- After `spinlock_init`, before any thread has run. -/
def start (initial : Int) : State ι where
  lock := spinlockInit
  sharedValue := initial
  pc := fun _ => .loop 0

variable [DecidableEq ι]

def step (iterations : ι → Nat) (s : State ι) (j : ι) : Option (State ι) :=
  (threadFunction (iterations j) s.lock s.sharedValue (s.pc j)).map fun (lock, sharedValue, pc) =>
    { lock := lock, sharedValue := sharedValue, pc := Function.update s.pc j pc }

/-- The states of all interleavings. -/
def Reached (iterations : ι → Nat) (initial : Int) (s : State ι) : Prop :=
  Reachable (fun s j t => step iterations s j = some t) (start initial) s

/-- What a step of thread `j` does, by the statement it is at. -/
inductive Taken (iterations : ι → Nat) (s : State ι) (j : ι) : State ι → Prop where
  | next {i : Nat} (position : s.pc j = .loop i) (more : i < iterations j) :
      Taken iterations s j { s with pc := Function.update s.pc j (.lock i) }
  | finish {i : Nat} (position : s.pc j = .loop i) (last : iterations j ≤ i) :
      Taken iterations s j { s with pc := Function.update s.pc j .finished }
  | spin {i : Nat} (position : s.pc j = .lock i) (held : s.lock.flag ≠ 0) :
      Taken iterations s j { s with lock := ⟨1⟩ }
  | acquire {i : Nat} (position : s.pc j = .lock i) (free : s.lock.flag = 0) :
      Taken iterations s j { s with lock := ⟨1⟩, pc := Function.update s.pc j (.load i) }
  | load {i : Nat} (position : s.pc j = .load i) :
      Taken iterations s j { s with pc := Function.update s.pc j (.store i s.sharedValue) }
  | store {i : Nat} {value : Int} (position : s.pc j = .store i value) :
      Taken iterations s j
        { s with sharedValue := toInt32 (value + 1), pc := Function.update s.pc j (.unlock i) }
  | release {i : Nat} (position : s.pc j = .unlock i) :
      Taken iterations s j { s with lock := ⟨0⟩, pc := Function.update s.pc j (.loop (i + 1)) }

theorem taken_of_step {iterations : ι → Nat} {s t : State ι} {j : ι}
    (stepped : step iterations s j = some t) : Taken iterations s j t := by
  rw [step] at stepped
  cases position : s.pc j with
  | loop i =>
      rw [position, threadFunction, Option.map_some, Option.some_inj] at stepped
      subst stepped
      rcases Nat.lt_or_ge i (iterations j) with more | last
      · rw [if_pos more]
        exact .next position more
      · rw [if_neg (Nat.not_lt.mpr last)]
        exact .finish position last
  | lock i =>
      rw [position, threadFunction, testAndSet, Option.map_some, Option.some_inj] at stepped
      subst stepped
      by_cases free : s.lock.flag = 0
      · rw [if_pos free]
        exact .acquire position free
      · rw [if_neg free, ← position]
        simp only [Function.update_eq_self]
        exact .spin position free
  | load i =>
      rw [position, threadFunction, Option.map_some, Option.some_inj] at stepped
      subst stepped
      exact .load position
  | store i value =>
      rw [position, threadFunction, Option.map_some, Option.some_inj] at stepped
      subst stepped
      exact .store position
  | unlock i =>
      rw [position, threadFunction, Option.map_some, Option.some_inj] at stepped
      subst stepped
      exact .release position
  | finished =>
      rw [position, threadFunction] at stepped
      cases stepped

end OsLab.Spinlock
