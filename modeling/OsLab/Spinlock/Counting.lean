import Mathlib.Algebra.BigOperators.Group.Finset.Piecewise
import OsLab.Spinlock.Model

/-!
# Mutual exclusion and the count

Two invariants over every interleaving of the threads:

* `Owned`: at most one thread is between `spinlock_lock` and `spinlock_unlock`, and the
  flag is set exactly when there is one. It knows only the flag and who is inside, and is
  kept by the three things the builtins can do to them: a failed test-and-set, entering
  and leaving.
* `Counted`: `shared_value` is its initial value plus the number of stores that were done.
  A thread between its load and its store has loaded the present value, since no other
  thread is inside; so its store adds one and nothing is lost.

When all threads have finished, the stores are the rounds of all loops
(`spinlock_counts`).
-/

set_option autoImplicit false

namespace OsLab.Spinlock

open OsLab.Foundation

variable {ι : Type}

/-! ## Who is inside -/

/-- At most one is inside, and the flag tells whether there is one. -/
structure Owned (flag : Int) (inside : ι → Bool) : Prop where
  unique : ∀ i j, inside i = true → inside j = true → i = j
  held : flag ≠ 0 ↔ ∃ i, inside i = true

namespace Owned

variable {flag : Int} {inside : ι → Bool}

theorem nobody : Owned 0 fun _ : ι => false where
  unique i j first _ := (nomatch first)
  held := by simp

/-- A test-and-set that finds the flag set. -/
theorem spin (owned : Owned flag inside) (held : flag ≠ 0) : Owned 1 inside where
  unique := owned.unique
  held := by
    have someone := owned.held.mp held
    exact ⟨fun _ => someone, fun _ => Int.one_ne_zero⟩

theorem none_inside (owned : Owned flag inside) (free : flag = 0) (i : ι) : inside i = false := by
  rw [← Bool.not_eq_true]
  exact fun isInside => owned.held.mpr ⟨i, isInside⟩ free

variable [DecidableEq ι]

theorem enter (owned : Owned flag inside) (free : flag = 0) (j : ι) :
    Owned 1 (Function.update inside j true) where
  unique := by
    have only : ∀ i, Function.update inside j true i = true → i = j := by
      intro i isInside
      by_contra other
      rw [Function.update_of_ne other, owned.none_inside free] at isInside
      cases isInside
    intro i k first second
    rw [only i first, only k second]
  held := ⟨fun _ => ⟨j, Function.update_self ..⟩, fun _ => Int.one_ne_zero⟩

theorem leave (owned : Owned flag inside) {j : ι} (isInside : inside j = true) :
    Owned 0 (Function.update inside j false) := by
  have nobody : ∀ i, Function.update inside j false i = false := by
    intro i
    rcases eq_or_ne i j with rfl | other
    · exact Function.update_self ..
    · rw [Function.update_of_ne other, ← Bool.not_eq_true]
      exact fun alsoInside => other (owned.unique i j alsoInside isInside)
  rw [funext nobody]
  exact Owned.nobody

end Owned

def State.inside (s : State ι) (j : ι) : Bool := (s.pc j).inside

variable [DecidableEq ι] {iterations : ι → Nat} {initial : Int} {s t : State ι} {j : ι}

/-- A statement moves its own thread in or out. -/
theorem inside_update (pc : ι → Pc) (j : ι) (p : Pc) :
    (fun i => (Function.update pc j p i).inside) =
      Function.update (fun i => (pc i).inside) j p.inside := by
  funext i
  exact Function.apply_update (fun _ => Pc.inside) pc j p i

theorem inside_update_same {pc : ι → Pc} {j : ι} {p : Pc} (same : p.inside = (pc j).inside) :
    (fun i => (Function.update pc j p i).inside) = fun i => (pc i).inside := by
  rw [inside_update, same]
  exact Function.update_eq_self ..

theorem owned_step (owned : Owned s.lock.flag s.inside) (taken : Taken iterations s j t) :
    Owned t.lock.flag t.inside := by
  unfold State.inside at owned ⊢
  cases taken with
  | next position more =>
      rw [inside_update_same (by rw [position]; rfl)]
      exact owned
  | finish position last =>
      rw [inside_update_same (by rw [position]; rfl)]
      exact owned
  | spin position held => exact owned.spin held
  | acquire position free =>
      rw [inside_update]
      exact owned.enter free j
  | load position =>
      rw [inside_update_same (by rw [position]; rfl)]
      exact owned
  | store position =>
      rw [inside_update_same (by rw [position]; rfl)]
      exact owned
  | release position =>
      rw [inside_update]
      exact owned.leave (by rw [position]; rfl)

theorem owned_of_reached (reached : Reached iterations initial s) : Owned s.lock.flag s.inside := by
  refine reached.invariant (fun s => Owned s.lock.flag s.inside) Owned.nobody ?_
  intro s j t owned stepped
  exact owned_step owned (taken_of_step stepped)

/-! ## The stores that were done -/

/-- The rounds in which a thread has done its store. -/
def Pc.stored (iterations : Nat) : Pc → Nat
  | .loop i | .lock i | .load i | .store i _ => i
  | .unlock i => i + 1
  | .finished => iterations

/-- The local `i` of a thread is in the range of its loop. -/
def Pc.InLoop (iterations : Nat) : Pc → Prop
  | .loop i => i ≤ iterations
  | .lock i | .load i | .store i _ | .unlock i => i < iterations
  | .finished => True

theorem inLoop_update {pc : ι → Pc} {j : ι} {p : Pc} (inLoop : ∀ i, (pc i).InLoop (iterations i))
    (here : p.InLoop (iterations j)) (i : ι) :
    (Function.update pc j p i).InLoop (iterations i) := by
  rcases eq_or_ne i j with rfl | other
  · rw [Function.update_self]
    exact here
  · rw [Function.update_of_ne other]
    exact inLoop i

section Counted

variable [Fintype ι]

/-- The stores of all threads. -/
def storesOf (iterations : ι → Nat) (pc : ι → Pc) : Nat := ∑ j, (pc j).stored (iterations j)

theorem storesOf_update (iterations : ι → Nat) (pc : ι → Pc) (j : ι) (p : Pc) :
    storesOf iterations (Function.update pc j p) + (pc j).stored (iterations j) =
      storesOf iterations pc + p.stored (iterations j) := by
  have moved : ∀ i, (Function.update pc j p i).stored (iterations i) =
      Function.update (fun i => (pc i).stored (iterations i)) j (p.stored (iterations j)) i :=
    Function.apply_update (fun i => Pc.stored (iterations i)) pc j p
  have split := Finset.add_sum_erase Finset.univ (fun i => (pc i).stored (iterations i))
    (Finset.mem_univ j)
  unfold storesOf
  rw [Finset.sum_congr rfl fun i _ => moved i, Finset.sum_update_of_mem (Finset.mem_univ j),
    Finset.sdiff_singleton_eq_erase]
  omega

/-- What the threads know of the shared value, and what it counts. -/
structure Counted (iterations : ι → Nat) (initial : Int) (s : State ι) : Prop where
  inLoop : ∀ j, (s.pc j).InLoop (iterations j)
  loaded : ∀ j i value, s.pc j = .store i value → value = s.sharedValue
  counts : s.sharedValue = toInt32 (initial + storesOf iterations s.pc)

/-- A step that stores nothing: thread `j` goes to `p` with as many stores done. -/
theorem Counted.move (counted : Counted iterations initial s) {p : Pc} {lock : Lock}
    (inLoop : p.InLoop (iterations j))
    (loaded : ∀ i value, p = .store i value → value = s.sharedValue)
    (same : p.stored (iterations j) = (s.pc j).stored (iterations j)) :
    Counted iterations initial { s with lock := lock, pc := Function.update s.pc j p } where
  inLoop := inLoop_update counted.inLoop inLoop
  loaded := by
    intro k i value position
    rcases eq_or_ne k j with rfl | other
    · exact loaded i value (by simpa using position)
    · exact counted.loaded k i value (by simpa [Function.update_of_ne other] using position)
  counts := by
    have moved := storesOf_update iterations s.pc j p
    rw [same, Nat.add_right_cancel_iff] at moved
    rw [moved]
    exact counted.counts

/-- The store adds one to the value that is there. -/
theorem Counted.store (owned : Owned s.lock.flag s.inside) (counted : Counted iterations initial s)
    {i : Nat} {value : Int} (position : s.pc j = .store i value) :
    Counted iterations initial
      { s with sharedValue := toInt32 (value + 1), pc := Function.update s.pc j (.unlock i) } where
  inLoop := by
    have here := counted.inLoop j
    rw [position] at here
    exact inLoop_update counted.inLoop here
  loaded := by
    -- any other thread with a loaded value would be inside together with `j`
    intro k i' value' elsewhere
    rcases eq_or_ne k j with rfl | other
    · simp at elsewhere
    · have both : s.pc k = .store i' value' := by
        simpa [Function.update_of_ne other] using elsewhere
      refine absurd (owned.unique k j ?_ ?_) other
      · rw [State.inside, both]
        rfl
      · rw [State.inside, position]
        rfl
  counts := by
    have moved := storesOf_update iterations s.pc j (.unlock i)
    rw [position] at moved
    have more : storesOf iterations (Function.update s.pc j (.unlock i)) =
        storesOf iterations s.pc + 1 := by
      simp only [Pc.stored] at moved
      omega
    show toInt32 (value + 1) = toInt32 (initial + storesOf iterations _)
    rw [counted.loaded j i value position, counted.counts, toInt32_add, more,
      Int.natCast_add, Int.natCast_one, Int.add_assoc]

theorem counted_step (owned : Owned s.lock.flag s.inside) (counted : Counted iterations initial s)
    (taken : Taken iterations s j t) : Counted iterations initial t := by
  have here := counted.inLoop j
  cases taken with
  | next position more => exact counted.move more (by simp) (by rw [position]; rfl)
  | finish position last =>
      rw [position] at here
      refine counted.move trivial (by simp) ?_
      rw [position]
      exact Nat.le_antisymm last here
  | spin position held => exact ⟨counted.inLoop, counted.loaded, counted.counts⟩
  | acquire position free =>
      rw [position] at here
      exact counted.move here (by simp) (by rw [position]; rfl)
  | load position =>
      rw [position] at here
      refine counted.move here ?_ (by rw [position]; rfl)
      intro i value loaded
      cases loaded
      rfl
  | store position => exact counted.store owned position
  | release position =>
      rw [position] at here
      exact counted.move here (by simp) (by rw [position]; rfl)

theorem counted_of_reached (representable : toInt32 initial = initial)
    (reached : Reached iterations initial s) : Counted iterations initial s := by
  have both := reached.invariant
    (fun s => Owned s.lock.flag s.inside ∧ Counted iterations initial s) ?_ ?_
  · exact both.2
  · refine ⟨Owned.nobody, fun j => Nat.zero_le _, by simp [start], ?_⟩
    simp [storesOf, start, Pc.stored, representable]
  · rintro s j t ⟨owned, counted⟩ stepped
    have taken := taken_of_step stepped
    exact ⟨owned_step owned taken, counted_step owned counted taken⟩

/-- **The spinlock excludes, and no addition is lost.** In every state of every
interleaving at most one thread is between `spinlock_lock` and `spinlock_unlock`, and the
flag is not 0 exactly when there is one. When all threads have finished, `shared_value` is
its initial value plus the rounds of all threads, provided that this is an `int`. -/
theorem spinlock_counts (reached : Reached iterations initial s) :
    (∀ i j, (s.pc i).inside = true → (s.pc j).inside = true → i = j) ∧
    (s.lock.flag ≠ 0 ↔ ∃ i, (s.pc i).inside = true) ∧
    (-2147483648 ≤ initial → initial + (∑ j, iterations j : Nat) ≤ 2147483647 →
      (∀ j, s.pc j = .finished) → s.sharedValue = initial + (∑ j, iterations j : Nat)) := by
  have owned := owned_of_reached reached
  refine ⟨owned.unique, owned.held, fun low high finished => ?_⟩
  have counted := counted_of_reached (toInt32_of_mem low (by omega)) reached
  have all : storesOf iterations s.pc = ∑ j, iterations j := by
    simp [storesOf, finished, Pc.stored]
  rw [counted.counts, all, toInt32_of_mem (by omega) high]

end Counted

/-- Thread `true` with one round, which spins while thread `false` is in the first of its two. -/
def contended : List Bool :=
  [false, false, true, true, false, true, false, false] ++ List.replicate 5 true ++
    List.replicate 6 false

theorem spinlock_counts_contended :
    ∃ s : State Bool, Reached (fun j => if j then 1 else 2) 0 s ∧ (∀ j, s.pc j = .finished) ∧
      s.sharedValue = 3 := by
  obtain ⟨s, ran⟩ := Option.isSome_iff_exists.mp
    (show (replay (step fun j => if j then 1 else 2) contended (start 0)).isSome from rfl)
  have reached : Reached (fun j => if j then 1 else 2) 0 s := Reachable.refl.replay ran
  have finished : ∀ j, s.pc j = .finished := by
    cases ran
    intro j
    cases j <;> rfl
  have counts := (spinlock_counts reached).2.2 (by decide) (by decide) finished
  exact ⟨s, reached, finished, counts⟩

end OsLab.Spinlock
