import OsLab.Execve.Model

/-!
# The numbers are freed twice

A thread frees the number it was given, and `main` frees it again. `Sees` says what `main`
knows of the threads at each of its statements, `Books` how often each number has been freed.

In `2-3.c` the number of a thread is freed twice as soon as the thread was created and `main`
is behind its `free` (`freed_twice_iff`), so always when `main` returns 0. In `2-4.c` `main` does
not come that far once a thread was created (`execve_frees_once`): a thread there ends only with
the process.
-/

set_option autoImplicit false

namespace OsLab.Execve

open OsLab.Foundation

variable {program : Program} {s t : State} {w : Thread}

/-! ## What `main` knows -/

/-- The threads when `main` returns `code`. -/
def Done (code : Int) (worker : Thread → Pc) : Prop :=
  (code = 0 ∧ worker .t1 = .ended ∧ worker .t2 = .ended) ∨
    (code = 1 ∧ (worker .t1 = .unborn ∨ worker .t1 = .ended) ∧ worker .t2 = .unborn)

/-- The threads at each statement of `main`. -/
def MainPc.Sees : MainPc → (Thread → Pc) → Prop
  | .malloc, worker | .noMemory, worker | .create1, worker =>
      worker .t1 = .unborn ∧ worker .t2 = .unborn
  | .create2, worker | .joinFirst, worker => worker .t1 ≠ .unborn ∧ worker .t2 = .unborn
  | .join1, worker => worker .t1 ≠ .unborn ∧ worker .t2 ≠ .unborn
  | .join2, worker => worker .t1 = .ended ∧ worker .t2 ≠ .unborn
  | .free1 code, worker | .free2 code, worker | .returned code, worker => Done code worker

/-- A thread that is neither before its creation nor at its end may go on. -/
theorem MainPc.Sees.update {main : MainPc} {worker : Thread → Pc} {pc : Pc}
    (sees : main.Sees worker) (born : worker w ≠ .unborn) (alive : worker w ≠ .ended)
    (still : pc ≠ .unborn) : main.Sees (Function.update worker w pc) := by
  cases main <;> cases w <;> simp_all [MainPc.Sees, Done]

/-- A thread moves between its creation and its end. -/
theorem WorkerTaken.sees (sees : s.main.Sees s.worker) (taken : WorkerTaken program s w t) :
    t.main.Sees t.worker := by
  cases taken with
  | readId position | fork position =>
      exact sees.update (by simp [position]) (by simp [position]) (by simp)
  | freeArg position =>
      refine sees.update (by simp [position]) (by simp [position]) ?_
      split <;> simp
  | last position =>
      rcases position with position | position <;>
        exact sees.update (by simp [position]) (by simp [position]) (by simp)
  | execve position process => exact sees

theorem MainTaken.sees (sees : s.main.Sees s.worker) (taken : MainTaken s t) :
    t.main.Sees t.worker := by
  cases taken with
  | malloc position | noMemory position | create2Fails position =>
      rw [position] at sees
      exact sees
  | create1 position =>
      rw [position] at sees
      exact ⟨by simp [State.move], by simpa [State.move] using sees.2⟩
  | create1Fails position =>
      rw [position] at sees
      exact .inr ⟨rfl, .inl sees.1, sees.2⟩
  | create2 position =>
      rw [position] at sees
      exact ⟨by simpa [State.move] using sees.1, by simp [State.move]⟩
  | joinFirst position ended =>
      rw [position] at sees
      exact .inr ⟨rfl, .inr ended, sees.2⟩
  | join1 position ended =>
      rw [position] at sees
      exact ⟨ended, sees.2⟩
  | join2 position ended =>
      rw [position] at sees
      exact .inl ⟨rfl, sees.1, ended⟩
  | free1 position | free2 position =>
      rw [position] at sees
      exact sees

theorem sees_of_reached (reached : Reached program s) : s.main.Sees s.worker := by
  refine reached.invariant (fun s => s.main.Sees s.worker) ⟨rfl, rfl⟩ ?_
  intro s a t sees stepped
  rcases step_cases program stepped with ⟨w, taken⟩ | taken
  · exact taken.sees sees
  · exact taken.sees sees

/-! ## How often -/

/-- How often a thread has freed its number. -/
def Pc.frees : Pc → Nat
  | .unborn | .readId | .freeArg => 0
  | .fork | .waitpid | .execve | .ended => 1

/-- How often `main` has freed the number of a thread. -/
def MainPc.frees : MainPc → Thread → Nat
  | .free2 _, .t1 | .returned _, _ => 1
  | _, _ => 0

/-- `main` frees the number of a thread only where the thread is at its end, or was not
created. -/
theorem MainPc.Sees.settled {main : MainPc} {worker : Thread → Pc} (sees : main.Sees worker)
    (behind : main.frees w ≠ 0) : worker w = .unborn ∨ worker w = .ended := by
  cases main with
  | free2 code | returned code =>
      rcases sees with ⟨-, first, second⟩ | ⟨-, first, second⟩
      · cases w with
        | t1 => exact .inr first
        | t2 => exact .inr second
      · cases w with
        | t1 => exact first
        | t2 => exact .inl second
  | _ => cases w <;> exact absurd rfl behind

/-- How often the numbers were freed, and that none was read after that. -/
structure Books (s : State) : Prop where
  freed : ∀ w, s.freed w = (s.worker w).frees + s.main.frees w
  fresh : s.stale = false

theorem Books.worker (books : Books s) (sees : s.main.Sees s.worker)
    (taken : WorkerTaken program s w t) : Books t := by
  have moved : ∀ pc, pc.frees = (s.worker w).frees →
      ∀ v, s.freed v = (Function.update s.worker w pc v).frees + s.main.frees v := by
    intro pc same v
    rcases eq_or_ne v w with rfl | other
    · rw [Function.update_self, same]
      exact books.freed v
    · rw [Function.update_of_ne other]
      exact books.freed v
  cases taken with
  | readId position =>
      have unfreed : s.freed w = 0 := by
        have before : s.main.frees w = 0 := by
          by_contra behind
          rcases sees.settled behind with early | late
          · exact Pc.noConfusion (position.symm.trans early)
          · exact Pc.noConfusion (position.symm.trans late)
        rw [books.freed, position, before]
        rfl
      exact ⟨moved .freeArg (by rw [position]; rfl), by simp [books.fresh, unfreed]⟩
  | freeArg position =>
      refine ⟨fun v => ?_, books.fresh⟩
      have after : (if program.forks then Pc.fork else .execve).frees = 1 := by
        split <;> rfl
      have before := books.freed v
      simp only [State.free, State.move]
      rcases eq_or_ne v w with rfl | other
      · rw [position] at before
        rw [Function.update_self, Function.update_self, after, before, Pc.frees]
        omega
      · rw [Function.update_of_ne other, Function.update_of_ne other]
        exact before
  | fork position => exact ⟨moved .waitpid (by rw [position]; rfl), books.fresh⟩
  | last position =>
      refine ⟨moved .ended ?_, books.fresh⟩
      rcases position with position | position <;> rw [position] <;> rfl
  | execve position process => exact ⟨books.freed, books.fresh⟩

theorem Books.main (books : Books s) (sees : s.main.Sees s.worker) (taken : MainTaken s t) :
    Books t := by
  have born : ∀ v, s.worker v = .unborn →
      ∀ u, s.freed u = (Function.update s.worker v .readId u).frees + s.main.frees u := by
    intro v unborn u
    rcases eq_or_ne u v with rfl | other
    · rw [Function.update_self, books.freed, unborn]
      rfl
    · rw [Function.update_of_ne other]
      exact books.freed u
  have freed := books.freed
  cases taken with
  | malloc position | noMemory position | create1Fails position | create2Fails position
  | joinFirst position | join1 position | join2 position =>
      rw [position] at freed
      exact ⟨freed, books.fresh⟩
  | create1 position =>
      rw [position] at sees
      have after := born .t1 sees.1
      rw [position] at after
      exact ⟨after, books.fresh⟩
  | create2 position =>
      rw [position] at sees
      have after := born .t2 sees.2
      rw [position] at after
      exact ⟨after, books.fresh⟩
  | free1 position | free2 position =>
      rw [position] at freed
      refine ⟨fun v => ?_, books.fresh⟩
      have before := freed v
      cases v <;> simp_all [State.free, MainPc.frees]

theorem books_of_reached (reached : Reached program s) : Books s := by
  refine (reached.invariant (fun s => s.main.Sees s.worker ∧ Books s)
    ⟨⟨rfl, rfl⟩, fun _ => rfl, rfl⟩ ?_).2
  intro s a t both stepped
  obtain ⟨sees, books⟩ := both
  rcases step_cases program stepped with ⟨w, taken⟩ | taken
  · exact ⟨taken.sees sees, books.worker sees taken⟩
  · exact ⟨taken.sees sees, books.main sees taken⟩

theorem Pc.frees_le (pc : Pc) : pc.frees ≤ 1 := by
  cases pc <;> decide

theorem MainPc.frees_le (main : MainPc) (w : Thread) : main.frees w ≤ 1 := by
  cases main <;> cases w <;> simp [MainPc.frees]

/-- **Freed twice.** In every reachable state a number has been freed at most twice, and twice
exactly when its thread was created and `main` is behind its own `free`. So both were freed
twice when `main` has returned 0. No number is read after it was freed. -/
theorem freed_twice_iff (reached : Reached program s) :
    (∀ w, s.freed w ≤ 2 ∧ (s.freed w = 2 ↔ s.worker w ≠ .unborn ∧ s.main.frees w = 1)) ∧
    (s.main = .returned 0 → ∀ w, s.freed w = 2) ∧
    s.stale = false := by
  have sees := sees_of_reached reached
  have books := books_of_reached reached
  have exactly : ∀ w, s.freed w = 2 ↔ s.worker w ≠ .unborn ∧ s.main.frees w = 1 := by
    intro w
    have total := books.freed w
    have one := (s.worker w).frees_le
    have other := s.main.frees_le w
    constructor
    · intro twice
      refine ⟨fun unborn => ?_, by omega⟩
      rw [unborn, Pc.frees] at total
      omega
    · rintro ⟨born, behind⟩
      have ended := (sees.settled (by omega)).resolve_left born
      rw [total, ended, behind]
      rfl
  refine ⟨fun w => ⟨?_, exactly w⟩, fun position w => ?_, books.fresh⟩
  · have total := books.freed w
    have one := (s.worker w).frees_le
    have other := s.main.frees_le w
    omega
  · rw [position] at sees exactly
    refine (exactly w).mpr ⟨?_, rfl⟩
    rcases sees with ⟨-, first, second⟩ | ⟨code, -⟩
    · cases w with
      | t1 => simp [first]
      | t2 => simp [second]
    · cases code

/-- A thread from its creation to its end, when no call fails. -/
def whole (w : Thread) : List Action := List.replicate 4 (.worker w .go)

/-- `2-3.c` when no call fails. -/
theorem freed_twice_iff_unfailing :
    ∃ s, Reached withFork s ∧ s.main = .returned 0 ∧ ∀ w, s.freed w = 2 := by
  obtain ⟨s, ran⟩ := Option.isSome_iff_exists.mp
    (show (replay (step withFork) (List.replicate 3 (.main .go) ++ whole .t1 ++ whole .t2 ++
      List.replicate 4 (.main .go)) start).isSome from rfl)
  have reached : Reached withFork s := Reachable.refl.replay ran
  have returned : s.main = .returned 0 := by
    cases ran
    rfl
  exact ⟨s, reached, returned, (freed_twice_iff reached).2.1 returned⟩

/-! ## Without a fork -/

/-- Where the threads of `2-4.c` can be. -/
def Pc.Straight (pc : Pc) : Prop :=
  pc = .unborn ∨ pc = .readId ∨ pc = .freeArg ∨ pc = .execve

theorem straight_of_reached (straight : program.forks = false) (reached : Reached program s) :
    ∀ w, (s.worker w).Straight := by
  refine reached.invariant (fun s => ∀ w, (s.worker w).Straight) (fun _ => .inl rfl) ?_
  intro s a t before stepped
  have moved : ∀ (v : Thread) (pc : Pc), pc.Straight →
      ∀ w, (Function.update s.worker v pc w).Straight := by
    intro v pc there w
    rcases eq_or_ne w v with rfl | other
    · rw [Function.update_self]
      exact there
    · rw [Function.update_of_ne other]
      exact before w
  rcases step_cases program stepped with ⟨v, taken⟩ | taken
  · have here := before v
    cases taken with
    | readId position => exact moved v _ (.inr (.inr (.inl rfl)))
    | freeArg position =>
        simp only [straight, Bool.false_eq_true, if_false]
        exact moved v _ (.inr (.inr (.inr rfl)))
    | fork position => simp [Pc.Straight, position] at here
    | last position =>
        rcases position with position | position <;> simp [Pc.Straight, position] at here
    | execve position process => exact before
  · cases taken with
    | create1 | create2 => exact moved _ _ (.inr (.inl rfl))
    | _ => exact before

/-- **Freed once.** Without the fork no number is freed twice, and `main` is at its calls of `free`
or behind them only when no thread was created, with 1 to return. -/
theorem execve_frees_once (straight : program.forks = false) (reached : Reached program s) :
    (∀ w, s.freed w ≤ 1) ∧
      ∀ code, s.main = .free1 code ∨ s.main = .free2 code ∨ s.main = .returned code →
        code = 1 ∧ ∀ w, s.worker w = .unborn := by
  have sees := sees_of_reached reached
  have books := books_of_reached reached
  have running : ∀ w, s.worker w ≠ .ended := by
    intro w ended
    have there := straight_of_reached straight reached w
    simp [Pc.Straight, ended] at there
  refine ⟨fun w => ?_, fun code position => ?_⟩
  · have total := books.freed w
    have one := (s.worker w).frees_le
    by_cases behind : s.main.frees w = 0
    · omega
    · rw [(sees.settled behind).resolve_right (running w), Pc.frees] at total
      have other := s.main.frees_le w
      omega
  · have done : Done code s.worker := by
      rcases position with position | position | position <;> rwa [position] at sees
    rcases done with ⟨-, first, -⟩ | ⟨one, first, second⟩
    · exact absurd first (running .t1)
    · refine ⟨one, fun w => ?_⟩
      cases w with
      | t1 => exact first.resolve_right (running .t1)
      | t2 => exact second

/-- The first thread of `2-4.c` replaces the process when the second has read its number. -/
theorem execve_frees_once_replaced :
    ∃ s, Reached withoutFork s ∧ s.process = .replaced ∧ s.freed .t1 = 1 ∧
      ∀ w, s.freed w ≤ 1 := by
  obtain ⟨s, ran⟩ := Option.isSome_iff_exists.mp
    (show (replay (step withoutFork) (List.replicate 3 (.main .go) ++
      List.replicate 2 (.worker .t1 .go) ++ [.worker .t2 .go, .worker .t1 .go]) start).isSome
      from rfl)
  have reached : Reached withoutFork s := Reachable.refl.replay ran
  have replaced : s.process = .replaced := by
    cases ran
    rfl
  have once : s.freed .t1 = 1 := by
    cases ran
    rfl
  exact ⟨s, reached, replaced, once, (execve_frees_once rfl reached).1⟩

end OsLab.Execve
