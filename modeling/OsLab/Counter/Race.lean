import OsLab.Counter.Counting

/-!
# The race

Without the semaphore a store can write over stores of the other thread. `counter_range_iff`
says exactly what can be printed: every number from 2 to twice the rounds, and no other.

That there are no more than stores is `Bounded`. That two always remain is `Remaining`: a
thread in its second round or later has loaded at least 1, so whatever it stores is at least
2, and the last of all stores is one of these. The runs that print the numbers are those in
which one thread holds a value it has loaded while the other goes on (`prints_high`,
`prints_low`).
-/

set_option autoImplicit false

namespace OsLab.Counter

open OsLab.Foundation

variable {program : Program} {s t : State} {w : Thread}

/-! ## What cannot be lost -/

structure Remaining (program : Program) (s : State) : Prop where
  one : ∀ w, 1 ≤ (s.worker w).stored program.rounds → 1 ≤ s.counter
  loaded : ∀ w i value, s.worker w = .store i value → 1 ≤ i → 1 ≤ value
  two : (∀ w, 2 ≤ (s.worker w).stored program.rounds) → 2 ≤ s.counter

theorem Remaining.worker (remaining : Remaining program s) (bounded : Bounded program s)
    (small : 2 * (program.rounds : Int) < 9223372036854775807)
    (taken : WorkerTaken program s w t) : Remaining program t := by
  obtain ⟨-, effect⟩ := taken.stored_cases (bounded.inLoop w)
  have others := taken.frame.2.2.2
  rcases effect with ⟨i, position, rfl⟩ | ⟨i, value, position, counter, -, stored, noStore⟩ |
    ⟨counter, -, stored, noStore⟩
  · have same : ∀ v, ((s.move w (.store i s.counter)).worker v).stored program.rounds =
        (s.worker v).stored program.rounds := by
      intro v
      rcases eq_or_ne v w with rfl | other
      · rw [move_self, position]
        rfl
      · rw [move_other _ _ other]
    refine ⟨fun v => ?_, fun v j value loads late => ?_, fun all => ?_⟩
    · rw [same]
      exact remaining.one v
    · rcases eq_or_ne v w with rfl | other
      · rw [move_self, Pc.store.injEq] at loads
        -- what it loads is no less than 1, because its own first store was executed
        have before : 1 ≤ s.counter := by
          refine remaining.one v ?_
          rw [position, Pc.stored, loads.1]
          exact late
        rw [← loads.2]
        exact before
      · rw [move_other _ _ other] at loads
        exact remaining.loaded v j value loads late
    · refine remaining.two fun v => ?_
      rw [← same]
      exact all v
  · have after : t.counter = value + 1 := counter.trans (bounded.add_one small position)
    have low := bounded.loaded w i value position
    refine ⟨fun _ _ => by omega, fun v j value' loads late => ?_, fun all => ?_⟩
    · rcases eq_or_ne v w with rfl | other
      · exact absurd loads (noStore j value')
      · rw [others v other] at loads
        exact remaining.loaded v j value' loads late
    · have second := all w
      rw [stored] at second
      have atLeast := remaining.loaded w i value position (by omega)
      omega
  · have same : ∀ v, (t.worker v).stored program.rounds = (s.worker v).stored program.rounds := by
      intro v
      rcases eq_or_ne v w with rfl | other
      · exact stored
      · rw [others v other]
    refine ⟨fun v => ?_, fun v j value loads late => ?_, fun all => ?_⟩
    · rw [same, counter]
      exact remaining.one v
    · rcases eq_or_ne v w with rfl | other
      · exact absurd loads (noStore j value)
      · rw [others v other] at loads
        exact remaining.loaded v j value loads late
    · rw [counter]
      exact remaining.two fun v => by rw [← same]; exact all v

theorem Remaining.main (remaining : Remaining program s) (joined : Joined s)
    (taken : MainTaken program s t) : Remaining program t := by
  obtain ⟨counter, workers⟩ := taken.stored joined
  have same : ∀ v, (t.worker v).stored program.rounds = (s.worker v).stored program.rounds := by
    intro v
    rcases workers v with kept | ⟨unborn, begun⟩
    · rw [kept]
    · rw [unborn, begun]
      rfl
  refine ⟨fun v => ?_, fun v j value loads late => ?_, fun all => ?_⟩
  · rw [same, counter]
    exact remaining.one v
  · rcases workers v with kept | ⟨-, begun⟩
    · rw [kept] at loads
      exact remaining.loaded v j value loads late
    · rw [begun] at loads
      cases loads
  · rw [counter]
    exact remaining.two fun v => by rw [← same]; exact all v

theorem remaining_of_reached (small : 2 * (program.rounds : Int) < 9223372036854775807)
    (reached : Reached program s) : Remaining program s := by
  refine (reached.invariant (fun s => Reached program s ∧ Remaining program s) ⟨.refl, ?_⟩ ?_).2
  · refine ⟨fun w some => ?_, fun w i value loads => ?_, fun all => ?_⟩
    · simp [start, Pc.stored] at some
    · cases loads
    · have := all .t1
      simp [start, Pc.stored] at this
  · intro s a t both stepped
    obtain ⟨reached, remaining⟩ := both
    refine ⟨reached.next stepped, ?_⟩
    obtain ⟨-, ⟨w, taken⟩ | taken⟩ := step_cases program stepped
    · exact remaining.worker (bounded_of_reached small reached) small taken
    · exact remaining.main (joined_of_reached reached) taken

/-- At a call on the semaphore, or ended by one. -/
def Pc.synchronised : Pc → Bool
  | .wait _ | .post _ | .waitFailed _ | .postFailed _ => true
  | _ => false

/-- Without the semaphore no thread comes to a call on it. -/
theorem unsynchronised (noSemaphore : program.semaphore = false) (reached : Reached program s)
    (w : Thread) : (s.worker w).synchronised = false := by
  refine (reached.invariant (fun s => Joined s ∧ ∀ w, (s.worker w).synchronised = false)
    ⟨joined_start, fun _ => rfl⟩ ?_).2 w
  intro s a t both stepped
  obtain ⟨joined, free⟩ := both
  obtain ⟨-, ⟨w, taken⟩ | taken⟩ := step_cases program stepped
  · refine ⟨joined.worker taken, fun v => ?_⟩
    rcases eq_or_ne v w with rfl | other
    · have here := free v
      cases taken with
      | next | store => simp [State.move, noSemaphore, Pc.synchronised]
      | finish | load => simp [Pc.synchronised]
      | wait position | waitFails position | post position | postFails position =>
          rw [position] at here
          cases here
    · rw [taken.frame.2.2.2 v other]
      exact free v
  · refine ⟨joined.main taken, fun v => ?_⟩
    rcases (taken.stored joined).2 v with kept | ⟨-, begun⟩
    · rw [kept]
      exact free v
    · rw [begun]
      rfl

/-! ## Threads that hold a value -/

/-- Both threads run, thread `w` at `pc` and the other one at `pc'`. -/
def pair (w : Thread) (pc pc' : Pc) (counter : Int) : State :=
  { start with
    counter := counter
    worker := fun v => if v = w then pc else pc'
    main := .join1 }

theorem pair_swap (w : Thread) (pc pc' : Pc) (counter : Int) :
    pair w pc pc' counter = pair w.other pc' pc counter := by
  simp only [pair, State.mk.injEq, true_and, and_true]
  funext v
  cases w <;> cases v <;> rfl

theorem pair_move (w : Thread) (pc pc' pc'' : Pc) (counter counter' : Int) :
    { (pair w pc pc' counter).move w pc'' with counter := counter' } = pair w pc'' pc' counter' := by
  simp only [pair, State.move, State.mk.injEq, true_and, and_true]
  funext v
  rcases eq_or_ne v w with rfl | other
  · simp
  · simp [other]

variable {pc' : Pc} {counter : Int}

theorem reached_pair (program : Program) : Reached program (pair .t1 (.loop 0) (.loop 0) 0) := by
  have ran : replay (step program) [.main .go, .main .go] start =
      some (pair .t1 (.loop 0) (.loop 0) 0) := by
    simp only [replay, step, main, start, MainPc.over, Bool.false_eq_true, if_false, pair,
      Option.some.injEq, State.move, State.mk.injEq, true_and, and_true]
    funext v
    cases v <;> rfl
  exact Reachable.refl.replay ran

theorem Reached.swap {pc : Pc} (reached : Reached program (pair w pc pc' counter)) :
    Reached program (pair w.other pc' pc counter) := by
  rwa [← pair_swap]

/-- The load of the next round. -/
theorem Reached.load (noSemaphore : program.semaphore = false) {i : Nat} (more : i < program.rounds)
    (reached : Reached program (pair w (.loop i) pc' counter)) :
    Reached program (pair w (.store i counter) pc' counter) := by
  have loads : Reached program (pair w (.load i) pc' counter) := by
    refine reached.next (a := .worker w .go) ?_
    simp only [step, pair, MainPc.over, worker, Bool.false_eq_true, if_false, if_true, if_pos more,
      noSemaphore]
    exact congrArg some (pair_move w (.loop i) pc' (.load i) counter counter)
  refine loads.next (a := .worker w .go) ?_
  simp only [step, pair, MainPc.over, worker, Bool.false_eq_true, if_false, if_true]
  exact congrArg some (pair_move w (.load i) pc' (.store i counter) counter counter)

theorem Reached.store (noSemaphore : program.semaphore = false) {i : Nat} {value : Int}
    (low : 0 ≤ value) (high : value < 9223372036854775807)
    (reached : Reached program (pair w (.store i value) pc' counter)) :
    Reached program (pair w (.loop (i + 1)) pc' (value + 1)) := by
  refine reached.next (a := .worker w .go) ?_
  simp only [step, pair, MainPc.over, worker, Bool.false_eq_true, if_false, if_true, noSemaphore,
    toInt64_of_mem (by omega : 0 ≤ value + 1) (by omega)]
  exact congrArg some (pair_move w (.store i value) pc' (.loop (i + 1)) counter (value + 1))

/-- A thread takes `k` rounds without the other. -/
theorem Reached.rounds (noSemaphore : program.semaphore = false) {i : Nat} (k : Nat)
    (inside : i + k ≤ program.rounds) (low : 0 ≤ counter)
    (high : counter + k ≤ 9223372036854775807)
    (reached : Reached program (pair w (.loop i) pc' counter)) :
    Reached program (pair w (.loop (i + k)) pc' (counter + k)) := by
  induction k with
  | zero => simpa using reached
  | succ k ih =>
      have before := ih (by omega) (by omega)
      have after := (before.load noSemaphore (by omega)).store noSemaphore (by omega) (by omega)
      rwa [Int.natCast_succ, ← Int.add_assoc]

/-! ## What can be printed -/

/-- `value` is printed in some interleaving. -/
def Prints (program : Program) (value : Int) : Prop :=
  ∃ s, Reached program s ∧ s.printed = some value

/-- When both loops are through, `main` prints the counter. -/
theorem prints_of_finished
    (reached : Reached program (pair w (.loop program.rounds) (.loop program.rounds) counter)) :
    Prints program counter := by
  have finished : Reached program (pair w .finished .finished counter) := by
    have one : Reached program (pair w .finished (.loop program.rounds) counter) := by
      refine reached.next (a := .worker w .go) ?_
      simp only [step, pair, MainPc.over, worker, Bool.false_eq_true, if_false, if_true,
        Nat.lt_irrefl]
      exact congrArg some (pair_move w (.loop _) (.loop _) .finished counter counter)
    rw [pair_swap] at one
    rw [pair_swap]
    refine one.next (a := .worker w.other .go) ?_
    simp only [step, pair, MainPc.over, worker, Bool.false_eq_true, if_false, if_true,
      Nat.lt_irrefl]
    exact congrArg some (pair_move w.other (.loop _) .finished .finished counter counter)
  refine ⟨{ pair w .finished .finished counter with
    main := leave program 0, printed := some counter }, ?_, rfl⟩
  refine finished.replay (?_ : replay (step program) [.main .go, .main .go, .main .go] _ = _)
  simp [replay, step, main, pair, MainPc.over, Pc.ended]

/-- While one thread is in its first round, the other takes `k` rounds that are lost. -/
theorem prints_high (noSemaphore : program.semaphore = false)
    (small : 2 * (program.rounds : Int) < 9223372036854775807) (some : 1 ≤ program.rounds)
    {k : Nat} (lost : k ≤ program.rounds) : Prints program (2 * program.rounds - k) := by
  have held := (reached_pair program).load noSemaphore some
  have others := held.swap.rounds noSemaphore k (by omega) (by omega) (by omega)
  have stored := others.swap.store noSemaphore (by omega) (by omega)
  have mine := stored.rounds noSemaphore (program.rounds - 1) (by omega) (by omega) (by omega)
  have rest := mine.swap.rounds noSemaphore (program.rounds - k) (by omega) (by omega) (by omega)
  rw [Nat.zero_add, Nat.zero_add, Nat.add_sub_cancel' lost, Nat.add_sub_cancel' some] at rest
  have same : (0 : Int) + 1 + (program.rounds - 1 : Nat) + (program.rounds - k : Nat) =
      2 * program.rounds - k := by omega
  rw [same] at rest
  exact prints_of_finished rest

/-- The first round of one thread undoes all rounds but the last of the other, and then the
last round of that one undoes all but `1 + j` of the first. -/
theorem prints_low (noSemaphore : program.semaphore = false)
    (small : 2 * (program.rounds : Int) < 9223372036854775807) {j : Nat}
    (kept : j + 1 ≤ program.rounds) : Prints program (2 + j) := by
  have held := (reached_pair program).load noSemaphore (by omega)
  have others := held.swap.rounds noSemaphore (program.rounds - 1) (by omega) (by omega) (by omega)
  have stored := others.swap.store noSemaphore (by omega) (by omega)
  have mine := stored.rounds noSemaphore j (by omega) (by omega) (by omega)
  have last := mine.swap.load noSemaphore (by omega)
  have rest := last.swap.rounds noSemaphore (program.rounds - 1 - j) (by omega) (by omega)
    (by omega)
  have final := rest.swap.store noSemaphore (by omega) (by omega)
  have first : 0 + (program.rounds - 1) + 1 = program.rounds := by omega
  have second : 0 + 1 + j + (program.rounds - 1 - j) = program.rounds := by omega
  have same : (0 : Int) + 1 + j + 1 = 2 + j := by omega
  rw [first, second, same] at final
  exact prints_of_finished final

/-- **What the race can print.** With at least two rounds, and as long as no addition
overflows, the numbers that the interleavings print are those from 2 to twice the rounds. -/
theorem counter_range_iff (noSemaphore : program.semaphore = false) (rounds : 2 ≤ program.rounds)
    (small : 2 * (program.rounds : Int) < 9223372036854775807) (value : Int) :
    Prints program value ↔ 2 ≤ value ∧ value ≤ 2 * program.rounds := by
  constructor
  · rintro ⟨s, reached, printed⟩
    have joined := joined_of_reached reached
    have bounded := bounded_of_reached small reached
    rw [joined.value value printed]
    refine ⟨(remaining_of_reached small reached).two fun w => ?_, ?_⟩
    · -- without the semaphore a thread ends with its last round
      have ended := joined.both (.inr (by rw [printed]; simp)) w
      have free := unsynchronised noSemaphore reached w
      cases position : s.worker w with
      | finished => exact rounds
      | unborn | loop i | wait i | load i | store i value | post i =>
          rw [position] at ended
          cases ended
      | waitFailed i | postFailed i =>
          rw [position] at free
          cases free
    · have few := bounded.stores_le
      have high := bounded.counter.2
      omega
  · rintro ⟨low, high⟩
    rcases Int.lt_or_le value (program.rounds + 2) with below | above
    · obtain ⟨j, rfl⟩ : ∃ j : Nat, value = 2 + j := ⟨(value - 2).toNat, by omega⟩
      exact prints_low noSemaphore small (by omega)
    · obtain ⟨k, rfl⟩ : ∃ k : Nat, value = 2 * program.rounds - k :=
        ⟨(2 * program.rounds - value).toNat, by omega⟩
      exact prints_high noSemaphore small (by omega) (by omega)

/-- `2-1.c` can print 2. -/
theorem counter_range_iff_two : Prints withoutSemaphore 2 :=
  (@counter_range_iff withoutSemaphore rfl (by decide) (by decide) 2).mpr (by decide)

end OsLab.Counter
