import OsLab.Counter.Model

/-!
# What holds with the semaphore and without

Two invariants do not depend on the semaphore. `Joined` is what `main` knows: it prints the
counter after both threads have ended. `Bounded` is what a single thread knows: the counter,
and every value a thread has loaded, is not negative and at most the number of stores that
were executed (`stored`), so no addition overflows.

What a step does to the number of stores is said once (`WorkerTaken.stored_cases`).
-/

set_option autoImplicit false

namespace OsLab.Counter

open OsLab.Foundation

variable {program : Program} {s t : State} {w : Thread}

/-! ## What `main` waits for -/

structure Joined (s : State) : Prop where
  unborn1 : s.main = .create1 → s.worker .t1 = .unborn
  unborn2 : s.main = .create1 ∨ s.main = .create2 → s.worker .t2 = .unborn
  first : s.main = .join2 → (s.worker .t1).ended = true
  both : s.main = .print ∨ s.printed ≠ none → ∀ w, (s.worker w).ended = true
  value : ∀ v, s.printed = some v → v = s.counter

/-- A thread that has not begun or has ended makes no step. -/
theorem WorkerTaken.live (taken : WorkerTaken program s w t) :
    s.worker w ≠ .unborn ∧ (s.worker w).ended = false := by
  cases taken with
  | next position | finish position | wait position | waitFails position | load position
  | store position | post position | postFails position => simp [position, Pc.ended]

/-- What a step of a thread leaves to the others. -/
theorem WorkerTaken.frame (taken : WorkerTaken program s w t) :
    t.main = s.main ∧ t.printed = s.printed ∧ t.destroyed = s.destroyed ∧
      ∀ v, v ≠ w → t.worker v = s.worker v := by
  cases taken with
  | next | finish | wait | waitFails | load | store | post | postFails =>
      exact ⟨rfl, rfl, rfl, fun v other => Function.update_of_ne other ..⟩

theorem Joined.worker (joined : Joined s) (taken : WorkerTaken program s w t) : Joined t := by
  obtain ⟨main, printed, -, others⟩ := taken.frame
  have live := taken.live
  have unborn : ∀ v, s.worker v = .unborn → t.worker v = .unborn := by
    intro v still
    rw [others v (by rintro rfl; exact live.1 still)]
    exact still
  have ended : ∀ v, (s.worker v).ended = true → (t.worker v).ended = true := by
    intro v still
    rw [others v (by rintro rfl; rw [still] at live; cases live.2)]
    exact still
  refine ⟨?_, ?_, ?_, ?_, ?_⟩
  · rw [main]
    exact fun position => unborn _ (joined.unborn1 position)
  · rw [main]
    exact fun position => unborn _ (joined.unborn2 position)
  · rw [main]
    exact fun position => ended _ (joined.first position)
  · rw [main, printed]
    exact fun position v => ended v (joined.both position v)
  · rw [printed]
    intro v shown
    -- after printing no thread makes a step
    have all := joined.both (.inr (by rw [shown]; simp)) w
    rw [live.2] at all
    cases all

theorem leave_ne (program : Program) (code : Int) :
    leave program code ≠ .create1 ∧ leave program code ≠ .create2 ∧ leave program code ≠ .join1 ∧
      leave program code ≠ .join2 ∧ leave program code ≠ .print := by
  unfold leave
  split <;> simp

theorem Joined.main (joined : Joined s) (taken : MainTaken program s t) : Joined t := by
  cases taken with
  | create1 position =>
      refine ⟨nofun, fun _ => ?_, nofun, ?_, joined.value⟩
      · simpa [State.move] using joined.unborn2 (.inl position)
      · intro printed
        have ended := joined.both (.inr (by simpa [State.move] using printed)) .t1
        rw [joined.unborn1 position] at ended
        cases ended
  | create2 position =>
      refine ⟨nofun, by simp, nofun, ?_, joined.value⟩
      intro printed
      have ended := joined.both (.inr (by simpa [State.move] using printed)) .t2
      rw [joined.unborn2 (.inr position)] at ended
      cases ended
  | createFails position =>
      have out := leave_ne program 1
      refine ⟨fun at_ => absurd at_ out.1, ?_, fun at_ => absurd at_ out.2.2.2.1, ?_, joined.value⟩
      · exact fun at_ => (at_.elim out.1 out.2.1).elim
      · exact fun printed => joined.both (.inr (printed.resolve_left out.2.2.2.2))
  | join1 position ended =>
      refine ⟨nofun, by simp, fun _ => ended, ?_, joined.value⟩
      exact fun printed => joined.both (.inr (by simpa using printed))
  | join2 position ended =>
      refine ⟨nofun, by simp, nofun, ?_, joined.value⟩
      intro _ w
      cases w with
      | t1 => exact joined.first position
      | t2 => exact ended
  | print position =>
      have out := leave_ne program 0
      refine ⟨fun at_ => absurd at_ out.1, ?_, fun at_ => absurd at_ out.2.2.2.1, ?_, ?_⟩
      · exact fun at_ => (at_.elim out.1 out.2.1).elim
      · exact fun _ => joined.both (.inl position)
      · intro v shown
        exact (Option.some.inj shown).symm
  | destroy | ret =>
      refine ⟨nofun, by simp, nofun, ?_, joined.value⟩
      exact fun printed => joined.both (.inr (by simpa using printed))

theorem joined_start : Joined start :=
  ⟨fun _ => rfl, fun _ => rfl, nofun, by simp [start], by simp [start]⟩

theorem joined_of_reached (reached : Reached program s) : Joined s := by
  refine reached.invariant Joined joined_start ?_
  intro s a t joined stepped
  obtain ⟨-, ⟨w, taken⟩ | taken⟩ := step_cases program stepped
  · exact joined.worker taken
  · exact joined.main taken

/-! ## The stores -/

/-- The number of stores a thread has executed. -/
def Pc.stored (rounds : Nat) : Pc → Nat
  | .unborn => 0
  | .loop i | .wait i | .load i | .store i _ | .waitFailed i => i
  | .post i | .postFailed i => i + 1
  | .finished => rounds

/-- The local `i` is in the range of the loop. -/
def Pc.InLoop (rounds : Nat) : Pc → Prop
  | .unborn | .finished => True
  | .loop i => i ≤ rounds
  | .wait i | .load i | .store i _ | .post i | .waitFailed i | .postFailed i => i < rounds

/-- The stores of both threads. -/
def stores (program : Program) (s : State) : Nat :=
  (s.worker .t1).stored program.rounds + (s.worker .t2).stored program.rounds

theorem stores_move (program : Program) (s : State) (w : Thread) (pc : Pc) :
    stores program (s.move w pc) + (s.worker w).stored program.rounds =
      stores program s + pc.stored program.rounds := by
  cases w with
  | t1 =>
      simp only [stores, State.move, Function.update_self, ne_eq, reduceCtorEq,
        not_false_eq_true, Function.update_of_ne]
      omega
  | t2 =>
      simp only [stores, State.move, Function.update_self, ne_eq, reduceCtorEq,
        not_false_eq_true, Function.update_of_ne]
      omega

theorem stores_move_same {pc : Pc}
    (same : pc.stored program.rounds = (s.worker w).stored program.rounds) :
    stores program (s.move w pc) = stores program s := by
  have moved := stores_move program s w pc
  omega

/-- **What a step of a thread does to the counter.** It loads it, it stores one more than what
it has loaded, or it does neither. -/
theorem WorkerTaken.stored_cases (taken : WorkerTaken program s w t)
    (inLoop : (s.worker w).InLoop program.rounds) :
    (t.worker w).InLoop program.rounds ∧
    ((∃ i, s.worker w = .load i ∧ t = s.move w (.store i s.counter)) ∨
      (∃ i value, s.worker w = .store i value ∧ t.counter = toInt64 (value + 1) ∧
        stores program t = stores program s + 1 ∧ (t.worker w).stored program.rounds = i + 1 ∧
        ∀ j v, t.worker w ≠ .store j v) ∨
      (t.counter = s.counter ∧ stores program t = stores program s ∧
        (t.worker w).stored program.rounds = (s.worker w).stored program.rounds ∧
        ∀ j v, t.worker w ≠ .store j v)) := by
  cases taken with
  | next position more =>
      rw [position] at inLoop
      refine ⟨?_, .inr (.inr ⟨rfl, stores_move_same ?_, ?_, ?_⟩)⟩
      · rw [move_self]
        split <;> exact more
      · rw [position]
        split <;> rfl
      · rw [move_self, position]
        split <;> rfl
      · intro j v
        rw [move_self]
        split <;> simp
  | @finish i position last =>
      rw [position] at inLoop
      have all : program.rounds = i := Nat.le_antisymm last inLoop
      refine ⟨by simp [Pc.InLoop], .inr (.inr ⟨rfl, stores_move_same ?_, ?_, by simp⟩)⟩
      · rw [position]
        exact all
      · rw [move_self, position]
        exact all
  | wait position | waitFails position =>
      rw [position] at inLoop
      refine ⟨?_, .inr (.inr ⟨rfl, stores_move_same ?_, ?_, by simp [State.move]⟩)⟩
      · simp only [State.move, Function.update_self]
        exact inLoop
      · rw [position]
        rfl
      · simp [State.move, position, Pc.stored]
  | load position =>
      rw [position] at inLoop
      refine ⟨?_, .inl ⟨_, position, rfl⟩⟩
      rw [move_self]
      exact inLoop
  | @store i value position =>
      rw [position] at inLoop
      refine ⟨?_, .inr (.inl ⟨i, value, position, rfl, ?_, ?_, ?_⟩)⟩
      · simp only [State.move, Function.update_self]
        split <;> exact inLoop
      · have moved := stores_move program s w
          (if program.semaphore then .post i else .loop (i + 1))
        rw [position] at moved
        have after : (if program.semaphore then Pc.post i else .loop (i + 1)).stored
            program.rounds = i + 1 := by split <;> rfl
        rw [after] at moved
        simp only [Pc.stored] at moved
        have same : stores program
            { s.move w (if program.semaphore then .post i else .loop (i + 1)) with
              counter := toInt64 (value + 1) } =
            stores program (s.move w (if program.semaphore then .post i else .loop (i + 1))) := rfl
        omega
      · simp only [State.move, Function.update_self]
        split <;> rfl
      · intro j v
        simp only [State.move, Function.update_self]
        split <;> simp
  | post position | postFails position =>
      rw [position] at inLoop
      refine ⟨?_, .inr (.inr ⟨rfl, stores_move_same ?_, ?_, by simp [State.move]⟩)⟩
      · simp only [State.move, Function.update_self]
        exact inLoop
      · rw [position]
        rfl
      · simp [State.move, position, Pc.stored]

/-- What `main` does to the counter: nothing. -/
theorem MainTaken.stored (joined : Joined s) (taken : MainTaken program s t) :
    t.counter = s.counter ∧ ∀ w, t.worker w = s.worker w ∨
      (s.worker w = .unborn ∧ t.worker w = .loop 0) := by
  cases taken with
  | create1 position =>
      refine ⟨rfl, fun w => ?_⟩
      cases w with
      | t1 => exact .inr ⟨joined.unborn1 position, by simp [State.move]⟩
      | t2 => exact .inl (by simp [State.move])
  | create2 position =>
      refine ⟨rfl, fun w => ?_⟩
      cases w with
      | t1 => exact .inl (by simp [State.move])
      | t2 => exact .inr ⟨joined.unborn2 (.inr position), by simp [State.move]⟩
  | createFails | join1 | join2 | print | destroy | ret => exact ⟨rfl, fun w => .inl rfl⟩

theorem MainTaken.stores_eq (joined : Joined s) (taken : MainTaken program s t) :
    stores program t = stores program s := by
  have same : ∀ w, (t.worker w).stored program.rounds = (s.worker w).stored program.rounds := by
    intro w
    rcases (taken.stored joined).2 w with kept | ⟨unborn, begun⟩
    · rw [kept]
    · rw [unborn, begun]
      rfl
  rw [stores, same, same, stores]

/-! ## No overflow -/

structure Bounded (program : Program) (s : State) : Prop where
  inLoop : ∀ w, (s.worker w).InLoop program.rounds
  counter : 0 ≤ s.counter ∧ s.counter ≤ stores program s
  loaded : ∀ w i value, s.worker w = .store i value → 0 ≤ value ∧ value ≤ stores program s

theorem stored_le {pc : Pc} {rounds : Nat} (inLoop : pc.InLoop rounds) :
    pc.stored rounds ≤ rounds := by
  cases pc with
  | unborn => exact Nat.zero_le _
  | finished => exact Nat.le_refl _
  | loop i => exact inLoop
  | wait i | load i | store i value | waitFailed i => exact Nat.le_of_lt inLoop
  | post i | postFailed i => exact inLoop

theorem Bounded.stores_le (bounded : Bounded program s) : stores program s ≤ 2 * program.rounds := by
  have one := stored_le (bounded.inLoop .t1)
  have two := stored_le (bounded.inLoop .t2)
  rw [stores]
  omega

/-- The value that is stored is what was loaded plus one. -/
theorem Bounded.add_one (bounded : Bounded program s)
    (small : 2 * (program.rounds : Int) < 9223372036854775807) {i : Nat} {value : Int}
    (position : s.worker w = .store i value) : toInt64 (value + 1) = value + 1 := by
  have loaded := bounded.loaded w i value position
  have few := bounded.stores_le
  exact toInt64_of_mem (by omega) (by omega)

theorem Bounded.worker (bounded : Bounded program s)
    (small : 2 * (program.rounds : Int) < 9223372036854775807)
    (taken : WorkerTaken program s w t) : Bounded program t := by
  obtain ⟨inLoop, effect⟩ := taken.stored_cases (bounded.inLoop w)
  have others := taken.frame.2.2.2
  have loops : ∀ v, (t.worker v).InLoop program.rounds := by
    intro v
    rcases eq_or_ne v w with rfl | other
    · exact inLoop
    · rw [others v other]
      exact bounded.inLoop v
  rcases effect with ⟨i, at_, rfl⟩ | ⟨i, value, position, counter, more, -, noStore⟩ |
    ⟨counter, same, -, noStore⟩
  · have same : stores program (s.move w (.store i s.counter)) = stores program s :=
      stores_move_same (by rw [at_]; rfl)
    refine ⟨loops, ?_, ?_⟩
    · rw [same]
      exact bounded.counter
    · intro v j value position
      rw [same]
      rcases eq_or_ne v w with rfl | other
      · rw [move_self, Pc.store.injEq] at position
        rw [← position.2]
        exact bounded.counter
      · rw [move_other _ _ other] at position
        exact bounded.loaded v j value position
  · have loaded := bounded.loaded w i value position
    refine ⟨loops, ?_, ?_⟩
    · rw [counter, more, bounded.add_one small position]
      omega
    · intro v j value' position'
      rcases eq_or_ne v w with rfl | other
      · exact absurd position' (noStore j value')
      · rw [others v other] at position'
        have before := bounded.loaded v j value' position'
        omega
  · refine ⟨loops, ?_, ?_⟩
    · rw [counter, same]
      exact bounded.counter
    · intro v j value' position'
      rcases eq_or_ne v w with rfl | other
      · exact absurd position' (noStore j value')
      · rw [others v other] at position'
        rw [same]
        exact bounded.loaded v j value' position'

theorem Bounded.main (bounded : Bounded program s) (joined : Joined s)
    (taken : MainTaken program s t) : Bounded program t := by
  obtain ⟨counter, workers⟩ := taken.stored joined
  have same := taken.stores_eq joined
  refine ⟨fun w => ?_, ?_, fun w i value position => ?_⟩
  · rcases workers w with kept | ⟨-, begun⟩
    · rw [kept]
      exact bounded.inLoop w
    · rw [begun]
      exact Nat.zero_le _
  · rw [counter, same]
    exact bounded.counter
  · rw [same]
    rcases workers w with kept | ⟨-, begun⟩
    · rw [kept] at position
      exact bounded.loaded w i value position
    · rw [begun] at position
      cases position

theorem bounded_of_reached (small : 2 * (program.rounds : Int) < 9223372036854775807)
    (reached : Reached program s) : Bounded program s := by
  refine (reached.invariant (fun s => Joined s ∧ Bounded program s) ⟨joined_start, ?_⟩ ?_).2
  · exact ⟨fun w => trivial, ⟨Int.le_refl 0, Int.natCast_nonneg _⟩, by simp [start]⟩
  · intro s a t both stepped
    obtain ⟨joined, bounded⟩ := both
    obtain ⟨-, ⟨w, taken⟩ | taken⟩ := step_cases program stepped
    · exact ⟨joined.worker taken, bounded.worker small taken⟩
    · exact ⟨joined.main taken, bounded.main joined taken⟩

end OsLab.Counter
