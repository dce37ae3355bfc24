import OsLab.Counter.Counting
import OsLab.Foundation.Progress

/-!
# The semaphore

With the semaphore exactly one of four things has its permit (`Permit`): the semaphore itself,
a thread between `sem_wait` and `sem_post`, or a thread whose `sem_post` has failed, which
keeps it for ever. So a thread that stores has loaded the present value, and no addition is
lost, also when calls fail (`semaphore_counts`).

A failed `sem_post` costs the permit. `semaphore_completes` says what becomes of the program
when no `sem_wait` fails: every run comes to the end of the process, or to a state in which one
thread has failed in `sem_post` and `main` waits for the other, which waits for the permit.
-/

set_option autoImplicit false

namespace OsLab.Counter

open OsLab.Foundation

variable {program : Program} {s t : State} {w : Thread}

/-! ## The permit -/

/-- Between `sem_wait` and `sem_post`. -/
def Pc.inside : Pc → Bool
  | .load _ | .store _ _ | .post _ => true
  | _ => false

/-- The permits a thread has. -/
def Pc.permits : Pc → Nat
  | .load _ | .store _ _ | .post _ | .postFailed _ => 1
  | _ => 0

/-- There is one permit. -/
def Permit (sem : Nat) (worker : Thread → Pc) : Prop :=
  sem + (worker .t1).permits + (worker .t2).permits = 1

/-- A thread takes from the semaphore what it gains, or gives what it loses. -/
theorem Permit.update {sem sem' : Nat} {worker : Thread → Pc} {pc : Pc}
    (permit : Permit sem worker) (balance : sem' + pc.permits = sem + (worker w).permits) :
    Permit sem' (Function.update worker w pc) := by
  unfold Permit at permit ⊢
  cases w with
  | t1 =>
      rw [Function.update_self, Function.update_of_ne (by decide : Thread.t2 ≠ .t1)]
      omega
  | t2 =>
      rw [Function.update_self, Function.update_of_ne (by decide : Thread.t1 ≠ .t2)]
      omega

theorem Permit.worker (permit : Permit s.sem s.worker) (semaphore : program.semaphore = true)
    (taken : WorkerTaken program s w t) : Permit t.sem t.worker := by
  cases taken with
  | next position =>
      refine permit.update ?_
      rw [position, semaphore]
      rfl
  | finish position | waitFails position | load position | postFails position =>
      refine permit.update ?_
      rw [position]
      rfl
  | wait position free =>
      refine permit.update ?_
      rw [position]
      exact Nat.sub_add_cancel free
  | store position =>
      refine permit.update ?_
      rw [position, semaphore]
      rfl
  | post position =>
      refine permit.update ?_
      rw [position]
      rfl

theorem Permit.main (permit : Permit s.sem s.worker) (joined : Joined s)
    (taken : MainTaken program s t) : Permit t.sem t.worker := by
  cases taken with
  | create1 position =>
      refine permit.update ?_
      rw [joined.unborn1 position]
      rfl
  | create2 position =>
      refine permit.update ?_
      rw [joined.unborn2 (.inr position)]
      rfl
  | createFails | join1 | join2 | print | destroy | ret => exact permit

theorem permit_of_reached (semaphore : program.semaphore = true) (reached : Reached program s) :
    Permit s.sem s.worker := by
  refine (reached.invariant (fun s => Joined s ∧ Permit s.sem s.worker) ⟨joined_start, rfl⟩ ?_).2
  intro s a t both stepped
  obtain ⟨joined, permit⟩ := both
  obtain ⟨-, ⟨w, taken⟩ | taken⟩ := step_cases program stepped
  · exact ⟨joined.worker taken, permit.worker semaphore taken⟩
  · exact ⟨joined.main taken, permit.main joined taken⟩

theorem permits_of_inside {pc : Pc} (inside : pc.inside = true) : pc.permits = 1 := by
  cases pc with
  | load i | store i value | post i => rfl
  | unborn | loop i | wait i | finished | waitFailed i | postFailed i => cases inside

/-- No two threads have the permit. -/
theorem Permit.unique {sem : Nat} {worker : Thread → Pc} (permit : Permit sem worker)
    {v : Thread} (first : (worker v).permits = 1) (second : (worker w).permits = 1) : v = w := by
  by_contra different
  unfold Permit at permit
  cases v <;> cases w <;> first | exact different rfl | omega

/-! ## The count -/

/-- No addition is lost: the counter is the number of stores, and a thread that has loaded it
has loaded the present value. -/
structure Exact (program : Program) (s : State) : Prop where
  counter : s.counter = stores program s
  loaded : ∀ w i value, s.worker w = .store i value → value = s.counter

theorem Exact.worker (exact_ : Exact program s) (permit : Permit s.sem s.worker)
    (bounded : Bounded program s) (small : 2 * (program.rounds : Int) < 9223372036854775807)
    (taken : WorkerTaken program s w t) : Exact program t := by
  obtain ⟨-, effect⟩ := taken.stored_cases (bounded.inLoop w)
  have others := taken.frame.2.2.2
  rcases effect with ⟨i, position, rfl⟩ | ⟨i, value, position, counter, more, -, noStore⟩ |
    ⟨counter, same, -, noStore⟩
  · have same : stores program (s.move w (.store i s.counter)) = stores program s :=
      stores_move_same (by rw [position]; rfl)
    refine ⟨?_, fun v j value loads => ?_⟩
    · rw [same]
      exact exact_.counter
    · rcases eq_or_ne v w with rfl | other
      · rw [move_self, Pc.store.injEq] at loads
        exact loads.2.symm
      · rw [move_other _ _ other] at loads
        exact exact_.loaded v j value loads
  · refine ⟨?_, fun v j value' loads => ?_⟩
    · rw [counter, bounded.add_one small position, exact_.loaded w i value position,
        exact_.counter, more]
      rfl
    · rcases eq_or_ne v w with rfl | other
      · exact absurd loads (noStore j value')
      · -- the other thread would have the permit as well
        rw [others v other] at loads
        exact absurd (permit.unique (by rw [loads]; rfl) (by rw [position]; rfl)) other
  · refine ⟨?_, fun v j value' loads => ?_⟩
    · rw [counter, same]
      exact exact_.counter
    · rw [counter]
      rcases eq_or_ne v w with rfl | other
      · exact absurd loads (noStore j value')
      · rw [others v other] at loads
        exact exact_.loaded v j value' loads

theorem Exact.main (exact_ : Exact program s) (joined : Joined s) (taken : MainTaken program s t) :
    Exact program t := by
  obtain ⟨counter, workers⟩ := taken.stored joined
  refine ⟨?_, fun w i value loads => ?_⟩
  · rw [counter, taken.stores_eq joined]
    exact exact_.counter
  · rw [counter]
    rcases workers w with kept | ⟨-, begun⟩
    · rw [kept] at loads
      exact exact_.loaded w i value loads
    · rw [begun] at loads
      cases loads

theorem exact_of_reached (semaphore : program.semaphore = true)
    (small : 2 * (program.rounds : Int) < 9223372036854775807) (reached : Reached program s) :
    Exact program s := by
  refine (reached.invariant (fun s => Reached program s ∧ Exact program s) ⟨.refl, ?_⟩ ?_).2
  · exact ⟨rfl, fun w i value loads => (nomatch loads)⟩
  · intro s a t both stepped
    obtain ⟨reached, exact_⟩ := both
    refine ⟨reached.next stepped, ?_⟩
    obtain ⟨-, ⟨w, taken⟩ | taken⟩ := step_cases program stepped
    · exact exact_.worker (permit_of_reached semaphore reached) (bounded_of_reached small reached)
        small taken
    · exact exact_.main (joined_of_reached reached) taken

/-! ## What was reported -/

/-- On the way to `return`. -/
def MainPc.leaving : MainPc → Bool
  | .destroy _ | .ret _ | .returned _ => true
  | _ => false

@[simp] theorem leaving_leave (code : Int) : (leave program code).leaving = true := by
  unfold leave
  split <;> rfl

/-- What is known of the errors: every thread that failed has reported it, and while `main`
leaves, a thread runs only if the second `pthread_create` has failed. -/
structure Reported (s : State) : Prop where
  failed : s.errors = [] → ∀ w i, s.worker w ≠ .waitFailed i ∧ s.worker w ≠ .postFailed i
  destroyed : s.destroyed = true → s.main.leaving = true
  leaving : s.main.leaving = true →
    (∀ w, (s.worker w).ended = true ∨ s.worker w = .unborn) ∨ "pthread_create t2" ∈ s.errors
  misused : s.misused = true → "pthread_create t2" ∈ s.errors

theorem WorkerTaken.errors (taken : WorkerTaken program s w t) : s.errors ⊆ t.errors := by
  cases taken with
  | waitFails | postFails => exact List.subset_append_left ..
  | next | finish | wait | load | store | post => exact List.Subset.refl _

theorem Reported.worker (reported : Reported s) (taken : WorkerTaken program s w t) :
    Reported t := by
  obtain ⟨main, -, destroyed, others⟩ := taken.frame
  have longer := taken.errors
  have late : s.main.leaving = true → "pthread_create t2" ∈ s.errors := by
    intro leaves
    refine (reported.leaving leaves).resolve_left fun all => ?_
    rcases all w with ended | unborn
    · rw [taken.live.2] at ended
      cases ended
    · exact taken.live.1 unborn
  refine ⟨fun none v i => ?_, ?_, fun leaves => .inr ?_, fun bad => ?_⟩
  · have before : s.errors = [] := List.eq_nil_of_subset_nil (none ▸ longer)
    rcases eq_or_ne v w with rfl | other
    · cases taken with
      | next | store =>
          simp only [State.move, Function.update_self]
          split <;> simp
      | finish | wait | load | post => simp [State.move]
      | waitFails | postFails => simp at none
    · rw [others v other]
      exact reported.failed before v i
  · rw [destroyed, main]
    exact reported.destroyed
  · rw [main] at leaves
    exact longer (late leaves)
  · cases taken with
    | wait | waitFails | post | postFails =>
        rcases Bool.or_eq_true_iff.mp bad with before | now
        · exact longer (reported.misused before)
        · exact longer (late (reported.destroyed now))
    | next | finish | load | store => exact reported.misused bad

theorem Reported.main (reported : Reported s) (joined : Joined s)
    (taken : MainTaken program s t) : Reported t := by
  have early : ∀ {p : MainPc}, s.main = p → p.leaving = false → s.destroyed = true → False := by
    intro p position stays gone
    have leaves := reported.destroyed gone
    rw [position, stays] at leaves
    cases leaves
  cases taken with
  | create1 position =>
      refine ⟨fun none w i => ?_, fun gone => (early position rfl gone).elim, by simp [MainPc.leaving],
        reported.misused⟩
      cases w with
      | t1 => simp [State.move]
      | t2 => simpa [State.move] using reported.failed none .t2 i
  | create2 position =>
      refine ⟨fun none w i => ?_, fun gone => (early position rfl gone).elim, by simp [MainPc.leaving],
        reported.misused⟩
      cases w with
      | t1 => simpa [State.move] using reported.failed none .t1 i
      | t2 => simp [State.move]
  | createFails position =>
      refine ⟨fun none => by simp at none, fun _ => leaving_leave 1, fun _ => ?_,
        fun bad => List.mem_append_left _ (reported.misused bad)⟩
      rcases position with position | ⟨-, rfl⟩
      · refine .inl fun w => .inr ?_
        cases w with
        | t1 => exact joined.unborn1 position
        | t2 => exact joined.unborn2 (.inl position)
      · exact .inr (List.mem_append_right _ (List.mem_singleton_self _))
  | join1 position | join2 position =>
      exact ⟨reported.failed, fun gone => (early position rfl gone).elim, by simp [MainPc.leaving],
        reported.misused⟩
  | print position =>
      refine ⟨reported.failed, fun _ => leaving_leave 0, fun _ => .inl fun w => .inl ?_,
        reported.misused⟩
      exact joined.both (.inl position) w
  | destroy position | ret position =>
      refine ⟨reported.failed, fun _ => rfl, fun _ => reported.leaving ?_, reported.misused⟩
      rw [position]
      rfl

theorem reported_of_reached (reached : Reached program s) : Reported s := by
  refine (reached.invariant (fun s => Joined s ∧ Reported s) ⟨joined_start, ?_⟩ ?_).2
  · exact ⟨fun _ w i => ⟨nofun, nofun⟩, nofun, nofun, nofun⟩
  · intro s a t both stepped
    obtain ⟨joined, reported⟩ := both
    obtain ⟨-, ⟨w, taken⟩ | taken⟩ := step_cases program stepped
    · exact ⟨joined.worker taken, reported.worker taken⟩
    · exact ⟨joined.main taken, reported.main joined taken⟩

/-- **The semaphore excludes, and no addition is lost.** In every state of every interleaving,
whatever calls have failed, at most one thread is between `sem_wait` and `sem_post`, the
semaphore is 0 or 1, and the counter is the number of stores that were executed. What is
printed is that number, and twice the rounds if no call has failed. The semaphore is used after
it was destroyed only if the second `pthread_create` has failed. -/
theorem semaphore_counts (semaphore : program.semaphore = true)
    (small : 2 * (program.rounds : Int) < 9223372036854775807) (reached : Reached program s) :
    (∀ v w, (s.worker v).inside = true → (s.worker w).inside = true → v = w) ∧ s.sem ≤ 1 ∧
      s.counter = stores program s ∧
      (∀ value, s.printed = some value → value = stores program s ∧
        (s.errors = [] → value = 2 * program.rounds)) ∧
      (s.misused = true → "pthread_create t2" ∈ s.errors) := by
  have permit := permit_of_reached semaphore reached
  have exact_ := exact_of_reached semaphore small reached
  have joined := joined_of_reached reached
  have reported := reported_of_reached reached
  refine ⟨fun v w first second => ?_, ?_, exact_.counter, fun value printed => ?_,
    reported.misused⟩
  · exact permit.unique (permits_of_inside first) (permits_of_inside second)
  · unfold Permit at permit
    omega
  · have shown := joined.value value printed
    rw [exact_.counter] at shown
    refine ⟨shown, fun noErrors => ?_⟩
    have finished : ∀ w, s.worker w = .finished := by
      intro w
      have ended := joined.both (.inr (by rw [printed]; simp)) w
      have noFailure := reported.failed noErrors w
      cases position : s.worker w with
      | finished => rfl
      | waitFailed i => exact absurd position (noFailure i).1
      | postFailed i => exact absurd position (noFailure i).2
      | unborn | loop i | wait i | load i | store i value | post i =>
          rw [position] at ended
          cases ended
    rw [shown, stores, finished, finished, Pc.stored]
    omega

/-- One round each, in an interleaving in which the second thread waits for the first. -/
theorem semaphore_counts_one :
    ∃ s, Reached ⟨true, 1⟩ s ∧ s.printed = some 2 ∧ s.counter = stores ⟨true, 1⟩ s := by
  let actions : List Action := List.replicate 2 (.main .go) ++
    List.replicate 2 (.worker .t1 .go) ++ .worker .t2 .go :: List.replicate 4 (.worker .t1 .go) ++
    List.replicate 5 (.worker .t2 .go) ++ List.replicate 5 (.main .go)
  obtain ⟨s, ran⟩ := Option.isSome_iff_exists.mp
    (show (replay (step ⟨true, 1⟩) actions start).isSome from rfl)
  have reached : Reached ⟨true, 1⟩ s := Reachable.refl.replay ran
  have printed : s.printed = some 2 := by
    cases ran
    rfl
  exact ⟨s, reached, printed, (semaphore_counts rfl (by decide) reached).2.2.1⟩

/-! ## The end -/

/-- The statements a thread has left. -/
def Pc.left (rounds : Nat) : Pc → Nat
  | .unborn => 5 * rounds + 2
  | .loop i => 5 * (rounds - i) + 1
  | .wait i => 5 * (rounds - i)
  | .load i => 5 * (rounds - i) - 1
  | .store i _ => 5 * (rounds - i) - 2
  | .post i => 5 * (rounds - i) - 3
  | .finished | .waitFailed _ | .postFailed _ => 0

/-- The statements `main` has left. -/
def MainPc.left : MainPc → Nat
  | .create1 => 7
  | .create2 => 6
  | .join1 => 5
  | .join2 => 4
  | .print => 3
  | .destroy _ => 2
  | .ret _ => 1
  | .returned _ => 0

/-- The statements that are left. -/
def measure (program : Program) (s : State) : Nat :=
  s.main.left + (s.worker .t1).left program.rounds + (s.worker .t2).left program.rounds

/-- A thread moves alone, to a position with fewer statements left. -/
theorem measure_lt_of_update {pc : Pc} (worker : t.worker = Function.update s.worker w pc)
    (less : pc.left program.rounds < (s.worker w).left program.rounds)
    (main : t.main.left ≤ s.main.left) : measure program t < measure program s := by
  unfold measure
  rw [worker]
  cases w with
  | t1 =>
      rw [Function.update_self, Function.update_of_ne (by decide : Thread.t2 ≠ .t1)]
      omega
  | t2 =>
      rw [Function.update_self, Function.update_of_ne (by decide : Thread.t1 ≠ .t2)]
      omega

theorem WorkerTaken.measure_lt (taken : WorkerTaken program s w t)
    (inLoop : (s.worker w).InLoop program.rounds) : measure program t < measure program s := by
  cases taken with
  | next position more =>
      refine measure_lt_of_update rfl ?_ (Nat.le_refl _)
      rw [position]
      split <;> simp only [Pc.left] <;> omega
  | finish position | waitFails position | postFails position =>
      rw [position] at inLoop
      refine measure_lt_of_update rfl ?_ (Nat.le_refl _)
      rw [position]
      simp only [Pc.left, Pc.InLoop] at inLoop ⊢
      omega
  | wait position | load position | post position =>
      rw [position] at inLoop
      refine measure_lt_of_update rfl ?_ (Nat.le_refl _)
      rw [position]
      simp only [Pc.left, Pc.InLoop] at inLoop ⊢
      omega
  | store position =>
      rw [position] at inLoop
      refine measure_lt_of_update rfl ?_ (Nat.le_refl _)
      rw [position]
      simp only [Pc.InLoop] at inLoop
      split <;> simp only [Pc.left] <;> omega

theorem left_leave (program : Program) (code : Int) : (leave program code).left ≤ 2 := by
  unfold leave
  split <;> simp [MainPc.left]

theorem MainTaken.measure_lt (joined : Joined s) (taken : MainTaken program s t) :
    measure program t < measure program s := by
  -- where the threads stay, `main` has fewer statements left
  have alone : t.worker = s.worker → t.main.left < s.main.left →
      measure program t < measure program s := by
    intro same less
    unfold measure
    rw [same]
    omega
  have out := left_leave program
  cases taken with
  | create1 position =>
      refine measure_lt_of_update rfl ?_ (by simp [position, MainPc.left])
      rw [joined.unborn1 position]
      simp [Pc.left]
  | create2 position =>
      refine measure_lt_of_update rfl ?_ (by simp [position, MainPc.left])
      rw [joined.unborn2 (.inr position)]
      simp [Pc.left]
  | createFails position =>
      refine alone rfl (Nat.lt_of_le_of_lt (out 1) ?_)
      rcases position with position | ⟨position, -⟩ <;> simp [position, MainPc.left]
  | print position =>
      refine alone rfl (Nat.lt_of_le_of_lt (out 0) ?_)
      simp [position, MainPc.left]
  | join1 position | join2 position | destroy position | ret position =>
      exact alone rfl (by simp [position, MainPc.left])

/-- A step in which no `sem_wait` fails. -/
def Granted (program : Program) (s : State) (a : Action) (t : State) : Prop :=
  step program s a = some t ∧ ∀ w i, a = .worker w .fail → s.worker w ≠ .wait i

/-- When `main` waits for the threads, both were created. -/
structure Born (s : State) : Prop where
  first : s.main = .create2 → s.worker .t1 ≠ .unborn
  both : s.main = .join1 ∨ s.main = .join2 → ∀ w, s.worker w ≠ .unborn

theorem WorkerTaken.born (taken : WorkerTaken program s w t) : t.worker w ≠ .unborn := by
  cases taken with
  | next | store =>
      simp only [State.move, Function.update_self]
      repeat' split
      all_goals simp
  | finish | wait | waitFails | load | post | postFails => simp [State.move]

theorem born_of_reached (reached : Reached program s) : Born s := by
  refine reached.invariant Born ⟨by simp [start], by simp [start]⟩ ?_
  intro s a t born stepped
  obtain ⟨-, ⟨w, taken⟩ | taken⟩ := step_cases program stepped
  · obtain ⟨main, -, -, others⟩ := taken.frame
    have kept : ∀ v, s.worker v ≠ .unborn → t.worker v ≠ .unborn := by
      intro v before
      rcases eq_or_ne v w with rfl | other
      · exact taken.born
      · rwa [others v other]
    refine ⟨?_, ?_⟩
    · rw [main]
      exact fun position => kept _ (born.first position)
    · rw [main]
      exact fun position v => kept v (born.both position v)
  · cases taken with
    | create1 => exact ⟨fun _ => by simp [State.move], by simp⟩
    | create2 position =>
        refine ⟨by simp, fun _ w => ?_⟩
        cases w with
        | t1 => simpa [State.move] using born.first position
        | t2 => simp [State.move]
    | createFails =>
        have out := leave_ne program 1
        exact ⟨fun at_ => absurd at_ out.2.1, fun at_ => (at_.elim out.2.2.1 out.2.2.2.1).elim⟩
    | join1 position => exact ⟨by simp, fun _ => born.both (.inl position)⟩
    | print =>
        have out := leave_ne program 0
        exact ⟨fun at_ => absurd at_ out.2.1, fun at_ => (at_.elim out.2.2.1 out.2.2.2.1).elim⟩
    | join2 | destroy | ret => exact ⟨by simp, by simp⟩

/-- Where `main` waits for a thread. -/
def joinOf : Thread → MainPc
  | .t1 => .join1
  | .t2 => .join2

/-- `main` waits for a thread that waits for the permit, which the other one has kept. -/
def Hung (s : State) : Prop :=
  ∃ w i j, s.worker w = .wait i ∧ s.worker w.other = .postFailed j ∧ s.main = joinOf w

/-- A thread that cannot go on has ended, or it waits while the semaphore is 0. -/
theorem waits_of_blocked (born : s.worker w ≠ .unborn)
    (blocked : worker program s w .go = none) :
    (s.worker w).ended = true ∨ ∃ i, s.worker w = .wait i ∧ s.sem = 0 := by
  cases position : s.worker w with
  | unborn => exact absurd position born
  | finished | waitFailed i | postFailed i => exact .inl rfl
  | loop i | load i | store i value | post i => simp [worker, position] at blocked
  | wait i =>
      refine .inr ⟨i, rfl, ?_⟩
      simp only [worker, position, ite_eq_right_iff, reduceCtorEq, imp_false] at blocked
      omega

theorem Permit.other {sem : Nat} {worker : Thread → Pc} (permit : Permit sem worker)
    (none : sem = 0) (without : (worker w).permits = 0) : (worker w.other).permits = 1 := by
  unfold Permit at permit
  cases w with
  | t1 =>
      show (worker .t2).permits = 1
      omega
  | t2 =>
      show (worker .t1).permits = 1
      omega

/-- Whoever has the permit and cannot go on has failed in `sem_post`. -/
theorem hung_of_waiting (semaphore : program.semaphore = true) (reached : Reached program s)
    (blocked : ∀ w, worker program s w .go = none) (waits : s.main = joinOf w)
    (running : (s.worker w).ended = false) : Hung s := by
  have joins : s.main = .join1 ∨ s.main = .join2 := by
    rw [waits]
    cases w with
    | t1 => exact .inl rfl
    | t2 => exact .inr rfl
  have born := (born_of_reached reached).both joins
  rcases waits_of_blocked (born w) (blocked w) with ended | ⟨i, position, none⟩
  · rw [running] at ended
    cases ended
  · have has := (permit_of_reached semaphore reached).other (w := w) none (by rw [position]; rfl)
    rcases waits_of_blocked (born w.other) (blocked w.other) with ended | ⟨j, other, -⟩
    · cases kept : s.worker w.other with
      | postFailed j => exact ⟨w, i, j, position, kept, waits⟩
      | finished | waitFailed j | unborn | loop j | wait j =>
          rw [kept] at has
          cases has
      | load j | store j value | post j =>
          rw [kept] at ended
          cases ended
    · rw [other] at has
      cases has

theorem final_of_stuck (semaphore : program.semaphore = true) (reached : Reached program s)
    (stuck : Stuck (Granted program) s) : s.main.over = true ∨ Hung s := by
  by_cases ended : s.main.over = true
  · exact .inl ended
  · right
    have blocked : ∀ w, worker program s w .go = none := by
      intro w
      rw [Option.eq_none_iff_forall_ne_some]
      intro t ran
      refine stuck (.worker w .go) t ⟨?_, nofun⟩
      rwa [step, if_neg ended]
    have still : main program s .go = none := by
      rw [Option.eq_none_iff_forall_ne_some]
      intro t ran
      refine stuck (.main .go) t ⟨?_, nofun⟩
      rwa [step, if_neg ended]
    cases position : s.main with
    | create1 | create2 | print | destroy code | ret code => simp [main, position] at still
    | returned code =>
        rw [position] at ended
        exact absurd rfl ended
    | join1 =>
        simp only [main, position, ite_eq_right_iff, reduceCtorEq, imp_false] at still
        exact hung_of_waiting semaphore reached blocked (w := .t1) position
          (Bool.eq_false_iff.mpr still)
    | join2 =>
        simp only [main, position, ite_eq_right_iff, reduceCtorEq, imp_false] at still
        exact hung_of_waiting semaphore reached blocked (w := .t2) position
          (Bool.eq_false_iff.mpr still)

theorem stuck_of_hung (semaphore : program.semaphore = true) (reached : Reached program s)
    (hung : Hung s) : Stuck (Granted program) s := by
  obtain ⟨w, i, j, position, kept, waits⟩ := hung
  have none : s.sem = 0 := by
    have permit := permit_of_reached semaphore reached
    unfold Permit at permit
    have one : (s.worker w.other).permits = 1 := by rw [kept]; rfl
    cases w with
    | t1 =>
        have : (s.worker .t2).permits = 1 := one
        omega
    | t2 =>
        have : (s.worker .t1).permits = 1 := one
        omega
  rintro a t ⟨stepped, granted⟩
  obtain ⟨running, -⟩ := step_cases program stepped
  simp only [step, running, Bool.false_eq_true, if_false] at stepped
  cases a with
  | worker v choice =>
      rcases eq_or_ne v w with rfl | other
      · cases choice with
        | go => simp [worker, position, none] at stepped
        | fail => exact granted v i rfl position
      · rw [eq_other_of_ne other] at stepped
        simp [worker, kept] at stepped
  | main choice =>
      cases w with
      | t1 =>
          have at_ : s.main = .join1 := waits
          cases choice <;> simp [main, at_, position, Pc.ended] at stepped
      | t2 =>
          have at_ : s.main = .join2 := waits
          cases choice <;> simp [main, at_, position, Pc.ended] at stepped

/-- **How a run with the semaphore ends.** If no `sem_wait` fails, no run has more than
`10 * rounds + 11` statements, and a run that cannot be continued has come to the end of the
process, or one thread has failed in `sem_post` and `main` waits for the other, which waits for
the permit. In such a state nothing goes on. -/
theorem semaphore_completes (semaphore : program.semaphore = true)
    (small : 2 * (program.rounds : Int) < 9223372036854775807) :
    Completes (Granted program) start (10 * program.rounds + 11)
      (fun s => s.main.over = true ∨ Hung s) ∧
    ∀ s, Reached program s → Hung s → Stuck (Granted program) s := by
  refine ⟨?_, fun s reached hung => stuck_of_hung semaphore reached hung⟩
  have all : measure program start = 10 * program.rounds + 11 := by
    simp only [measure, start, MainPc.left, Pc.left]
    omega
  rw [← all]
  refine completes_of_measure (Reached program) (measure program) .refl ?_ ?_ ?_
  · rintro s a t reached ⟨stepped, -⟩
    exact reached.next stepped
  · rintro s a t reached ⟨stepped, -⟩
    obtain ⟨-, ⟨w, taken⟩ | taken⟩ := step_cases program stepped
    · exact taken.measure_lt ((bounded_of_reached small reached).inLoop w)
    · exact taken.measure_lt (joined_of_reached reached)
  · intro s reached stuck
    exact final_of_stuck semaphore reached stuck

theorem semaphore_completes_hundred :
    Completes (Granted withSemaphore) start 1011 (fun s => s.main.over = true ∨ Hung s) :=
  (@semaphore_completes withSemaphore rfl (by decide)).1

end OsLab.Counter
