import OsLab.Foundation.Progress
import OsLab.Pipe.Output

/-!
# Whether the program ends

The parent reads nothing before both children have exited, so the pipe has to take all bytes.
If it has room for them, every run ends with every process, after at most `4 * count + 20`
system calls; if it has not, a child waits for room, the parent waits for the child, and
nobody goes on. `completes_iff` says both.

A run is as long as its processes have calls left (`measure`). A process that has calls left
and cannot go on is a child that waits for the lock, and then the holder of the lock can
(`live_steps`).
-/

set_option autoImplicit false

namespace OsLab.Pipe

open OsLab.Foundation

variable {program : Program} {capacity : Nat} {s t : State} {c : Child}

/-! ## Runs are bounded -/

/-- The calls a child has left, each `write` counted twice. -/
def ChildPc.left (count : Nat) : ChildPc → Nat
  | .unborn => 2 * count + 7
  | .closeRead => 2 * count + 6
  | .lock => 2 * count + 5
  | .write i => 2 * (count - i) + 4
  | .sleep => 3
  | .unlock => 2
  | .exited | .killed _ => 0

/-- The calls the parent has left, its `read`s apart. -/
def ParentPc.left : ParentPc → Nat
  | .fork1 => 6
  | .fork2 => 5
  | .closeWrite => 4
  | .waitpid => 3
  | .wait => 2
  | .read => 1
  | .exited => 0

/-- The calls that are left. There are no more `read`s than bytes in the pipe. -/
def measure (program : Program) (s : State) : Nat :=
  s.parent.left + (s.child .one).left program.count + (s.child .two).left program.count +
    s.buffer.length

theorem measure_move (program : Program) (s : State) (c : Child) (pc : ChildPc) :
    measure program (s.move c pc) + (s.child c).left program.count =
      measure program s + pc.left program.count := by
  cases c with
  | one => simp only [measure, State.move, Function.update_self, ne_eq, reduceCtorEq,
      not_false_eq_true, Function.update_of_ne]; omega
  | two => simp only [measure, State.move, Function.update_self, ne_eq, reduceCtorEq,
      not_false_eq_true, Function.update_of_ne]; omega

/-- A change of the position alone. -/
theorem measure_move_lt {pc : ChildPc}
    (less : pc.left program.count < (s.child c).left program.count) :
    measure program (s.move c pc) < measure program s := by
  have moved := measure_move program s c pc
  omega

theorem ChildTaken.measure_lt (taken : ChildTaken program capacity s c t) :
    measure program t < measure program s := by
  cases taken with
  | closeRead position =>
      refine measure_move_lt ?_
      rw [position]
      split <;> simp [ChildPc.left]
  | acquire position free =>
      have less : (ChildPc.write 0).left program.count < (s.child c).left program.count := by
        simp [position, ChildPc.left]
      exact measure_move_lt less
  | @write i position more =>
      have moved := measure_move program s c (.write (i + 1))
      rw [position] at moved
      simp only [ChildPc.left] at moved
      have longer : measure program
          { s.move c (.write (i + 1)) with buffer := s.buffer ++ [c.byte] } =
          measure program (s.move c (.write (i + 1))) + 1 := by
        simp [measure, State.move, Nat.add_assoc]
      rw [longer]
      omega
  | @kill i position =>
      have less : (ChildPc.killed i).left program.count < (s.child c).left program.count := by
        simp [position, ChildPc.left]
      exact measure_move_lt less
  | written position =>
      refine measure_move_lt ?_
      rw [position]
      split <;> simp only [ChildPc.left] <;> omega
  | sleep position => exact measure_move_lt (by simp [position, ChildPc.left])
  | release position =>
      have less : ChildPc.exited.left program.count < (s.child c).left program.count := by
        simp [position, ChildPc.left]
      exact measure_move_lt less

/-- The parent alone has moved on. -/
theorem measure_parent_lt (child : t.child = s.child) (buffer : t.buffer = s.buffer)
    (less : t.parent.left < s.parent.left) : measure program t < measure program s := by
  simp only [measure, child, buffer]
  omega

theorem ParentTaken.measure_lt (stage : Stage program s) (taken : ParentTaken program s t) :
    measure program t < measure program s := by
  cases taken with
  | fork1 position =>
      cases stage with
      | early early =>
          have born := measure_move program s .one .closeRead
          have parent : measure program { s.move .one .closeRead with parent := .fork2 } + 1 =
              measure program (s.move .one .closeRead) := by
            simp only [measure, State.move, position, ParentPc.left]
            omega
          rw [early.unborn1 position] at born
          simp only [ChildPc.left] at born
          omega
      | reading other | printed other | failed other => rw [position] at other; cases other
  | fork2 position =>
      cases stage with
      | early early =>
          have born := measure_move program s .two .closeRead
          have parent : measure program { s.move .two .closeRead with parent := .closeWrite } + 1 =
              measure program (s.move .two .closeRead) := by
            simp only [measure, State.move, position, ParentPc.left]
            omega
          rw [early.unborn2 (.inr position)] at born
          simp only [ChildPc.left] at born
          omega
      | reading other | printed other | failed other => rw [position] at other; cases other
  | forkFails position =>
      refine measure_parent_lt rfl rfl ?_
      rcases position with position | position <;> simp [position, ParentPc.left]
  | read position some asked there =>
      simp only [measure, List.length_drop]
      omega
  | closeWrite position | waitpid position | wait position | readFails position
  | endOfFile position | complete position =>
      exact measure_parent_lt rfl rfl (by simp [position, State.print, ParentPc.left])

/-! ## Somebody can go on -/

/-- A child that was born and has not ended. -/
def ChildPc.live (pc : ChildPc) : Prop := pc ≠ .unborn ∧ pc.ended = false

/-- Once the parent is through with its `fork`s, there are two children. -/
def Born (s : State) : Prop :=
  s.parent = .closeWrite ∨ s.parent = .waitpid ∨ s.parent = .wait → ∀ c, s.child c ≠ .unborn

/-- Without `lockf` no child is at it. -/
def Lockless (program : Program) (s : State) : Prop :=
  program.lockf = false → ∀ c, s.child c ≠ .lock

theorem ChildTaken.born (taken : ChildTaken program capacity s c t) : t.child c ≠ .unborn := by
  cases taken with
  | closeRead | written =>
      rw [move_self]
      split <;> simp
  | acquire | write | kill | sleep | release => simp [State.move]

theorem born_of_reached (reached : Reached program capacity s) : Born s := by
  refine (reached.invariant
    (fun s => (s.parent = .fork2 → s.child .one ≠ .unborn) ∧ Born s) ?_ ?_).2
  · simp [Born, start]
  · intro s a t both stepped
    obtain ⟨first, born⟩ := both
    cases a with
    | child c =>
        have taken := childTaken_of_step program capacity stepped
        obtain ⟨parent, -, -, -, others⟩ := taken.frame
        have kept : ∀ d, s.child d ≠ .unborn → t.child d ≠ .unborn := by
          intro d before
          rcases eq_or_ne d c with rfl | other
          · exact taken.born
          · rwa [others d other]
        rw [Born, parent]
        exact ⟨fun position => kept _ (first position), fun position d => kept d (born position d)⟩
    | parent choice =>
        have taken := parentTaken_of_step program stepped
        cases taken with
        | fork1 => exact ⟨fun _ => by simp [State.move], by simp [Born]⟩
        | fork2 position =>
            refine ⟨by simp, fun _ d => ?_⟩
            cases d with
            | one => simpa [State.move] using first position
            | two => simp [State.move]
        | closeWrite position => exact ⟨by simp, fun _ => born (.inl position)⟩
        | waitpid position => exact ⟨by simp, fun _ => born (.inr (.inl position))⟩
        | read position =>
            refine ⟨fun other => ?_, fun other => ?_⟩
            · rw [position] at other
              cases other
            · rw [position] at other
              rcases other with other | other | other <;> cases other
        | forkFails | wait | readFails | endOfFile | complete => simp [Born, State.print]

theorem lockless_of_reached (reached : Reached program capacity s) : Lockless program s := by
  refine reached.invariant (Lockless program) (fun _ c => by simp [start]) ?_
  intro s a t before stepped noLock d
  cases a with
  | child c =>
      have taken := childTaken_of_step program capacity stepped
      rcases eq_or_ne d c with rfl | other
      · cases taken with
        | closeRead | written => simp [noLock]
        | acquire | write | kill | sleep | release => simp [State.move]
      · rw [taken.frame.2.2.2.2 d other]
        exact before noLock d
  | parent choice =>
      have taken := parentTaken_of_step program stepped
      cases taken with
      | fork1 | fork2 =>
          cases d <;> simp [State.move, before noLock]
      | forkFails | closeWrite | waitpid | wait | read | readFails | endOfFile | complete =>
          exact before noLock d

/-- A child that does not wait for the lock can go on, when the pipe has room for all bytes. -/
theorem child_steps (reached : Reached program capacity s) (room : program.limit ≤ capacity)
    (live : (s.child c).live) (lock : s.child c = .lock → s.owner = none) :
    ∃ t, ChildTaken program capacity s c t := by
  cases position : s.child c with
  | unborn => exact absurd position live.1
  | exited | killed i =>
      have running := live.2
      rw [position] at running
      cases running
  | closeRead => exact ⟨_, .closeRead position⟩
  | lock => exact ⟨_, .acquire position (lock position)⟩
  | sleep => exact ⟨_, .sleep position⟩
  | unlock => exact ⟨_, .release position⟩
  | write i =>
      rcases Nat.lt_or_ge i program.count with more | last
      · cases reader : s.hasReader with
        | false => exact ⟨_, .kill position more reader⟩
        | true =>
            -- this child still has bytes to write, so the pipe does not have all of them
            have books := books_of_reached reached
            have total := books.total
            have mine : (s.child c).written program.count < program.count := by
              rw [position]
              exact more
            have short : s.buffer.length < capacity := by
              have one := books.bound .one
              have two := books.bound .two
              rw [State.bytes, List.length_append] at total
              rw [Program.limit] at room
              cases c <;> omega
            exact ⟨_, .write position more reader short⟩
      · exact ⟨_, .written position last⟩

/-- **While a child lives, a child can go on.** Who waits for the lock waits for the one that
holds it. -/
theorem live_steps (reached : Reached program capacity s) (room : program.limit ≤ capacity)
    (live : (s.child c).live) : ∃ d t, ChildTaken program capacity s d t := by
  by_cases waits : s.child c = .lock ∧ s.owner ≠ none
  · obtain ⟨position, held⟩ := waits
    have lock : program.lockf = true := by
      cases locks : program.lockf with
      | true => rfl
      | false => exact absurd position (lockless_of_reached reached locks c)
    obtain ⟨d, owner⟩ := Option.ne_none_iff_exists'.mp held
    have inside := (owned_of_reached lock reached d).mpr owner
    refine ⟨d, child_steps reached room ?_ ?_⟩
    · cases at_ : s.child d with
      | write i | sleep | unlock => exact ⟨nofun, rfl⟩
      | unborn | closeRead | lock | exited | killed i =>
          rw [at_] at inside
          cases inside
    · intro at_
      rw [at_] at inside
      cases inside
  · refine ⟨c, child_steps reached room live fun position => ?_⟩
    by_contra held
    exact waits ⟨position, held⟩

/-! ## The end -/

/-- All processes have ended, and what is printed without an error is complete. -/
structure Ended (program : Program) (s : State) : Prop where
  parent : s.parent = .exited
  children : ∀ c, ¬ (s.child c).live
  printed : s.errors = [] → ∃ r, s.printed = some r ∧ r.total = 2 * program.count

theorem ended_of_stuck (reached : Reached program capacity s) (room : program.limit ≤ capacity)
    (stuck : Stuck (fun s a t => step program capacity s a = some t) s) : Ended program s := by
  have stage := stage_of_reached reached
  have noChild : ∀ c, ¬ (s.child c).live := by
    intro c live
    obtain ⟨d, t, taken⟩ := live_steps reached room live
    exact stuck (.child d) t (childStep_of_taken program capacity taken)
  have noParent : ∀ choice, parentStep program s choice = none := by
    intro choice
    rw [Option.eq_none_iff_forall_ne_some]
    exact stuck (.parent choice)
  have ended : ∀ c, s.child c ≠ .unborn → (s.child c).ended = true := by
    intro c born
    by_contra running
    exact noChild c ⟨born, Bool.eq_false_iff.mpr running⟩
  cases stage with
  | early early =>
      -- the parent has a call that returns
      exfalso
      have born := born_of_reached reached
      have go := noParent .go
      cases position : s.parent with
      | fork1 | fork2 | closeWrite => simp [parentStep, position] at go
      | waitpid =>
          have one := ended .one (born (.inr (.inl position)) .one)
          simp [parentStep, position, one] at go
      | wait =>
          have two := ended .two (born (.inr (.inr position)) .two)
          simp [parentStep, position, two] at go
      | read => exact early.running.1 position
      | exited => exact early.running.2 position
  | reading position both silent inside =>
      exfalso
      rcases Nat.lt_or_ge s.inPipe.length program.limit with more | all
      · -- the bytes that are missing are in the pipe
        have total := ((books_of_reached reached).complete both).1
        rw [State.bytes, List.length_append] at total
        have one := noParent (.bytes 1)
        have there : s.inPipe.length < program.limit ∧ 1 ≤ 1 ∧
            1 ≤ program.limit - s.inPipe.length ∧ 1 ≤ s.buffer.length := by omega
        simp only [parentStep, position, if_pos there, reduceCtorEq] at one
      · have go := noParent .go
        simp [parentStep, position, Nat.not_lt.mpr all] at go
  | printed position both report inside =>
      refine ⟨position, noChild, fun noErrors => ⟨_, report, ?_⟩⟩
      exact ((counts_of_printed reached report).2.2.2.2 noErrors).1
  | failed position alone nothing silent reported =>
      exact ⟨position, noChild, fun noErrors => absurd noErrors reported⟩

/-- Before the parent reads, the pipe had to take all bytes. -/
theorem room_of_reading (reached : Reached program capacity s)
    (reads : s.parent = .read ∨ s.printed ≠ none) : program.limit ≤ capacity := by
  refine (reached.invariant (fun s => Reached program capacity s ∧ s.buffer.length ≤ capacity ∧
    (s.parent = .read ∨ s.printed ≠ none → program.limit ≤ capacity))
    ⟨.refl, Nat.zero_le _, by simp [start]⟩ ?_).2.2 reads
  intro s a t inv stepped
  obtain ⟨reached, short, enough⟩ := inv
  refine ⟨reached.next stepped, ?_⟩
  have stage := stage_of_reached reached
  cases a with
  | child c =>
      have taken := childTaken_of_step program capacity stepped
      obtain ⟨parent, -, printed, -, -⟩ := taken.frame
      rw [parent, printed]
      refine ⟨?_, enough⟩
      cases taken with
      | write position more reader room =>
          rw [List.length_append, List.length_singleton]
          exact room
      | closeRead | acquire | kill | written | sleep | release => exact short
  | parent choice =>
      have taken := parentTaken_of_step program stepped
      cases taken with
      | read position =>
          refine ⟨Nat.le_trans ?_ short, fun _ => enough (.inl position)⟩
          rw [List.length_drop]
          exact Nat.sub_le ..
      | wait position ended =>
          refine ⟨short, fun _ => ?_⟩
          cases stage with
          | early early =>
              have second := exited_of_ended ended (early.alive .two)
              have all := (books_of_reached reached).complete
                (both_exited (early.first position) second)
              rw [State.bytes, early.nothing, List.nil_append] at all
              exact all.1 ▸ short
          | reading other | printed other | failed other => rw [position] at other; cases other
      | readFails position | endOfFile position | complete position =>
          exact ⟨short, fun _ => enough (.inl position)⟩
      | fork1 | fork2 | forkFails | closeWrite | waitpid =>
          exact ⟨short, fun reads => enough (.inr (by simpa [State.move] using reads))⟩

/-- From its first `waitpid` on, the parent exits only after printing. -/
theorem printed_of_waiting {trace : List (State × Action)}
    (run : Run (fun s a t => step program capacity s a = some t) s trace t)
    (waiting : s.parent = .waitpid) (exited : t.parent = .exited) : t.printed ≠ none := by
  refine (run.invariant (fun t => (t.parent = .waitpid ∨ t.parent = .wait ∨ t.parent = .read ∨
    t.parent = .exited) ∧ (t.parent = .exited → t.printed ≠ none)) ?_ ?_).2 exited
  · simp [waiting]
  · intro s a t before stepped
    cases a with
    | child c =>
        obtain ⟨parent, -, printed, -, -⟩ := (childTaken_of_step program capacity stepped).frame
        rwa [parent, printed]
    | parent choice =>
        have taken := parentTaken_of_step program stepped
        cases taken with
        | fork1 position | fork2 position | closeWrite position => simp [position] at before
        | forkFails position => rcases position with position | position <;> simp [position] at before
        | waitpid | wait | readFails | endOfFile | complete => simp [State.print]
        | read position => simp [position]

/-- **The program ends if and only if the pipe has room for all bytes.** Then no run has more
than `4 * count + 20` system calls, and every run that cannot be continued has come to the end
of all processes, with everything printed if no call failed. The calls that can fail are `fork`
and `read`. -/
theorem completes_iff (program : Program) (capacity : Nat) :
    Completes (fun s a t => step program capacity s a = some t) start (4 * program.count + 20)
      (Ended program) ↔ program.limit ≤ capacity := by
  constructor
  · intro completes
    obtain ⟨trace, run⟩ := reached_ready program capacity
    obtain ⟨further, t, rest, -, ended⟩ := completes.extends run
    have reached : Reached program capacity t := ⟨_, run.append rest⟩
    exact room_of_reading reached (.inr (printed_of_waiting rest rfl ended.parent))
  · intro room
    have all : measure program start = 4 * program.count + 20 := by
      simp only [measure, start, ParentPc.left, ChildPc.left, List.length_nil]
      omega
    rw [← all]
    refine completes_of_measure (Reached program capacity) (measure program) .refl
      (fun s a t reached next => reached.next next) ?_ ?_
    · intro s a t reached next
      cases a with
      | child c => exact (childTaken_of_step program capacity next).measure_lt
      | parent choice =>
          exact (parentTaken_of_step program next).measure_lt (stage_of_reached reached)
    · intro s reached stuck
      exact ended_of_stuck reached room stuck

end OsLab.Pipe
