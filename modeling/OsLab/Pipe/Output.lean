import Mathlib.Data.List.Induction
import OsLab.Pipe.Counting

/-!
# What is printed

`report_exact` says what the parent prints when it prints: everything that the children have
written, unless `perror` has reported an error before.

The order of the digits is where the two programs differ. Without the lock every order is
possible (`text_without_lock_iff`). With it the text is the block of one child followed by the
block of the other (`text_with_lock_iff`): the holder of the lock is the only child between
its first and its last write (`Owned`), so a child that begins to write finds none of the
other's bytes or all of them (`Blocks`).
-/

set_option autoImplicit false

namespace OsLab.Pipe

open OsLab.Foundation

variable {program : Program} {capacity : Nat} {s t : State} {c : Child}

/-! ## The report -/

/-- What was printed without an error has all bytes in it. -/
def Full (program : Program) (s : State) : Prop :=
  s.printed ≠ none → s.errors = [] → program.limit ≤ s.inPipe.length

theorem Full.parent (full : Full program s) (stage : Stage program s) (books : Books program s)
    (taken : ParentTaken program s t) : Full program t := by
  cases taken with
  | readFails => intro _ noErrors; simp [State.print] at noErrors
  | complete position all => exact fun _ _ => all
  | endOfFile position more empty =>
      cases stage with
      | reading _ both silent inside =>
          -- all bytes are there, so the pipe cannot be empty
          have complete := (books.complete both).1
          rw [State.bytes, empty, List.append_nil] at complete
          omega
      | early early => exact absurd position early.running.1
      | printed other | failed other => rw [position] at other; cases other
  | read =>
      intro printed noErrors
      have := full printed noErrors
      simp only [List.length_append]
      omega
  | forkFails => intro _ noErrors; simp at noErrors
  | fork1 | fork2 | closeWrite | waitpid | wait => exact full

theorem full_of_reached (reached : Reached program capacity s) : Full program s := by
  refine (reached.invariant (fun s => Reached program capacity s ∧ Full program s)
    ⟨.refl, by simp [Full, start]⟩ ?_).2
  intro s a t both stepped
  obtain ⟨reached, full⟩ := both
  refine ⟨reached.next stepped, ?_⟩
  cases a with
  | child c =>
      obtain ⟨-, inPipe, printed, errors, -⟩ :=
        (childTaken_of_step program capacity stepped).frame
      rw [Full, inPipe, printed, errors]
      exact full
  | parent choice =>
      exact full.parent (stage_of_reached reached) (books_of_reached reached)
        (parentTaken_of_step program stepped)

/-- The parent reads no further than what it asks for. -/
theorem inPipe_length_le (reached : Reached program capacity s) :
    s.inPipe.length ≤ program.limit := by
  cases stage_of_reached reached with
  | early early =>
      rw [early.nothing]
      exact Nat.zero_le _
  | failed position alone nothing silent reported =>
      rw [nothing]
      exact Nat.zero_le _
  | reading position both silent inside => exact inside
  | printed position both report inside => exact inside

/-- What is printed is what was read, and it has been counted. -/
theorem counts_of_printed (reached : Reached program capacity s) {r : Report}
    (reports : s.printed = some r) :
    r.text = s.inPipe ∧ r.total = r.text.length ∧ r.count1 + r.count2 = r.total ∧
      (∀ c : Child, (r.text ++ s.buffer).count c.byte = program.count) ∧
      (s.errors = [] → r.total = 2 * program.count ∧ r.count1 = program.count ∧
        r.count2 = program.count) := by
  have books := books_of_reached reached
  have full := full_of_reached reached
  cases stage_of_reached reached with
  | early early =>
      rw [early.silent.1] at reports
      cases reports
  | failed position alone nothing silent reported =>
      rw [silent] at reports
      cases reports
  | reading position both silent inside =>
      rw [silent.1] at reports
      cases reports
  | printed position both report inside =>
      rw [report] at reports
      cases reports
      obtain ⟨total, digits⟩ := books.complete both
      have ones : s.inPipe.count '1' + s.buffer.count '1' = program.count := by
        rw [← List.count_append]
        exact digits .one
      have twos : s.inPipe.count '2' + s.buffer.count '2' = program.count := by
        rw [← List.count_append]
        exact digits .two
      -- no byte is anything but a digit of one of the two
      have both' : s.inPipe.count '1' + s.inPipe.count '2' = s.inPipe.length := by
        have split := total
        simp only [State.bytes, List.length_append, Program.limit] at split
        have some := twoDigits_le s.inPipe
        have others := twoDigits_le s.buffer
        omega
      refine ⟨rfl, rfl, by simpa [reportOf, countDigits_eq] using both', digits, ?_⟩
      intro noErrors
      have all := full (by simp [report]) noErrors
      have left : s.buffer = [] := by
        rw [← List.length_eq_zero_iff]
        simp only [State.bytes, List.length_append] at total
        omega
      simp only [left, List.count_nil, Nat.add_zero] at ones twos
      refine ⟨?_, by simp [reportOf, countDigits_eq, ones], by simp [reportOf, countDigits_eq, twos]⟩
      show s.inPipe.length = 2 * program.count
      rw [Program.limit] at all inside
      omega

/-- **The parent prints what was written.** In every interleaving, whichever of `fork` and
`read` fail, the parent never asks for more than fits behind what it has read, and when it
prints, the two counts add up to the total, and what is printed and what is left in the pipe are
all bytes of both children. If no error was reported, nothing is left: the total is `2 * count`
and both counts are `count`. -/
theorem report_exact (reached : Reached program capacity s) :
    s.inPipe.length ≤ program.limit ∧
    ∀ r, s.printed = some r →
      r.text = s.inPipe ∧ r.total = r.text.length ∧ r.count1 + r.count2 = r.total ∧
      (∀ c : Child, (r.text ++ s.buffer).count c.byte = program.count) ∧
      (s.errors = [] → r.total = 2 * program.count ∧ r.count1 = program.count ∧
        r.count2 = program.count) :=
  ⟨inPipe_length_le reached, fun _ reports => counts_of_printed reached reports⟩

/-- Two bytes each, with the lock, in an interleaving in which child 2 writes first. -/
theorem report_exact_two :
    ∃ s r, Reached ⟨true, 2⟩ 65536 s ∧ s.printed = some r ∧ r.text = ['2', '2', '1', '1'] ∧
      r.total = 2 * 2 ∧ r.count1 = 2 ∧ r.count2 = 2 := by
  let actions : List Action := List.replicate 2 (.parent .go) ++
    .child .one :: List.replicate 7 (.child .two) ++ List.replicate 6 (.child .one) ++
    List.replicate 3 (.parent .go) ++ [.parent (.bytes 1), .parent (.bytes 3), .parent .go]
  obtain ⟨s, ran⟩ := Option.isSome_iff_exists.mp
    (show (replay (step ⟨true, 2⟩ 65536) actions start).isSome from rfl)
  have reached : Reached ⟨true, 2⟩ 65536 s := Reachable.refl.replay ran
  have exact_ := (report_exact reached).2
  have printed : s.printed = some ⟨4, 2, 2, ['2', '2', '1', '1']⟩ := by
    cases ran
    rfl
  have noErrors : s.errors = [] := by
    cases ran
    rfl
  exact ⟨s, _, reached, printed, rfl, (exact_ _ printed).2.2.2.2 noErrors⟩

/-! ## The lock -/

/-- Between `lockf(fd[1], 1, 0)` and `lockf(fd[1], 0, 0)`. -/
def ChildPc.inside : ChildPc → Bool
  | .write _ | .sleep | .unlock => true
  | _ => false

/-- The children inside are the holder of the lock. -/
def Owned (s : State) : Prop := ∀ c, (s.child c).inside = true ↔ s.owner = some c

theorem Owned.of_same (owned : Owned s) (owner : t.owner = s.owner)
    (inside : ∀ d, (t.child d).inside = (s.child d).inside) : Owned t := by
  intro d
  rw [owner, inside]
  exact owned d

theorem inside_move {pc : ChildPc} (same : pc.inside = (s.child c).inside) (d : Child) :
    ((s.move c pc).child d).inside = (s.child d).inside := by
  rcases eq_or_ne d c with rfl | other
  · rwa [move_self]
  · rw [move_other s pc other]

theorem Owned.child (owned : Owned s) (lock : program.lockf = true)
    (taken : ChildTaken program capacity s c t) : Owned t := by
  cases taken with
  | closeRead position =>
      rw [lock, if_pos rfl]
      exact owned.of_same rfl (inside_move (by rw [position]; rfl))
  | written position =>
      rw [lock, if_pos rfl]
      exact owned.of_same rfl (inside_move (by rw [position]; rfl))
  | sleep position => exact owned.of_same rfl (inside_move (by rw [position]; rfl))
  | write position => exact owned.of_same rfl (inside_move (by rw [position]; rfl))
  | acquire position free =>
      intro d
      rcases eq_or_ne d c with rfl | other
      · simp [State.move, ChildPc.inside]
      · have outside := owned d
        simp only [free, reduceCtorEq, iff_false] at outside
        simp [State.move, other, other.symm, outside]
  | kill position =>
      have holds : s.owner = some c := (owned c).mp (by rw [position]; rfl)
      intro d
      rcases eq_or_ne d c with rfl | other
      · simp [State.move, State.leave, holds, ChildPc.inside]
      · have outside := owned d
        simp only [holds, Option.some.injEq, other.symm, iff_false] at outside
        simp [State.move, State.leave, holds, other, outside]
  | release position =>
      have holds : s.owner = some c := (owned c).mp (by rw [position]; rfl)
      intro d
      rcases eq_or_ne d c with rfl | other
      · simp [State.move, ChildPc.inside]
      · have outside := owned d
        simp only [holds, Option.some.injEq, other.symm, iff_false] at outside
        simp [State.move, other, outside]

theorem Owned.parent (owned : Owned s) (stage : Stage program s)
    (taken : ParentTaken program s t) : Owned t := by
  cases taken with
  | fork1 position =>
      cases stage with
      | early early =>
          exact owned.of_same rfl (inside_move (by rw [early.unborn1 position]; rfl))
      | reading other | printed other | failed other => rw [position] at other; cases other
  | fork2 position =>
      cases stage with
      | early early =>
          exact owned.of_same rfl (inside_move (by rw [early.unborn2 (.inr position)]; rfl))
      | reading other | printed other | failed other => rw [position] at other; cases other
  | forkFails | closeWrite | waitpid | wait | read | readFails | endOfFile | complete =>
      exact owned.of_same rfl fun _ => rfl

/-- A child writes while the other one is not killed. -/
theorem Stage.other_alive (stage : Stage program s) {i : Nat} (position : s.child c = .write i)
    (j : Nat) : s.child c.other ≠ .killed j := by
  cases stage with
  | early early => exact early.alive _ j
  | reading _ both | printed _ both =>
      rw [both] at position
      cases position
  | failed _ alone =>
      cases c with
      | one => simp [Child.other, alone]
      | two => simp [alone] at position

@[simp] theorem other_other (c : Child) : c.other.other = c := by
  cases c <;> rfl

/-- The bytes are those of child `a`, followed by those of the other child, which has written
nothing before `a` has written everything. -/
def BlocksFrom (program : Program) (s : State) (a : Child) : Prop :=
  s.bytes = List.replicate ((s.child a).written program.count) a.byte ++
      List.replicate ((s.child a.other).written program.count) a.other.byte ∧
    ((s.child a.other).written program.count = 0 ∨
      (s.child a).written program.count = program.count)

/-- The bytes of each child are in one block. -/
def Blocks (program : Program) (s : State) : Prop := ∃ a, BlocksFrom program s a

theorem Blocks.of_same (blocks : Blocks program s) (bytes : t.bytes = s.bytes)
    (written : ∀ d, (t.child d).written program.count = (s.child d).written program.count) :
    Blocks program t := by
  obtain ⟨a, order⟩ := blocks
  refine ⟨a, ?_⟩
  rw [BlocksFrom, bytes, written, written]
  exact order

/-- While a child is inside, the other has written all its bytes or none. -/
theorem written_outside {pc : ChildPc} {n : Nat} (outside : pc.inside = false)
    (alive : ∀ i, pc ≠ .killed i) : pc.written n = 0 ∨ pc.written n = n := by
  cases pc with
  | unborn | closeRead | lock => exact .inl rfl
  | exited => exact .inr rfl
  | killed i => exact absurd rfl (alive i)
  | write i | sleep | unlock => cases outside

/-- The holder of the lock can take its own bytes for the last block. -/
theorem Blocks.behind (blocks : Blocks program s) {i : Nat} (position : s.child c = .write i)
    (more : i < program.count)
    (other : (s.child c.other).written program.count = 0 ∨
      (s.child c.other).written program.count = program.count) :
    (s.bytes = List.replicate i c.byte ∧ (s.child c.other).written program.count = 0) ∨
      (s.bytes = List.replicate program.count c.other.byte ++ List.replicate i c.byte ∧
        (s.child c.other).written program.count = program.count) := by
  obtain ⟨a, bytes, order⟩ := blocks
  rcases eq_or_ne a c with rfl | different
  · -- its own block comes first, so the other child has not begun
    rw [position] at bytes order
    have none : (s.child a.other).written program.count = 0 := by
      refine order.resolve_right fun all => ?_
      simp only [ChildPc.written] at all
      omega
    rw [none, List.replicate_zero, List.append_nil] at bytes
    exact .inl ⟨bytes, none⟩
  · obtain rfl := eq_other_of_ne different
    rw [other_other, position] at bytes order
    rcases other with none | all
    · rcases order with zero | all
      · simp only [ChildPc.written] at zero
        subst zero
        rw [none] at bytes
        exact .inl ⟨bytes, none⟩
      · omega
    · rw [all] at bytes
      exact .inr ⟨bytes, all⟩

theorem Blocks.child (blocks : Blocks program s) (owned : Owned s) (books : Books program s)
    (stage : Stage program s) (taken : ChildTaken program capacity s c t) : Blocks program t := by
  rcases taken.writes (books.bound c) with ⟨bytes, written⟩ | ⟨i, position, more, rfl⟩
  · exact blocks.of_same bytes written
  · have holds : s.owner = some c := (owned c).mp (by rw [position]; rfl)
    have outside : (s.child c.other).inside = false := by
      rw [Bool.eq_false_iff]
      intro inside
      have both := ((owned c.other).mp inside).symm.trans holds
      cases c <;> cases both
    have different : c.other ≠ c := by cases c <;> decide
    have settled := written_outside (n := program.count) outside (stage.other_alive position)
    rcases blocks.behind position more settled with ⟨bytes, none⟩ | ⟨bytes, all⟩
    · refine ⟨c, ?_, .inl ?_⟩
      · simp only [State.bytes, State.move, Function.update_self, ← List.append_assoc,
          Function.update_of_ne different, none] at bytes ⊢
        rw [bytes, ChildPc.written, List.replicate_succ', List.replicate_zero, List.append_nil]
      · simpa [State.move, different] using none
    · refine ⟨c.other, ?_, .inr ?_⟩
      · simp only [State.bytes, State.move, Function.update_self, ← List.append_assoc,
          Function.update_of_ne different, all, other_other] at bytes ⊢
        rw [bytes, ChildPc.written, List.replicate_succ', List.append_assoc]
      · simpa [State.move, different] using all

theorem Blocks.parent (blocks : Blocks program s) (stage : Stage program s)
    (taken : ParentTaken program s t) : Blocks program t := by
  obtain ⟨bytes, written⟩ := taken.writes stage
  exact blocks.of_same bytes written

theorem owned_of_reached (lock : program.lockf = true) (reached : Reached program capacity s) :
    Owned s := by
  refine (reached.invariant (fun s => Stage program s ∧ Owned s) ⟨stage_start, ?_⟩ ?_).2
  · intro c
    simp [start, ChildPc.inside]
  · intro s a t both stepped
    obtain ⟨stage, owned⟩ := both
    cases a with
    | child c =>
        have taken := childTaken_of_step program capacity stepped
        exact ⟨stage.child taken, owned.child lock taken⟩
    | parent choice =>
        have taken := parentTaken_of_step program stepped
        exact ⟨stage.parent taken, owned.parent stage taken⟩

theorem blocks_of_reached (lock : program.lockf = true) (reached : Reached program capacity s) :
    Blocks program s := by
  refine (reached.invariant (fun s => Reached program capacity s ∧ Blocks program s)
    ⟨.refl, .one, rfl, .inl rfl⟩ ?_).2
  intro s a t both stepped
  obtain ⟨reached, blocks⟩ := both
  refine ⟨reached.next stepped, ?_⟩
  have stage := stage_of_reached reached
  cases a with
  | child c =>
      exact blocks.child (owned_of_reached lock reached) (books_of_reached reached) stage
        (childTaken_of_step program capacity stepped)
  | parent choice => exact blocks.parent stage (parentTaken_of_step program stepped)

/-! ## Runs -/

theorem Reached.child (reached : Reached program capacity s)
    (taken : ChildTaken program capacity s c t) : Reached program capacity t :=
  reached.next (a := .child c) (childStep_of_taken program capacity taken)

theorem Reached.parent (reached : Reached program capacity s) (choice : Choice)
    (ran : parentStep program s choice = some t) : Reached program capacity t :=
  reached.next (a := .parent choice) ran

/-- Both children are there and have closed their read ends, and the parent its write end. -/
def ready (program : Program) : State :=
  { start with
    child := fun _ => if program.lockf then .lock else .write 0
    parent := .waitpid }

theorem reached_ready (program : Program) (capacity : Nat) :
    Reached program capacity (ready program) := by
  have forked : Reached program capacity
      { start with child := fun _ => .closeRead, parent := .waitpid } := by
    refine Reachable.refl.replay
      (?_ : replay (step program capacity) (List.replicate 3 (.parent .go)) start = _)
    simp only [List.replicate, replay, step, parentStep, start, Option.some.injEq, State.move]
    congr 1
    funext d
    cases d <;> rfl
  have both := (forked.child (c := .one) (.closeRead rfl)).child (c := .two) (.closeRead rfl)
  have same : ready program = (({ start with
      child := fun _ => .closeRead, parent := .waitpid } : State).move .one
        (if program.lockf then .lock else .write 0)).move .two
        (if program.lockf then .lock else .write 0) := by
    simp only [ready, State.move, State.mk.injEq, true_and, and_true]
    funext d
    cases d <;> rfl
  rwa [same]

/-- When both children have written and exited, the parent prints what is in the pipe. -/
theorem reached_printed (reached : Reached program capacity s) (position : s.parent = .waitpid)
    (both : ∀ c, s.child c = .exited) (nothing : s.inPipe = []) :
    ∃ t, Reached program capacity t ∧ t.printed = some (reportOf s.buffer) ∧
      t.errors = s.errors := by
  have all := (books_of_reached reached).complete both
  rw [State.bytes, nothing, List.nil_append] at all
  have reading : Reached program capacity { s with parent := .read } := by
    refine reached.replay
      (?_ : replay (step program capacity) [.parent .go, .parent .go] s = _)
    simp [replay, step, parentStep, position, both, ChildPc.ended]
  have read : Reached program capacity
      { s with parent := .read, inPipe := s.buffer, buffer := [] } := by
    rcases Nat.eq_zero_or_pos program.limit with zero | positive
    · have empty : s.buffer = [] := List.length_eq_zero_iff.mp (all.1.trans zero)
      rw [empty]
      rw [empty, nothing] at reading
      exact reading
    · have asked : s.inPipe.length < program.limit ∧ 1 ≤ program.limit ∧
          program.limit ≤ program.limit - s.inPipe.length ∧ program.limit ≤ s.buffer.length := by
        rw [nothing, List.length_nil]
        omega
      have took := reading.parent (.bytes program.limit) (if_pos asked)
      simpa only [nothing, List.nil_append, List.take_of_length_le (Nat.le_of_eq all.1),
        List.drop_of_length_le (Nat.le_of_eq all.1)] using took
  refine ⟨{ s with parent := .read, inPipe := s.buffer, buffer := [] }.print, ?_, rfl, rfl⟩
  refine read.parent .go ?_
  simp [parentStep, all.1]

theorem hasReader_of_running (running : s.parent ≠ .exited) : s.hasReader = true := by
  simp [State.hasReader, running]

/-- A child writes its whole block while it has the lock. -/
theorem reached_block (lock : program.lockf = true) (reached : Reached program capacity s)
    (running : s.parent ≠ .exited) (position : s.child c = .lock) (free : s.owner = none)
    (room : s.buffer.length + program.count ≤ capacity) :
    Reached program capacity
      { s.move c .exited with buffer := s.buffer ++ List.replicate program.count c.byte } := by
  have writes : ∀ j ≤ program.count, Reached program capacity
      { s.move c (.write j) with
        owner := some c
        buffer := s.buffer ++ List.replicate j c.byte } := by
    intro j
    induction j with
    | zero =>
        intro _
        simpa [State.move] using reached.child (.acquire position free)
    | succ j ih =>
        intro inside
        have before := ih (Nat.le_of_succ_le inside)
        have short : (s.buffer ++ List.replicate j c.byte).length < capacity := by
          rw [List.length_append, List.length_replicate]
          omega
        have after := before.child
          (.write (move_self s c _) inside (hasReader_of_running running) short)
        simpa [State.move, List.append_assoc, ← List.replicate_succ'] using after
  have written := (writes program.count (Nat.le_refl _)).child (c := c)
    (.written (move_self s c _) (Nat.le_refl _))
  rw [lock, if_pos rfl] at written
  have slept := written.child (c := c) (.sleep (move_self _ c _))
  have released := slept.child (c := c) (.release (move_self _ c _))
  simpa [State.move, free] using released

/-- Without the lock the children can write in any order. -/
theorem reached_word (noLock : program.lockf = false) {word : List Char}
    (digits : ∀ x ∈ word, ∃ c : Child, x = c.byte)
    (few : ∀ c : Child, word.count c.byte ≤ program.count) (room : word.length ≤ capacity) :
    Reached program capacity
      { ready program with
        buffer := word
        child := fun c => .write (word.count c.byte) } := by
  induction word using List.reverseRecOn with
  | nil =>
      have begun := reached_ready program capacity
      simpa [ready, noLock, start] using begun
  | append_singleton word x ih =>
      obtain ⟨c, rfl⟩ := digits x (by simp)
      have fewer : ∀ d : Child, word.count d.byte ≤ program.count := by
        intro d
        have := few d
        rw [List.count_append] at this
        omega
      have more : word.count c.byte < program.count := by
        have := few c
        rw [List.count_append, List.count_singleton_self] at this
        omega
      rw [List.length_append, List.length_singleton] at room
      have before := ih (fun y member => digits y (by simp [member])) fewer (by omega)
      have after := before.child (c := c)
        (.write rfl more (hasReader_of_running (by simp [ready])) room)
      have positions : Function.update (fun d : Child => ChildPc.write (word.count d.byte)) c
          (.write (word.count c.byte + 1)) =
          fun d => .write ((word ++ [c.byte]).count d.byte) := by
        funext d
        rcases eq_or_ne d c with rfl | other
        · simp
        · have differs : c.byte ≠ d.byte := by
            rw [eq_other_of_ne other]
            exact byte_ne_other
          rw [Function.update_of_ne other, List.count_append, List.count_singleton,
            if_neg (by simpa using differs), Nat.add_zero]
      simpa [State.move, positions] using after

/-! ## The texts that are printed -/

/-- `text` is printed in some interleaving in which no error is reported, so that no `fork` and
no `read` has failed. -/
def Prints (program : Program) (capacity : Nat) (text : List Char) : Prop :=
  ∃ s r, Reached program capacity s ∧ s.printed = some r ∧ s.errors = [] ∧ r.text = text

/-- What is printed without an error are all bytes. -/
theorem printed_bytes (reached : Reached program capacity s) {r : Report}
    (printed : s.printed = some r) (noErrors : s.errors = []) :
    r.text = s.bytes ∧ ∀ c, s.child c = .exited := by
  have exactly := counts_of_printed reached printed
  have stage := stage_of_reached reached
  have all := exactly.2.2.2.2 noErrors
  cases stage with
  | printed position both report inside =>
      have total := ((books_of_reached reached).complete both).1
      have left : s.buffer = [] := by
        rw [← List.length_eq_zero_iff]
        have length := exactly.2.1
        rw [exactly.1, all.1] at length
        rw [State.bytes, List.length_append, Program.limit] at total
        omega
      rw [State.bytes, left, List.append_nil]
      exact ⟨exactly.1, both⟩
  | early early =>
      rw [early.silent.1] at printed
      cases printed
  | reading _ _ silent =>
      rw [silent.1] at printed
      cases printed
  | failed _ _ _ silent =>
      rw [silent] at printed
      cases printed

/-- Both blocks, that of child `c` first. -/
theorem prints_blocks (lock : program.lockf = true) (room : program.limit ≤ capacity)
    (c : Child) :
    Prints program capacity
      (List.replicate program.count c.byte ++ List.replicate program.count c.other.byte) := by
  have different : c.other ≠ c := by cases c <;> decide
  rw [Program.limit] at room
  have waits : ∀ d, (ready program).child d = .lock := fun d => by simp [ready, lock]
  have first := reached_block lock (reached_ready program capacity) (by simp [ready])
    (waits c) rfl (by simp [ready, start]; omega)
  have second := reached_block (c := c.other) lock first (by simp [ready, State.move])
    ((move_other _ _ different).trans (waits _)) rfl (by simp [ready, start]; omega)
  obtain ⟨t, reached, printed, errors⟩ := reached_printed second rfl (by
    intro d
    rcases eq_or_ne d c with rfl | other
    · simp [State.move, different.symm]
    · rw [eq_other_of_ne other]
      simp [State.move]) rfl
  refine ⟨t, _, reached, printed, errors, ?_⟩
  simp [reportOf, ready, start]

/-- **With the lock the digits are printed in two blocks.** If the pipe has room for all
bytes, the texts that the interleavings print are the block of one child followed by the
block of the other, in the one order and in the other. -/
theorem text_with_lock_iff (lock : program.lockf = true) (room : program.limit ≤ capacity)
    (text : List Char) :
    Prints program capacity text ↔
      text = List.replicate program.count '1' ++ List.replicate program.count '2' ∨
      text = List.replicate program.count '2' ++ List.replicate program.count '1' := by
  constructor
  · rintro ⟨s, r, reached, printed, noErrors, rfl⟩
    obtain ⟨text, both⟩ := printed_bytes reached printed noErrors
    obtain ⟨a, bytes, -⟩ := blocks_of_reached lock reached
    rw [both, both] at bytes
    rw [text, bytes]
    cases a with
    | one => exact .inl rfl
    | two => exact .inr rfl
  · rintro (rfl | rfl)
    · exact prints_blocks lock room .one
    · exact prints_blocks lock room .two

/-- `2-1.c`, with a pipe of 64 KiB. -/
theorem text_with_lock_iff_pipe :
    withLock.lockf = true ∧ withLock.limit ≤ 65536 ∧
      Prints withLock 65536 (List.replicate 100 '2' ++ List.replicate 100 '1') :=
  ⟨rfl, by decide, (text_with_lock_iff rfl (by decide) _).mpr (.inr rfl)⟩

/-- **Without the lock the digits are printed in any order.** If the pipe has room for all
bytes, the texts that the interleavings print are all the words with `count` times the one
digit and `count` times the other. -/
theorem text_without_lock_iff (noLock : program.lockf = false) (room : program.limit ≤ capacity)
    (text : List Char) :
    Prints program capacity text ↔
      text.length = 2 * program.count ∧ text.count '1' = program.count ∧
        text.count '2' = program.count := by
  constructor
  · rintro ⟨s, r, reached, printed, noErrors, rfl⟩
    obtain ⟨text, both⟩ := printed_bytes reached printed noErrors
    have complete := (books_of_reached reached).complete both
    rw [text]
    exact ⟨complete.1, complete.2 .one, complete.2 .two⟩
  · rintro ⟨length, ones, twos⟩
    have few : ∀ c : Child, text.count c.byte = program.count := by
      intro c
      cases c with
      | one => exact ones
      | two => exact twos
    have digits : ∀ x ∈ text, ∃ c : Child, x = c.byte := onlyDigits (by omega)
    have writing := reached_word noLock digits (fun c => Nat.le_of_eq (few c))
      (Nat.le_trans (Nat.le_of_eq length) room)
    have one := writing.child (c := .one) (.written rfl (Nat.le_of_eq (few .one).symm))
    have two := one.child (c := .two) (.written rfl (Nat.le_of_eq (few .two).symm))
    obtain ⟨t, reached, printed, errors⟩ := reached_printed two rfl (by
      intro d
      cases d with
      | one => simp [State.move, noLock]
      | two => simp [State.move, noLock]) rfl
    exact ⟨t, _, reached, printed, errors, rfl⟩

/-- `2-2.c`, with a pipe of 64 KiB: the blocks can be mixed. -/
theorem text_without_lock_iff_mixed :
    Prints withoutLock 65536
      (List.replicate 99 '1' ++ '2' :: '1' :: List.replicate 99 '2') := by
  refine (@text_without_lock_iff withoutLock _ rfl (by decide) _).mpr ⟨?_, ?_, ?_⟩
  · rw [List.length_append, List.length_cons, List.length_cons, List.length_replicate,
      List.length_replicate]
    rfl
  · rw [List.count_append, List.count_replicate_self, List.count_cons_of_ne (by decide),
      List.count_cons_self, List.count_replicate, if_neg (by decide)]
    rfl
  · rw [List.count_append, List.count_replicate, if_neg (by decide), List.count_cons_self,
      List.count_cons_of_ne (by decide), List.count_replicate_self]
    rfl

end OsLab.Pipe
