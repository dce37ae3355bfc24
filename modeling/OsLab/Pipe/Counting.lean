import Mathlib.Data.List.Count
import OsLab.Pipe.Model

/-!
# What the parent counts

Every interleaving goes through four stages (`Stage`): the parent has not begun to read, it is
reading, it has printed, or a `fork` has failed and it has exited without printing. It reads
only after both children have exited, so all bytes are in the pipe by then, and none comes
later.

`Books` says where the bytes are: the bytes read, followed by those in the pipe, are as many
of each digit as the child of that digit has written. `stage_of_reached` and
`books_of_reached` carry both over all runs. `report_exact` is what they come to: the parent
prints that it has read all bytes, each child's `count` among them, unless an error was
reported before.
-/

set_option autoImplicit false

namespace OsLab.Pipe

open OsLab.Foundation

variable {program : Program} {capacity : Nat} {s t : State} {c : Child}

/-! ## Stages -/

def reportOf (text : List Char) : Report where
  total := text.length
  count1 := (countDigits text).1
  count2 := (countDigits text).2
  text := text

/-- Before the first `read`. -/
structure Early (s : State) : Prop where
  running : s.parent ≠ .read ∧ s.parent ≠ .exited
  nothing : s.inPipe = []
  silent : s.printed = none ∧ s.errors = []
  alive : ∀ c i, s.child c ≠ .killed i
  unborn1 : s.parent = .fork1 → s.child .one = .unborn
  unborn2 : s.parent = .fork1 ∨ s.parent = .fork2 → s.child .two = .unborn
  first : s.parent = .wait → s.child .one = .exited

inductive Stage (program : Program) (s : State) : Prop where
  | early (early : Early s)
  | reading (position : s.parent = .read) (both : ∀ c, s.child c = .exited)
      (silent : s.printed = none ∧ s.errors = []) (inside : s.inPipe.length ≤ program.limit)
  | printed (position : s.parent = .exited) (both : ∀ c, s.child c = .exited)
      (report : s.printed = some (reportOf s.inPipe))
      (inside : s.inPipe.length ≤ program.limit)
  | failed (position : s.parent = .exited) (alone : s.child .two = .unborn)
      (nothing : s.inPipe = []) (silent : s.printed = none) (reported : s.errors ≠ [])

theorem exited_of_ended {pc : ChildPc} (ended : pc.ended = true) (alive : ∀ i, pc ≠ .killed i) :
    pc = .exited := by
  cases pc with
  | exited => rfl
  | killed i => exact absurd rfl (alive i)
  | unborn | closeRead | lock | write i | sleep | unlock => cases ended

/-- A child that has exited makes no step. -/
theorem ChildTaken.not_exited (taken : ChildTaken program capacity s c t) :
    s.child c ≠ .exited := by
  cases taken with
  | closeRead position | acquire position | write position | kill position | written position
  | sleep position | release position => simp [position]

theorem ChildTaken.not_unborn (taken : ChildTaken program capacity s c t) :
    s.child c ≠ .unborn := by
  cases taken with
  | closeRead position | acquire position | write position | kill position | written position
  | sleep position | release position => simp [position]

/-- What a step of a child leaves to the others. -/
theorem ChildTaken.frame (taken : ChildTaken program capacity s c t) :
    t.parent = s.parent ∧ t.inPipe = s.inPipe ∧ t.printed = s.printed ∧ t.errors = s.errors ∧
      ∀ d, d ≠ c → t.child d = s.child d := by
  cases taken with
  | closeRead | acquire | write | kill | written | sleep | release =>
      exact ⟨rfl, rfl, rfl, rfl, fun d other => Function.update_of_ne other ..⟩

/-- As long as the parent has not exited, nobody is killed. -/
theorem ChildTaken.alive (taken : ChildTaken program capacity s c t)
    (running : s.parent ≠ .exited) (i : Nat) : t.child c ≠ .killed i := by
  have reader : s.hasReader = true := by simp [State.hasReader, running]
  cases taken with
  | kill position more noReader => rw [reader] at noReader; cases noReader
  | closeRead | written => simp only [State.move, Function.update_self]; split <;> simp
  | acquire | write | sleep | release => simp [State.move]

theorem Early.child (early : Early s) (taken : ChildTaken program capacity s c t) : Early t := by
  obtain ⟨parent, inPipe, printed, errors, others⟩ := taken.frame
  -- a child in the given position cannot be the one that moves
  have same : ∀ d, s.child d = .unborn ∨ s.child d = .exited → t.child d = s.child d := by
    intro d still
    refine others d ?_
    rintro rfl
    exact still.elim taken.not_unborn taken.not_exited
  refine ⟨by rw [parent]; exact early.running, inPipe.trans early.nothing,
    ⟨printed.trans early.silent.1, errors.trans early.silent.2⟩, ?_, ?_, ?_, ?_⟩
  · intro d i
    rcases eq_or_ne d c with rfl | other
    · exact taken.alive early.running.2 i
    · rw [others d other]
      exact early.alive d i
  · intro position
    have unborn := early.unborn1 (parent ▸ position)
    rw [same _ (.inl unborn), unborn]
  · intro position
    have unborn := early.unborn2 (parent ▸ position)
    rw [same _ (.inl unborn), unborn]
  · intro position
    have exited := early.first (parent ▸ position)
    rw [same _ (.inr exited), exited]

theorem Stage.child (stage : Stage program s) (taken : ChildTaken program capacity s c t) :
    Stage program t := by
  obtain ⟨parent, inPipe, printed, errors, others⟩ := taken.frame
  cases stage with
  | early early => exact .early (early.child taken)
  | reading position both silent inside => exact absurd (both c) taken.not_exited
  | printed position both report inside => exact absurd (both c) taken.not_exited
  | failed position alone nothing silent reported =>
      have other : Child.two ≠ c := by
        rintro rfl
        exact taken.not_unborn alone
      exact .failed (parent.trans position) ((others _ other).trans alone)
        (inPipe.trans nothing) (printed.trans silent) (by rwa [errors])

theorem both_exited (first : s.child .one = .exited) (second : s.child .two = .exited) (c : Child) :
    s.child c = .exited := by
  cases c with
  | one => exact first
  | two => exact second

theorem Early.parent (early : Early s) (taken : ParentTaken program s t) : Stage program t := by
  have alive := early.alive
  cases taken with
  | fork1 position =>
      have unborn := early.unborn2 (.inl position)
      refine .early ⟨by simp, early.nothing, early.silent, ?_, nofun, ?_, nofun⟩
      · intro d i
        cases d with
        | one => simp [State.move]
        | two => exact alive .two i
      · intro _
        exact unborn
  | fork2 position =>
      refine .early ⟨by simp, early.nothing, early.silent, ?_, nofun, nofun, nofun⟩
      intro d i
      cases d with
      | one => exact alive .one i
      | two => simp [State.move]
  | forkFails position =>
      exact .failed rfl (early.unborn2 position) early.nothing early.silent.1 (by simp)
  | closeWrite position =>
      exact .early ⟨by simp, early.nothing, early.silent, alive, nofun, nofun, nofun⟩
  | waitpid position ended =>
      refine .early ⟨by simp, early.nothing, early.silent, alive, nofun, nofun, ?_⟩
      intro _
      exact exited_of_ended ended (alive .one)
  | wait position ended =>
      have second := exited_of_ended ended (alive .two)
      refine .reading rfl (both_exited (early.first position) second) early.silent ?_
      show s.inPipe.length ≤ program.limit
      rw [early.nothing]
      exact Nat.zero_le _
  | read position | readFails position | endOfFile position | complete position =>
      exact absurd position early.running.1

theorem Stage.parent (stage : Stage program s) (taken : ParentTaken program s t) :
    Stage program t := by
  cases stage with
  | early early => exact early.parent taken
  | reading position both silent inside =>
      cases taken with
      | read _ some asked there =>
          refine .reading position both silent ?_
          rw [List.length_append, List.length_take]
          omega
      | readFails | endOfFile | complete => exact .printed rfl both rfl inside
      | fork1 other | fork2 other | closeWrite other | waitpid other | wait other =>
          rw [position] at other
          cases other
      | forkFails other =>
          rw [position] at other
          rcases other with other | other <;> cases other
  | printed position _ _ _ | failed position _ _ _ _ =>
      cases taken with
      | fork1 other | fork2 other | closeWrite other | waitpid other | wait other | read other
      | readFails other | endOfFile other | complete other =>
          rw [position] at other
          cases other
      | forkFails other =>
          rw [position] at other
          rcases other with other | other <;> cases other

theorem stage_start : Stage program start :=
  .early ⟨by simp [start], rfl, ⟨rfl, rfl⟩, nofun, fun _ => rfl, fun _ => rfl, nofun⟩

theorem stage_of_reached (reached : Reached program capacity s) : Stage program s := by
  refine reached.invariant (Stage program) stage_start ?_
  intro s a t stage stepped
  cases a with
  | child c => exact stage.child (childTaken_of_step program capacity stepped)
  | parent choice => exact stage.parent (parentTaken_of_step program stepped)

/-! ## The bytes -/

/-- How many bytes a child has written, by its position. -/
def ChildPc.written (count : Nat) : ChildPc → Nat
  | .unborn | .closeRead | .lock => 0
  | .write i | .killed i => i
  | .sleep | .unlock | .exited => count

/-- The bytes read and the bytes still in the pipe. -/
def State.bytes (s : State) : List Char := s.inPipe ++ s.buffer

structure Books (program : Program) (s : State) : Prop where
  digits : ∀ c, s.bytes.count c.byte = (s.child c).written program.count
  total : s.bytes.length = (s.child .one).written program.count +
    (s.child .two).written program.count
  bound : ∀ c, (s.child c).written program.count ≤ program.count

theorem byte_ne_other : c.byte ≠ c.other.byte := by
  cases c <;> decide

theorem eq_other_of_ne {d : Child} (different : d ≠ c) : d = c.other := by
  cases c <;> cases d <;> first | rfl | exact absurd rfl different

theorem Books.of_same (books : Books program s) (bytes : t.bytes = s.bytes)
    (written : ∀ d, (t.child d).written program.count = (s.child d).written program.count) :
    Books program t := by
  refine ⟨?_, ?_, ?_⟩
  · intro d
    rw [bytes, written]
    exact books.digits d
  · rw [bytes, written, written]
    exact books.total
  · intro d
    rw [written]
    exact books.bound d

/-- A move between positions that have written as much. -/
theorem written_move {pc : ChildPc} {n : Nat} (same : pc.written n = (s.child c).written n)
    (d : Child) : ((s.move c pc).child d).written n = (s.child d).written n := by
  rcases eq_or_ne d c with rfl | other
  · rwa [move_self]
  · rw [move_other s pc other]

/-- **What a step of a child does to the bytes.** It writes one, or nothing changes. -/
theorem ChildTaken.writes (taken : ChildTaken program capacity s c t)
    (bound : (s.child c).written program.count ≤ program.count) :
    (t.bytes = s.bytes ∧
      ∀ d, (t.child d).written program.count = (s.child d).written program.count) ∨
    ∃ i, s.child c = .write i ∧ i < program.count ∧
      t = { s.move c (.write (i + 1)) with buffer := s.buffer ++ [c.byte] } := by
  cases taken with
  | closeRead position =>
      refine .inl ⟨rfl, written_move ?_⟩
      rw [position]
      split <;> rfl
  | @written i position last =>
      rw [position] at bound
      have all : program.count = i := Nat.le_antisymm last bound
      refine .inl ⟨rfl, written_move ?_⟩
      rw [position]
      split <;> exact all
  | @kill i position =>
      have same : (ChildPc.killed i).written program.count =
          ((s.leave c).child c).written program.count := by
        simp [State.leave, position, ChildPc.written]
      exact .inl ⟨rfl, written_move same⟩
  | acquire position => exact .inl ⟨rfl, written_move (by rw [position]; rfl)⟩
  | sleep position => exact .inl ⟨rfl, written_move (by rw [position]; rfl)⟩
  | release position => exact .inl ⟨rfl, written_move (by rw [position]; rfl)⟩
  | @write i position more reader room => exact .inr ⟨i, position, more, rfl⟩

/-- The parent only moves bytes from the pipe into its array. -/
theorem ParentTaken.writes (stage : Stage program s) (taken : ParentTaken program s t) :
    t.bytes = s.bytes ∧
      ∀ d, (t.child d).written program.count = (s.child d).written program.count := by
  cases taken with
  | fork1 position =>
      cases stage with
      | early early => exact ⟨rfl, written_move (by rw [early.unborn1 position]; rfl)⟩
      | reading other | printed other | failed other => rw [position] at other; cases other
  | fork2 position =>
      cases stage with
      | early early => exact ⟨rfl, written_move (by rw [early.unborn2 (.inr position)]; rfl)⟩
      | reading other | printed other | failed other => rw [position] at other; cases other
  | read =>
      refine ⟨?_, fun _ => rfl⟩
      simp only [State.bytes]
      rw [List.append_assoc, List.take_append_drop]
  | forkFails | closeWrite | waitpid | wait | readFails | endOfFile | complete =>
      exact ⟨rfl, fun _ => rfl⟩

theorem Books.child (books : Books program s) (taken : ChildTaken program capacity s c t) :
    Books program t := by
  rcases taken.writes (books.bound c) with ⟨bytes, written⟩ | ⟨i, position, more, rfl⟩
  · exact books.of_same bytes written
  · have before := books.digits c
    have total := books.total
    rw [position] at before
    refine ⟨?_, ?_, ?_⟩
    · intro d
      have others := books.digits d
      simp only [State.bytes, State.move, ← List.append_assoc] at others before ⊢
      rw [List.count_append, others]
      rcases eq_or_ne d c with rfl | other
      · simp [position, ChildPc.written]
      · have differs : c.byte ≠ d.byte := by
          rw [eq_other_of_ne other]
          exact byte_ne_other
        rw [Function.update_of_ne other, List.count_singleton,
          if_neg (by simpa using differs), Nat.add_zero]
    · simp only [State.bytes, State.move, ← List.append_assoc, List.length_append,
        List.length_singleton] at total ⊢
      cases c with
      | one => simp [total, position, ChildPc.written]; omega
      | two => simp [total, position, ChildPc.written]; omega
    · intro d
      rcases eq_or_ne d c with rfl | other
      · simpa [State.move, ChildPc.written] using Nat.succ_le_of_lt more
      · simpa [State.move, other] using books.bound d

theorem Books.parent (books : Books program s) (stage : Stage program s)
    (taken : ParentTaken program s t) : Books program t := by
  obtain ⟨bytes, written⟩ := taken.writes stage
  exact books.of_same bytes written

theorem books_start : Books program start :=
  ⟨by intro c; cases c <;> rfl, rfl, fun _ => Nat.zero_le _⟩

theorem books_of_reached (reached : Reached program capacity s) : Books program s := by
  refine (reached.invariant (fun s => Stage program s ∧ Books program s)
    ⟨stage_start, books_start⟩ ?_).2
  intro s a t both stepped
  obtain ⟨stage, books⟩ := both
  cases a with
  | child c =>
      have taken := childTaken_of_step program capacity stepped
      exact ⟨stage.child taken, books.child taken⟩
  | parent choice =>
      have taken := parentTaken_of_step program stepped
      exact ⟨stage.parent taken, books.parent stage taken⟩

/-! ## The report -/

theorem countDigits_eq (text : List Char) : countDigits text = (text.count '1', text.count '2') := by
  induction text with
  | nil => rfl
  | cons x rest ih =>
      rw [countDigits, ih]
      by_cases one : x = '1'
      · subst one
        simp
      · by_cases two : x = '2'
        · subst two
          simp
        · simp [one, two]

theorem twoDigits_le (text : List Char) : text.count '1' + text.count '2' ≤ text.length := by
  induction text with
  | nil => exact Nat.le_refl 0
  | cons x rest ih =>
      rw [List.count_cons, List.count_cons, List.length_cons]
      by_cases one : x = '1'
      · subst one
        simp
        omega
      · rw [if_neg (by simpa using one)]
        split <;> omega

/-- Where the two counts add up to the length, there are no other bytes. -/
theorem onlyDigits {text : List Char} (all : text.length = text.count '1' + text.count '2') :
    ∀ x ∈ text, ∃ c : Child, x = c.byte := by
  induction text with
  | nil => simp
  | cons x rest ih =>
      have atMost := twoDigits_le rest
      rw [List.count_cons, List.count_cons, List.length_cons] at all
      by_cases one : x = '1'
      · subst one
        simp only [beq_self_eq_true, if_true, if_neg (by decide : ¬(('1' : Char) == '2') = true)]
          at all
        exact List.forall_mem_cons.mpr ⟨⟨.one, rfl⟩, ih (by omega)⟩
      · rw [if_neg (by simpa using one)] at all
        by_cases two : x = '2'
        · rw [if_pos (by simpa using two)] at all
          exact List.forall_mem_cons.mpr ⟨⟨.two, two⟩, ih (by omega)⟩
        · rw [if_neg (by simpa using two)] at all
          omega

/-- Both children have exited: all bytes are there. -/
theorem Books.complete (books : Books program s) (both : ∀ c, s.child c = .exited) :
    s.bytes.length = program.limit ∧ ∀ c : Child, s.bytes.count c.byte = program.count := by
  refine ⟨?_, fun c => ?_⟩
  · rw [books.total, both, both, Program.limit, Nat.two_mul]
    rfl
  · rw [books.digits, both]
    rfl

end OsLab.Pipe
