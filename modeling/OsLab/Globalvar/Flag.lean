import OsLab.Globalvar.Bounds

/-!
# The flag and the unread bytes

A reader waits for the flag, so the flag must be set while there are unread bytes. Every
read clears it, whatever it takes. It is left clear over unread bytes by a read that is
shorter than what is unread, by one that ends at `end` while the rest is at the beginning
of the buffer, and by one whose copy fails.

`KeepsFlag` is the condition on a statement: where a read clears the flag, it takes all
that is unread or some write is about to set the flag again, and a copy does not fail when
its read was to take the rest. In the runs that meet it, unread bytes are announced by the
flag, by a write on its way to set it, or by a reader that takes them all (`Alert`), and in
a state with no call in progress only the flag is left (`flag_of_keepsFlag`). A read that
breaks the condition blocks the next one (`blocked_of_short_read`, `blocked_of_fault`).
-/

set_option autoImplicit false

namespace OsLab.Globalvar

open OsLab.Foundation
open OsLab.MessageQueue (WaitPc WaitNext waitEventInterruptible)

variable {ι : Type}

/-! ## Announcements -/

/-- A write that moved `wr` and has not set the flag. -/
def Pc.owesFlag : Pc → Bool
  | .writing _ _ (.wrap _) | .writing _ _ (.up _) | .writing _ _ (.setFlag _) => true
  | _ => false

/-- What a read takes that cleared the flag and has not moved `rd`. -/
def Pc.takes (pc : Pc) (r : Ring) : Nat :=
  match pc with
  | .reading len .clip => min len (contiguous r.rd r.wr)
  | .reading _ (.copy n) | .reading _ (.advance n _) => n
  | _ => 0

/-- The flag is set, or a write is about to set it, or a read takes all that is unread. -/
def Announced (s : State ι) : Prop :=
  s.dev.flag ≠ 0 ∨ (∃ j, (s.pc j).owesFlag = true) ∨
    ∃ j, s.accepted.length ≤ s.returned.length + (s.pc j).takes s.ring

/-- Unread bytes are announced. -/
def Alert (s : State ι) : Prop := s.returned.length < s.accepted.length → Announced s

/-- The condition on a statement. -/
def KeepsFlag (s : State ι) (a : ι × Choice) : Prop :=
  match s.pc a.1, a.2 with
  | .reading len .clearFlag, _ =>
      (s.accepted.length ≤ s.returned.length + len ∧
        s.accepted.length ≤ s.returned.length + contiguous s.dev.rd s.dev.wr) ∨
      ∃ j, (s.pc j).owesFlag = true
  | .reading _ (.copy _), .fault _ =>
      s.accepted.length ≤ s.returned.length ∨ s.dev.flag ≠ 0 ∨ ∃ j, (s.pc j).owesFlag = true
  | _, _ => True

instance (s : State Bool) (a : Bool × Choice) : Decidable (KeepsFlag s a) := by
  unfold KeepsFlag
  split <;> infer_instance

theorem inside_of_takes {pc : Pc} {r : Ring} (takes : 0 < pc.takes r) : pc.inside = true := by
  cases pc with
  | reading len rpc => cases rpc <;> first | rfl | cases takes
  | _ => cases takes

@[simp] theorem Pc.owesFlag_wakeUp (pc : Pc) : pc.wakeUp.owesFlag = pc.owesFlag := by
  cases pc with
  | reading len rpc => cases rpc <;> rfl
  | _ => rfl

/-- A write owes the flag until it sets it. -/
theorem next_owesFlag {dev : ScullDev ι} {pc pc' : Pc} {choice : Choice} {effect : Effect}
    (decided : next dev pc choice = some (effect, pc')) (owes : pc.owesFlag = true) :
    pc'.owesFlag = true ∨ effect = .setFlag := by
  cases pc with
  | writing len buf wpc =>
      cases wpc with
      | wrap | up =>
          cases choice <;> cases decided
          exact .inl rfl
      | setFlag =>
          cases choice <;> cases decided
          exact .inr rfl
      | _ => cases owes
  | _ => cases owes

/-- Bytes are accepted by a write that owes the flag from then on. -/
theorem next_advanceWr {dev : ScullDev ι} {pc pc' : Pc} {choice : Choice} {n : Nat}
    {data : List UInt8} (decided : next dev pc choice = some (.advanceWr n data, pc')) :
    pc'.owesFlag = true := by
  rcases next_cases decided with ⟨_, _, _, _⟩ | ⟨_, _, _, _⟩ | ⟨len, rpc, rfl, reads⟩ |
    ⟨len, buf, wpc, rfl, writes⟩
  · contradiction
  · contradiction
  · unfold globalvarReadNext at reads
    split at reads <;> grind
  · unfold globalvarWriteNext at writes
    split at writes <;> grind [Pc.owesFlag]

/-- The flag is cleared by a read. -/
theorem next_clearFlag {dev : ScullDev ι} {pc pc' : Pc} {choice : Choice}
    (decided : next dev pc choice = some (.clearFlag, pc')) :
    ∃ len, pc = .reading len .clearFlag ∧ pc' = .reading len .clip := by
  rcases next_cases decided with ⟨_, _, _, _⟩ | ⟨_, _, _, _⟩ | ⟨len, rpc, rfl, reads⟩ |
    ⟨len, buf, wpc, rfl, writes⟩
  · contradiction
  · contradiction
  · unfold globalvarReadNext at reads
    split at reads <;> grind
  · unfold globalvarWriteNext at writes
    split at writes <;> grind

variable [DecidableEq ι]

theorem after_owesFlag (s : State ι) (i j : ι) (effect : Effect) (pc : Pc) :
    ((s.after i effect pc).pc j).owesFlag = (if j = i then pc else s.pc j).owesFlag := by
  cases effect with
  | wake => exact Pc.owesFlag_wakeUp _
  | _ => rfl

theorem after_flag (s : State ι) (i : ι) {effect : Effect} (pc : Pc)
    (set : s.dev.flag ≠ 0 ∨ effect = .setFlag) (kept : effect ≠ .clearFlag) :
    (s.after i effect pc).dev.flag ≠ 0 := by
  cases effect with
  | clearFlag => exact absurd rfl kept
  | setFlag => exact Int.one_ne_zero
  | _ =>
      rcases set with before | now
      · exact before
      · cases now

/-- Another client that owes the flag still does. -/
theorem owed_of_other {s : State ι} {i j : ι} {effect : Effect} {pc : Pc} (other : j ≠ i)
    (owes : (s.pc j).owesFlag = true) :
    ∃ k, ((s.after i effect pc).pc k).owesFlag = true :=
  ⟨j, by rwa [after_owesFlag, if_neg other]⟩

/-- A write that owes the flag still does after a statement of a read. -/
theorem owed_of_reading {s : State ι} {i j : ι} {len : Nat} {rpc : ReadPc} {effect : Effect}
    {pc : Pc} (position : s.pc i = .reading len rpc) (owes : (s.pc j).owesFlag = true) :
    ∃ k, ((s.after i effect pc).pc k).owesFlag = true := by
  have other : j ≠ i := by
    rintro rfl
    rw [position] at owes
    cases owes
  exact owed_of_other other owes

/-! ## One statement -/

section Statement

variable {s : State ι} {a : ι × Choice} {effect : Effect} {pc : Pc}

/-- A set flag is cleared only by a read that takes the rest, or before a write sets it
again. -/
theorem announced_of_flag (keeps : KeepsFlag s a)
    (decided : next s.dev (s.pc a.1) a.2 = some (effect, pc)) (set : s.dev.flag ≠ 0) :
    Announced (s.after a.1 effect pc) := by
  by_cases cleared : effect = .clearFlag
  · subst cleared
    obtain ⟨len, position, rfl⟩ := next_clearFlag decided
    simp only [KeepsFlag, position] at keeps
    rcases keeps with ⟨short, unbroken⟩ | ⟨j, owes⟩
    · refine .inr (.inr ⟨a.1, ?_⟩)
      rw [after_pc_self s a.1 rfl, after_ring]
      change s.accepted.length ≤ s.returned.length + min len (contiguous s.dev.rd s.dev.wr)
      omega
    · exact .inr (.inl (owed_of_reading position owes))
  · exact .inl (after_flag s a.1 pc (.inl set) cleared)

/-- What a write owes it keeps owing, or pays. -/
theorem announced_of_owes (decided : next s.dev (s.pc a.1) a.2 = some (effect, pc)) {j : ι}
    (owes : (s.pc j).owesFlag = true) : Announced (s.after a.1 effect pc) := by
  rcases eq_or_ne j a.1 with rfl | other
  · rcases next_owesFlag decided owes with still | rfl
    · exact .inr (.inl ⟨a.1, by rwa [after_owesFlag, if_pos rfl]⟩)
    · exact .inl (after_flag s a.1 pc (.inr rfl) (by simp))
  · exact .inr (.inl (owed_of_other other owes))

/-- A read that takes the rest goes on to take it. -/
theorem announced_of_takes (holding : Holding Ring.InBounds Pc.Bounded s) (keeps : KeepsFlag s a)
    (decided : next s.dev (s.pc a.1) a.2 = some (effect, pc))
    (some : s.returned.length < s.accepted.length)
    (all : s.accepted.length ≤ s.returned.length + (s.pc a.1).takes s.ring)
    (unread : (s.after a.1 effect pc).returned.length < (s.after a.1 effect pc).accepted.length) :
    Announced (s.after a.1 effect pc) := by
  have inside : (s.pc a.1).inside = true := inside_of_takes (r := s.ring) (by omega)
  have bounded := holding.held a.1 ((holding.exclusive a.1).mp inside)
  cases position : s.pc a.1 with
  | reading len rpc =>
      rw [position] at decided all bounded
      simp only [KeepsFlag, position] at keeps
      cases rpc with
      | clip =>
          cases choice : a.2 <;> rw [choice] at decided <;> cases decided
          have bounds : s.ring.InBounds := bounded
          refine .inr (.inr ⟨a.1, ?_⟩)
          rw [after_pc_self s a.1 rfl, after_ring]
          have clipped : readLen s.dev.rd s.dev.wr len = min len (contiguous s.dev.rd s.dev.wr) :=
            readLen_eq len bounds.rd.le bounds.wr.le
          change s.accepted.length ≤ s.returned.length + readLen s.dev.rd s.dev.wr len
          rw [clipped]
          exact all
      | copy n =>
          cases choice : a.2 with
          | go =>
              rw [choice] at decided
              cases decided
              refine .inr (.inr ⟨a.1, ?_⟩)
              rw [after_pc_self s a.1 rfl, after_ring]
              exact all
          | fault done =>
              simp only [choice] at keeps
              rw [choice] at decided
              simp only [next, globalvarReadNext] at decided
              split at decided <;> cases decided
              rcases keeps with none | set | ⟨j, owes⟩
              · omega
              · exact .inl (after_flag s a.1 _ (.inl set) (by simp))
              · exact .inr (.inl (owed_of_reading position owes))
          | _ =>
              rw [choice] at decided
              cases decided
      | advance n data =>
          cases choice : a.2 <;> rw [choice] at decided <;> cases decided
          change (s.returned ++ data).length < s.accepted.length at unread
          rw [List.length_append, bounded.2.2] at unread
          have taken : (Pc.reading len (.advance n data)).takes s.ring = n := rfl
          omega
      | _ =>
          change s.accepted.length ≤ s.returned.length + 0 at all
          omega
  | _ =>
      rw [position] at all
      change s.accepted.length ≤ s.returned.length + 0 at all
      omega

/-- A read of another client is where it was, with the same ring. -/
theorem announced_of_other (holding : Holding Ring.InBounds Pc.Bounded s)
    (decided : next s.dev (s.pc a.1) a.2 = some (effect, pc))
    (some : s.returned.length < s.accepted.length) {j : ι} (other : j ≠ a.1)
    (all : s.accepted.length ≤ s.returned.length + (s.pc j).takes s.ring) :
    Announced (s.after a.1 effect pc) := by
  have inside : (s.pc j).inside = true := inside_of_takes (r := s.ring) (by omega)
  have unchanged : (s.after a.1 effect pc).ring = s.ring := by
    rw [after_ring]
    exact holding.exclusive.onRing_eq decided other inside
  refine .inr (.inr ⟨j, ?_⟩)
  rw [after_pc_inside s (by rwa [if_neg other]), if_neg other, unchanged]
  have accepted : (s.after a.1 effect pc).accepted = s.accepted := congrArg Ring.accepted unchanged
  have returned : (s.after a.1 effect pc).returned = s.returned := congrArg Ring.returned unchanged
  rw [accepted, returned]
  exact all

/-- Bytes become unread only by a write that owes the flag. -/
theorem unread_before (decided : next s.dev (s.pc a.1) a.2 = some (effect, pc))
    (unread : (s.after a.1 effect pc).returned.length < (s.after a.1 effect pc).accepted.length) :
    s.returned.length < s.accepted.length ∨ pc.owesFlag = true := by
  cases effect with
  | advanceWr n data => exact .inr (next_advanceWr decided)
  | advanceRd n data =>
      change (s.returned ++ data).length < s.accepted.length at unread
      rw [List.length_append] at unread
      exact .inl (by omega)
  | _ => exact .inl unread

end Statement

theorem Alert.step {s t : State ι} {a : ι × Choice} (holding : Holding Ring.InBounds Pc.Bounded s)
    (alert : Alert s) (keeps : KeepsFlag s a) (stepped : Step s a t) : Alert t := by
  obtain ⟨effect, pc, decided, rfl⟩ := step_cases stepped
  intro unread
  rcases unread_before decided unread with before | owes
  · rcases alert before with set | ⟨j, owes⟩ | ⟨j, all⟩
    · exact announced_of_flag keeps decided set
    · exact announced_of_owes decided owes
    · rcases eq_or_ne j a.1 with rfl | other
      · exact announced_of_takes holding keeps decided before all unread
      · exact announced_of_other holding decided before other all
  · exact .inr (.inl ⟨a.1, by rwa [after_owesFlag, if_pos rfl]⟩)

/-! ## The result -/

/-- With no call in progress and bytes unread, the flag is set, and the next read does not
go to sleep: it finds the flag in the first test of its wait. -/
def State.ReaderAwake (s : State ι) : Prop :=
  (∀ i, s.pc i = .idle) → s.returned.length < s.accepted.length →
    s.dev.flag ≠ 0 ∧
      ∀ i len, ∃ t, replay step [(i, .call (.globalvarRead len)), (i, .go)] s = some t ∧
        t.pc i = .reading len .down

theorem Alert.readerAwake {s : State ι} (alert : Alert s) : s.ReaderAwake := by
  intro quiet unread
  have set : s.dev.flag ≠ 0 := by
    rcases alert unread with set | ⟨j, owes⟩ | ⟨j, all⟩
    · exact set
    · rw [quiet j] at owes
      cases owes
    · rw [quiet j] at all
      change s.accepted.length ≤ s.returned.length + 0 at all
      omega
  refine ⟨set, fun i len => ?_⟩
  simp [replay, Globalvar.step, next, quiet i, Call.entry, State.after, State.apply,
    globalvarReadNext, Choice.ofWait, waitEventInterruptible, set]

/-- **A reader is not blocked while data is unread, where every read takes all that is
unread.** Or leaves it to a write that is about to set the flag. -/
theorem flag_of_keepsFlag {trace : List (State ι × (ι × Choice))} {s : State ι}
    (run : Run Step globalvarInit trace s) (keeps : ∀ p ∈ trace, KeepsFlag p.1 p.2) :
    s.ReaderAwake ∧ ∀ p ∈ trace, p.1.ReaderAwake := by
  have start : Holding Ring.InBounds Pc.Bounded (globalvarInit : State ι) ∧
      Alert (globalvarInit : State ι) :=
    ⟨Holding.init inBounds_init, nofun⟩
  obtain ⟨last, earlier⟩ := run.always_of_guard
    (fun s => Holding Ring.InBounds Pc.Bounded s ∧ Alert s) KeepsFlag start
    (fun _ _ _ before keeps stepped =>
      ⟨bounded_rule.step before.1 trivial stepped, before.2.step before.1 keeps stepped⟩) keeps
  exact ⟨last.2.readerAwake, fun p member => (earlier p member).2.readerAwake⟩

/-- **The condition is needed.** A read that clears the flag, is too short for what is unread
and has no write behind it that sets the flag again leaves the flag clear: when no other call
is in progress the next reader is blocked. -/
theorem blocked_of_short_read {s : State ι} {i : ι} {len : Nat} (reached : ReachableState s)
    (position : s.pc i = .reading len .clearFlag) (others : ∀ j, j ≠ i → s.pc j = .idle)
    (short : ¬ KeepsFlag s (i, .go)) :
    ∃ t, replay step (List.replicate 7 (i, .go)) s = some t ∧ ¬ t.ReaderAwake := by
  have bounds : s.ring.InBounds := bounded_of_inside reached position rfl
  simp only [KeepsFlag, position, not_or] at short
  refine ⟨_, replay_next position rfl (replay_next (after_pc_self _ i rfl) rfl
    (replay_next (after_pc_self _ i rfl) rfl (replay_next (after_pc_self _ i rfl) rfl
    (replay_next (after_pc_self _ i rfl) rfl (replay_next (after_pc_self _ i rfl) rfl
    (replay_next (if_pos rfl) rfl rfl)))))), ?_⟩
  intro awake
  refine (awake ?_ ?_).1 rfl
  · intro j
    rcases eq_or_ne j i with rfl | other
    · exact if_pos rfl
    · simp [State.after, State.apply, other, others j other]
  · have clipped : readLen s.dev.rd s.dev.wr len = min len (contiguous s.dev.rd s.dev.wr) :=
      readLen_eq len bounds.rd.le bounds.wr.le
    change (s.returned ++ (s.dev.buffer.drop s.dev.rd).take (readLen s.dev.rd s.dev.wr len)).length <
      s.accepted.length
    rw [List.length_append, List.length_take, clipped]
    omega

/-- The same for a read whose copy fails after it cleared the flag. -/
theorem blocked_of_fault {s : State ι} {i : ι} {len n done : Nat}
    (position : s.pc i = .reading len (.copy n)) (others : ∀ j, j ≠ i → s.pc j = .idle)
    (partly : done < n) (lost : ¬ KeepsFlag s (i, .fault done)) :
    ∃ t, replay step [(i, .fault done), (i, .go), (i, .go)] s = some t ∧ ¬ t.ReaderAwake := by
  simp only [KeepsFlag, position, not_or, not_not, Nat.not_le] at lost
  obtain ⟨unread, clear, -⟩ := lost
  refine ⟨_, replay_next position (if_pos partly) (replay_next (after_pc_self _ i rfl) rfl
    (replay_next (if_pos rfl) rfl rfl)), ?_⟩
  intro awake
  refine (awake ?_ unread).1 clear
  intro j
  rcases eq_or_ne j i with rfl | other
  · exact if_pos rfl
  · simp [State.after, State.apply, other, others j other]

/-- One client writes 3 bytes, another reads all of them, and the first writes 2 more. -/
def refill : List (Bool × Choice) :=
  alone false (.globalvarWrite 3 fun m => UInt8.ofNat m) 9 ++ alone true (.globalvarRead 8) 9 ++
    alone false (.globalvarWrite 2 fun m => UInt8.ofNat (3 + m)) 9

theorem flag_of_keepsFlag_refill :
    ∃ trace, ∃ s : State Bool, Run Step globalvarInit trace s ∧ s.accepted = [0, 1, 2, 3, 4] ∧
      s.returned = [0, 1, 2] ∧ s.dev.flag ≠ 0 := by
  obtain ⟨s, ran⟩ := Option.isSome_iff_exists.mp
    (show (replay step refill globalvarInit).isSome from rfl)
  have run : Run Step globalvarInit _ s := run_of_replay ran
  have keeps : ∀ p ∈ traceOf step refill globalvarInit, KeepsFlag p.1 p.2 := by
    decide +kernel
  have quiet : ∀ i, s.pc i = .idle := by
    cases ran
    intro i
    cases i <;> rfl
  have accepted : s.accepted = [0, 1, 2, 3, 4] := by
    cases ran
    rfl
  have returned : s.returned = [0, 1, 2] := by
    cases ran
    rfl
  have unread : s.returned.length < s.accepted.length := by
    rw [accepted, returned]
    decide
  exact ⟨_, s, run, accepted, returned, ((flag_of_keepsFlag run keeps).1 quiet unread).1⟩

/-- **A reader is blocked while bytes are unread.** A write of 3 bytes sets the flag, a read
of 1 byte clears it, and the next read goes to sleep over the other 2. -/
theorem short_read_clears_flag :
    ∃ s : State Unit, ReachableState s ∧ (∀ i, s.pc i = .idle) ∧ s.accepted = [1, 2, 3] ∧
      s.returned = [1] ∧ s.dev.flag = 0 ∧ ¬ s.ReaderAwake := by
  obtain ⟨s, ran⟩ := Option.isSome_iff_exists.mp
    (show (replay step (alone () (.globalvarWrite 3 fun m => UInt8.ofNat (m + 1)) 9 ++
      alone () (.globalvarRead 1) 9) globalvarInit).isSome from rfl)
  have reached : ReachableState s := Reachable.refl.replay ran
  have quiet : ∀ i, s.pc i = .idle := by
    cases ran
    intro i
    rfl
  have clear : s.dev.flag = 0 := by
    cases ran
    rfl
  have accepted : s.accepted = [1, 2, 3] := by
    cases ran
    rfl
  have returned : s.returned = [1] := by
    cases ran
    rfl
  refine ⟨s, reached, quiet, accepted, returned, clear, fun awake => ?_⟩
  have unread : s.returned.length < s.accepted.length := by
    rw [accepted, returned]
    decide
  exact (awake quiet unread).1 clear

end OsLab.Globalvar
