import OsLab.Signals.Model

/-!
# What a step can do

Two views of a step, each with everything that later invariants need:

* `ParentTaken` is a statement of the parent. Most statements only move on; the others
  install a handler, fork a child, read a byte or send a signal.
* `Touched` is what a step does to one child: nothing, its `fork`, a signal that is sent
  or delivered to it, or its own next statement (`ChildMove`).

`Follows` says how the position of the parent may change while it moves on, in terms of
what a position says about the past: the bytes that were read, the handlers that were
installed, and the children that were forked and signalled.
-/

set_option autoImplicit false

namespace OsLab.Signals

open OsLab.Foundation

/-! ## What a position of the parent says -/

/-- The bytes that were read. -/
def ParentPc.readyCount : ParentPc → Nat
  | .ready readyCount | .read readyCount => readyCount
  | .closeRead | .sleepTest _ | .sleep _ | .alarm | .pauseTest | .pause | .paused | .kill _
  | .wait => 2
  | _ => 0

/-- The handlers of `SIGINT` and `SIGQUIT` that were installed. -/
def ParentPc.handles : ParentPc → Sig → Bool
  | .pipe, _ | .signalInt, _ | .exited, _ => false
  | .signalQuit, sig => sig = .sigint
  | _, sig => sig = .sigint ∨ sig = .sigquit

/-- The children that were forked. -/
def ParentPc.forked : ParentPc → Child → Bool
  | .pipe, _ | .signalInt, _ | .signalQuit, _ | .signalAlrm, _ | .fork .one, _ => false
  | .fork .two, c => c = .one
  | _, _ => true

/-- The children that were signalled. -/
def ParentPc.signalled : ParentPc → Child → Bool
  | .kill .two, c => c = .one
  | .wait, _ | .exited, _ => true
  | _, _ => false

/-- The parent moves on: what the new position says about the past held before. -/
structure Follows (old new : ParentPc) : Prop where
  count : new.readyCount ≤ old.readyCount
  handles : ∀ sig, new.handles sig = true → old.handles sig = true
  unforked : ∀ c, new.forked c = false → old.forked c = false
  unsignalled : ∀ c, new.signalled c = false → old.signalled c = false

theorem Follows.refl (pc : ParentPc) : Follows pc pc :=
  ⟨Nat.le_refl _, fun _ => id, fun _ => id, fun _ => id⟩

/-- Positions that say the same about handlers and children. -/
theorem Follows.of_same {old new : ParentPc} (count : new.readyCount ≤ old.readyCount)
    (handles : new.handles = old.handles) (forked : new.forked = old.forked)
    (signalled : new.signalled = old.signalled) : Follows old new where
  count := count
  handles sig := by rw [handles]; exact id
  unforked c := by rw [forked]; exact id
  unsignalled c := by rw [signalled]; exact id

theorem Follows.fork_one : Follows (.fork .one) (.fork .two) :=
  ⟨Nat.le_refl _, fun _ => id, fun _ _ => rfl, fun _ _ => rfl⟩

theorem Follows.fork_two : Follows (.fork .two) .closeWrite where
  count := Nat.le_refl _
  handles _ := id
  unforked _ := by simp [ParentPc.forked]
  unsignalled _ _ := rfl

theorem Follows.kill_one : Follows (.kill .one) (.kill .two) :=
  ⟨Nat.le_refl _, fun _ => id, fun _ => id, fun _ _ => rfl⟩

theorem Follows.kill_two : Follows (.kill .two) .wait where
  count := Nat.le_refl _
  handles _ := id
  unforked _ := id
  unsignalled _ := by simp [ParentPc.signalled]

/-- The end of the parent says nothing about the past. -/
theorem Follows.exited (pc : ParentPc) : Follows pc .exited := by
  constructor <;> simp [ParentPc.readyCount, ParentPc.handles, ParentPc.forked, ParentPc.signalled]

theorem Follows.resume (pc : ParentPc) : Follows pc pc.resume := by
  cases pc with
  | sleep waited => exact .of_same (Nat.le_refl _) rfl rfl rfl
  | paused => exact .of_same (Nat.le_refl _) rfl rfl rfl
  | _ => exact Follows.refl _

theorem Follows.deliver (p : Process ParentPc) (sig : Sig) :
    Follows p.pc (p.deliver ParentPc.resume .exited sig).pc := by
  cases table : p.handler sig with
  | some handler =>
      rw [Process.deliver_pc table]
      exact Follows.resume p.pc
  | none =>
      simp only [Process.deliver, table]
      split
      · exact Follows.refl p.pc
      · exact Follows.exited p.pc

/-! ## The statements of the parent -/

inductive ParentTaken (s : State) : State → Prop where
  | move {pc : ParentPc} {armed : Bool} (follows : Follows s.parent.pc pc) :
      ParentTaken s { s.goto pc with armed := armed }
  | install {sig : Sig} {pc : ParentPc} (early : pc.readyCount = 0)
      (handles : ∀ other, pc.handles other = true → other = sig ∨ s.parent.pc.handles other = true)
      (unforked : ∀ c, s.parent.pc.forked c = false)
      (unsignalled : ∀ c, s.parent.pc.signalled c = false) :
      ParentTaken s { s with parent := (s.parent.signal sig .interHandler).goto pc }
  | fork {c : Child} {pc : ParentPc} (position : s.parent.pc = .fork c)
      (follows : Follows (.fork c) pc) (now : pc.forked c = true) :
      ParentTaken s ((s.setChild c s.parent.forked).goto pc)
  | read {readyCount : Nat} (position : s.parent.pc = .read readyCount) (some : 0 < s.bytes) :
      ParentTaken s { s.goto (.ready (readyCount + 1)) with bytes := s.bytes - 1 }
  | kill {c : Child} {pc : ParentPc} (position : s.parent.pc = .kill c)
      (follows : Follows (.kill c) pc) (now : pc.signalled c = true) :
      ParentTaken s ((s.setChild c ((s.child c).send c.signal)).goto pc)

theorem ParentTaken.goto {s t : State} {old new : ParentPc} (position : s.parent.pc = old)
    (stepped : some (s.goto new) = some t) (follows : Follows old new) : ParentTaken s t := by
  rw [← Option.some.inj stepped]
  exact .move (position ▸ follows)

/-- `signal` before the children are forked. -/
theorem ParentTaken.of_signal {s t : State} {old new : ParentPc} {sig : Sig}
    (position : s.parent.pc = old)
    (stepped : some { s with parent := (s.parent.signal sig .interHandler).goto new } = some t)
    (early : new.readyCount = 0)
    (handles : ∀ other, new.handles other = true → other = sig ∨ old.handles other = true)
    (unforked : ∀ c, old.forked c = false) (unsignalled : ∀ c, old.signalled c = false) :
    ParentTaken s t := by
  rw [← Option.some.inj stepped]
  subst position
  exact .install early handles unforked unsignalled

theorem parentTaken_of_next {program : Program} {s t : State} {outcome : Outcome}
    (stepped : parentNext program s outcome = some t) : ParentTaken s t := by
  unfold parentNext at stepped
  cases position : s.parent.pc with
  | pipe =>
      cases outcome with
      | done =>
          simp only [position] at stepped
          exact .goto position stepped (.of_same (Nat.le_refl _) rfl rfl rfl)
      | failed =>
          simp only [position] at stepped
          exact .goto position stepped (.exited _)
  | signalInt =>
      cases outcome with
      | done =>
          simp only [position] at stepped
          exact .of_signal position stepped rfl (by simp [ParentPc.handles]) (fun _ => rfl)
            (fun _ => rfl)
      | failed =>
          simp only [position] at stepped
          exact .goto position stepped (.exited _)
  | signalQuit =>
      cases outcome with
      | done =>
          cases program with
          | sleeps =>
              simp only [position] at stepped
              exact .of_signal position stepped rfl (by simp [ParentPc.handles, or_comm])
                (fun _ => rfl) (fun _ => rfl)
          | alarms =>
              simp only [position] at stepped
              exact .of_signal position stepped rfl (by simp [ParentPc.handles, or_comm])
                (fun _ => rfl) (fun _ => rfl)
      | failed =>
          simp only [position] at stepped
          exact .goto position stepped (.exited _)
  | signalAlrm =>
      cases outcome with
      | done =>
          simp only [position] at stepped
          exact .of_signal position stepped rfl (by simp [ParentPc.handles]) (fun _ => rfl)
            (fun _ => rfl)
      | failed =>
          simp only [position] at stepped
          exact .goto position stepped (.exited _)
  | fork c =>
      cases outcome with
      | done =>
          cases c with
          | one =>
              simp only [position, Option.some_inj] at stepped
              subst stepped
              exact .fork position .fork_one rfl
          | two =>
              simp only [position, Option.some_inj] at stepped
              subst stepped
              exact .fork position .fork_two rfl
      | failed =>
          cases c with
          | _ =>
              simp only [position, Option.some_inj] at stepped
              subst stepped
              exact .move (Follows.refl _)
  | closeWrite =>
      simp only [position] at stepped
      exact .goto position stepped (.of_same (Nat.le_refl _) rfl rfl rfl)
  | ready readyCount =>
      simp only [position] at stepped
      split at stepped
      · exact .goto position stepped (.of_same (Nat.le_refl _) rfl rfl rfl)
      · exact .goto position stepped (.of_same (Nat.not_lt.mp ‹_›) rfl rfl rfl)
  | read readyCount =>
      cases outcome with
      | done =>
          simp only [position] at stepped
          split at stepped
          · cases stepped
            exact .read position ‹_›
          · cases stepped
      | failed =>
          simp only [position] at stepped
          exact .goto position stepped (.of_same (Nat.le_refl _) rfl rfl rfl)
  | closeRead =>
      cases program with
      | sleeps =>
          simp only [position] at stepped
          exact .goto position stepped (.of_same (Nat.le_refl _) rfl rfl rfl)
      | alarms =>
          simp only [position] at stepped
          exact .goto position stepped (.of_same (Nat.le_refl _) rfl rfl rfl)
  | sleepTest waited =>
      simp only [position] at stepped
      split at stepped
      · exact .goto position stepped (.of_same (Nat.le_refl _) rfl rfl rfl)
      · exact .goto position stepped (.of_same (Nat.le_refl _) rfl rfl rfl)
  | sleep waited =>
      simp only [position] at stepped
      exact .goto position stepped (.of_same (Nat.le_refl _) rfl rfl rfl)
  | alarm =>
      simp only [position, Option.some_inj] at stepped
      subst stepped
      exact .move (position ▸ .of_same (Nat.le_refl _) rfl rfl rfl)
  | pauseTest =>
      simp only [position] at stepped
      split at stepped
      · exact .goto position stepped (.of_same (Nat.le_refl _) rfl rfl rfl)
      · exact .goto position stepped (.of_same (Nat.le_refl _) rfl rfl rfl)
  | pause =>
      simp only [position] at stepped
      exact .goto position stepped (.of_same (Nat.le_refl _) rfl rfl rfl)
  | paused =>
      simp only [position] at stepped
      cases stepped
  | kill c =>
      cases outcome with
      | done =>
          cases c with
          | one =>
              simp only [position, Option.some_inj] at stepped
              subst stepped
              exact .kill position .kill_one rfl
          | two =>
              simp only [position, Option.some_inj] at stepped
              subst stepped
              exact .kill position .kill_two rfl
      | failed =>
          cases c with
          | one =>
              simp only [position] at stepped
              exact .goto position stepped .kill_one
          | two =>
              simp only [position] at stepped
              exact .goto position stepped .kill_two
  | wait =>
      simp only [position] at stepped
      split at stepped
      · exact .goto position stepped (.exited _)
      · cases stepped
  | exited =>
      simp only [position] at stepped
      cases stepped

/-! ## The statements of a child -/

/-- The next statement of a child. -/
inductive ChildMove (c : Child) (p : Process ChildPc) : Process ChildPc → Prop where
  | closeRead (position : p.pc = .closeRead) : ChildMove c p (p.goto .signal)
  | signal (position : p.pc = .signal) :
      ChildMove c p ((p.signal c.signal .childSignalHandler).goto .write)
  | signalFails (position : p.pc = .signal) : ChildMove c p (p.goto (.exited 1))
  | write (position : p.pc = .write) : ChildMove c p (p.goto .test)
  | stay (position : p.pc = .test) (none : p.childRecvSig = 0) : ChildMove c p (p.goto .pause)
  | leave (position : p.pc = .test) (some : p.childRecvSig ≠ 0) : ChildMove c p (p.goto .report)
  | pause (position : p.pc = .pause) : ChildMove c p (p.goto .paused)
  | exit (position : p.pc = .report) : ChildMove c p (p.goto (.exited 0))

/-- Its byte is in the pipe at most when the child was at `write`. -/
theorem childMove_of_next {s t : State} {c : Child} {outcome : Outcome}
    (stepped : childNext s c outcome = some t) :
    ∃ p bytes, ChildMove c (s.child c) p ∧ t = { s.setChild c p with bytes := bytes } ∧
      (bytes = s.bytes ∨ (s.child c).pc = .write ∧ bytes = s.bytes + 1) := by
  unfold childNext at stepped
  cases position : (s.child c).pc with
  | closeRead =>
      simp only [position, Option.some_inj] at stepped
      exact ⟨_, _, .closeRead position, stepped.symm, .inl rfl⟩
  | signal =>
      cases outcome with
      | done =>
          simp only [position, Option.some_inj] at stepped
          exact ⟨_, _, .signal position, stepped.symm, .inl rfl⟩
      | failed =>
          simp only [position, Option.some_inj] at stepped
          exact ⟨_, _, .signalFails position, stepped.symm, .inl rfl⟩
  | write =>
      cases outcome with
      | done =>
          simp only [position, Option.some_inj] at stepped
          exact ⟨_, _, .write position, stepped.symm, .inr ⟨rfl, rfl⟩⟩
      | failed =>
          simp only [position, Option.some_inj] at stepped
          exact ⟨_, _, .write position, stepped.symm, .inl rfl⟩
  | test =>
      simp only [position, Option.some_inj] at stepped
      split at stepped
      · exact ⟨_, _, .stay position ‹_›, stepped.symm, .inl rfl⟩
      · exact ⟨_, _, .leave position ‹_›, stepped.symm, .inl rfl⟩
  | pause =>
      simp only [position, Option.some_inj] at stepped
      exact ⟨_, _, .pause position, stepped.symm, .inl rfl⟩
  | report =>
      simp only [position, Option.some_inj] at stepped
      exact ⟨_, _, .exit position, stepped.symm, .inl rfl⟩
  | _ =>
      simp only [position] at stepped
      cases stepped

/-! ## All steps -/

/-- A step by its action, with what made it possible. -/
inductive Taken (s : State) : Action → State → Prop where
  | parent {outcome : Outcome} {t : State} (taken : ParentTaken s t) : Taken s (.parent outcome) t
  | child {c : Child} {outcome : Outcome} {p : Process ChildPc} {bytes : Nat}
      (move : ChildMove c (s.child c) p)
      (piped : bytes = s.bytes ∨ (s.child c).pc = .write ∧ bytes = s.bytes + 1) :
      Taken s (.child c outcome) { s.setChild c p with bytes := bytes }
  | deliverParent {sig : Sig} :
      Taken s (.deliverParent sig) { s with parent := s.parent.deliver ParentPc.resume .exited sig }
  | deliver {c : Child} {sig : Sig} (alive : (s.child c).pc.alive = true)
      (pending : (s.child c).pending sig = true) :
      Taken s (.deliver c sig) (s.setChild c ((s.child c).deliver ChildPc.resume .killed sig))
  | userParent {quit : Bool} :
      Taken s (.userParent quit) { s with parent := s.parent.send (userSig quit) }
  | user {c : Child} {quit : Bool} (alive : (s.child c).pc.alive = true) :
      Taken s (.user c quit) (s.setChild c ((s.child c).send (userSig quit)))
  | alarmExpires :
      Taken s .alarmExpires { s with parent := s.parent.send .sigalrm, armed := false }
  | reap {c : Child} : Taken s (.reap c) { s with reaped := Function.update s.reaped c true }

theorem taken_of_step {program : Program} {s t : State} {action : Action}
    (stepped : Step program s action t) : Taken s action t := by
  cases action with
  | parent outcome => exact .parent (parentTaken_of_next stepped)
  | child c outcome =>
      obtain ⟨p, bytes, move, rfl, piped⟩ := childMove_of_next stepped
      exact .child move piped
  | deliverParent sig =>
      obtain ⟨-, ⟨⟩⟩ := Option.ite_none_right_eq_some.mp stepped
      exact .deliverParent
  | deliver c sig =>
      obtain ⟨⟨alive, pending⟩, ⟨⟩⟩ := Option.ite_none_right_eq_some.mp stepped
      exact .deliver alive pending
  | userParent quit =>
      obtain ⟨-, ⟨⟩⟩ := Option.ite_none_right_eq_some.mp stepped
      exact .userParent
  | user c quit =>
      obtain ⟨alive, ⟨⟩⟩ := Option.ite_none_right_eq_some.mp stepped
      exact .user alive
  | alarmExpires =>
      obtain ⟨-, ⟨⟩⟩ := Option.ite_none_right_eq_some.mp stepped
      exact .alarmExpires
  | reap c =>
      obtain ⟨-, ⟨⟩⟩ := Option.ite_none_right_eq_some.mp stepped
      exact .reap

/-! ## A step seen from a child -/

/-- What a step does to a child. -/
inductive Touched (s : State) (c : Child) : Action → Process ChildPc → Prop where
  | same {action : Action} : Touched s c action (s.child c)
  | fork {outcome : Outcome} (position : s.parent.pc = .fork c) :
      Touched s c (.parent outcome) s.parent.forked
  | kill {outcome : Outcome} (position : s.parent.pc = .kill c) :
      Touched s c (.parent outcome) ((s.child c).send c.signal)
  | user {quit : Bool} (alive : (s.child c).pc.alive = true) :
      Touched s c (.user c quit) ((s.child c).send (userSig quit))
  | deliver {sig : Sig} (alive : (s.child c).pc.alive = true)
      (pending : (s.child c).pending sig = true) :
      Touched s c (.deliver c sig) ((s.child c).deliver ChildPc.resume .killed sig)
  | own {outcome : Outcome} {p : Process ChildPc} (move : ChildMove c (s.child c) p) :
      Touched s c (.child c outcome) p

/-- A change of one child leaves the other. -/
theorem Touched.setChild {s : State} {c : Child} {action : Action} {p : Process ChildPc}
    (touched : Touched s c action p) (other : Child) :
    Touched s other action ((s.setChild c p).child other) := by
  rcases eq_or_ne other c with rfl | apart
  · rw [setChild_self]
    exact touched
  · rw [setChild_of_ne s apart]
    exact .same

theorem touched_of_step {program : Program} {s t : State} {action : Action}
    (stepped : Step program s action t) (c : Child) : Touched s c action (t.child c) := by
  cases taken_of_step stepped with
  | parent taken =>
      cases taken with
      | fork position follows now => exact (Touched.fork position).setChild c
      | kill position follows now => exact (Touched.kill position).setChild c
      | _ => exact .same
  | child move piped => exact (Touched.own move).setChild c
  | deliver alive pending => exact (Touched.deliver alive pending).setChild c
  | user alive => exact (Touched.user alive).setChild c
  | _ => exact .same

end OsLab.Signals
