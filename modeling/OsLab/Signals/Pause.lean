import OsLab.Signals.Ready

/-!
# The pause of a child

A child waits in `while(child_recv_sig == 0) pause();`. The test and the call are two
steps. A signal that comes before the test is found by it, and one that comes while the
child is suspended makes `pause` return. Only a signal that is delivered in the window
between the two is lost: the child then calls `pause` with `child_recv_sig` already set and
no signal to come (`child_sleeps_through`).

In a run without a delivery in the window a child at `pause` or in it has received nothing
yet (`Vigilant`), so no child sleeps through its signal (`awake_of_outsideWindow`). A
delivery in the window always leads on to such a sleep (`asleep_of_window`), and from there
only a further signal of the user wakes the child (`asleep_forever`).
-/

set_option autoImplicit false

namespace OsLab.Signals

open OsLab.Foundation

/-- The child is suspended, its handler has run, and nothing is pending. -/
def Asleep (s : State) (c : Child) : Prop :=
  (s.child c).pc = .paused ∧ (s.child c).childRecvSig ≠ 0 ∧ ∀ sig, (s.child c).pending sig = false

/-- The termination signal of a child is not delivered between its test and its `pause`. -/
def OutsideWindow (s : State) : Action → Prop
  | .deliver c sig => ¬ (sig = c.signal ∧ (s.child c).pc = .pause)
  | _ => True

/-- A child that is about to pause or pauses has received nothing. -/
def Vigilant (p : Process ChildPc) : Prop :=
  p.pc = .pause ∨ p.pc = .paused → p.childRecvSig = 0

section Step

variable {program : Program} {s t : State} {action : Action} {c : Child}

theorem ChildPc.resume_eq_pause {pc : ChildPc} : pc.resume = .pause ↔ pc = .pause := by
  cases pc <;> simp [ChildPc.resume]

theorem ChildPc.resume_ne_paused (pc : ChildPc) : pc.resume ≠ .paused := by
  cases pc <;> simp [ChildPc.resume]

theorem Vigilant.deliver {p : Process ChildPc} (vigilant : Vigilant p) (ok : ChildOk c p)
    (alive : p.pc.alive = true) {sig : Sig} (pending : p.pending sig = true)
    (outside : ¬ (sig = c.signal ∧ p.pc = .pause)) :
    Vigilant (p.deliver ChildPc.resume .killed sig) := by
  obtain ⟨handler, table⟩ := ok.handled alive pending
  intro waits
  rw [Process.deliver_pc table, ChildPc.resume_eq_pause,
    or_iff_left (ChildPc.resume_ne_paused p.pc)] at waits
  have other : p.handler sig ≠ some .childSignalHandler := fun isOwn =>
    outside ⟨ok.only sig isOwn, waits⟩
  rw [Process.deliver_childRecvSig_of_ne other]
  exact vigilant (.inl waits)

theorem Vigilant.move {p q : Process ChildPc} (vigilant : Vigilant p) (move : ChildMove c p q) :
    Vigilant q := by
  cases move with
  | stay position none => exact fun _ => none
  | pause position => exact fun _ => vigilant (.inl position)
  | _ => exact fun waits => by simp [Process.goto] at waits

theorem vigilant_step (sound : Sound s) (vigilant : ∀ c, Vigilant (s.child c))
    (outside : OutsideWindow s action) (stepped : Step program s action t) (c : Child) :
    Vigilant (t.child c) := by
  have touched := touched_of_step stepped c
  generalize t.child c = p at touched
  cases touched with
  | same => exact vigilant c
  | fork position => exact fun waits => by simp [Process.forked] at waits
  | kill position => exact vigilant c
  | user alive => exact vigilant c
  | deliver alive pending => exact (vigilant c).deliver (sound.child c) alive pending outside
  | own move => exact (vigilant c).move move

end Step

theorem Vigilant.awake {s : State} {c : Child} (vigilant : Vigilant (s.child c)) :
    ¬ Asleep s c := by
  rintro ⟨position, received, -⟩
  exact received (vigilant (.inr position))

/-- **No child sleeps through its signal when none is delivered in the window** between the
test of `child_recv_sig` and the call of `pause()`. -/
theorem awake_of_outsideWindow {program : Program} {trace : List (State × Action)} {s : State}
    (run : Run (Step program) start trace s) (outside : ∀ p ∈ trace, OutsideWindow p.1 p.2) :
    (∀ c, ¬ Asleep s c) ∧ ∀ p ∈ trace, ∀ c, ¬ Asleep p.1 c := by
  have base : Sound start ∧ ∀ c, Vigilant (start.child c) :=
    ⟨sound_start, fun _ _ => rfl⟩
  obtain ⟨last, earlier⟩ := run.always_of_guard
    (fun s => Sound s ∧ ∀ c, Vigilant (s.child c)) OutsideWindow base
    (fun _ _ _ before outside stepped =>
      ⟨before.1.step stepped, vigilant_step before.1 before.2 outside stepped⟩) outside
  exact ⟨fun c => (last.2 c).awake, fun p member c => ((earlier p member).2 c).awake⟩

instance (s : State) (action : Action) : Decidable (OutsideWindow s action) :=
  match action with
  | .deliver c sig => inferInstanceAs (Decidable (¬ (sig = c.signal ∧ (s.child c).pc = .pause)))
  | .parent _ | .child _ _ | .deliverParent _ | .userParent _ | .user _ _ | .alarmExpires
  | .reap _ => isTrue trivial

/-- The first child is in `pause()` when its signal comes; it tests again and exits. -/
def orderly : List Action :=
  List.flatten
    [List.replicate 6 (.parent .done), List.replicate 5 (.child .one .done),
      List.replicate 3 (.child .two .done), List.replicate 6 (.parent .done),
      [.userParent true, .deliverParent .sigquit, .parent .done, .parent .done,
        .deliver .one .sig16, .child .one .done, .child .one .done]]

theorem awake_of_outsideWindow_orderly :
    ∃ trace s, Run (Step .sleeps) start trace s ∧ (s.child .one).pc = .exited 0 ∧
      ¬ Asleep s .two := by
  obtain ⟨s, ran, position⟩ := Option.map_eq_some_iff.mp
    (show (replay (step .sleeps) orderly start).map (fun s => (s.child .one).pc) =
      some (.exited 0) by decide +kernel)
  have run : Run (Step .sleeps) start _ s := run_of_replay ran
  have outside : ∀ p ∈ traceOf (step .sleeps) orderly start, OutsideWindow p.1 p.2 := by
    decide +kernel
  exact ⟨_, s, run, position, (awake_of_outsideWindow run outside).1 .two⟩

/-! ## A delivery in the window -/

/-- The first child has tested `child_recv_sig` and not yet called `pause` when the signal
comes. `early` are the statements of the parent up to its first `read`, and `wait` is what
happens between the handshake and the signals. -/
def interrupted (early : Nat) (wait : List Action) : List Action :=
  List.flatten
    [List.replicate early (.parent .done), List.replicate 4 (.child .one .done),
      List.replicate 3 (.child .two .done), List.replicate 6 (.parent .done), wait,
      [.parent .done, .parent .done, .deliver .one .sig16, .child .one .done]]

/-- In both programs the first child is suspended after its handler has run, with no signal
pending. -/
theorem child_sleeps_through :
    (∃ s, Reached .sleeps s ∧ Asleep s .one) ∧ (∃ s, Reached .alarms s ∧ Asleep s .one) := by
  constructor
  · obtain ⟨s, ran⟩ := Option.isSome_iff_exists.mp
      (show (replay (step .sleeps)
        (interrupted 6 [.userParent false, .deliverParent .sigint]) start).isSome from rfl)
    have asleep : Asleep s .one := by
      cases ran
      exact ⟨rfl, by decide, fun sig => by cases sig <;> rfl⟩
    exact ⟨s, Reachable.refl.replay ran, asleep⟩
  · obtain ⟨s, ran⟩ := Option.isSome_iff_exists.mp
      (show (replay (step .alarms)
        (interrupted 7 [.parent .done, .alarmExpires, .deliverParent .sigalrm]) start).isSome
          from rfl)
    have asleep : Asleep s .one := by
      cases ran
      exact ⟨rfl, by decide, fun sig => by cases sig <;> rfl⟩
    exact ⟨s, Reachable.refl.replay ran, asleep⟩

section Window

variable {program : Program} {s : State} {c : Child}

/-- At `pause` a pending signal of the user can be delivered without any other change. -/
theorem drain {origin : State} (reached : Reachable (Step program) origin s)
    (position : (s.child c).pc = .pause) {sig : Sig}
    (table : (s.child c).handler sig = some .interHandler) :
    ∃ t, Reachable (Step program) origin t ∧ (t.child c).pc = .pause ∧
      (t.child c).handler = (s.child c).handler ∧
      (t.child c).childRecvSig = (s.child c).childRecvSig ∧
      (t.child c).pending = Function.update (s.child c).pending sig false := by
  cases pending : (s.child c).pending sig with
  | false =>
      refine ⟨s, reached, position, rfl, rfl, ?_⟩
      rw [← pending, Function.update_eq_self]
  | true =>
      have stepped : Step program s (.deliver c sig)
          (s.setChild c ((s.child c).deliver ChildPc.resume .killed sig)) :=
        if_pos ⟨by rw [position]; rfl, pending⟩
      refine ⟨_, reached.next stepped, ?_⟩
      rw [setChild_self, Process.deliver_pc table, position, Process.deliver_handler,
        Process.deliver_pending, Process.deliver_childRecvSig_of_ne (by rw [table]; simp)]
      exact ⟨rfl, rfl, rfl, rfl⟩

/-- A child at `pause` that has its signal and, apart from signals of the user, nothing
pending can fall asleep. -/
theorem asleep_of_pause {origin : State} (reached : Reachable (Step program) origin s)
    (position : (s.child c).pc = .pause) (received : (s.child c).childRecvSig ≠ 0)
    (ofInt : (s.child c).handler .sigint = some .interHandler)
    (ofQuit : (s.child c).handler .sigquit = some .interHandler)
    (pending : ∀ sig, (s.child c).pending sig = true → sig = .sigint ∨ sig = .sigquit) :
    ∃ t, Reachable (Step program) origin t ∧ Asleep t c := by
  obtain ⟨t, reachedT, positionT, handlersT, receivedT, pendingT⟩ := drain reached position ofInt
  obtain ⟨u, reachedU, positionU, -, receivedU, pendingU⟩ :=
    drain reachedT positionT (handlersT ▸ ofQuit)
  have paused : Step program u (.child c .done) (u.setChild c ((u.child c).goto .paused)) := by
    simp only [Step, step, childNext, positionU]
  refine ⟨_, reachedU.next paused, ?_⟩
  rw [Asleep, setChild_self]
  refine ⟨rfl, ?_, fun sig => ?_⟩
  · show (u.child c).childRecvSig ≠ 0
    rw [receivedU, receivedT]
    exact received
  · show (u.child c).pending sig = false
    rw [pendingU, pendingT, ← Bool.not_eq_true]
    intro left
    rcases eq_or_ne sig .sigquit with rfl | notQuit
    · simp at left
    · rcases eq_or_ne sig .sigint with rfl | notInt
      · simp at left
      · rw [Function.update_of_ne notQuit, Function.update_of_ne notInt] at left
        exact (pending sig left).elim notInt notQuit

/-- **A delivery in the window can always lead to a sleep.** -/
theorem asleep_of_window (reached : Reached program s) (position : (s.child c).pc = .pause)
    (pending : (s.child c).pending c.signal = true) :
    ∃ t u, Step program s (.deliver c c.signal) t ∧ Reachable (Step program) t u ∧ Asleep u c := by
  have ok := (sound_of_reached reached).child c
  have lives : (s.child c).pc.alive = true := by
    rw [position]
    rfl
  have own := ok.installed (by rw [position]; rfl)
  obtain ⟨ofInt, ofQuit⟩ := ok.inherited lives
  have stepped : Step program s (.deliver c c.signal)
      (s.setChild c ((s.child c).deliver ChildPc.resume .killed c.signal)) :=
    if_pos ⟨lives, pending⟩
  obtain ⟨u, reachedU, asleep⟩ : ∃ u, Reachable (Step program)
      (s.setChild c ((s.child c).deliver ChildPc.resume .killed c.signal)) u ∧ Asleep u c := by
    refine asleep_of_pause .refl ?_ ?_ ?_ ?_ ?_
    all_goals rw [setChild_self]
    · rw [Process.deliver_pc own, position]
      rfl
    · rw [Process.deliver_childRecvSig own]
      cases c <;> decide
    · rw [Process.deliver_handler]
      exact ofInt
    · rw [Process.deliver_handler]
      exact ofQuit
    · intro sig left
      rw [Process.deliver_pending] at left
      rcases eq_or_ne sig c.signal with rfl | other
      · simp at left
      · rw [Function.update_of_ne other] at left
        exact (ok.pending sig left).resolve_left fun isOwn => other isOwn.1
  exact ⟨_, u, stepped, reachedU, asleep⟩

end Window

/-! ## The sleep lasts -/

/-- Before its `kill`, a child has no termination signal. -/
def Unsignalled (s : State) : Prop :=
  ∀ c, s.parent.pc.signalled c = false →
    (s.child c).childRecvSig = 0 ∧ (s.child c).pending c.signal = false

section Signalled

variable {program : Program} {s t : State} {action : Action} {c : Child}

/-- Only the parent sends termination signals. -/
theorem Touched.unsignalled {p : Process ChildPc} (sound : Sound s) (touched : Touched s c action p)
    (others : ∀ outcome, action ≠ .parent outcome)
    (before : (s.child c).childRecvSig = 0 ∧ (s.child c).pending c.signal = false) :
    p.childRecvSig = 0 ∧ p.pending c.signal = false := by
  cases touched with
  | same => exact before
  | fork position => exact absurd rfl (others _)
  | kill position => exact absurd rfl (others _)
  | @user quit alive =>
      refine ⟨before.1, ?_⟩
      have other : c.signal ≠ userSig quit := by
        cases c <;> cases quit <;> decide
      show Function.update (s.child c).pending (userSig quit) true c.signal = false
      rw [Function.update_of_ne other]
      exact before.2
  | @deliver sig alive pending =>
      have other : c.signal ≠ sig := by
        rintro rfl
        exact Bool.false_ne_true (before.2.symm.trans pending)
      have notOwn : (s.child c).handler sig ≠ some .childSignalHandler := fun isOwn =>
        other ((sound.child c).only sig isOwn).symm
      rw [Process.deliver_childRecvSig_of_ne notOwn, Process.deliver_pending,
        Function.update_of_ne other]
      exact before
  | own move => cases move <;> exact before

theorem unsignalled_step (sound : Sound s) (unsignalled : Unsignalled s)
    (stepped : Step program s action t) : Unsignalled t := by
  intro c notYet
  have touched := touched_of_step stepped c
  cases taken_of_step stepped with
  | parent taken =>
      cases taken with
      | move follows => exact unsignalled c (follows.unsignalled c notYet)
      | install early handles unforked before => exact unsignalled c (before c)
      | @fork forked pc position follows now =>
          show ((s.setChild forked s.parent.forked).child c).childRecvSig = 0 ∧
            ((s.setChild forked s.parent.forked).child c).pending c.signal = false
          rcases eq_or_ne c forked with rfl | apart
          · rw [setChild_self]
            exact ⟨sound.parent.unset, rfl⟩
          · rw [setChild_of_ne s apart]
            refine unsignalled c ?_
            rw [position]
            exact follows.unsignalled c notYet
      | read position some => exact unsignalled c (by rw [position]; rfl)
      | @kill killed pc position follows now =>
          have apart : c ≠ killed := by
            rintro rfl
            exact Bool.false_ne_true (notYet.symm.trans now)
          have same : (s.setChild killed ((s.child killed).send killed.signal)).child c = s.child c :=
            setChild_of_ne s apart _
          unfold State.goto
          rw [same]
          refine unsignalled c ?_
          rw [position]
          exact follows.unsignalled c notYet
  | deliverParent =>
      have before := (Follows.deliver s.parent _).unsignalled c notYet
      exact touched.unsignalled sound (by simp) (unsignalled c before)
  | _ => exact touched.unsignalled sound (by simp) (unsignalled c notYet)

theorem unsignalled_of_reached (reached : Reached program s) : Unsignalled s := by
  have both := reached.invariant (fun s => Sound s ∧ Unsignalled s)
    ⟨sound_start, fun _ _ => ⟨rfl, rfl⟩⟩ ?_
  · exact both.2
  · rintro s action t ⟨sound, unsignalled⟩ stepped
    exact ⟨sound.step stepped, unsignalled_step sound unsignalled stepped⟩

/-- A step leaves a sleeping child asleep unless the user sends it a signal. -/
theorem asleep_step (unsignalled : Unsignalled s) (asleep : Asleep s c)
    (stepped : Step program s action t) (noUser : ∀ quit, action ≠ .user c quit) : Asleep t c := by
  obtain ⟨position, received, quiet⟩ := asleep
  have signalled : s.parent.pc.signalled c = true := by
    by_contra notYet
    exact received (unsignalled c (Bool.not_eq_true _ ▸ notYet)).1
  have touched := touched_of_step stepped c
  unfold Asleep
  generalize t.child c = p at touched
  cases touched with
  | same => exact ⟨position, received, quiet⟩
  | fork forks =>
      rw [forks] at signalled
      cases c <;> cases signalled
  | kill kills =>
      rw [kills] at signalled
      cases c <;> cases signalled
  | user alive => exact absurd rfl (noUser _)
  | deliver alive pending => exact absurd ((quiet _).symm.trans pending) Bool.false_ne_true
  | own move => cases move <;> simp_all

/-- **The sleep lasts**: without a further signal of the user the child is asleep in every
later state, so it never exits. -/
theorem asleep_forever (reached : Reached program s) (asleep : Asleep s c)
    {trace : List (State × Action)} (run : Run (Step program) s trace t)
    (noUser : ∀ p ∈ trace, ∀ quit, p.2 ≠ .user c quit) : Asleep t c := by
  have base : (Sound s ∧ Unsignalled s) ∧ Asleep s c :=
    ⟨⟨sound_of_reached reached, unsignalled_of_reached reached⟩, asleep⟩
  refine (run.always_of_guard (fun s => (Sound s ∧ Unsignalled s) ∧ Asleep s c)
    (fun _ action => ∀ quit, action ≠ .user c quit) base ?_ noUser).1.2
  rintro s action t ⟨⟨sound, unsignalled⟩, asleep⟩ noUser stepped
  exact ⟨⟨sound.step stepped, unsignalled_step sound unsignalled stepped⟩,
    asleep_step unsignalled asleep stepped noUser⟩

end Signalled

end OsLab.Signals
