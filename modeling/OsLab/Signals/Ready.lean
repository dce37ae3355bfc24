import OsLab.Signals.Steps

/-!
# The ready handshake

The parent sends its signals only when both children have installed their handlers. The
bytes in the pipe do not say who wrote them; what counts is their number. The bytes that
were read and those that are in the pipe are at most as many as the children that are past
their `write` (`Sound.counted`), and a child comes there only after it has installed its
handler. With two bytes read, both children are there.

The rest of `Sound` is what the deliveries need. A signal that is pending for a child has
a handler: `SIGINT` and `SIGQUIT` have the one the parent installed before it forked, and
the child's own signal is sent only after the handshake. So no signal meets its default
disposition (`kill_meets_handlers`).
-/

set_option autoImplicit false

namespace OsLab.Signals

open OsLab.Foundation

/-- The child is past its `write`. -/
def ChildPc.wrote : ChildPc → Bool
  | .test | .pause | .paused | .report => true
  | .exited status => status = 0
  | _ => false

/-- The child is past its call of `signal`. -/
def ChildPc.installed : ChildPc → Bool
  | .write => true
  | pc => pc.wrote

theorem ChildPc.installed_of_wrote {pc : ChildPc} (wrote : pc.wrote = true) :
    pc.installed = true := by
  cases pc <;> first | exact wrote | rfl

theorem ChildPc.wrote_resume (pc : ChildPc) : pc.resume.wrote = pc.wrote := by
  cases pc <;> rfl

theorem ChildPc.installed_resume (pc : ChildPc) : pc.resume.installed = pc.installed := by
  cases pc <;> rfl

theorem ChildPc.resume_eq_killed {pc : ChildPc} : pc.resume = .killed ↔ pc = .killed := by
  cases pc <;> simp [ChildPc.resume]

/-! ## The invariant -/

structure ParentOk (p : Process ParentPc) : Prop where
  handles : ∀ sig, p.pc.handles sig = true → p.handler sig = some .interHandler
  notChild : ∀ sig, p.handler sig ≠ some .childSignalHandler
  unset : p.childRecvSig = 0

structure ChildOk (c : Child) (p : Process ChildPc) : Prop where
  installed : p.pc.installed = true → p.handler c.signal = some .childSignalHandler
  only : ∀ sig, p.handler sig = some .childSignalHandler → sig = c.signal
  inherited : p.pc.alive = true →
    p.handler .sigint = some .interHandler ∧ p.handler .sigquit = some .interHandler
  pending : ∀ sig, p.pending sig = true →
    (sig = c.signal ∧ p.pc.wrote = true) ∨ sig = .sigint ∨ sig = .sigquit
  notKilled : p.pc ≠ .killed

/-- The children that are past their `write`. -/
def State.wrote (s : State) : Nat :=
  (s.child .one).pc.wrote.toNat + (s.child .two).pc.wrote.toNat

structure Sound (s : State) : Prop where
  parent : ParentOk s.parent
  child : ∀ c, ChildOk c (s.child c)
  unborn : ∀ c, s.parent.pc.forked c = false → (s.child c).pc = .unborn
  counted : s.parent.pc.readyCount + s.bytes ≤ s.wrote

theorem sound_start : Sound start where
  parent := ⟨by simp [start, ParentPc.handles], by simp [start], rfl⟩
  child c := by
    constructor <;> simp [start, ChildPc.installed, ChildPc.wrote, ChildPc.alive]
  unborn _ _ := rfl
  counted := Nat.le_refl 0

/-- With two bytes read, both children are past their `write`. -/
theorem Sound.wrote_of_ready {s : State} (sound : Sound s) (ready : s.parent.pc.readyCount = 2)
    (c : Child) : (s.child c).pc.wrote = true := by
  have counted := sound.counted
  have first := Bool.toNat_le (s.child .one).pc.wrote
  have second := Bool.toNat_le (s.child .two).pc.wrote
  rw [State.wrote] at counted
  rw [← Bool.toNat_eq_one]
  cases c with
  | one => omega
  | two => omega

/-! ## The parent -/

theorem ParentOk.goto {p : Process ParentPc} (ok : ParentOk p) {pc : ParentPc}
    (follows : Follows p.pc pc) : ParentOk (p.goto pc) where
  handles sig handled := ok.handles sig (follows.handles sig handled)
  notChild := ok.notChild
  unset := ok.unset

theorem ParentOk.install {p : Process ParentPc} (ok : ParentOk p) {sig : Sig} {pc : ParentPc}
    (handles : ∀ other, pc.handles other = true → other = sig ∨ p.pc.handles other = true) :
    ParentOk ((p.signal sig .interHandler).goto pc) where
  handles := by
    intro other handled
    show Function.update p.handler sig (some .interHandler) other = some .interHandler
    rcases eq_or_ne other sig with rfl | apart
    · exact Function.update_self ..
    · rw [Function.update_of_ne apart]
      exact ok.handles other ((handles other handled).resolve_left apart)
  notChild := by
    intro other
    show Function.update p.handler sig (some .interHandler) other ≠ some .childSignalHandler
    rcases eq_or_ne other sig with rfl | apart
    · simp
    · rw [Function.update_of_ne apart]
      exact ok.notChild other
  unset := ok.unset

theorem ParentOk.deliver {p : Process ParentPc} (ok : ParentOk p) (sig : Sig) :
    ParentOk (p.deliver ParentPc.resume .exited sig) where
  handles := by
    intro other handled
    rw [Process.deliver_handler]
    exact ok.handles other ((Follows.deliver p sig).handles other handled)
  notChild := by
    rw [Process.deliver_handler]
    exact ok.notChild
  unset := by
    rw [Process.deliver_childRecvSig_of_ne (ok.notChild sig)]
    exact ok.unset

theorem parentOk_step {program : Program} {s t : State} {action : Action} (ok : ParentOk s.parent)
    (stepped : Step program s action t) : ParentOk t.parent := by
  cases taken_of_step stepped with
  | parent taken =>
      cases taken with
      | move follows => exact ok.goto follows
      | install early handles unforked unsignalled => exact ok.install handles
      | fork position follows now => exact ok.goto (position ▸ follows)
      | read position some =>
          refine ⟨fun sig handled => ok.handles sig ?_, ok.notChild, ok.unset⟩
          rw [position]
          exact handled
      | kill position follows now => exact ok.goto (position ▸ follows)
  | deliverParent => exact ok.deliver _
  | userParent => exact ⟨ok.handles, ok.notChild, ok.unset⟩
  | alarmExpires => exact ⟨ok.handles, ok.notChild, ok.unset⟩
  | _ => exact ok

/-! ## A child -/

section Child

variable {c : Child} {p q : Process ChildPc}

/-- A move of a child that installs nothing. -/
def ChildPc.Leads (old new : ChildPc) : Prop :=
  (new.installed = true → old.installed = true) ∧ (new.alive = true → old.alive = true) ∧
    (old.wrote = true → new.wrote = true) ∧ new ≠ .killed

instance (old new : ChildPc) : Decidable (old.Leads new) :=
  inferInstanceAs (Decidable (_ ∧ _ ∧ _ ∧ _))

theorem ChildOk.goto (ok : ChildOk c p) {old new : ChildPc} (position : p.pc = old)
    (leads : old.Leads new) : ChildOk c (p.goto new) := by
  subst position
  obtain ⟨installed, alive, wrote, notKilled⟩ := leads
  refine ⟨fun past => ok.installed (installed past), ok.only,
    fun lives => ok.inherited (alive lives), fun sig isPending => ?_, notKilled⟩
  exact (ok.pending sig isPending).imp_left fun own => ⟨own.1, wrote own.2⟩

theorem ChildOk.forked {parent : Process ParentPc} (ok : ParentOk parent)
    (position : parent.pc = .fork c) : ChildOk c parent.forked where
  installed past := (nomatch past)
  only sig table := absurd table (ok.notChild sig)
  inherited _ :=
    ⟨ok.handles .sigint (by rw [position]; rfl), ok.handles .sigquit (by rw [position]; rfl)⟩
  pending sig isPending := (nomatch isPending)
  notKilled := by simp [Process.forked]

theorem ChildOk.send (ok : ChildOk c p) {sig : Sig}
    (expected : (sig = c.signal ∧ p.pc.wrote = true) ∨ sig = .sigint ∨ sig = .sigquit) :
    ChildOk c (p.send sig) where
  installed := ok.installed
  only := ok.only
  inherited := ok.inherited
  pending := by
    intro other isPending
    rcases eq_or_ne other sig with rfl | apart
    · exact expected
    · refine ok.pending other ?_
      simpa [Process.send, Function.update_of_ne apart] using isPending
  notKilled := ok.notKilled

/-- A pending signal has a handler. -/
theorem ChildOk.handled (ok : ChildOk c p) (alive : p.pc.alive = true) {sig : Sig}
    (isPending : p.pending sig = true) : ∃ handler, p.handler sig = some handler := by
  rcases ok.pending sig isPending with ⟨rfl, wrote⟩ | rfl | rfl
  · exact ⟨_, ok.installed (ChildPc.installed_of_wrote wrote)⟩
  · exact ⟨_, (ok.inherited alive).1⟩
  · exact ⟨_, (ok.inherited alive).2⟩

theorem ChildOk.deliver (ok : ChildOk c p) (alive : p.pc.alive = true) {sig : Sig}
    (isPending : p.pending sig = true) :
    ChildOk c (p.deliver ChildPc.resume .killed sig) := by
  obtain ⟨handler, table⟩ := ok.handled alive isPending
  constructor
  · rw [Process.deliver_pc table, Process.deliver_handler, ChildPc.installed_resume]
    exact ok.installed
  · rw [Process.deliver_handler]
    exact ok.only
  · rw [Process.deliver_handler]
    exact fun _ => ok.inherited alive
  · intro other stillPending
    rw [Process.deliver_pending] at stillPending
    rw [Process.deliver_pc table, ChildPc.wrote_resume]
    refine ok.pending other ?_
    rcases eq_or_ne other sig with rfl | apart
    · exact isPending
    · rwa [Function.update_of_ne apart] at stillPending
  · rw [Process.deliver_pc table]
    intro killed
    rw [ChildPc.resume_eq_killed.mp killed] at alive
    cases alive

theorem ChildOk.signal (ok : ChildOk c p) (position : p.pc = .signal) :
    ChildOk c ((p.signal c.signal .childSignalHandler).goto .write) where
  installed _ := Function.update_self ..
  only := by
    intro sig table
    rcases eq_or_ne sig c.signal with own | apart
    · exact own
    · refine ok.only sig ?_
      simpa [Process.goto, Process.signal, Function.update_of_ne apart] using table
  inherited := by
    have lives : p.pc.alive = true := by
      rw [position]
      rfl
    have keeps : ∀ sig, sig ≠ c.signal →
        Function.update p.handler c.signal (some .childSignalHandler) sig = p.handler sig :=
      fun sig apart => Function.update_of_ne apart ..
    intro _
    obtain ⟨ofInt, ofQuit⟩ := ok.inherited lives
    refine ⟨(keeps .sigint ?_).trans ofInt, (keeps .sigquit ?_).trans ofQuit⟩
    · cases c <;> decide
    · cases c <;> decide
  pending := by
    intro sig isPending
    refine (ok.pending sig isPending).imp_left ?_
    rintro ⟨-, wrote⟩
    rw [position] at wrote
    cases wrote
  notKilled := by simp [Process.goto]

theorem ChildOk.move (ok : ChildOk c p) (move : ChildMove c p q) : ChildOk c q := by
  cases move with
  | closeRead position => exact ok.goto position (by decide)
  | signal position => exact ok.signal position
  | signalFails position => exact ok.goto position (by decide)
  | write position => exact ok.goto position (by decide)
  | stay position none => exact ok.goto position (by decide)
  | leave position some => exact ok.goto position (by decide)
  | pause position => exact ok.goto position (by decide)
  | exit position => exact ok.goto position (by decide)

end Child

/-! ## All steps -/

section Steps

variable {program : Program} {s t : State} {action : Action} {c : Child}

theorem Sound.child_step (sound : Sound s) (stepped : Step program s action t) (c : Child) :
    ChildOk c (t.child c) := by
  have ok := sound.child c
  have touched := touched_of_step stepped c
  generalize t.child c = p at touched
  cases touched with
  | same => exact ok
  | fork position => exact ChildOk.forked sound.parent position
  | kill position =>
      exact ok.send (.inl ⟨rfl, sound.wrote_of_ready (by rw [position]; rfl) c⟩)
  | @user quit alive =>
      refine ok.send (.inr ?_)
      cases quit with
      | false => exact .inl rfl
      | true => exact .inr rfl
  | deliver alive pending => exact ok.deliver alive pending
  | own move => exact ok.move move

/-- Before its `fork`, nothing happens to a child. -/
theorem Touched.unborn {p : Process ChildPc} (touched : Touched s c action p)
    (unborn : (s.child c).pc = .unborn) (others : ∀ outcome, action ≠ .parent outcome) :
    p.pc = .unborn := by
  cases touched with
  | same => exact unborn
  | fork position => exact absurd rfl (others _)
  | kill position => exact absurd rfl (others _)
  | user alive =>
      rw [unborn] at alive
      cases alive
  | deliver alive pending =>
      rw [unborn] at alive
      cases alive
  | own move => cases move <;> simp_all

theorem Sound.unborn_step (sound : Sound s) (stepped : Step program s action t) (c : Child)
    (unforked : t.parent.pc.forked c = false) : (t.child c).pc = .unborn := by
  have touched := touched_of_step stepped c
  cases taken_of_step stepped with
  | parent taken =>
      cases taken with
      | move follows => exact sound.unborn c (follows.unforked c unforked)
      | install early handles before unsignalled => exact sound.unborn c (before c)
      | @fork forked pc position follows now =>
          have apart : c ≠ forked := by
            rintro rfl
            exact Bool.false_ne_true (unforked.symm.trans now)
          have before : s.parent.pc.forked c = false := by
            rw [position]
            exact follows.unforked c unforked
          show ((s.setChild forked s.parent.forked).child c).pc = .unborn
          rw [setChild_of_ne s apart]
          exact sound.unborn c before
      | read position some => cases unforked
      | kill position follows now => cases follows.unforked c unforked
  | deliverParent =>
      have before := (Follows.deliver s.parent _).unforked c unforked
      exact touched.unborn (sound.unborn c before) (by simp)
  | _ => exact touched.unborn (sound.unborn c unforked) (by simp)

/-- A child that is past its `write` stays there. -/
theorem Sound.wrote_mono (sound : Sound s) (stepped : Step program s action t) (c : Child)
    (wrote : (s.child c).pc.wrote = true) : (t.child c).pc.wrote = true := by
  have touched := touched_of_step stepped c
  generalize t.child c = p at touched
  cases touched with
  | same => exact wrote
  | fork position =>
      have unborn := sound.unborn c (by rw [position]; cases c <;> rfl)
      rw [unborn] at wrote
      cases wrote
  | kill position => exact wrote
  | user alive => exact wrote
  | deliver alive pending =>
      obtain ⟨handler, table⟩ := (sound.child c).handled alive pending
      rw [Process.deliver_pc table, ChildPc.wrote_resume]
      exact wrote
  | own move => cases move <;> simp_all [Process.goto, ChildPc.wrote]

theorem Sound.wrote_le (sound : Sound s) (stepped : Step program s action t) :
    s.wrote ≤ t.wrote := by
  have mono : ∀ before now : Bool, (before = true → now = true) → before.toNat ≤ now.toNat := by
    decide
  exact Nat.add_le_add (mono _ _ (sound.wrote_mono stepped .one))
    (mono _ _ (sound.wrote_mono stepped .two))

/-- The `write` of a child makes it one more. -/
theorem wrote_setChild {p : Process ChildPc} (before : (s.child c).pc.wrote = false)
    (now : p.pc.wrote = true) : (s.setChild c p).wrote = s.wrote + 1 := by
  have other : ∀ other, other ≠ c → (s.setChild c p).child other = s.child other :=
    fun _ apart => setChild_of_ne s apart p
  cases c with
  | one =>
      rw [State.wrote, State.wrote, setChild_self, other .two (by decide), before, now,
        Bool.toNat_true, Bool.toNat_false]
      omega
  | two =>
      rw [State.wrote, State.wrote, setChild_self, other .one (by decide), before, now,
        Bool.toNat_true, Bool.toNat_false]

theorem Sound.counted_step (sound : Sound s) (stepped : Step program s action t) :
    t.parent.pc.readyCount + t.bytes ≤ t.wrote := by
  have counted := sound.counted
  have wrote := sound.wrote_le stepped
  have kept : t.parent.pc.readyCount ≤ s.parent.pc.readyCount → t.bytes = s.bytes →
      t.parent.pc.readyCount + t.bytes ≤ t.wrote := by
    omega
  cases taken_of_step stepped with
  | parent taken =>
      cases taken with
      | move follows => exact kept follows.count rfl
      | install early handles before unsignalled =>
          exact kept (Nat.le_trans (Nat.le_of_eq early) (Nat.zero_le _)) rfl
      | fork position follows now => exact kept (position ▸ follows.count) rfl
      | @read readyCount position some =>
          rw [position] at counted
          show readyCount + 1 + (s.bytes - 1) ≤ s.wrote
          change readyCount + s.bytes ≤ s.wrote at counted
          omega
      | kill position follows now => exact kept (position ▸ follows.count) rfl
  | @child actor outcome p bytes move piped =>
      rcases piped with rfl | ⟨position, rfl⟩
      · exact kept (Nat.le_refl _) rfl
      · have now : p.pc.wrote = true := by
          cases move <;> simp_all [Process.goto, ChildPc.wrote]
        show s.parent.pc.readyCount + (s.bytes + 1) ≤ (s.setChild actor p).wrote
        rw [wrote_setChild (by rw [position]; rfl) now]
        omega
  | deliverParent => exact kept (Follows.deliver s.parent _).count rfl
  | _ => exact kept (Nat.le_refl _) rfl

theorem Sound.step (sound : Sound s) (stepped : Step program s action t) : Sound t where
  parent := parentOk_step sound.parent stepped
  child := sound.child_step stepped
  unborn := sound.unborn_step stepped
  counted := sound.counted_step stepped

end Steps

theorem sound_of_reached {program : Program} {s : State} (reached : Reached program s) :
    Sound s := by
  refine reached.invariant Sound sound_start ?_
  intro s action t sound stepped
  exact sound.step stepped

/-- **The parent signals its children only after both have installed their handlers**, in
both programs and in every interleaving. So whenever one of the two signals is pending it
has its handler, and no child is ever terminated by a signal. -/
theorem kill_meets_handlers {program : Program} {s : State} (reached : Reached program s) :
    (∀ target, s.parent.pc = .kill target →
      ∀ c, (s.child c).handler c.signal = some .childSignalHandler) ∧
    (∀ c, (s.child c).pending c.signal = true →
      (s.child c).handler c.signal = some .childSignalHandler) ∧
    (∀ c, (s.child c).pc ≠ .killed) := by
  have sound := sound_of_reached reached
  refine ⟨fun target position c => ?_, fun c pending => ?_, fun c => (sound.child c).notKilled⟩
  · have wrote := sound.wrote_of_ready (by rw [position]; rfl) c
    exact (sound.child c).installed (ChildPc.installed_of_wrote wrote)
  · have own : (s.child c).pc.wrote = true := by
      rcases (sound.child c).pending c.signal pending with ⟨-, wrote⟩ | notOwn | notOwn
      · exact wrote
      · cases c <;> cases notOwn
      · cases c <;> cases notOwn
    exact (sound.child c).installed (ChildPc.installed_of_wrote own)

/-- The parent reads in vain once, then the byte of the second child and that of the first,
and a `SIGINT` ends its wait. -/
def handshake : List Action :=
  List.flatten
    [List.replicate 7 (.parent .done), [.parent .failed, .parent .done],
      List.replicate 3 (.child .two .done), List.replicate 2 (.parent .done),
      List.replicate 3 (.child .one .done), List.replicate 3 (.parent .done),
      [.userParent false, .deliverParent .sigint, .parent .done]]

theorem kill_meets_handlers_handshake :
    ∃ s, Reached .sleeps s ∧ s.parent.pc = .kill .one ∧
      ∀ c, (s.child c).handler c.signal = some .childSignalHandler := by
  obtain ⟨s, ran⟩ := Option.isSome_iff_exists.mp
    (show (replay (step .sleeps) handshake start).isSome from rfl)
  have reached : Reached .sleeps s := Reachable.refl.replay ran
  have position : s.parent.pc = .kill .one := by
    cases ran
    rfl
  exact ⟨s, reached, position, (kill_meets_handlers reached).1 .one position⟩

end OsLab.Signals
