import OsLab.Globalvar.Model

/-!
# The sections under the semaphore

The buffer and its two pointers are used only between a `down` and the `up` that follows
it. `Ring` is that part of the device, with the bytes that went through it. Two facts make
the sections follow one another as if each were one step:

* the clients inside a section are the holder of the semaphore (`Exclusive`);
* a statement outside of a section leaves the ring as it is (`next_section`).

So what is known of the ring is known by the position of the holder, and while the
semaphore is free by nobody. `Holding` is an invariant of that kind and `SectionRule` what
it needs: one lemma about one client (`SectionRule.step`).
-/

set_option autoImplicit false

namespace OsLab.Globalvar

open OsLab.Foundation
open OsLab.MessageQueue (WaitPc WaitNext waitEventInterruptible)

variable {ι : Type}

/-! ## The ring -/

/-- The buffer, the pointers and the bytes that went through. -/
@[ext]
structure Ring where
  buffer : List UInt8
  rd : Nat
  wr : Nat
  accepted : List UInt8
  returned : List UInt8

def State.ring (s : State ι) : Ring where
  buffer := s.dev.buffer
  rd := s.dev.rd
  wr := s.dev.wr
  accepted := s.accepted
  returned := s.returned

/-- What a statement does to the ring. -/
def Effect.onRing (effect : Effect) (r : Ring) : Ring :=
  match effect with
  | .store data => { r with buffer := putAll r.buffer r.wr data }
  | .advanceRd len data => { r with rd := r.rd + len, returned := r.returned ++ data }
  | .wrapRd => { r with rd := wrapped r.rd }
  | .advanceWr len data => { r with wr := r.wr + len, accepted := r.accepted ++ data }
  | .wrapWr => { r with wr := wrapped r.wr }
  | _ => r

/-- Between `down` and `up`. -/
def Pc.inside : Pc → Bool
  | .reading _ (.wait _) | .reading _ .down => false
  | .reading _ _ => true
  | .writing _ _ .down | .writing _ _ (.setFlag _) | .writing _ _ (.wake _) => false
  | .writing _ _ _ => true
  | _ => false

/-- Effects of the statements outside of a section. -/
def Effect.outside : Effect → Bool
  | .skip | .setFlag | .wake => true
  | _ => false

/-- Effects that leave the semaphore. -/
def Effect.keepsSem : Effect → Bool
  | .down | .up => false
  | _ => true

theorem Effect.onRing_of_outside {effect : Effect} (outside : effect.outside = true) (r : Ring) :
    effect.onRing r = r := by
  cases effect <;> first | rfl | cases outside

theorem Effect.keepsSem_of_outside {effect : Effect} (outside : effect.outside = true) :
    effect.keepsSem = true := by
  cases effect <;> first | rfl | cases outside

@[simp] theorem Pc.inside_wakeUp (pc : Pc) : pc.wakeUp.inside = pc.inside := by
  cases pc with
  | reading len rpc => cases rpc <;> rfl
  | _ => rfl

/-- A wake-up does not reach a client inside a section. -/
theorem Pc.wakeUp_of_inside {pc : Pc} (inside : pc.inside = true) : pc.wakeUp = pc := by
  cases pc with
  | reading len rpc => cases rpc <;> first | rfl | cases inside
  | _ => rfl

/-- What a statement has to do with the semaphore. -/
theorem next_section {dev : ScullDev ι} {pc pc' : Pc} {choice : Choice} {effect : Effect}
    (decided : next dev pc choice = some (effect, pc')) :
    (pc.inside = false ∧ pc'.inside = true ∧ effect = .down ∧ dev.sem = none) ∨
    (pc.inside = false ∧ pc'.inside = false ∧ effect.outside = true) ∨
    (pc.inside = true ∧ pc'.inside = true ∧ effect.keepsSem = true) ∨
    (pc.inside = true ∧ pc'.inside = false ∧ effect = .up) := by
  rcases next_cases decided with ⟨c, rfl, rfl, rfl⟩ | ⟨ret, rfl, rfl, rfl⟩ |
    ⟨len, rpc, rfl, reads⟩ | ⟨len, buf, wpc, rfl, writes⟩
  · refine .inr (.inl ⟨rfl, ?_, rfl⟩)
    cases c <;> rfl
  · exact .inr (.inl ⟨rfl, rfl, rfl⟩)
  · unfold globalvarReadNext at reads
    split at reads <;> grind [Pc.inside, Effect.outside, Effect.keepsSem, Option.isNone_iff_eq_none]
  · unfold globalvarWriteNext at writes
    split at writes <;> grind [Pc.inside, Effect.outside, Effect.keepsSem, Option.isNone_iff_eq_none]

variable [DecidableEq ι]

theorem after_ring (s : State ι) (i : ι) (effect : Effect) (pc : Pc) :
    (s.after i effect pc).ring = effect.onRing s.ring := by
  cases effect <;> rfl

theorem after_sem (s : State ι) (i : ι) {effect : Effect} (pc : Pc)
    (keeps : effect.keepsSem = true) : (s.after i effect pc).dev.sem = s.dev.sem := by
  cases effect <;> first | rfl | cases keeps

theorem after_inside (s : State ι) (i j : ι) (effect : Effect) (pc : Pc) :
    ((s.after i effect pc).pc j).inside = (if j = i then pc else s.pc j).inside := by
  cases effect with
  | wake => exact Pc.inside_wakeUp _
  | _ => rfl

/-- The position of a client inside a section after a statement. -/
theorem after_pc_inside (s : State ι) {i j : ι} {effect : Effect} {pc : Pc}
    (inside : (if j = i then pc else s.pc j).inside = true) :
    (s.after i effect pc).pc j = if j = i then pc else s.pc j := by
  cases effect with
  | wake => exact Pc.wakeUp_of_inside inside
  | _ => rfl

theorem after_pc_self (s : State ι) (i : ι) {effect : Effect} {pc : Pc} (inside : pc.inside = true) :
    (s.after i effect pc).pc i = pc := by
  rw [after_pc_inside s (by rwa [if_pos rfl]), if_pos rfl]

/-! ## Mutual exclusion -/

/-- The clients inside a section are the holder of the semaphore. -/
def Exclusive (s : State ι) : Prop := ∀ i, (s.pc i).inside = true ↔ s.dev.sem = some i

omit [DecidableEq ι] in
theorem Exclusive.unique {s : State ι} (exclusive : Exclusive s) {i j : ι}
    (first : (s.pc i).inside = true) (second : (s.pc j).inside = true) : j = i :=
  Option.some.inj (((exclusive j).mp second).symm.trans ((exclusive i).mp first))

theorem Exclusive.step {s t : State ι} {a : ι × Choice} (exclusive : Exclusive s)
    (stepped : Step s a t) : Exclusive t := by
  obtain ⟨effect, pc, decided, rfl⟩ := step_cases stepped
  intro j
  rw [after_inside]
  rcases next_section decided with ⟨before, after, rfl, free⟩ | ⟨before, after, outside⟩ |
    ⟨before, after, keeps⟩ | ⟨before, after, rfl⟩
  · rcases eq_or_ne j a.1 with rfl | other
    · simp [after, State.after, State.apply]
    · simp [other, State.after, State.apply, exclusive j, free, other.symm]
  · rw [after_sem _ _ _ (Effect.keepsSem_of_outside outside), ← exclusive j]
    rcases eq_or_ne j a.1 with rfl | other
    · simp [before, after]
    · simp [other]
  · rw [after_sem _ _ _ keeps, ← exclusive j]
    rcases eq_or_ne j a.1 with rfl | other
    · simp [before, after]
    · simp [other]
  · have held := (exclusive a.1).mp before
    rcases eq_or_ne j a.1 with rfl | other
    · simp [after, State.after, State.apply]
    · simp [other, State.after, State.apply, exclusive j, held, other.symm]

omit [DecidableEq ι] in
/-- While one client is inside, the statements of the others leave the ring as it is. -/
theorem Exclusive.onRing_eq {s : State ι} {a : ι × Choice} {effect : Effect} {pc : Pc} {j : ι}
    (exclusive : Exclusive s) (decided : next s.dev (s.pc a.1) a.2 = some (effect, pc))
    (other : j ≠ a.1) (inside : (s.pc j).inside = true) : effect.onRing s.ring = s.ring := by
  rcases next_section decided with ⟨-, -, rfl, -⟩ | ⟨-, -, outside⟩ | ⟨before, -, -⟩ |
    ⟨before, -, -⟩
  · rfl
  · exact Effect.onRing_of_outside outside _
  · exact absurd (exclusive.unique before inside) other
  · exact absurd (exclusive.unique before inside) other

/-! ## Knowledge of the holder -/

/-- What is known of the ring: `Free` while the semaphore is free, and what belongs to the
position of its holder while it is not. -/
structure Holding (Free : Ring → Prop) (At : Pc → Ring → Prop) (s : State ι) : Prop where
  exclusive : Exclusive s
  free : s.dev.sem = none → Free s.ring
  held : ∀ i, s.dev.sem = some i → At (s.pc i) s.ring

omit [DecidableEq ι] in
/-- Nobody holds the semaphore after `globalvar_init`. -/
theorem Holding.init {Free : Ring → Prop} {At : Pc → Ring → Prop}
    (free : Free (globalvarInit : State ι).ring) : Holding Free At (globalvarInit : State ι) where
  exclusive _ := ⟨nofun, nofun⟩
  free _ := free
  held := nofun

/-- What the invariant needs. Outside of a section a position says nothing more than that
the semaphore may be taken, and a statement of either function leads from what is known at
its position to what is known at the next one. -/
structure SectionRule (Free : Ring → Prop) (At : Pc → Ring → Prop)
    (guard : State ι → ι × Choice → Prop) : Prop where
  outside : ∀ {pc r}, pc.inside = false → (At pc r ↔ Free r)
  reads : ∀ {s a len pc effect pc'}, guard s a → s.pc a.1 = .reading len pc →
    globalvarReadNext s.dev len pc a.2 = some (effect, pc') → At (.reading len pc) s.ring →
    At pc' (effect.onRing s.ring)
  writes : ∀ {s a len buf pc effect pc'}, guard s a → s.pc a.1 = .writing len buf pc →
    globalvarWriteNext s.dev len buf pc a.2 = some (effect, pc') →
    At (.writing len buf pc) s.ring → At pc' (effect.onRing s.ring)

omit [DecidableEq ι] in
theorem SectionRule.moves {Free : Ring → Prop} {At : Pc → Ring → Prop}
    {guard : State ι → ι × Choice → Prop} (rule : SectionRule Free At guard) {s : State ι}
    {a : ι × Choice} {effect : Effect} {pc' : Pc} (guarded : guard s a)
    (decided : next s.dev (s.pc a.1) a.2 = some (effect, pc')) (known : At (s.pc a.1) s.ring) :
    At pc' (effect.onRing s.ring) := by
  rcases next_cases decided with ⟨c, position, rfl, rfl⟩ | ⟨ret, position, rfl, rfl⟩ |
    ⟨len, rpc, position, reads⟩ | ⟨len, buf, wpc, position, writes⟩ <;> rw [position] at known
  · have free := (rule.outside rfl).mp known
    refine (rule.outside ?_).mpr free
    cases c <;> rfl
  · have free := (rule.outside rfl).mp known
    exact (rule.outside rfl).mpr free
  · exact rule.reads guarded position reads known
  · exact rule.writes guarded position writes known

theorem SectionRule.step {Free : Ring → Prop} {At : Pc → Ring → Prop}
    {guard : State ι → ι × Choice → Prop} (rule : SectionRule Free At guard) {s t : State ι}
    {a : ι × Choice} (holding : Holding Free At s) (guarded : guard s a) (stepped : Step s a t) :
    Holding Free At t := by
  have exclusive := holding.exclusive.step stepped
  obtain ⟨effect, pc, decided, rfl⟩ := step_cases stepped
  -- the client that moves: it holds the semaphore, or takes it while it is free
  have own : At (s.pc a.1) s.ring → At pc (effect.onRing s.ring) := rule.moves guarded decided
  refine ⟨exclusive, ?_, ?_⟩
  · intro free
    rw [after_ring]
    rcases next_section decided with ⟨-, -, rfl, -⟩ | ⟨before, after, outside⟩ |
      ⟨before, -, keeps⟩ | ⟨before, after, rfl⟩
    · cases free
    · rw [after_sem _ _ _ (Effect.keepsSem_of_outside outside)] at free
      rw [Effect.onRing_of_outside outside]
      exact holding.free free
    · rw [after_sem _ _ _ keeps, (holding.exclusive a.1).mp before] at free
      cases free
    · have known := holding.held a.1 ((holding.exclusive a.1).mp before)
      exact (rule.outside after).mp (own known)
  · intro j taken
    have inside := (exclusive j).mpr taken
    rw [after_inside] at inside
    rw [after_ring, after_pc_inside s inside]
    rcases eq_or_ne j a.1 with rfl | other
    · simp only [if_true] at inside ⊢
      refine own ?_
      rcases next_section decided with ⟨before, -, -, free⟩ | ⟨-, after, -⟩ | ⟨before, -, -⟩ |
        ⟨-, after, -⟩
      · exact (rule.outside before).mpr (holding.free free)
      · cases after.symm.trans inside
      · exact holding.held _ ((holding.exclusive _).mp before)
      · cases after.symm.trans inside
    · simp only [if_neg other] at inside ⊢
      have holder := (holding.exclusive j).mp inside
      rw [holding.exclusive.onRing_eq decided other inside]
      exact holding.held j holder

end OsLab.Globalvar
