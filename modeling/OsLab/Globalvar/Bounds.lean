import OsLab.Globalvar.Section

/-!
# The pointers stay in the buffer

`rd` and `wr` are clipped differently when they are in order and when they are not, and
equality falls on different sides in the two functions. The wrap is a test for equality
with `end`, so it needs that no pointer is ever moved beyond.

Inside a section a pointer may stand at `end`, between its advance and its wrap. While the
semaphore is free both are below. `Pc.Bounded` says which holds at which position, and
`ring_in_bounds` is the result.
-/

set_option autoImplicit false

namespace OsLab.Globalvar

open OsLab.Foundation
open OsLab.MessageQueue (WaitPc WaitNext waitEventInterruptible)

variable {ι : Type}

/-! ## Lengths -/

/-- The bytes from `rd` up to `wr` or `end`. -/
def contiguous (rd wr : Nat) : Nat := if rd < wr then wr - rd else maxNum - rd

/-- The bytes from `wr` up to `end` or one before `rd`. -/
def vacant (rd wr : Nat) : Nat := if rd ≤ wr then maxNum - wr else rd - wr - 1

/-- The cast of a difference that is not negative is the difference. -/
theorem sizeCast_eq {difference : Int} (nonneg : 0 ≤ difference) (small : difference ≤ maxNum) :
    sizeCast difference = difference.toNat := by
  unfold maxNum at small
  rw [sizeCast, Int.emod_eq_of_lt nonneg (by omega)]

theorem readLen_eq {rd wr : Nat} (len : Nat) (rdInside : rd ≤ maxNum) (wrInside : wr ≤ maxNum) :
    readLen rd wr len = min len (contiguous rd wr) := by
  unfold readLen contiguous
  split
  · rw [sizeCast_eq (by omega) (by omega)]
    omega
  · rw [sizeCast_eq (by omega) (by omega)]
    omega

theorem writeLen_eq {rd wr : Nat} (len : Nat) (rdInside : rd ≤ maxNum) (wrInside : wr ≤ maxNum) :
    writeLen rd wr len = min len (vacant rd wr) := by
  unfold writeLen vacant
  split
  · rw [sizeCast_eq (by omega) (by omega)]
    omega
  · rw [sizeCast_eq (by omega) (by omega)]
    omega

/-! ## Positions -/

/-- Both pointers are in `[buffer, end)`. -/
structure Ring.InBounds (r : Ring) : Prop where
  rd : r.rd < maxNum
  wr : r.wr < maxNum
  buffer : r.buffer.length = maxNum + 1

/-- What holds of the pointers at a position inside a section. -/
def Pc.Bounded (pc : Pc) (r : Ring) : Prop :=
  match pc with
  | .reading _ (.copy n) => r.InBounds ∧ r.rd + n ≤ maxNum
  | .reading _ (.advance n data) => r.InBounds ∧ r.rd + n ≤ maxNum ∧ data.length = n
  | .reading _ (.wrap _) => r.rd ≤ maxNum ∧ r.wr < maxNum ∧ r.buffer.length = maxNum + 1
  | .writing _ _ (.copy n) => r.InBounds ∧ r.wr + n ≤ maxNum
  | .writing _ _ (.advance n data) => r.InBounds ∧ r.wr + n ≤ maxNum ∧ data.length = n
  | .writing _ _ (.wrap _) => r.rd < maxNum ∧ r.wr ≤ maxNum ∧ r.buffer.length = maxNum + 1
  | _ => r.InBounds

theorem wrapped_lt {offset : Nat} (atMost : offset ≤ maxNum) : wrapped offset < maxNum := by
  unfold wrapped
  split
  · decide
  · omega

@[simp] theorem userBytes_length (len : Nat) (buf : Nat → UInt8) :
    (userBytes len buf).length = len := by
  simp [userBytes]

theorem InBounds.store {r : Ring} (bounds : r.InBounds) (data : List UInt8) :
    ((Effect.store data).onRing r).InBounds :=
  ⟨bounds.rd, bounds.wr, (putAll_length ..).trans bounds.buffer⟩

theorem globalvarReadNext_bounded {s : State ι} {len : Nat} {pc : ReadPc} {choice : Choice}
    {effect : Effect} {pc' : Pc} (decided : globalvarReadNext s.dev len pc choice = some (effect, pc'))
    (bounded : (Pc.reading len pc).Bounded s.ring) : pc'.Bounded (effect.onRing s.ring) := by
  cases pc with
  | wait w =>
      simp only [globalvarReadNext] at decided
      split at decided
      · cases decided
      · split at decided <;> cases decided <;> exact bounded
  | down =>
      cases choice <;> simp only [globalvarReadNext, reduceCtorEq] at decided <;>
        split at decided <;> cases decided <;> exact bounded
  | clip =>
      cases choice <;> cases decided
      refine ⟨bounded, ?_⟩
      have rdBelow : s.dev.rd < maxNum := bounded.rd
      have wrBelow : s.dev.wr < maxNum := bounded.wr
      change s.dev.rd + readLen s.dev.rd s.dev.wr len ≤ maxNum
      rw [readLen_eq len rdBelow.le wrBelow.le, contiguous]
      split <;> omega
  | copy n =>
      obtain ⟨bounds, within⟩ := bounded
      cases choice with
      | go =>
          cases decided
          refine ⟨bounds, within, ?_⟩
          have whole : s.dev.buffer.length = maxNum + 1 := bounds.buffer
          change s.dev.rd + n ≤ maxNum at within
          rw [List.length_take, List.length_drop]
          omega
      | fault done =>
          simp only [globalvarReadNext] at decided
          split at decided <;> cases decided
          exact bounds
      | _ => cases decided
  | advance n data =>
      cases choice <;> cases decided
      exact ⟨bounded.2.1, bounded.1.wr, bounded.1.buffer⟩
  | wrap n =>
      cases choice <;> cases decided
      exact ⟨wrapped_lt bounded.1, bounded.2.1, bounded.2.2⟩
  | clearFlag | upFault | up =>
      cases choice <;> cases decided
      exact bounded

theorem globalvarWriteNext_bounded {s : State ι} {len : Nat} {buf : Nat → UInt8} {pc : WritePc}
    {choice : Choice} {effect : Effect} {pc' : Pc}
    (decided : globalvarWriteNext s.dev len buf pc choice = some (effect, pc'))
    (bounded : (Pc.writing len buf pc).Bounded s.ring) : pc'.Bounded (effect.onRing s.ring) := by
  cases pc with
  | down =>
      cases choice <;> simp only [globalvarWriteNext, reduceCtorEq] at decided <;>
        split at decided <;> cases decided <;> exact bounded
  | clip =>
      cases choice <;> cases decided
      refine ⟨bounded, ?_⟩
      have rdBelow : s.dev.rd < maxNum := bounded.rd
      have wrBelow : s.dev.wr < maxNum := bounded.wr
      change s.dev.wr + writeLen s.dev.rd s.dev.wr len ≤ maxNum
      rw [writeLen_eq len rdBelow.le wrBelow.le, vacant]
      split <;> omega
  | copy n =>
      obtain ⟨bounds, within⟩ := bounded
      cases choice with
      | go =>
          cases decided
          exact ⟨InBounds.store bounds _, within, userBytes_length ..⟩
      | fault done =>
          simp only [globalvarWriteNext] at decided
          split at decided <;> cases decided
          exact InBounds.store bounds _
      | _ => cases decided
  | advance n data =>
      cases choice <;> cases decided
      exact ⟨bounded.1.rd, bounded.2.1, bounded.1.buffer⟩
  | wrap n =>
      cases choice <;> cases decided
      exact ⟨bounded.1, wrapped_lt bounded.2.1, bounded.2.2⟩
  | upFault | up | setFlag | wake =>
      cases choice <;> cases decided
      exact bounded

theorem bounded_outside {pc : Pc} {r : Ring} (outside : pc.inside = false) :
    pc.Bounded r ↔ r.InBounds := by
  cases pc with
  | reading len rpc => cases rpc <;> first | exact Iff.rfl | cases outside
  | writing len buf wpc => cases wpc <;> first | exact Iff.rfl | cases outside
  | _ => exact Iff.rfl

/-- The bounds are kept by every statement. -/
theorem bounded_rule : SectionRule Ring.InBounds Pc.Bounded fun (_ : State ι) _ => True where
  outside := bounded_outside
  reads _ _ decided bounded := globalvarReadNext_bounded decided bounded
  writes _ _ decided bounded := globalvarWriteNext_bounded decided bounded

theorem inBounds_init : (globalvarInit : State ι).ring.InBounds where
  rd := show 0 < maxNum by decide
  wr := show 0 < maxNum by decide
  buffer := List.length_replicate ..

/-! ## The result -/

variable [DecidableEq ι]

theorem holding_bounds {s : State ι} (reached : ReachableState s) :
    Holding Ring.InBounds Pc.Bounded s := by
  refine reached.invariant (Holding Ring.InBounds Pc.Bounded) (Holding.init inBounds_init) ?_
  intro s a t holding stepped
  exact bounded_rule.step holding trivial stepped

/-- A client inside a section knows its bounds. -/
theorem bounded_of_inside {s : State ι} (reached : ReachableState s) {i : ι} {pc : Pc}
    (position : s.pc i = pc) (inside : pc.inside = true) : pc.Bounded s.ring := by
  have holding := holding_bounds reached
  subst position
  exact holding.held i ((holding.exclusive i).mp inside)

/-- **The ring stays in bounds.** In every reachable state: while the semaphore is free both
pointers are in `[buffer, end)`; the difference a clipping casts to `size_t` is not
negative, in whichever branch; and the ranges that are copied lie in `[buffer, end)`. -/
theorem ring_in_bounds {s : State ι} (reached : ReachableState s) :
    (s.dev.sem = none → s.dev.rd < maxNum ∧ s.dev.wr < maxNum) ∧
    (∀ i len, s.pc i = .reading len .clip →
      if s.dev.rd < s.dev.wr then (0 : Int) ≤ s.dev.wr - s.dev.rd
      else (0 : Int) ≤ maxNum - s.dev.rd) ∧
    (∀ i len buf, s.pc i = .writing len buf .clip →
      if s.dev.rd ≤ s.dev.wr then (0 : Int) ≤ maxNum - s.dev.wr
      else (0 : Int) ≤ s.dev.rd - s.dev.wr - 1) ∧
    (∀ i len n, s.pc i = .reading len (.copy n) → s.dev.rd + n ≤ maxNum) ∧
    ∀ i len buf n, s.pc i = .writing len buf (.copy n) → s.dev.wr + n ≤ maxNum := by
  refine ⟨?_, ?_, ?_, ?_, ?_⟩
  · intro free
    have bounds := (holding_bounds reached).free free
    exact ⟨bounds.rd, bounds.wr⟩
  · intro i len position
    have bounds : s.ring.InBounds := bounded_of_inside reached position rfl
    have below : s.dev.rd < maxNum := bounds.rd
    split <;> omega
  · intro i len buf position
    have bounds : s.ring.InBounds := bounded_of_inside reached position rfl
    have below : s.dev.wr < maxNum := bounds.wr
    split <;> omega
  · intro i len n position
    exact (bounded_of_inside reached position rfl).2
  · intro i len buf n position
    exact (bounded_of_inside reached position rfl).2

/-- A write of 120 bytes is clipped at `end`, and its pointer wraps. -/
theorem ring_in_bounds_clipped :
    ∃ s : State Unit, ReachableState s ∧ s.accepted.length = 100 ∧ s.dev.wr = 0 ∧
      s.dev.rd < maxNum ∧ s.dev.wr < maxNum := by
  obtain ⟨s, ran⟩ := Option.isSome_iff_exists.mp
    (show (replay step (alone () (.globalvarWrite 120 fun _ => 7) 9) globalvarInit).isSome from rfl)
  have reached : ReachableState s := Reachable.refl.replay ran
  have free : s.dev.sem = none := by
    cases ran
    rfl
  have bounds := (ring_in_bounds reached).1 free
  cases ran
  exact ⟨_, reached, rfl, rfl, bounds⟩

end OsLab.Globalvar
