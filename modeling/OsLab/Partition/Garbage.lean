import OsLab.Partition.Conservation
import OsLab.Partition.Outcomes

/-!
# A size that is not positive

`new_process` writes a positive size into the fresh descriptor and skips the
assignment for any other, but it allocates in both cases. With a size that is not
positive the request is what the descriptor held before
(`requested_of_nonpositive`).

A request that is not positive fits the first free block, and then a process
without addresses is registered. Only an empty free list leads to another outcome:
a compaction gathers a block, the inner call takes its part of it, and nothing is
registered. This is harmless when the call takes nothing or the block is
dropped, and otherwise the block that is left begins inside a process
(`sound_compactedState_iff`).

`Spared` collects the requests that do no harm (`Creation.sound_iff`). In a run of
the menu with any sizes all blocks stay sound exactly when every request is
spared, and after such a run the next size that is not positive is harmless exactly
when what it requests is spared (`sound_iff_harmless`).
-/

set_option autoImplicit false

namespace OsLab.Partition

open OsLab.Foundation

variable {Q : Qsort} {s t : State} {op : Op} {r : Int}

/-- All blocks, free and allocated, have positive sizes, lie inside memory and
overlap nowhere. -/
def State.Sound (s : State) : Prop := Packed 0 s.memSize s.extents

/-- One turn of the menu that returns, with any size. -/
def Turn (Q : Qsort) (s : State) (op : Op) (t : State) : Prop :=
  ∃ fuel, menu Q fuel op s = .ok t

/-- A request that does no damage: it is positive, or the free list is empty and
the block that a compaction gathers is left alone or dropped. -/
def Spared (r : Int) (s : State) : Prop :=
  0 < r ∨ s.freeBlock = [] ∧
    (r = 0 ∨ s.memSize - ownedSize s.allocatedBlockHead - r ≤ minSlice)

/-- A request `new_process` returns from: a block fits, the total is too small, or
the processes can be moved and leave something free. -/
def Answered (r : Int) (s : State) : Prop :=
  Fits r s ∨ totalFree s.freeBlock < r ∨
    s.allocatedBlockHead ≠ [] ∧ ownedSize s.allocatedBlockHead < s.memSize

/-- An operation whose request, if it makes one, is spared. -/
def Op.Harmless (s : State) : Op → Prop
  | .newProcess malloced size => Spared (requested size malloced) s
  | _ => True

/-! ## What is requested -/

theorem requested_of_nonpositive {size : Int} (nonpositive : size ≤ 0)
    (malloced : AllocatedBlock) : requested size malloced = malloced.size :=
  if_neg (by omega)

/-- **When `new_process` returns, whatever it requests.** -/
theorem newProcess_answered_iff (wf : WellFormed s) {size : Int} {malloced : AllocatedBlock}
    (entered : requested size malloced = r) :
    (∃ fuel result, newProcess Q fuel malloced size s = .ok result) ↔ Answered r s := by
  constructor
  · rintro ⟨fuel, result, returned⟩
    obtain ⟨creation, relievable⟩ :=
      (newProcess_returns_iff_of_any wf entered).mp ⟨fuel, returned⟩
    cases creation with
    | placed found => exact .inl (fits_of_found found)
    | refused _ short => exact .inr (.inl short)
    | lost unfit enough occupied => exact .inr (.inr ⟨occupied, relievable unfit enough⟩)
  · intro answered
    have call {result : Int × State} (creation : Creation Q r s result)
        (relievable : Relievable r s) :
        ∃ fuel result, newProcess Q fuel malloced size s = .ok result := by
      obtain ⟨fuel, returned⟩ :=
        (newProcess_returns_iff_of_any wf entered).mpr ⟨creation, relievable⟩
      exact ⟨fuel, result, returned⟩
    rcases fit_cases r s.freeBlock with
      ⟨pre, fbt, next, found⟩ | ⟨unfit, short⟩ | ⟨unfit, enough⟩
    · exact call (.placed found) fun unfit => absurd (fits_of_found found) (not_fits_iff.mpr unfit)
    · exact call (.refused unfit short) fun _ enough => absurd short (not_lt.mpr enough)
    · obtain ⟨occupied, room⟩ :=
        (answered.resolve_left (not_fits_iff.mpr unfit)).resolve_left (not_lt.mpr enough)
      exact call (.lost unfit enough occupied) fun _ _ => room

/-! ## What a request does to the blocks -/

/-- A request that is not positive fits every free block, so none is free. -/
theorem exhausted_of_unfit (wf : WellFormed s) (nonpositive : r ≤ 0)
    (unfit : findFit r [] s.freeBlock = none) : s.freeBlock = [] := by
  apply List.eq_nil_iff_forall_not_mem.mpr
  intro b member
  have small := findFit_eq_none_iff.mp unfit b member
  have positive := wf.freePositive b member
  omega

/-- **After a compaction for a request that is not positive** the blocks are sound
when nothing was taken or the remainder was dropped. -/
theorem sound_compactedState_iff (wf : WellFormed s) (nonpositive : r ≤ 0) :
    (compactedState Q r s).Sound ↔
      r = 0 ∨ s.memSize - ownedSize s.allocatedBlockHead - r ≤ minSlice := by
  constructor
  · intro sound
    by_contra harmful
    rw [not_or] at harmful
    have kept : ¬ (gathered s).size - r ≤ minSlice := harmful.2
    -- the kept block and the processes together are larger than the memory
    have total : totalSize (compactedState Q r s).extents = s.memSize - r := by
      rw [State.extents, totalSize_append, State.freeExtents, State.ownedExtents, ← totalFree_eq,
        ← ownedSize_eq]
      simp only [compactedState, setFree_freeBlock, setFree_allocatedBlockHead,
        ownedSize_movedBlocks]
      rw [totalFree_remainder, if_neg kept]
      simp only [gathered]
      omega
    have fits := Packed.totalSize_le sound wf.sized
    have bound : totalSize (compactedState Q r s).extents ≤ s.memSize - 0 := fits
    obtain ⟨nonzero, -⟩ := harmful
    omega
  · intro harmless
    apply compactedState_packed_of_inside wf
    intro kept
    rcases harmless with zero | dropped
    · exact zero.ge
    · exact absurd dropped kept

/-- **A request keeps the blocks sound exactly when it is spared.** -/
theorem Creation.sound_iff (wf : WellFormed s) {ret : Int} (creation : Creation Q r s (ret, t)) :
    t.Sound ↔ Spared r s := by
  by_cases positive : 0 < r
  · exact iff_of_true (wf.creation positive creation).packed (.inl positive)
  · have nonpositive : r ≤ 0 := not_lt.mp positive
    cases creation with
    | placed found =>
        obtain ⟨split, -, -⟩ := findFit_nil_split found
        refine iff_of_false (fun sound => ?_) ?_
        · -- the registered process has no address
          have size := Packed.positive sound _ (List.mem_append_right _ List.mem_cons_self)
          exact positive size
        · rintro (size | ⟨exhausted, -⟩)
          · exact positive size
          · rw [split] at exhausted
            exact List.append_ne_nil_of_right_ne_nil _ (List.cons_ne_nil _ _) exhausted
    | refused unfit short =>
        have free := wf.totalFree_nonneg
        omega
    | lost unfit enough occupied =>
        have exhausted := exhausted_of_unfit wf nonpositive unfit
        have sound : (compactedState Q r s.numbered).Sound ↔
            r = 0 ∨ s.memSize - ownedSize s.allocatedBlockHead - r ≤ minSlice :=
          sound_compactedState_iff wf.numbered nonpositive
        simp only [sound, Spared, positive, exhausted, false_or, true_and]

/-- A request that keeps the blocks sound keeps the invariant. -/
theorem Creation.wellFormed_of_sound (wf : WellFormed s) {ret : Int}
    (creation : Creation Q r s (ret, t)) (sound : t.Sound) : WellFormed { t with flag := 1 } where
  sized := by
    cases creation with
    | placed _ => exact wf.sized
    | refused _ _ => exact wf.sized
    | lost _ _ _ => exact wf.sized
  packed := sound
  counted := by
    cases creation with
    | placed _ => rfl
    | refused _ _ => exact wf.counted
    | lost _ _ _ => rfl
  untouched zero := absurd zero one_ne_zero

/-! ## Runs -/

/-- An operation other than a request is a step whatever the sizes. -/
theorem Turn.step_or_creation (turn : Turn Q s op t) (wf : WellFormed s) :
    Step Q s op t ∧ op.Harmless s ∨
      ∃ malloced size ret u, op = .newProcess malloced size ∧ t = { u with flag := 1 } ∧
        Creation Q (requested size malloced) s (ret, u) := by
  obtain ⟨fuel, returned⟩ := turn
  cases op with
  | newProcess malloced size =>
      obtain ⟨ret, u, call, rfl⟩ := newProcess_of_menu returned
      have creation := ((newProcess_returns_iff_of_any wf rfl).mp ⟨fuel, call⟩).1
      exact .inr ⟨malloced, size, ret, u, rfl, rfl, creation⟩
  | setMemSize size => exact .inl ⟨⟨trivial, fuel, returned⟩, trivial⟩
  | setAlgorithm number => exact .inl ⟨⟨trivial, fuel, returned⟩, trivial⟩
  | killProcess pid => exact .inl ⟨⟨trivial, fuel, returned⟩, trivial⟩
  | displayMemUsage => exact .inl ⟨⟨trivial, fuel, returned⟩, trivial⟩

/-- **A harmless turn keeps the invariant.** -/
theorem WellFormed.turn (wf : WellFormed s) (harmless : op.Harmless s) (turn : Turn Q s op t) :
    WellFormed t := by
  rcases turn.step_or_creation wf with ⟨step, -⟩ | ⟨malloced, size, ret, u, rfl, rfl, creation⟩
  · exact wf.step step
  · exact creation.wellFormed_of_sound wf ((creation.sound_iff wf).mpr harmless)

/-- **A turn that leaves the blocks sound was harmless.** -/
theorem Turn.harmless_of_sound (turn : Turn Q s op t) (wf : WellFormed s) (sound : t.Sound) :
    op.Harmless s := by
  rcases turn.step_or_creation wf with
    ⟨-, harmless⟩ | ⟨malloced, size, ret, u, rfl, rfl, creation⟩
  · exact harmless
  · exact (creation.sound_iff wf).mp sound

/-- The reachable states are the ends of runs with positive sizes, and these do
no harm. -/
theorem exists_harmless_run (reached : ReachableState Q s) :
    ∃ trace, Run (Turn Q) initial trace s ∧ ∀ p ∈ trace, p.2.Harmless p.1 := by
  obtain ⟨trace, run⟩ := reached
  refine ⟨trace, ?_⟩
  induction run with
  | nil => exact ⟨.nil, by simp⟩
  | @snoc trace s t op run' step ih =>
      obtain ⟨before, harmless⟩ := ih
      obtain ⟨positive, turn⟩ := step
      refine ⟨before.snoc turn, ?_⟩
      simp only [List.forall_mem_append, List.forall_mem_singleton]
      refine ⟨harmless, ?_⟩
      cases op with
      | newProcess malloced size =>
          have entered : requested size malloced = size := if_pos positive
          show Spared (requested size malloced) s
          rw [entered]
          exact .inl positive
      | _ => trivial

/-- **Runs with any sizes.** All blocks are sound in every state of a run exactly
when its requests are all spared. After such a run a size that is not positive is
harmless, the call returns and leaves the blocks sound, exactly when the old content
of the descriptor is a request that is spared and answered. The differences of sizes and
the old content are taken as in an `int` that does not overflow. -/
theorem sound_iff_harmless (Q : Qsort) {trace : List (State × Op)} {s : State}
    (run : Run (Turn Q) initial trace s) :
    ((s.Sound ∧ ∀ p ∈ trace, p.1.Sound) ↔ ∀ p ∈ trace, p.2.Harmless p.1) ∧
      ((∀ p ∈ trace, p.2.Harmless p.1) → ∀ (malloced : AllocatedBlock) (size : Int), size ≤ 0 →
        ((∃ fuel ret t, newProcess Q fuel malloced size s = .ok (ret, t) ∧ t.Sound) ↔
          Spared malloced.size s ∧ Answered malloced.size s) ∧
        ∀ fuel ret t, newProcess Q fuel malloced size s = .ok (ret, t) →
          (t.Sound ↔ Spared malloced.size s)) := by
  have kept : ∀ s op t, WellFormed s → op.Harmless s → Turn Q s op t → WellFormed t :=
    fun _ _ _ wf harmless turn => wf.turn harmless turn
  refine ⟨run.always_iff_guarded_of_invariant initial_wellFormed (fun _ wf => wf.packed)
    (fun _ _ _ wf turn sound => turn.harmless_of_sound wf sound) kept, ?_⟩
  intro harmless malloced size nonpositive
  obtain ⟨wf, -⟩ := run.always_of_guard WellFormed (fun s op => op.Harmless s)
    initial_wellFormed kept harmless
  have entered := requested_of_nonpositive nonpositive malloced
  have exactly {fuel : Nat} {ret : Int} {t : State}
      (returned : newProcess Q fuel malloced size s = .ok (ret, t)) :
      t.Sound ↔ Spared malloced.size s :=
    ((newProcess_returns_iff_of_any wf entered).mp ⟨fuel, returned⟩).1.sound_iff wf
  refine ⟨?_, fun _ _ _ returned => exactly returned⟩
  constructor
  · rintro ⟨fuel, ret, t, returned, sound⟩
    exact ⟨(exactly returned).mp sound, (newProcess_answered_iff wf entered).mp ⟨fuel, _, returned⟩⟩
  · rintro ⟨spared, answered⟩
    obtain ⟨fuel, ⟨ret, t⟩, returned⟩ := (newProcess_answered_iff (Q := Q) wf entered).mpr answered
    exact ⟨fuel, ret, t, returned, (exactly returned).mpr spared⟩

/-- One process of 1020 leaves no free block and four lost addresses. The old
content -6 asks for four addresses and six more, so the gathered block is
dropped. -/
theorem sound_iff_harmless_exhausted :
    ∃ s, session .insertion 1 [.newProcess ⟨0, 0, 0⟩ 1020] initial = .ok s ∧
      ((∃ fuel ret t, newProcess .insertion fuel ⟨0, -6, 0⟩ 0 s = .ok (ret, t) ∧ t.Sound) ↔
        Spared (-6) s ∧ Answered (-6) s) ∧ Spared (-6) s ∧ Answered (-6) s := by
  obtain ⟨trace, run, harmless⟩ := exists_harmless_run (reachable_of_session .insertion 1
    [.newProcess ⟨0, 0, 0⟩ 1020] Reachable.refl (by decide) rfl)
  refine ⟨_, rfl, ((sound_iff_harmless .insertion run).2 harmless ⟨0, -6, 0⟩ 0 le_rfl).1, ?_, ?_⟩
  · exact .inr ⟨rfl, .inr (by decide)⟩
  · exact .inr (.inr ⟨by decide, by decide⟩)

/-- **The size 0 does harm in the first state.** With an old content of 0 a process
without addresses is registered. With -20 the free block also grows by 20 and begins
20 addresses below the memory. -/
theorem nonpositive_request_breaks_blocks :
    ReachableState .insertion initial ∧
      (∃ t, newProcess .insertion 1 ⟨0, 0, 0⟩ 0 initial = .ok (1, t) ∧
        t.freeBlock = [⟨1024, 0⟩] ∧ t.allocatedBlockHead = [⟨1, 0, 0⟩] ∧ ¬ t.Sound) ∧
      ∃ t, newProcess .insertion 1 ⟨0, -20, 0⟩ 0 initial = .ok (1, t) ∧
        t.freeBlock = [⟨1044, -20⟩] ∧ t.allocatedBlockHead = [⟨1, -20, 0⟩] ∧ ¬ t.Sound := by
  refine ⟨Reachable.refl, ⟨_, rfl, rfl, rfl, fun sound => ?_⟩, ⟨_, rfl, rfl, rfl, fun sound => ?_⟩⟩
  · have size := Packed.positive sound ⟨0, 0⟩ (by decide)
    exact absurd size (by decide)
  · have size := Packed.positive sound ⟨0, -20⟩ (by decide)
    exact absurd size (by decide)

end OsLab.Partition
