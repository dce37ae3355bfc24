import OsLab.Partition.Disjointness

/-!
# Memory that neither list owns

Memory is conserved when the sizes of the free and the allocated blocks sum to
`mem_size`; in a well-formed state this says that every address of
`[0, mem_size)` belongs to a block (`conserved_iff_covered`).

The program does not conserve memory. A block that would leave at most
`MIN_SLICE` addresses is unlinked as a whole, but the descriptor keeps the
requested size, so the rest belongs to nobody. And an allocation that needs
compaction takes its addresses in the recursive call and is then reported as
failed, so nobody owns those. These are the only ways to lose memory: a run
conserves it in all its states exactly when none of its requests does one of the
two (`conserved_iff_lossless`).
-/

set_option autoImplicit false

namespace OsLab.Partition

open OsLab.Foundation

variable {Q : Qsort} {s t : State} {op : Op}

/-- The free and the allocated blocks make up the whole memory. -/
def Conserved (s : State) : Prop :=
  totalFree s.freeBlock + ownedSize s.allocatedBlockHead = s.memSize

instance : DecidablePred Conserved := fun s =>
  inferInstanceAs (Decidable (totalFree s.freeBlock + ownedSize s.allocatedBlockHead = s.memSize))

/-- Memory is conserved when every address belongs to a block. -/
theorem conserved_iff_covered (wf : WellFormed s) :
    Conserved s ↔ addressesOf s.extents = {x | 0 ≤ x ∧ x < s.memSize} := by
  have sum : totalSize s.extents = totalFree s.freeBlock + ownedSize s.allocatedBlockHead := by
    rw [State.extents, totalSize_append, totalFree_eq, ownedSize_eq]
    rfl
  have covered := wf.packed.totalSize_eq_iff wf.sized
  simp only [Extent.addresses, sub_zero, zero_add] at covered
  rw [← covered, sum]
  rfl

/-- A request loses no memory: the block it takes from fits exactly or leaves
more than `MIN_SLICE`, or there is too little memory even in total. The other
operations never lose memory. -/
def Lossless (s : State) : Op → Prop
  | .newProcess _ size =>
      match findFit size [] s.freeBlock with
      | some (_, fbt, _) => fbt.size = size ∨ minSlice < fbt.size - size
      | none => totalFree s.freeBlock < size
  | _ => True

/-! ## Sums of sizes -/

theorem totalFree_append (blocks blocks' : List FreeBlock) :
    totalFree (blocks ++ blocks') = totalFree blocks + totalFree blocks' := by
  simp [totalFree]

theorem totalFree_split (pre next : List FreeBlock) (fbt : FreeBlock) :
    totalFree (pre ++ fbt :: next) = fbt.size + totalFree (pre ++ next) := by
  rw [totalFree_perm List.perm_middle]
  simp [totalFree]

theorem totalFree_afterFit (algorithm : Algorithm) (r : Int) (pre : List FreeBlock)
    (fbt : FreeBlock) (next : List FreeBlock) :
    totalFree (afterFit Q algorithm r pre fbt next) =
      totalFree (remainder r fbt).toList + totalFree (pre ++ next) := by
  rw [totalFree_perm (afterFit_perm algorithm r pre fbt next), totalFree_append]

/-- The remainder of a block is all that is left of it, or nothing. -/
theorem totalFree_remainder (r : Int) (fbt : FreeBlock) :
    totalFree (remainder r fbt).toList =
      if fbt.size - r ≤ minSlice then 0 else fbt.size - r := by
  unfold remainder
  split_ifs with small
  · rfl
  · simp [totalFree]

/-! ## The step lemma -/

theorem conserved_creation_iff {size ret : Int} (wf : WellFormed s) (positive : 0 < size)
    (malloced : AllocatedBlock) (conserved : Conserved s)
    (creation : Creation Q size s (ret, t)) :
    Conserved t ↔ Lossless s (.newProcess malloced size) := by
  unfold Conserved at conserved
  cases creation with
  | @placed pre next fbt found =>
      obtain ⟨split, large, -⟩ := findFit_nil_split found
      rw [split, totalFree_split] at conserved
      have owned : ownedSize (⟨s.pid + 1, size, fbt.startAddr⟩ :: s.allocatedBlockHead) =
          size + ownedSize s.allocatedBlockHead := by
        simp [ownedSize]
      simp only [Conserved, setFree_freeBlock, setFree_allocatedBlockHead, setFree_memSize,
        totalFree_afterFit, totalFree_remainder, owned, State.numbered, Lossless, found]
      simp only [minSlice]
      split_ifs <;> omega
  | refused unfit short =>
      simp only [Lossless, unfit, short, iff_true]
      exact conserved
  | lost unfit enough occupied =>
      have fits := wf.total_le
      have tooMuch : ¬ totalFree s.freeBlock < size := by omega
      simp only [Lossless, unfit, tooMuch, iff_false]
      intro after
      -- the addresses taken by the inner call are missing from the sum
      simp only [Conserved, compactedState, setFree_freeBlock, setFree_allocatedBlockHead,
        setFree_memSize, ownedSize_movedBlocks, totalFree_remainder, gathered,
        State.numbered] at after
      split_ifs at after <;> omega

/-- **A step from a conserving state conserves memory exactly when it is
lossless.** -/
theorem conserved_transition_iff (wf : WellFormed s) (conserved : Conserved s)
    (move : Transition Q s op t) : Conserved t ↔ Lossless s op := by
  cases move with
  | kept noRequest flag set =>
      have lossless : Lossless s op := by
        cases op with
        | newProcess malloced size => exact absurd rfl (noRequest malloced size)
        | _ => trivial
      exact iff_of_true conserved lossless
  | resized fresh positive =>
      obtain ⟨-, empty⟩ := wf.untouched fresh
      refine iff_of_true ?_ trivial
      simp [Conserved, totalFree, ownedSize, empty]
  | chosen algorithm =>
      refine iff_of_true ?_ trivial
      simp only [Conserved, setFree_freeBlock, setFree_allocatedBlockHead, setFree_memSize,
        totalFree_perm (Q.perm algorithm.comparator s.freeBlock)]
      exact conserved
  | @created malloced _ _ _ positive creation =>
      have exactly := conserved_creation_iff wf positive malloced conserved creation
      exact exactly
  | @killed pid p ab found node =>
      refine iff_of_true ?_ trivial
      have owned : ownedSize s.allocatedBlockHead =
          ab.size + ownedSize (s.allocatedBlockHead.eraseIdx p) := by
        have sum := ((eraseIdx_perm node).map AllocatedBlock.size).sum_eq
        simpa [ownedSize] using sum
      unfold Conserved at conserved ⊢
      simp only [setFree_freeBlock, setFree_allocatedBlockHead, setFree_memSize,
        totalFree_releasedFree]
      omega

/-! ## Runs -/

/-- **A run conserves memory in all its states exactly when all its requests are
lossless.** -/
theorem conserved_iff_lossless (Q : Qsort) {trace : List (State × Op)} {s : State}
    (run : Run (Step Q) initial trace s) :
    (Conserved s ∧ ∀ p ∈ trace, Conserved p.1) ↔ ∀ p ∈ trace, Lossless p.1 p.2 := by
  have exactly : ∀ s op t, WellFormed s → Conserved s → Step Q s op t →
      (Conserved t ↔ Lossless s op) := fun _ _ _ wf conserved step =>
    conserved_transition_iff wf conserved (step_transition wf step)
  exact run.always_iff_guarded initial_wellFormed (fun _ _ _ wf step => wf.step step) (by decide)
    exactly

/-- A run whose two requests fit exactly. -/
theorem conserved_iff_lossless_exact :
    ∃ trace s, Run (Step .insertion) initial trace s ∧
      session .insertion 1 [.newProcess ⟨0, 0, 0⟩ 24, .newProcess ⟨0, 0, 0⟩ 1000] initial = .ok s ∧
      ((Conserved s ∧ ∀ p ∈ trace, Conserved p.1) ↔ ∀ p ∈ trace, Lossless p.1 p.2) := by
  obtain ⟨trace, run⟩ := reachable_of_session .insertion 1
    [.newProcess ⟨0, 0, 0⟩ 24, .newProcess ⟨0, 0, 0⟩ 1000] Reachable.refl (by decide) rfl
  exact ⟨trace, _, run, rfl, conserved_iff_lossless .insertion run⟩

/-- One process of 1020 in a memory of 1024 loses the last four addresses. -/
theorem conservation_fails :
    ∃ s, session .insertion 1 [.newProcess ⟨0, 0, 0⟩ 1020] initial = .ok s ∧
      ReachableState .insertion s ∧ s.memSize = 1024 ∧
      totalFree s.freeBlock + ownedSize s.allocatedBlockHead = 1020 ∧ ¬ Conserved s := by
  have reached := reachable_of_session .insertion 1 [.newProcess ⟨0, 0, 0⟩ 1020]
    Reachable.refl (by decide) rfl
  exact ⟨_, rfl, reached, rfl, rfl, by decide⟩

end OsLab.Partition
