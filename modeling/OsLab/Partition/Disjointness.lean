import OsLab.Partition.Release

/-!
# Blocks never overlap

Every menu operation that returns is one of the moves of `Transition`
(`step_transition`), and each move keeps the memory invariant
(`WellFormed.transition`). By the rule for runs the invariant holds in every
state the menu can reach (`wellFormed_of_reachable`). The blocks, free and
allocated together, have positive sizes, lie inside `[0, mem_size)` and occupy
disjoint addresses, also after runs through compaction and after failed
allocations (`blocks_disjoint`).
-/

set_option autoImplicit false

namespace OsLab.Partition

open OsLab.Foundation

variable {Q : Qsort} {s t : State} {op : Op}

/-! ## The moves of the menu -/

/-- What a menu operation that returns does to a well-formed state. -/
inductive Transition (Q : Qsort) (s : State) : Op → State → Prop where
  /-- Nothing but `flag` changes. -/
  | kept {op : Op} (noRequest : ∀ malloced size, op ≠ .newProcess malloced size) (flag : Int)
      (set : flag = s.flag ∨ flag = 1) : Transition Q s op { s with flag := flag }
  | resized {size : Int} (fresh : s.flag = 0) (positive : 0 < size) :
      Transition Q s (.setMemSize size)
        ({ s with memSize := size, flag := 1 }.setFree [⟨size, defaultMemStart⟩])
  | chosen {number : Int} (algorithm : Algorithm) :
      Transition Q s (.setAlgorithm number)
        ({ s with maAlgorithm := algorithm, flag := 1 }.setFree
          (Q.sort algorithm.comparator s.freeBlock))
  | created {malloced : AllocatedBlock} {size ret : Int} {t : State} (positive : 0 < size)
      (creation : Creation Q size s (ret, t)) :
      Transition Q s (.newProcess malloced size) { t with flag := 1 }
  | killed {pid : Int} {p : Nat} {ab : AllocatedBlock}
      (found : findProcess pid s.allocatedBlockHead = some p)
      (node : s.allocatedBlockHead[p]? = some ab) :
      Transition Q s (.killProcess pid)
        ({ s with allocatedBlockHead := s.allocatedBlockHead.eraseIdx p, flag := 1 }.setFree
          (releasedFree Q s.maAlgorithm ab s.freeBlock))

theorem setMemSize_transition (wf : WellFormed s) {size : Int} {result : Int × State}
    (returned : setMemSize size s = .ok result) :
    Transition Q s (.setMemSize size) result.2 := by
  unfold setMemSize at returned
  by_cases fixed : s.flag ≠ 0
  · rw [if_pos fixed, Except.ok.injEq] at returned
    subst returned
    exact .kept (by simp) s.flag (.inl rfl)
  · have fresh : s.flag = 0 := not_ne_iff.mp fixed
    obtain ⟨single, -⟩ := wf.untouched fresh
    have len : s.freeBlockLen = 1 := by
      rw [wf.counted, single]
      rfl
    rw [if_neg fixed] at returned
    by_cases positive : size > 0
    · rw [if_pos positive, single, Except.ok.injEq] at returned
      subst returned
      have resized := Transition.resized (Q := Q) fresh positive
      simpa [State.setFree, len] using resized
    · rw [if_neg positive, Except.ok.injEq] at returned
      subst returned
      exact .kept (by simp) 1 (.inr rfl)

/-- A turn that creates a process returns when the call does. -/
theorem newProcess_of_menu {fuel : Nat} {malloced : AllocatedBlock} {size : Int}
    (returned : menu Q fuel (.newProcess malloced size) s = .ok t) :
    ∃ ret u, newProcess Q fuel malloced size s = .ok (ret, u) ∧ t = { u with flag := 1 } := by
  cases call : newProcess Q fuel malloced size s with
  | error stop => simp [menu, call, bind, Except.bind] at returned
  | ok result =>
      simp only [menu, call, bind, Except.bind, Except.ok.injEq] at returned
      exact ⟨result.1, result.2, rfl, returned.symm⟩

/-- **Every operation that returns is one of the moves.** -/
theorem step_transition (wf : WellFormed s) (step : Step Q s op t) : Transition Q s op t := by
  obtain ⟨positive, fuel, returned⟩ := step
  cases op with
  | setMemSize size =>
      cases call : setMemSize size s with
      | error stop => simp [menu, call, bind, Except.bind] at returned
      | ok result =>
          simp only [menu, call, bind, Except.bind, Except.ok.injEq] at returned
          subst returned
          exact setMemSize_transition wf call
  | setAlgorithm number =>
      have sorted := rearrangeBy_eq (Q := Q)
        (s := { s with maAlgorithm := (Algorithm.ofInt? number).getD s.maAlgorithm }) wf.counted
        ((Algorithm.ofInt? number).getD s.maAlgorithm).comparator
      simp only [menu, setAlgorithm, rearrange_eq_rearrangeBy, sorted, bind, Except.bind,
        Except.ok.injEq] at returned
      subst returned
      exact .chosen _
  | newProcess malloced size =>
      obtain ⟨ret, u, call, rfl⟩ := newProcess_of_menu returned
      exact .created positive ((newProcess_returns_iff wf positive).mp ⟨fuel, call⟩)
  | killProcess pid =>
      cases found : findProcess pid s.allocatedBlockHead with
      | none =>
          simp only [menu, killProcess_of_unknown found, bind, Except.bind,
            Except.ok.injEq] at returned
          subst returned
          exact .kept (by simp) 1 (.inr rfl)
      | some p =>
          obtain ⟨ab, node, -⟩ := findProcess_some found
          simp only [menu, killProcess_eq wf.counted found node, bind, Except.bind,
            Except.ok.injEq] at returned
          subst returned
          exact .killed found node
  | displayMemUsage =>
      simp only [menu, Except.ok.injEq] at returned
      subst returned
      exact .kept (by simp) 1 (.inr rfl)

/-! ## The invariant -/

theorem initial_wellFormed : WellFormed initial where
  sized := by decide
  packed := .cons (by decide) (by decide) (by simp [State.ownedExtents, initial, initFreeBlock])
    .nil
  counted := rfl
  untouched _ := ⟨rfl, rfl⟩

/-- Taking the front of a block for a process, and dropping or keeping the
rest of it. -/
theorem afterFit_packed {lo hi r : Int} {pre next : List FreeBlock} {fbt : FreeBlock}
    {others : List Extent} (algorithm : Algorithm) (positive : 0 < r) (large : r ≤ fbt.size)
    (packed : Packed lo hi ((pre ++ fbt :: next).map FreeBlock.extent ++ others)) :
    Packed lo hi ((afterFit Q algorithm r pre fbt next).map FreeBlock.extent ++
      ⟨fbt.startAddr, r⟩ :: others) := by
  have front : Packed lo hi
      (fbt.extent :: ((pre ++ next).map FreeBlock.extent ++ others)) :=
    packed.perm ((List.perm_middle.map FreeBlock.extent).append_right others)
  have after := (afterFit_perm (Q := Q) algorithm r pre fbt next).map FreeBlock.extent
  refine Packed.perm ?_ (List.perm_middle.trans (after.append_right others |>.cons _)).symm
  rcases remainder_cases r fbt with ⟨-, gone⟩ | ⟨kept, rest⟩
  · rw [gone]
    exact front.narrow positive le_rfl (by simp only [FreeBlock.extent]; omega)
  · have short : r < fbt.size := by
      simp only [minSlice] at kept
      omega
    rw [rest]
    exact front.split positive short

/-- Free blocks above the moved processes are packed together with them. -/
theorem movedBlocks_packed_above (wf : WellFormed s) {blocks : List FreeBlock}
    (above : Packed (ownedSize s.allocatedBlockHead) s.memSize (blocks.map FreeBlock.extent)) :
    Packed 0 s.memSize
      ({ s with allocatedBlockHead := movedBlocks Q s.allocatedBlockHead }.setFree
        blocks).extents := by
  have fits := wf.total_le
  have free := wf.totalFree_nonneg
  have low := movedBlocks_packed (Q := Q) wf.ownedPositive
  exact (low.append above wf.ownedSize_nonneg (by omega)).perm List.perm_append_comm

/-- The state compaction and the recursive call leave is packed, unless a
remainder is kept that starts below the gathered block. -/
theorem compactedState_packed_of_inside {r : Int} (wf : WellFormed s)
    (inside : ¬ (gathered s).size - r ≤ minSlice → 0 ≤ r) :
    Packed 0 s.memSize (compactedState Q r s).extents := by
  apply movedBlocks_packed_above wf
  rcases remainder_cases r (gathered s) with ⟨-, gone⟩ | ⟨kept, rest⟩
  · rw [gone]
    exact .nil
  · have above := inside (not_le.mpr kept)
    rw [rest]
    simp only [gathered, minSlice] at kept ⊢
    refine .cons ?_ ?_ (by simp) .nil
    · simp only [FreeBlock.extent]
      omega
    · simp only [FreeBlock.extent]
      omega

theorem compactedState_packed {r : Int} (wf : WellFormed s) (positive : 0 < r) :
    Packed 0 s.memSize (compactedState Q r s).extents :=
  compactedState_packed_of_inside wf fun _ => positive.le

theorem compactMemory_memSize (s : State) : (compactMemory Q s).2.memSize = s.memSize := by
  by_cases empty : s.allocatedBlockHead = []
  · rw [compactMemory_of_empty empty]
  · rw [compactMemory_eq empty]
    rfl

/-- A compaction keeps the invariant. -/
theorem WellFormed.compactMemory (wf : WellFormed s) :
    WellFormed (Partition.compactMemory Q s).2 := by
  by_cases empty : s.allocatedBlockHead = []
  · rw [compactMemory_of_empty empty]
    exact wf
  · have above : Packed (ownedSize s.allocatedBlockHead) s.memSize
        ((compactedFree s).toList.map FreeBlock.extent) := by
      by_cases room : ownedSize s.allocatedBlockHead < s.memSize
      · have single : compactedFree s = some (gathered s) := if_pos room
        rw [single]
        refine .cons ?_ ?_ (by simp) .nil
        · simp only [FreeBlock.extent, gathered]
          omega
        · simp only [FreeBlock.extent, gathered]
          omega
      · have nothing : compactedFree s = none := if_neg room
        rw [nothing]
        exact .nil
    rw [compactMemory_eq empty]
    exact {
      sized := wf.sized
      packed := movedBlocks_packed_above wf above
      counted := rfl
      untouched := fun zero => absurd (wf.untouched zero).2 empty }

theorem WellFormed.creation {size ret : Int} (wf : WellFormed s) (positive : 0 < size)
    (creation : Creation Q size s (ret, t)) : WellFormed { t with flag := 1 } := by
  cases creation with
  | placed found =>
      obtain ⟨split, large, -⟩ := findFit_nil_split found
      have packed := wf.packed
      rw [State.extents, State.freeExtents, split] at packed
      exact {
        sized := wf.sized
        packed := afterFit_packed s.maAlgorithm positive large packed
        counted := rfl
        untouched := fun zero => absurd zero one_ne_zero }
  | refused _ _ =>
      exact {
        sized := wf.sized
        packed := wf.packed
        counted := wf.counted
        untouched := fun zero => absurd zero one_ne_zero }
  | lost _ _ _ =>
      have packed : Packed 0 s.numbered.memSize (compactedState Q size s.numbered).extents :=
        compactedState_packed wf.numbered positive
      exact {
        sized := wf.sized
        packed := packed
        counted := rfl
        untouched := fun zero => absurd zero one_ne_zero }

/-- **The step lemma: every move keeps the invariant.** -/
theorem WellFormed.transition (wf : WellFormed s) (move : Transition Q s op t) :
    WellFormed t := by
  cases move with
  | kept _ flag set =>
      exact {
        sized := wf.sized
        packed := wf.packed
        counted := wf.counted
        untouched := fun zero => by
          rcases set with same | one
          · exact wf.untouched (same.symm.trans zero)
          · exact absurd (one.symm.trans zero) one_ne_zero }
  | resized fresh positive =>
      obtain ⟨-, empty⟩ := wf.untouched fresh
      exact {
        sized := positive
        packed := by
          simp only [State.extents, State.freeExtents, State.ownedExtents, setFree_freeBlock,
            setFree_allocatedBlockHead, setFree_memSize, empty]
          exact .cons positive ⟨le_rfl, by simp [FreeBlock.extent, defaultMemStart]⟩ (by simp) .nil
        counted := rfl
        untouched := fun zero => absurd zero one_ne_zero }
  | chosen algorithm =>
      have sorted := (Q.perm algorithm.comparator s.freeBlock).map FreeBlock.extent
      exact {
        sized := wf.sized
        packed := wf.packed.perm (sorted.symm.append_right s.ownedExtents)
        counted := rfl
        untouched := fun zero => absurd zero one_ne_zero }
  | created positive creation => exact wf.creation positive creation
  | killed found node =>
      have unlinked := (eraseIdx_perm node).map AllocatedBlock.extent
      exact {
        sized := wf.sized
        packed := releasedFree_packed s.maAlgorithm
          (wf.packed.perm (unlinked.append_left s.freeExtents))
        counted := rfl
        untouched := fun zero => absurd zero one_ne_zero }

theorem WellFormed.step (wf : WellFormed s) (step : Step Q s op t) : WellFormed t :=
  wf.transition (step_transition wf step)

/-- **Every reachable state is well formed.** -/
theorem wellFormed_of_reachable (reached : ReachableState Q s) : WellFormed s :=
  reached.invariant WellFormed initial_wellFormed fun _ _ _ wf step => wf.step step

/-- **Blocks have positive sizes, lie inside memory and overlap nowhere**, in
the state at the end of every run of the menu. -/
theorem blocks_disjoint (Q : Qsort) {trace : List (State × Op)} {s : State}
    (run : Run (Step Q) initial trace s) :
    (∀ e ∈ s.extents, 0 < e.size ∧ 0 ≤ e.start ∧ e.start + e.size ≤ s.memSize) ∧
      s.extents.Pairwise fun a b => ∀ x ∈ a.addresses, x ∉ b.addresses := by
  have wf := wellFormed_of_reachable ⟨trace, run⟩
  refine ⟨fun e member => ⟨wf.packed.positive e member, wf.packed.inside e member⟩, ?_⟩
  exact wf.packed.apart

/-- A session that frees the memory on both sides of a process and then asks for
more than either side has, so that the last request goes through compaction and
is reported as failed. -/
def squeezedSession : List Op :=
  [.newProcess ⟨0, 0, 0⟩ 100, .newProcess ⟨0, 0, 0⟩ 100, .newProcess ⟨0, 0, 0⟩ 824,
    .killProcess 1, .killProcess 3, .newProcess ⟨0, 0, 0⟩ 900]

theorem blocks_disjoint_squeezed :
    ∃ s, session .insertion 2 squeezedSession initial = .ok s ∧
      s.extents = [⟨1000, 24⟩, ⟨0, 100⟩] ∧
      s.extents.Pairwise fun a b => ∀ x ∈ a.addresses, x ∉ b.addresses := by
  obtain ⟨trace, run⟩ := reachable_of_session .insertion 2 squeezedSession Reachable.refl
    (by decide) rfl
  exact ⟨_, rfl, rfl, (blocks_disjoint .insertion run).2⟩

end OsLab.Partition
