import OsLab.Partition.Disjointness

/-!
# Compaction keeps the processes and gathers the rest

`compact_memory` writes new start addresses through pointers that are sorted by the old
ones. No two blocks start at the same address, so the order of the pointers is strict in
the old addresses (`sortedPointers_ascending`) and, as each new start is the end of the
block before, in the new ones (`movedBlocks_ascending`). Two consequences:

* the processes keep their order in memory (`movedBlocks_order`);
* a second compaction sorts the pointers in the same way, whatever `qsort` is used, and
  writes the same addresses again (`movedBlocks_idempotent`).

`compactMemory_gathers` is the whole account of a compaction in a reachable state.
-/

set_option autoImplicit false

namespace OsLab.Partition

open OsLab.Foundation

variable {Q : Qsort} {s : State}

/-! ## The order of the blocks -/

/-- The start of the block a pointer points to. -/
def startAt (nodes : List AllocatedBlock) (p : Nat) : Int :=
  (nodes[p]?.map AllocatedBlock.startAddr).getD 0

theorem startAt_eq {nodes : List AllocatedBlock} {p : Nat} {b : AllocatedBlock}
    (node : nodes[p]? = some b) : startAt nodes p = b.startAddr := by
  simp [startAt, node]

/-- No two blocks of the list start at the same address. -/
def DistinctStarts (nodes : List AllocatedBlock) : Prop :=
  nodes.Pairwise fun a b => a.startAddr ≠ b.startAddr

theorem distinctStarts_of_packed {lo hi : Int} {nodes : List AllocatedBlock}
    (packed : Packed lo hi (nodes.map AllocatedBlock.extent)) : DistinctStarts nodes := by
  refine (List.pairwise_map.mp packed.apart).imp_of_mem fun {a b} inA inB apart same => ?_
  have sizeA : 0 < a.size := packed.positive a.extent (List.mem_map_of_mem inA)
  have sizeB : 0 < b.size := packed.positive b.extent (List.mem_map_of_mem inB)
  rcases (Extent.apart_iff sizeA sizeB).mp apart with ends | ends
  · simp only [AllocatedBlock.extent] at ends
    omega
  · simp only [AllocatedBlock.extent] at ends
    omega

/-- Blocks at different places of the list start at different addresses. -/
theorem DistinctStarts.startAt_ne {nodes : List AllocatedBlock} (distinct : DistinctStarts nodes)
    {p q : Nat} (inP : p < nodes.length) (inQ : q < nodes.length) (different : p ≠ q) :
    startAt nodes p ≠ startAt nodes q := by
  rw [startAt_eq (List.getElem?_eq_getElem inP), startAt_eq (List.getElem?_eq_getElem inQ)]
  have pairs := List.pairwise_iff_getElem.mp distinct
  rcases Nat.lt_or_gt_of_ne different with before | after
  · exact pairs p q inP inQ before
  · exact (pairs q p inQ inP after).symm

theorem mem_sortedPointers {nodes : List AllocatedBlock} {p : Nat} :
    p ∈ sortedPointers Q nodes ↔ p < nodes.length := by
  rw [sortedPointers, (Q.perm _ _).mem_iff, List.mem_range]

/-- **The pointers ascend strictly in the old addresses.** -/
theorem sortedPointers_ascending {nodes : List AllocatedBlock} (distinct : DistinctStarts nodes) :
    (sortedPointers Q nodes).Pairwise fun p q => startAt nodes p < startAt nodes q := by
  have sorted := Q.sorted (cmpAllocByAddr nodes) (List.range nodes.length)
  refine (sorted.and (sortedPointers_nodup (Q := Q) nodes)).imp_of_mem fun {p q} inP inQ both => ?_
  have order : startAt nodes p ≤ startAt nodes q := (Comparator.byKey_le_iff _ p q).mp both.1
  have apart := distinct.startAt_ne (mem_sortedPointers.mp inP) (mem_sortedPointers.mp inQ) both.2
  omega

/-! ## The new addresses -/

theorem restarted_above {next : Int} {blocks : List AllocatedBlock}
    (positive : ∀ b ∈ blocks, 0 < b.size) : ∀ b ∈ restarted next blocks, next ≤ b.startAddr := by
  induction blocks generalizing next with
  | nil => exact nofun
  | cons b blocks ih =>
      obtain ⟨size, later⟩ := List.forall_mem_cons.mp positive
      refine List.forall_mem_cons.mpr ⟨le_rfl, fun b' member => ?_⟩
      have above := @ih (next + b.size) later b' member
      omega

/-- Each block starts behind the one before. -/
theorem restarted_ascending (next : Int) {blocks : List AllocatedBlock}
    (positive : ∀ b ∈ blocks, 0 < b.size) :
    (restarted next blocks).Pairwise fun a b => a.startAddr < b.startAddr := by
  induction blocks generalizing next with
  | nil => exact List.Pairwise.nil
  | cons b blocks ih =>
      obtain ⟨size, later⟩ := List.forall_mem_cons.mp positive
      refine List.pairwise_cons.mpr ⟨fun b' member => ?_, ih (next + b.size) later⟩
      have above := restarted_above later b' member
      simp only
      omega

theorem restarted_restarted (next : Int) (blocks : List AllocatedBlock) :
    restarted next (restarted next blocks) = restarted next blocks := by
  induction blocks generalizing next with
  | nil => rfl
  | cons b blocks ih => simp [restarted, ih]

/-- The moved blocks, read through the pointers. -/
theorem movedBlocks_pointed (nodes : List AllocatedBlock) :
    ∃ blocks : List AllocatedBlock, blocks.Perm nodes ∧
      (sortedPointers Q nodes).map (fun p => (movedBlocks Q nodes)[p]?) =
        (restarted defaultMemStart blocks).map some := by
  obtain ⟨blocks, perm, pointed⟩ := exists_pointed (Q := Q) nodes
  exact ⟨blocks, perm, (relocate_stacked (sortedPointers_nodup nodes) defaultMemStart pointed).1⟩

/-- **The pointers ascend strictly in the new addresses.** -/
theorem movedBlocks_ascending {nodes : List AllocatedBlock} (positive : ∀ b ∈ nodes, 0 < b.size) :
    (sortedPointers Q nodes).Pairwise fun p q =>
      startAt (movedBlocks Q nodes) p < startAt (movedBlocks Q nodes) q := by
  obtain ⟨blocks, perm, pointed⟩ := movedBlocks_pointed (Q := Q) nodes
  have starts : (sortedPointers Q nodes).map (startAt (movedBlocks Q nodes)) =
      (restarted defaultMemStart blocks).map AllocatedBlock.startAddr := by
    have images := congrArg (List.map fun b => (b.map AllocatedBlock.startAddr).getD 0) pointed
    rw [List.map_map, List.map_map] at images
    exact images
  have sizes : ∀ b ∈ blocks, 0 < b.size := fun b member => positive b (perm.mem_iff.mp member)
  have ascending := List.pairwise_map.mpr (restarted_ascending defaultMemStart sizes)
  rw [← starts] at ascending
  exact List.pairwise_map.mp ascending

/-- **The processes keep their order in memory.** -/
theorem movedBlocks_order {nodes : List AllocatedBlock} (distinct : DistinctStarts nodes)
    (positive : ∀ b ∈ nodes, 0 < b.size) {p q : Nat} (inP : p < nodes.length)
    (inQ : q < nodes.length) :
    startAt nodes p < startAt nodes q ↔
      startAt (movedBlocks Q nodes) p < startAt (movedBlocks Q nodes) q := by
  rcases eq_or_ne p q with rfl | different
  · simp
  · -- of two pointers one comes first, and then it is lower before and after
    have both := (sortedPointers_ascending (Q := Q) distinct).and (movedBlocks_ascending positive)
    rcases related_of_ne both (mem_sortedPointers.mpr inP) (mem_sortedPointers.mpr inQ) different with
      ⟨before, after⟩ | ⟨before, after⟩
    · exact iff_of_true before after
    · exact iff_of_false (lt_asymm before) (lt_asymm after)

/-- After a compaction the pointers are sorted as before. -/
theorem sortedPointers_movedBlocks {nodes : List AllocatedBlock}
    (positive : ∀ b ∈ nodes, 0 < b.size) :
    sortedPointers Q (movedBlocks Q nodes) = sortedPointers Q nodes := by
  refine Q.sort_eq ?_ ?_
  · rw [movedBlocks_length]
    exact Q.perm _ _
  · refine (movedBlocks_ascending (Q := Q) positive).imp fun {p q} lower => ?_
    have above : ¬ startAt (movedBlocks Q nodes) q ≤ startAt (movedBlocks Q nodes) p := by omega
    refine ⟨(Comparator.byKey_le_iff _ p q).mpr lower.le, ?_⟩
    exact not_le.mp (mt (Comparator.byKey_le_iff _ q p).mp above)

/-- **A second compaction writes the same addresses.** -/
theorem movedBlocks_idempotent {nodes : List AllocatedBlock} (positive : ∀ b ∈ nodes, 0 < b.size) :
    movedBlocks Q (movedBlocks Q nodes) = movedBlocks Q nodes := by
  obtain ⟨blocks, perm, pointed⟩ := movedBlocks_pointed (Q := Q) nodes
  have again : (sortedPointers Q nodes).map (fun p => (movedBlocks Q (movedBlocks Q nodes))[p]?) =
      (sortedPointers Q nodes).map fun p => (movedBlocks Q nodes)[p]? := by
    have stacked := (relocate_stacked (sortedPointers_nodup (Q := Q) nodes) defaultMemStart pointed).1
    rw [restarted_restarted] at stacked
    rw [pointed, movedBlocks, sortedPointers_movedBlocks positive]
    exact stacked
  apply List.ext_getElem?
  intro p
  by_cases inside : p < nodes.length
  · exact List.map_inj_left.mp again p (mem_sortedPointers.mpr inside)
  · have length := movedBlocks_length (Q := Q) nodes
    have length' := movedBlocks_length (Q := Q) (movedBlocks Q nodes)
    rw [List.getElem?_eq_none (by omega), List.getElem?_eq_none (by omega)]

/-! ## The account of a compaction -/

/-- The state after a compaction. -/
def compacted (Q : Qsort) (s : State) : State :=
  { s with allocatedBlockHead := movedBlocks Q s.allocatedBlockHead }.setFree
    (compactedFree s).toList

theorem ownedSize_pos (wf : WellFormed s) (occupied : s.allocatedBlockHead ≠ []) :
    0 < ownedSize s.allocatedBlockHead := by
  cases list : s.allocatedBlockHead with
  | nil => exact absurd list occupied
  | cons b blocks =>
      have positive := wf.ownedPositive
      rw [list] at positive
      obtain ⟨size, later⟩ := List.forall_mem_cons.mp positive
      have rest := ownedSize_nonneg later
      simp only [ownedSize, List.map_cons, List.sum_cons] at rest ⊢
      omega

/-- A second compaction changes nothing. -/
theorem compacted_compacted (wf : WellFormed s) : compacted Q (compacted Q s) = compacted Q s := by
  have blocks := movedBlocks_idempotent (Q := Q) wf.ownedPositive
  have sizes := ownedSize_movedBlocks (Q := Q) s.allocatedBlockHead
  simp only [compacted, State.setFree, compactedFree, gathered, blocks, sizes]

/-- **Compaction keeps the processes and gathers all free memory.** In every reachable state
with a process `compact_memory` returns 1. The list keeps its pids and sizes and their
order; the processes keep their order in memory and fill `[0, S)`, where `S` is the sum of
their sizes; what lies above `S` is the only free block and at least as large as the free
blocks were together; and compacting again changes nothing. -/
theorem compactMemory_gathers (Q : Qsort) {s : State} (reached : ReachableState Q s)
    (occupied : s.allocatedBlockHead ≠ []) :
    let S := ownedSize s.allocatedBlockHead
    ∃ t, compactMemory Q s = (1, t) ∧ t.memSize = s.memSize ∧
      t.allocatedBlockHead.map (fun b => (b.pid, b.size)) =
        s.allocatedBlockHead.map (fun b => (b.pid, b.size)) ∧
      (∀ p q, p < s.allocatedBlockHead.length → q < s.allocatedBlockHead.length →
        (startAt s.allocatedBlockHead p < startAt s.allocatedBlockHead q ↔
          startAt t.allocatedBlockHead p < startAt t.allocatedBlockHead q)) ∧
      t.ownedExtents.Pairwise Extent.Apart ∧
      addressesOf t.ownedExtents = {x | 0 ≤ x ∧ x < S} ∧ S ≤ s.memSize ∧
      t.freeBlock = (if S < s.memSize then [⟨s.memSize - S, S⟩] else []) ∧
      t.freeBlockLen = t.freeBlock.length ∧ totalFree s.freeBlock ≤ s.memSize - S ∧
      compactMemory Q t = (1, t) := by
  intro S
  have wf := wellFormed_of_reachable reached
  have fits := wf.total_le
  have free := wf.totalFree_nonneg
  have packed := movedBlocks_packed (Q := Q) wf.ownedPositive
  have filled : addressesOf ((movedBlocks Q s.allocatedBlockHead).map AllocatedBlock.extent) =
      {x | 0 ≤ x ∧ x < S} := by
    have sum : totalSize ((movedBlocks Q s.allocatedBlockHead).map AllocatedBlock.extent) = S - 0 := by
      rw [← ownedSize_eq, ownedSize_movedBlocks, sub_zero]
    have covered := (packed.totalSize_eq_iff (ownedSize_pos wf occupied)).mp sum
    simpa [Extent.addresses] using covered
  have stays : (compacted Q s).allocatedBlockHead ≠ [] := by
    have length := movedBlocks_length (Q := Q) s.allocatedBlockHead
    exact fun empty => occupied (List.length_eq_zero_iff.mp (length ▸ congrArg List.length empty))
  refine ⟨compacted Q s, compactMemory_eq occupied, rfl, movedBlocks_owners _, ?_, packed.apart,
    filled, by omega, ?_, rfl, by omega, ?_⟩
  · intro p q inP inQ
    have owned : Packed 0 s.memSize s.ownedExtents :=
      wf.packed.sublist (List.sublist_append_right _ _)
    exact movedBlocks_order (distinctStarts_of_packed owned) wf.ownedPositive inP inQ
  · simp only [compacted, setFree_freeBlock, compactedFree]
    split_ifs <;> rfl
  · rw [compactMemory_eq stays]
    exact congrArg (Prod.mk 1) (compacted_compacted wf)

/-- Two processes with free memory on both sides of the lower one, under best fit. -/
theorem compactMemory_gathers_two :
    ∃ s t, session .insertion 1 [.newProcess ⟨0, 0, 0⟩ 100, .newProcess ⟨0, 0, 0⟩ 200,
        .newProcess ⟨0, 0, 0⟩ 300, .newProcess ⟨0, 0, 0⟩ 50, .killProcess 1, .killProcess 3,
        .setAlgorithm 2] initial = .ok s ∧
      compactMemory .insertion s = (1, t) ∧
      t.allocatedBlockHead = [⟨4, 50, 200⟩, ⟨2, 200, 0⟩] ∧ t.freeBlock = [⟨774, 250⟩] ∧
      addressesOf t.ownedExtents = {x | 0 ≤ x ∧ x < 250} ∧ compactMemory .insertion t = (1, t) := by
  have reached := reachable_of_session .insertion 1 [.newProcess ⟨0, 0, 0⟩ 100,
    .newProcess ⟨0, 0, 0⟩ 200, .newProcess ⟨0, 0, 0⟩ 300, .newProcess ⟨0, 0, 0⟩ 50,
    .killProcess 1, .killProcess 3, .setAlgorithm 2] Reachable.refl (by decide) rfl
  obtain ⟨t, returned, -, -, -, -, filled, -, -, -, -, again⟩ :=
    compactMemory_gathers .insertion reached (by decide)
  refine ⟨_, t, rfl, returned, ?_, ?_, filled, again⟩
  · cases returned
    rfl
  · cases returned
    rfl

end OsLab.Partition
