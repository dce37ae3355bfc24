import OsLab.Partition.FreeList

/-!
# Compaction

`compact_memory` sorts pointers to the allocated blocks by start address and then
writes new start addresses through them. The list of blocks keeps its order, its
pids and its sizes (`relocate_keeps`). Read in the order of the sorted pointers
the new extents are stacked from address 0 (`relocate_stacked`), so the moved
blocks are packed in `[0, S)` where `S` is the sum of their sizes
(`movedBlocks_packed`).

With at least one process the free list becomes what lies above `S`
(`compactMemory_eq`); without a process nothing changes
(`compactMemory_of_empty`).
-/

set_option autoImplicit false

namespace OsLab.Partition

open OsLab.Foundation

variable {Q : Qsort} {s : State}

/-! ## Writing through the pointers -/

/-- What compaction keeps of a block. -/
def AllocatedBlock.owner (b : AllocatedBlock) : Int × Int := (b.pid, b.size)

/-- The order of the list, the pids and the sizes do not change. -/
theorem relocate_keeps (arr : List Nat) (nextStart : Int) (nodes : List AllocatedBlock) :
    (relocate arr nextStart nodes).1.map AllocatedBlock.owner =
      nodes.map AllocatedBlock.owner := by
  induction arr generalizing nextStart nodes with
  | nil => rfl
  | cons p arr ih =>
      cases node : nodes[p]? with
      | none => simp only [relocate, node]
      | some ab =>
          simp only [relocate, node, ih, List.map_set]
          apply List.ext_getElem?
          intro i
          by_cases here : p = i
          · subst here
            obtain ⟨bound, same⟩ := List.getElem?_eq_some_iff.mp node
            simp [bound, same, AllocatedBlock.owner]
          · simp [here]

/-- A node no pointer points to is not written. -/
theorem relocate_other {arr : List Nat} {i : Nat} (absent : i ∉ arr) (nextStart : Int)
    (nodes : List AllocatedBlock) : (relocate arr nextStart nodes).1[i]? = nodes[i]? := by
  induction arr generalizing nextStart nodes with
  | nil => rfl
  | cons p arr ih =>
      rw [List.mem_cons, not_or] at absent
      cases node : nodes[p]? with
      | none => simp only [relocate, node]
      | some ab =>
          simp only [relocate, node]
          rw [ih absent.2, List.getElem?_set_ne (Ne.symm absent.1)]

/-- The blocks with new start addresses, one after the other. -/
def restarted (next : Int) : List AllocatedBlock → List AllocatedBlock
  | [] => []
  | b :: blocks => { b with startAddr := next } :: restarted (next + b.size) blocks

theorem restarted_extents (next : Int) (blocks : List AllocatedBlock) :
    (restarted next blocks).map AllocatedBlock.extent =
      stack next (blocks.map AllocatedBlock.size) := by
  induction blocks generalizing next with
  | nil => rfl
  | cons b blocks ih => simp [restarted, stack, ih, AllocatedBlock.extent]

/-- The first pointer points to the first block, and a write through it leaves the
nodes that the other pointers point to. -/
theorem pointed_cons {p : Nat} {arr : List Nat} {nodes blocks : List AllocatedBlock}
    {b : AllocatedBlock} (nodup : (p :: arr).Nodup)
    (pointed : (p :: arr).map (fun i => nodes[i]?) = (b :: blocks).map some)
    (ab : AllocatedBlock) :
    nodes[p]? = some b ∧ p ∉ arr ∧ arr.Nodup ∧
      arr.map (fun i => (nodes.set p ab)[i]?) = blocks.map some := by
  simp only [List.map_cons, List.cons.injEq] at pointed
  obtain ⟨node, later⟩ := pointed
  obtain ⟨absent, nodup⟩ := List.nodup_cons.mp nodup
  refine ⟨node, absent, nodup, ?_⟩
  rw [← later]
  apply List.map_congr_left
  intro i member
  have other : p ≠ i := fun same => absent (same ▸ member)
  exact List.getElem?_set_ne other

/-- **In the order of the pointers the nodes are stacked**, and the running start
ends at the end of the last one. -/
theorem relocate_stacked {arr : List Nat} (nodup : arr.Nodup) (nextStart : Int)
    {nodes blocks : List AllocatedBlock}
    (pointed : arr.map (fun p => nodes[p]?) = blocks.map some) :
    arr.map (fun p => (relocate arr nextStart nodes).1[p]?) =
        (restarted nextStart blocks).map some ∧
      (relocate arr nextStart nodes).2 =
        nextStart + (blocks.map AllocatedBlock.size).sum := by
  induction arr generalizing nextStart nodes blocks with
  | nil =>
      cases blocks with
      | nil => simp [relocate, restarted]
      | cons b blocks => simp at pointed
  | cons p arr ih =>
      cases blocks with
      | nil => simp at pointed
      | cons b blocks =>
          obtain ⟨node, absent, nodup, unwritten⟩ :=
            pointed_cons nodup pointed { b with startAddr := nextStart }
          obtain ⟨bound, _⟩ := List.getElem?_eq_some_iff.mp node
          obtain ⟨stacked, ends⟩ := ih nodup (nextStart + b.size) unwritten
          constructor
          · simp only [relocate, node, List.map_cons, restarted, stacked, List.cons.injEq,
              and_true]
            rw [relocate_other absent, List.getElem?_set_self bound]
          · simp only [relocate, node, ends, List.map_cons, List.sum_cons]
            omega

/-! ## The moved blocks -/

/-- The pointers in address order. -/
def sortedPointers (Q : Qsort) (nodes : List AllocatedBlock) : List Nat :=
  Q.sort (cmpAllocByAddr nodes) (List.range nodes.length)

/-- The allocated list after compaction. -/
def movedBlocks (Q : Qsort) (nodes : List AllocatedBlock) : List AllocatedBlock :=
  (relocate (sortedPointers Q nodes) defaultMemStart nodes).1

/-- The sum of the sizes of the blocks. -/
def ownedSize (nodes : List AllocatedBlock) : Int := (nodes.map AllocatedBlock.size).sum

theorem ownedSize_nonneg {nodes : List AllocatedBlock} (positive : ∀ b ∈ nodes, 0 < b.size) :
    0 ≤ ownedSize nodes := by
  apply List.sum_nonneg
  intro z member
  obtain ⟨b, inList, rfl⟩ := List.mem_map.mp member
  exact (positive b inList).le

theorem ownedSize_eq (nodes : List AllocatedBlock) :
    ownedSize nodes = totalSize (nodes.map AllocatedBlock.extent) := by
  simp [ownedSize, totalSize, AllocatedBlock.extent, Function.comp_def]

theorem map_getElem?_range (nodes : List AllocatedBlock) :
    (List.range nodes.length).map (fun p => nodes[p]?) = nodes.map some := by
  apply List.ext_getElem?
  intro i
  by_cases bound : i < nodes.length
  · simp [bound]
  · simp [bound]

/-- The blocks in the order of the pointers. -/
theorem exists_pointed (nodes : List AllocatedBlock) :
    ∃ blocks : List AllocatedBlock, blocks.Perm nodes ∧
      (sortedPointers Q nodes).map (fun p => nodes[p]?) = blocks.map some := by
  have perm : ((sortedPointers Q nodes).map (fun p => nodes[p]?)).Perm (nodes.map some) := by
    rw [← map_getElem?_range]
    exact (Q.perm _ _).map _
  obtain ⟨blocks, same, permBlocks⟩ :=
    (congrFun₂ (List.eq_map_comp_perm some) _ nodes).mpr perm
  exact ⟨blocks, permBlocks, same⟩

theorem sortedPointers_nodup (nodes : List AllocatedBlock) : (sortedPointers Q nodes).Nodup :=
  (Q.perm _ _).nodup_iff.mpr List.nodup_range

/-- The running start of compaction ends at the sum of the sizes. -/
theorem relocate_end (nodes : List AllocatedBlock) :
    (relocate (sortedPointers Q nodes) defaultMemStart nodes).2 = ownedSize nodes := by
  obtain ⟨blocks, perm, pointed⟩ := exists_pointed (Q := Q) nodes
  have sizes : (blocks.map AllocatedBlock.size).sum = ownedSize nodes := (perm.map _).sum_eq
  rw [(relocate_stacked (sortedPointers_nodup nodes) defaultMemStart pointed).2, sizes]
  exact zero_add _

theorem movedBlocks_owners (nodes : List AllocatedBlock) :
    (movedBlocks Q nodes).map AllocatedBlock.owner = nodes.map AllocatedBlock.owner :=
  relocate_keeps _ _ _

theorem movedBlocks_length (nodes : List AllocatedBlock) :
    (movedBlocks Q nodes).length = nodes.length := by
  have same := congrArg List.length (movedBlocks_owners (Q := Q) nodes)
  rwa [List.length_map, List.length_map] at same

/-- The moved blocks are, up to order, the old ones stacked from address 0. -/
theorem movedBlocks_perm (nodes : List AllocatedBlock) :
    ∃ blocks : List AllocatedBlock, blocks.Perm nodes ∧
      (movedBlocks Q nodes).Perm (restarted defaultMemStart blocks) := by
  obtain ⟨blocks, perm, pointed⟩ := exists_pointed (Q := Q) nodes
  refine ⟨blocks, perm, ?_⟩
  have stacked := (relocate_stacked (sortedPointers_nodup nodes) defaultMemStart pointed).1
  have pointers : (sortedPointers Q nodes).Perm (List.range (movedBlocks Q nodes).length) := by
    rw [movedBlocks_length]
    exact Q.perm _ _
  have images := pointers.map fun p => (movedBlocks Q nodes)[p]?
  rw [map_getElem?_range] at images
  exact ((List.map_perm_map_iff (Option.some_injective _)).mp (images.symm.trans (.of_eq stacked)))

/-- **The moved blocks fill `[0, S)`.** -/
theorem movedBlocks_packed {nodes : List AllocatedBlock} (positive : ∀ b ∈ nodes, 0 < b.size) :
    Packed 0 (ownedSize nodes) ((movedBlocks Q nodes).map AllocatedBlock.extent) := by
  obtain ⟨blocks, perm, moved⟩ := movedBlocks_perm (Q := Q) nodes
  have sizes : (blocks.map AllocatedBlock.size).sum = ownedSize nodes := (perm.map _).sum_eq
  have posSizes : ∀ z ∈ blocks.map AllocatedBlock.size, 0 < z := by
    intro z member
    obtain ⟨b, inBlocks, rfl⟩ := List.mem_map.mp member
    exact positive b (perm.mem_iff.mp inBlocks)
  have stacked := packed_stack defaultMemStart posSizes
  rw [sizes, ← restarted_extents] at stacked
  have started : defaultMemStart + ownedSize nodes = ownedSize nodes := zero_add _
  rw [started] at stacked
  exact stacked.perm (moved.map _).symm

theorem ownedSize_movedBlocks (nodes : List AllocatedBlock) :
    ownedSize (movedBlocks Q nodes) = ownedSize nodes := by
  have same := congrArg (List.map Prod.snd) (movedBlocks_owners (Q := Q) nodes)
  rw [List.map_map, List.map_map] at same
  exact congrArg List.sum same

/-! ## `compact_memory` -/

/-- The memory above the moved blocks, as one block. -/
def gathered (s : State) : FreeBlock :=
  ⟨s.memSize - ownedSize s.allocatedBlockHead, ownedSize s.allocatedBlockHead⟩

/-- What compaction leaves free. -/
def compactedFree (s : State) : Option FreeBlock :=
  if ownedSize s.allocatedBlockHead < s.memSize then some (gathered s) else none

/-- Without a process `compact_memory` does nothing and reports success. -/
theorem compactMemory_of_empty (empty : s.allocatedBlockHead = []) :
    compactMemory Q s = (1, s) := by
  simp [compactMemory, empty]

/-- **With a process the free list is rebuilt from the sum of the sizes.** -/
theorem compactMemory_eq (occupied : s.allocatedBlockHead ≠ []) :
    compactMemory Q s =
      (1, { s with allocatedBlockHead := movedBlocks Q s.allocatedBlockHead }.setFree
        (compactedFree s).toList) := by
  have nonempty : s.allocatedBlockHead.length ≠ 0 :=
    fun zero => occupied (List.length_eq_zero_iff.mp zero)
  have ends := relocate_end (Q := Q) s.allocatedBlockHead
  unfold sortedPointers at ends
  by_cases room : ownedSize s.allocatedBlockHead < s.memSize
  · simp [compactMemory, nonempty, ends, room, compactedFree, gathered, movedBlocks,
      sortedPointers, State.setFree]
  · simp [compactMemory, nonempty, ends, room, compactedFree, movedBlocks, sortedPointers,
      State.setFree]

end OsLab.Partition
