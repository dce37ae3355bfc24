import OsLab.Partition.Allocation

/-!
# What a termination does

`free_mem` inserts the block at the head of the free list, sorts by address,
merges neighbours and sorts again for the policy in force. With an exact counter
the result is the list `releasedFree` (`freeMem_eq`). `kill_process` replaces the
free list by it and unlinks the block from the allocated list
(`killProcess_eq`); an unknown pid changes nothing (`killProcess_of_unknown`).
-/

set_option autoImplicit false

namespace OsLab.Partition

open OsLab.Foundation

variable {Q : Qsort} {s : State}

/-! ## Merging a whole list -/

/-- The blocks the merging loop leaves. -/
def mergeAll : List FreeBlock → List FreeBlock
  | [] => []
  | b :: blocks => (mergeFrom b blocks 0).1

/-- The counter does not influence the blocks. -/
theorem mergeFrom_blocks (pre : FreeBlock) (blocks : List FreeBlock) (len len' : Int) :
    (mergeFrom pre blocks len).1 = (mergeFrom pre blocks len').1 := by
  induction blocks generalizing pre len len' with
  | nil => rfl
  | cons fbt next ih =>
      by_cases adjacent : pre.startAddr + pre.size = fbt.startAddr
      · simp only [mergeFrom, adjacent, ↓reduceIte]
        exact ih _ _ _
      · simp only [mergeFrom, adjacent, ↓reduceIte]
        rw [ih fbt len len']

theorem mergeAdjacent_setFree (s : State) (blocks : List FreeBlock) :
    mergeAdjacent (s.setFree blocks) = s.setFree (mergeAll blocks) := by
  cases blocks with
  | nil => rfl
  | cons b blocks =>
      have len := mergeFrom_len b blocks (b :: blocks).length
      have same := mergeFrom_blocks b blocks (b :: blocks).length 0
      rw [same] at len
      simp only [mergeAdjacent, mergeAll, State.setFree, same, len]
      simp

theorem mergeAll_packed {lo hi : Int} {blocks : List FreeBlock} {others : List Extent}
    (packed : Packed lo hi (blocks.map FreeBlock.extent ++ others)) :
    Packed lo hi ((mergeAll blocks).map FreeBlock.extent ++ others) := by
  cases blocks with
  | nil => exact packed
  | cons b blocks => exact mergeFrom_packed 0 packed

theorem totalFree_mergeAll (blocks : List FreeBlock) :
    totalFree (mergeAll blocks) = totalFree blocks := by
  cases blocks with
  | nil => rfl
  | cons b blocks =>
      rw [totalFree_eq, totalFree_eq]
      exact mergeFrom_totalSize b blocks 0

/-! ## `free_mem` -/

/-- The free list after the block `ab` is given back. -/
def releasedFree (Q : Qsort) (algorithm : Algorithm) (ab : AllocatedBlock)
    (blocks : List FreeBlock) : List FreeBlock :=
  settle Q algorithm (mergeAll (Q.sort cmpFF (⟨ab.size, ab.startAddr⟩ :: blocks)))

theorem insertFreeBlock_nil (counted : s.Counted) (fbt : FreeBlock) :
    insertFreeBlock [] fbt s.freeBlock s = s.setFree (fbt :: s.freeBlock) := by
  have len : s.freeBlockLen = s.freeBlock.length := counted
  simp [insertFreeBlock, State.setFree, len]

/-- **`free_mem` always returns.** -/
theorem freeMem_eq (counted : s.Counted) (ab : AllocatedBlock) :
    freeMem Q ab s = .ok (1, s.setFree (releasedFree Q s.maAlgorithm ab s.freeBlock)) := by
  have merged (blocks : List FreeBlock) (c : Comparator FreeBlock) :=
    rearrangeBy_eq (Q := Q) (setFree_counted s blocks) c
  unfold freeMem
  simp only [insertFreeBlock_nil counted, merged, bind, Except.bind, setFree_freeBlock]
  have inner (blocks blocks' : List FreeBlock) :
      (s.setFree blocks).setFree blocks' = s.setFree blocks' := rfl
  simp only [inner, mergeAdjacent_setFree]
  cases policy : s.maAlgorithm with
  | maFF => simp only [releasedFree, settle]
  | maBF => simp only [merged, setFree_freeBlock, inner, releasedFree, settle]
  | maWF => simp only [merged, setFree_freeBlock, inner, releasedFree, settle]

/-- Giving a packed block back keeps memory packed. -/
theorem releasedFree_packed {lo hi : Int} (algorithm : Algorithm) {ab : AllocatedBlock}
    {blocks : List FreeBlock} {others : List Extent}
    (packed : Packed lo hi (blocks.map FreeBlock.extent ++ ab.extent :: others)) :
    Packed lo hi ((releasedFree Q algorithm ab blocks).map FreeBlock.extent ++ others) := by
  have sorted : ((Q.sort cmpFF (⟨ab.size, ab.startAddr⟩ :: blocks)).map FreeBlock.extent).Perm
      (ab.extent :: blocks.map FreeBlock.extent) := (Q.perm _ _).map _
  have front : Packed lo hi
      ((Q.sort cmpFF (⟨ab.size, ab.startAddr⟩ :: blocks)).map FreeBlock.extent ++ others) :=
    packed.perm (List.perm_middle.trans (sorted.symm.append_right others))
  have settled := (settle_perm (Q := Q) algorithm
    (mergeAll (Q.sort cmpFF (⟨ab.size, ab.startAddr⟩ :: blocks)))).map FreeBlock.extent
  exact (mergeAll_packed front).perm (settled.symm.append_right others)

theorem totalFree_perm {blocks blocks' : List FreeBlock} (perm : blocks.Perm blocks') :
    totalFree blocks = totalFree blocks' :=
  (perm.map _).sum_eq

theorem totalFree_releasedFree (algorithm : Algorithm) (ab : AllocatedBlock)
    (blocks : List FreeBlock) :
    totalFree (releasedFree Q algorithm ab blocks) = ab.size + totalFree blocks := by
  rw [releasedFree, totalFree_perm (settle_perm _ _), totalFree_mergeAll,
    totalFree_perm (Q.perm _ _)]
  simp [totalFree]

/-! ## `kill_process` -/

/-- `find_process` returns a node with the pid. -/
theorem findProcess_some {pid : Int} {nodes : List AllocatedBlock} {p : Nat}
    (found : findProcess pid nodes = some p) :
    ∃ ab, nodes[p]? = some ab ∧ ab.pid = pid := by
  induction nodes generalizing p with
  | nil => cases found
  | cons b nodes ih =>
      by_cases here : b.pid = pid
      · simp only [findProcess, here, ↓reduceIte, Option.some.injEq] at found
        subst found
        exact ⟨b, rfl, here⟩
      · simp only [findProcess, here, ↓reduceIte, Option.map_eq_some_iff] at found
        obtain ⟨q, later, rfl⟩ := found
        obtain ⟨ab, node, same⟩ := ih later
        exact ⟨ab, by simpa using node, same⟩

/-- The nodes after `dispose`. -/
theorem eraseIdx_perm {nodes : List AllocatedBlock} {p : Nat} {ab : AllocatedBlock}
    (node : nodes[p]? = some ab) : nodes.Perm (ab :: nodes.eraseIdx p) := by
  obtain ⟨bound, same⟩ := List.getElem?_eq_some_iff.mp node
  have perm := List.getElem_cons_eraseIdx_perm bound
  rw [same] at perm
  exact perm.symm

theorem killProcess_of_unknown {pid : Int}
    (unknown : findProcess pid s.allocatedBlockHead = none) : killProcess Q pid s = .ok s := by
  simp only [killProcess, unknown]

/-- **Terminating a live process always returns.** -/
theorem killProcess_eq (counted : s.Counted) {pid : Int} {p : Nat} {ab : AllocatedBlock}
    (found : findProcess pid s.allocatedBlockHead = some p)
    (node : s.allocatedBlockHead[p]? = some ab) :
    killProcess Q pid s =
      .ok ({ s with allocatedBlockHead := s.allocatedBlockHead.eraseIdx p }.setFree
        (releasedFree Q s.maAlgorithm ab s.freeBlock)) := by
  have unlink (t : State) :
      (dispose p t).2 = { t with allocatedBlockHead := t.allocatedBlockHead.eraseIdx p } := by
    unfold dispose
    split_ifs <;> rfl
  simp only [killProcess, found, node, freeMem_eq counted, bind, Except.bind, unlink]
  rfl

end OsLab.Partition
