import OsLab.Partition.Model

/-!
# The operations on the free list

One description for each function that walks the free list, in the form the later
modules use:

* with a counter that agrees with the list, `rearrange_by` sorts the whole list
  and cannot run off its end (`rearrangeBy_eq`);
* the scan of `allocate_mem` splits the list at the first block that fits
  (`findFit_split`), or no block fits (`findFit_eq_none_iff`);
* what `allocate_mem` does at that block is the list `afterFit`
  (`takeFit_eq`), a permutation of the list with the block replaced by its
  remainder (`afterFit_perm`);
* the merging loop joins neighbours, so it keeps the addresses, the sum of the
  sizes and disjointness whatever else is in memory (`mergeFrom_packed`).
-/

set_option autoImplicit false

namespace OsLab.Partition

open OsLab.Foundation

variable {Q : Qsort} {s : State}

/-- `free_block_len` is the number of nodes of the free list. -/
def State.Counted (s : State) : Prop := s.freeBlockLen = s.freeBlock.length

/-- The state with another free list and its length. -/
def State.setFree (s : State) (blocks : List FreeBlock) : State :=
  { s with freeBlock := blocks, freeBlockLen := blocks.length }

@[simp] theorem setFree_freeBlock (s : State) (blocks : List FreeBlock) :
    (s.setFree blocks).freeBlock = blocks := rfl

@[simp] theorem setFree_freeBlockLen (s : State) (blocks : List FreeBlock) :
    (s.setFree blocks).freeBlockLen = blocks.length := rfl

@[simp] theorem setFree_allocatedBlockHead (s : State) (blocks : List FreeBlock) :
    (s.setFree blocks).allocatedBlockHead = s.allocatedBlockHead := rfl

@[simp] theorem setFree_memSize (s : State) (blocks : List FreeBlock) :
    (s.setFree blocks).memSize = s.memSize := rfl

@[simp] theorem setFree_maAlgorithm (s : State) (blocks : List FreeBlock) :
    (s.setFree blocks).maAlgorithm = s.maAlgorithm := rfl

@[simp] theorem setFree_pid (s : State) (blocks : List FreeBlock) :
    (s.setFree blocks).pid = s.pid := rfl

@[simp] theorem setFree_flag (s : State) (blocks : List FreeBlock) :
    (s.setFree blocks).flag = s.flag := rfl

theorem setFree_counted (s : State) (blocks : List FreeBlock) : (s.setFree blocks).Counted := rfl

/-! ## Sorting -/

/-- The comparison function a policy sorts with. -/
def Algorithm.comparator : Algorithm → Comparator FreeBlock
  | .maFF => cmpFF
  | .maBF => cmpBF
  | .maWF => cmpWF

theorem rearrange_eq_rearrangeBy (Q : Qsort) (algorithm : Algorithm) (s : State) :
    rearrange Q algorithm s = rearrangeBy Q algorithm.comparator s := by
  cases algorithm <;> rfl

theorem copyNodes_length (blocks : List FreeBlock) : copyNodes blocks.length blocks = .ok blocks := by
  induction blocks with
  | nil => rfl
  | cons q next ih => simp [copyNodes, ih, bind, Except.bind]

/-- **With an exact counter the whole list is sorted.** -/
theorem rearrangeBy_eq (counted : s.Counted) (c : Comparator FreeBlock) :
    rearrangeBy Q c s = .ok (s.setFree (Q.sort c s.freeBlock)) := by
  have len : s.freeBlockLen.toNat = s.freeBlock.length := by
    rw [counted]
    exact Int.toNat_natCast _
  have same : s.freeBlockLen = (Q.sort c s.freeBlock).length := by
    rw [counted, (Q.perm c s.freeBlock).length_eq]
  simp [rearrangeBy, len, copyNodes_length, bind, Except.bind, State.setFree, ← same]

/-! ## The scan -/

/-- The node the scan stops at, the nodes it passed and the nodes it did not
reach. -/
theorem findFit_split {r : Int} {before blocks pre next : List FreeBlock} {fbt : FreeBlock}
    (found : findFit r before blocks = some (pre, fbt, next)) :
    ∃ passed, pre = before ++ passed ∧ blocks = passed ++ fbt :: next ∧ r ≤ fbt.size ∧
      ∀ b ∈ passed, b.size < r := by
  induction blocks generalizing before with
  | nil => simp [findFit] at found
  | cons b rest ih =>
      by_cases fits : b.size ≥ r
      · simp only [findFit, fits, ↓reduceIte, Option.some.injEq, Prod.mk.injEq] at found
        obtain ⟨rfl, rfl, rfl⟩ := found
        exact ⟨[], by simp, rfl, fits, by simp⟩
      · simp only [findFit, fits, ↓reduceIte] at found
        obtain ⟨passed, preEq, restEq, large, small⟩ := ih found
        refine ⟨b :: passed, by simp [preEq], by simp [restEq], large, ?_⟩
        exact List.forall_mem_cons.mpr ⟨by omega, small⟩

theorem findFit_eq_none_iff {r : Int} {before blocks : List FreeBlock} :
    findFit r before blocks = none ↔ ∀ b ∈ blocks, b.size < r := by
  induction blocks generalizing before with
  | nil => simp [findFit]
  | cons b rest ih =>
      by_cases fits : b.size ≥ r
      · simp only [findFit, fits, ↓reduceIte, reduceCtorEq, List.forall_mem_cons, false_iff]
        exact fun small => absurd small.1 (by omega)
      · have small : b.size < r := by omega
        simp only [findFit, fits, ↓reduceIte, ih, List.forall_mem_cons, small, true_and]

/-- The scan from the head of the list. -/
theorem findFit_nil_split {r : Int} {blocks pre next : List FreeBlock} {fbt : FreeBlock}
    (found : findFit r [] blocks = some (pre, fbt, next)) :
    blocks = pre ++ fbt :: next ∧ r ≤ fbt.size ∧ ∀ b ∈ pre, b.size < r := by
  obtain ⟨passed, preEq, split, large, small⟩ := findFit_split found
  rw [List.nil_append] at preEq
  subst preEq
  exact ⟨split, large, small⟩

/-- The scan finds a block when one is large enough. -/
theorem exists_findFit {r : Int} {blocks : List FreeBlock} (fits : ∃ b ∈ blocks, r ≤ b.size) :
    ∃ pre fbt next, findFit r [] blocks = some (pre, fbt, next) := by
  cases found : findFit r [] blocks with
  | none =>
      obtain ⟨b, member, large⟩ := fits
      have small := findFit_eq_none_iff.mp found b member
      omega
  | some split => exact ⟨split.1, split.2.1, split.2.2, rfl⟩

/-! ## Taking a block -/

/-- What is left of a block of which the first `r` addresses are taken. -/
def remainder (r : Int) (fbt : FreeBlock) : Option FreeBlock :=
  if fbt.size - r ≤ minSlice then none else some ⟨fbt.size - r, fbt.startAddr + r⟩

/-- A remainder is dropped, or kept and larger than the smallest slice. -/
theorem remainder_cases (r : Int) (fbt : FreeBlock) :
    (fbt.size - r ≤ minSlice ∧ remainder r fbt = none) ∨
      (minSlice < fbt.size - r ∧
        remainder r fbt = some ⟨fbt.size - r, fbt.startAddr + r⟩) := by
  by_cases small : fbt.size - r ≤ minSlice
  · exact .inl ⟨small, if_pos small⟩
  · exact .inr ⟨not_le.mp small, if_neg small⟩

/-- The re-sorting at the end of `allocate_mem` and `free_mem`: a list in address
order is kept for first fit. -/
def settle (Q : Qsort) : Algorithm → List FreeBlock → List FreeBlock
  | .maFF, blocks => blocks
  | .maBF, blocks => Q.sort cmpBF blocks
  | .maWF, blocks => Q.sort cmpWF blocks

theorem settle_perm (algorithm : Algorithm) (blocks : List FreeBlock) :
    (settle Q algorithm blocks).Perm blocks := by
  cases algorithm with
  | maFF => exact List.Perm.refl _
  | maBF => exact Q.perm _ _
  | maWF => exact Q.perm _ _

/-- The free list after `allocate_mem` took `r` addresses from the block
between `pre` and `next`. -/
def afterFit (Q : Qsort) (algorithm : Algorithm) (r : Int) (pre : List FreeBlock)
    (fbt : FreeBlock) (next : List FreeBlock) : List FreeBlock :=
  match remainder r fbt with
  | none => pre ++ next
  | some rest => settle Q algorithm (pre ++ rest :: next)

theorem afterFit_perm (algorithm : Algorithm) (r : Int) (pre : List FreeBlock) (fbt : FreeBlock)
    (next : List FreeBlock) :
    (afterFit Q algorithm r pre fbt next).Perm ((remainder r fbt).toList ++ (pre ++ next)) := by
  unfold afterFit
  cases remainder r fbt with
  | none => exact List.Perm.refl _
  | some rest => exact (settle_perm algorithm _).trans List.perm_middle

/-- A block that is alone in the list leaves its remainder. -/
theorem afterFit_single (algorithm : Algorithm) (r : Int) (fbt : FreeBlock) :
    afterFit Q algorithm r [] fbt [] = (remainder r fbt).toList := by
  unfold afterFit
  cases remainder r fbt with
  | none => rfl
  | some rest => exact List.perm_singleton.mp (settle_perm algorithm _)

/-- **Taking a block always returns**, with the start of the block and the list
`afterFit`. -/
theorem takeFit_eq (ab : AllocatedBlock) {pre next : List FreeBlock} {fbt : FreeBlock}
    (counted : s.Counted) (split : s.freeBlock = pre ++ fbt :: next) :
    takeFit Q ab pre fbt next s =
      .ok ({ ab with startAddr := fbt.startAddr },
        s.setFree (afterFit Q s.maAlgorithm ab.size pre fbt next)) := by
  have len : s.freeBlockLen = (pre ++ next).length + 1 := by
    rw [counted, split]
    simp only [List.length_append, List.length_cons]
    omega
  rcases remainder_cases ab.size fbt with ⟨small, gone⟩ | ⟨large, rest⟩
  · simp [takeFit, deleteFreeBlock, State.setFree, afterFit, gone, small, len]
  · have small : ¬ fbt.size - ab.size ≤ minSlice := not_le.mpr large
    have sorted := rearrangeBy_eq (Q := Q) (s := { s with freeBlock :=
        pre ++ (⟨fbt.size - ab.size, fbt.startAddr + ab.size⟩ : FreeBlock) :: next })
      (by simp only [State.Counted, len, List.length_append, List.length_cons]; omega)
    unfold takeFit
    simp only [small, ↓reduceIte]
    split
    next policy =>
        simp [State.setFree, afterFit, settle, rest, policy, len]
        omega
    next policy =>
        rw [sorted]
        simp [State.setFree, afterFit, settle, rest, policy, bind, Except.bind]
    next policy =>
        rw [sorted]
        simp [State.setFree, afterFit, settle, rest, policy, bind, Except.bind]

/-! ## Merging -/

/-- A property of lists of extents that merging keeps: it does not depend on the
order and survives joining two neighbours. -/
theorem mergeFrom_induction {P : List Extent → Prop}
    (reorder : ∀ {l l' : List Extent}, l.Perm l' → P l → P l')
    (join : ∀ {a b : Extent} {l : List Extent}, a.start + a.size = b.start →
      P (a :: b :: l) → P (⟨a.start, a.size + b.size⟩ :: l))
    (pre : FreeBlock) (blocks : List FreeBlock) (len : Int) (others : List Extent)
    (holds : P (pre.extent :: blocks.map FreeBlock.extent ++ others)) :
    P ((mergeFrom pre blocks len).1.map FreeBlock.extent ++ others) := by
  induction blocks generalizing pre len others with
  | nil => exact holds
  | cons fbt next ih =>
      by_cases adjacent : pre.startAddr + pre.size = fbt.startAddr
      · simp only [mergeFrom, adjacent, ↓reduceIte]
        exact ih { pre with size := pre.size + fbt.size } (len - 1) others (join adjacent holds)
      · simp only [mergeFrom, adjacent, ↓reduceIte, List.map_cons, List.cons_append]
        -- the node `pre` is finished: it moves to the surroundings of the rest of the list
        have moved := ih fbt len (pre.extent :: others) (reorder List.perm_middle.symm holds)
        exact reorder List.perm_middle moved

/-- The merging loop keeps its counter exact. -/
theorem mergeFrom_len (pre : FreeBlock) (blocks : List FreeBlock) (len : Int) :
    (mergeFrom pre blocks len).2 =
      len - (blocks.length + 1) + (mergeFrom pre blocks len).1.length := by
  induction blocks generalizing pre len with
  | nil => simp [mergeFrom]
  | cons fbt next ih =>
      by_cases adjacent : pre.startAddr + pre.size = fbt.startAddr
      · simp only [mergeFrom, adjacent, ↓reduceIte, ih, List.length_cons]
        push_cast
        omega
      · simp only [mergeFrom, adjacent, ↓reduceIte, ih, List.length_cons]
        push_cast
        omega

/-- **Merging keeps memory packed**, together with whatever else is in it. -/
theorem mergeFrom_packed {lo hi : Int} {pre : FreeBlock} {blocks : List FreeBlock}
    {others : List Extent} (len : Int)
    (packed : Packed lo hi (pre.extent :: blocks.map FreeBlock.extent ++ others)) :
    Packed lo hi ((mergeFrom pre blocks len).1.map FreeBlock.extent ++ others) :=
  mergeFrom_induction (fun perm packed => packed.perm perm) (fun adjacent packed =>
    packed.join adjacent) pre blocks len others packed

theorem mergeFrom_totalSize (pre : FreeBlock) (blocks : List FreeBlock) (len : Int) :
    totalSize ((mergeFrom pre blocks len).1.map FreeBlock.extent) =
      totalSize (pre.extent :: blocks.map FreeBlock.extent) := by
  have kept := mergeFrom_induction
    (P := fun l => totalSize l = totalSize (pre.extent :: blocks.map FreeBlock.extent))
    (fun perm same => (totalSize_perm perm).symm.trans same)
    (fun _ same => by simp only [totalSize_cons] at same ⊢; omega)
    pre blocks len [] (by simp)
  simpa using kept

/-! ## The free memory -/

/-- A block is large enough, or all are too small, together or only one by one. -/
theorem fit_cases (r : Int) (blocks : List FreeBlock) :
    (∃ pre fbt next, findFit r [] blocks = some (pre, fbt, next)) ∨
      (findFit r [] blocks = none ∧ totalFree blocks < r) ∨
      (findFit r [] blocks = none ∧ r ≤ totalFree blocks) := by
  cases found : findFit r [] blocks with
  | some split => exact .inl ⟨split.1, split.2.1, split.2.2, rfl⟩
  | none =>
      rcases lt_or_ge (totalFree blocks) r with short | enough
      · exact .inr (.inl ⟨rfl, short⟩)
      · exact .inr (.inr ⟨rfl, enough⟩)

theorem totalFree_nonneg {blocks : List FreeBlock} (positive : ∀ b ∈ blocks, 0 < b.size) :
    0 ≤ totalFree blocks := by
  apply List.sum_nonneg
  intro z member
  obtain ⟨b, inList, rfl⟩ := List.mem_map.mp member
  exact (positive b inList).le

theorem totalFree_eq (blocks : List FreeBlock) :
    totalFree blocks = totalSize (blocks.map FreeBlock.extent) := by
  simp [totalFree, totalSize, FreeBlock.extent, Function.comp_def]

end OsLab.Partition
