import OsLab.Partition.Compaction

/-!
# What an allocation can do

In a well-formed state (`WellFormed`) the calls of `allocate_mem` that return are
of three kinds, and `Allocation` lists them with their results:

* a block fits, and the call takes the first one (`Allocation.fit`);
* the free blocks together are too small, and nothing changes
  (`Allocation.short`);
* no block fits but together they are large enough: the processes are moved, the
  recursive call takes its part of the one free block, and the caller is told
  that the allocation failed (`Allocation.compacted`).

A call with a positive request returns with a result exactly when `Allocation` holds
of it (`allocateMem_returns_iff`). In the remaining case, enough free memory in too
small blocks and no process, the recursion repeats itself for ever
(`allocateMem_diverges`). A request that is not positive can also repeat itself
with processes, when they fill the memory (`allocateMem_without_room`); this is the
one difference (`allocateMem_returns_iff_of_any`). `Creation` and
`newProcess_returns_iff` say the same of `new_process`, where the request may be
what the descriptor held before (`requested`).
-/

set_option autoImplicit false

namespace OsLab.Partition

open OsLab.Foundation

variable {Q : Qsort} {s : State} {ab : AllocatedBlock}

/-- The memory invariant. All blocks are non-empty, lie in `[0, mem_size)` and
overlap nowhere, and the counter is exact. As long as `flag` is 0 nothing has
been done yet. -/
structure WellFormed (s : State) : Prop where
  sized : 0 < s.memSize
  packed : Packed 0 s.memSize s.extents
  counted : s.Counted
  untouched : s.flag = 0 →
    s.freeBlock = [⟨s.memSize, defaultMemStart⟩] ∧ s.allocatedBlockHead = []

namespace WellFormed

theorem freePositive (wf : WellFormed s) : ∀ b ∈ s.freeBlock, 0 < b.size := fun _ member =>
  wf.packed.positive _ (List.mem_append_left _ (List.mem_map_of_mem member))

theorem ownedPositive (wf : WellFormed s) : ∀ b ∈ s.allocatedBlockHead, 0 < b.size :=
  fun _ member => wf.packed.positive _ (List.mem_append_right _ (List.mem_map_of_mem member))

theorem totalFree_nonneg (wf : WellFormed s) : 0 ≤ totalFree s.freeBlock :=
  Partition.totalFree_nonneg wf.freePositive

theorem ownedSize_nonneg (wf : WellFormed s) : 0 ≤ ownedSize s.allocatedBlockHead :=
  Partition.ownedSize_nonneg wf.ownedPositive

/-- Free and allocated blocks together fit in memory. -/
theorem total_le (wf : WellFormed s) :
    totalFree s.freeBlock + ownedSize s.allocatedBlockHead ≤ s.memSize := by
  have fits := wf.packed.totalSize_le wf.sized
  rw [State.extents, totalSize_append] at fits
  rw [totalFree_eq, ownedSize_eq]
  simp only [State.freeExtents, State.ownedExtents] at fits
  omega

end WellFormed

/-! ## `allocate_mem` -/

theorem allocateMem_of_fit (counted : s.Counted) {pre next : List FreeBlock} {fbt : FreeBlock}
    (found : findFit ab.size [] s.freeBlock = some (pre, fbt, next)) (fuel : Nat) :
    allocateMem Q (fuel + 1) ab s =
      .ok (1, { ab with startAddr := fbt.startAddr },
        s.setFree (afterFit Q s.maAlgorithm ab.size pre fbt next)) := by
  have taken := takeFit_eq (Q := Q) ab counted (findFit_nil_split found).1
  simp only [allocateMem, found, taken, bind, Except.bind]

theorem allocateMem_of_short (unfit : findFit ab.size [] s.freeBlock = none)
    (short : totalFree s.freeBlock < ab.size) (fuel : Nat) :
    allocateMem Q (fuel + 1) ab s = .ok (-1, ab, s) := by
  have notEnough : ¬ totalFree s.freeBlock ≥ ab.size := by omega
  simp only [allocateMem, unfit, notEnough, ↓reduceIte]

/-- With enough memory in too small blocks the result of the inner call is
replaced by -1. -/
theorem allocateMem_of_unfit (unfit : findFit ab.size [] s.freeBlock = none)
    (enough : ab.size ≤ totalFree s.freeBlock) (fuel : Nat) :
    allocateMem Q (fuel + 1) ab s =
      (allocateMem Q fuel ab (compactMemory Q s).2).map fun inner => (-1, inner.2) := by
  have success : (compactMemory Q s).1 = 1 := by
    by_cases empty : s.allocatedBlockHead = []
    · rw [compactMemory_of_empty empty]
    · rw [compactMemory_eq empty]
  simp only [allocateMem, unfit, ge_iff_le, enough, ↓reduceIte, success, ne_eq, not_true_eq_false,
    bind, Except.bind, Except.map]

/-- **Without a process the recursion repeats itself.** No fuel is enough. -/
theorem allocateMem_diverges (unfit : findFit ab.size [] s.freeBlock = none)
    (enough : ab.size ≤ totalFree s.freeBlock) (empty : s.allocatedBlockHead = [])
    (fuel : Nat) : allocateMem Q fuel ab s = .error .outOfFuel := by
  induction fuel with
  | zero => rfl
  | succ fuel ih =>
      rw [allocateMem_of_unfit unfit enough, compactMemory_of_empty empty, ih]
      rfl

/-- The state after a compaction whose recursive call took `r` addresses. -/
def compactedState (Q : Qsort) (r : Int) (s : State) : State :=
  { s with allocatedBlockHead := movedBlocks Q s.allocatedBlockHead }.setFree
    (remainder r (gathered s)).toList

/-- After a compaction that leaves room for the request the inner call is served
from the one free block. -/
theorem allocateMem_of_gathered (unfit : findFit ab.size [] s.freeBlock = none)
    (enough : ab.size ≤ totalFree s.freeBlock) (occupied : s.allocatedBlockHead ≠ [])
    (room : ownedSize s.allocatedBlockHead < s.memSize) (large : ab.size ≤ (gathered s).size)
    (fuel : Nat) :
    allocateMem Q (fuel + 2) ab s =
      .ok (-1, { ab with startAddr := ownedSize s.allocatedBlockHead },
        compactedState Q ab.size s) := by
  have single : compactedFree s = some (gathered s) := if_pos room
  rw [allocateMem_of_unfit unfit enough, compactMemory_eq occupied, single]
  have found : findFit ab.size [] [gathered s] = some ([], gathered s, []) := by
    simp only [findFit, ge_iff_le, large, ↓reduceIte]
  simp only [Option.toList_some]
  rw [allocateMem_of_fit (setFree_counted _ _) found, afterFit_single]
  rfl

/-- The calls of `allocate_mem` that return, with their results. -/
inductive Allocation (Q : Qsort) (ab : AllocatedBlock) (s : State) :
    Int × AllocatedBlock × State → Prop where
  | fit {pre next : List FreeBlock} {fbt : FreeBlock}
      (found : findFit ab.size [] s.freeBlock = some (pre, fbt, next)) :
      Allocation Q ab s (1, { ab with startAddr := fbt.startAddr },
        s.setFree (afterFit Q s.maAlgorithm ab.size pre fbt next))
  | short (unfit : findFit ab.size [] s.freeBlock = none)
      (short : totalFree s.freeBlock < ab.size) : Allocation Q ab s (-1, ab, s)
  | compacted (unfit : findFit ab.size [] s.freeBlock = none)
      (enough : ab.size ≤ totalFree s.freeBlock) (occupied : s.allocatedBlockHead ≠ []) :
      Allocation Q ab s (-1, { ab with startAddr := ownedSize s.allocatedBlockHead },
        compactedState Q ab.size s)

/-- Where a compaction is needed, something is free after it. -/
def Relievable (r : Int) (s : State) : Prop :=
  findFit r [] s.freeBlock = none → r ≤ totalFree s.freeBlock →
    ownedSize s.allocatedBlockHead < s.memSize

/-- A positive request can only be unfit when some memory is not allocated. -/
theorem WellFormed.relievable (wf : WellFormed s) {r : Int} (positive : 0 < r) :
    Relievable r s := by
  intro _ enough
  have fits := wf.total_le
  omega

/-- With no room left, a request that is not positive comes back after each
compaction to where it was. -/
theorem allocateMem_without_room (nonpositive : ab.size ≤ 0) (exhausted : s.freeBlock = [])
    (full : s.memSize ≤ ownedSize s.allocatedBlockHead) (fuel : Nat) :
    allocateMem Q fuel ab s = .error .outOfFuel := by
  induction fuel generalizing s with
  | zero => rfl
  | succ fuel ih =>
      have unfit : findFit ab.size [] s.freeBlock = none := by
        rw [exhausted]
        rfl
      have enough : ab.size ≤ totalFree s.freeBlock := by
        rw [exhausted]
        exact nonpositive
      rw [allocateMem_of_unfit unfit enough]
      by_cases empty : s.allocatedBlockHead = []
      · rw [compactMemory_of_empty empty, ih exhausted full]
        rfl
      · have nothing : compactedFree s = none := if_neg (by omega)
        rw [compactMemory_eq empty, nothing, ih rfl]
        · rfl
        · -- the processes are moved, their sizes are the same
          simpa only [setFree_memSize, setFree_allocatedBlockHead, ownedSize_movedBlocks] using full

/-- Without room no block is free. -/
theorem WellFormed.exhausted (wf : WellFormed s)
    (full : s.memSize ≤ ownedSize s.allocatedBlockHead) : s.freeBlock = [] := by
  by_contra nonempty
  obtain ⟨b, rest, free⟩ := List.exists_cons_of_ne_nil nonempty
  have fits := wf.total_le
  have positive := wf.freePositive
  simp only [free, List.forall_mem_cons] at positive
  have others := Partition.totalFree_nonneg positive.2
  have total : totalFree s.freeBlock = b.size + totalFree rest := by simp [totalFree, free]
  omega

/-- **The calls that return, for any request.** -/
theorem allocateMem_returns_iff_of_any (wf : WellFormed s)
    {result : Int × AllocatedBlock × State} :
    (∃ fuel, allocateMem Q fuel ab s = .ok result) ↔
      Allocation Q ab s result ∧ Relievable ab.size s := by
  have fits := wf.total_le
  constructor
  · rintro ⟨fuel, returned⟩
    cases fuel with
    | zero => cases returned
    | succ fuel =>
        rcases fit_cases ab.size s.freeBlock with
          ⟨pre, fbt, next, found⟩ | ⟨unfit, short⟩ | ⟨unfit, enough⟩
        · rw [allocateMem_of_fit wf.counted found, Except.ok.injEq] at returned
          subst returned
          refine ⟨.fit found, fun unfit => ?_⟩
          rw [unfit] at found
          cases found
        · rw [allocateMem_of_short unfit short, Except.ok.injEq] at returned
          subst returned
          exact ⟨.short unfit short, fun _ enough => absurd short (not_lt.mpr enough)⟩
        · by_cases empty : s.allocatedBlockHead = []
          · rw [allocateMem_diverges unfit enough empty] at returned
            cases returned
          · by_cases room : ownedSize s.allocatedBlockHead < s.memSize
            · have large : ab.size ≤ (gathered s).size := by
                simp only [gathered]
                omega
              cases fuel with
              | zero =>
                  rw [allocateMem_of_unfit unfit enough] at returned
                  cases returned
              | succ fuel =>
                  rw [allocateMem_of_gathered unfit enough empty room large,
                    Except.ok.injEq] at returned
                  subst returned
                  exact ⟨.compacted unfit enough empty, fun _ _ => room⟩
            · have full : s.memSize ≤ ownedSize s.allocatedBlockHead := not_lt.mp room
              rw [allocateMem_without_room (by omega) (wf.exhausted full) full] at returned
              cases returned
  · rintro ⟨allocation, relievable⟩
    cases allocation with
    | fit found => exact ⟨1, allocateMem_of_fit wf.counted found 0⟩
    | short unfit short => exact ⟨1, allocateMem_of_short unfit short 0⟩
    | compacted unfit enough occupied =>
        have large : ab.size ≤ (gathered s).size := by
          simp only [gathered]
          omega
        exact ⟨2, allocateMem_of_gathered unfit enough occupied (relievable unfit enough) large 0⟩

/-- **The calls that return are the three kinds of `Allocation`.** -/
theorem allocateMem_returns_iff (wf : WellFormed s) (positive : 0 < ab.size)
    {result : Int × AllocatedBlock × State} :
    (∃ fuel, allocateMem Q fuel ab s = .ok result) ↔ Allocation Q ab s result := by
  rw [allocateMem_returns_iff_of_any wf]
  exact and_iff_left (wf.relievable positive)

/-! ## `new_process` -/

/-- The state after `new_process` counted the pid up. -/
def State.numbered (s : State) : State := { s with pid := s.pid + 1 }

theorem WellFormed.numbered (wf : WellFormed s) : WellFormed s.numbered where
  sized := wf.sized
  packed := wf.packed
  counted := wf.counted
  untouched := wf.untouched

/-- The calls of `new_process` with the request `size`, with their results. -/
inductive Creation (Q : Qsort) (size : Int) (s : State) : Int × State → Prop where
  | placed {pre next : List FreeBlock} {fbt : FreeBlock}
      (found : findFit size [] s.freeBlock = some (pre, fbt, next)) :
      Creation Q size s (if s.allocatedBlockHead = [] then 1 else 2,
        { s.numbered with allocatedBlockHead :=
            ⟨s.pid + 1, size, fbt.startAddr⟩ :: s.allocatedBlockHead }.setFree
          (afterFit Q s.maAlgorithm size pre fbt next))
  | refused (unfit : findFit size [] s.freeBlock = none)
      (short : totalFree s.freeBlock < size) : Creation Q size s (-1, s.numbered)
  | lost (unfit : findFit size [] s.freeBlock = none)
      (enough : size ≤ totalFree s.freeBlock) (occupied : s.allocatedBlockHead ≠ []) :
      Creation Q size s (-1, compactedState Q size s.numbered)

/-- The descriptor `new_process` hands to `allocate_mem`. -/
def descriptor (size : Int) (malloced : AllocatedBlock) (s : State) : AllocatedBlock :=
  { malloced with pid := s.pid + 1, size := size }

/-- The branches of `new_process` after the allocation. -/
def register : Int × AllocatedBlock × State → Int × State
  | (ret, served, t) =>
      if ret = 1 ∧ t.allocatedBlockHead = [] then (1, { t with allocatedBlockHead := [served] })
      else if ret = 1 then (2, { t with allocatedBlockHead := served :: t.allocatedBlockHead })
      else if ret = -1 then (-1, t)
      else (3, t)

/-- The size in the descriptor when `allocate_mem` is called. -/
def requested (size : Int) (malloced : AllocatedBlock) : Int :=
  if size > 0 then size else malloced.size

theorem newProcess_eq_register (size : Int) (malloced : AllocatedBlock) (fuel : Nat) :
    newProcess Q fuel malloced size s =
      (allocateMem Q fuel (descriptor (requested size malloced) malloced s) s.numbered).map
        register := by
  simp only [newProcess, bind, Except.bind, descriptor, requested, State.numbered]
  cases allocateMem Q fuel
      { malloced with pid := s.pid + 1, size := if size > 0 then size else malloced.size }
      { s with pid := s.pid + 1 } with
  | error stop => rfl
  | ok result =>
      obtain ⟨ret, served, t⟩ := result
      simp only [Except.map, register]
      split_ifs <;> rfl

/-- A request that a block fits is served at the first call of `allocate_mem`,
whatever the size in the descriptor. -/
theorem newProcess_of_fit_requested (counted : s.Counted) {size r : Int}
    {malloced : AllocatedBlock} (entered : requested size malloced = r)
    {pre next : List FreeBlock} {fbt : FreeBlock}
    (found : findFit r [] s.freeBlock = some (pre, fbt, next)) (fuel : Nat) :
    newProcess Q (fuel + 1) malloced size s =
      .ok (if s.allocatedBlockHead = [] then 1 else 2,
        { s.numbered with allocatedBlockHead :=
            ⟨s.pid + 1, r, fbt.startAddr⟩ :: s.allocatedBlockHead }.setFree
          (afterFit Q s.maAlgorithm r pre fbt next)) := by
  have call := allocateMem_of_fit (Q := Q) (s := s.numbered) counted
    (show findFit (descriptor r malloced s).size [] s.freeBlock = _ from found) fuel
  rw [newProcess_eq_register, entered, call]
  by_cases empty : s.allocatedBlockHead = []
  · simp [Except.map, register, State.numbered, State.setFree, descriptor, empty]
  · simp [Except.map, register, State.numbered, State.setFree, descriptor, empty]

theorem newProcess_of_fit (counted : s.Counted) {size : Int} (positive : 0 < size)
    {pre next : List FreeBlock} {fbt : FreeBlock}
    (found : findFit size [] s.freeBlock = some (pre, fbt, next)) (malloced : AllocatedBlock)
    (fuel : Nat) :
    newProcess Q (fuel + 1) malloced size s =
      .ok (if s.allocatedBlockHead = [] then 1 else 2,
        { s.numbered with allocatedBlockHead :=
            ⟨s.pid + 1, size, fbt.startAddr⟩ :: s.allocatedBlockHead }.setFree
          (afterFit Q s.maAlgorithm size pre fbt next)) :=
  newProcess_of_fit_requested counted (if_pos positive) found fuel

/-- **The calls of `new_process` that return, for any entry.** -/
theorem newProcess_returns_iff_of_any (wf : WellFormed s) {size r : Int}
    {malloced : AllocatedBlock} (entered : requested size malloced = r) {result : Int × State} :
    (∃ fuel, newProcess Q fuel malloced size s = .ok result) ↔
      Creation Q r s result ∧ Relievable r s := by
  have returns {inner : Int × AllocatedBlock × State} :
      (∃ fuel, allocateMem Q fuel (descriptor r malloced s) s.numbered = .ok inner) ↔
        Allocation Q (descriptor r malloced s) s.numbered inner ∧ Relievable r s :=
    allocateMem_returns_iff_of_any wf.numbered
  simp only [newProcess_eq_register, entered]
  constructor
  · rintro ⟨fuel, returned⟩
    cases call : allocateMem Q fuel (descriptor r malloced s) s.numbered with
    | error stop =>
        rw [call] at returned
        cases returned
    | ok inner =>
        rw [call] at returned
        have same : register inner = result := Except.ok.inj returned
        subst same
        obtain ⟨allocation, relievable⟩ := returns.mp ⟨fuel, call⟩
        refine ⟨?_, relievable⟩
        cases allocation with
        | fit found =>
            have placed := Creation.placed (Q := Q) (s := s) found
            by_cases empty : s.allocatedBlockHead = []
            · simpa [register, State.numbered, State.setFree, descriptor, empty] using placed
            · simpa [register, State.numbered, State.setFree, descriptor, empty] using placed
        | short unfit short => exact Creation.refused unfit short
        | compacted unfit enough occupied => exact Creation.lost unfit enough occupied
  · rintro ⟨creation, relievable⟩
    cases creation with
    | placed found =>
        have call := newProcess_of_fit_requested (Q := Q) wf.counted entered found 0
        rw [newProcess_eq_register, entered] at call
        exact ⟨1, call⟩
    | refused unfit short =>
        obtain ⟨fuel, call⟩ :=
          returns.mpr ⟨Allocation.short (s := s.numbered) unfit short, relievable⟩
        exact ⟨fuel, by rw [call]; rfl⟩
    | lost unfit enough occupied =>
        obtain ⟨fuel, call⟩ :=
          returns.mpr ⟨Allocation.compacted (s := s.numbered) unfit enough occupied, relievable⟩
        exact ⟨fuel, by rw [call]; rfl⟩

/-- **The calls of `new_process` that return are the three kinds of `Creation`.** -/
theorem newProcess_returns_iff (wf : WellFormed s) {size : Int} (positive : 0 < size)
    {malloced : AllocatedBlock} {result : Int × State} :
    (∃ fuel, newProcess Q fuel malloced size s = .ok result) ↔ Creation Q size s result := by
  rw [newProcess_returns_iff_of_any wf (if_pos positive)]
  exact and_iff_left (wf.relievable positive)

end OsLab.Partition
