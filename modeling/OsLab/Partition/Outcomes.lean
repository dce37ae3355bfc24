import OsLab.Partition.Disjointness

/-!
# When an allocation returns, succeeds, or changes nothing

Three expectations on a request, each with the exact condition under which the
program meets it, in every reachable state:

* `allocate_mem` returns unless the free blocks are each too small, together large
  enough, and no process is left (`allocateMem_returns_iff_fit_short_or_occupied`).
  In that state `compact_memory` reports success without doing anything, and the
  recursive call finds the state it started from.
* a request is served exactly when there is enough free memory in total,
  unless it needs compaction (`served_iff_enough_iff`). The result of the recursive
  call is thrown away, so such a request is always reported as failed.
* a failed request changes nothing but the pid counter, unless it went through
  compaction (`failure_atomic_iff`).
-/

set_option autoImplicit false

namespace OsLab.Partition

open OsLab.Foundation

variable {Q : Qsort} {s t : State}

/-- Some free block is large enough for the request. -/
def Fits (size : Int) (s : State) : Prop := ∃ b ∈ s.freeBlock, size ≤ b.size

theorem not_fits_iff {size : Int} : ¬ Fits size s ↔ findFit size [] s.freeBlock = none := by
  rw [findFit_eq_none_iff, Fits]
  constructor
  · intro noFit b member
    by_contra large
    exact noFit ⟨b, member, by omega⟩
  · rintro small ⟨b, member, large⟩
    have tooSmall := small b member
    omega

theorem fits_of_found {size : Int} {split : List FreeBlock × FreeBlock × List FreeBlock}
    (found : findFit size [] s.freeBlock = some split) : Fits size s := by
  by_contra noFit
  rw [not_fits_iff.mp noFit] at found
  cases found

/-! ## Termination -/

/-- **`allocate_mem` returns exactly when a block fits, the total is too small, or
a process is left to be moved.** -/
theorem allocateMem_returns_iff_fit_short_or_occupied (Q : Qsort) {s : State}
    (reached : ReachableState Q s) (ab : AllocatedBlock) (positive : 0 < ab.size) :
    (∃ fuel result, allocateMem Q fuel ab s = .ok result) ↔
      Fits ab.size s ∨ totalFree s.freeBlock < ab.size ∨ s.allocatedBlockHead ≠ [] := by
  have wf := wellFormed_of_reachable reached
  constructor
  · rintro ⟨fuel, result, returned⟩
    cases (allocateMem_returns_iff wf positive).mp ⟨fuel, returned⟩ with
    | fit found => exact .inl (fits_of_found found)
    | short _ short => exact .inr (.inl short)
    | compacted _ _ occupied => exact .inr (.inr occupied)
  · intro condition
    rcases fit_cases ab.size s.freeBlock with
      ⟨pre, fbt, next, found⟩ | ⟨unfit, short⟩ | ⟨unfit, enough⟩
    · exact ⟨1, _, allocateMem_of_fit wf.counted found 0⟩
    · exact ⟨1, _, allocateMem_of_short unfit short 0⟩
    · have occupied : s.allocatedBlockHead ≠ [] := by
        rcases condition with fits | short | occupied
        · exact absurd fits (not_fits_iff.mpr unfit)
        · exact absurd short (not_lt.mpr enough)
        · exact occupied
      obtain ⟨fuel, returned⟩ := (allocateMem_returns_iff (Q := Q) wf positive).mpr
        (.compacted unfit enough occupied)
      exact ⟨fuel, _, returned⟩

/-- A session that leaves 100 and 824 free addresses on the two sides of a
process. -/
def dividedSession : List Op :=
  [.newProcess ⟨0, 0, 0⟩ 100, .newProcess ⟨0, 0, 0⟩ 100, .newProcess ⟨0, 0, 0⟩ 824,
    .killProcess 1, .killProcess 3]

/-- After `dividedSession`. -/
def divided : State := ⟨1024, .maFF, 3, 1, [⟨100, 0⟩, ⟨824, 200⟩], 2, [⟨2, 100, 100⟩]⟩

theorem divided_reachable :
    session .insertion 1 dividedSession initial = .ok divided ∧
      ReachableState .insertion divided :=
  ⟨rfl, reachable_of_session .insertion 1 dividedSession Reachable.refl (by decide) rfl⟩

/-- 900 of 924 free addresses in two blocks: compaction runs, and since a process is left the
call returns. -/
theorem divided_allocateMem_returns :
    ¬ Fits 900 divided ∧ ¬ totalFree divided.freeBlock < 900 ∧
      ∃ fuel result, allocateMem .insertion fuel ⟨4, 900, 0⟩ divided = .ok result := by
  refine ⟨not_fits_iff.mpr rfl, by decide, ?_⟩
  refine (allocateMem_returns_iff_fit_short_or_occupied .insertion divided_reachable.2
    ⟨4, 900, 0⟩ (by decide)).mpr (.inr (.inr ?_))
  decide

/-- A session that ends without a process and with two free blocks, the five
addresses between them lost. -/
def splitSession : List Op :=
  [.newProcess ⟨0, 0, 0⟩ 100, .newProcess ⟨0, 0, 0⟩ 924, .killProcess 1,
    .newProcess ⟨0, 0, 0⟩ 95, .killProcess 2, .killProcess 3]

/-- **A request for 1000 of 1019 free addresses never returns.** Compaction gives
back the state it got. -/
theorem allocation_repeats_forever :
    ∃ s, session .insertion 1 splitSession initial = .ok s ∧ ReachableState .insertion s ∧
      totalFree s.freeBlock = 1019 ∧ compactMemory .insertion s = (1, s) ∧
      ∀ fuel, allocateMem .insertion fuel ⟨4, 1000, 0⟩ s = .error .outOfFuel := by
  have reached := reachable_of_session .insertion 1 splitSession Reachable.refl (by decide) rfl
  refine ⟨_, rfl, reached, rfl, rfl, fun fuel => ?_⟩
  exact allocateMem_diverges rfl (by decide) rfl fuel

/-! ## Success -/

/-- `new_process` reports success and the new process is in the allocated
list. -/
def Served (size : Int) (s : State) (ret : Int) (t : State) : Prop :=
  (ret = 1 ∨ ret = 2) ∧ ∃ ab ∈ t.allocatedBlockHead, ab.pid = s.pid + 1 ∧ ab.size = size

theorem not_served_of_failure {size : Int} : ¬ Served size s (-1) t := by
  rintro ⟨one | two, -⟩
  · cases one
  · cases two

/-- A block that fits is at most the total. -/
theorem Fits.le_totalFree {size : Int} (wf : WellFormed s) (fits : Fits size s) :
    size ≤ totalFree s.freeBlock := by
  obtain ⟨b, member, large⟩ := fits
  have one : b.size ≤ totalFree s.freeBlock := by
    apply List.single_le_sum
    · intro z inSizes
      obtain ⟨c, inList, rfl⟩ := List.mem_map.mp inSizes
      exact (wf.freePositive c inList).le
    · exact List.mem_map_of_mem member
  omega

/-- **A request is served exactly when the free memory is enough, if and only if
it does not need compaction.** -/
theorem served_iff_enough_iff (Q : Qsort) {s t : State} (reached : ReachableState Q s)
    (fuel : Nat) (malloced : AllocatedBlock) {size ret : Int} (positive : 0 < size)
    (returned : newProcess Q fuel malloced size s = .ok (ret, t)) :
    (Served size s ret t ↔ size ≤ totalFree s.freeBlock) ↔
      Fits size s ∨ totalFree s.freeBlock < size := by
  have wf := wellFormed_of_reachable reached
  cases (newProcess_returns_iff wf positive).mp ⟨fuel, returned⟩ with
  | placed found =>
      have fits := fits_of_found found
      refine iff_of_true (iff_of_true ⟨?_, _, List.mem_cons_self, rfl, rfl⟩
        (fits.le_totalFree wf)) (.inl fits)
      split_ifs
      · exact .inl rfl
      · exact .inr rfl
  | refused unfit short =>
      have tooMuch : ¬ size ≤ totalFree s.freeBlock := by omega
      exact iff_of_true (iff_of_false not_served_of_failure tooMuch) (.inr short)
  | lost unfit enough occupied =>
      have noFit := not_fits_iff.mpr unfit
      refine iff_of_false (fun same => not_served_of_failure (same.mpr enough)) ?_
      rintro (fits | short)
      · exact noFit fits
      · omega

/-- With 100 and 824 free addresses a request for 800 meets the condition and is served, and one
for 900 does not and is refused though there is enough. -/
theorem served_iff_enough_divided :
    ∃ t u, newProcess .insertion 1 ⟨0, 0, 0⟩ 800 divided = .ok (2, t) ∧
      (Served 800 divided 2 t ↔ 800 ≤ totalFree divided.freeBlock) ∧
      newProcess .insertion 2 ⟨0, 0, 0⟩ 900 divided = .ok (-1, u) ∧
      ¬ (Served 900 divided (-1) u ↔ 900 ≤ totalFree divided.freeBlock) := by
  have exactly (size : Int) (positive : 0 < size) (fuel : Nat) {ret : Int} {t : State}
      (returned : newProcess .insertion fuel ⟨0, 0, 0⟩ size divided = .ok (ret, t)) :
      (Served size divided ret t ↔ size ≤ totalFree divided.freeBlock) ↔
        Fits size divided ∨ totalFree divided.freeBlock < size :=
    served_iff_enough_iff .insertion divided_reachable.2 fuel ⟨0, 0, 0⟩ positive returned
  refine ⟨_, _, rfl, (exactly 800 (by decide) 1 rfl).mpr (.inl ⟨⟨824, 200⟩, by decide, by decide⟩),
    rfl, fun same => ?_⟩
  rcases (exactly 900 (by decide) 2 rfl).mp same with fits | short
  · exact not_fits_iff.mpr rfl fits
  · exact absurd short (by decide)

/-- **900 of 924 free addresses are refused.** -/
theorem enough_memory_refused :
    ∃ s t, session .insertion 1 dividedSession initial = .ok s ∧ ReachableState .insertion s ∧
      newProcess .insertion 2 ⟨0, 0, 0⟩ 900 s = .ok (-1, t) ∧ 900 ≤ totalFree s.freeBlock ∧
      ¬ Served 900 s (-1) t := by
  have reached := reachable_of_session .insertion 1 dividedSession Reachable.refl (by decide) rfl
  exact ⟨_, _, rfl, reached, rfl, by decide, not_served_of_failure⟩

/-! ## Failure -/

/-- Nothing but the pid counter is different: the free addresses, the counter of
free blocks and the allocated list are the same. -/
structure OnlyPidAdvanced (s t : State) : Prop where
  freeAddresses : t.freeAddresses = s.freeAddresses
  freeBlockLen : t.freeBlockLen = s.freeBlockLen
  allocatedBlockHead : t.allocatedBlockHead = s.allocatedBlockHead
  memSize : t.memSize = s.memSize
  maAlgorithm : t.maAlgorithm = s.maAlgorithm
  flag : t.flag = s.flag
  pid : t.pid = s.pid + 1

/-- Blocks that are too small one by one but large enough together are at least
two. -/
theorem two_le_length {size : Int} {blocks : List FreeBlock} (positive : 0 < size)
    (small : ∀ b ∈ blocks, b.size < size) (enough : size ≤ totalFree blocks) :
    2 ≤ blocks.length := by
  match blocks with
  | [] =>
      simp only [totalFree, List.map_nil, List.sum_nil] at enough
      omega
  | [b] =>
      have tooSmall := small b List.mem_cons_self
      simp only [totalFree, List.map_cons, List.map_nil, List.sum_cons, List.sum_nil] at enough
      omega
  | _ :: _ :: _ => simp

/-- **A failed request changes nothing but the pid counter, if and only if it does
not need compaction.** -/
theorem failure_atomic_iff (Q : Qsort) {s t : State} (reached : ReachableState Q s)
    (fuel : Nat) (malloced : AllocatedBlock) {size ret : Int} (positive : 0 < size)
    (returned : newProcess Q fuel malloced size s = .ok (ret, t)) :
    (ret = -1 → OnlyPidAdvanced s t) ↔ Fits size s ∨ totalFree s.freeBlock < size := by
  have wf := wellFormed_of_reachable reached
  cases (newProcess_returns_iff wf positive).mp ⟨fuel, returned⟩ with
  | placed found =>
      refine iff_of_true (fun failed => ?_) (.inl (fits_of_found found))
      split_ifs at failed
  | refused unfit short =>
      refine iff_of_true (fun _ => ?_) (.inr short)
      exact ⟨rfl, rfl, rfl, rfl, rfl, rfl, rfl⟩
  | lost unfit enough occupied =>
      refine iff_of_false (fun atomic => ?_) ?_
      · -- the free list had two blocks and has at most one now
        have before := two_le_length positive (findFit_eq_none_iff.mp unfit) enough
        have counted : s.freeBlockLen = s.freeBlock.length := wf.counted
        have after := (atomic rfl).freeBlockLen
        have one : (remainder size (gathered s.numbered)).toList.length ≤ 1 := by
          cases remainder size (gathered s.numbered) <;> simp
        simp only [compactedState, setFree_freeBlockLen] at after
        omega
      · rintro (fits | short)
        · exact not_fits_iff.mpr unfit fits
        · omega

/-- With 100 and 824 free addresses a request for 1000 is refused and changes nothing but the
counter, and one for 900 is refused and does. -/
theorem failure_atomic_divided :
    ∃ t u, newProcess .insertion 1 ⟨0, 0, 0⟩ 1000 divided = .ok (-1, t) ∧
      OnlyPidAdvanced divided t ∧
      newProcess .insertion 2 ⟨0, 0, 0⟩ 900 divided = .ok (-1, u) ∧
      ¬ OnlyPidAdvanced divided u := by
  have exactly (size : Int) (positive : 0 < size) (fuel : Nat) {t : State}
      (returned : newProcess .insertion fuel ⟨0, 0, 0⟩ size divided = .ok (-1, t)) :
      ((-1 : Int) = -1 → OnlyPidAdvanced divided t) ↔
        Fits size divided ∨ totalFree divided.freeBlock < size :=
    failure_atomic_iff .insertion divided_reachable.2 fuel ⟨0, 0, 0⟩ positive returned
  refine ⟨_, _, rfl, (exactly 1000 (by decide) 1 rfl).mpr (.inr (by decide)) rfl, rfl, ?_⟩
  intro same
  rcases (exactly 900 (by decide) 2 rfl).mp fun _ => same with fits | short
  · exact not_fits_iff.mpr rfl fits
  · exact absurd short (by decide)

/-- **A refused request takes memory away.** 900 of the 924 free addresses are
gone, and the remaining process has moved. -/
theorem failed_allocation_loses_memory :
    ∃ s t, session .insertion 1 dividedSession initial = .ok s ∧ ReachableState .insertion s ∧
      newProcess .insertion 2 ⟨0, 0, 0⟩ 900 s = .ok (-1, t) ∧
      s.freeBlock = [⟨100, 0⟩, ⟨824, 200⟩] ∧ t.freeBlock = [⟨24, 1000⟩] ∧
      s.allocatedBlockHead = [⟨2, 100, 100⟩] ∧ t.allocatedBlockHead = [⟨2, 100, 0⟩] ∧
      ¬ OnlyPidAdvanced s t := by
  have reached := reachable_of_session .insertion 1 dividedSession Reachable.refl (by decide) rfl
  refine ⟨_, _, rfl, reached, rfl, rfl, rfl, rfl, rfl, fun same => ?_⟩
  exact absurd same.freeBlockLen (by decide)

end OsLab.Partition
