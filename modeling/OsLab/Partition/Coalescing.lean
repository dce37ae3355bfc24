import OsLab.Foundation.Coalesced
import OsLab.Partition.Placement

/-!
# The free list has no neighbours

Only `free_mem` merges, and it merges along the list once. That catches every pair of
neighbours because the list is in address order then: the blocks of a packed list are laid
out one behind the other (`sorted_laidOut`), and the loop leaves a gap between any two
(`mergeFrom_spaced`), also where it joins three blocks in a row. The other operations make
no neighbours: an allocation takes the front of a block (`afterFit_coalesced`), a
compaction leaves one block, and a new order moves nothing.

So no two free blocks are neighbours in any reachable state (`free_coalesced`). With
`Packed.perm_of_addressesOf_eq` the free list is then determined by the set of free
addresses, up to its order (`freeBlock_perm_of_addresses`), and exactly under first fit
(`freeBlock_eq_of_addresses`).
-/

set_option autoImplicit false

namespace OsLab.Partition

open OsLab.Foundation

variable {Q : Qsort} {s t : State} {op : Op}

/-! ## Merging leaves gaps -/

/-- A packed list in address order is laid out. -/
theorem sorted_laidOut {lo hi : Int} {blocks : List FreeBlock}
    (packed : Packed lo hi (blocks.map FreeBlock.extent)) (sorted : SortedBy cmpFF blocks) :
    LaidOut (blocks.map FreeBlock.extent) := by
  refine packed.laidOut ?_
  rw [sortedBy_cmpFF_iff, List.pairwise_map] at sorted
  exact List.pairwise_map.mpr sorted

/-- **The merging loop leaves a gap between any two blocks.** -/
theorem mergeFrom_spaced {pre : FreeBlock} {blocks : List FreeBlock} (len : Int)
    (positive : ∀ b ∈ pre :: blocks, 0 < b.size)
    (laid : LaidOut ((pre :: blocks).map FreeBlock.extent)) :
    Spaced ((mergeFrom pre blocks len).1.map FreeBlock.extent) := by
  induction blocks generalizing pre len with
  | nil => exact List.pairwise_singleton _ _
  | cons fbt next ih =>
      obtain ⟨behindPre, laidNext⟩ := List.pairwise_cons.mp laid
      obtain ⟨behindFbt, laidRest⟩ := List.pairwise_cons.mp laidNext
      obtain ⟨sizePre, positiveNext⟩ := List.forall_mem_cons.mp positive
      obtain ⟨sizeFbt, positiveRest⟩ := List.forall_mem_cons.mp positiveNext
      have toFbt : pre.startAddr + pre.size ≤ fbt.startAddr :=
        behindPre fbt.extent List.mem_cons_self
      by_cases adjacent : pre.startAddr + pre.size = fbt.startAddr
      · simp only [mergeFrom, adjacent, ↓reduceIte]
        -- the joined block ends where `fbt` ended
        refine ih (len - 1) (List.forall_mem_cons.mpr ⟨Int.add_pos sizePre sizeFbt, positiveRest⟩)
          (List.pairwise_cons.mpr ⟨fun b member => ?_, laidRest⟩)
        have after := behindFbt b member
        simp only [FreeBlock.extent] at after ⊢
        omega
      · simp only [mergeFrom, adjacent, ↓reduceIte, List.map_cons]
        refine List.pairwise_cons.mpr ⟨fun e member => ?_, ih len positiveNext laidNext⟩
        -- what is merged further on starts at `fbt` or behind it
        obtain ⟨b, inMerged, rfl⟩ := List.mem_map.mp member
        have start : b.startAddr ∈ (fbt :: next).map FreeBlock.startAddr :=
          (mergeFrom_starts fbt next len).subset (List.mem_map_of_mem inMerged)
        obtain ⟨b', inNext, same⟩ := List.mem_map.mp start
        have later : fbt.startAddr ≤ b'.startAddr := by
          rcases List.mem_cons.mp inNext with rfl | further
          · exact le_rfl
          · have after : fbt.startAddr + fbt.size ≤ b'.startAddr :=
              behindFbt b'.extent (List.mem_map_of_mem further)
            omega
        simp only [FreeBlock.extent]
        omega

theorem mergeAll_coalesced {lo hi : Int} {blocks : List FreeBlock}
    (packed : Packed lo hi (blocks.map FreeBlock.extent)) (sorted : SortedBy cmpFF blocks) :
    Coalesced ((mergeAll blocks).map FreeBlock.extent) := by
  have merged : Packed lo hi ((mergeAll blocks).map FreeBlock.extent ++ []) :=
    mergeAll_packed (by rwa [List.append_nil])
  rw [List.append_nil] at merged
  refine Spaced.coalesced ?_ merged.positive
  cases blocks with
  | nil => exact List.Pairwise.nil
  | cons b blocks =>
      have positive : ∀ f ∈ b :: blocks, 0 < f.size := fun f member =>
        packed.positive f.extent (List.mem_map_of_mem member)
      exact mergeFrom_spaced 0 positive (sorted_laidOut packed sorted)

/-! ## Every operation keeps the list without neighbours -/

/-- Giving a block back leaves no neighbours, whatever there was before. -/
theorem releasedFree_coalesced {lo hi : Int} (algorithm : Algorithm) {ab : AllocatedBlock}
    {blocks : List FreeBlock} (packed : Packed lo hi (ab.extent :: blocks.map FreeBlock.extent)) :
    Coalesced ((releasedFree Q algorithm ab blocks).map FreeBlock.extent) := by
  have sorted : ((Q.sort cmpFF (⟨ab.size, ab.startAddr⟩ :: blocks)).map FreeBlock.extent).Perm
      (ab.extent :: blocks.map FreeBlock.extent) := (Q.perm _ _).map _
  have merged := mergeAll_coalesced (packed.perm sorted.symm) (Q.sorted _ _)
  exact merged.perm ((settle_perm algorithm _).map _).symm

/-- Taking the front of a block, and dropping or keeping the rest of it. -/
theorem afterFit_coalesced {lo hi r : Int} {pre next : List FreeBlock} {fbt : FreeBlock}
    (algorithm : Algorithm) (positive : 0 < r)
    (packed : Packed lo hi ((pre ++ fbt :: next).map FreeBlock.extent))
    (coalesced : Coalesced ((pre ++ fbt :: next).map FreeBlock.extent)) :
    Coalesced ((afterFit Q algorithm r pre fbt next).map FreeBlock.extent) := by
  have middle : ((pre ++ fbt :: next).map FreeBlock.extent).Perm
      (fbt.extent :: (pre ++ next).map FreeBlock.extent) :=
    List.perm_middle.map FreeBlock.extent
  have after := (afterFit_perm (Q := Q) algorithm r pre fbt next).map FreeBlock.extent
  refine Coalesced.perm ?_ after.symm
  rcases remainder_cases r fbt with ⟨-, gone⟩ | ⟨kept, rest⟩
  · rw [gone]
    exact (coalesced.perm middle).subset (List.subset_cons_self _ _)
  · have short : r < fbt.size := by
      simp only [minSlice] at kept
      omega
    rw [rest]
    exact (packed.perm middle).coalesced_rest (coalesced.perm middle) positive short

/-- What stays in the list is larger than the smallest slice. -/
theorem minSlice_lt_of_remainder {r : Int} {fbt rest : FreeBlock}
    (kept : remainder r fbt = some rest) : minSlice < rest.size := by
  unfold remainder at kept
  split_ifs at kept with small
  cases kept
  exact not_le.mp small

/-- A free list of at most one block. -/
theorem coalesced_toList {block : Option FreeBlock} (positive : ∀ b ∈ block, 0 < b.size) :
    Coalesced (block.toList.map FreeBlock.extent) := by
  cases block with
  | none => exact nofun
  | some b => exact coalesced_singleton (positive b rfl)

theorem WellFormed.freePacked (wf : WellFormed s) : Packed 0 s.memSize s.freeExtents :=
  wf.packed.sublist (List.sublist_append_left _ _)

/-- **The step lemma: no move makes neighbours.** -/
theorem coalesced_transition (wf : WellFormed s) (coalesced : Coalesced s.freeExtents)
    (move : Transition Q s op t) : Coalesced t.freeExtents := by
  cases move with
  | kept _ flag set => exact coalesced
  | resized fresh positive => exact coalesced_singleton positive
  | chosen algorithm => exact coalesced.perm ((Q.perm _ _).map _).symm
  | created positive creation =>
      cases creation with
      | placed found =>
          obtain ⟨split, -, -⟩ := findFit_nil_split found
          have packed := wf.freePacked
          rw [State.freeExtents, split] at packed coalesced
          exact afterFit_coalesced s.maAlgorithm positive packed coalesced
      | refused _ _ => exact coalesced
      | lost _ _ _ =>
          refine coalesced_toList fun b rest => ?_
          have large := minSlice_lt_of_remainder rest
          simp only [minSlice] at large
          omega
  | killed found node =>
      have unlinked := (eraseIdx_perm node).map AllocatedBlock.extent
      have both := (wf.packed.perm (unlinked.append_left s.freeExtents)).perm List.perm_middle
      exact releasedFree_coalesced s.maAlgorithm
        (both.sublist ((List.sublist_append_left _ _).cons_cons _))

/-- What holds of every reachable state of the free list: packed, ordered for the policy and
without neighbours. -/
structure Tidy (s : State) : Prop where
  wellFormed : WellFormed s
  ordered : Ordered s
  coalesced : Coalesced s.freeExtents

theorem Tidy.transition (tidy : Tidy s) (move : Transition Q s op t) : Tidy t where
  wellFormed := tidy.wellFormed.transition move
  ordered := tidy.ordered.transition tidy.wellFormed move
  coalesced := coalesced_transition tidy.wellFormed tidy.coalesced move

theorem tidy_initial : Tidy initial where
  wellFormed := initial_wellFormed
  ordered := List.pairwise_singleton _ _
  coalesced := coalesced_singleton (by decide)

theorem tidy_of_reachable (reached : ReachableState Q s) : Tidy s :=
  reached.invariant Tidy tidy_initial fun _ _ _ tidy step =>
    tidy.transition (step_transition tidy.wellFormed step)

/-- **No free block ends where a free block starts**, in every state the menu can reach and
under every policy. -/
theorem free_coalesced (Q : Qsort) {s : State} (reached : ReachableState Q s) :
    ∀ b ∈ s.freeBlock, ∀ b' ∈ s.freeBlock, b.startAddr + b.size ≠ b'.startAddr := by
  intro b inList b' inList'
  exact (tidy_of_reachable reached).coalesced b.extent (List.mem_map_of_mem inList) b'.extent
    (List.mem_map_of_mem inList')

/-- The blocks of three processes are given back in the order first, third, second, so that
the last one joins three blocks in a row. -/
theorem free_coalesced_three_in_a_row :
    ∃ s, session .insertion 1 [.newProcess ⟨0, 0, 0⟩ 100, .newProcess ⟨0, 0, 0⟩ 100,
        .newProcess ⟨0, 0, 0⟩ 100, .newProcess ⟨0, 0, 0⟩ 100, .setAlgorithm 3, .killProcess 1,
        .killProcess 3, .killProcess 2] initial = .ok s ∧
      s.freeBlock = [⟨624, 400⟩, ⟨300, 0⟩] ∧
      ∀ b ∈ s.freeBlock, ∀ b' ∈ s.freeBlock, b.startAddr + b.size ≠ b'.startAddr := by
  have reached := reachable_of_session .insertion 1 [.newProcess ⟨0, 0, 0⟩ 100,
    .newProcess ⟨0, 0, 0⟩ 100, .newProcess ⟨0, 0, 0⟩ 100, .newProcess ⟨0, 0, 0⟩ 100,
    .setAlgorithm 3, .killProcess 1, .killProcess 3, .killProcess 2] Reachable.refl (by decide) rfl
  exact ⟨_, rfl, rfl, free_coalesced .insertion reached⟩

/-! ## The free list as a set of addresses -/

theorem extent_injective : Function.Injective FreeBlock.extent := by
  rintro ⟨size, start⟩ ⟨size', start'⟩ same
  cases same
  rfl

/-- **The free addresses determine the free blocks.** -/
theorem freeBlock_perm_of_addresses (tidy : Tidy s) (tidy' : Tidy t)
    (same : s.freeAddresses = t.freeAddresses) : s.freeBlock.Perm t.freeBlock := by
  have extents : s.freeExtents.Perm t.freeExtents :=
    tidy.wellFormed.freePacked.perm_of_addressesOf_eq tidy.coalesced tidy'.wellFormed.freePacked
      tidy'.coalesced same
  exact (List.map_perm_map_iff extent_injective).mp extents

/-- Blocks of a packed list with the same start are the same. -/
theorem eq_of_startAddr_eq (wf : WellFormed s) {b b' : FreeBlock} (inList : b ∈ s.freeBlock)
    (inList' : b' ∈ s.freeBlock) (same : b.startAddr = b'.startAddr) : b = b' := by
  have size : 0 < b.size := wf.freePositive b inList
  have size' : 0 < b'.size := wf.freePositive b' inList'
  refine extent_injective (wf.freePacked.eq_of_mem (x := b.startAddr)
    (List.mem_map_of_mem inList) (List.mem_map_of_mem inList') ?_ ?_)
  · exact ⟨le_rfl, Int.lt_add_of_pos_right _ size⟩
  · rw [same]
    exact ⟨le_rfl, Int.lt_add_of_pos_right _ size'⟩

/-- **Under first fit they determine the free list.** -/
theorem freeBlock_eq_of_addresses (tidy : Tidy s) (tidy' : Tidy t)
    (firstFit : s.maAlgorithm = .maFF) (firstFit' : t.maAlgorithm = .maFF)
    (same : s.freeAddresses = t.freeAddresses) : s.freeBlock = t.freeBlock := by
  have perm := freeBlock_perm_of_addresses tidy tidy' same
  have sorted := tidy.ordered
  have sorted' := tidy'.ordered
  rw [Ordered, firstFit] at sorted
  rw [Ordered, firstFit'] at sorted'
  refine perm.eq_of_pairwise ?_ sorted sorted'
  intro b b' inList inList' below above
  have low := (Comparator.byKey_le_iff FreeBlock.startAddr b b').mp below
  have high := (Comparator.byKey_le_iff FreeBlock.startAddr b' b).mp above
  exact eq_of_startAddr_eq tidy.wellFormed inList (perm.mem_iff.mpr inList') (le_antisymm low high)

end OsLab.Partition
