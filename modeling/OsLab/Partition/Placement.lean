import OsLab.Partition.Outcomes

/-!
# The placement policies

`allocate_mem` takes the first block that fits, whatever the policy. That this
is the lowest block for first fit, a smallest sufficient one for best fit and a
largest one for worst fit rests on the order of the free list: it is sorted by
the comparison function of the policy in force (`Ordered`).

The order is restored by every operation. Carving moves the start of a block
towards its end, which keeps the address order because the next block starts
behind that end (`afterFit_sorted`); merging leaves a sublist of the start
addresses (`mergeFrom_starts`); a switch of the policy and the branches for the
two orders by size sort again. `placement_follows_policy` is the result for every
reachable state.
-/

set_option autoImplicit false

namespace OsLab.Partition

open OsLab.Foundation

variable {Q : Qsort} {s t : State} {op : Op}

/-- The free list is sorted for the policy in force. -/
def Ordered (s : State) : Prop := SortedBy s.maAlgorithm.comparator s.freeBlock

/-- The block a policy may choose for a request of `r`. -/
def Algorithm.Prefers (r : Int) (blocks : List FreeBlock) (b : FreeBlock) : Algorithm → Prop
  | .maFF => ∀ b' ∈ blocks, r ≤ b'.size → b.startAddr ≤ b'.startAddr
  | .maBF => ∀ b' ∈ blocks, r ≤ b'.size → b.size ≤ b'.size
  | .maWF => ∀ b' ∈ blocks, b'.size ≤ b.size

/-! ## The three orders -/

theorem sortedBy_cmpFF_iff {blocks : List FreeBlock} :
    SortedBy cmpFF blocks ↔ (blocks.map FreeBlock.startAddr).Pairwise (· ≤ ·) := by
  simp only [SortedBy, cmpFF, Comparator.byKey_le_iff, List.pairwise_map]

theorem sortedBy_toList (c : Comparator FreeBlock) (block : Option FreeBlock) :
    SortedBy c block.toList := by
  cases block with
  | none => exact List.Pairwise.nil
  | some b => exact List.pairwise_singleton _ b

/-- For the orders by size the list is sorted anew. -/
theorem settle_sorted (algorithm : Algorithm) {blocks : List FreeBlock}
    (byAddress : algorithm = .maFF → SortedBy cmpFF blocks) :
    SortedBy algorithm.comparator (settle Q algorithm blocks) := by
  cases algorithm with
  | maFF => exact byAddress rfl
  | maBF => exact Q.sorted cmpBF blocks
  | maWF => exact Q.sorted cmpWF blocks

/-- In a sorted list the first block that fits is one the policy prefers. -/
theorem prefers_first_fit {r : Int} {pre next : List FreeBlock} {fbt : FreeBlock}
    (algorithm : Algorithm) (sorted : SortedBy algorithm.comparator (pre ++ fbt :: next))
    (large : r ≤ fbt.size) (small : ∀ b ∈ pre, b.size < r) :
    algorithm.Prefers r (pre ++ fbt :: next) fbt := by
  obtain ⟨-, later, across⟩ := List.pairwise_append.mp sorted
  have behind := (List.pairwise_cons.mp later).1
  cases algorithm with
  | maFF =>
      intro b member fits
      rcases List.mem_append.mp member with passed | rest
      · have tooSmall := small b passed
        omega
      · rcases List.mem_cons.mp rest with rfl | further
        · exact le_rfl
        · exact (Comparator.byKey_le_iff FreeBlock.startAddr fbt b).mp (behind b further)
  | maBF =>
      intro b member fits
      rcases List.mem_append.mp member with passed | rest
      · have tooSmall := small b passed
        omega
      · rcases List.mem_cons.mp rest with rfl | further
        · exact le_rfl
        · exact (Comparator.byKey_le_iff FreeBlock.size fbt b).mp (behind b further)
  | maWF =>
      intro b member
      rcases List.mem_append.mp member with passed | rest
      · have tooSmall := small b passed
        omega
      · rcases List.mem_cons.mp rest with rfl | further
        · exact le_rfl
        · exact (Comparator.reverse_byKey_le_iff FreeBlock.size fbt b).mp (behind b further)

/-! ## Every operation restores the order -/

/-- Carving a block keeps the address order: the blocks behind it start behind
its end. -/
theorem carved_sorted {lo hi r : Int} {pre next : List FreeBlock} {fbt rest : FreeBlock}
    (packed : Packed lo hi ((pre ++ fbt :: next).map FreeBlock.extent))
    (sorted : SortedBy cmpFF (pre ++ fbt :: next)) (positive : 0 < r) (large : r ≤ fbt.size)
    (start : rest.startAddr = fbt.startAddr + r) : SortedBy cmpFF (pre ++ rest :: next) := by
  rw [sortedBy_cmpFF_iff] at sorted ⊢
  simp only [List.map_append, List.map_cons, List.pairwise_append, List.pairwise_cons,
    List.forall_mem_cons, List.forall_mem_map, start] at sorted ⊢
  obtain ⟨before, ⟨behind, after⟩, across⟩ := sorted
  have separate : ∀ b ∈ next, fbt.startAddr + r ≤ b.startAddr := by
    intro b member
    have order := behind b member
    have posF := packed.positive fbt.extent (List.mem_map_of_mem (by simp))
    have posB := packed.positive b.extent (List.mem_map_of_mem (by simp [member]))
    have apart : Extent.Apart fbt.extent b.extent := by
      have pairs := packed.apart
      rw [List.map_append, List.map_cons, List.pairwise_append, List.pairwise_cons] at pairs
      exact pairs.2.1.1 b.extent (List.mem_map_of_mem member)
    rw [Extent.apart_iff posF posB] at apart
    simp only [FreeBlock.extent] at apart posF posB
    omega
  refine ⟨before, ⟨separate, after⟩, fun b member => ?_⟩
  obtain ⟨toBlock, toNext⟩ := across b member
  exact ⟨by omega, toNext⟩

theorem afterFit_sorted {lo hi r : Int} {pre next : List FreeBlock} {fbt : FreeBlock}
    (algorithm : Algorithm)
    (packed : Packed lo hi ((pre ++ fbt :: next).map FreeBlock.extent))
    (sorted : SortedBy algorithm.comparator (pre ++ fbt :: next)) (positive : 0 < r)
    (large : r ≤ fbt.size) :
    SortedBy algorithm.comparator (afterFit Q algorithm r pre fbt next) := by
  rcases remainder_cases r fbt with ⟨-, gone⟩ | ⟨-, rest⟩
  · simp only [afterFit, gone]
    exact sorted.sublist (List.Sublist.append_left (List.sublist_cons_self fbt next) pre)
  · simp only [afterFit, rest]
    apply settle_sorted
    rintro rfl
    exact carved_sorted packed sorted positive large rfl

/-- Merging leaves a sublist of the start addresses. -/
theorem mergeFrom_starts (pre : FreeBlock) (blocks : List FreeBlock) (len : Int) :
    ((mergeFrom pre blocks len).1.map FreeBlock.startAddr).Sublist
      ((pre :: blocks).map FreeBlock.startAddr) := by
  induction blocks generalizing pre len with
  | nil => exact List.Sublist.refl _
  | cons fbt next ih =>
      by_cases adjacent : pre.startAddr + pre.size = fbt.startAddr
      · simp only [mergeFrom, adjacent, ↓reduceIte]
        have merged := ih { pre with size := pre.size + fbt.size } (len - 1)
        exact merged.trans ((List.sublist_cons_self _ _).cons_cons _)
      · simp only [mergeFrom, adjacent, ↓reduceIte]
        exact (ih fbt len).cons_cons _

theorem releasedFree_sorted (algorithm : Algorithm) (ab : AllocatedBlock)
    (blocks : List FreeBlock) :
    SortedBy algorithm.comparator (releasedFree Q algorithm ab blocks) := by
  apply settle_sorted
  rintro -
  have sorted := Q.sorted cmpFF (⟨ab.size, ab.startAddr⟩ :: blocks)
  cases list : Q.sort cmpFF (⟨ab.size, ab.startAddr⟩ :: blocks) with
  | nil => exact List.Pairwise.nil
  | cons b rest =>
      rw [list, sortedBy_cmpFF_iff] at sorted
      rw [sortedBy_cmpFF_iff]
      exact sorted.sublist (mergeFrom_starts b rest 0)

/-- **The step lemma: every move restores the order.** -/
theorem Ordered.transition (wf : WellFormed s) (ordered : Ordered s)
    (move : Transition Q s op t) : Ordered t := by
  cases move with
  | kept _ flag set => exact ordered
  | resized fresh positive => exact sortedBy_toList _ (some _)
  | chosen algorithm => exact Q.sorted _ _
  | created positive creation =>
      cases creation with
      | placed found =>
          obtain ⟨split, large, -⟩ := findFit_nil_split found
          have packed := wf.packed.sublist (List.sublist_append_left _ s.ownedExtents)
          unfold Ordered at ordered
          rw [State.freeExtents, split] at packed
          rw [split] at ordered
          exact afterFit_sorted s.maAlgorithm packed ordered positive large
      | refused _ _ => exact ordered
      | lost _ _ _ => exact sortedBy_toList _ (remainder _ _)
  | killed found node => exact releasedFree_sorted _ _ _

/-- **The free list is ordered for the policy in every reachable state.** -/
theorem ordered_of_reachable (reached : ReachableState Q s) : Ordered s := by
  have base : WellFormed initial ∧ Ordered initial :=
    ⟨initial_wellFormed, List.pairwise_singleton _ _⟩
  have preserved : ∀ s op t, WellFormed s ∧ Ordered s → Step Q s op t →
      WellFormed t ∧ Ordered t := by
    rintro s op t ⟨wf, ordered⟩ step
    exact ⟨wf.step step, ordered.transition wf (step_transition wf step)⟩
  exact (reached.invariant (fun s => WellFormed s ∧ Ordered s) base preserved).2

/-! ## Placement -/

/-- **A request that some block fits is served at the start of a block the policy
prefers**, in every reachable state. The call needs no recursion. -/
theorem placement_follows_policy (Q : Qsort) {s : State} (reached : ReachableState Q s)
    {size : Int} (positive : 0 < size) (fits : ∃ b ∈ s.freeBlock, size ≤ b.size)
    (malloced : AllocatedBlock) (fuel : Nat) :
    Ordered s ∧ ∃ b ∈ s.freeBlock, ∃ ret t,
      size ≤ b.size ∧ s.maAlgorithm.Prefers size s.freeBlock b ∧
      newProcess Q (fuel + 1) malloced size s = .ok (ret, t) ∧ (ret = 1 ∨ ret = 2) ∧
      t.allocatedBlockHead = ⟨s.pid + 1, size, b.startAddr⟩ :: s.allocatedBlockHead := by
  have wf := wellFormed_of_reachable reached
  have ordered := ordered_of_reachable reached
  obtain ⟨pre, fbt, next, found⟩ := exists_findFit fits
  obtain ⟨split, large, small⟩ := findFit_nil_split found
  have preferred : s.maAlgorithm.Prefers size s.freeBlock fbt := by
    have sorted := ordered
    unfold Ordered at sorted
    rw [split] at sorted ⊢
    exact prefers_first_fit s.maAlgorithm sorted large small
  refine ⟨ordered, fbt, by simp [split], _, _, large, preferred,
    newProcess_of_fit wf.counted positive found malloced fuel, ?_, rfl⟩
  split_ifs
  · exact .inl rfl
  · exact .inr rfl

/-- Under best fit the request for 90 goes to the block of 100 and not to the
larger one of 824 or to the first one. -/
theorem placement_best_fit :
    ∃ s, session .insertion 1 (dividedSession ++ [.setAlgorithm 2]) initial = .ok s ∧
      s.maAlgorithm = .maBF ∧
      ∃ b ∈ s.freeBlock, ∃ ret t, 90 ≤ b.size ∧ Algorithm.maBF.Prefers 90 s.freeBlock b ∧
        newProcess .insertion 1 ⟨0, 0, 0⟩ 90 s = .ok (ret, t) ∧ (ret = 1 ∨ ret = 2) ∧
        t.allocatedBlockHead = ⟨4, 90, b.startAddr⟩ :: s.allocatedBlockHead := by
  have reached := reachable_of_session .insertion 1 (dividedSession ++ [.setAlgorithm 2])
    Reachable.refl (by decide) rfl
  exact ⟨_, rfl, rfl, (placement_follows_policy .insertion reached (by decide) (by decide)
    ⟨0, 0, 0⟩ 0).2⟩

end OsLab.Partition
