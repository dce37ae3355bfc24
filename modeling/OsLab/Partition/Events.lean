import OsLab.Partition.Disjointness
import OsLab.Partition.Observed

/-!
# What a turn of the menu computes and sorts

Every event of a turn from a well-formed state is regular (`menu_regular`):
`rearrange_by` is called with an exact counter, and every sum and difference lies
between 0 and the size of memory. There is one lemma for each function, and the
bounds come from the memory invariant. A block ends inside memory, so a part of it
does; the sizes in a list add up to at most the memory; two neighbours make up a
range inside memory.

Two results follow for all reachable states. A sort never runs off the end of the
list and never drops a block, it returns a sorted permutation and leaves the
counter exact (`rearrangeBy_keeps_blocks`). With 32-bit entries nothing
overflows, up to a memory of `2 ^ 31 - 1` (`no_overflow`).
-/

set_option autoImplicit false

namespace OsLab.Partition

open OsLab.Foundation

variable {Q : Qsort} {s : State} {m : Int}

/-- The counter is exact at a sort, and a value lies between 0 and the size of
memory. -/
def Event.Regular (memSize : Int) : Event → Prop
  | .sorts _ s => s.Counted
  | .computes value => 0 ≤ value ∧ value ≤ memSize

namespace Observed

open Logged (Only)

theorem int_regular {value : Int} (low : 0 ≤ value) (high : value ≤ m) :
    (int value).Only (Event.Regular m) :=
  .record ⟨low, high⟩ value

theorem rearrangeBy_regular (counted : s.Counted) (c : Comparator FreeBlock) :
    (rearrangeBy Q c s).Only (Event.Regular m) := by
  have regular : (Event.sorts c s).Regular m := counted
  exact .bind (.record regular ()) fun _ _ => .quiet _

theorem rearrange_regular (counted : s.Counted) (algorithm : Algorithm) :
    (rearrange Q algorithm s).Only (Event.Regular m) := by
  cases algorithm with
  | maFF => exact rearrangeBy_regular counted cmpFF
  | maBF => exact rearrangeBy_regular counted cmpBF
  | maWF => exact rearrangeBy_regular counted cmpWF

/-! ## Compaction -/

/-- The running start never passes the end of the last block. -/
theorem relocate_regular {arr : List Nat} (nodup : arr.Nodup)
    {nodes blocks : List AllocatedBlock}
    (pointed : arr.map (fun p => nodes[p]?) = blocks.map some)
    (positive : ∀ b ∈ blocks, 0 < b.size) {nextStart : Int} (low : 0 ≤ nextStart)
    (high : nextStart + ownedSize blocks ≤ m) :
    (relocate arr nextStart nodes).Only (Event.Regular m) := by
  induction arr generalizing nextStart nodes blocks with
  | nil => exact .pure _
  | cons p arr ih =>
      cases blocks with
      | nil => simp at pointed
      | cons b blocks =>
          obtain ⟨node, -, nodup, unwritten⟩ :=
            pointed_cons nodup pointed { b with startAddr := nextStart }
          obtain ⟨size, positive⟩ := List.forall_mem_cons.mp positive
          have others := ownedSize_nonneg positive
          have sum : ownedSize (b :: blocks) = b.size + ownedSize blocks := by simp [ownedSize]
          simp only [relocate, node]
          refine .bind_of_ok (int_regular (by omega) (by omega)) rfl ?_
          exact ih nodup unwritten positive (by omega) (by omega)

theorem compactMemory_regular (wf : WellFormed s) :
    (compactMemory Q s).Only (Event.Regular s.memSize) := by
  have owned := wf.ownedSize_nonneg
  have free := wf.totalFree_nonneg
  have fits := wf.total_le
  by_cases empty : s.allocatedBlockHead.length = 0
  · simp only [compactMemory, empty, ↓reduceIte]
    exact .pure _
  · simp only [compactMemory, empty, ↓reduceIte]
    obtain ⟨blocks, perm, pointed⟩ := exists_pointed (Q := Q) s.allocatedBlockHead
    have positive : ∀ b ∈ blocks, 0 < b.size := fun b member =>
      wf.ownedPositive b (perm.mem_iff.mp member)
    have sizes : ownedSize blocks = ownedSize s.allocatedBlockHead := (perm.map _).sum_eq
    have ends := relocate_end (Q := Q) s.allocatedBlockHead
    unfold sortedPointers at ends pointed
    have room : defaultMemStart + ownedSize blocks ≤ s.memSize := by
      simp only [defaultMemStart]
      omega
    have moves := relocate_regular (sortedPointers_nodup s.allocatedBlockHead) pointed positive
      (le_refl defaultMemStart) room
    refine .bind_of_ok moves (relocate_outcome ..) ?_
    rw [ends]
    split
    next room => exact .bind_of_ok (int_regular (by omega) (by omega)) rfl (.pure _)
    next full => exact .pure _

/-! ## Allocation -/

theorem totalFree_regular {blocks : List FreeBlock} (positive : ∀ b ∈ blocks, 0 < b.size)
    {total : Int} (low : 0 ≤ total) (high : total + Partition.totalFree blocks ≤ m) :
    (totalFree total blocks).Only (Event.Regular m) := by
  induction blocks generalizing total with
  | nil => exact .pure _
  | cons fbt next ih =>
      obtain ⟨size, positive⟩ := List.forall_mem_cons.mp positive
      have others := totalFree_nonneg positive
      have sum : Partition.totalFree (fbt :: next) = fbt.size + Partition.totalFree next := by
        simp [Partition.totalFree]
      refine .bind_of_ok (int_regular (by omega) (by omega)) rfl ?_
      exact ih positive (by omega) (by omega)

/-- What is left of a block that is cut, and where it begins, lie in the block. -/
theorem takeFit_regular {ab : AllocatedBlock} {pre next : List FreeBlock} {fbt : FreeBlock}
    (counted : s.Counted) (split : s.freeBlock = pre ++ fbt :: next) (positive : 0 < ab.size)
    (large : ab.size ≤ fbt.size) (inside : 0 ≤ fbt.startAddr ∧ fbt.startAddr + fbt.size ≤ m) :
    (takeFit Q ab pre fbt next s).Only (Event.Regular m) := by
  obtain ⟨low, high⟩ := inside
  have left : (int (fbt.size - ab.size)).Only (Event.Regular m) :=
    int_regular (by omega) (by omega)
  refine .bind_of_ok left rfl ?_
  by_cases small : fbt.size - ab.size ≤ minSlice
  · simp only [small, ↓reduceIte]
    exact .pure _
  · simp only [small, ↓reduceIte]
    refine .bind_of_ok left rfl (.bind_of_ok (int_regular (by omega) (by omega)) rfl ?_)
    -- the carved list has as many nodes as before
    have len : s.freeBlockLen = s.freeBlock.length := counted
    have carved (rest : FreeBlock) :
        State.Counted { s with freeBlock := pre ++ rest :: next } := by
      simp only [State.Counted, len, split, List.length_append, List.length_cons]
    split
    next first => exact .pure _
    next best => exact .bind (rearrangeBy_regular (carved _) cmpBF) fun _ _ => .pure _
    next worst => exact .bind (rearrangeBy_regular (carved _) cmpWF) fun _ _ => .pure _

/-- Every level of the recursion, also of one that does not end. -/
theorem allocateMem_regular (wf : WellFormed s) {ab : AllocatedBlock} (positive : 0 < ab.size)
    (fuel : Nat) : (allocateMem Q fuel ab s).Only (Event.Regular s.memSize) := by
  induction fuel generalizing s with
  | zero => exact .quiet _
  | succ fuel ih =>
      cases found : findFit ab.size [] s.freeBlock with
      | some result =>
          obtain ⟨pre, fbt, next⟩ := result
          obtain ⟨split, large, -⟩ := findFit_nil_split found
          have member : fbt.extent ∈ s.extents := by
            refine List.mem_append_left _ (List.mem_map_of_mem ?_)
            rw [split]
            exact List.mem_append_right _ List.mem_cons_self
          have takes := takeFit_regular (Q := Q) wf.counted split positive large
            (wf.packed.inside _ member)
          simp only [allocateMem, found]
          exact .bind takes fun _ _ => .pure _
      | none =>
          have fits := wf.total_le
          have owned := wf.ownedSize_nonneg
          simp only [allocateMem, found]
          refine .bind_of_ok (totalFree_regular wf.freePositive le_rfl (by omega))
            (totalFree_outcome 0 s.freeBlock) ?_
          split
          next enough =>
              refine .bind_of_ok (compactMemory_regular wf) (compactMemory_outcome s) ?_
              split
              next failed => exact .pure _
              next success =>
                  have inner := ih (wf.compactMemory (Q := Q))
                  rw [compactMemory_memSize] at inner
                  exact .bind inner fun _ _ => .pure _
          next short => exact .pure _

/-! ## Release -/

/-- The ends and the joint sizes of blocks that are packed together. -/
theorem mergeFrom_regular {pre : FreeBlock} {blocks : List FreeBlock}
    (packed : Packed 0 m (pre.extent :: blocks.map FreeBlock.extent)) (len : Int) :
    (mergeFrom pre blocks len).Only (Event.Regular m) := by
  induction blocks generalizing pre len with
  | nil => exact .pure _
  | cons fbt next ih =>
      have size : 0 < pre.size := packed.head_positive
      obtain ⟨low, high⟩ : 0 ≤ pre.startAddr ∧ pre.startAddr + pre.size ≤ m := packed.head_inside
      refine .bind_of_ok (int_regular (by omega) high) rfl ?_
      by_cases adjacent : pre.startAddr + pre.size = fbt.startAddr
      · simp only [adjacent, ↓reduceIte]
        have joined : Packed 0 m ((⟨pre.size + fbt.size, pre.startAddr⟩ : FreeBlock).extent ::
            next.map FreeBlock.extent) := packed.join adjacent
        have joint : 0 < pre.size + fbt.size := joined.head_positive
        obtain ⟨-, above⟩ : 0 ≤ pre.startAddr ∧ pre.startAddr + (pre.size + fbt.size) ≤ m :=
          joined.head_inside
        exact .bind_of_ok (int_regular (by omega) (by omega)) rfl (ih joined (len - 1))
      · simp only [adjacent, ↓reduceIte]
        exact .bind (ih packed.tail len) fun _ _ => .pure _

theorem mergeAdjacent_regular (packed : Packed 0 m s.freeExtents) :
    (mergeAdjacent s).Only (Event.Regular m) := by
  unfold mergeAdjacent
  cases free : s.freeBlock with
  | nil => exact .pure _
  | cons fbt next =>
      rw [State.freeExtents, free] at packed
      exact .bind (mergeFrom_regular packed s.freeBlockLen) fun _ _ => .pure _

theorem freeMem_regular {ab : AllocatedBlock} (counted : s.Counted)
    (packed : Packed 0 m (ab.extent :: s.freeExtents)) :
    (freeMem Q ab s).Only (Event.Regular m) := by
  have inserted := insertFreeBlock_nil counted ⟨ab.size, ab.startAddr⟩
  have sorted :
      (rearrangeBy Q cmpFF
          (insertFreeBlock [] ⟨ab.size, ab.startAddr⟩ s.freeBlock s)).outcome =
        .ok (s.setFree (Q.sort cmpFF (⟨ab.size, ab.startAddr⟩ :: s.freeBlock))) := by
    rw [rearrangeBy_outcome, inserted, rearrangeBy_eq (setFree_counted _ _)]
    rfl
  have perm : ((Q.sort cmpFF (⟨ab.size, ab.startAddr⟩ :: s.freeBlock)).map FreeBlock.extent).Perm
      (ab.extent :: s.freeExtents) := (Q.perm _ _).map _
  have front : Packed 0 m
      (s.setFree (Q.sort cmpFF (⟨ab.size, ab.startAddr⟩ :: s.freeBlock))).freeExtents :=
    packed.perm perm.symm
  unfold freeMem
  refine .bind_of_ok (rearrangeBy_regular ?_ cmpFF) sorted ?_
  · rw [inserted]
    exact setFree_counted _ _
  refine .bind_of_ok (mergeAdjacent_regular front) (mergeAdjacent_outcome _) ?_
  rw [mergeAdjacent_setFree]
  cases s.maAlgorithm with
  | maFF => exact .pure _
  | maBF => exact .bind (rearrangeBy_regular (setFree_counted _ _) cmpBF) fun _ _ => .pure _
  | maWF => exact .bind (rearrangeBy_regular (setFree_counted _ _) cmpWF) fun _ _ => .pure _

/-! ## The menu -/

theorem newProcess_regular (wf : WellFormed s) {size : Int} (positive : 0 < size) (fuel : Nat)
    (malloced : AllocatedBlock) :
    (newProcess Q fuel malloced size s).Only (Event.Regular s.memSize) := by
  have entered : 0 < if size > 0 then size else malloced.size := by rwa [if_pos positive]
  refine .bind (allocateMem_regular wf.numbered entered fuel) fun result _ => ?_
  obtain ⟨ret, served, t⟩ := result
  dsimp only
  split_ifs <;> exact .pure _

theorem killProcess_regular (wf : WellFormed s) (pid : Int) :
    (killProcess Q pid s).Only (Event.Regular s.memSize) := by
  unfold killProcess
  cases findProcess pid s.allocatedBlockHead with
  | none => exact .pure _
  | some p =>
      cases node : s.allocatedBlockHead[p]? with
      | none =>
          simp only [node]
          exact .quiet _
      | some ab =>
          simp only [node]
          -- the block that is given back is packed together with the free blocks
          have unlinked := (eraseIdx_perm node).map AllocatedBlock.extent
          have front := (wf.packed.perm (unlinked.append_left s.freeExtents)).perm List.perm_middle
          have packed : Packed 0 s.memSize (ab.extent :: s.freeExtents) :=
            front.sublist ((List.sublist_append_left _ _).cons_cons _)
          exact .bind (freeMem_regular wf.counted packed) fun _ _ => .pure _

/-- **Every event of a turn is regular.** -/
theorem menu_regular (wf : WellFormed s) {op : Op} (positive : op.Positive) (fuel : Nat) :
    (menu Q fuel op s).Only (Event.Regular s.memSize) := by
  cases op with
  | setMemSize size => exact .bind (.quiet _) fun _ _ => .pure _
  | setAlgorithm algorithm =>
      have counted : State.Counted
          { s with maAlgorithm := (Algorithm.ofInt? algorithm).getD s.maAlgorithm } := wf.counted
      exact .bind (rearrange_regular counted _) fun _ _ => .pure _
  | newProcess malloced size =>
      exact .bind (newProcess_regular wf positive fuel malloced) fun _ _ => .pure _
  | killProcess pid => exact .bind (killProcess_regular wf pid) fun _ _ => .pure _
  | displayMemUsage => exact .pure _

end Observed

/-! ## Sorting loses nothing -/

/-- **`rearrange_by` never loses or invents a block.** The observed turn is the
turn. At every call of `rearrange_by` in it, also in a turn that does not come back,
the counter is the number of nodes, the copy loop copies the whole list without
running off its end, and the result is a sorted permutation with an exact
counter. -/
theorem rearrangeBy_keeps_blocks (Q : Qsort) {s : State} (reached : ReachableState Q s) {op : Op}
    (positive : op.Positive) (fuel : Nat) :
    (Observed.menu Q fuel op s).outcome = menu Q fuel op s ∧
      ∀ (c : Comparator FreeBlock) (u : State),
        .sorts c u ∈ (Observed.menu Q fuel op s).log →
          u.freeBlockLen = u.freeBlock.length ∧
          copyNodes u.freeBlockLen.toNat u.freeBlock = .ok u.freeBlock ∧
          ∃ t, rearrangeBy Q c u = .ok t ∧ t.freeBlock.Perm u.freeBlock ∧
            SortedBy c t.freeBlock ∧ t.freeBlockLen = t.freeBlock.length := by
  have wf := wellFormed_of_reachable reached
  refine ⟨Observed.menu_outcome fuel op s, fun c u call => ?_⟩
  have counted : u.Counted := Observed.menu_regular wf positive fuel _ call
  have len : u.freeBlockLen.toNat = u.freeBlock.length := by
    rw [counted]
    exact Int.toNat_natCast _
  refine ⟨counted, ?_, _, rearrangeBy_eq counted c, Q.perm c _, Q.sorted c _, rfl⟩
  rw [len]
  exact copyNodes_length _

/-- Two processes under best fit. -/
def twoProcesses : State :=
  ⟨1024, .maBF, 2, 1, [⟨724, 300⟩], 1, [⟨2, 200, 100⟩, ⟨1, 100, 0⟩]⟩

/-- The termination of the first process sorts by size after the merging loop. -/
theorem rearrangeBy_keeps_blocks_best_fit :
    ReachableState .insertion twoProcesses ∧
      .sorts cmpBF { twoProcesses with freeBlock := [⟨100, 0⟩, ⟨724, 300⟩], freeBlockLen := 2 } ∈
        (Observed.menu .insertion 1 (.killProcess 1) twoProcesses).log ∧
      ∃ t, rearrangeBy .insertion cmpBF
          { twoProcesses with freeBlock := [⟨100, 0⟩, ⟨724, 300⟩], freeBlockLen := 2 } = .ok t ∧
        t.freeBlock.Perm [⟨100, 0⟩, ⟨724, 300⟩] ∧ SortedBy cmpBF t.freeBlock ∧
        t.freeBlockLen = t.freeBlock.length := by
  have reached : ReachableState .insertion twoProcesses :=
    reachable_of_session .insertion 1 [.newProcess ⟨0, 0, 0⟩ 100, .newProcess ⟨0, 0, 0⟩ 200,
      .setAlgorithm 2] Reachable.refl (by decide) rfl
  have terminates : (Op.killProcess 1).Positive := trivial
  have keeps := (rearrangeBy_keeps_blocks .insertion reached terminates 1).2
  have call : .sorts cmpBF
      { twoProcesses with freeBlock := [⟨100, 0⟩, ⟨724, 300⟩], freeBlockLen := 2 } ∈
      (Observed.menu .insertion 1 (.killProcess 1) twoProcesses).log :=
    List.mem_of_getElem? (i := 2) rfl
  exact ⟨reached, call, (keeps cmpBF _ call).2.2⟩

/-! ## Nothing overflows -/

/-- A value of a 32-bit `int`. -/
def IsInt (value : Int) : Prop := -2 ^ 31 ≤ value ∧ value ≤ 2 ^ 31 - 1

instance : DecidablePred IsInt := fun value =>
  inferInstanceAs (Decidable (-2 ^ 31 ≤ value ∧ value ≤ 2 ^ 31 - 1))

/-- What the user enters is read into an `int`. -/
def Op.Entered : Op → Prop
  | .setMemSize size => IsInt size
  | .setAlgorithm algorithm => IsInt algorithm
  | .newProcess _ size => IsInt size
  | .killProcess pid => IsInt pid
  | .displayMemUsage => True

/-- A menu operation with a positive size and an entry that is an `int`. -/
def EnteredStep (Q : Qsort) (s : State) (op : Op) (t : State) : Prop :=
  op.Entered ∧ Step Q s op t

/-- Only `set_mem_size` changes the size of memory. -/
theorem Transition.memSize {op : Op} {t : State} (move : Transition Q s op t) :
    t.memSize = s.memSize ∨ op = .setMemSize t.memSize := by
  cases move with
  | kept _ _ _ => exact .inl rfl
  | resized _ _ => exact .inr rfl
  | chosen _ => exact .inl rfl
  | created _ creation =>
      cases creation with
      | placed _ => exact .inl rfl
      | refused _ _ => exact .inl rfl
      | lost _ _ _ => exact .inl rfl
  | killed _ _ => exact .inl rfl

/-- With 32-bit entries the memory is at most the largest `int`. -/
theorem memSize_isInt_of_reachable (reached : Reachable (EnteredStep Q) initial s) :
    WellFormed s ∧ IsInt s.memSize := by
  refine reached.invariant (fun s => WellFormed s ∧ IsInt s.memSize)
    ⟨initial_wellFormed, by decide⟩ ?_
  rintro s op t ⟨wf, sized⟩ ⟨entered, step⟩
  refine ⟨wf.step step, ?_⟩
  rcases (step_transition wf step).memSize with same | rfl
  · rw [same]
    exact sized
  · exact entered

/-- **No sum or difference overflows.** After any run with 32-bit entries the size of
memory is between 1 and `2 ^ 31 - 1`, and all values that a turn computes, at every
level of the recursion of `allocate_mem`, lie between 0 and the size of memory. -/
theorem no_overflow (Q : Qsort) {s : State} (reached : Reachable (EnteredStep Q) initial s)
    {op : Op} (positive : op.Positive) (fuel : Nat) :
    (Observed.menu Q fuel op s).outcome = menu Q fuel op s ∧
      1 ≤ s.memSize ∧ s.memSize ≤ 2 ^ 31 - 1 ∧
      ∀ value, .computes value ∈ (Observed.menu Q fuel op s).log →
        0 ≤ value ∧ value ≤ s.memSize ∧ IsInt value := by
  obtain ⟨wf, sized⟩ := memSize_isInt_of_reachable reached
  refine ⟨Observed.menu_outcome fuel op s, wf.sized, sized.2, fun value computed => ?_⟩
  obtain ⟨low, high⟩ : 0 ≤ value ∧ value ≤ s.memSize :=
    Observed.menu_regular wf positive fuel _ computed
  have largest := sized.2
  exact ⟨low, high, by omega, by omega⟩

/-- The largest memory with a process of 100 addresses behind 100 free ones. -/
def largest : State :=
  ⟨2147483647, .maFF, 3, 1, [⟨100, 0⟩, ⟨2147483447, 200⟩], 2, [⟨2, 100, 100⟩]⟩

theorem largest_reachable : Reachable (EnteredStep .insertion) initial largest := by
  let turns : List Op := [.setMemSize 2147483647, .newProcess ⟨0, 0, 0⟩ 100,
    .newProcess ⟨0, 0, 0⟩ 100, .newProcess ⟨0, 0, 0⟩ 2147483447, .killProcess 1, .killProcess 3]
  have entered : ∀ op ∈ turns, op.Entered ∧ op.Positive := by
    simp [turns, Op.Entered, Op.Positive, IsInt]
  have done : session .insertion 1 turns initial = .ok largest := rfl
  exact reached_of_session (fun _ _ _ allowed turn => ⟨allowed.1, allowed.2, 1, turn⟩) .refl
    entered done

/-- In the largest memory a request for all but 47 addresses is compacted, and the termination
of the process between the two free blocks merges three. -/
theorem no_overflow_largest :
    .computes 2147483547 ∈
        (Observed.menu .insertion 2 (.newProcess ⟨0, 0, 0⟩ 2147483500) largest).log ∧
      IsInt 2147483547 ∧
      .computes 2147483647 ∈ (Observed.menu .insertion 1 (.killProcess 2) largest).log ∧
      IsInt 2147483647 := by
  have bounds {op : Op} (positive : op.Positive) (fuel : Nat) :=
    (no_overflow .insertion largest_reachable positive fuel).2.2.2
  have gathered : .computes 2147483547 ∈
      (Observed.menu .insertion 2 (.newProcess ⟨0, 0, 0⟩ 2147483500) largest).log :=
    List.mem_of_getElem? (i := 3) rfl
  have merged : .computes 2147483647 ∈
      (Observed.menu .insertion 1 (.killProcess 2) largest).log :=
    List.mem_of_getElem? (i := 4) rfl
  have requests : (Op.newProcess ⟨0, 0, 0⟩ 2147483500).Positive := by decide
  have ends : (Op.killProcess 2).Positive := trivial
  exact ⟨gathered, (bounds requests 2 _ gathered).2.2, merged,
    (bounds ends 1 _ merged).2.2⟩

end OsLab.Partition
