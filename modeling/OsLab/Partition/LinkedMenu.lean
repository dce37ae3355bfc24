import OsLab.Foundation.Agreement
import OsLab.Partition.LinkedOwned

/-!
# The functions of the program on the heap

`Represents` relates the memory to a state of the model of the lists: the variables agree, the
nodes of the two lists hold the same values, and nothing else is live but the `loose`
descriptors. A function agrees (`Agrees`) with the function of the same name on lists when both
return and the results are represented, or neither does because the recursion of `allocate_mem`
does not come back. In particular it uses neither `NULL` nor a node that is not live.

The loops over the lists need rounds for the nodes (`Short`).
-/

set_option autoImplicit false

namespace OsLab.Partition.Linked

open OsLab.Foundation

variable {A : Allocator} {Q : Qsort} {m : Memory} {s : State} {loose : Finset Nat} {n fuel : Nat}

/-- The descriptors in the list and the loose ones are all that is live. -/
def OwnedList (m : Memory) (loose : Finset Nat) (blocks : List AllocatedBlock) : Prop :=
  ∃ nodes, Owned m.descriptors m.allocatedBlockHead nodes loose ∧ vals nodes = blocks

/-- The memory holds the state. -/
structure Represents (m : Memory) (s : State) (loose : Finset Nat) : Prop where
  memSize : m.memSize = s.memSize
  maAlgorithm : m.maAlgorithm = s.maAlgorithm
  pid : m.pid = s.pid
  flag : m.flag = s.flag
  free : FreeList m s.freeBlock
  owned : OwnedList m loose s.allocatedBlockHead

/-- The lists a program can have after `n` operations. -/
structure Short (n : Nat) (s : State) : Prop where
  free : s.freeBlock.length ≤ n + 1
  owned : s.allocatedBlockHead.length ≤ n

/-- Neither call comes back. -/
def Diverge (stop : Stop) (fault : Fault) : Prop := stop = .outOfFuel ∧ fault = .outOfFuel

/-- The call on lists and the call on the heap come to the same. -/
abbrev Agrees {α β : Type} : (α → β → Prop) → Exec α → Attempt β → Prop := Agree Diverge

/-- The same return value, and the memory holds the state. -/
def Same (result : Int × State) (result' : Int × Memory) : Prop :=
  result'.1 = result.1 ∧ Represents result'.2 result.2 ∅

/-! ## The relation -/

/-- The free list is replaced. -/
theorem Represents.setFree (rep : Represents m s loose) {blocks : List FreeBlock} {head : Ptr}
    {len : Int} {h : Heap FreeBlock} (free : FreeIn h head len blocks) :
    Represents { m with freeBlock := head, freeBlockLen := len, freeNodes := h }
      (s.setFree blocks) loose where
  memSize := rep.memSize
  maAlgorithm := rep.maAlgorithm
  pid := rep.pid
  flag := rep.flag
  free := free
  owned := rep.owned

/-- A function that changes the free list alone. -/
theorem Represents.leavesFree (rep : Represents m s loose) {blocks : List FreeBlock}
    {r : Attempt Memory} (leaves : LeavesFree m blocks r) :
    ∃ t, r = .ok t ∧ Represents t (s.setFree blocks) loose ∧ t.descriptors = m.descriptors := by
  obtain ⟨head, len, h, returned, free⟩ := leaves
  exact ⟨_, returned, rep.setFree free, rfl⟩

/-- The flag is set at the end of a turn. -/
theorem Represents.flagged (rep : Represents m s loose) :
    Represents { m with flag := 1 } { s with flag := 1 } loose where
  memSize := rep.memSize
  maAlgorithm := rep.maAlgorithm
  pid := rep.pid
  flag := rfl
  free := rep.free
  owned := rep.owned

/-- The head is `NULL` when the list is empty. -/
theorem Represents.head_eq_none_iff (rep : Represents m s loose) :
    m.allocatedBlockHead = none ↔ s.allocatedBlockHead = [] := by
  obtain ⟨nodes, owned, same⟩ := rep.owned
  rw [owned.head_eq_none_iff, same]

theorem Represents.free_eq_none_iff (rep : Represents m s loose) :
    m.freeBlock = none ↔ s.freeBlock = [] := by
  obtain ⟨-, nodes, owned, same⟩ := rep.free
  rw [owned.head_eq_none_iff, same]

/-- The node with a value in the middle of the list. -/
theorem split_nodes {α : Type} {nodes : List (Nat × α)} {pre next : List α} {x : α}
    (shape : vals nodes = pre ++ x :: next) :
    ∃ before a after, nodes = before ++ (a, x) :: after ∧ vals before = pre ∧
      vals after = next := by
  obtain ⟨before, rest, rfl, rfl, tail⟩ := List.map_eq_append_iff.mp shape
  obtain ⟨⟨a, x⟩, after, rfl, rfl, rfl⟩ := List.map_eq_cons_iff.mp tail
  exact ⟨before, a, after, rfl, rfl, rfl⟩

/-! ## Compaction -/

/-- Compaction makes neither list too long. -/
theorem Short.compactMemory (short : Short n s) : Short n (Partition.compactMemory Q s).2 := by
  by_cases empty : s.allocatedBlockHead = []
  · rw [compactMemory_of_empty empty]
    exact short
  · rw [compactMemory_eq empty]
    refine ⟨?_, ?_⟩
    · have few : (compactedFree s).toList.length ≤ 1 := by
        cases compactedFree s <;> simp
      rw [setFree_freeBlock]
      omega
    · rw [setFree_allocatedBlockHead, movedBlocks_length]
      exact short.owned

/-- **`compact_memory` on the heap.** All free nodes are freed, the descriptors stay where they
are and get new start addresses. -/
theorem compactMemory_spec (wf : WellFormed s) (rep : Represents m s loose) (short : Short n s)
    (enough : n + 1 < fuel) :
    ∃ t, compactMemory A Q fuel m = .ok (1, t) ∧
      Represents t (Partition.compactMemory Q s).2 loose ∧
      ∀ a ∈ loose, t.descriptors.lookup a = m.descriptors.lookup a := by
  obtain ⟨nodes, owned, same⟩ := rep.owned
  have length : nodes.length = s.allocatedBlockHead.length := by rw [← same, vals_length]
  have few := short.owned
  have walked := walk_spec owned.seg (show nodes.length < fuel by omega)
  by_cases empty : s.allocatedBlockHead = []
  · rw [compactMemory_of_empty empty]
    refine ⟨m, ?_, rep, fun _ _ => rfl⟩
    rw [empty, List.length_nil] at length
    simp only [compactMemory, countNodes, walked, length, bind, Except.bind, if_true]
  · have nonempty : nodes.length ≠ 0 := by
      rw [length]
      exact fun zero => empty (List.length_eq_zero_iff.mp zero)
    have distinct := starts_distinct wf
    rw [← same] at distinct
    have inside : ∀ i ∈ sortedPointers Q (vals nodes), i < nodes.length := by
      intro i member
      have inRange := (Q.perm _ _).mem_iff.mp member
      rwa [List.mem_range, vals_length] at inRange
    obtain ⟨descriptors, nodes', relocated, owned', moved, untouched⟩ :=
      relocate_spec defaultMemStart owned inside
    rw [← sort_addrs owned.seg distinct, relocate_end, same] at relocated
    rw [same] at moved
    obtain ⟨len, freeNodes, ownedFree, sameFree⟩ := rep.free
    have count : freeNodes.length < fuel := by
      have total : freeNodes.length = s.freeBlock.length := by rw [← sameFree, vals_length]
      have := short.free
      omega
    obtain ⟨emptied, freed, nothing⟩ := freeAll_spec ownedFree count
    rw [compactMemory_eq empty]
    simp only [compactMemory, countNodes, collect, walked, nonempty, if_false, relocated, freed,
      bind, Except.bind]
    by_cases room : ownedSize s.allocatedBlockHead < s.memSize
    · have room' : ownedSize s.allocatedBlockHead < m.memSize := rep.memSize.symm ▸ room
      simp only [room', if_true]
      obtain ⟨more, live, fresh⟩ := nothing.malloc A
        ⟨⟨m.memSize - ownedSize s.allocatedBlockHead, ownedSize s.allocatedBlockHead⟩, none⟩
      have single := more.adopt_first (Finset.mem_insert_self _ ∅) live
      rw [Finset.erase_insert fresh] at single
      refine ⟨_, rfl, ⟨rep.memSize, rep.maAlgorithm, rep.pid, rep.flag, ⟨?_, _, single, ?_⟩,
        nodes', owned', moved⟩, untouched⟩
      · simp [compactedFree, room]
      · simp [compactedFree, room, gathered, rep.memSize]
    · have room' : ¬ ownedSize s.allocatedBlockHead < m.memSize := rep.memSize.symm ▸ room
      simp only [room', if_false]
      refine ⟨_, rfl, ⟨rep.memSize, rep.maAlgorithm, rep.pid, rep.flag, ⟨?_, [], nothing, ?_⟩,
        nodes', owned', moved⟩, untouched⟩
      · simp [compactedFree, room]
      · simp [compactedFree, room]

/-! ## Allocation -/

/-- The start address of a loose descriptor is written. -/
theorem Represents.place (rep : Represents m s loose) {d : Nat} (member : d ∈ loose)
    (ab : AllocatedBlock) (link : Ptr) (startAddr : Int) :
    Represents (m.place d ab link startAddr) s loose := by
  obtain ⟨nodes, owned, same⟩ := rep.owned
  exact ⟨rep.memSize, rep.maAlgorithm, rep.pid, rep.flag, rep.free, nodes,
    owned.store_loose member _, same⟩

/-- What `allocate_mem` returns, with the descriptor at `d`. -/
def Placed (loose : Finset Nat) (d : Nat) (link : Ptr) (result : Int × AllocatedBlock × State)
    (result' : Int × Memory) : Prop :=
  result'.1 = result.1 ∧ (result.1 = 1 ∨ result.1 = -1) ∧
    Represents result'.2 result.2.2 loose ∧
    result'.2.descriptors.lookup d = some ⟨result.2.1, link⟩

/-- **`allocate_mem` on the heap**, by induction on the depth of its recursion. -/
theorem allocateMem_agrees (wf : WellFormed s) (rep : Represents m s loose) (short : Short n s)
    (enough : n + 1 < fuel) {d : Nat} (member : d ∈ loose) {ab : AllocatedBlock} {link : Ptr}
    (descriptor : m.descriptors.lookup d = some ⟨ab, link⟩) (depth : Nat) :
    Agrees (Placed loose d link) (Partition.allocateMem Q depth ab s)
      (allocateMem A Q fuel depth (some d) m) := by
  induction depth generalizing m s with
  | zero => exact .stops ⟨rfl, rfl⟩
  | succ depth ih =>
      obtain ⟨len, nodes, owned, same⟩ := rep.free
      have length : nodes.length = s.freeBlock.length := by rw [← same, vals_length]
      have rounds : nodes.length < fuel := by
        have := short.free
        omega
      simp only [allocateMem, load_of_lookup descriptor, bind, Except.bind]
      rcases fit_cases ab.size s.freeBlock with
        ⟨pre, fbt, next, found⟩ | ⟨unfit, scarce⟩ | ⟨unfit, plenty⟩
      · obtain ⟨split, large, small⟩ := findFit_nil_split found
        obtain ⟨before, a, after, rfl, rfl, rfl⟩ := split_nodes (same.trans split)
        rw [List.length_append] at rounds
        have scanned :=
          scan_found none owned.seg small large (show before.length < fuel by omega)
        rw [Option.or_none] at scanned
        rw [← same, vals_length] at len
        have taken := takeFit_leaves (A := A) (Q := Q) descriptor owned len
        obtain ⟨t, returned, held, kept⟩ :=
          (rep.place member ab link fbt.startAddr).leavesFree taken
        rw [allocateMem_of_fit wf.counted found]
        simp only [scanned, returned]
        refine .returns ⟨rfl, .inl rfl, rep.maAlgorithm ▸ held, ?_⟩
        rw [kept]
        exact Finmap.lookup_insert _
      · have tooSmall := findFit_eq_none_iff.mp unfit
        rw [← same] at tooSmall
        have scanned := scan_none none owned.seg tooSmall rounds
        have walked := walk_spec owned.seg rounds
        have notEnough : ¬ Partition.totalFree s.freeBlock ≥ ab.size := not_le.mpr scarce
        rw [allocateMem_of_short unfit scarce]
        simp only [scanned, totalFree, walked, same, notEnough, if_false, bind, Except.bind]
        exact .returns ⟨rfl, .inr rfl, rep, descriptor⟩
      · have tooSmall := findFit_eq_none_iff.mp unfit
        rw [← same] at tooSmall
        have scanned := scan_none none owned.seg tooSmall rounds
        have walked := walk_spec owned.seg rounds
        obtain ⟨t, compacted, held, untouched⟩ :=
          compactMemory_spec (A := A) (Q := Q) wf rep short enough
        have inner := ih wf.compactMemory held short.compactMemory
          ((untouched d member).trans descriptor)
        rw [allocateMem_of_unfit unfit plenty]
        simp only [scanned, totalFree, walked, same, ge_iff_le, plenty, if_true, compacted, ne_eq,
          not_true_eq_false, if_false, bind, Except.bind]
        rcases inner.outcomes with
          ⟨result, result', ran, ran', values⟩ | ⟨stop, fault, ran, ran', reasons⟩
        · rw [ran, ran']
          exact .returns ⟨rfl, .inr rfl, values.2.2⟩
        · rw [ran, ran']
          exact .stops reasons

/-! ## Processes -/

/-- **`new_process` on the heap.** The descriptor is linked to the front of the list or freed. -/
theorem newProcess_agrees (wf : WellFormed s) (rep : Represents m s ∅) (short : Short n s)
    (enough : n + 2 < fuel) (depth : Nat) (malloced : AllocatedBlock) (size : Int) :
    Agrees Same (Partition.newProcess Q depth malloced size s)
      (newProcess A Q fuel depth malloced size m) := by
  obtain ⟨nodes, owned, same⟩ := rep.owned
  obtain ⟨more, live, fresh⟩ :=
    owned.malloc A ⟨descriptor (requested size malloced) malloced s, none⟩
  obtain ⟨d, h, made⟩ : ∃ d h, malloc A m.descriptors
      ⟨descriptor (requested size malloced) malloced s, none⟩ = (d, h) := ⟨_, _, rfl⟩
  rw [made] at more live fresh
  have member := Finset.mem_insert_self d ∅
  have emptied : (insert d (∅ : Finset Nat)).erase d = ∅ := Finset.erase_insert fresh
  have numbered :
      Represents { m with pid := m.pid + 1, descriptors := h } s.numbered (insert d ∅) :=
    ⟨rep.memSize, rep.maAlgorithm, congrArg (· + 1) rep.pid, rep.flag, rep.free, nodes, more, same⟩
  have inner := allocateMem_agrees (A := A) (Q := Q) wf.numbered numbered ⟨short.free, short.owned⟩
    (Nat.lt_of_succ_lt enough) member live depth
  unfold descriptor requested at made
  rw [newProcess_eq_register]
  simp only [newProcess, rep.pid, made, bind, Except.bind]
  rw [← rep.pid] at *
  rcases inner.outcomes with
    ⟨⟨ret, served, t⟩, ⟨ret', t'⟩, ran, ran', values⟩ | ⟨stop, fault, ran, ran', reasons⟩
  · obtain ⟨sameRet, either, held, placed⟩ := values
    obtain ⟨nodes', owned', same'⟩ := held.owned
    rw [ran, ran']
    simp only [Except.map, register]
    simp only at sameRet either held placed
    subst sameRet
    have noHead := held.head_eq_none_iff
    rcases either with rfl | rfl
    · by_cases empty : t.allocatedBlockHead = []
      · have null := noHead.mpr empty
        have linked := owned'.adopt_first member (null ▸ placed)
        rw [emptied] at linked
        simp only [null, empty, and_self, if_true]
        refine .returns ⟨rfl, held.memSize, held.maAlgorithm, held.pid, held.flag, held.free, _,
          linked, ?_⟩
        rw [vals_cons, same', empty]
      · have notNull : ¬ t'.allocatedBlockHead = none := mt noHead.mp empty
        have linked := owned'.link_first member served
        rw [emptied] at linked
        simp only [notNull, empty, and_false, if_false, if_true, load_of_lookup placed,
          store_of_mem (mem_of_lookup placed)]
        refine .returns ⟨rfl, held.memSize, held.maAlgorithm, held.pid, held.flag, held.free, _,
          linked, ?_⟩
        rw [vals_cons, same']
    · have freed := owned'.release_loose member
      rw [emptied] at freed
      have failed : ¬ (-1 : Int) = 1 := by decide
      simp only [failed, false_and, if_false, if_true, release_of_mem (mem_of_lookup placed)]
      exact .returns ⟨rfl, held.memSize, held.maAlgorithm, held.pid, held.flag, held.free, _, freed,
        same'⟩
  · rw [ran, ran']
    exact .stops reasons

/-- **`kill_process` on the heap.** -/
theorem killProcess_agrees (wf : WellFormed s) (rep : Represents m s ∅) (short : Short n s)
    (enough : n + 2 < fuel) (pid : Int) :
    Agrees (fun t t' => Represents t' t ∅) (Partition.killProcess Q pid s)
      (killProcess A Q fuel pid m) := by
  obtain ⟨nodes, owned, same⟩ := rep.owned
  have length : nodes.length = s.allocatedBlockHead.length := by rw [← same, vals_length]
  have few := short.owned
  have searched := findProcess_spec pid owned.seg (show nodes.length < fuel by omega)
  rw [same] at searched
  cases found : Partition.findProcess pid s.allocatedBlockHead with
  | none =>
      rw [killProcess_of_unknown found]
      simp only [killProcess, searched, found, Option.bind_none, bind, Except.bind]
      exact .returns rep
  | some p =>
      obtain ⟨ab, node, -⟩ := findProcess_some found
      rw [killProcess_eq wf.counted found node]
      obtain ⟨inside, -⟩ := List.getElem?_eq_some_iff.mp node
      obtain ⟨before, a, x, after, rfl, rfl⟩ := split_at (length ▸ inside)
      obtain rfl : x = ab := by
        rw [← same] at node
        simpa [vals] using node
      obtain ⟨link, live, -⟩ := owned.seg.middle
      have free := short.free
      have rounds : s.freeBlock.length + 1 < fuel := by omega
      obtain ⟨t, released, head, len, h, done, held⟩ :=
        freeMem_leaves (A := A) (Q := Q) rep.free live rounds
      cases done
      obtain ⟨ret, head', h', disposed, owned'⟩ := dispose_spec
        (m := { m with freeBlock := head, freeBlockLen := len, freeNodes := h }) owned
        (show before.length < fuel by omega)
      have pointer : (addrs (before ++ (a, x) :: after))[before.length]? = some a := by simp [addrs]
      simp only [killProcess, searched, found, Option.bind_some, pointer, released, disposed, bind,
        Except.bind]
      refine .returns ⟨rep.memSize, rep.maAlgorithm, rep.pid, rep.flag, rep.maAlgorithm ▸ held, _,
        owned', ?_⟩
      rw [setFree_allocatedBlockHead, ← same]
      simp [vals, List.eraseIdx_append_of_length_le]

/-! ## Settings -/

theorem setMemSize_agrees (wf : WellFormed s) (rep : Represents m s ∅) (size : Int) :
    Agrees Same (Partition.setMemSize size s) (setMemSize size m) := by
  simp only [Partition.setMemSize, setMemSize, rep.flag]
  by_cases fixed : s.flag ≠ 0
  · rw [if_pos fixed, if_pos fixed]
    exact .returns ⟨rfl, rep⟩
  · rw [if_neg fixed, if_neg fixed]
    by_cases positive : size > 0
    · have fresh : s.flag = 0 := not_ne_iff.mp fixed
      obtain ⟨len, nodes, owned, same⟩ := rep.free
      rw [(wf.untouched fresh).1] at same len ⊢
      obtain ⟨⟨a, x⟩, after, rfl, rfl, noneAfter⟩ := List.map_eq_cons_iff.mp same
      obtain rfl := List.map_eq_nil_iff.mp noneAfter
      rw [← List.nil_append [(a, _)]] at owned
      rw [if_pos positive, if_pos positive]
      obtain ⟨next, live, written⟩ := owned.modify ⟨size, defaultMemStart⟩
      simp only [owned.head_eq, load_of_lookup live, store_of_mem (mem_of_lookup live), bind,
        Except.bind]
      exact .returns ⟨rfl, rfl, rep.maAlgorithm, rep.pid, rfl,
        ⟨len, _, owned.head_eq ▸ written, rfl⟩, rep.owned⟩
    · rw [if_neg positive, if_neg positive]
      exact .returns ⟨rfl, rep.flagged⟩

theorem rearrange_eq (algorithm : Algorithm) (m : Memory) :
    rearrange A Q algorithm m = rearrangeBy A Q algorithm.comparator m := by
  cases algorithm <;> rfl

theorem setAlgorithm_agrees (wf : WellFormed s) (rep : Represents m s ∅) (algorithm : Int) :
    Agrees (fun t t' => Represents t' t ∅) (Partition.setAlgorithm Q algorithm s)
      (setAlgorithm A Q algorithm m) := by
  have chosen : (Algorithm.ofInt? algorithm).getD m.maAlgorithm =
      (Algorithm.ofInt? algorithm).getD s.maAlgorithm := by rw [rep.maAlgorithm]
  simp only [Partition.setAlgorithm, setAlgorithm, rearrange_eq_rearrangeBy, rearrange_eq, chosen]
  generalize (Algorithm.ofInt? algorithm).getD s.maAlgorithm = policy
  have set : Represents { m with maAlgorithm := policy } { s with maAlgorithm := policy } ∅ :=
    ⟨rep.memSize, rfl, rep.pid, rep.flag, rep.free, rep.owned⟩
  obtain ⟨t, returned, held, -⟩ := set.leavesFree
    (rearrangeBy_leaves (A := A) (Q := Q) set.free policy.comparator)
  rw [Partition.rearrangeBy_eq (s := { s with maAlgorithm := policy }) wf.counted, returned]
  exact .returns held

/-- `display_mem_usage` prints the two lists, unless nothing is free. -/
theorem displayMemUsage_spec (rep : Represents m s ∅) (short : Short n s)
    (enough : n + 2 < fuel) :
    displayMemUsage fuel m = .ok (if s.freeBlock = [] then (-1, [], [])
      else (0, s.freeBlock, s.allocatedBlockHead)) := by
  obtain ⟨-, free, ownedFree, sameFree⟩ := rep.free
  obtain ⟨nodes, owned, same⟩ := rep.owned
  have shortFree := short.free
  have shortOwned := short.owned
  rw [← sameFree, vals_length] at shortFree
  rw [← same, vals_length] at shortOwned
  have walkedFree := walk_spec ownedFree.seg (show free.length < fuel by omega)
  have walked := walk_spec owned.seg (show nodes.length < fuel by omega)
  have null := rep.free_eq_none_iff
  by_cases empty : s.freeBlock = []
  · simp only [displayMemUsage, null, empty, if_true]
  · simp only [displayMemUsage, null, empty, if_false, walkedFree, walked, sameFree, same, bind,
      Except.bind]

end OsLab.Partition.Linked
