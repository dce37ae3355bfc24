import OsLab.Partition.LinkedFree
import OsLab.Partition.Disjointness

/-!
# The allocated list on the heap

The functions that follow the list of descriptors: `find_process`, `dispose` and
`compact_memory`. The descriptor a caller is about to fill is not in the list, it is one of the
`loose` nodes, and stays as it is.

`compact_memory` sorts pointers where the model of the lists sorts positions. The orders agree
because no two blocks start at the same address (`sort_addrs`), and then a write through a
pointer is a write at its position (`relocate_spec`).
-/

set_option autoImplicit false

namespace OsLab.Partition.Linked

open OsLab.Foundation

variable {α : Type} {A : Allocator} {Q : Qsort} {m : Memory} {loose : Finset Nat}

/-! ## Walking along the list -/

/-- The pointer that is found points to the node at the position that is found. -/
theorem findProcess_spec (pid : Int) {h : Heap AllocatedBlock} {p : Ptr}
    {nodes : List (Nat × AllocatedBlock)} {fuel : Nat} (seg : Seg h p nodes none)
    (enough : nodes.length < fuel) :
    findProcess pid fuel h p =
      .ok ((Partition.findProcess pid (vals nodes)).bind fun i => (addrs nodes)[i]?) := by
  induction nodes generalizing p fuel with
  | nil =>
      have null : p = none := seg
      subst null
      obtain ⟨fuel, rfl⟩ := Nat.exists_eq_add_of_lt enough
      rfl
  | cons node rest ih =>
      obtain ⟨b, y⟩ := node
      obtain ⟨rfl, next, live, later⟩ := seg
      rw [List.length_cons] at enough
      obtain ⟨fuel, rfl⟩ := Nat.exists_eq_add_of_lt (Nat.zero_lt_of_lt enough)
      simp only [Nat.zero_add, findProcess, load_of_lookup live, bind, Except.bind, vals_cons,
        addrs_cons, Partition.findProcess]
      by_cases found : y.pid = pid
      · simp [found]
      · have others := ih later (show rest.length < fuel by omega)
        simp only [found, if_false, others]
        cases Partition.findProcess pid (vals rest) <;> simp

/-! ## Removing a descriptor -/

/-- The loop of `dispose` comes to the node, with the one before it. -/
theorem follow_spec {h : Heap AllocatedBlock} {p : Ptr} {before after : List (Nat × AllocatedBlock)}
    {a : Nat} {x : AllocatedBlock} {fuel : Nat} (pre : Ptr)
    (seg : Seg h p (before ++ (a, x) :: after) none) (absent : a ∉ addrs before)
    (enough : before.length < fuel) :
    follow (some a) fuel h pre p = .ok ((lastPtr before).or pre, some a) := by
  induction before generalizing p pre fuel with
  | nil =>
      obtain ⟨rfl, -⟩ := seg
      obtain ⟨fuel, rfl⟩ := Nat.exists_eq_add_of_lt enough
      simp [follow]
  | cons node rest ih =>
      obtain ⟨b, y⟩ := node
      obtain ⟨rfl, next, live, later⟩ := seg
      rw [addrs_cons, List.mem_cons, not_or] at absent
      rw [List.length_cons] at enough
      obtain ⟨fuel, rfl⟩ := Nat.exists_eq_add_of_lt (Nat.zero_lt_of_lt enough)
      have other : ¬ some b = some a := fun same => absent.1 (Option.some.inj same).symm
      have others := ih (some b) later absent.2 (show rest.length < fuel by omega)
      simp only [Nat.zero_add, follow, other, if_false, load_of_lookup live, others, bind,
        Except.bind, lastPtr_or b y rest pre]

/-- **`dispose` unlinks and frees the descriptor.** -/
theorem dispose_spec {a : Nat} {x : AllocatedBlock} {before after : List (Nat × AllocatedBlock)}
    {fuel : Nat}
    (owned : Owned m.descriptors m.allocatedBlockHead (before ++ (a, x) :: after) loose)
    (enough : before.length < fuel) :
    ∃ ret head h, dispose fuel (some a) m =
        .ok (ret, { m with allocatedBlockHead := head, descriptors := h }) ∧
      Owned h head (before ++ after) loose := by
  have member := Finset.mem_insert_self a loose
  have absent : a ∉ loose := owned.notMem_loose
  rcases List.eq_nil_or_concat before with rfl | ⟨earlier, ⟨b, y⟩, rfl⟩
  · have head := owned.head_eq
    obtain ⟨next, live, inHeap, freed⟩ := owned.free_first
    refine ⟨1, next, _, ?_, freed⟩
    simp only [dispose, head, if_true, load_of_lookup live, release_of_mem inHeap, bind,
      Except.bind]
  · rw [List.concat_eq_append] at owned enough ⊢
    have nodup := owned.nodup
    rw [addrs_append, addrs_cons] at nodup
    have outside := (List.nodup_cons.mp (List.nodup_middle.mp nodup)).1
    rw [List.mem_append, not_or] at outside
    -- the node is not the first one
    obtain ⟨c, z, rest, shape⟩ : ∃ c z rest, earlier ++ [(b, y)] = (c, z) :: rest := by
      cases earlier with
      | nil => exact ⟨b, y, [], rfl⟩
      | cons node rest => exact ⟨node.1, node.2, rest ++ [(b, y)], rfl⟩
    have seg := owned.seg
    rw [shape, List.cons_append] at seg
    obtain ⟨head, next, live, later⟩ := seg
    have notFirst : ¬ some a = m.allocatedBlockHead := by
      rw [head]
      intro same
      rw [shape, addrs_cons, List.mem_cons, not_or] at outside
      exact outside.1.1 (Option.some.inj same)
    rw [shape, addrs_cons, List.mem_cons, not_or] at outside
    rw [shape, List.length_cons] at enough
    have walked := follow_spec (some c) later outside.1.2 (show rest.length < fuel by omega)
    have previous : (lastPtr rest).or (some c) = some b := by
      rw [lastPtr_or c z rest none, ← shape, lastPtr_concat]
      rfl
    rw [List.append_assoc, List.singleton_append] at owned ⊢
    obtain ⟨next', liveB, liveA, unlinked⟩ := owned.unlink
    have freed := unlinked.release_loose member
    rw [Finset.erase_insert absent] at freed
    refine ⟨2, m.allocatedBlockHead, _, ?_, freed⟩
    rw [previous, ← head] at walked
    have first : load m.descriptors m.allocatedBlockHead = .ok ⟨z, next⟩ := by
      rw [head]
      exact load_of_lookup live
    simp only [dispose, notFirst, if_false, first, walked, load_of_lookup liveA,
      load_of_lookup liveB, store_of_mem (mem_of_lookup liveB),
      release_of_mem ((unlinked.live_iff a).mpr (.inr member)), bind, Except.bind]

/-! ## Compaction -/

/-- No two processes start at the same address. -/
theorem starts_distinct {s : State} (wf : WellFormed s) :
    s.allocatedBlockHead.Pairwise fun b b' => b.startAddr ≠ b'.startAddr := by
  have apart := (List.pairwise_append.mp wf.packed.apart).2.1
  rw [State.ownedExtents, List.pairwise_map] at apart
  refine apart.imp_of_mem fun {b b'} member member' away same => ?_
  have positive := wf.ownedPositive b member
  have positive' := wf.ownedPositive b' member'
  rcases (Extent.apart_iff positive positive').mp away with before | before <;>
    simp only [AllocatedBlock.extent] at before <;> omega

/-- The address of the node at a position. -/
def addrAt (nodes : List (Nat × α)) (i : Nat) : Nat := (addrs nodes)[i]?.getD 0

theorem addrAt_of_lt {nodes : List (Nat × α)} {i : Nat} (inside : i < nodes.length) :
    addrAt nodes i = nodes[i].1 := by
  simp [addrAt, addrs, inside]

theorem map_addrAt (nodes : List (Nat × α)) :
    (List.range nodes.length).map (addrAt nodes) = addrs nodes := by
  refine List.ext_getElem (by simp [addrs]) fun i inside _ => ?_
  rw [List.length_map, List.length_range] at inside
  rw [List.getElem_map, List.getElem_range, addrAt_of_lt inside]
  simp [addrs]

/-- **The sorted pointers are the pointers at the sorted positions.** -/
theorem sort_addrs {h : Heap AllocatedBlock} {p : Ptr} {nodes : List (Nat × AllocatedBlock)}
    (seg : Seg h p nodes none)
    (distinct : (vals nodes).Pairwise fun b b' => b.startAddr ≠ b'.startAddr) :
    Q.sort (cmpAllocByAddr h) (addrs nodes) =
      (sortedPointers Q (vals nodes)).map (addrAt nodes) := by
  have length : (vals nodes).length = nodes.length := vals_length nodes
  have inside : ∀ i ∈ sortedPointers Q (vals nodes), i < nodes.length := by
    intro i member
    have inRange := (Q.perm _ _).mem_iff.mp member
    rwa [List.mem_range, length] at inRange
  refine Q.sort_eq ?_ ?_
  · rw [← map_addrAt nodes, ← length]
    exact (Q.perm _ _).map _
  · rw [List.pairwise_map]
    have sorted := Q.sorted (Partition.cmpAllocByAddr (vals nodes)) (List.range (vals nodes).length)
    have both := List.Pairwise.and sorted (sortedPointers_nodup (Q := Q) (vals nodes))
    refine both.imp_of_mem fun {i j} inI inJ related => ?_
    obtain ⟨ordered, different⟩ := related
    have boundI := inside i inI
    have boundJ := inside j inJ
    obtain ⟨_, liveI⟩ := seg.lookup boundI
    obtain ⟨_, liveJ⟩ := seg.lookup boundJ
    rw [Partition.cmpAllocByAddr, Comparator.byKey_le_iff] at ordered
    simp only [vals, List.getElem?_map, List.getElem?_eq_getElem boundI,
      List.getElem?_eq_getElem boundJ, Option.map_some, Option.getD_some] at ordered
    have starts : nodes[i].2.startAddr ≠ nodes[j].2.startAddr := by
      rw [List.pairwise_iff_getElem] at distinct
      rcases Nat.lt_or_gt_of_ne different with less | greater
      · simpa [vals] using distinct i j (by rwa [length]) (by rwa [length]) less
      · simpa [vals] using (distinct j i (by rwa [length]) (by rwa [length]) greater).symm
    constructor
    · rw [cmpAllocByAddr, Comparator.byKey_le_iff, addrAt_of_lt boundI, addrAt_of_lt boundJ, liveI,
        liveJ]
      exact ordered
    · rw [← not_le, cmpAllocByAddr, Comparator.byKey_le_iff, addrAt_of_lt boundI,
        addrAt_of_lt boundJ, liveI, liveJ]
      simp only [Option.map_some, Option.getD_some]
      omega

/-- Writing through the pointers is writing at the positions. The loose descriptors are not
touched. -/
theorem relocate_spec {arr : List Nat} (start : Int) {h : Heap AllocatedBlock} {p : Ptr}
    {nodes : List (Nat × AllocatedBlock)} (owned : Owned h p nodes loose)
    (inside : ∀ i ∈ arr, i < nodes.length) :
    ∃ h' nodes', relocate (arr.map (addrAt nodes)) start h =
        .ok (h', (Partition.relocate arr start (vals nodes)).2) ∧
      Owned h' p nodes' loose ∧ vals nodes' = (Partition.relocate arr start (vals nodes)).1 ∧
      ∀ a ∈ loose, h'.lookup a = h.lookup a := by
  induction arr generalizing start h nodes with
  | nil => exact ⟨h, nodes, rfl, owned, rfl, fun _ _ => rfl⟩
  | cons i arr ih =>
      obtain ⟨bound, later⟩ := List.forall_mem_cons.mp inside
      obtain ⟨before, a, x, after, shape, position⟩ := split_at bound
      subst shape
      obtain ⟨next, live, moved⟩ := owned.modify { x with startAddr := start }
      have here : addrAt (before ++ (a, x) :: after) i = a := by
        rw [addrAt_of_lt bound]
        simp [← position]
      have value : (vals (before ++ (a, x) :: after))[i]? = some x := by
        simp [vals, ← position]
      have written : (vals (before ++ (a, x) :: after)).set i { x with startAddr := start } =
          vals (before ++ (a, { x with startAddr := start }) :: after) := by
        simp [vals, ← position, List.set_append_right]
      have sameAddrs : addrAt (before ++ (a, x) :: after) =
          addrAt (before ++ (a, { x with startAddr := start }) :: after) := by
        funext j
        simp [addrAt, addrs]
      obtain ⟨h', nodes', ran, owned', same, untouched⟩ := ih (start + x.size) moved (by
        intro j member
        have bound := later j member
        simpa using bound)
      refine ⟨h', nodes', ?_, owned', ?_, fun b member => ?_⟩
      · simp only [List.map_cons, here, relocate, load_of_lookup live,
          store_of_mem (mem_of_lookup live), bind, Except.bind, Partition.relocate, value, written]
        rw [sameAddrs]
        exact ran
      · simp only [Partition.relocate, value, written]
        exact same
      · rw [untouched b member]
        refine Finmap.lookup_insert_of_ne _ ?_
        rintro rfl
        exact owned.notMem_loose member

end OsLab.Partition.Linked
