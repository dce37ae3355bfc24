import OsLab.Partition.Linked
import OsLab.Partition.Release

/-!
# The free list on the heap

What each function of `OsLab.Partition.Linked` that works on the free list does to the nodes: it
does not fault, the heap holds the nodes of the new list and no others, and the values in the
list are those of the function of the same name on lists.

The loops are followed node by node, with the invariant `Owned`: the loops over a whole list in
`freeAll_spec`, `walk_spec`, `copyAndFree_spec` and `build_spec`, the scan in `scan_found`, and
the merging loop in `mergeLoop_spec`, where the nodes behind `pre` are those still to be looked
at.
-/

set_option autoImplicit false

namespace OsLab.Partition.Linked

open OsLab.Foundation

variable {α : Type} {A : Allocator} {Q : Qsort} {m : Memory} {loose : Finset Nat}

/-! ## Loops over a whole list -/

theorem freeAll_spec {h : Heap α} {p : Ptr} {nodes : List (Nat × α)} {fuel : Nat}
    (owned : Owned h p nodes loose) (enough : nodes.length < fuel) :
    ∃ h', freeAll fuel h p = .ok h' ∧ Owned h' none [] loose := by
  induction nodes generalizing h p fuel with
  | nil =>
      obtain ⟨fuel, rfl⟩ := Nat.exists_eq_add_of_lt enough
      have null : p = none := owned.seg
      subst null
      exact ⟨h, rfl, owned⟩
  | cons node rest ih =>
      obtain ⟨a, x⟩ := node
      obtain rfl := owned.head_eq
      obtain ⟨next, live, member, freed⟩ := owned.free_first
      rw [List.length_cons] at enough
      obtain ⟨fuel, rfl⟩ := Nat.exists_eq_add_of_lt (Nat.zero_lt_of_lt enough)
      obtain ⟨h', ran, empty⟩ := ih freed (show rest.length < fuel by omega)
      refine ⟨h', ?_, empty⟩
      simp only [Nat.zero_add, freeAll, load_of_lookup live, release_of_mem member, bind,
        Except.bind]
      exact ran

theorem walk_spec {h : Heap α} {p : Ptr} {nodes : List (Nat × α)} {fuel : Nat}
    (seg : Seg h p nodes none) (enough : nodes.length < fuel) : walk fuel h p = .ok nodes := by
  induction nodes generalizing p fuel with
  | nil =>
      have null : p = none := seg
      subst null
      obtain ⟨fuel, rfl⟩ := Nat.exists_eq_add_of_lt enough
      rfl
  | cons node rest ih =>
      obtain ⟨a, x⟩ := node
      obtain ⟨rfl, next, live, later⟩ := seg
      rw [List.length_cons] at enough
      obtain ⟨fuel, rfl⟩ := Nat.exists_eq_add_of_lt (Nat.zero_lt_of_lt enough)
      have others := ih later (show rest.length < fuel by omega)
      simp only [Nat.zero_add, walk, load_of_lookup live, others, bind, Except.bind]

theorem copyAndFree_spec {h : Heap FreeBlock} {p : Ptr} {nodes : List (Nat × FreeBlock)}
    (owned : Owned h p nodes loose) :
    ∃ h', copyAndFree nodes.length h p = .ok (vals nodes, h') ∧ Owned h' none [] loose := by
  induction nodes generalizing h p with
  | nil =>
      have null : p = none := owned.seg
      subst null
      exact ⟨h, rfl, owned⟩
  | cons node rest ih =>
      obtain ⟨a, x⟩ := node
      obtain rfl := owned.head_eq
      obtain ⟨next, live, member, freed⟩ := owned.free_first
      obtain ⟨h', ran, empty⟩ := ih freed
      refine ⟨h', ?_, empty⟩
      simp only [List.length_cons, copyAndFree, load_of_lookup live, release_of_mem member, ran,
        bind, Except.bind, vals_cons]

/-- New nodes are linked behind those that are there. -/
theorem build_spec (tmp : List FreeBlock) {h : Heap FreeBlock} {head : Ptr}
    {nodes : List (Nat × FreeBlock)} (owned : Owned h head nodes loose) :
    ∃ head' h' nodes', build A tmp h head (lastPtr nodes) = .ok (head', h') ∧
      Owned h' head' nodes' loose ∧ vals nodes' = vals nodes ++ tmp := by
  induction tmp generalizing h head nodes with
  | nil => exact ⟨head, h, nodes, rfl, owned, by simp⟩
  | cons x tmp ih =>
      obtain ⟨more, live, fresh⟩ := owned.malloc A ⟨x, none⟩
      obtain ⟨a, h₁, made⟩ : ∃ a h₁, malloc A h ⟨x, none⟩ = (a, h₁) := ⟨_, _, rfl⟩
      rw [made] at more live fresh
      rcases List.eq_nil_or_concat nodes with rfl | ⟨before, ⟨b, y⟩, rfl⟩
      · have null : head = none := owned.seg
        subst null
        have linked := more.adopt_first (Finset.mem_insert_self a loose) live
        rw [Finset.erase_insert fresh] at linked
        obtain ⟨head', h', nodes', ran, owned', same⟩ := ih linked
        refine ⟨head', h', nodes', ?_, owned', same⟩
        simp only [build, made, lastPtr_nil]
        exact ran
      · rw [List.concat_eq_append] at owned more ⊢
        obtain ⟨next, last, -, ended⟩ := more.seg.middle
        obtain rfl : next = none := ended
        have linked := more.link_last (Finset.mem_insert_self a loose) live
        rw [Finset.erase_insert fresh] at linked
        have grown : before ++ [(b, y), (a, x)] = (before ++ [(b, y)]) ++ [(a, x)] := by simp
        rw [grown] at linked
        obtain ⟨head', h', nodes', ran, owned', same⟩ := ih linked
        refine ⟨head', h', nodes', ?_, owned', by rw [same]; simp⟩
        rw [lastPtr_concat] at ran
        simp only [build, made, lastPtr_concat, load_of_lookup last,
          store_of_mem (mem_of_lookup last), bind, Except.bind]
        exact ran

/-! ## Single nodes -/

/-- **`rearrange_by` replaces every node**, and the values are sorted. -/
theorem rearrangeBy_spec (c : Comparator FreeBlock) {nodes : List (Nat × FreeBlock)}
    (owned : Owned m.freeNodes m.freeBlock nodes loose) (len : m.freeBlockLen = nodes.length) :
    ∃ head h nodes', rearrangeBy A Q c m = .ok { m with freeBlock := head, freeNodes := h } ∧
      Owned h head nodes' loose ∧ vals nodes' = Q.sort c (vals nodes) := by
  obtain ⟨emptied, copied, empty⟩ := copyAndFree_spec owned
  obtain ⟨head, h, nodes', built, owned', same⟩ :=
    build_spec (A := A) (Q.sort c (vals nodes)) empty
  refine ⟨head, h, nodes', ?_, owned', same⟩
  rw [lastPtr_nil] at built
  simp only [rearrangeBy, len, Int.toNat_natCast, copied, built, bind, Except.bind]

theorem deleteFreeBlock_first {a : Nat} {x : FreeBlock} {after : List (Nat × FreeBlock)}
    (owned : Owned m.freeNodes m.freeBlock ((a, x) :: after) loose) :
    ∃ next, deleteFreeBlock none (some a) m =
        .ok { m with freeBlock := next, freeBlockLen := m.freeBlockLen - 1 } ∧
      Owned m.freeNodes next after (insert a loose) := by
  obtain ⟨next, live, rest⟩ := owned.unlink_first
  refine ⟨next, ?_, rest⟩
  simp only [deleteFreeBlock, load_of_lookup live, bind, Except.bind]

theorem deleteFreeBlock_later {a b : Nat} {x y : FreeBlock} {before after : List (Nat × FreeBlock)}
    (owned : Owned m.freeNodes m.freeBlock (before ++ (b, y) :: (a, x) :: after) loose) :
    ∃ h, deleteFreeBlock (some b) (some a) m =
        .ok { m with freeNodes := h, freeBlockLen := m.freeBlockLen - 1 } ∧
      Owned h m.freeBlock (before ++ (b, y) :: after) (insert a loose) := by
  obtain ⟨next, previous, live, rest⟩ := owned.unlink
  refine ⟨_, ?_, rest⟩
  simp only [deleteFreeBlock, load_of_lookup live, load_of_lookup previous,
    store_of_mem (mem_of_lookup previous), bind, Except.bind]

/-- A node is unlinked and freed, wherever it is. -/
theorem delete_release {a : Nat} {x : FreeBlock} {before after : List (Nat × FreeBlock)}
    (owned : Owned m.freeNodes m.freeBlock (before ++ (a, x) :: after) loose) :
    ∃ head unlinked h, deleteFreeBlock (lastPtr before) (some a) m =
        .ok { m with
          freeBlock := head
          freeNodes := unlinked
          freeBlockLen := m.freeBlockLen - 1 } ∧
      release unlinked (some a) = .ok h ∧ Owned h head (before ++ after) loose := by
  have absent : a ∉ loose := owned.notMem_loose
  have member := Finset.mem_insert_self a loose
  rcases List.eq_nil_or_concat before with rfl | ⟨earlier, ⟨b, y⟩, rfl⟩
  · obtain ⟨next, ran, rest⟩ := deleteFreeBlock_first owned
    have freed := rest.release_loose member
    rw [Finset.erase_insert absent] at freed
    exact ⟨next, _, _, ran, release_of_mem ((rest.live_iff a).mpr (.inr member)), freed⟩
  · rw [List.concat_eq_append, List.append_assoc, List.singleton_append] at owned
    obtain ⟨h, ran, rest⟩ := deleteFreeBlock_later owned
    have freed := rest.release_loose member
    rw [Finset.erase_insert absent] at freed
    refine ⟨m.freeBlock, h, _, ?_, release_of_mem ((rest.live_iff a).mpr (.inr member)), ?_⟩
    · rw [List.concat_eq_append, lastPtr_concat]
      exact ran
    · rw [List.concat_eq_append, List.append_assoc, List.singleton_append]
      exact freed

/-! ## The lists in memory -/

/-- The nodes from `head` on are all that is live, and `len` is their number. -/
def FreeIn (h : Heap FreeBlock) (head : Ptr) (len : Int) (blocks : List FreeBlock) : Prop :=
  len = blocks.length ∧ ∃ nodes, Owned h head nodes ∅ ∧ vals nodes = blocks

/-- The free list of the program. -/
def FreeList (m : Memory) (blocks : List FreeBlock) : Prop :=
  FreeIn m.freeNodes m.freeBlock m.freeBlockLen blocks

/-- A call that returns, and has changed nothing but the free list, to the given one. -/
def LeavesFree (m : Memory) (blocks : List FreeBlock) (r : Attempt Memory) : Prop :=
  ∃ head len h, r = .ok { m with freeBlock := head, freeBlockLen := len, freeNodes := h } ∧
    FreeIn h head len blocks

theorem rearrangeBy_leaves {blocks : List FreeBlock} (free : FreeList m blocks)
    (c : Comparator FreeBlock) : LeavesFree m (Q.sort c blocks) (rearrangeBy A Q c m) := by
  obtain ⟨len, nodes, owned, rfl⟩ := free
  rw [vals_length] at len
  obtain ⟨head, h, nodes', ran, owned', same⟩ := rearrangeBy_spec (A := A) (Q := Q) c owned len
  refine ⟨head, m.freeBlockLen, h, ran, ?_, nodes', owned', same⟩
  rw [len, (Q.perm c (vals nodes)).length_eq, vals_length]

/-- The re-sorting at the end of `allocate_mem` and `free_mem`. -/
def settle (A : Allocator) (Q : Qsort) (algorithm : Algorithm) (m : Memory) : Attempt Memory :=
  match algorithm with
  | .maFF => .ok m
  | .maBF => rearrangeBy A Q cmpBF m
  | .maWF => rearrangeBy A Q cmpWF m

theorem settle_leaves {blocks : List FreeBlock} (free : FreeList m blocks)
    (algorithm : Algorithm) :
    LeavesFree m (Partition.settle Q algorithm blocks) (settle A Q algorithm m) := by
  cases algorithm with
  | maFF => exact ⟨m.freeBlock, m.freeBlockLen, m.freeNodes, rfl, free⟩
  | maBF => exact rearrangeBy_leaves free cmpBF
  | maWF => exact rearrangeBy_leaves free cmpWF

/-! ## The scan -/

/-- The scan stops at the first block that is large enough, with the node before it. -/
theorem scan_found {r : Int} {h : Heap FreeBlock} {p : Ptr} {before after : List (Nat × FreeBlock)}
    {a : Nat} {x : FreeBlock} {fuel : Nat} (pre : Ptr)
    (seg : Seg h p (before ++ (a, x) :: after) none) (small : ∀ b ∈ vals before, b.size < r)
    (large : r ≤ x.size) (enough : before.length < fuel) :
    scan r fuel h pre p = .ok (some ((lastPtr before).or pre, some a)) := by
  induction before generalizing p pre fuel with
  | nil =>
      obtain ⟨rfl, next, live, -⟩ := seg
      obtain ⟨fuel, rfl⟩ := Nat.exists_eq_add_of_lt enough
      simp only [Nat.zero_add, List.length_nil, scan, load_of_lookup live, bind, Except.bind,
        ge_iff_le, large, if_true, lastPtr_nil, Option.none_or]
  | cons node rest ih =>
      obtain ⟨b, y⟩ := node
      obtain ⟨rfl, next, live, later⟩ := seg
      rw [vals_cons, List.forall_mem_cons] at small
      rw [List.length_cons] at enough
      obtain ⟨fuel, rfl⟩ := Nat.exists_eq_add_of_lt (Nat.zero_lt_of_lt enough)
      have tooSmall : ¬ r ≤ y.size := by omega
      simp only [Nat.zero_add, scan, load_of_lookup live, bind, Except.bind, ge_iff_le, tooSmall,
        if_false]
      rw [ih (some b) later small.2 (by omega), lastPtr_or b y rest pre]

theorem scan_none {r : Int} {h : Heap FreeBlock} {p : Ptr} {nodes : List (Nat × FreeBlock)}
    {fuel : Nat} (pre : Ptr) (seg : Seg h p nodes none) (small : ∀ b ∈ vals nodes, b.size < r)
    (enough : nodes.length < fuel) : scan r fuel h pre p = .ok none := by
  induction nodes generalizing p pre fuel with
  | nil =>
      have null : p = none := seg
      subst null
      obtain ⟨fuel, rfl⟩ := Nat.exists_eq_add_of_lt enough
      rfl
  | cons node rest ih =>
      obtain ⟨b, y⟩ := node
      obtain ⟨rfl, next, live, later⟩ := seg
      rw [vals_cons, List.forall_mem_cons] at small
      rw [List.length_cons] at enough
      obtain ⟨fuel, rfl⟩ := Nat.exists_eq_add_of_lt (Nat.zero_lt_of_lt enough)
      have tooSmall : ¬ r ≤ y.size := by omega
      simp only [Nat.zero_add, scan, load_of_lookup live, bind, Except.bind, ge_iff_le, tooSmall,
        if_false]
      exact ih (some b) later small.2 (by omega)

/-! ## Taking a block -/

/-- The descriptor at `d` gets its start address. -/
def Memory.place (m : Memory) (d : Nat) (ab : AllocatedBlock) (link : Ptr) (startAddr : Int) :
    Memory :=
  { m with descriptors := m.descriptors.insert d ⟨{ ab with startAddr := startAddr }, link⟩ }

/-- **The block that was found is taken.** The descriptor gets its start address, and the free
list becomes `afterFit`. -/
theorem takeFit_leaves {ab : AllocatedBlock} {d : Nat} {link : Ptr}
    (descriptor : m.descriptors.lookup d = some ⟨ab, link⟩) {a : Nat} {x : FreeBlock}
    {before after : List (Nat × FreeBlock)}
    (owned : Owned m.freeNodes m.freeBlock (before ++ (a, x) :: after) ∅)
    (len : m.freeBlockLen = (before ++ (a, x) :: after).length) :
    LeavesFree (m.place d ab link x.startAddr)
      (afterFit Q m.maAlgorithm ab.size (vals before) x (vals after))
      (takeFit A Q (some d) ab.size (lastPtr before) (some a) m) := by
  obtain ⟨next, live, -⟩ := owned.seg.middle
  simp only [takeFit, load_of_lookup live, load_of_lookup descriptor,
    store_of_mem (mem_of_lookup descriptor), bind, Except.bind]
  rcases remainder_cases ab.size x with ⟨small, gone⟩ | ⟨large, rest⟩
  · obtain ⟨head, unlinked, h, ran, freed, owned'⟩ :=
      delete_release (m := m.place d ab link x.startAddr) owned
    unfold Memory.place at ran
    simp only [small, if_true, afterFit, gone, ran, freed]
    refine ⟨head, m.freeBlockLen - 1, h, rfl, ?_, before ++ after, owned', vals_append ..⟩
    rw [len]
    simp only [List.length_append, List.length_cons, vals_length]
    omega
  · have small : ¬ x.size - ab.size ≤ minSlice := not_le.mpr large
    simp only [small, if_false, afterFit, rest, store_of_mem (mem_of_lookup live)]
    obtain ⟨next', live', carved⟩ := owned.modify ⟨x.size - ab.size, x.startAddr + ab.size⟩
    rw [live, Option.some.injEq, Cell.mk.injEq] at live'
    obtain ⟨-, rfl⟩ := live'
    refine settle_leaves (m := { m.place d ab link x.startAddr with
      freeNodes := m.freeNodes.insert a ⟨⟨x.size - ab.size, x.startAddr + ab.size⟩, next⟩ })
      ⟨?_, _, carved, by simp⟩ m.maAlgorithm
    show m.freeBlockLen = _
    rw [len]
    simp

/-! ## Giving a block back -/

/-- The merging loop with the node `c` as `pre`. The nodes `done` before it are finished. -/
theorem mergeLoop_spec {rest done : List (Nat × FreeBlock)} {c : Nat} {y : FreeBlock} {fbt : Ptr}
    {fuel : Nat} (owned : Owned m.freeNodes m.freeBlock (done ++ (c, y) :: rest) loose)
    (live : m.freeNodes.lookup c = some ⟨y, fbt⟩) (enough : rest.length < fuel) :
    ∃ h nodes, mergeLoop fuel (some c) fbt m = .ok { m with
        freeNodes := h
        freeBlockLen := (mergeFrom y (vals rest) m.freeBlockLen).2 } ∧
      Owned h m.freeBlock nodes loose ∧
      vals nodes = vals done ++ (mergeFrom y (vals rest) m.freeBlockLen).1 := by
  induction rest generalizing m done c y fbt fuel with
  | nil =>
      obtain ⟨next, live', -, ended⟩ := owned.seg.middle
      rw [live, Option.some.injEq, Cell.mk.injEq] at live'
      obtain ⟨-, rfl⟩ := live'
      obtain rfl : fbt = none := ended
      obtain ⟨fuel, rfl⟩ := Nat.exists_eq_add_of_lt enough
      exact ⟨m.freeNodes, _, rfl, owned, by simp [mergeFrom]⟩
  | cons node rest ih =>
      obtain ⟨d, z⟩ := node
      obtain ⟨next, live', -, rfl, after, liveZ, -⟩ := owned.seg.middle
      rw [live, Option.some.injEq, Cell.mk.injEq] at live'
      obtain ⟨-, rfl⟩ := live'
      rw [List.length_cons] at enough
      obtain ⟨fuel, rfl⟩ := Nat.exists_eq_add_of_lt (Nat.zero_lt_of_lt enough)
      simp only [Nat.zero_add, mergeLoop, load_of_lookup live, load_of_lookup liveZ, bind,
        Except.bind, vals_cons, mergeFrom]
      by_cases adjacent : y.startAddr + y.size = z.startAddr
      · simp only [adjacent, if_true, store_of_mem (mem_of_lookup live)]
        obtain ⟨next, live', grown⟩ := owned.modify { y with size := y.size + z.size }
        rw [live, Option.some.injEq, Cell.mk.injEq] at live'
        obtain ⟨-, rfl⟩ := live'
        obtain ⟨h, ran, unlinked⟩ := deleteFreeBlock_later
          (m := { m with freeNodes := m.freeNodes.insert c ⟨{ y with size := y.size + z.size },
            some d⟩ }) grown
        have absent : d ∉ loose := by
          have split : done ++ (c, y) :: (d, z) :: rest = (done ++ [(c, y)]) ++ (d, z) :: rest := by
            simp
          rw [split] at owned
          exact owned.notMem_loose
        have member := Finset.mem_insert_self d loose
        have joined := unlinked.release_loose member
        rw [Finset.erase_insert absent] at joined
        simp only [ran, release_of_mem ((unlinked.live_iff d).mpr (.inr member))]
        obtain ⟨next, liveY, -⟩ := joined.seg.middle
        simp only [load_of_lookup liveY]
        exact ih (m := { m with freeNodes := h.erase d, freeBlockLen := m.freeBlockLen - 1 })
          joined liveY (by omega)
      · simp only [adjacent, if_false]
        have split : done ++ (c, y) :: (d, z) :: rest = (done ++ [(c, y)]) ++ (d, z) :: rest := by
          simp
        rw [split] at owned
        obtain ⟨h, nodes, ran, owned', same⟩ := ih owned liveZ (show rest.length < fuel by omega)
        refine ⟨h, nodes, ran, owned', ?_⟩
        rw [same]
        simp

theorem mergeLoop_leaves {blocks : List FreeBlock} {fuel : Nat} (free : FreeList m blocks)
    (enough : blocks.length < fuel) :
    LeavesFree m (mergeAll blocks) (mergeLoop fuel none m.freeBlock m) := by
  obtain ⟨len, nodes, owned, rfl⟩ := free
  rw [vals_length] at enough
  obtain ⟨fuel, rfl⟩ := Nat.exists_eq_add_of_lt (Nat.zero_lt_of_lt enough)
  cases nodes with
  | nil =>
      have null : m.freeBlock = none := owned.seg
      refine ⟨none, m.freeBlockLen, m.freeNodes, ?_, len, [], null ▸ owned, rfl⟩
      simp only [null, Nat.zero_add, mergeLoop]
      rw [← null]
  | cons node rest =>
      obtain ⟨a, x⟩ := node
      rw [List.length_cons] at enough
      have head := owned.head_eq
      obtain ⟨next, live, -⟩ := owned.seg.2
      rw [← List.nil_append ((a, x) :: rest)] at owned
      obtain ⟨h, nodes, ran, owned', same⟩ :=
        mergeLoop_spec owned live (show rest.length < fuel by omega)
      refine ⟨m.freeBlock, (mergeFrom x (vals rest) m.freeBlockLen).2, h, ?_, ?_, nodes, owned',
        ?_⟩
      · have entered :
            mergeLoop (0 + fuel + 1) none (some a) m = mergeLoop fuel (some a) next m := by
          simp only [Nat.zero_add, mergeLoop, load_of_lookup live, bind, Except.bind]
        exact (congrArg (mergeLoop _ none · m) head).trans (entered.trans ran)
      · have count := mergeFrom_len x (vals rest) m.freeBlockLen
        have blocks := mergeFrom_blocks x (vals rest) m.freeBlockLen 0
        rw [blocks, len, vals_cons] at count
        rw [vals_cons, mergeAll, len]
        simp only [List.length_cons, vals_length] at count ⊢
        omega
      · rw [same, mergeFrom_blocks x (vals rest) m.freeBlockLen 0]
        rfl

/-- The new node is the first of the list. -/
theorem insertFreeBlock_leaves {blocks : List FreeBlock} (free : FreeList m blocks)
    (x : FreeBlock) :
    ∃ h, insertFreeBlock none (some (malloc A m.freeNodes ⟨x, none⟩).1) m.freeBlock
        { m with freeNodes := (malloc A m.freeNodes ⟨x, none⟩).2 } = .ok { m with
          freeBlock := some (malloc A m.freeNodes ⟨x, none⟩).1
          freeBlockLen := m.freeBlockLen + 1
          freeNodes := h } ∧
      FreeIn h (some (malloc A m.freeNodes ⟨x, none⟩).1) (m.freeBlockLen + 1) (x :: blocks) := by
  obtain ⟨len, nodes, owned, rfl⟩ := free
  obtain ⟨more, live, fresh⟩ := owned.malloc A ⟨x, none⟩
  have linked := more.link_first (Finset.mem_insert_self _ ∅) x
  rw [Finset.erase_insert fresh] at linked
  refine ⟨_, ?_, ?_, _, linked, rfl⟩
  · simp only [insertFreeBlock, load_of_lookup live, store_of_mem (mem_of_lookup live), bind,
      Except.bind]
  · rw [len, List.length_cons]
    rfl

/-- **`free_mem` on the heap.** The free list becomes `releasedFree`. -/
theorem freeMem_leaves {blocks : List FreeBlock} {ab : AllocatedBlock} {d : Nat} {link : Ptr}
    {fuel : Nat} (free : FreeList m blocks)
    (descriptor : m.descriptors.lookup d = some ⟨ab, link⟩) (enough : blocks.length + 1 < fuel) :
    ∃ t, freeMem A Q fuel (some d) m = .ok (1, t) ∧
      LeavesFree m (releasedFree Q m.maAlgorithm ab blocks) (.ok t) := by
  obtain ⟨h, inserted, free⟩ := insertFreeBlock_leaves (A := A) free ⟨ab.size, ab.startAddr⟩
  obtain ⟨head₁, len₁, h₁, sorted, free₁⟩ := rearrangeBy_leaves (A := A) (Q := Q)
    (m := { m with
      freeBlock := some (malloc A m.freeNodes ⟨⟨ab.size, ab.startAddr⟩, none⟩).1
      freeBlockLen := m.freeBlockLen + 1
      freeNodes := h }) free cmpFF
  have count : (Q.sort cmpFF (⟨ab.size, ab.startAddr⟩ :: blocks)).length < fuel := by
    rw [(Q.perm _ _).length_eq, List.length_cons]
    exact enough
  obtain ⟨head₂, len₂, h₂, merged, free₂⟩ := mergeLoop_leaves
    (m := { m with freeBlock := head₁, freeBlockLen := len₁, freeNodes := h₁ }) free₁ count
  obtain ⟨head₃, len₃, h₃, settled, free₃⟩ := settle_leaves (A := A) (Q := Q)
    (m := { m with freeBlock := head₂, freeBlockLen := len₂, freeNodes := h₂ }) free₂ m.maAlgorithm
  refine ⟨{ m with freeBlock := head₃, freeBlockLen := len₃, freeNodes := h₃ }, ?_, head₃, len₃, h₃,
    rfl, free₃⟩
  simp only [freeMem, load_of_lookup descriptor, inserted, sorted, merged, bind, Except.bind]
  cases policy : m.maAlgorithm with
  | maFF =>
      rw [policy] at settled
      simp only [settle] at settled
      exact congrArg (Except.map fun t => ((1 : Int), t)) settled
  | maBF | maWF =>
      rw [policy] at settled
      simp only [settle] at settled
      simp only [settled]

end OsLab.Partition.Linked
