import OsLab.Partition.Coalescing

/-!
# What a termination gives back

`kill_process` takes the block of a live process out of the allocated list and adds its
addresses, and no others, to the free ones (`killProcess_effect`). The way there is long:
the block is inserted, the list sorted, merged and sorted again. But each of these steps
keeps the set of free addresses (`releasedFree_addresses`), and the set determines the
list, because the list has no neighbours.

Two results compare runs in this way. Terminating several processes leads to the same
state in every order (`killAll_comm`), and terminating the process that was just created
restores the state before it was created, as long as its allocation left nothing behind
(`create_terminate_restores`).
-/

set_option autoImplicit false

namespace OsLab.Partition

open OsLab.Foundation

variable {Q : Qsort} {s t : State} {op : Op}

/-! ## Distinct pids -/

/-- The pids of the live processes. -/
def State.pids (s : State) : List Int := s.allocatedBlockHead.map AllocatedBlock.pid

/-- The live pids are distinct, and none is above the counter. -/
structure Numbered (s : State) : Prop where
  counted : ∀ pid ∈ s.pids, pid ≤ s.pid
  nodup : s.pids.Nodup

theorem movedBlocks_pids (nodes : List AllocatedBlock) :
    (movedBlocks Q nodes).map AllocatedBlock.pid = nodes.map AllocatedBlock.pid := by
  have same := congrArg (List.map Prod.fst) (movedBlocks_owners (Q := Q) nodes)
  rwa [List.map_map, List.map_map] at same

/-- The counter may go up, and pids may go away. -/
theorem Numbered.sublist (numbered : Numbered s) (sub : t.pids.Sublist s.pids)
    (higher : s.pid ≤ t.pid) : Numbered t where
  counted pid member := (numbered.counted pid (sub.subset member)).trans higher
  nodup := numbered.nodup.sublist sub

/-- A new process gets the next number. -/
theorem Numbered.next (numbered : Numbered s) (pids : t.pids = (s.pid + 1) :: s.pids)
    (counter : t.pid = s.pid + 1) : Numbered t where
  counted pid member := by
    rw [pids] at member
    rcases List.mem_cons.mp member with rfl | old
    · exact counter.ge
    · have below := numbered.counted pid old
      omega
  nodup := by
    rw [pids]
    refine List.nodup_cons.mpr ⟨fun old => ?_, numbered.nodup⟩
    have below := numbered.counted _ old
    omega

theorem Numbered.transition (numbered : Numbered s) (move : Transition Q s op t) :
    Numbered t := by
  cases move with
  | kept _ flag set => exact numbered.sublist (List.Sublist.refl _) le_rfl
  | resized fresh positive => exact numbered.sublist (List.Sublist.refl _) le_rfl
  | chosen algorithm => exact numbered.sublist (List.Sublist.refl _) le_rfl
  | created positive creation =>
      have higher : s.pid ≤ s.pid + 1 := by omega
      cases creation with
      | placed found => exact numbered.next rfl rfl
      | refused _ _ => exact numbered.sublist (List.Sublist.refl _) higher
      | lost _ _ _ =>
          refine numbered.sublist ?_ higher
          change ((movedBlocks Q s.allocatedBlockHead).map AllocatedBlock.pid).Sublist _
          rw [movedBlocks_pids]
          exact List.Sublist.refl _
  | killed found node =>
      exact numbered.sublist ((List.eraseIdx_sublist _ _).map _) le_rfl

theorem numbered_of_reachable (reached : ReachableState Q s) : Numbered s := by
  have base : Tidy initial ∧ Numbered initial := ⟨tidy_initial, nofun, List.nodup_nil⟩
  have preserved : ∀ s op t, Tidy s ∧ Numbered s → Step Q s op t → Tidy t ∧ Numbered t := by
    rintro s op t ⟨tidy, numbered⟩ step
    have move := step_transition tidy.wellFormed step
    exact ⟨tidy.transition move, numbered.transition move⟩
  exact (reached.invariant (fun s => Tidy s ∧ Numbered s) base preserved).2

/-! ## Finding a process -/

theorem findProcess_eq_none_iff {pid : Int} {nodes : List AllocatedBlock} :
    findProcess pid nodes = none ↔ ∀ b ∈ nodes, b.pid ≠ pid := by
  induction nodes with
  | nil => simp [findProcess]
  | cons b nodes ih =>
      by_cases here : b.pid = pid
      · simp [findProcess, here]
      · simp [findProcess, here, ih]

/-- With distinct pids no other block has the pid of a block of the list. -/
theorem pid_ne_of_nodup {before after : List AllocatedBlock} {ab : AllocatedBlock}
    (nodup : ((before ++ ab :: after).map AllocatedBlock.pid).Nodup) :
    ∀ b ∈ before ++ after, b.pid ≠ ab.pid := by
  have front := (List.perm_middle.map AllocatedBlock.pid).nodup_iff.mp nodup
  have absent := (List.nodup_cons.mp front).1
  intro b member same
  exact absent (same ▸ List.mem_map_of_mem member)

/-- The search passes the blocks with other pids. -/
theorem findProcess_append {before after : List AllocatedBlock} {ab : AllocatedBlock}
    (others : ∀ b ∈ before, b.pid ≠ ab.pid) :
    findProcess ab.pid (before ++ ab :: after) = some before.length := by
  induction before with
  | nil => simp [findProcess]
  | cons b before ih =>
      obtain ⟨other, rest⟩ := List.forall_mem_cons.mp others
      simp [findProcess, other, ih rest]

/-! ## Giving addresses back -/

/-- The merging loop keeps the set of addresses. -/
theorem mergeFrom_addresses {lo hi : Int} {pre : FreeBlock} {blocks : List FreeBlock} (len : Int)
    (packed : Packed lo hi ((pre :: blocks).map FreeBlock.extent)) :
    addressesOf ((mergeFrom pre blocks len).1.map FreeBlock.extent) =
      addressesOf ((pre :: blocks).map FreeBlock.extent) := by
  have kept := mergeFrom_induction
    (P := fun l => Packed lo hi l ∧
      addressesOf l = addressesOf ((pre :: blocks).map FreeBlock.extent))
    (fun perm holds => ⟨holds.1.perm perm, (addressesOf_perm perm).symm.trans holds.2⟩)
    (fun {a b l} adjacent holds => by
      refine ⟨holds.1.join adjacent, ?_⟩
      rw [← holds.2]
      simp only [addressesOf]
      rw [addresses_join holds.1.head_positive holds.1.tail.head_positive adjacent, Set.union_assoc])
    pre blocks len [] (by rw [List.append_nil]; exact ⟨packed, rfl⟩)
  rw [List.append_nil] at kept
  exact kept.2

/-- **Giving a block back adds exactly its addresses.** -/
theorem releasedFree_addresses {lo hi : Int} (algorithm : Algorithm) {ab : AllocatedBlock}
    {blocks : List FreeBlock} (packed : Packed lo hi (ab.extent :: blocks.map FreeBlock.extent)) :
    addressesOf ((releasedFree Q algorithm ab blocks).map FreeBlock.extent) =
      addressesOf (blocks.map FreeBlock.extent) ∪ ab.extent.addresses := by
  have sorted : ((Q.sort cmpFF (⟨ab.size, ab.startAddr⟩ :: blocks)).map FreeBlock.extent).Perm
      (ab.extent :: blocks.map FreeBlock.extent) := (Q.perm _ _).map _
  have merged : addressesOf ((mergeAll (Q.sort cmpFF (⟨ab.size, ab.startAddr⟩ :: blocks))).map
      FreeBlock.extent) = addressesOf (ab.extent :: blocks.map FreeBlock.extent) := by
    rw [← addressesOf_perm sorted]
    have packed' := packed.perm sorted.symm
    cases list : Q.sort cmpFF (⟨ab.size, ab.startAddr⟩ :: blocks) with
    | nil => rfl
    | cons b rest =>
        rw [list] at packed'
        exact mergeFrom_addresses 0 packed'
  rw [releasedFree, addressesOf_perm ((settle_perm algorithm _).map _), merged, addressesOf,
    Set.union_comm]

/-! ## Terminating a process -/

/-- The state after the block between `before` and `after` is given back. -/
def terminated (Q : Qsort) (before : List AllocatedBlock) (ab : AllocatedBlock)
    (after : List AllocatedBlock) (s : State) : State :=
  { s with allocatedBlockHead := before ++ after }.setFree
    (releasedFree Q s.maAlgorithm ab s.freeBlock)

/-- The block of a live process lies beside the free ones. -/
theorem WellFormed.victimPacked (wf : WellFormed s) {ab : AllocatedBlock}
    (live : ab ∈ s.allocatedBlockHead) : Packed 0 s.memSize (ab.extent :: s.freeExtents) := by
  obtain ⟨before, after, split⟩ := List.append_of_mem live
  have packed := wf.packed
  rw [State.extents, State.ownedExtents, split, List.map_append, List.map_cons] at packed
  have front := packed.perm ((List.perm_middle.append_left _).trans List.perm_middle)
  exact front.sublist ((List.sublist_append_left _ _).cons_cons _)

/-- `find_process` finds the node of a live process, and unlinking it leaves the others. -/
theorem findProcess_of_split {before after : List AllocatedBlock} {ab : AllocatedBlock}
    (nodup : s.pids.Nodup) (split : s.allocatedBlockHead = before ++ ab :: after) :
    findProcess ab.pid s.allocatedBlockHead = some before.length ∧
      s.allocatedBlockHead[before.length]? = some ab ∧
      s.allocatedBlockHead.eraseIdx before.length = before ++ after := by
  rw [State.pids, split] at nodup
  have others := pid_ne_of_nodup nodup
  rw [split]
  refine ⟨findProcess_append fun b member => others b (List.mem_append_left _ member), by simp, ?_⟩
  rw [List.eraseIdx_append_of_length_le le_rfl, Nat.sub_self]
  rfl

/-- **Terminating a live process returns, and its block is unlinked and given back.** -/
theorem killProcess_of_live (counted : s.Counted) (nodup : s.pids.Nodup)
    {before after : List AllocatedBlock} {ab : AllocatedBlock}
    (split : s.allocatedBlockHead = before ++ ab :: after) :
    killProcess Q ab.pid s = .ok (terminated Q before ab after s) := by
  obtain ⟨found, node, unlinked⟩ := findProcess_of_split nodup split
  rw [killProcess_eq counted found node, unlinked]
  rfl

theorem terminated_freeAddresses (wf : WellFormed s) {before after : List AllocatedBlock}
    {ab : AllocatedBlock} (split : s.allocatedBlockHead = before ++ ab :: after) :
    (terminated Q before ab after s).freeAddresses = s.freeAddresses ∪ ab.extent.addresses :=
  releasedFree_addresses s.maAlgorithm (wf.victimPacked (by simp [split]))

/-- **The exact effect of a termination.** In every reachable state the live pids are
distinct. A live process loses its block, every other block stays in its place in the list,
and the free addresses grow by those of the block. For any other number nothing changes. -/
theorem killProcess_effect (Q : Qsort) {s : State} (reached : ReachableState Q s) :
    (s.allocatedBlockHead.map AllocatedBlock.pid).Nodup ∧
    (∀ ab ∈ s.allocatedBlockHead, ∃ before after t,
      s.allocatedBlockHead = before ++ ab :: after ∧ killProcess Q ab.pid s = .ok t ∧
      t.allocatedBlockHead = before ++ after ∧
      t.freeAddresses = s.freeAddresses ∪ ab.extent.addresses) ∧
    ∀ pid, (∀ ab ∈ s.allocatedBlockHead, ab.pid ≠ pid) → killProcess Q pid s = .ok s := by
  have wf := wellFormed_of_reachable reached
  have numbered := numbered_of_reachable reached
  refine ⟨numbered.nodup, fun ab live => ?_, fun pid absent => ?_⟩
  · obtain ⟨before, after, split⟩ := List.append_of_mem live
    exact ⟨before, after, _, split, killProcess_of_live wf.counted numbered.nodup split, rfl,
      terminated_freeAddresses wf split⟩
  · exact killProcess_of_unknown (findProcess_eq_none_iff.mpr absent)

/-- Under best fit the second of three processes is terminated, between two live ones. -/
theorem killProcess_effect_middle :
    ∃ s t, session .insertion 1 [.setAlgorithm 2, .newProcess ⟨0, 0, 0⟩ 100,
        .newProcess ⟨0, 0, 0⟩ 200, .newProcess ⟨0, 0, 0⟩ 300] initial = .ok s ∧
      killProcess .insertion 2 s = .ok t ∧
      t.allocatedBlockHead = [⟨3, 300, 300⟩, ⟨1, 100, 0⟩] ∧
      t.freeAddresses = s.freeAddresses ∪ (⟨100, 200⟩ : Extent).addresses := by
  have reached := reachable_of_session .insertion 1 [.setAlgorithm 2, .newProcess ⟨0, 0, 0⟩ 100,
    .newProcess ⟨0, 0, 0⟩ 200, .newProcess ⟨0, 0, 0⟩ 300] Reachable.refl (by decide) rfl
  obtain ⟨before, after, t, -, returned, -, grown⟩ :=
    (killProcess_effect .insertion reached).2.1 ⟨2, 200, 100⟩ (by decide)
  refine ⟨_, t, rfl, returned, ?_, grown⟩
  cases returned
  rfl

/-! ## Terminating several processes -/

/-- `kill_process` for one pid after the other. -/
def killAll (Q : Qsort) : List Int → State → Exec State
  | [], s => .ok s
  | pid :: pids, s => do
      let t ← killProcess Q pid s
      killAll Q pids t

/-- The `flag` does not matter once the memory is in use. -/
theorem Tidy.of_flag (tidy : Tidy { s with flag := 1 }) (busy : s.flag ≠ 0) : Tidy s where
  wellFormed :=
    { sized := tidy.wellFormed.sized
      packed := tidy.wellFormed.packed
      counted := tidy.wellFormed.counted
      untouched := fun zero => absurd zero busy }
  ordered := tidy.ordered
  coalesced := tidy.coalesced

theorem terminated_transition {before after : List AllocatedBlock} {ab : AllocatedBlock}
    (nodup : s.pids.Nodup) (split : s.allocatedBlockHead = before ++ ab :: after) :
    Transition Q s (.killProcess ab.pid) { terminated Q before ab after s with flag := 1 } := by
  obtain ⟨found, node, unlinked⟩ := findProcess_of_split nodup split
  have move := Transition.killed (Q := Q) found node
  rwa [unlinked] at move

/-- What a termination of a live process keeps. -/
theorem Tidy.terminated (tidy : Tidy s) (numbered : Numbered s)
    {before after : List AllocatedBlock} {ab : AllocatedBlock}
    (split : s.allocatedBlockHead = before ++ ab :: after) :
    Tidy (Partition.terminated Q before ab after s) ∧
      Numbered (Partition.terminated Q before ab after s) := by
  have move := terminated_transition (Q := Q) numbered.nodup split
  have busy : s.flag ≠ 0 := by
    intro zero
    obtain ⟨-, empty⟩ := tidy.wellFormed.untouched zero
    rw [split] at empty
    simp at empty
  refine ⟨(tidy.transition move).of_flag busy, ?_⟩
  exact (numbered.transition move).sublist (List.Sublist.refl _) le_rfl

/-- **Terminating distinct live processes** removes their blocks and frees their addresses. -/
theorem killAll_effect {pids : List Int} (tidy : Tidy s) (numbered : Numbered s)
    (distinct : pids.Nodup) (live : ∀ pid ∈ pids, pid ∈ s.pids) :
    ∃ t, killAll Q pids s = .ok t ∧ Tidy t ∧ t.maAlgorithm = s.maAlgorithm ∧
      t.allocatedBlockHead = s.allocatedBlockHead.filter (fun b => b.pid ∉ pids) ∧
      t.freeAddresses = s.freeAddresses ∪
        {x | ∃ b ∈ s.allocatedBlockHead, b.pid ∈ pids ∧ x ∈ b.extent.addresses} := by
  induction pids generalizing s with
  | nil => exact ⟨s, rfl, tidy, rfl, by simp, by simp⟩
  | cons pid pids ih =>
      obtain ⟨fresh, rest⟩ := List.nodup_cons.mp distinct
      obtain ⟨first, later⟩ := List.forall_mem_cons.mp live
      obtain ⟨ab, member, rfl⟩ := List.mem_map.mp first
      obtain ⟨before, after, split⟩ := List.append_of_mem member
      have returned := killProcess_of_live (Q := Q) tidy.wellFormed.counted numbered.nodup split
      obtain ⟨tidy', numbered'⟩ := tidy.terminated (Q := Q) numbered split
      have nodup := numbered.nodup
      rw [State.pids, split] at nodup
      have others := pid_ne_of_nodup nodup
      have live' : ∀ pid ∈ pids, pid ∈ (Partition.terminated Q before ab after s).pids := by
        intro pid inPids
        have different : pid ≠ ab.pid := fun same => fresh (same ▸ inPids)
        have old := later pid inPids
        rw [State.pids, split, (List.perm_middle.map _).mem_iff, List.map_cons] at old
        exact (List.mem_cons.mp old).resolve_left different
      obtain ⟨t, returned', tidy'', policy, allocated, addresses⟩ := ih tidy' numbered' rest live'
      refine ⟨t, ?_, tidy'', policy, ?_, ?_⟩
      · simp only [killAll, returned, bind, Except.bind, returned']
      · have gone : (before ++ ab :: after).filter (fun b => b.pid ∉ ab.pid :: pids) =
            (before ++ after).filter (fun b => b.pid ∉ ab.pid :: pids) := by
          simp
        rw [allocated, split, gone]
        refine List.filter_congr fun b inRest => ?_
        have other := others b inRest
        simp [other]
      · rw [addresses, terminated_freeAddresses tidy.wellFormed split, Set.union_assoc]
        congr 1
        ext x
        constructor
        · rintro (inVictim | ⟨b, inRest, inPids, inBlock⟩)
          · exact ⟨ab, member, List.mem_cons_self, inVictim⟩
          · have inList : b ∈ s.allocatedBlockHead := by
              rw [split, List.perm_middle.mem_iff]
              exact List.mem_cons_of_mem _ inRest
            exact ⟨b, inList, List.mem_cons_of_mem _ inPids, inBlock⟩
        · rintro ⟨b, inList, inPids, inBlock⟩
          rw [split, List.perm_middle.mem_iff] at inList
          rcases List.mem_cons.mp inList with rfl | inRest
          · exact .inl inBlock
          · exact .inr ⟨b, inRest, (List.mem_cons.mp inPids).resolve_left (others b inRest), inBlock⟩

/-- **The order of terminations does not matter.** Distinct live processes are terminated in
two orders; both runs of `kill_process` return, with the same allocated list, the same free
blocks and the same counter, and under first fit with the same free list. -/
theorem killAll_comm (Q : Qsort) {s : State} (reached : ReachableState Q s) {pids pids' : List Int}
    (distinct : pids.Nodup) (live : ∀ pid ∈ pids, pid ∈ s.allocatedBlockHead.map AllocatedBlock.pid)
    (reordered : pids.Perm pids') :
    ∃ t t', killAll Q pids s = .ok t ∧ killAll Q pids' s = .ok t' ∧
      t.allocatedBlockHead = t'.allocatedBlockHead ∧ t.freeBlock.Perm t'.freeBlock ∧
      (s.maAlgorithm = .maFF → t.freeBlock = t'.freeBlock) ∧ t.freeBlockLen = t'.freeBlockLen := by
  have tidy := tidy_of_reachable reached
  have numbered := numbered_of_reachable reached
  obtain ⟨t, returned, tidyT, policy, allocated, addresses⟩ :=
    killAll_effect (Q := Q) tidy numbered distinct live
  have live' : ∀ pid ∈ pids', pid ∈ s.pids := fun pid member =>
    live pid (reordered.mem_iff.mpr member)
  obtain ⟨t', returned', tidyT', policy', allocated', addresses'⟩ :=
    killAll_effect (Q := Q) tidy numbered (reordered.nodup_iff.mp distinct) live'
  have same : t.freeAddresses = t'.freeAddresses := by
    rw [addresses, addresses']
    simp only [reordered.mem_iff]
  have perm := freeBlock_perm_of_addresses tidyT tidyT' same
  refine ⟨t, t', returned, returned', ?_, perm, fun firstFit => ?_, ?_⟩
  · rw [allocated, allocated']
    simp only [reordered.mem_iff]
  · exact freeBlock_eq_of_addresses tidyT tidyT' (policy.trans firstFit) (policy'.trans firstFit) same
  · rw [tidyT.wellFormed.counted, tidyT'.wellFormed.counted, perm.length_eq]

/-- Three of four processes, terminated in the order of their creation and in another one. -/
theorem killAll_comm_three :
    ∃ s t t', session .insertion 1 [.newProcess ⟨0, 0, 0⟩ 100, .newProcess ⟨0, 0, 0⟩ 100,
        .newProcess ⟨0, 0, 0⟩ 100, .newProcess ⟨0, 0, 0⟩ 100] initial = .ok s ∧
      killAll .insertion [1, 2, 3] s = .ok t ∧ killAll .insertion [3, 1, 2] s = .ok t' ∧
      t.allocatedBlockHead = t'.allocatedBlockHead ∧ t.freeBlock = t'.freeBlock ∧
      t.freeBlock = [⟨300, 0⟩, ⟨624, 400⟩] := by
  have reached := reachable_of_session .insertion 1 [.newProcess ⟨0, 0, 0⟩ 100,
    .newProcess ⟨0, 0, 0⟩ 100, .newProcess ⟨0, 0, 0⟩ 100, .newProcess ⟨0, 0, 0⟩ 100]
    Reachable.refl (by decide) rfl
  obtain ⟨t, t', returned, returned', allocated, -, free, -⟩ :=
    @killAll_comm .insertion _ reached [1, 2, 3] [3, 1, 2] (by decide) (by decide) (by decide)
  refine ⟨_, t, t', rfl, returned, returned', allocated, free rfl, ?_⟩
  cases returned
  rfl

/-! ## Creating a process and terminating it -/

/-- An allocation that leaves no slice behind takes exactly its addresses out of the list. -/
theorem afterFit_addresses {r : Int} {pre next : List FreeBlock} {fbt : FreeBlock}
    (algorithm : Algorithm) (positive : 0 < r) (large : r ≤ fbt.size)
    (slack : fbt.size - r = 0 ∨ minSlice < fbt.size - r) :
    addressesOf ((afterFit Q algorithm r pre fbt next).map FreeBlock.extent) ∪
        (⟨fbt.startAddr, r⟩ : Extent).addresses =
      addressesOf ((pre ++ fbt :: next).map FreeBlock.extent) := by
  rw [addressesOf_perm ((afterFit_perm (Q := Q) algorithm r pre fbt next).map FreeBlock.extent),
    addressesOf_perm (List.perm_middle.map FreeBlock.extent), List.map_cons, addressesOf,
    Set.union_comm]
  rcases remainder_cases r fbt with ⟨small, gone⟩ | ⟨kept, rest⟩
  · have whole : fbt.extent = ⟨fbt.startAddr, r⟩ := by
      simp only [FreeBlock.extent, Extent.mk.injEq, true_and]
      omega
    rw [gone, whole]
    rfl
  · have short : 0 < fbt.size - r := by
      simp only [minSlice] at kept
      omega
    have cut : fbt.extent.addresses = (⟨fbt.startAddr, r⟩ : Extent).addresses ∪
        (⟨fbt.startAddr + r, fbt.size - r⟩ : Extent).addresses := by
      rw [← addresses_join positive short rfl]
      simp [FreeBlock.extent]
    rw [rest, cut, Set.union_assoc]
    rfl

/-- Terminating the process that came last restores a state that lacks just its block. -/
theorem killProcess_restores {ab : AllocatedBlock} (tidy : Tidy s) (tidy' : Tidy { t with flag := 1 })
    (numbered : Numbered t) (allocated : t.allocatedBlockHead = ab :: s.allocatedBlockHead)
    (policy : t.maAlgorithm = s.maAlgorithm)
    (taken : t.freeAddresses ∪ ab.extent.addresses = s.freeAddresses) :
    ∃ u, killProcess Q ab.pid t = .ok u ∧ u.allocatedBlockHead = s.allocatedBlockHead ∧
      u.freeBlock.Perm s.freeBlock ∧ (s.maAlgorithm = .maFF → u.freeBlock = s.freeBlock) ∧
      u.freeBlockLen = s.freeBlockLen := by
  have split : t.allocatedBlockHead = [] ++ ab :: s.allocatedBlockHead := allocated
  have counted : t.Counted := tidy'.wellFormed.counted
  have returned := killProcess_of_live (Q := Q) counted numbered.nodup split
  have numbered' : Numbered { t with flag := 1 } := ⟨numbered.counted, numbered.nodup⟩
  -- the state that comes back, with `flag` set
  have gone := (tidy'.terminated (Q := Q) numbered' split).1
  have addresses := terminated_freeAddresses (Q := Q) tidy'.wellFormed split
  have same := addresses.trans taken
  have perm := freeBlock_perm_of_addresses gone tidy same
  have exactly := fun firstFit : s.maAlgorithm = .maFF =>
    freeBlock_eq_of_addresses gone tidy (policy.trans firstFit) firstFit same
  refine ⟨_, returned, rfl, perm, exactly, ?_⟩
  rw [tidy.wellFormed.counted]
  exact congrArg Nat.cast perm.length_eq

/-- **A process that is created and terminated leaves no trace.** In every reachable state a
request that is served from a block which fits exactly or keeps more than `MIN_SLICE`
returns, and terminating the new process restores the allocated list, the free blocks and
the counter, and under first fit the free list. -/
theorem create_terminate_restores (Q : Qsort) {s : State} (reached : ReachableState Q s) {r : Int}
    (positive : 0 < r) {pre next : List FreeBlock} {fbt : FreeBlock}
    (found : findFit r [] s.freeBlock = some (pre, fbt, next))
    (slack : fbt.size - r = 0 ∨ minSlice < fbt.size - r) (malloced : AllocatedBlock) (fuel : Nat) :
    ∃ ret t u, newProcess Q (fuel + 1) malloced r s = .ok (ret, t) ∧ (ret = 1 ∨ ret = 2) ∧
      t.allocatedBlockHead = ⟨s.pid + 1, r, fbt.startAddr⟩ :: s.allocatedBlockHead ∧
      killProcess Q (s.pid + 1) t = .ok u ∧
      u.allocatedBlockHead = s.allocatedBlockHead ∧ u.freeBlock.Perm s.freeBlock ∧
      (s.maAlgorithm = .maFF → u.freeBlock = s.freeBlock) ∧ u.freeBlockLen = s.freeBlockLen := by
  have tidy := tidy_of_reachable reached
  have numbered := numbered_of_reachable reached
  obtain ⟨split, large, -⟩ := findFit_nil_split found
  have created : Transition Q s (.newProcess malloced r) _ := .created positive (.placed found)
  have numbered' := numbered.transition created
  have same : addressesOf ((afterFit Q s.maAlgorithm r pre fbt next).map FreeBlock.extent) ∪
      (⟨fbt.startAddr, r⟩ : Extent).addresses = s.freeAddresses := by
    rw [afterFit_addresses s.maAlgorithm positive large slack, State.freeAddresses,
      State.freeExtents, split]
  obtain ⟨u, terminated, allocated, perm, exactly, len⟩ :=
    @killProcess_restores Q s _ ⟨s.pid + 1, r, fbt.startAddr⟩ tidy (tidy.transition created)
      ⟨numbered'.counted, numbered'.nodup⟩ rfl rfl same
  refine ⟨_, _, u, newProcess_of_fit tidy.wellFormed.counted positive found malloced fuel, ?_, rfl,
    terminated, allocated, perm, exactly, len⟩
  split_ifs
  · exact .inl rfl
  · exact .inr rfl

/-- Under worst fit a request for 24 is cut from the block of 824 and comes back to it. -/
theorem create_terminate_restores_worst_fit :
    ∃ s t u, session .insertion 1 [.newProcess ⟨0, 0, 0⟩ 100, .newProcess ⟨0, 0, 0⟩ 100,
        .killProcess 1, .setAlgorithm 3] initial = .ok s ∧
      newProcess .insertion 1 ⟨0, 0, 0⟩ 24 s = .ok (2, t) ∧
      t.freeBlock = [⟨800, 224⟩, ⟨100, 0⟩] ∧ killProcess .insertion 3 t = .ok u ∧
      u.allocatedBlockHead = s.allocatedBlockHead ∧ u.freeBlock.Perm s.freeBlock := by
  have reached := reachable_of_session .insertion 1 [.newProcess ⟨0, 0, 0⟩ 100,
    .newProcess ⟨0, 0, 0⟩ 100, .killProcess 1, .setAlgorithm 3] Reachable.refl (by decide) rfl
  obtain ⟨ret, t, u, created, -, -, killed, allocated, perm, -⟩ :=
    create_terminate_restores .insertion reached (by decide) (r := 24) rfl (by decide) ⟨0, 0, 0⟩ 0
  cases created
  exact ⟨_, _, u, rfl, rfl, rfl, killed, allocated, perm⟩

end OsLab.Partition
