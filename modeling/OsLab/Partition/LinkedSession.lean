import OsLab.Partition.LinkedMenu

/-!
# The program on the heap

One turn of the menu agrees with the turn on lists (`menu_agrees`), and so does a whole session
(`session_refines`): whatever the user does with positive sizes and wherever `malloc` puts the
nodes, the program on the heap never follows `NULL`, never touches a node that was freed and frees
no node twice, the loops over the lists end, and the live nodes are those of the two lists.
`do_exit` then leaves nothing behind (`exit_frees_all`).

A list grows by at most one node in a turn (`Short.transition`), which bounds the rounds of the
loops by the number of turns.
-/

set_option autoImplicit false

namespace OsLab.Partition.Linked

open OsLab.Foundation

variable {A : Allocator} {Q : Qsort} {m : Memory} {s t : State} {n fuel : Nat}

/-! ## How long the lists get -/

theorem mergeAll_length_le (blocks : List FreeBlock) :
    (mergeAll blocks).length ≤ blocks.length := by
  have shorter (pre : FreeBlock) (blocks : List FreeBlock) :
      (mergeFrom pre blocks 0).1.length ≤ blocks.length + 1 := by
    induction blocks generalizing pre with
    | nil => simp [mergeFrom]
    | cons b blocks ih =>
        by_cases adjacent : pre.startAddr + pre.size = b.startAddr
        · have joined := ih { pre with size := pre.size + b.size }
          rw [mergeFrom_blocks _ _ 0 (0 - 1)] at joined
          simp only [mergeFrom, adjacent, if_true, List.length_cons]
          omega
        · have later := ih b
          simp only [mergeFrom, adjacent, if_false, List.length_cons]
          omega
  cases blocks with
  | nil => exact Nat.le_refl _
  | cons b blocks => exact shorter b blocks

theorem remainder_length_le (r : Int) (fbt : FreeBlock) : (remainder r fbt).toList.length ≤ 1 := by
  cases remainder r fbt <;> simp

theorem afterFit_length_le (algorithm : Algorithm) (r : Int) (pre : List FreeBlock)
    (fbt : FreeBlock) (next : List FreeBlock) :
    (afterFit Q algorithm r pre fbt next).length ≤ pre.length + next.length + 1 := by
  have few := remainder_length_le r fbt
  rw [(afterFit_perm algorithm r pre fbt next).length_eq, List.length_append, List.length_append]
  omega

/-- **A turn makes a list longer by at most one.** -/
theorem Short.transition {op : Op} (short : Short n s) (move : Transition Q s op t) :
    Short (n + 1) t := by
  have free := short.free
  have owned := short.owned
  cases move with
  | kept _ _ _ => exact ⟨by simp only; omega, by simp only; omega⟩
  | resized _ _ => exact ⟨by simp, by simp only [setFree_allocatedBlockHead]; omega⟩
  | chosen algorithm =>
      refine ⟨?_, by simp only [setFree_allocatedBlockHead]; omega⟩
      rw [setFree_freeBlock, (Q.perm _ _).length_eq]
      omega
  | @created _ size _ _ _ creation =>
      cases creation with
      | @placed pre next fbt found =>
          obtain ⟨split, -, -⟩ := findFit_nil_split found
          rw [split, List.length_append, List.length_cons] at free
          refine ⟨?_, by simp only [setFree_allocatedBlockHead, List.length_cons]; omega⟩
          refine (afterFit_length_le _ _ _ _ _).trans ?_
          omega
      | refused _ _ =>
          exact ⟨by simp only [State.numbered]; omega, by simp only [State.numbered]; omega⟩
      | lost _ _ _ =>
          have few := remainder_length_le size (gathered s.numbered)
          refine ⟨?_, ?_⟩
          · simp only [compactedState, setFree_freeBlock]
            omega
          · simp only [compactedState, setFree_allocatedBlockHead, movedBlocks_length]
            exact Nat.le_succ_of_le owned
  | @killed pid p ab found node =>
      have fewer := List.length_eraseIdx_le s.allocatedBlockHead p
      refine ⟨?_, by simp only [setFree_allocatedBlockHead]; omega⟩
      have joined := mergeAll_length_le (Q.sort cmpFF (⟨ab.size, ab.startAddr⟩ :: s.freeBlock))
      rw [(Q.perm _ _).length_eq, List.length_cons] at joined
      rw [setFree_freeBlock, releasedFree, (settle_perm s.maAlgorithm _).length_eq]
      omega

/-! ## One turn -/

theorem menu_agrees (wf : WellFormed s) (rep : Represents m s ∅) (short : Short n s)
    (enough : n + 2 < fuel) (depth : Nat) (op : Op) :
    Agrees (fun t t' => Represents t' t ∅) (Partition.menu Q depth op s)
      (menu A Q fuel depth op m) := by
  cases op with
  | setMemSize size => exact (setMemSize_agrees wf rep size).bind fun _ _ same => .returns same.2
  | setAlgorithm algorithm =>
      exact (setAlgorithm_agrees wf rep algorithm).bind fun _ _ held => .returns held.flagged
  | newProcess malloced size =>
      exact (newProcess_agrees wf rep short enough depth malloced size).bind fun _ _ same =>
        .returns same.2.flagged
  | killProcess pid =>
      exact (killProcess_agrees wf rep short enough pid).bind fun _ _ held => .returns held.flagged
  | displayMemUsage =>
      simp only [menu, displayMemUsage_spec rep short enough, bind, Except.bind]
      exact .returns rep.flagged

/-! ## Sessions -/

theorem session_agrees (wf : WellFormed s) (rep : Represents m s ∅) (short : Short n s)
    (depth : Nat) {ops : List Op} (positive : ∀ op ∈ ops, op.Positive)
    (enough : n + ops.length + 1 < fuel) :
    Agrees (fun t t' => Represents t' t ∅ ∧ Short (n + ops.length) t)
      (Partition.session Q depth ops s) (session A Q fuel depth ops m) := by
  induction ops generalizing s m n with
  | nil => exact .returns ⟨rep, short⟩
  | cons op ops ih =>
      obtain ⟨first, later⟩ := List.forall_mem_cons.mp positive
      rw [List.length_cons] at enough ⊢
      have turn := menu_agrees (A := A) (Q := Q) wf rep short
        (show n + 2 < fuel by omega) depth op
      simp only [Partition.session, session, bind, Except.bind]
      rcases turn.outcomes with ⟨t, t', ran, ran', held⟩ | ⟨stop, fault, ran, ran', reasons⟩
      · have step : Step Q s op t := ⟨first, depth, ran⟩
        have rest := ih (wf.step step) held (short.transition (step_transition wf step)) later
          (by omega)
        rw [ran, ran']
        rwa [Nat.add_right_comm, Nat.add_assoc] at rest
      · rw [ran, ran']
        exact .stops reasons

theorem initial_represents (A : Allocator) : Represents (initial A) Partition.initial ∅ := by
  obtain ⟨more, live, fresh⟩ :=
    Owned.empty.malloc A (⟨⟨defaultMemSize, defaultMemStart⟩, none⟩ : Cell FreeBlock)
  have single := more.adopt_first (Finset.mem_insert_self _ ∅) live
  rw [Finset.erase_insert fresh] at single
  exact ⟨rfl, rfl, rfl, rfl, ⟨rfl, _, single, rfl⟩, [], .empty, rfl⟩

/-- From the start of the program. -/
theorem session_from_initial (A : Allocator) (Q : Qsort) (depth : Nat) {ops : List Op}
    (positive : ∀ op ∈ ops, op.Positive) (enough : ops.length + 1 < fuel) :
    Agrees (fun s m => Represents m s ∅ ∧ Short ops.length s)
      (Partition.session Q depth ops Partition.initial)
      (session A Q fuel depth ops (initial A)) := by
  have short : Short 0 Partition.initial := ⟨by decide, by decide⟩
  have agree := session_agrees (A := A) (Q := Q) initial_wellFormed (initial_represents A) short
    depth positive (show 0 + ops.length + 1 < fuel by omega)
  rwa [Nat.zero_add] at agree

/-- `do_exit` frees all nodes that are left. -/
theorem doExit_spec (rep : Represents m s ∅) (short : Short n s) (enough : n + 1 < fuel) :
    ∃ t, doExit fuel m = .ok t ∧ t.descriptors = ∅ ∧ t.freeNodes = ∅ := by
  obtain ⟨-, free, ownedFree, sameFree⟩ := rep.free
  obtain ⟨nodes, owned, same⟩ := rep.owned
  have shortFree := short.free
  have shortOwned := short.owned
  rw [← sameFree, vals_length] at shortFree
  rw [← same, vals_length] at shortOwned
  obtain ⟨descriptors, freed, nothing⟩ := freeAll_spec owned (show nodes.length < fuel by omega)
  obtain ⟨freeNodes, freed', nothing'⟩ :=
    freeAll_spec ownedFree (show free.length < fuel by omega)
  refine ⟨{ m with descriptors := descriptors, freeNodes := freeNodes }, ?_, nothing.eq_empty,
    nothing'.eq_empty⟩
  simp only [doExit, freed, freed', bind, Except.bind]

end OsLab.Partition.Linked
