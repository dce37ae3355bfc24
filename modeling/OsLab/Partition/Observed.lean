import OsLab.Partition.Model
import OsLab.Foundation.Logged

/-!
# The allocator, observed

The functions of the model once more, with a record of every call of
`rearrange_by` (the comparison function and the globals at the call) and of every
sum and difference of sizes and addresses, in the order of the source. They are
copies of the model in which the arithmetic of a line stands as a step of its own;
loops that the model folds into a sum are written out. They call `rearrange_by`
only through its observed copy.

The outcome of an observed function is the function of the model
(`Observed.menu_outcome` for the menu, through one lemma a function), and the record
of each function is stated in the terms of the model (`Observed.menu_log` for the
menu). So what is recorded is what the model does. A call that does not come back
keeps its record.
-/

set_option autoImplicit false

namespace OsLab.Partition

open OsLab.Foundation

variable {Q : Qsort}

/-- What is recorded. -/
inductive Event where
  /-- `rearrange_by` is called. -/
  | sorts (comparator : Comparator FreeBlock) (s : State)
  /-- The value of a sum or difference. -/
  | computes (value : Int)

/-- A call that is observed. -/
abbrev Observed (α : Type) := Logged Event Stop α

namespace Observed

open Logged (record quiet)

/-- A sum or difference. -/
def int (value : Int) : Observed Int := record (.computes value) value

/-! ## Sorting and compaction -/

def rearrangeBy (Q : Qsort) (comparator : Comparator FreeBlock) (s : State) :
    Observed State := do
  record (.sorts comparator s) ()
  quiet (Partition.rearrangeBy Q comparator s)

def rearrange (Q : Qsort) (algorithm : Algorithm) (s : State) : Observed State :=
  match algorithm with
  | .maFF => rearrangeBy Q cmpFF s
  | .maBF => rearrangeBy Q cmpBF s
  | .maWF => rearrangeBy Q cmpWF s

/-- `next_start += arr[i]->size` in each turn. -/
def relocate : List Nat → Int → List AllocatedBlock → Observed (List AllocatedBlock × Int)
  | [], nextStart, nodes => pure (nodes, nextStart)
  | p :: arr, nextStart, nodes =>
      match nodes[p]? with
      | none => pure (nodes, nextStart)
      | some ab => do
          let next ← int (nextStart + ab.size)
          relocate arr next (nodes.set p { ab with startAddr := nextStart })

def compactMemory (Q : Qsort) (s : State) : Observed (Int × State) :=
  let nodes := s.allocatedBlockHead
  if nodes.length = 0 then pure (1, s)
  else do
    let arr := Q.sort (cmpAllocByAddr nodes) (List.range nodes.length)
    let moved ← relocate arr defaultMemStart nodes
    let nextStart := moved.2
    if nextStart < s.memSize then do
      let size ← int (s.memSize - nextStart)
      pure (1, { s with
        allocatedBlockHead := moved.1
        freeBlock := [⟨size, nextStart⟩]
        freeBlockLen := 1 })
    else pure (1, { s with allocatedBlockHead := moved.1, freeBlock := [], freeBlockLen := 0 })

/-! ## Allocation -/

/-- `total_free += fbt->size` in each turn. -/
def totalFree : Int → List FreeBlock → Observed Int
  | total, [] => pure total
  | total, fbt :: next => do
      let sum ← int (total + fbt.size)
      totalFree sum next

/-- The difference is computed for the test and again for the node. -/
def takeFit (Q : Qsort) (ab : AllocatedBlock) (pre : List FreeBlock) (fbt : FreeBlock)
    (next : List FreeBlock) (s : State) : Observed (AllocatedBlock × State) := do
  let served := { ab with startAddr := fbt.startAddr }
  let left ← int (fbt.size - ab.size)
  if left ≤ minSlice then pure (served, deleteFreeBlock pre next s)
  else do
    let size ← int (fbt.size - ab.size)
    let start ← int (fbt.startAddr + ab.size)
    let carved := { s with freeBlock := pre ++ ⟨size, start⟩ :: next }
    match s.maAlgorithm with
    | .maFF => pure (served, carved)
    | .maBF => do
        let sorted ← rearrangeBy Q cmpBF carved
        pure (served, sorted)
    | .maWF => do
        let sorted ← rearrangeBy Q cmpWF carved
        pure (served, sorted)

def allocateMem (Q : Qsort) :
    Nat → AllocatedBlock → State → Observed (Int × AllocatedBlock × State)
  | 0, _, _ => quiet (.error .outOfFuel)
  | fuel + 1, ab, s =>
      match findFit ab.size [] s.freeBlock with
      | some (pre, fbt, next) => do
          let taken ← takeFit Q ab pre fbt next s
          pure (1, taken)
      | none => do
          let total ← totalFree 0 s.freeBlock
          if total ≥ ab.size then do
            let compacted ← compactMemory Q s
            if compacted.1 ≠ 1 then pure (-1, ab, compacted.2)
            else do
              let inner ← allocateMem Q fuel ab compacted.2
              pure (-1, inner.2)
          else pure (-1, ab, s)

/-! ## Release -/

/-- The end of `pre` is computed for each comparison, the joint size for each
merge. -/
def mergeFrom : FreeBlock → List FreeBlock → Int → Observed (List FreeBlock × Int)
  | pre, [], len => pure ([pre], len)
  | pre, fbt :: next, len => do
      let stop ← int (pre.startAddr + pre.size)
      if stop = fbt.startAddr then do
        let size ← int (pre.size + fbt.size)
        mergeFrom { pre with size := size } next (len - 1)
      else do
        let merged ← mergeFrom fbt next len
        pure (pre :: merged.1, merged.2)

def mergeAdjacent (s : State) : Observed State :=
  match s.freeBlock with
  | [] => pure s
  | fbt :: next => do
      let merged ← mergeFrom fbt next s.freeBlockLen
      pure { s with freeBlock := merged.1, freeBlockLen := merged.2 }

def freeMem (Q : Qsort) (ab : AllocatedBlock) (s : State) : Observed (Int × State) := do
  let inserted := insertFreeBlock [] ⟨ab.size, ab.startAddr⟩ s.freeBlock s
  let sorted ← rearrangeBy Q cmpFF inserted
  let merged ← mergeAdjacent sorted
  match s.maAlgorithm with
  | .maFF => pure (1, merged)
  | .maBF => do
      let t ← rearrangeBy Q cmpBF merged
      pure (1, t)
  | .maWF => do
      let t ← rearrangeBy Q cmpWF merged
      pure (1, t)

/-! ## The menu -/

def setAlgorithm (Q : Qsort) (algorithm : Int) (s : State) : Observed State :=
  let chosen := (Algorithm.ofInt? algorithm).getD s.maAlgorithm
  rearrange Q chosen { s with maAlgorithm := chosen }

def newProcess (Q : Qsort) (fuel : Nat) (malloced : AllocatedBlock) (size : Int) (s : State) :
    Observed (Int × State) := do
  let numbered := { s with pid := s.pid + 1 }
  let ab : AllocatedBlock :=
    { malloced with
      pid := s.pid + 1
      size := if size > 0 then size else malloced.size }
  let result ← allocateMem Q fuel ab numbered
  let (ret, served, t) := result
  if ret = 1 ∧ t.allocatedBlockHead = [] then pure (1, { t with allocatedBlockHead := [served] })
  else if ret = 1 then
    pure (2, { t with allocatedBlockHead := served :: t.allocatedBlockHead })
  else if ret = -1 then pure (-1, t)
  else pure (3, t)

def killProcess (Q : Qsort) (pid : Int) (s : State) : Observed State :=
  match findProcess pid s.allocatedBlockHead with
  | none => pure s
  | some p =>
      match s.allocatedBlockHead[p]? with
      | none => quiet (.error .nullDereference)
      | some ab => do
          let released ← freeMem Q ab s
          pure (dispose p released.2).2

/-- One turn of the loop of `main`. `set_mem_size` computes and sorts nothing. -/
def menu (Q : Qsort) (fuel : Nat) (op : Op) (s : State) : Observed State :=
  match op with
  | .setMemSize size => do
      let result ← quiet (setMemSize size s)
      pure result.2
  | .setAlgorithm algorithm => do
      let t ← setAlgorithm Q algorithm s
      pure { t with flag := 1 }
  | .newProcess malloced size => do
      let result ← newProcess Q fuel malloced size s
      pure { result.2 with flag := 1 }
  | .killProcess pid => do
      let t ← killProcess Q pid s
      pure { t with flag := 1 }
  | .displayMemUsage => pure { s with flag := 1 }

/-! ## The observed functions are the functions of the model -/

@[simp] theorem int_outcome (value : Int) : (int value).outcome = .ok value := rfl

@[simp] theorem rearrangeBy_outcome (comparator : Comparator FreeBlock) (s : State) :
    (rearrangeBy Q comparator s).outcome = Partition.rearrangeBy Q comparator s := by
  simp only [rearrangeBy, Logged.outcome_bind, Logged.outcome_record, Logged.outcome_quiet, ok_bind]

@[simp] theorem rearrange_outcome (algorithm : Algorithm) (s : State) :
    (rearrange Q algorithm s).outcome = Partition.rearrange Q algorithm s := by
  cases algorithm with
  | maFF => exact rearrangeBy_outcome cmpFF s
  | maBF => exact rearrangeBy_outcome cmpBF s
  | maWF => exact rearrangeBy_outcome cmpWF s

@[simp] theorem relocate_outcome (arr : List Nat) (nextStart : Int)
    (nodes : List AllocatedBlock) :
    (relocate arr nextStart nodes).outcome = .ok (Partition.relocate arr nextStart nodes) := by
  induction arr generalizing nextStart nodes with
  | nil => rfl
  | cons p arr ih =>
      cases node : nodes[p]? with
      | none => simp only [relocate, Partition.relocate, node, Logged.outcome_pure]
      | some ab =>
          simp only [relocate, Partition.relocate, node, Logged.outcome_bind, int_outcome, ok_bind,
            ih]

@[simp] theorem compactMemory_outcome (s : State) :
    (compactMemory Q s).outcome = .ok (Partition.compactMemory Q s) := by
  by_cases empty : s.allocatedBlockHead.length = 0
  · simp only [compactMemory, Partition.compactMemory, empty, ↓reduceIte, Logged.outcome_pure]
  · simp only [compactMemory, Partition.compactMemory, empty, ↓reduceIte, Logged.outcome_bind,
      relocate_outcome, ok_bind]
    split
    next room => rfl
    next full => rfl

/-- The loop adds up what the model sums. -/
@[simp] theorem totalFree_outcome (total : Int) (blocks : List FreeBlock) :
    (totalFree total blocks).outcome = .ok (total + Partition.totalFree blocks) := by
  induction blocks generalizing total with
  | nil => simp [totalFree, Partition.totalFree]
  | cons fbt next ih =>
      simp only [totalFree, Logged.outcome_bind, int_outcome, ok_bind, ih, Partition.totalFree,
        List.map_cons, List.sum_cons, add_assoc]

@[simp] theorem takeFit_outcome (ab : AllocatedBlock) (pre : List FreeBlock) (fbt : FreeBlock)
    (next : List FreeBlock) (s : State) :
    (takeFit Q ab pre fbt next s).outcome = Partition.takeFit Q ab pre fbt next s := by
  simp only [takeFit, Partition.takeFit, Logged.outcome_bind, int_outcome, ok_bind]
  by_cases small : fbt.size - ab.size ≤ minSlice
  · simp only [small, ↓reduceIte, Logged.outcome_pure]
  · simp only [small, ↓reduceIte, Logged.outcome_bind, int_outcome, ok_bind]
    cases s.maAlgorithm with
    | maFF => rfl
    | maBF => simp only [Logged.outcome_bind, rearrangeBy_outcome, Logged.outcome_pure]
    | maWF => simp only [Logged.outcome_bind, rearrangeBy_outcome, Logged.outcome_pure]

@[simp] theorem allocateMem_outcome (fuel : Nat) (ab : AllocatedBlock) (s : State) :
    (allocateMem Q fuel ab s).outcome = Partition.allocateMem Q fuel ab s := by
  induction fuel generalizing s with
  | zero => rfl
  | succ fuel ih =>
      cases found : findFit ab.size [] s.freeBlock with
      | some split =>
          obtain ⟨pre, fbt, next⟩ := split
          simp only [allocateMem, Partition.allocateMem, found, Logged.outcome_bind,
            takeFit_outcome, Logged.outcome_pure]
      | none =>
          simp only [allocateMem, Partition.allocateMem, found, Logged.outcome_bind,
            totalFree_outcome, ok_bind, zero_add]
          by_cases enough : Partition.totalFree s.freeBlock ≥ ab.size
          · simp only [enough, ↓reduceIte, Logged.outcome_bind, compactMemory_outcome, ok_bind]
            split
            next failed => rfl
            next success => simp only [Logged.outcome_bind, ih, Logged.outcome_pure]
          · simp only [enough, ↓reduceIte, Logged.outcome_pure]

@[simp] theorem mergeFrom_outcome (pre : FreeBlock) (blocks : List FreeBlock) (len : Int) :
    (mergeFrom pre blocks len).outcome = .ok (Partition.mergeFrom pre blocks len) := by
  induction blocks generalizing pre len with
  | nil => rfl
  | cons fbt next ih =>
      simp only [mergeFrom, Partition.mergeFrom, Logged.outcome_bind, int_outcome, ok_bind]
      by_cases adjacent : pre.startAddr + pre.size = fbt.startAddr
      · simp only [adjacent, ↓reduceIte, Logged.outcome_bind, int_outcome, ok_bind, ih]
      · simp only [adjacent, ↓reduceIte, Logged.outcome_bind, ih, ok_bind, Logged.outcome_pure]

@[simp] theorem mergeAdjacent_outcome (s : State) :
    (mergeAdjacent s).outcome = .ok (Partition.mergeAdjacent s) := by
  unfold mergeAdjacent Partition.mergeAdjacent
  cases s.freeBlock with
  | nil => rfl
  | cons fbt next =>
      simp only [Logged.outcome_bind, mergeFrom_outcome, ok_bind, Logged.outcome_pure]

@[simp] theorem freeMem_outcome (ab : AllocatedBlock) (s : State) :
    (freeMem Q ab s).outcome = Partition.freeMem Q ab s := by
  simp only [freeMem, Partition.freeMem, Logged.outcome_bind, rearrangeBy_outcome,
    mergeAdjacent_outcome, ok_bind]
  cases s.maAlgorithm with
  | maFF => rfl
  | maBF => simp only [Logged.outcome_bind, rearrangeBy_outcome, Logged.outcome_pure]
  | maWF => simp only [Logged.outcome_bind, rearrangeBy_outcome, Logged.outcome_pure]

@[simp] theorem newProcess_outcome (fuel : Nat) (malloced : AllocatedBlock) (size : Int)
    (s : State) :
    (newProcess Q fuel malloced size s).outcome =
      Partition.newProcess Q fuel malloced size s := by
  simp only [newProcess, Partition.newProcess, Logged.outcome_bind, allocateMem_outcome]
  congr 1
  funext result
  obtain ⟨ret, served, t⟩ := result
  split_ifs <;> rfl

@[simp] theorem killProcess_outcome (pid : Int) (s : State) :
    (killProcess Q pid s).outcome = Partition.killProcess Q pid s := by
  unfold killProcess Partition.killProcess
  cases findProcess pid s.allocatedBlockHead with
  | none => rfl
  | some p =>
      cases node : s.allocatedBlockHead[p]? with
      | none => simp only [node, Logged.outcome_quiet]
      | some ab =>
          simp only [node, Logged.outcome_bind, freeMem_outcome, Logged.outcome_pure]

/-- **A turn of the menu is observed as it is.** -/
theorem menu_outcome (fuel : Nat) (op : Op) (s : State) :
    (menu Q fuel op s).outcome = Partition.menu Q fuel op s := by
  cases op with
  | setMemSize size =>
      simp only [menu, Partition.menu, Logged.outcome_bind, Logged.outcome_quiet,
        Logged.outcome_pure]
  | setAlgorithm algorithm =>
      simp only [menu, Partition.menu, setAlgorithm, Partition.setAlgorithm, Logged.outcome_bind,
        rearrange_outcome, Logged.outcome_pure]
  | newProcess malloced size =>
      simp only [menu, Partition.menu, Logged.outcome_bind, newProcess_outcome,
        Logged.outcome_pure]
  | killProcess pid =>
      simp only [menu, Partition.menu, Logged.outcome_bind, killProcess_outcome,
        Logged.outcome_pure]
  | displayMemUsage => rfl

/-! ## What is recorded

A sort is recorded with the globals at the call, a value as the expression of the source over
the arguments. The loops record what the functions of the model return for the part of the
list that has been visited. -/

@[simp] theorem rearrangeBy_log (comparator : Comparator FreeBlock) (s : State) :
    (rearrangeBy Q comparator s).log = [.sorts comparator s] :=
  rfl

theorem sortThen_log {α : Type} (comparator : Comparator FreeBlock) (s : State) (f : State → α) :
    (rearrangeBy Q comparator s >>= fun t => pure (f t)).log = [.sorts comparator s] :=
  Logged.log_bind_of_silent (fun _ => Logged.log_pure _) (rearrangeBy Q comparator s)

/-- The sort that best fit and worst fit end with. -/
def resorts (s : State) : List Event :=
  match s.maAlgorithm with
  | .maFF => []
  | .maBF => [.sorts cmpBF s]
  | .maWF => [.sorts cmpWF s]

/-- `next_start` after each process that is moved. -/
theorem relocate_log {arr : List Nat} {nodes : List AllocatedBlock}
    (pointers : ∀ p ∈ arr, p < nodes.length) (nextStart : Int) :
    (relocate arr nextStart nodes).log = (List.range arr.length).map fun i =>
      .computes (Partition.relocate (arr.take (i + 1)) nextStart nodes).2 := by
  induction arr generalizing nextStart nodes with
  | nil => rfl
  | cons p arr ih =>
      obtain ⟨pointer, pointers⟩ := List.forall_mem_cons.mp pointers
      have node : nodes[p]? = some nodes[p] := List.getElem?_eq_getElem pointer
      rw [List.length_cons, List.range_succ_eq_map, List.map_cons, List.map_map]
      simp only [relocate, Partition.relocate, node, int, Logged.log_record_bind,
        List.take_succ_cons, List.take_zero]
      congr 1
      rw [ih (by simpa using pointers)]
      rfl

/-- The moves and the size of the block that is gathered. -/
theorem compactMemory_log {s : State} (some : s.allocatedBlockHead ≠ []) :
    (compactMemory Q s).log =
      (relocate (Q.sort (cmpAllocByAddr s.allocatedBlockHead)
          (List.range s.allocatedBlockHead.length)) defaultMemStart s.allocatedBlockHead).log ++
        (Partition.compactMemory Q s).2.freeBlock.map fun gathered => .computes gathered.size := by
  have nonempty : s.allocatedBlockHead.length ≠ 0 := fun none =>
    some (List.length_eq_zero_iff.mp none)
  simp only [compactMemory, Partition.compactMemory, nonempty, ↓reduceIte]
  rw [Logged.log_bind_of_ok (relocate_outcome ..)]
  congr 1
  split
  next room => rfl
  next full => rfl

theorem compactMemory_log_of_none {s : State} (none : s.allocatedBlockHead = []) :
    (compactMemory Q s).log = [] := by
  simp only [compactMemory, none, List.length_nil, ↓reduceIte, Logged.log_pure]

/-- `total_free` after each free block. -/
theorem totalFree_log (total : Int) (blocks : List FreeBlock) :
    (totalFree total blocks).log = (List.range blocks.length).map fun i =>
      .computes (total + Partition.totalFree (blocks.take (i + 1))) := by
  induction blocks generalizing total with
  | nil => rfl
  | cons fbt next ih =>
      rw [List.length_cons, List.range_succ_eq_map, List.map_cons, List.map_map]
      simp only [totalFree, int, Logged.log_record_bind, ih]
      congr 1
      · simp [Partition.totalFree]
      · refine List.map_congr_left fun i _ => ?_
        simp [Partition.totalFree, add_assoc]

/-- The remainder, again the remainder and the start of the node that stays, and the sort. -/
theorem takeFit_log (ab : AllocatedBlock) (pre : List FreeBlock) (fbt : FreeBlock)
    (next : List FreeBlock) (s : State) :
    (takeFit Q ab pre fbt next s).log = .computes (fbt.size - ab.size) ::
      if fbt.size - ab.size ≤ minSlice then []
      else .computes (fbt.size - ab.size) :: .computes (fbt.startAddr + ab.size) ::
        resorts { s with freeBlock :=
          pre ++ ⟨fbt.size - ab.size, fbt.startAddr + ab.size⟩ :: next } := by
  simp only [takeFit, int, Logged.log_record_bind]
  congr 1
  split
  next small => rfl
  next large =>
      simp only [Logged.log_record_bind, resorts]
      congr 2
      cases s.maAlgorithm with
      | maFF => rfl
      | maBF => exact sortThen_log cmpBF _ _
      | maWF => exact sortThen_log cmpWF _ _

theorem allocateMem_log_of_fit {ab : AllocatedBlock} {s : State} {pre next : List FreeBlock}
    {fbt : FreeBlock} (found : findFit ab.size [] s.freeBlock = some (pre, fbt, next))
    (fuel : Nat) :
    (allocateMem Q (fuel + 1) ab s).log = (takeFit Q ab pre fbt next s).log := by
  simp only [allocateMem, found]
  exact Logged.log_bind_of_silent (fun _ => rfl) _

/-- Without a fit the sizes are added up, and when they are enough the call compacts and
calls itself. -/
theorem allocateMem_log_of_none {ab : AllocatedBlock} {s : State}
    (found : findFit ab.size [] s.freeBlock = none) (fuel : Nat) :
    (allocateMem Q (fuel + 1) ab s).log = (totalFree 0 s.freeBlock).log ++
      if Partition.totalFree s.freeBlock ≥ ab.size then
        (compactMemory Q s).log ++ (allocateMem Q fuel ab (Partition.compactMemory Q s).2).log
      else [] := by
  have success : (Partition.compactMemory Q s).1 = 1 := by
    dsimp only [Partition.compactMemory]
    split_ifs <;> rfl
  simp only [allocateMem, found]
  rw [Logged.log_bind_of_ok (totalFree_outcome ..), zero_add]
  congr 1
  split
  next enough =>
      rw [Logged.log_bind_of_ok (compactMemory_outcome s), if_neg (by simp [success])]
      congr 1
      exact Logged.log_bind_of_silent (fun _ => rfl) _
  next short => rfl

/-- Two neighbours that touch: the end of the first and the joint size. -/
theorem mergeFrom_log_of_adjacent {pre fbt : FreeBlock}
    (adjacent : pre.startAddr + pre.size = fbt.startAddr) (next : List FreeBlock) (len : Int) :
    (mergeFrom pre (fbt :: next) len).log =
      .computes (pre.startAddr + pre.size) :: .computes (pre.size + fbt.size) ::
        (mergeFrom { pre with size := pre.size + fbt.size } next (len - 1)).log := by
  simp only [mergeFrom, int, Logged.log_record_bind, adjacent, ↓reduceIte]

/-- Two neighbours that do not: the end of the first. -/
theorem mergeFrom_log_of_apart {pre fbt : FreeBlock}
    (apart : pre.startAddr + pre.size ≠ fbt.startAddr) (next : List FreeBlock) (len : Int) :
    (mergeFrom pre (fbt :: next) len).log =
      .computes (pre.startAddr + pre.size) :: (mergeFrom fbt next len).log := by
  simp only [mergeFrom, int, Logged.log_record_bind, apart, ↓reduceIte]
  congr 1
  exact Logged.log_bind_of_silent (fun _ => rfl) _

theorem mergeAdjacent_log_of_cons {s : State} {fbt : FreeBlock} {next : List FreeBlock}
    (free : s.freeBlock = fbt :: next) :
    (mergeAdjacent s).log = (mergeFrom fbt next s.freeBlockLen).log := by
  simp only [mergeAdjacent, free]
  exact Logged.log_bind_of_silent (fun _ => rfl) _

/-- The sort by address, the merges, and the sort of the policy. -/
theorem freeMem_log {ab : AllocatedBlock} {s sorted : State}
    (sorts : Partition.rearrangeBy Q cmpFF
      (insertFreeBlock [] ⟨ab.size, ab.startAddr⟩ s.freeBlock s) = .ok sorted)
    (kept : sorted.maAlgorithm = s.maAlgorithm) :
    (freeMem Q ab s).log =
      .sorts cmpFF (insertFreeBlock [] ⟨ab.size, ab.startAddr⟩ s.freeBlock s) ::
        ((mergeAdjacent sorted).log ++ resorts (Partition.mergeAdjacent sorted)) := by
  have policy : (Partition.mergeAdjacent sorted).maAlgorithm = s.maAlgorithm := by
    rw [← kept, Partition.mergeAdjacent]
    split <;> rfl
  unfold freeMem
  rw [Logged.log_bind_of_ok ((rearrangeBy_outcome ..).trans sorts), rearrangeBy_log,
    Logged.log_bind_of_ok (mergeAdjacent_outcome sorted), List.singleton_append, resorts, policy]
  congr 2
  cases s.maAlgorithm with
  | maFF => rfl
  | maBF => exact sortThen_log cmpBF _ _
  | maWF => exact sortThen_log cmpWF _ _

theorem newProcess_log (fuel : Nat) (malloced : AllocatedBlock) (size : Int) (s : State) :
    (newProcess Q fuel malloced size s).log =
      (allocateMem Q fuel
        { malloced with pid := s.pid + 1, size := if size > 0 then size else malloced.size }
        { s with pid := s.pid + 1 }).log := by
  refine Logged.log_bind_of_silent (fun result => ?_) _
  obtain ⟨ret, served, t⟩ := result
  dsimp only
  split_ifs <;> rfl

/-- The process with the pid, when there is one, is released. -/
theorem killProcess_log (pid : Int) (s : State) :
    (killProcess Q pid s).log =
      ((findProcess pid s.allocatedBlockHead).bind (s.allocatedBlockHead[·]?)).elim []
        fun ab => (freeMem Q ab s).log := by
  unfold killProcess
  cases findProcess pid s.allocatedBlockHead with
  | none => rfl
  | some p =>
      cases node : s.allocatedBlockHead[p]? with
      | none => simp only [node, Option.bind_some, Logged.log_quiet, Option.elim_none]
      | some ab =>
          simp only [node, Option.bind_some, Option.elim_some]
          exact Logged.log_bind_of_silent (fun _ => rfl) _

/-- What a turn of the menu records. -/
theorem menu_log (fuel : Nat) (op : Op) (s : State) :
    (menu Q fuel op s).log =
      match op with
      | .setMemSize _ => []
      | .setAlgorithm algorithm =>
          (rearrange Q ((Algorithm.ofInt? algorithm).getD s.maAlgorithm)
            { s with maAlgorithm := (Algorithm.ofInt? algorithm).getD s.maAlgorithm }).log
      | .newProcess malloced size =>
          (allocateMem Q fuel
            { malloced with pid := s.pid + 1, size := if size > 0 then size else malloced.size }
            { s with pid := s.pid + 1 }).log
      | .killProcess pid =>
          ((findProcess pid s.allocatedBlockHead).bind (s.allocatedBlockHead[·]?)).elim []
            fun ab => (freeMem Q ab s).log
      | .displayMemUsage => [] := by
  cases op with
  | setMemSize size => exact Logged.log_bind_of_silent (fun _ => rfl) (quiet (setMemSize size s))
  | setAlgorithm algorithm => exact Logged.log_bind_of_silent (fun _ => rfl) _
  | newProcess malloced size =>
      exact (Logged.log_bind_of_silent (fun _ => rfl) _).trans
        (newProcess_log fuel malloced size s)
  | killProcess pid =>
      exact (Logged.log_bind_of_silent (fun _ => rfl) _).trans (killProcess_log pid s)
  | displayMemUsage => rfl

end Observed

end OsLab.Partition
