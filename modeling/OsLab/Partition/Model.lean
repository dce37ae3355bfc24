import OsLab.Foundation.Runs
import OsLab.Foundation.Sorting
import OsLab.Foundation.Extents

/-!
# The partition allocator of `2lab/3/3-1.c`

The program manages a memory `[0, mem_size)` with two linked lists, the free
blocks and the blocks allocated to processes, under one of three placement
policies. The model follows the source function by function.

* A linked list is a Lean list. A pointer into the free list is a zipper (the
  nodes before it, the node, the nodes after it), a pointer into the allocated
  list is a position. `free_block_len` is kept apart from the list, because
  `rearrange_by` trusts the counter and not the end of the list.
* A `NULL` dereference and a recursion that never comes back are outcomes of
  their own (`Stop`). `allocate_mem` is the only function that calls itself; its
  model takes the depth of the recursion that is allowed as fuel, and a call
  returns when some fuel is enough.
* `malloc` succeeds, so the exits of the source for a failed one are left out: those of
  `init_free_block`, of `compact_memory` for `arr` and the gathered block, of `new_process`, and
  of `free_mem`, after which `kill_process` disposes of the process all the same. `rearrange_by`
  does not check its nodes. `qsort` is any function that returns a sorted permutation.
* An `int` is an unbounded integer. `process_name`, a copy of the pid that only the
  display reads, and the printed text are left out.

The menu of `main` is the step relation `Step`: one chosen operation that
returns. Sizes entered for a new process are positive there; what the program
does with another entry depends on the old content of the fresh descriptor, which
`newProcess` takes as an argument.
-/

set_option autoImplicit false

namespace OsLab.Partition

open OsLab.Foundation

/-! ## Data -/

/-- `MIN_SLICE`. -/
def minSlice : Int := 10

/-- `DEFAULT_MEM_SIZE`. -/
def defaultMemSize : Int := 1024

/-- `DEFAULT_MEM_START`. -/
def defaultMemStart : Int := 0

/-- `MA_FF`, `MA_BF` and `MA_WF`. -/
inductive Algorithm where
  | maFF
  | maBF
  | maWF
  deriving DecidableEq, Repr

/-- The policies by the numbers of the menu. -/
def Algorithm.ofInt? (algorithm : Int) : Option Algorithm :=
  if algorithm = 1 then some .maFF
  else if algorithm = 2 then some .maBF
  else if algorithm = 3 then some .maWF
  else none

/-- `struct free_block_type`. -/
structure FreeBlock where
  size : Int
  startAddr : Int
  deriving DecidableEq, Repr

/-- `struct allocated_block`. -/
structure AllocatedBlock where
  pid : Int
  size : Int
  startAddr : Int
  deriving DecidableEq, Repr

/-- The global variables. `pid` counts the requests, so it is within an `int` of the source
for the first `2 ^ 31 - 1` of them. -/
structure State where
  memSize : Int
  maAlgorithm : Algorithm
  pid : Int
  flag : Int
  freeBlock : List FreeBlock
  freeBlockLen : Int
  allocatedBlockHead : List AllocatedBlock
  deriving DecidableEq, Repr

/-- Why a call does not come back. -/
inductive Stop where
  | nullDereference
  | outOfFuel
  deriving DecidableEq, Repr

/-- A call that returns a value or stops. -/
abbrev Exec := Except Stop

/-- The free list is one block of the given size. -/
def initFreeBlock (memSize : Int) (s : State) : State :=
  { s with freeBlock := [⟨memSize, defaultMemStart⟩], freeBlockLen := 1 }

/-- The state in which `main` enters its loop. -/
def initial : State :=
  initFreeBlock defaultMemSize
    { memSize := defaultMemSize, maAlgorithm := .maFF, pid := 0, flag := 0,
      freeBlock := [], freeBlockLen := 0, allocatedBlockHead := [] }

/-! ## The free list -/

def cmpFF : Comparator FreeBlock := .byKey FreeBlock.startAddr

def cmpBF : Comparator FreeBlock := .byKey FreeBlock.size

/-- The larger block first. -/
def cmpWF : Comparator FreeBlock := (Comparator.byKey FreeBlock.size).reverse

/-- The first loop of `rearrange_by`: copy `len` nodes, following `next` without
looking for the end of the list. -/
def copyNodes : Nat → List FreeBlock → Exec (List FreeBlock)
  | 0, _ => .ok []
  | _ + 1, [] => .error .nullDereference
  | len + 1, q :: next => do
      let tmp ← copyNodes len next
      .ok (q :: tmp)

/-- Sort the first `free_block_len` nodes. Nodes behind them are lost, and the
counter keeps its value. -/
def rearrangeBy (Q : Qsort) (comparator : Comparator FreeBlock) (s : State) : Exec State := do
  let tmp ← copyNodes s.freeBlockLen.toNat s.freeBlock
  .ok { s with freeBlock := Q.sort comparator tmp }

def rearrange (Q : Qsort) (algorithm : Algorithm) (s : State) : Exec State :=
  match algorithm with
  | .maFF => rearrangeBy Q cmpFF s
  | .maBF => rearrangeBy Q cmpBF s
  | .maWF => rearrangeBy Q cmpWF s

/-- Unlink the node between `pre` and `next`. -/
def deleteFreeBlock (pre next : List FreeBlock) (s : State) : State :=
  { s with freeBlock := pre ++ next, freeBlockLen := s.freeBlockLen - 1 }

/-- Link `fbt` between `pre` and `next`. -/
def insertFreeBlock (pre : List FreeBlock) (fbt : FreeBlock) (next : List FreeBlock)
    (s : State) : State :=
  { s with freeBlock := pre ++ fbt :: next, freeBlockLen := s.freeBlockLen + 1 }

/-! ## Compaction -/

/-- The comparison of two pointers into the allocated list by start address. -/
def cmpAllocByAddr (nodes : List AllocatedBlock) : Comparator Nat :=
  .byKey fun p => (nodes[p]?.map AllocatedBlock.startAddr).getD 0

/-- The loop that moves the processes: it writes through the sorted pointers
into the nodes of the list, which keep their places in it. -/
def relocate : List Nat → Int → List AllocatedBlock → List AllocatedBlock × Int
  | [], nextStart, nodes => (nodes, nextStart)
  | p :: arr, nextStart, nodes =>
      match nodes[p]? with
      | none => (nodes, nextStart)
      | some ab =>
          relocate arr (nextStart + ab.size) (nodes.set p { ab with startAddr := nextStart })

/-- Without a process it returns at once and leaves the free list as it is. -/
def compactMemory (Q : Qsort) (s : State) : Int × State :=
  let nodes := s.allocatedBlockHead
  if nodes.length = 0 then (1, s)
  else
    let arr := Q.sort (cmpAllocByAddr nodes) (List.range nodes.length)
    let moved := relocate arr defaultMemStart nodes
    let nextStart := moved.2
    if nextStart < s.memSize then
      (1, { s with
        allocatedBlockHead := moved.1
        freeBlock := [⟨s.memSize - nextStart, nextStart⟩]
        freeBlockLen := 1 })
    else
      (1, { s with allocatedBlockHead := moved.1, freeBlock := [], freeBlockLen := 0 })

/-! ## Allocation -/

/-- The scan of `allocate_mem`: the first node that is large enough, with the
nodes before and after it. -/
def findFit (requestSize : Int) :
    List FreeBlock → List FreeBlock → Option (List FreeBlock × FreeBlock × List FreeBlock)
  | _, [] => none
  | pre, fbt :: next =>
      if fbt.size ≥ requestSize then some (pre, fbt, next)
      else findFit requestSize (pre ++ [fbt]) next

/-- The second loop of `allocate_mem`. -/
def totalFree (blocks : List FreeBlock) : Int := (blocks.map FreeBlock.size).sum

/-- The body of the scan at the node it stops at. The descriptor gets the start
of the node, and the node loses its front or, when at most `MIN_SLICE` would
remain, leaves the list as a whole. -/
def takeFit (Q : Qsort) (ab : AllocatedBlock) (pre : List FreeBlock) (fbt : FreeBlock)
    (next : List FreeBlock) (s : State) : Exec (AllocatedBlock × State) :=
  let served := { ab with startAddr := fbt.startAddr }
  if fbt.size - ab.size ≤ minSlice then .ok (served, deleteFreeBlock pre next s)
  else
    let rest : FreeBlock := ⟨fbt.size - ab.size, fbt.startAddr + ab.size⟩
    let carved := { s with freeBlock := pre ++ rest :: next }
    match s.maAlgorithm with
    | .maFF => .ok (served, carved)
    | .maBF => do
        let sorted ← rearrangeBy Q cmpBF carved
        .ok (served, sorted)
    | .maWF => do
        let sorted ← rearrangeBy Q cmpWF carved
        .ok (served, sorted)

/-- The return value, the descriptor and the globals after the call. After a
compaction the function calls itself and throws the result away. -/
def allocateMem (Q : Qsort) :
    Nat → AllocatedBlock → State → Exec (Int × AllocatedBlock × State)
  | 0, _, _ => .error .outOfFuel
  | fuel + 1, ab, s =>
      match findFit ab.size [] s.freeBlock with
      | some (pre, fbt, next) => do
          let (served, t) ← takeFit Q ab pre fbt next s
          .ok (1, served, t)
      | none =>
          if totalFree s.freeBlock ≥ ab.size then
            let (ret, t) := compactMemory Q s
            if ret ≠ 1 then .ok (-1, ab, t)
            else do
              let (_, served, u) ← allocateMem Q fuel ab t
              .ok (-1, served, u)
          else .ok (-1, ab, s)

/-! ## Release -/

/-- The merging loop of `free_mem` from a node `pre` on, with the counter. -/
def mergeFrom : FreeBlock → List FreeBlock → Int → List FreeBlock × Int
  | pre, [], len => ([pre], len)
  | pre, fbt :: next, len =>
      if pre.startAddr + pre.size = fbt.startAddr then
        mergeFrom { pre with size := pre.size + fbt.size } next (len - 1)
      else
        let merged := mergeFrom fbt next len
        (pre :: merged.1, merged.2)

/-- The merging loop of `free_mem`. -/
def mergeAdjacent (s : State) : State :=
  match s.freeBlock with
  | [] => s
  | fbt :: next =>
      let merged := mergeFrom fbt next s.freeBlockLen
      { s with freeBlock := merged.1, freeBlockLen := merged.2 }

def freeMem (Q : Qsort) (ab : AllocatedBlock) (s : State) : Exec (Int × State) := do
  let inserted := insertFreeBlock [] ⟨ab.size, ab.startAddr⟩ s.freeBlock s
  let sorted ← rearrangeBy Q cmpFF inserted
  let merged := mergeAdjacent sorted
  match s.maAlgorithm with
  | .maFF => .ok (1, merged)
  | .maBF => do
      let t ← rearrangeBy Q cmpBF merged
      .ok (1, t)
  | .maWF => do
      let t ← rearrangeBy Q cmpWF merged
      .ok (1, t)

/-- Unlink the node a pointer from `find_process` points to. -/
def dispose (freeAb : Nat) (s : State) : Int × State :=
  let rest := { s with allocatedBlockHead := s.allocatedBlockHead.eraseIdx freeAb }
  if freeAb = 0 then (1, rest) else (2, rest)

/-- The position of the first node with the given pid. -/
def findProcess (pid : Int) : List AllocatedBlock → Option Nat
  | [] => none
  | p :: next => if p.pid = pid then some 0 else (findProcess pid next).map (· + 1)

/-! ## The menu -/

/-- The return value is 0 when the size was fixed before. -/
def setMemSize (size : Int) (s : State) : Exec (Int × State) :=
  if s.flag ≠ 0 then .ok (0, s)
  else if size > 0 then
    match s.freeBlock with
    | [] => .error .nullDereference
    | fb :: next =>
        .ok (1, { s with memSize := size, freeBlock := { fb with size := size } :: next, flag := 1 })
  else .ok (1, { s with flag := 1 })

def setAlgorithm (Q : Qsort) (algorithm : Int) (s : State) : Exec State :=
  let chosen := (Algorithm.ofInt? algorithm).getD s.maAlgorithm
  rearrange Q chosen { s with maAlgorithm := chosen }

/-- `malloced` is what the fresh descriptor held before: a size that is not
positive is not written over it. -/
def newProcess (Q : Qsort) (fuel : Nat) (malloced : AllocatedBlock) (size : Int) (s : State) :
    Exec (Int × State) := do
  let numbered := { s with pid := s.pid + 1 }
  let ab : AllocatedBlock :=
    { malloced with
      pid := s.pid + 1
      size := if size > 0 then size else malloced.size }
  let (ret, served, t) ← allocateMem Q fuel ab numbered
  if ret = 1 ∧ t.allocatedBlockHead = [] then .ok (1, { t with allocatedBlockHead := [served] })
  else if ret = 1 then
    .ok (2, { t with allocatedBlockHead := served :: t.allocatedBlockHead })
  else if ret = -1 then .ok (-1, t)
  else .ok (3, t)

def killProcess (Q : Qsort) (pid : Int) (s : State) : Exec State :=
  match findProcess pid s.allocatedBlockHead with
  | none => .ok s
  | some p =>
      match s.allocatedBlockHead[p]? with
      | none => .error .nullDereference
      | some ab => do
          let (_, released) ← freeMem Q ab s
          .ok (dispose p released).2

/-- The choices of the menu that come back to it, with what the user enters. -/
inductive Op where
  | setMemSize (size : Int)
  | setAlgorithm (algorithm : Int)
  | newProcess (malloced : AllocatedBlock) (size : Int)
  | killProcess (pid : Int)
  | displayMemUsage
  deriving DecidableEq, Repr

/-- The size entered for a new process is positive. -/
def Op.Positive : Op → Prop
  | .newProcess _ size => 0 < size
  | _ => True

/-- One turn of the loop of `main`. -/
def menu (Q : Qsort) (fuel : Nat) (op : Op) (s : State) : Exec State :=
  match op with
  | .setMemSize size => do
      let (_, t) ← setMemSize size s
      .ok t
  | .setAlgorithm algorithm => do
      let t ← setAlgorithm Q algorithm s
      .ok { t with flag := 1 }
  | .newProcess malloced size => do
      let (_, t) ← newProcess Q fuel malloced size s
      .ok { t with flag := 1 }
  | .killProcess pid => do
      let t ← killProcess Q pid s
      .ok { t with flag := 1 }
  | .displayMemUsage => .ok { s with flag := 1 }

instance : DecidablePred Op.Positive := fun op =>
  match op with
  | .newProcess _ size => inferInstanceAs (Decidable (0 < size))
  | .setMemSize _ => isTrue trivial
  | .setAlgorithm _ => isTrue trivial
  | .killProcess _ => isTrue trivial
  | .displayMemUsage => isTrue trivial

/-- The loop of `main` on a list of choices. -/
def session (Q : Qsort) (fuel : Nat) : List Op → State → Exec State
  | [], s => .ok s
  | op :: ops, s => do
      let t ← menu Q fuel op s
      session Q fuel ops t

/-- A menu operation with a positive size that returns. -/
def Step (Q : Qsort) (s : State) (op : Op) (t : State) : Prop :=
  op.Positive ∧ ∃ fuel, menu Q fuel op s = .ok t

/-- The states between two menu operations. -/
abbrev ReachableState (Q : Qsort) : State → Prop := Reachable (Step Q) initial

/-- A session that returns is a run of any system that takes its operations. -/
theorem reached_of_session {Q : Qsort} {fuel : Nat} {system : State → Op → State → Prop}
    {admitted : Op → Prop}
    (takes : ∀ s op t, admitted op → menu Q fuel op s = .ok t → system s op t) {ops : List Op}
    {start s t : State} (reached : Reachable system start s) (all : ∀ op ∈ ops, admitted op)
    (done : session Q fuel ops s = .ok t) : Reachable system start t := by
  induction ops generalizing s with
  | nil =>
      cases done
      exact reached
  | cons op ops ih =>
      obtain ⟨first, later⟩ := List.forall_mem_cons.mp all
      cases turn : menu Q fuel op s with
      | error stop => simp [session, turn, bind, Except.bind] at done
      | ok u =>
          simp only [session, turn, bind, Except.bind] at done
          exact ih (reached.next (takes s op u first turn)) later done

/-- A session that returns and asks for positive sizes leads to a reachable
state. -/
theorem reachable_of_session (Q : Qsort) (fuel : Nat) (ops : List Op) {s t : State}
    (reached : ReachableState Q s) (positive : ∀ op ∈ ops, op.Positive)
    (done : session Q fuel ops s = .ok t) : ReachableState Q t :=
  reached_of_session (fun _ _ _ first turn => ⟨first, fuel, turn⟩) reached positive done

/-! ## Memory as a set of addresses -/

def FreeBlock.extent (b : FreeBlock) : Extent := ⟨b.startAddr, b.size⟩

def AllocatedBlock.extent (b : AllocatedBlock) : Extent := ⟨b.startAddr, b.size⟩

/-- The ranges of the free blocks. -/
def State.freeExtents (s : State) : List Extent := s.freeBlock.map FreeBlock.extent

/-- The ranges of the allocated blocks. -/
def State.ownedExtents (s : State) : List Extent :=
  s.allocatedBlockHead.map AllocatedBlock.extent

/-- The ranges of all blocks, free and allocated together. -/
def State.extents (s : State) : List Extent := s.freeExtents ++ s.ownedExtents

/-- The set of free addresses. -/
def State.freeAddresses (s : State) : Set Int := addressesOf s.freeExtents

end OsLab.Partition
