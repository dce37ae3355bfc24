import OsLab.Foundation.Heap
import OsLab.Partition.Model

/-!
# The partition allocator with its pointers

The functions of `2lab/3/3-1.c` once more, now on a heap: the two lists are nodes that point to
each other, and every `malloc` and `free` of a node and every `->` and `next` of the source is
there. What cannot happen in the model of the lists can happen here, so it is an outcome: the use
of `NULL`, the use of a node that was freed, a second `free`, a loop over a list that does not
end.

* The nodes of the two types are kept in two heaps, since an object of one type is never
  where a live object of the other is.
* `malloc` succeeds, at any address that is not live.
* The arrays `tmp` and `arr` are lists. The copies in `tmp` leave out `next`, which is not
  read there.
* A `while` loop takes the number of its rounds as fuel.
-/

set_option autoImplicit false

namespace OsLab.Partition.Linked

open OsLab.Foundation

/-- The global variables and the heap. -/
structure Memory where
  memSize : Int
  maAlgorithm : Algorithm
  pid : Int
  flag : Int
  freeBlock : Ptr
  freeBlockLen : Int
  allocatedBlockHead : Ptr
  freeNodes : Heap FreeBlock
  descriptors : Heap AllocatedBlock

/-- The loop `while (p) { t = p; p = p->next; free(t); }`. -/
def freeAll {α : Type} : Nat → Heap α → Ptr → Attempt (Heap α)
  | 0, _, _ => .error .outOfFuel
  | _ + 1, h, none => .ok h
  | fuel + 1, h, some t => do
      let c ← load h (some t)
      let h ← release h (some t)
      freeAll fuel h c.next

/-- The loop `while (p) { …; p = p->next; }` that only reads: the nodes it visits. -/
def walk {α : Type} : Nat → Heap α → Ptr → Attempt (List (Nat × α))
  | 0, _, _ => .error .outOfFuel
  | _ + 1, _, none => .ok []
  | fuel + 1, h, some p => do
      let c ← load h (some p)
      let nodes ← walk fuel h c.next
      .ok ((p, c.val) :: nodes)

section Functions

variable (A : Allocator) (Q : Qsort) (fuel : Nat)

/-- `init_free_block` with the assignment to `free_block`. -/
def initFreeBlock (memSize : Int) (m : Memory) : Memory :=
  let (fb, h) := malloc A m.freeNodes ⟨⟨memSize, defaultMemStart⟩, none⟩
  { m with freeBlock := some fb, freeBlockLen := 1, freeNodes := h }

/-! ## The free list -/

/-- The first loop of `rearrange_by`: copy a node, go on, free the node. -/
def copyAndFree : Nat → Heap FreeBlock → Ptr → Attempt (List FreeBlock × Heap FreeBlock)
  | 0, h, _ => .ok ([], h)
  | len + 1, h, q => do
      let c ← load h q
      let h ← release h q
      let (tmp, h) ← copyAndFree len h c.next
      .ok (c.val :: tmp, h)

/-- The second loop of `rearrange_by`: a new node for each element of `tmp`, linked behind
`prev`. -/
def build : List FreeBlock → Heap FreeBlock → Ptr → Ptr → Attempt (Ptr × Heap FreeBlock)
  | [], h, head, _ => .ok (head, h)
  | x :: tmp, h, head, prev =>
      let (node, h) := malloc A h ⟨x, none⟩
      match prev with
      | none => build tmp h (some node) (some node)
      | some _ => do
          let c ← load h prev
          let h ← store h prev { c with next := some node }
          build tmp h head (some node)

def rearrangeBy (comparator : Comparator FreeBlock) (m : Memory) : Attempt Memory := do
  let (tmp, h) ← copyAndFree m.freeBlockLen.toNat m.freeNodes m.freeBlock
  let (head, h) ← build A (Q.sort comparator tmp) h none none
  .ok { m with freeBlock := head, freeNodes := h }

def rearrange (algorithm : Algorithm) (m : Memory) : Attempt Memory :=
  match algorithm with
  | .maFF => rearrangeBy A Q cmpFF m
  | .maBF => rearrangeBy A Q cmpBF m
  | .maWF => rearrangeBy A Q cmpWF m

def deleteFreeBlock (pre fbt : Ptr) (m : Memory) : Attempt Memory := do
  let c ← load m.freeNodes fbt
  match pre with
  | none => .ok { m with freeBlock := c.next, freeBlockLen := m.freeBlockLen - 1 }
  | some _ =>
      let b ← load m.freeNodes pre
      let h ← store m.freeNodes pre { b with next := c.next }
      .ok { m with freeNodes := h, freeBlockLen := m.freeBlockLen - 1 }

def insertFreeBlock (pre fbt nxt : Ptr) (m : Memory) : Attempt Memory := do
  let c ← load m.freeNodes fbt
  let h ← store m.freeNodes fbt { c with next := nxt }
  match pre with
  | none => .ok { m with freeNodes := h, freeBlock := fbt, freeBlockLen := m.freeBlockLen + 1 }
  | some _ =>
      let b ← load h pre
      let h ← store h pre { b with next := fbt }
      .ok { m with freeNodes := h, freeBlockLen := m.freeBlockLen + 1 }

/-! ## Compaction -/

/-- The loop that counts the processes. -/
def countNodes (h : Heap AllocatedBlock) (p : Ptr) : Attempt Nat := do
  let nodes ← walk fuel h p
  .ok nodes.length

/-- The loop that fills `arr`. -/
def collect (h : Heap AllocatedBlock) (p : Ptr) : Attempt (List Nat) := do
  let nodes ← walk fuel h p
  .ok (addrs nodes)

/-- `cmp_alloc_by_addr`, which reads through the pointers. -/
def cmpAllocByAddr (h : Heap AllocatedBlock) : Comparator Nat :=
  .byKey fun p => ((h.lookup p).map fun c => c.val.startAddr).getD 0

/-- The loop that moves the processes. -/
def relocate : List Nat → Int → Heap AllocatedBlock → Attempt (Heap AllocatedBlock × Int)
  | [], nextStart, h => .ok (h, nextStart)
  | p :: arr, nextStart, h => do
      let c ← load h (some p)
      let h ← store h (some p) { c with val := { c.val with startAddr := nextStart } }
      relocate arr (nextStart + c.val.size) h

def compactMemory (m : Memory) : Attempt (Int × Memory) := do
  let n ← countNodes fuel m.descriptors m.allocatedBlockHead
  if n = 0 then .ok (1, m)
  else
    let arr ← collect fuel m.descriptors m.allocatedBlockHead
    let sorted := Q.sort (cmpAllocByAddr m.descriptors) arr
    let (descriptors, nextStart) ← relocate sorted defaultMemStart m.descriptors
    let emptied ← freeAll fuel m.freeNodes m.freeBlock
    if nextStart < m.memSize then
      let (nb, h) := malloc A emptied ⟨⟨m.memSize - nextStart, nextStart⟩, none⟩
      .ok (1, { m with
        descriptors := descriptors
        freeNodes := h
        freeBlock := some nb
        freeBlockLen := 1 })
    else
      .ok (1, { m with
        descriptors := descriptors
        freeNodes := emptied
        freeBlock := none
        freeBlockLen := 0 })

/-! ## Allocation -/

/-- The first loop of `allocate_mem`, with `pre` and `fbt`: the values they have where the loop
finds a block, or `none` at the end of the list. -/
def scan (requestSize : Int) : Nat → Heap FreeBlock → Ptr → Ptr → Attempt (Option (Ptr × Ptr))
  | 0, _, _, _ => .error .outOfFuel
  | _ + 1, _, _, none => .ok none
  | fuel + 1, h, pre, some fbt => do
      let c ← load h (some fbt)
      if c.val.size ≥ requestSize then .ok (some (pre, some fbt))
      else scan requestSize fuel h (some fbt) c.next

/-- The second loop of `allocate_mem`. -/
def totalFree (h : Heap FreeBlock) (p : Ptr) : Attempt Int := do
  let nodes ← walk fuel h p
  .ok (Partition.totalFree (vals nodes))

/-- The body of the first loop at the block it finds. -/
def takeFit (ab : Ptr) (requestSize : Int) (pre fbt : Ptr) (m : Memory) : Attempt Memory := do
  let c ← load m.freeNodes fbt
  let d ← load m.descriptors ab
  let descriptors ← store m.descriptors ab { d with val := { d.val with
    startAddr := c.val.startAddr } }
  let served := { m with descriptors := descriptors }
  if c.val.size - requestSize ≤ minSlice then
    let unlinked ← deleteFreeBlock pre fbt served
    let h ← release unlinked.freeNodes fbt
    .ok { unlinked with freeNodes := h }
  else
    let h ← store served.freeNodes fbt { c with val :=
      ⟨c.val.size - requestSize, c.val.startAddr + requestSize⟩ }
    let carved := { served with freeNodes := h }
    match m.maAlgorithm with
    | .maFF => .ok carved
    | .maBF => rearrangeBy A Q cmpBF carved
    | .maWF => rearrangeBy A Q cmpWF carved

/-- `allocate_mem`. The depth of the recursion is the first argument. -/
def allocateMem : Nat → Ptr → Memory → Attempt (Int × Memory)
  | 0, _, _ => .error .outOfFuel
  | depth + 1, ab, m => do
      let d ← load m.descriptors ab
      let requestSize := d.val.size
      match ← scan requestSize fuel m.freeNodes none m.freeBlock with
      | some (pre, fbt) =>
          let t ← takeFit A Q ab requestSize pre fbt m
          .ok (1, t)
      | none =>
          let total ← totalFree fuel m.freeNodes m.freeBlock
          if total ≥ requestSize then
            let (ret, t) ← compactMemory A Q fuel m
            if ret ≠ 1 then .ok (-1, t)
            else
              let (_, u) ← allocateMem depth ab t
              .ok (-1, u)
          else .ok (-1, m)

/-! ## Release -/

/-- The merging loop of `free_mem`. -/
def mergeLoop : Nat → Ptr → Ptr → Memory → Attempt Memory
  | 0, _, _, _ => .error .outOfFuel
  | _ + 1, _, none, m => .ok m
  | fuel + 1, none, some fbt, m => do
      let c ← load m.freeNodes (some fbt)
      mergeLoop fuel (some fbt) c.next m
  | fuel + 1, some pre, some fbt, m => do
      let b ← load m.freeNodes (some pre)
      let c ← load m.freeNodes (some fbt)
      if b.val.startAddr + b.val.size = c.val.startAddr then
        let h ← store m.freeNodes (some pre) { b with val := { b.val with
          size := b.val.size + c.val.size } }
        let unlinked ← deleteFreeBlock (some pre) (some fbt) { m with freeNodes := h }
        let h ← release unlinked.freeNodes (some fbt)
        -- `fbt = pre`, and the end of the loop body goes on from there
        let joined ← load h (some pre)
        mergeLoop fuel (some pre) joined.next { unlinked with freeNodes := h }
      else mergeLoop fuel (some fbt) c.next m

def freeMem (ab : Ptr) (m : Memory) : Attempt (Int × Memory) := do
  let d ← load m.descriptors ab
  let (fbt, h) := malloc A m.freeNodes ⟨⟨d.val.size, d.val.startAddr⟩, none⟩
  let inserted ← insertFreeBlock none (some fbt) m.freeBlock { m with freeNodes := h }
  let sorted ← rearrangeBy A Q cmpFF inserted
  let merged ← mergeLoop fuel none sorted.freeBlock sorted
  match m.maAlgorithm with
  | .maFF => .ok (1, merged)
  | .maBF => do
      let t ← rearrangeBy A Q cmpBF merged
      .ok (1, t)
  | .maWF => do
      let t ← rearrangeBy A Q cmpWF merged
      .ok (1, t)

def findProcess (pid : Int) : Nat → Heap AllocatedBlock → Ptr → Attempt Ptr
  | 0, _, _ => .error .outOfFuel
  | _ + 1, _, none => .ok none
  | fuel + 1, h, some p => do
      let c ← load h (some p)
      if c.val.pid = pid then .ok (some p) else findProcess pid fuel h c.next

/-- The loop of `dispose`: the values of `pre` and `ab` when `ab` is the node. -/
def follow (freeAb : Ptr) : Nat → Heap AllocatedBlock → Ptr → Ptr → Attempt (Ptr × Ptr)
  | 0, _, _, _ => .error .outOfFuel
  | fuel + 1, h, pre, ab =>
      if ab = freeAb then .ok (pre, ab)
      else do
        let c ← load h ab
        follow freeAb fuel h ab c.next

def dispose (freeAb : Ptr) (m : Memory) : Attempt (Int × Memory) := do
  if freeAb = m.allocatedBlockHead then
    let c ← load m.descriptors m.allocatedBlockHead
    let h ← release m.descriptors freeAb
    .ok (1, { m with allocatedBlockHead := c.next, descriptors := h })
  else
    let first ← load m.descriptors m.allocatedBlockHead
    let (pre, ab) ← follow freeAb fuel m.descriptors m.allocatedBlockHead first.next
    let c ← load m.descriptors ab
    let b ← load m.descriptors pre
    let h ← store m.descriptors pre { b with next := c.next }
    let h ← release h ab
    .ok (2, { m with descriptors := h })

/-- `display_mem_usage`: the return value and the blocks that are printed. -/
def displayMemUsage (m : Memory) : Attempt (Int × List FreeBlock × List AllocatedBlock) := do
  if m.freeBlock = none then .ok (-1, [], [])
  else
    let free ← walk fuel m.freeNodes m.freeBlock
    let used ← walk fuel m.descriptors m.allocatedBlockHead
    .ok (0, vals free, vals used)

/-! ## The menu -/

def setMemSize (size : Int) (m : Memory) : Attempt (Int × Memory) :=
  if m.flag ≠ 0 then .ok (0, m)
  else if size > 0 then do
    let c ← load m.freeNodes m.freeBlock
    let h ← store m.freeNodes m.freeBlock { c with val := { c.val with size := size } }
    .ok (1, { m with memSize := size, freeNodes := h, flag := 1 })
  else .ok (1, { m with flag := 1 })

def setAlgorithm (algorithm : Int) (m : Memory) : Attempt Memory :=
  let chosen := (Algorithm.ofInt? algorithm).getD m.maAlgorithm
  rearrange A Q chosen { m with maAlgorithm := chosen }

def newProcess (depth : Nat) (malloced : AllocatedBlock) (size : Int) (m : Memory) :
    Attempt (Int × Memory) := do
  let (ab, h) := malloc A m.descriptors
    ⟨{ malloced with
      pid := m.pid + 1
      size := if size > 0 then size else malloced.size }, none⟩
  let (ret, t) ← allocateMem A Q fuel depth (some ab)
    { m with pid := m.pid + 1, descriptors := h }
  if ret = 1 ∧ t.allocatedBlockHead = none then
    .ok (1, { t with allocatedBlockHead := some ab })
  else if ret = 1 then
    let c ← load t.descriptors (some ab)
    let h ← store t.descriptors (some ab) { c with next := t.allocatedBlockHead }
    .ok (2, { t with descriptors := h, allocatedBlockHead := some ab })
  else if ret = -1 then
    let h ← release t.descriptors (some ab)
    .ok (-1, { t with descriptors := h })
  else .ok (3, t)

def killProcess (pid : Int) (m : Memory) : Attempt Memory := do
  match ← findProcess pid fuel m.descriptors m.allocatedBlockHead with
  | none => .ok m
  | some ab =>
      let (_, released) ← freeMem A Q fuel (some ab) m
      let (_, t) ← dispose fuel (some ab) released
      .ok t

/-- One turn of the loop of `main`. -/
def menu (depth : Nat) (op : Op) (m : Memory) : Attempt Memory :=
  match op with
  | .setMemSize size => do
      let (_, t) ← setMemSize size m
      .ok t
  | .setAlgorithm algorithm => do
      let t ← setAlgorithm A Q algorithm m
      .ok { t with flag := 1 }
  | .newProcess malloced size => do
      let (_, t) ← newProcess A Q fuel depth malloced size m
      .ok { t with flag := 1 }
  | .killProcess pid => do
      let t ← killProcess A Q fuel pid m
      .ok { t with flag := 1 }
  | .displayMemUsage => do
      let _ ← displayMemUsage fuel m
      .ok { m with flag := 1 }

/-- `do_exit`. -/
def doExit (m : Memory) : Attempt Memory := do
  let descriptors ← freeAll fuel m.descriptors m.allocatedBlockHead
  let freeNodes ← freeAll fuel m.freeNodes m.freeBlock
  .ok { m with descriptors := descriptors, freeNodes := freeNodes }

/-- The state in which `main` enters its loop. -/
def initial : Memory :=
  initFreeBlock A defaultMemSize
    { memSize := defaultMemSize, maAlgorithm := .maFF, pid := 0, flag := 0,
      freeBlock := none, freeBlockLen := 0, allocatedBlockHead := none,
      freeNodes := ∅, descriptors := ∅ }

/-- The loop of `main` on a list of choices. -/
def session (depth : Nat) : List Op → Memory → Attempt Memory
  | [], m => .ok m
  | op :: ops, m => do
      let t ← menu A Q fuel depth op m
      session depth ops t

end Functions

end OsLab.Partition.Linked
