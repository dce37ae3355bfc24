import Mathlib.Data.Finmap
import Mathlib.Order.Lattice.Nat

/-!
# Linked lists on a heap

A heap maps finitely many addresses to nodes, a node is a value and a pointer to the next
node. Reading, writing or freeing a node that is not live is a fault, and so is the use of
`NULL`. An allocator picks any address that is not live.

`Seg` is a piece of a linked list, `Owned` a whole list together with the fact that the heap
holds nothing else but the `loose` nodes. The lemmas say what happens to a list when a node of
it is written (`Owned.modify`), when a node is linked to its end or to its front
(`Owned.link_last`, `Owned.link_first`), when one is unlinked (`Owned.unlink`) and when one
that is in no list is freed (`Owned.release_loose`).
-/

set_option autoImplicit false

namespace OsLab.Foundation

variable {α : Type}

/-! ## Memory -/

/-- A pointer. `none` is `NULL`. -/
abbrev Ptr := Option Nat

/-- A node of a linked list. -/
structure Cell (α : Type) where
  val : α
  next : Ptr

/-- The live nodes by their addresses. -/
abbrev Heap (α : Type) := Finmap fun _ : Nat => Cell α

/-- How a program goes wrong: `dangling` is the use of an address that is not live, which
includes freeing twice. `outOfFuel` stands for a loop that does not end. -/
inductive Fault where
  | nullDereference
  | dangling
  | outOfFuel
  deriving DecidableEq, Repr

/-- A part of a program that returns a value or goes wrong. -/
abbrev Attempt := Except Fault

def load (h : Heap α) : Ptr → Attempt (Cell α)
  | none => .error .nullDereference
  | some a =>
      match h.lookup a with
      | none => .error .dangling
      | some c => .ok c

def store (h : Heap α) (p : Ptr) (c : Cell α) : Attempt (Heap α) :=
  match p with
  | none => .error .nullDereference
  | some a => if a ∈ h then .ok (h.insert a c) else .error .dangling

/-- `free`, which does nothing to `NULL`. -/
def release (h : Heap α) : Ptr → Attempt (Heap α)
  | none => .ok h
  | some a => if a ∈ h then .ok (h.erase a) else .error .dangling

/-- Where the next object is put: at an address that is not live. -/
structure Allocator where
  pick : Finset Nat → Nat
  fresh : ∀ live, pick live ∉ live

/-- The allocator that never returns. -/
def Allocator.above : Allocator where
  pick live := live.sup id + 1
  fresh live member := by
    have bound := Finset.le_sup (f := id) member
    simp only [id] at bound
    omega

/-- The address of a new node, and the heap with it. -/
def malloc (A : Allocator) (h : Heap α) (c : Cell α) : Nat × Heap α :=
  (A.pick h.keys, h.insert (A.pick h.keys) c)

theorem load_of_lookup {h : Heap α} {a : Nat} {c : Cell α} (live : h.lookup a = some c) :
    load h (some a) = .ok c := by
  simp only [load, live]

theorem store_of_mem {h : Heap α} {a : Nat} (live : a ∈ h) (c : Cell α) :
    store h (some a) c = .ok (h.insert a c) :=
  if_pos live

theorem release_of_mem {h : Heap α} {a : Nat} (live : a ∈ h) :
    release h (some a) = .ok (h.erase a) :=
  if_pos live

theorem mem_of_lookup {h : Heap α} {a : Nat} {c : Cell α} (live : h.lookup a = some c) : a ∈ h :=
  Finmap.mem_of_lookup_eq_some live

/-! ## Pieces of a list -/

/-- The addresses of the nodes. -/
def addrs (nodes : List (Nat × α)) : List Nat := nodes.map Prod.fst

/-- The values of the nodes. -/
def vals (nodes : List (Nat × α)) : List α := nodes.map Prod.snd

/-- A pointer to the last node, `NULL` if there is none. -/
def lastPtr (nodes : List (Nat × α)) : Ptr := nodes.getLast?.map Prod.fst

@[simp] theorem addrs_nil : addrs ([] : List (Nat × α)) = [] := rfl

@[simp] theorem addrs_cons (a : Nat) (x : α) (nodes : List (Nat × α)) :
    addrs ((a, x) :: nodes) = a :: addrs nodes := rfl

@[simp] theorem addrs_append (nodes nodes' : List (Nat × α)) :
    addrs (nodes ++ nodes') = addrs nodes ++ addrs nodes' :=
  List.map_append

@[simp] theorem vals_nil : vals ([] : List (Nat × α)) = [] := rfl

@[simp] theorem vals_cons (a : Nat) (x : α) (nodes : List (Nat × α)) :
    vals ((a, x) :: nodes) = x :: vals nodes := rfl

@[simp] theorem vals_append (nodes nodes' : List (Nat × α)) :
    vals (nodes ++ nodes') = vals nodes ++ vals nodes' :=
  List.map_append

@[simp] theorem vals_length (nodes : List (Nat × α)) : (vals nodes).length = nodes.length :=
  List.length_map _

@[simp] theorem lastPtr_nil : lastPtr ([] : List (Nat × α)) = none := rfl

@[simp] theorem lastPtr_concat (nodes : List (Nat × α)) (a : Nat) (x : α) :
    lastPtr (nodes ++ [(a, x)]) = some a := by
  simp [lastPtr]

/-- The pointer to the last node, with `pre` in place of `NULL`, when a node is put before. -/
theorem lastPtr_or (a : Nat) (x : α) (rest : List (Nat × α)) (pre : Ptr) :
    (lastPtr rest).or (some a) = (lastPtr ((a, x) :: rest)).or pre := by
  rcases List.eq_nil_or_concat rest with rfl | ⟨before, ⟨b, y⟩, rfl⟩
  · simp [lastPtr]
  · rw [List.concat_eq_append, lastPtr_concat, ← List.cons_append, lastPtr_concat]
    simp

/-- The node at a position. -/
theorem split_at {nodes : List (Nat × α)} {i : Nat} (inside : i < nodes.length) :
    ∃ before a x after, nodes = before ++ (a, x) :: after ∧ before.length = i :=
  ⟨nodes.take i, nodes[i].1, nodes[i].2, nodes.drop (i + 1),
    (List.take_append_drop i nodes).symm.trans (by rw [List.drop_eq_getElem_cons inside]),
    List.length_take_of_le (Nat.le_of_lt inside)⟩

/-- The nodes from `p` on, up to the pointer `q`. -/
def Seg (h : Heap α) : Ptr → List (Nat × α) → Ptr → Prop
  | p, [], q => p = q
  | p, (a, x) :: rest, q => p = some a ∧ ∃ next, h.lookup a = some ⟨x, next⟩ ∧ Seg h next rest q

theorem seg_append {h : Heap α} {p q : Ptr} {nodes nodes' : List (Nat × α)} :
    Seg h p (nodes ++ nodes') q ↔ ∃ m, Seg h p nodes m ∧ Seg h m nodes' q := by
  induction nodes generalizing p with
  | nil => simp [Seg]
  | cons node rest ih =>
      obtain ⟨a, x⟩ := node
      simp only [List.cons_append, Seg, ih]
      constructor
      · rintro ⟨here, next, live, m, first, later⟩
        exact ⟨m, ⟨here, next, live, first⟩, later⟩
      · rintro ⟨m, ⟨here, next, live, first⟩, later⟩
        exact ⟨here, next, live, m, first, later⟩

/-- A piece of a list does not see the other nodes. -/
theorem Seg.congr {h h' : Heap α} {p q : Ptr} {nodes : List (Nat × α)} (seg : Seg h p nodes q)
    (same : ∀ a ∈ addrs nodes, h'.lookup a = h.lookup a) : Seg h' p nodes q := by
  induction nodes generalizing p with
  | nil => exact seg
  | cons node rest ih =>
      obtain ⟨a, x⟩ := node
      obtain ⟨here, next, live, later⟩ := seg
      rw [addrs_cons, List.forall_mem_cons] at same
      exact ⟨here, next, same.1.trans live, ih later same.2⟩

theorem Seg.insert {h : Heap α} {p q : Ptr} {nodes : List (Nat × α)} (seg : Seg h p nodes q)
    {a : Nat} (other : a ∉ addrs nodes) (c : Cell α) : Seg (h.insert a c) p nodes q := by
  refine seg.congr fun b member => Finmap.lookup_insert_of_ne _ ?_
  rintro rfl
  exact other member

theorem Seg.erase {h : Heap α} {p q : Ptr} {nodes : List (Nat × α)} (seg : Seg h p nodes q)
    {a : Nat} (other : a ∉ addrs nodes) : Seg (h.erase a) p nodes q := by
  refine seg.congr fun b member => Finmap.lookup_erase_ne ?_
  rintro rfl
  exact other member

/-- The node in the middle of a piece. -/
theorem Seg.middle {h : Heap α} {p q : Ptr} {before after : List (Nat × α)} {a : Nat} {x : α}
    (seg : Seg h p (before ++ (a, x) :: after) q) :
    ∃ next, h.lookup a = some ⟨x, next⟩ ∧ Seg h p before (some a) ∧ Seg h next after q := by
  obtain ⟨m, first, rfl, next, live, later⟩ := seg_append.mp seg
  exact ⟨next, live, first, later⟩

/-- The node at a position. -/
theorem Seg.lookup {h : Heap α} {p q : Ptr} {nodes : List (Nat × α)} (seg : Seg h p nodes q)
    {i : Nat} (inside : i < nodes.length) :
    ∃ next, h.lookup nodes[i].1 = some ⟨nodes[i].2, next⟩ := by
  induction nodes generalizing p i with
  | nil => cases inside
  | cons node rest ih =>
      obtain ⟨a, x⟩ := node
      obtain ⟨-, next, live, later⟩ := seg
      cases i with
      | zero => exact ⟨next, live⟩
      | succ i => exact ih later (Nat.lt_of_succ_lt_succ inside)

theorem Seg.of_middle {h : Heap α} {p q next : Ptr} {before after : List (Nat × α)} {a : Nat}
    {x : α} (first : Seg h p before (some a)) (live : h.lookup a = some ⟨x, next⟩)
    (later : Seg h next after q) : Seg h p (before ++ (a, x) :: after) q :=
  seg_append.mpr ⟨some a, first, rfl, next, live, later⟩

/-! ## Whole lists -/

/-- A list from `p` to `NULL`. The nodes of it and the loose ones are all that is live. -/
structure Owned (h : Heap α) (p : Ptr) (nodes : List (Nat × α)) (loose : Finset Nat) : Prop where
  seg : Seg h p nodes none
  nodup : (addrs nodes).Nodup
  apart : ∀ a ∈ loose, a ∉ addrs nodes
  live_iff : ∀ a, a ∈ h ↔ a ∈ addrs nodes ∨ a ∈ loose

namespace Owned

variable {h : Heap α} {p : Ptr} {nodes before after : List (Nat × α)} {loose : Finset Nat}
  {a b : Nat} {x y : α}

theorem empty : Owned (∅ : Heap α) none [] ∅ :=
  ⟨rfl, List.nodup_nil, fun _ member => absurd member (Finset.notMem_empty _), fun a => by
    simp [Finmap.notMem_empty]⟩

/-- Without nodes nothing is live. -/
theorem eq_empty (owned : Owned h p [] ∅) : h = ∅ := by
  refine Finmap.ext_lookup fun a => ?_
  rw [Finmap.lookup_empty, Finmap.lookup_eq_none, owned.live_iff]
  simp

theorem head_eq (owned : Owned h p ((a, x) :: nodes) loose) : p = some a := owned.seg.1

theorem head_eq_none_iff (owned : Owned h p nodes loose) : p = none ↔ vals nodes = [] := by
  cases nodes with
  | nil => exact iff_of_true owned.seg rfl
  | cons node rest => exact iff_of_false (by simp [owned.head_eq]) (List.cons_ne_nil _ _)

/-- The value of a node is written. -/
theorem modify (owned : Owned h p (before ++ (a, x) :: after) loose) (y : α) :
    ∃ next, h.lookup a = some ⟨x, next⟩ ∧
      Owned (h.insert a ⟨y, next⟩) p (before ++ (a, y) :: after) loose := by
  obtain ⟨next, live, first, later⟩ := owned.seg.middle
  have nodup := owned.nodup
  rw [addrs_append, addrs_cons] at nodup
  have outside := List.nodup_middle.mp nodup
  rw [List.nodup_cons, List.mem_append, not_or] at outside
  refine ⟨next, live, ?_, ?_, ?_, fun b => ?_⟩
  · exact .of_middle (first.insert outside.1.1 _) (Finmap.lookup_insert _)
      (later.insert outside.1.2 _)
  · rw [addrs_append, addrs_cons]
    exact nodup
  · intro b member
    have away := owned.apart b member
    rwa [addrs_append, addrs_cons] at away ⊢
  · have known := owned.live_iff b
    rw [addrs_append, addrs_cons] at known ⊢
    rw [Finmap.mem_insert, known]
    constructor
    · rintro (rfl | either)
      · exact .inl (by simp)
      · exact either
    · exact .inr

/-- A node that is in no list is written. -/
theorem store_loose (owned : Owned h p nodes loose) (member : a ∈ loose) (c : Cell α) :
    Owned (h.insert a c) p nodes loose where
  seg := owned.seg.insert (owned.apart a member) c
  nodup := owned.nodup
  apart := owned.apart
  live_iff b := by
    rw [Finmap.mem_insert, owned.live_iff]
    constructor
    · rintro (rfl | either)
      · exact .inr member
      · exact either
    · exact .inr

/-- A node that is in no list is freed. -/
theorem release_loose (owned : Owned h p nodes loose) (member : a ∈ loose) :
    Owned (h.erase a) p nodes (loose.erase a) where
  seg := owned.seg.erase (owned.apart a member)
  nodup := owned.nodup
  apart b inRest := owned.apart b (Finset.mem_of_mem_erase inRest)
  live_iff b := by
    have away := owned.apart a member
    rw [Finmap.mem_erase, owned.live_iff, Finset.mem_erase]
    constructor
    · rintro ⟨other, listed | free⟩
      · exact .inl listed
      · exact .inr ⟨other, free⟩
    · rintro (listed | ⟨other, free⟩)
      · exact ⟨fun same => away (same ▸ listed), .inl listed⟩
      · exact ⟨other, .inr free⟩

theorem malloc (owned : Owned h p nodes loose) (A : Allocator) (c : Cell α) :
    Owned (Foundation.malloc A h c).2 p nodes (insert (Foundation.malloc A h c).1 loose) ∧
      (Foundation.malloc A h c).2.lookup (Foundation.malloc A h c).1 = some c ∧
      (Foundation.malloc A h c).1 ∉ loose := by
  have fresh : A.pick h.keys ∉ h := fun live => A.fresh h.keys (Finmap.mem_keys.mpr live)
  rw [owned.live_iff, not_or] at fresh
  refine ⟨⟨owned.seg.insert fresh.1 c, owned.nodup, ?_, fun b => ?_⟩, Finmap.lookup_insert _,
    fresh.2⟩
  · intro b member
    rcases Finset.mem_insert.mp member with rfl | inRest
    · exact fresh.1
    · exact owned.apart b inRest
  · simp only [Foundation.malloc]
    rw [Finmap.mem_insert, owned.live_iff, Finset.mem_insert]
    grind

/-- A loose node that points to the first one becomes the first one. -/
theorem adopt_first (owned : Owned h p nodes loose) (member : a ∈ loose)
    (live : h.lookup a = some ⟨x, p⟩) :
    Owned h (some a) ((a, x) :: nodes) (loose.erase a) where
  seg := ⟨rfl, p, live, owned.seg⟩
  nodup := by
    rw [addrs_cons]
    exact List.nodup_cons.mpr ⟨owned.apart a member, owned.nodup⟩
  apart b inRest := by
    rw [Finset.mem_erase] at inRest
    rw [addrs_cons, List.mem_cons, not_or]
    exact ⟨inRest.1, owned.apart b inRest.2⟩
  live_iff b := by
    rw [owned.live_iff, addrs_cons, List.mem_cons, Finset.mem_erase]
    constructor
    · rintro (listed | free)
      · exact .inl (.inr listed)
      · by_cases same : b = a
        · exact .inl (.inl same)
        · exact .inr ⟨same, free⟩
    · rintro ((rfl | listed) | ⟨-, free⟩)
      · exact .inr member
      · exact .inl listed
      · exact .inr free

/-- A loose node is linked to the front of the list. -/
theorem link_first (owned : Owned h p nodes loose) (member : a ∈ loose) (x : α) :
    Owned (h.insert a ⟨x, p⟩) (some a) ((a, x) :: nodes) (loose.erase a) :=
  (owned.store_loose member _).adopt_first member (Finmap.lookup_insert _)

/-- A loose node is linked behind the last one. -/
theorem link_last (owned : Owned h p (before ++ [(b, y)]) loose) (member : a ∈ loose)
    (live : h.lookup a = some ⟨x, none⟩) :
    Owned (h.insert b ⟨y, some a⟩) p (before ++ [(b, y), (a, x)]) (loose.erase a) := by
  obtain ⟨next, -, first, -⟩ := owned.seg.middle
  have nodup := owned.nodup
  have away := owned.apart a member
  rw [addrs_append, addrs_cons, addrs_nil] at nodup away
  have outside := List.nodup_middle.mp nodup
  rw [List.append_nil, List.nodup_cons] at outside
  rw [List.mem_append, List.mem_singleton, not_or] at away
  have kept : (h.insert b ⟨y, some a⟩).lookup a = some ⟨x, none⟩ := by
    rw [Finmap.lookup_insert_of_ne _ away.2, live]
  refine ⟨.of_middle (first.insert outside.1 _) (Finmap.lookup_insert _) ⟨rfl, none, kept, rfl⟩,
    ?_, ?_, fun c => ?_⟩
  · have longer : addrs (before ++ [(b, y), (a, x)]) = (addrs before ++ [b]) ++ [a] := by simp
    rw [longer, List.nodup_append']
    refine ⟨nodup, List.nodup_singleton a, ?_⟩
    rw [List.disjoint_singleton, List.mem_append, List.mem_singleton, not_or]
    exact away
  · intro c inRest
    rw [Finset.mem_erase] at inRest
    have far := owned.apart c inRest.2
    simp only [addrs_append, addrs_cons, addrs_nil, List.mem_append, List.mem_cons,
      List.not_mem_nil, or_false, not_or] at far ⊢
    exact ⟨far.1, far.2, inRest.1⟩
  · have known := owned.live_iff c
    simp only [addrs_append, addrs_cons, addrs_nil, List.mem_append, List.mem_cons,
      List.not_mem_nil, or_false, Finset.mem_erase, Finmap.mem_insert, known] at known ⊢
    by_cases same : c = a
    · simp [same, member]
    · simp only [same, or_false]
      grind

/-- The first node is unlinked. -/
theorem unlink_first (owned : Owned h p ((a, x) :: after) loose) :
    ∃ next, h.lookup a = some ⟨x, next⟩ ∧ Owned h next after (insert a loose) := by
  obtain ⟨-, next, live, later⟩ := owned.seg
  have nodup := owned.nodup
  rw [addrs_cons, List.nodup_cons] at nodup
  refine ⟨next, live, later, nodup.2, fun b member => ?_, fun b => ?_⟩
  · rcases Finset.mem_insert.mp member with rfl | inRest
    · exact nodup.1
    · have away := owned.apart b inRest
      rw [addrs_cons, List.mem_cons, not_or] at away
      exact away.2
  · rw [owned.live_iff, addrs_cons, List.mem_cons, Finset.mem_insert]
    grind

theorem notMem_loose (owned : Owned h p (before ++ (a, x) :: after) loose) : a ∉ loose := by
  intro member
  refine owned.apart a member ?_
  rw [addrs_append, addrs_cons]
  exact List.mem_append_right _ List.mem_cons_self

/-- The first node is unlinked and freed. -/
theorem free_first (owned : Owned h p ((a, x) :: after) loose) :
    ∃ next, h.lookup a = some ⟨x, next⟩ ∧ a ∈ h ∧ Owned (h.erase a) next after loose := by
  have absent : a ∉ loose := @notMem_loose _ _ _ [] _ _ _ _ owned
  obtain ⟨next, live, rest⟩ := owned.unlink_first
  have freed := rest.release_loose (Finset.mem_insert_self a loose)
  rw [Finset.erase_insert absent] at freed
  exact ⟨next, live, mem_of_lookup live, freed⟩

/-- A node is unlinked from the one before it. -/
theorem unlink (owned : Owned h p (before ++ (b, y) :: (a, x) :: after) loose) :
    ∃ next, h.lookup b = some ⟨y, some a⟩ ∧ h.lookup a = some ⟨x, next⟩ ∧
      Owned (h.insert b ⟨y, next⟩) p (before ++ (b, y) :: after) (insert a loose) := by
  obtain ⟨_, previous, first, rfl, next, live, later⟩ := owned.seg.middle
  have nodup := owned.nodup
  rw [addrs_append, addrs_cons, addrs_cons] at nodup
  have outside := List.nodup_middle.mp nodup
  rw [List.nodup_cons, List.mem_append, List.mem_cons, not_or, not_or] at outside
  obtain ⟨⟨notBefore, differs, notAfter⟩, rest⟩ := outside
  have apart := List.nodup_middle.mp rest
  rw [List.nodup_cons, List.mem_append, not_or] at apart
  refine ⟨next, previous, live, ?_, ?_, ?_, fun c => ?_⟩
  · exact .of_middle (first.insert notBefore _) (Finmap.lookup_insert _) (later.insert notAfter _)
  · rw [addrs_append, addrs_cons]
    refine List.nodup_middle.mpr (List.nodup_cons.mpr ⟨?_, apart.2⟩)
    rw [List.mem_append, not_or]
    exact ⟨notBefore, notAfter⟩
  · intro c member
    rw [addrs_append, addrs_cons, List.mem_append, List.mem_cons, not_or, not_or]
    rcases Finset.mem_insert.mp member with rfl | inRest
    · exact ⟨apart.1.1, Ne.symm differs, apart.1.2⟩
    · have away := owned.apart c inRest
      simp only [addrs_append, addrs_cons, List.mem_append, List.mem_cons, not_or] at away
      exact ⟨away.1, away.2.1, away.2.2.2⟩
  · have known := owned.live_iff c
    simp only [addrs_append, addrs_cons, List.mem_append, List.mem_cons, Finset.mem_insert,
      Finmap.mem_insert] at known ⊢
    rw [known]
    grind

end Owned

end OsLab.Foundation
