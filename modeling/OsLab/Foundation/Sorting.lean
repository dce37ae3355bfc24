import Mathlib.Data.List.Pairwise
import Mathlib.Data.List.Sort

/-!
# Sorting by a comparison function

The C library's `qsort` takes a comparison function that returns a negative
number, zero or a positive number, and rearranges an array so that no element
compares greater than a later one. The order of elements that compare equal is
unspecified, so a program may rely on two facts only: the result is a
permutation of the input, and it is sorted.

A `Comparator` is a comparison function together with the consistency `qsort`
asks of it. A `Qsort` is any sorting function with the two facts. Results
that hold for every `Qsort` hold for every implementation of the library call;
`Qsort.insertion` is one that can be run.
-/

set_option autoImplicit false

namespace OsLab.Foundation

/-- A comparison function that is total and transitive. -/
structure Comparator (α : Type) where
  compare : α → α → Int
  total : ∀ a b, compare a b ≤ 0 ∨ compare b a ≤ 0
  trans : ∀ a b c, compare a b ≤ 0 → compare b c ≤ 0 → compare a c ≤ 0

namespace Comparator

variable {α β : Type}

/-- Comparison by an integer key, the smaller key first. -/
def byKey (key : α → Int) : Comparator α where
  compare a b := if key a < key b then -1 else if key a > key b then 1 else 0
  total a b := by split_ifs <;> omega
  trans a b c := by split_ifs <;> omega

/-- The comparison the other way. -/
def reverse (c : Comparator α) : Comparator α where
  compare a b := c.compare b a
  total a b := c.total b a
  trans a b d first second := c.trans d b a second first

theorem byKey_le_iff (key : α → Int) (a b : α) :
    (byKey key).compare a b ≤ 0 ↔ key a ≤ key b := by
  simp only [byKey]
  split_ifs <;> omega

theorem reverse_byKey_le_iff (key : α → Int) (a b : α) :
    (byKey key).reverse.compare a b ≤ 0 ↔ key b ≤ key a :=
  byKey_le_iff key b a

end Comparator

/-- A list in which no element compares greater than a later one. -/
def SortedBy {α : Type} (c : Comparator α) (l : List α) : Prop :=
  l.Pairwise fun a b => c.compare a b ≤ 0

theorem SortedBy.sublist {α : Type} {c : Comparator α} {l l' : List α} (sorted : SortedBy c l)
    (sub : l'.Sublist l) : SortedBy c l' :=
  List.Pairwise.sublist sub sorted

/-- An implementation of `qsort`: it returns a sorted permutation. -/
structure Qsort where
  sort : {α : Type} → Comparator α → List α → List α
  perm : ∀ {α : Type} (c : Comparator α) (l : List α), (sort c l).Perm l
  sorted : ∀ {α : Type} (c : Comparator α) (l : List α), SortedBy c (sort c l)

/-- Of two elements of a list one comes first. -/
theorem related_of_ne {α : Type} {R : α → α → Prop} {l : List α} (pairs : l.Pairwise R) {a b : α}
    (inA : a ∈ l) (inB : b ∈ l) (different : a ≠ b) : R a b ∨ R b a := by
  have symm : Std.Symm fun a b => R a b ∨ R b a := ⟨fun _ _ => Or.symm⟩
  have either : l.Pairwise fun a b => R a b ∨ R b a := pairs.imp .inl
  exact either.forall inA inB different

/-- Where no two elements compare equal there is one sorted order, and every implementation
returns it. -/
theorem Qsort.sort_eq (Q : Qsort) {α : Type} {c : Comparator α} {l l' : List α} (perm : l'.Perm l)
    (strict : l'.Pairwise fun a b => c.compare a b ≤ 0 ∧ 0 < c.compare b a) : Q.sort c l = l' := by
  have sorted : SortedBy c l' := strict.imp And.left
  refine ((Q.perm c l).trans perm.symm).eq_of_pairwise ?_ (Q.sorted c l) sorted
  intro a b inSorted inList below above
  by_contra different
  have member : a ∈ l' := perm.mem_iff.mpr ((Q.perm c l).mem_iff.mp inSorted)
  rcases related_of_ne strict member inList different with ⟨-, greater⟩ | ⟨-, greater⟩
  · omega
  · omega

/-- Insertion sort, an implementation that can be run. -/
def Qsort.insertion : Qsort where
  sort c l := l.insertionSort fun a b => c.compare a b ≤ 0
  perm c l := List.perm_insertionSort (fun a b => c.compare a b ≤ 0) l
  sorted c l := by
    have total : Std.Total fun a b => c.compare a b ≤ 0 := ⟨c.total⟩
    have trans : IsTrans _ fun a b => c.compare a b ≤ 0 := ⟨c.trans⟩
    exact List.pairwise_insertionSort (fun a b => c.compare a b ≤ 0) l

end OsLab.Foundation
