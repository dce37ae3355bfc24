import Mathlib.Algebra.Order.Group.Int
import Mathlib.Data.Int.Interval
import Mathlib.Data.Set.Card
import Mathlib.Algebra.BigOperators.Group.List.Basic
import Mathlib.Algebra.Order.BigOperators.Group.List

/-!
# Address ranges that do not overlap

An extent is a half-open range of addresses `[start, start + size)`. A list of
extents is packed in `[lo, hi)` when all of them are non-empty, lie inside
`[lo, hi)` and share no address. The order of the list does not matter
(`Packed.perm`), and being packed is kept by the moves of an allocator: taking
an extent out (`Packed.tail`), cutting one in two (`Packed.split`), keeping
only a part of one (`Packed.narrow`), joining two neighbours (`Packed.join`), and
laying extents out one after the other (`packed_stack`, `Packed.append`).

The addresses of a packed list are counted by its sizes
(`Packed.ncard_addressesOf`), so the sizes sum to at most `hi - lo`
(`Packed.totalSize_le`), with equality exactly when the range is covered
(`Packed.totalSize_eq_iff`).
-/

set_option autoImplicit false

namespace OsLab.Foundation

/-- The addresses `[start, start + size)`. -/
structure Extent where
  start : Int
  size : Int
  deriving DecidableEq, Repr

namespace Extent

/-- The addresses of an extent. -/
def addresses (e : Extent) : Set Int := {x | e.start ≤ x ∧ x < e.start + e.size}

/-- Two extents without a common address. -/
def Apart (a b : Extent) : Prop := ∀ x ∈ a.addresses, x ∉ b.addresses

theorem mem_addresses {e : Extent} {x : Int} :
    x ∈ e.addresses ↔ e.start ≤ x ∧ x < e.start + e.size :=
  Iff.rfl

theorem finite_addresses (e : Extent) : e.addresses.Finite :=
  Set.finite_Ico e.start (e.start + e.size)

/-- An extent has as many addresses as its size says. -/
theorem ncard_addresses {e : Extent} (positive : 0 < e.size) :
    (e.addresses.ncard : Int) = e.size := by
  have interval : e.addresses = (Finset.Ico e.start (e.start + e.size) : Set Int) := by
    ext x
    rw [Finset.mem_coe, Finset.mem_Ico, mem_addresses]
  rw [interval, Set.ncard_coe_finset, Int.card_Ico_of_le _ _ (by omega)]
  omega

theorem Apart.symm {a b : Extent} (apart : Apart a b) : Apart b a :=
  fun x inB inA => apart x inA inB

/-- Non-empty extents are apart when one ends before the other starts. -/
theorem apart_iff {a b : Extent} (posA : 0 < a.size) (posB : 0 < b.size) :
    Apart a b ↔ a.start + a.size ≤ b.start ∨ b.start + b.size ≤ a.start := by
  constructor
  · intro disjoint
    by_contra overlap
    have inA : max a.start b.start ∈ a.addresses := mem_addresses.mpr (by omega)
    have inB : max a.start b.start ∈ b.addresses := mem_addresses.mpr (by omega)
    exact disjoint _ inA inB
  · intro ordered x inA inB
    rw [mem_addresses] at inA inB
    omega

theorem Apart.mono {a a' b : Extent} (apart : Apart a b) (sub : a'.addresses ⊆ a.addresses) :
    Apart a' b :=
  fun x member => apart x (sub member)

end Extent

open Extent

/-- The addresses covered by a list of extents. -/
def addressesOf : List Extent → Set Int
  | [] => ∅
  | e :: l => e.addresses ∪ addressesOf l

/-- The sum of the sizes. -/
def totalSize (l : List Extent) : Int := (l.map Extent.size).sum

@[simp] theorem totalSize_nil : totalSize [] = 0 := rfl

@[simp] theorem totalSize_cons (e : Extent) (l : List Extent) :
    totalSize (e :: l) = e.size + totalSize l := by
  simp [totalSize]

@[simp] theorem totalSize_append (l l' : List Extent) :
    totalSize (l ++ l') = totalSize l + totalSize l' := by
  simp [totalSize]

theorem totalSize_perm {l l' : List Extent} (perm : l.Perm l') : totalSize l = totalSize l' :=
  (perm.map Extent.size).sum_eq

theorem mem_addressesOf {l : List Extent} {x : Int} :
    x ∈ addressesOf l ↔ ∃ e ∈ l, x ∈ e.addresses := by
  induction l with
  | nil => simp [addressesOf]
  | cons e l ih => simp [addressesOf, ih]

theorem addressesOf_perm {l l' : List Extent} (perm : l.Perm l') :
    addressesOf l = addressesOf l' := by
  ext x
  simp only [mem_addressesOf, perm.mem_iff]

/-- Two neighbours cover what the extent they make up covers. -/
theorem addresses_join {a b : Extent} (sizeA : 0 < a.size) (sizeB : 0 < b.size)
    (adjacent : a.start + a.size = b.start) :
    (⟨a.start, a.size + b.size⟩ : Extent).addresses = a.addresses ∪ b.addresses := by
  ext x
  rw [Set.mem_union, mem_addresses, mem_addresses, mem_addresses]
  simp only
  omega

theorem finite_addressesOf (l : List Extent) : (addressesOf l).Finite := by
  induction l with
  | nil => exact Set.finite_empty
  | cons e l ih => exact (finite_addresses e).union ih

/-! ## Packed lists -/

/-- Non-empty extents inside `[lo, hi)` without common addresses. -/
structure Packed (lo hi : Int) (l : List Extent) : Prop where
  positive : ∀ e ∈ l, 0 < e.size
  inside : ∀ e ∈ l, lo ≤ e.start ∧ e.start + e.size ≤ hi
  apart : l.Pairwise Apart

namespace Packed

variable {lo mid hi : Int} {e : Extent} {l l' : List Extent}

theorem nil : Packed lo hi [] where
  positive := by simp
  inside := by simp
  apart := .nil

theorem cons (positive : 0 < e.size) (inside : lo ≤ e.start ∧ e.start + e.size ≤ hi)
    (apart : ∀ f ∈ l, Apart e f) (packed : Packed lo hi l) : Packed lo hi (e :: l) where
  positive := List.forall_mem_cons.mpr ⟨positive, packed.positive⟩
  inside := List.forall_mem_cons.mpr ⟨inside, packed.inside⟩
  apart := List.pairwise_cons.mpr ⟨apart, packed.apart⟩

theorem head_positive (packed : Packed lo hi (e :: l)) : 0 < e.size :=
  packed.positive e List.mem_cons_self

theorem head_inside (packed : Packed lo hi (e :: l)) : lo ≤ e.start ∧ e.start + e.size ≤ hi :=
  packed.inside e List.mem_cons_self

theorem head_apart (packed : Packed lo hi (e :: l)) : ∀ f ∈ l, Apart e f :=
  (List.pairwise_cons.mp packed.apart).1

theorem sublist (packed : Packed lo hi l) (sub : l'.Sublist l) : Packed lo hi l' where
  positive f member := packed.positive f (sub.subset member)
  inside f member := packed.inside f (sub.subset member)
  apart := packed.apart.sublist sub

theorem tail (packed : Packed lo hi (e :: l)) : Packed lo hi l :=
  packed.sublist (List.sublist_cons_self e l)

theorem perm (packed : Packed lo hi l) (perm : l.Perm l') : Packed lo hi l' where
  positive f member := packed.positive f (perm.mem_iff.mpr member)
  inside f member := packed.inside f (perm.mem_iff.mpr member)
  apart := (perm.pairwise_iff fun a => a.symm).mp packed.apart

/-- Keeping a non-empty part of an extent. -/
theorem narrow {e' : Extent} (packed : Packed lo hi (e :: l)) (positive : 0 < e'.size)
    (left : e.start ≤ e'.start) (right : e'.start + e'.size ≤ e.start + e.size) :
    Packed lo hi (e' :: l) := by
  have inside := packed.head_inside
  have sub : e'.addresses ⊆ e.addresses := fun x member => by
    rw [mem_addresses] at member ⊢
    omega
  exact cons positive (by omega) (fun f member => (packed.head_apart f member).mono sub)
    packed.tail

/-- Cutting an extent in two. -/
theorem split {k : Int} (packed : Packed lo hi (e :: l)) (positive : 0 < k) (short : k < e.size) :
    Packed lo hi (⟨e.start, k⟩ :: ⟨e.start + k, e.size - k⟩ :: l) := by
  have back : Packed lo hi (⟨e.start + k, e.size - k⟩ :: l) :=
    packed.narrow (by simp only; omega) (by simp only; omega) (by simp only; omega)
  have front : Packed lo hi (⟨e.start, k⟩ :: l) :=
    packed.narrow positive (by simp only; omega) (by simp only; omega)
  refine cons positive front.head_inside ?_ back
  intro f member
  rcases List.mem_cons.mp member with rfl | inside
  · exact (apart_iff positive back.head_positive).mpr (.inl le_rfl)
  · exact front.head_apart f inside

/-- Joining two neighbours. -/
theorem join {a b : Extent} (packed : Packed lo hi (a :: b :: l))
    (adjacent : a.start + a.size = b.start) :
    Packed lo hi (⟨a.start, a.size + b.size⟩ :: l) := by
  have posA := packed.head_positive
  have posB := packed.tail.head_positive
  have insideA := packed.head_inside
  have insideB := packed.tail.head_inside
  refine cons (by simp only; omega) (by simp only; omega) ?_ packed.tail.tail
  intro f member
  have posF := packed.positive f (by simp [member])
  have apartA := (apart_iff posA posF).mp (packed.head_apart f (by simp [member]))
  have apartB := (apart_iff posB posF).mp (packed.tail.head_apart f member)
  rw [apart_iff (by simp only; omega) posF]
  simp only
  omega

/-- Lists packed one after the other are packed together. -/
theorem append (low : Packed lo mid l) (high : Packed mid hi l') (lower : lo ≤ mid)
    (upper : mid ≤ hi) : Packed lo hi (l ++ l') where
  positive f member := by
    rcases List.mem_append.mp member with inside | inside
    · exact low.positive f inside
    · exact high.positive f inside
  inside f member := by
    rcases List.mem_append.mp member with inside | inside
    · have := low.inside f inside
      omega
    · have := high.inside f inside
      omega
  apart := by
    refine List.pairwise_append.mpr ⟨low.apart, high.apart, fun a inLow b inHigh => ?_⟩
    have below := low.inside a inLow
    have above := high.inside b inHigh
    exact (apart_iff (low.positive a inLow) (high.positive b inHigh)).mpr (.inl (by omega))

/-- The sizes count the addresses. -/
theorem ncard_addressesOf (packed : Packed lo hi l) :
    ((addressesOf l).ncard : Int) = totalSize l := by
  induction l with
  | nil => simp [addressesOf]
  | cons e l ih =>
      have disjoint : Disjoint e.addresses (addressesOf l) := by
        rw [Set.disjoint_left]
        intro x inHead inTail
        obtain ⟨f, member, inF⟩ := mem_addressesOf.mp inTail
        exact packed.head_apart f member x inHead inF
      rw [addressesOf, Set.ncard_union_eq disjoint (finite_addresses e)
        (finite_addressesOf l), Nat.cast_add, ih packed.tail, ncard_addresses packed.head_positive,
        totalSize_cons]

theorem addressesOf_subset (packed : Packed lo hi l) :
    addressesOf l ⊆ (⟨lo, hi - lo⟩ : Extent).addresses := by
  intro x member
  obtain ⟨e, inList, inE⟩ := mem_addressesOf.mp member
  have inside := packed.inside e inList
  rw [mem_addresses] at inE ⊢
  simp only
  omega

/-- **The sizes of a packed list fit in the range.** -/
theorem totalSize_le (packed : Packed lo hi l) (nonempty : lo < hi) :
    totalSize l ≤ hi - lo := by
  have card := Set.ncard_le_ncard packed.addressesOf_subset (finite_addresses _)
  have counted := packed.ncard_addressesOf
  have whole : ((⟨lo, hi - lo⟩ : Extent).addresses.ncard : Int) = hi - lo :=
    ncard_addresses (by simp only; omega)
  omega

/-- The sizes of a packed list add up to the range exactly when the list covers
it. -/
theorem totalSize_eq_iff (packed : Packed lo hi l) (nonempty : lo < hi) :
    totalSize l = hi - lo ↔ addressesOf l = (⟨lo, hi - lo⟩ : Extent).addresses := by
  have counted := packed.ncard_addressesOf
  have whole : ((⟨lo, hi - lo⟩ : Extent).addresses.ncard : Int) = hi - lo :=
    ncard_addresses (by simp only; omega)
  constructor
  · intro same
    apply Set.eq_of_subset_of_ncard_le packed.addressesOf_subset _ (finite_addresses _)
    omega
  · intro covered
    rw [covered, whole] at counted
    exact counted.symm

end Packed

/-! ## Extents laid out one after the other -/

/-- Extents of the given sizes, the first at `next` and each one at the end of
the one before. -/
def stack (next : Int) : List Int → List Extent
  | [] => []
  | z :: zs => ⟨next, z⟩ :: stack (next + z) zs

theorem packed_stack (next : Int) {zs : List Int} (positive : ∀ z ∈ zs, 0 < z) :
    Packed next (next + zs.sum) (stack next zs) := by
  induction zs generalizing next with
  | nil => exact .nil
  | cons z zs ih =>
      have posHead := positive z List.mem_cons_self
      have later : ∀ w ∈ zs, 0 < w := fun w member => positive w (List.mem_cons_of_mem _ member)
      have nonneg : 0 ≤ zs.sum := List.sum_nonneg fun w member => (later w member).le
      have single : Packed next (next + z) [⟨next, z⟩] :=
        .cons posHead ⟨le_rfl, le_rfl⟩ (by simp) .nil
      have rest := ih (next + z) later
      have joined := single.append rest (by omega) (by omega)
      simpa [stack, add_assoc] using joined

end OsLab.Foundation
