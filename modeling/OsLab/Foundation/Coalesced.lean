import OsLab.Foundation.Extents
import OsLab.Foundation.Sorting

/-!
# The canonical form of a set of addresses

A set of addresses can be written as a list of extents in many ways. Among the packed
lists there is one, up to order, in which no extent ends where another one starts: the
list of the maximal runs of addresses (`Component`). `Packed.mem_iff_component` says that
the extents of a packed list without neighbours are the maximal runs of the addresses it
covers, so that two such lists with the same addresses are permutations of each other
(`Packed.perm_of_addressesOf_eq`).

Extents that are laid out with a gap between any two have no neighbours
(`Spaced.coalesced`), and taking the front of an extent makes no new ones
(`Packed.coalesced_rest`).
-/

set_option autoImplicit false

namespace OsLab.Foundation

open Extent

/-- No extent ends where one starts. -/
def Coalesced (l : List Extent) : Prop := ∀ a ∈ l, ∀ b ∈ l, a.start + a.size ≠ b.start

/-- Each extent ends before the later ones start, with a gap between them. -/
def Spaced (l : List Extent) : Prop := l.Pairwise fun a b => a.start + a.size < b.start

/-- Each extent ends before the later ones start. -/
def LaidOut (l : List Extent) : Prop := l.Pairwise fun a b => a.start + a.size ≤ b.start

/-- A maximal run of addresses of a set. -/
structure Component (addresses : Set Int) (e : Extent) : Prop where
  positive : 0 < e.size
  inside : e.addresses ⊆ addresses
  before : e.start - 1 ∉ addresses
  behind : e.start + e.size ∉ addresses

theorem Coalesced.subset {l l' : List Extent} (coalesced : Coalesced l) (sub : l' ⊆ l) :
    Coalesced l' :=
  fun a inA b inB => coalesced a (sub inA) b (sub inB)

theorem Coalesced.perm {l l' : List Extent} (coalesced : Coalesced l) (perm : l.Perm l') :
    Coalesced l' :=
  coalesced.subset perm.symm.subset

theorem coalesced_singleton {e : Extent} (positive : 0 < e.size) : Coalesced [e] := by
  intro a inA b inB
  rw [List.mem_singleton.mp inA, List.mem_singleton.mp inB]
  omega

/-- Extents with gaps between them have no neighbours. -/
theorem Spaced.coalesced {l : List Extent} (spaced : Spaced l) (positive : ∀ e ∈ l, 0 < e.size) :
    Coalesced l := by
  intro a inA b inB adjacent
  have sizeA := positive a inA
  have sizeB := positive b inB
  by_cases same : a = b
  · subst same
    omega
  · rcases related_of_ne spaced inA inB same with gap | gap
    · omega
    · omega

/-- Sorted by start, packed extents are laid out one behind the other. -/
theorem Packed.laidOut {lo hi : Int} {l : List Extent} (packed : Packed lo hi l)
    (sorted : l.Pairwise fun a b => a.start ≤ b.start) : LaidOut l := by
  refine (sorted.and packed.apart).imp_of_mem fun {a b} inA inB both => ?_
  obtain ⟨order, apart⟩ := both
  have sizeA := packed.positive a inA
  have sizeB := packed.positive b inB
  rcases (apart_iff sizeA sizeB).mp apart with ends | ends
  · exact ends
  · omega

namespace Packed

variable {lo hi : Int} {l l' : List Extent}

/-- A packed list holds no extent twice. -/
theorem nodup (packed : Packed lo hi l) : l.Nodup := by
  refine packed.apart.imp_of_mem fun {a b} inA _ apart same => ?_
  subst same
  have size := packed.positive a inA
  exact apart a.start (mem_addresses.mpr (by omega)) (mem_addresses.mpr (by omega))

/-- Extents of a packed list that share an address are the same. -/
theorem eq_of_mem {a b : Extent} {x : Int} (packed : Packed lo hi l) (inA : a ∈ l) (inB : b ∈ l)
    (first : x ∈ a.addresses) (second : x ∈ b.addresses) : a = b := by
  by_contra different
  rcases related_of_ne packed.apart inA inB different with apart | apart
  · exact apart x first second
  · exact apart x second first

/-- What is left of an extent behind a part taken from its front has no neighbour: nothing
else ends inside the extent. -/
theorem coalesced_rest {e : Extent} {k : Int} (packed : Packed lo hi (e :: l))
    (coalesced : Coalesced (e :: l)) (positive : 0 < k) (short : k < e.size) :
    Coalesced (⟨e.start + k, e.size - k⟩ :: l) := by
  intro a inA b inB
  rcases List.mem_cons.mp inA with rfl | fromRest
  · rcases List.mem_cons.mp inB with rfl | toRest
    · simp only
      omega
    · have gap := coalesced e List.mem_cons_self b (List.mem_cons_of_mem _ toRest)
      simp only
      omega
  · rcases List.mem_cons.mp inB with rfl | toRest
    · intro adjacent
      simp only at adjacent
      have size := packed.tail.positive a fromRest
      exact packed.head_apart a fromRest (a.start + a.size - 1) (mem_addresses.mpr (by omega))
        (mem_addresses.mpr (by omega))
    · exact coalesced a (List.mem_cons_of_mem _ fromRest) b (List.mem_cons_of_mem _ toRest)

theorem component (packed : Packed lo hi l) (coalesced : Coalesced l) {e : Extent} (member : e ∈ l) :
    Component (addressesOf l) e where
  positive := packed.positive e member
  inside x inE := mem_addressesOf.mpr ⟨e, member, inE⟩
  before covered := by
    obtain ⟨f, inList, inF⟩ := mem_addressesOf.mp covered
    have size := packed.positive e member
    have notNext := coalesced f inList e member
    rw [mem_addresses] at inF
    -- `f` reaches up to the start of `e`, and would share it if it went further
    have shared : e = f := packed.eq_of_mem member inList (x := e.start)
      (mem_addresses.mpr (by omega)) (mem_addresses.mpr (by omega))
    subst shared
    omega
  behind covered := by
    obtain ⟨f, inList, inF⟩ := mem_addressesOf.mp covered
    have size := packed.positive e member
    have notNext := coalesced e member f inList
    rw [mem_addresses] at inF
    have shared : e = f := packed.eq_of_mem member inList (x := e.start + e.size - 1)
      (mem_addresses.mpr (by omega)) (mem_addresses.mpr (by omega))
    subst shared
    omega

/-- **The extents of a packed list without neighbours are the maximal runs of its addresses.** -/
theorem mem_iff_component (packed : Packed lo hi l) (coalesced : Coalesced l) {e : Extent} :
    e ∈ l ↔ Component (addressesOf l) e := by
  refine ⟨packed.component coalesced, fun run => ?_⟩
  have size := run.positive
  have first : e.start ∈ e.addresses := mem_addresses.mpr (by omega)
  obtain ⟨f, member, inF⟩ := mem_addressesOf.mp (run.inside first)
  have maximal := packed.component coalesced member
  rw [mem_addresses] at inF
  have starts : e.start = f.start := by
    by_contra later
    exact run.before (maximal.inside (mem_addresses.mpr (by omega)))
  have ends : e.start + e.size = f.start + f.size := by
    rcases lt_trichotomy (e.start + e.size) (f.start + f.size) with shorter | same | longer
    · exact absurd (maximal.inside (mem_addresses.mpr (by omega))) run.behind
    · exact same
    · exact absurd (run.inside (mem_addresses.mpr (by omega))) maximal.behind
  have same : e = f := by
    obtain ⟨start, size⟩ := e
    obtain ⟨start', size'⟩ := f
    simp only [Extent.mk.injEq]
    simp only at starts ends
    omega
  rwa [same]

/-- **Two packed lists without neighbours that cover the same addresses are permutations
of each other.** -/
theorem perm_of_addressesOf_eq {lo' hi' : Int} (packed : Packed lo hi l) (coalesced : Coalesced l)
    (packed' : Packed lo' hi' l') (coalesced' : Coalesced l')
    (same : addressesOf l = addressesOf l') : l.Perm l' := by
  refine (List.perm_ext_iff_of_nodup packed.nodup packed'.nodup).mpr fun e => ?_
  rw [packed.mem_iff_component coalesced, packed'.mem_iff_component coalesced', same]

end Packed

end OsLab.Foundation
