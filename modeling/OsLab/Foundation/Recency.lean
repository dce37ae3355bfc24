import Mathlib.Data.List.Nodup
import Mathlib.Data.List.Dedup
import Mathlib.Data.List.Perm.Basic
import Mathlib.Data.List.Induction

/-!
# Requests in order of recency

A request sequence gives its distinct members an order: the one requested last comes
first. `recency` is that list, built by moving every request to the front.
`mem_recency`, `nodup_recency` and `recency_sorted` say that it is the right list: its
members are the members of the sequence, each once, and the times of their last
requests go down.

`mostRecent k` are the first `k` members of the list. After a request they depend on
the first `k` before it only (`mostRecent_of_mem`, `mostRecent_of_notMem`), and the
one that a new member pushes out is the one whose last request is the oldest
(`eq_last_of_oldest`).
-/

set_option autoImplicit false

namespace OsLab.Foundation

variable {α : Type} [DecidableEq α]

/-- A request moves its member to the front. -/
def touch (x : α) (l : List α) : List α := x :: l.erase x

/-- The distinct members of a sequence, the one requested last first. -/
def recency (requests : List α) : List α := requests.foldl (fun l x => touch x l) []

/-- The time of the last request of a member, from 1 on, and 0 without a request. -/
def lastTime (requests : List α) (x : α) : Nat :=
  requests.length - requests.reverse.idxOf x

@[simp] theorem recency_nil : recency ([] : List α) = [] := rfl

@[simp] theorem recency_snoc (requests : List α) (x : α) :
    recency (requests ++ [x]) = touch x (recency requests) := by
  simp [recency, List.foldl_append]

theorem lastTime_snoc (requests : List α) (x y : α) :
    lastTime (requests ++ [y]) x =
      if x = y then requests.length + 1 else lastTime requests x := by
  rcases eq_or_ne x y with rfl | other
  · simp [lastTime]
  · simp [lastTime, other, List.idxOf_cons_ne _ other.symm]

theorem lastTime_le (requests : List α) (x : α) : lastTime requests x ≤ requests.length :=
  Nat.sub_le ..

theorem mem_touch {x y : α} {l : List α} : y ∈ touch x l ↔ y = x ∨ y ∈ l := by
  rcases eq_or_ne y x with rfl | other
  · simp [touch]
  · simp [touch, other, List.mem_erase_of_ne other]

theorem mem_recency {requests : List α} {x : α} : x ∈ recency requests ↔ x ∈ requests := by
  induction requests using List.reverseRecOn with
  | nil => simp
  | append_singleton requests y ih =>
      rw [recency_snoc, mem_touch, ih, List.mem_append, List.mem_singleton, or_comm]

theorem nodup_touch {l : List α} (nodup : l.Nodup) (x : α) : (touch x l).Nodup :=
  List.nodup_cons.mpr ⟨nodup.not_mem_erase, nodup.erase x⟩

theorem nodup_recency (requests : List α) : (recency requests).Nodup := by
  induction requests using List.reverseRecOn with
  | nil => simp
  | append_singleton requests y ih =>
      rw [recency_snoc]
      exact nodup_touch ih y

/-- The times of the last requests go down along the list. -/
theorem recency_sorted (requests : List α) :
    (recency requests).Pairwise fun x y => lastTime requests y < lastTime requests x := by
  induction requests using List.reverseRecOn with
  | nil => simp
  | append_singleton requests z ih =>
      rw [recency_snoc, touch, List.pairwise_cons]
      constructor
      · intro y member
        have other : y ≠ z := (nodup_recency requests).mem_erase_iff.mp member |>.1
        rw [lastTime_snoc, lastTime_snoc, if_pos rfl, if_neg other]
        exact Nat.lt_succ_of_le (lastTime_le requests y)
      · refine List.Pairwise.imp_of_mem ?_ (ih.sublist List.erase_sublist)
        intro x y first second earlier
        have otherX : x ≠ z := (nodup_recency requests).mem_erase_iff.mp first |>.1
        have otherY : y ≠ z := (nodup_recency requests).mem_erase_iff.mp second |>.1
        rwa [lastTime_snoc, lastTime_snoc, if_neg otherX, if_neg otherY]

theorem recency_perm_dedup (requests : List α) : (recency requests).Perm requests.dedup := by
  refine (List.perm_ext_iff_of_nodup (nodup_recency requests) (List.nodup_dedup requests)).mpr ?_
  intro x
  rw [mem_recency, List.mem_dedup]

/-! ## The first `k` -/

/-- The `k` members requested last, or all of them if there are fewer. -/
def mostRecent (k : Nat) (requests : List α) : List α := (recency requests).take k

theorem nodup_mostRecent (k : Nat) (requests : List α) : (mostRecent k requests).Nodup :=
  (nodup_recency requests).sublist (List.take_sublist ..)

theorem mostRecent_length (k : Nat) (requests : List α) :
    (mostRecent k requests).length = min k requests.dedup.length := by
  rw [mostRecent, List.length_take, (recency_perm_dedup requests).length_eq]

theorem mostRecent_subset {n m : Nat} (fewer : n ≤ m) (requests : List α) :
    mostRecent n requests ⊆ mostRecent m requests :=
  (List.take_sublist_take_left fewer).subset

/-- A request of one of the first `k` moves it among them. -/
theorem mostRecent_of_mem {requests : List α} {k : Nat} {x : α} (recent : x ∈ mostRecent k requests) :
    mostRecent k (requests ++ [x]) = touch x (mostRecent k requests) := by
  have split : (recency requests).erase x =
      (mostRecent k requests).erase x ++ (recency requests).drop k := by
    rw [← List.erase_append_left _ recent, mostRecent, List.take_append_drop]
  have shorter := List.length_erase_of_mem recent
  have some := List.length_pos_of_mem recent
  have length : (mostRecent k requests).length = min k (recency requests).length :=
    List.length_take
  rw [mostRecent, recency_snoc, touch, touch, split]
  rcases Nat.le_total k (recency requests).length with enough | few
  · rw [← List.cons_append]
    refine List.take_left' ?_
    rw [List.length_cons]
    omega
  · rw [List.drop_eq_nil_of_le few, List.append_nil]
    refine List.take_of_length_le ?_
    rw [List.length_cons]
    omega

/-- A request of another member puts it before the first `k`. -/
theorem mostRecent_of_notMem {requests : List α} {k : Nat} {x : α}
    (absent : x ∉ mostRecent k requests) :
    mostRecent (k + 1) (requests ++ [x]) = x :: mostRecent k requests := by
  have split : (recency requests).erase x =
      mostRecent k requests ++ ((recency requests).drop k).erase x := by
    rw [← List.erase_append_right _ absent, mostRecent, List.take_append_drop]
  rw [mostRecent, recency_snoc, touch, split, List.take_succ_cons]
  rcases Nat.le_total k (recency requests).length with enough | few
  · rw [List.take_left' (by rw [mostRecent, List.length_take]; omega)]
  · rw [List.drop_eq_nil_of_le few, List.erase_nil, List.append_nil, mostRecent, List.take_take,
      Nat.min_self]

section Last

variable {requests : List α} {k : Nat} {x last : α}
  (split : mostRecent (k + 1) requests = mostRecent k requests ++ [last])
  (member : x ∈ mostRecent (k + 1) requests)

include split member

/-- The last of the first `k + 1` was requested before all the others. -/
theorem lastTime_last_lt (other : x ≠ last) : lastTime requests last < lastTime requests x := by
  have sorted := (recency_sorted requests).sublist (List.take_sublist (k + 1) _)
  rw [← mostRecent, split, List.pairwise_append] at sorted
  rw [split, List.mem_append, List.mem_singleton] at member
  rcases member with earlier | isLast
  · exact sorted.2.2 x earlier last (List.mem_singleton_self last)
  · exact absurd isLast other

/-- Among the first `k + 1`, the one requested longest ago is the last. -/
theorem eq_last_of_oldest
    (oldest : ∀ y ∈ mostRecent (k + 1) requests, lastTime requests x ≤ lastTime requests y) :
    x = last := by
  by_contra other
  have bound := oldest last (by rw [split]; simp)
  have later := lastTime_last_lt split member other
  omega

end Last

end OsLab.Foundation
