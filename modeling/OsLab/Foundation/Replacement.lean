import Mathlib.Data.List.Dedup
import OsLab.Foundation.Recency

/-!
# Replacement policies

A replacement policy is given by what it keeps: `resident history` are the members it
holds after the requests of `history`. A request of any other member is a fault
(`faultsFrom`).

A policy is conservative for `k` places when a member that was just loaded is not given
up before `k` further members were requested (`Conservative`). In a window of requests
with at most `k` different members a conservative policy then loads each of them at most
once, whatever it held before (`Conservative.nodup_faults`), which bounds the number of
faults (`Conservative.length_faults_le`).

Keeping the `k` members requested last is conservative (`conservative_mostRecent`).
-/

set_option autoImplicit false

namespace OsLab.Foundation

variable {α : Type} [DecidableEq α]

/-- The number of different members of a sequence. -/
def distinct (requests : List α) : Nat := requests.dedup.length

/-- A sequence has at least as many different members as any list of them without
duplicates. -/
theorem length_le_distinct {l requests : List α} (nodup : l.Nodup) (among : l ⊆ requests) :
    l.length ≤ distinct requests := by
  refine (List.subperm_of_subset nodup fun x member => ?_).length_le
  exact List.mem_dedup.mpr (among member)

theorem distinct_le_of_subset {l requests : List α} (among : l ⊆ requests) :
    distinct l ≤ distinct requests :=
  length_le_distinct (List.nodup_dedup l) fun _ member => among (List.mem_dedup.mp member)

section Policy

variable (resident : List α → List α)

/-- The members that are loaded during a window of requests, in order. -/
def faultsFrom : List α → List α → List α
  | _, [] => []
  | history, x :: window =>
      if x ∈ resident history then faultsFrom (history ++ [x]) window
      else x :: faultsFrom (history ++ [x]) window

/-- A member that is loaded was not resident at one of its requests. -/
theorem missing_of_mem_faultsFrom {x : α} {history window : List α}
    (fault : x ∈ faultsFrom resident history window) :
    ∃ earlier later, window = earlier ++ x :: later ∧ x ∉ resident (history ++ earlier) := by
  induction window generalizing history with
  | nil => exact absurd fault List.not_mem_nil
  | cons y window ih =>
      have inside : x ∈ faultsFrom resident (history ++ [y]) window →
          ∃ earlier later, y :: window = earlier ++ x :: later ∧
            x ∉ resident (history ++ earlier) := by
        intro fault
        obtain ⟨earlier, later, rfl, missing⟩ := ih fault
        refine ⟨y :: earlier, later, rfl, ?_⟩
        rwa [List.append_assoc] at missing
      rw [faultsFrom] at fault
      split at fault
      · exact inside fault
      · rename_i absent
        rcases List.mem_cons.mp fault with rfl | further
        · exact ⟨[], window, rfl, by rwa [List.append_nil]⟩
        · exact inside further

/-- A member that is loaded stays until `k` members, itself counted, were requested
from its load on. -/
def Conservative (k : Nat) : Prop :=
  ∀ (history : List α) (x : α) (window : List α), x ∉ resident history →
    distinct (x :: window) ≤ k → x ∈ resident (history ++ x :: window)

variable {resident} {k : Nat}

/-- **A conservative policy loads no member twice in a window with at most `k` different
members.** -/
theorem Conservative.nodup_faults (conservative : Conservative resident k)
    (history : List α) {window : List α} (few : distinct window ≤ k) :
    (faultsFrom resident history window).Nodup := by
  induction window generalizing history with
  | nil => exact List.nodup_nil
  | cons x window ih =>
      have fewer : distinct window ≤ k :=
        Nat.le_trans (distinct_le_of_subset (List.subset_cons_self x window)) few
      rw [faultsFrom]
      split
      · exact ih _ fewer
      · rename_i absent
        refine List.nodup_cons.mpr ⟨fun again => ?_, ih _ fewer⟩
        obtain ⟨earlier, later, rfl, missing⟩ := missing_of_mem_faultsFrom resident again
        rw [List.append_assoc] at missing
        -- between its load and the second fault `x` was never given up
        refine missing (conservative history x earlier absent (Nat.le_trans ?_ few))
        refine distinct_le_of_subset (List.cons_subset_cons x ?_)
        exact List.subset_append_left ..

theorem Conservative.length_faults_le (conservative : Conservative resident k)
    (history : List α) {window : List α} (few : distinct window ≤ k) :
    (faultsFrom resident history window).length ≤ k := by
  refine Nat.le_trans (length_le_distinct (conservative.nodup_faults history few) ?_) few
  intro x fault
  obtain ⟨earlier, later, rfl, -⟩ := missing_of_mem_faultsFrom resident fault
  simp

end Policy

/-! ## Keeping the members requested last -/

/-- The members requested in the second part come before all the others. -/
theorem recency_append (earlier later : List α) :
    recency (earlier ++ later) =
      recency later ++ (recency earlier).filter (· ∉ later) := by
  induction later using List.reverseRecOn with
  | nil => simp
  | append_singleton later x ih =>
      rw [← List.append_assoc, recency_snoc, ih, recency_snoc, touch, touch, List.cons_append]
      congr 1
      by_cases requested : x ∈ later
      · rw [List.erase_append_left _ (mem_recency.mpr requested)]
        congr 1
        refine List.filter_congr fun y _ => ?_
        rcases eq_or_ne y x with rfl | other
        · simp [requested]
        · simp [other]
      · rw [List.erase_append_right _ (fun member => requested (mem_recency.mp member)),
          ((nodup_recency earlier).filter _).erase_eq_filter, List.filter_filter,
          List.erase_of_not_mem fun member => requested (mem_recency.mp member)]
        congr 1
        refine List.filter_congr fun y _ => ?_
        rcases eq_or_ne y x with rfl | other
        · simp
        · simp [other]

theorem distinct_eq_recency (requests : List α) : distinct requests = (recency requests).length :=
  (recency_perm_dedup requests).length_eq.symm

/-- Every member of a window with at most `k` different members is among the `k` members
requested last. -/
theorem mem_mostRecent_append {k : Nat} {history window : List α} (few : distinct window ≤ k)
    {x : α} (requested : x ∈ window) : x ∈ mostRecent k (history ++ window) := by
  rw [distinct_eq_recency] at few
  rw [mostRecent, recency_append, List.take_append, List.take_of_length_le few]
  exact List.mem_append_left _ (mem_recency.mpr requested)

theorem conservative_mostRecent (k : Nat) : Conservative (@mostRecent α _ k) k :=
  fun _ _ _ _ few => mem_mostRecent_append few List.mem_cons_self

end OsLab.Foundation
