import Mathlib.Data.List.Nodup
import Mathlib.Data.List.Pairwise

/-!
# Histories of numbered entries

A history is a list that grows at its end. Each entry has an author and a number
that the author gave it. In a numbered history the entries of one author have
increasing numbers, so an author and a number determine at most one entry
(`Numbered.filter_eq_singleton`, `Numbered.keys_nodup`).

`Fresh` is the bookkeeping that keeps a history numbered: no entry of an author has
a number beyond the current one of the author, and while the author has not made its
current entry the current number is not used either. `Numbered.record` adds the entry,
and the `Fresh` rules say what the other moves of an author do.
-/

set_option autoImplicit false

namespace OsLab.Foundation

variable {α ι : Type} {author : α → ι} {number : α → Nat}

/-- The entries of one author have increasing numbers. -/
def Numbered (author : α → ι) (number : α → Nat) (history : List α) : Prop :=
  history.Pairwise fun x y => author x = author y → number x < number y

/-- No entry is beyond the current number of its author, and the current number is not
used while the author's entry is pending. -/
def Fresh (author : α → ι) (number : α → Nat) (current : ι → Nat) (pending : ι → Bool)
    (history : List α) : Prop :=
  ∀ x ∈ history, number x ≤ current (author x) ∧
    (pending (author x) = true → number x < current (author x))

namespace Numbered

variable {history : List α}

theorem nil : Numbered author number [] := List.Pairwise.nil

/-- A pending entry with the current number of its author is recorded. -/
theorem record {current : ι → Nat} {pending : ι → Bool} {x : α}
    (numbered : Numbered author number history)
    (fresh : Fresh author number current pending history)
    (waits : pending (author x) = true) (now : number x = current (author x)) :
    Numbered author number (history ++ [x]) := by
  refine List.pairwise_append.mpr ⟨numbered, List.pairwise_singleton _ _, ?_⟩
  intro y member z last sameAuthor
  cases List.mem_singleton.mp last
  rw [now, ← sameAuthor]
  exact (fresh y member).2 (sameAuthor ▸ waits)

theorem keys_nodup (numbered : Numbered author number history) :
    (history.map fun x => (author x, number x)).Nodup := by
  refine List.pairwise_map.mpr (List.Pairwise.imp ?_ numbered)
  intro x y lt same
  obtain ⟨sameAuthor, sameNumber⟩ := Prod.mk.inj same
  exact Nat.ne_of_lt (lt sameAuthor) sameNumber

/-- An author and a number determine the entry. -/
theorem filter_eq_singleton [DecidableEq ι] (numbered : Numbered author number history) {x : α}
    (member : x ∈ history) :
    history.filter (fun y => author y = author x ∧ number y = number x) = [x] := by
  obtain ⟨before, after, rfl⟩ := List.append_of_mem member
  obtain ⟨-, later, earlier⟩ := List.pairwise_append.mp numbered
  have none_before : before.filter (fun y => author y = author x ∧ number y = number x) = [] := by
    rw [List.filter_eq_nil_iff]
    intro y inside same
    obtain ⟨sameAuthor, sameNumber⟩ := of_decide_eq_true same
    exact Nat.ne_of_lt (earlier y inside x (List.mem_cons_self ..) sameAuthor) sameNumber
  have none_after : after.filter (fun y => author y = author x ∧ number y = number x) = [] := by
    rw [List.filter_eq_nil_iff]
    intro y inside same
    obtain ⟨sameAuthor, sameNumber⟩ := of_decide_eq_true same
    exact Nat.ne_of_gt ((List.pairwise_cons.mp later).1 y inside sameAuthor.symm) sameNumber
  rw [List.filter_append, none_before, List.filter_cons_of_pos (by simp), none_after]
  rfl

end Numbered

namespace Fresh

variable {history : List α} {current : ι → Nat} {pending : ι → Bool}

/-- An author that makes no entry pending keeps the history fresh. -/
theorem mono (fresh : Fresh author number current pending history) {pending' : ι → Bool}
    (fewer : ∀ i, pending' i = true → pending i = true) :
    Fresh author number current pending' history := by
  intro x member
  obtain ⟨bound, unused⟩ := fresh x member
  exact ⟨bound, fun waits => unused (fewer _ waits)⟩

/-- An author that takes the next number may make an entry pending. -/
theorem advance [DecidableEq ι] (fresh : Fresh author number current pending history) (i : ι)
    {pending' : ι → Bool} (others : ∀ j, j ≠ i → pending' j = pending j) :
    Fresh author number (Function.update current i (current i + 1)) pending' history := by
  intro x member
  obtain ⟨bound, unused⟩ := fresh x member
  rcases eq_or_ne (author x) i with same | other
  · rw [same] at bound ⊢
    rw [Function.update_self]
    exact ⟨Nat.le_succ_of_le bound, fun _ => Nat.lt_succ_of_le bound⟩
  · rw [Function.update_of_ne other, others _ other]
    exact ⟨bound, unused⟩

/-- After its entry is recorded the author has none pending. -/
theorem record (fresh : Fresh author number current pending history) {x : α}
    {pending' : ι → Bool} (done : pending' (author x) = false)
    (others : ∀ j, j ≠ author x → pending' j = pending j)
    (now : number x = current (author x)) :
    Fresh author number current pending' (history ++ [x]) := by
  intro y member
  rcases List.mem_append.mp member with old | new
  · obtain ⟨bound, unused⟩ := fresh y old
    refine ⟨bound, fun waits => unused ?_⟩
    rcases eq_or_ne (author y) (author x) with same | other
    · rw [same, done] at waits
      cases waits
    · rwa [← others _ other]
  · cases List.mem_singleton.mp new
    refine ⟨Nat.le_of_eq now, fun waits => ?_⟩
    rw [done] at waits
    cases waits

end Fresh

end OsLab.Foundation
