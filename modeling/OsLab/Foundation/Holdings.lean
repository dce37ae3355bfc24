import Mathlib.Algebra.BigOperators.Group.Finset.Basic
import Mathlib.Algebra.Order.BigOperators.Group.Finset

/-!
# Shares of a budget

A budget pays for a common part and for what each client holds. There may be
infinitely many clients, so `Covered` bounds the common part together with the
holdings of every finite group. `Covered.update` is the rule for one client that
changes its holding while the budget and the common part change. `Spent` says that
nothing of the budget is left over, with the rule `Spent.update`. `Tally` is the case of a
counter that is changed by one, with the rule `Tally.update`.
-/

set_option autoImplicit false

namespace OsLab.Foundation

variable {ι : Type}

/-- The budget pays for the common part and the holdings of any finite group. -/
def Covered (budget common : Nat) (held : ι → Nat) : Prop :=
  ∀ group : Finset ι, common + ∑ i ∈ group, held i ≤ budget

namespace Covered

variable {budget common : Nat} {held : ι → Nat}

theorem zero (covers : common ≤ budget) : Covered budget common fun _ : ι => 0 := by
  intro group
  simpa using covers

theorem common_le (covered : Covered budget common held) : common ≤ budget := by
  simpa using covered ∅

theorem one_le (covered : Covered budget common held) (i : ι) : common + held i ≤ budget := by
  simpa using covered {i}

variable [DecidableEq ι]

/-- It is enough to look at the groups of a given client. -/
theorem of_insert (i : ι)
    (covered : ∀ group : Finset ι, i ∉ group → common + (held i + ∑ j ∈ group, held j) ≤ budget) :
    Covered budget common held := by
  intro group
  calc common + ∑ j ∈ group, held j
      ≤ common + ∑ j ∈ insert i (group.erase i), held j := by
        refine Nat.add_le_add_left (Finset.sum_le_sum_of_subset ?_) common
        intro j member
        rcases eq_or_ne j i with rfl | other
        · exact Finset.mem_insert_self ..
        · exact Finset.mem_insert_of_mem (Finset.mem_erase.mpr ⟨other, member⟩)
    _ = common + (held i + ∑ j ∈ group.erase i, held j) := by
        rw [Finset.sum_insert (Finset.notMem_erase i group)]
    _ ≤ budget := covered _ (Finset.notMem_erase i group)

/-- **One client changes its holding.** The budget grows at least by what the
common part and the holding grow together. -/
theorem update (covered : Covered budget common held) (i : ι) {budget' common' share : Nat}
    (balance : common' + share + budget ≤ budget' + (common + held i)) :
    Covered budget' common' (Function.update held i share) := by
  refine of_insert i fun group outside => ?_
  have others : ∑ j ∈ group, Function.update held i share j = ∑ j ∈ group, held j := by
    refine Finset.sum_congr rfl fun j member => Function.update_of_ne ?_ _ _
    rintro rfl
    exact outside member
  have before := covered (insert i group)
  rw [Finset.sum_insert outside] at before
  rw [Function.update_self, others]
  omega

end Covered

/-- With finitely many clients it is one sum. -/
theorem covered_iff_sum_univ [Fintype ι] {budget common : Nat} {held : ι → Nat} :
    Covered budget common held ↔ common + ∑ i, held i ≤ budget := by
  refine ⟨fun covered => covered Finset.univ, fun all group => ?_⟩
  have part : ∑ i ∈ group, held i ≤ ∑ i, held i :=
    Finset.sum_le_sum_of_subset (Finset.subset_univ group)
  omega

/-! ## Budgets without a remainder -/

/-- The budget is the common part and what the clients hold, of whom only finitely many hold
anything. -/
def Spent (budget common : Nat) (held : ι → Nat) : Prop :=
  ∃ group : Finset ι, (∀ i ∉ group, held i = 0) ∧ budget = common + ∑ i ∈ group, held i

namespace Spent

variable {budget common : Nat} {held : ι → Nat}

theorem nobody (common : Nat) : Spent common common fun _ : ι => 0 :=
  ⟨∅, fun _ _ => rfl, by simp⟩

/-- When nobody holds anything, the budget is the common part. -/
theorem eq_common (spent : Spent budget common held) (none : ∀ i, held i = 0) :
    budget = common := by
  obtain ⟨group, -, sum⟩ := spent
  rw [sum, Finset.sum_eq_zero fun i _ => none i, Nat.add_zero]

theorem one_le (spent : Spent budget common held) (i : ι) : common + held i ≤ budget := by
  obtain ⟨group, outside, sum⟩ := spent
  by_cases member : i ∈ group
  · have part := Finset.single_le_sum (fun j _ => Nat.zero_le (held j)) member
    omega
  · rw [outside i member]
    omega

variable [DecidableEq ι]

/-- Two budgets are looked at in one group. -/
theorem both {budget' common' : Nat} {held' : ι → Nat} (first : Spent budget common held)
    (second : Spent budget' common' held') :
    ∃ group : Finset ι, (∀ i ∉ group, held i = 0 ∧ held' i = 0) ∧
      budget = common + ∑ i ∈ group, held i ∧ budget' = common' + ∑ i ∈ group, held' i := by
  obtain ⟨group, outside, sum⟩ := first
  obtain ⟨group', outside', sum'⟩ := second
  refine ⟨group ∪ group', fun i absent => ?_, ?_, ?_⟩
  · rw [Finset.notMem_union] at absent
    exact ⟨outside i absent.1, outside' i absent.2⟩
  · rw [sum, Finset.sum_subset Finset.subset_union_left fun i _ absent => outside i absent]
  · rw [sum', Finset.sum_subset Finset.subset_union_right fun i _ absent => outside' i absent]

/-- The group can be enlarged by a client. -/
theorem with_client (spent : Spent budget common held) (i : ι) :
    ∃ group : Finset ι, i ∉ group ∧ (∀ j ∉ group, j ≠ i → held j = 0) ∧
      budget = common + (held i + ∑ j ∈ group, held j) := by
  obtain ⟨group, outside, sum⟩ := spent
  refine ⟨group.erase i, Finset.notMem_erase i group, ?_, ?_⟩
  · intro j absent other
    exact outside j fun member => absent (Finset.mem_erase.mpr ⟨other, member⟩)
  · by_cases member : i ∈ group
    · rw [sum, Finset.add_sum_erase group held member]
    · rw [sum, Finset.erase_eq_of_notMem member, outside i member, Nat.zero_add]

/-- **One client changes its holding**, and the budget by as much as the holding and the
common part. -/
theorem update (spent : Spent budget common held) (i : ι) {budget' common' share : Nat}
    (balance : common' + share + budget = budget' + (common + held i)) :
    Spent budget' common' (Function.update held i share) := by
  obtain ⟨group, absent, outside, sum⟩ := spent.with_client i
  have others : ∑ j ∈ group, Function.update held i share j = ∑ j ∈ group, held j := by
    refine Finset.sum_congr rfl fun j member => Function.update_of_ne ?_ _ _
    rintro rfl
    exact absent member
  refine ⟨insert i group, fun j missing => ?_, ?_⟩
  · rw [Finset.mem_insert, not_or] at missing
    rw [Function.update_of_ne missing.1]
    exact outside j missing.2 missing.1
  · rw [Finset.sum_insert absent, Function.update_self, others]
    omega

end Spent

/-! ## Counting -/

/-- The number is that of the clients with the property, of whom there are finitely many. -/
def Tally (number : Int) (has : ι → Bool) : Prop :=
  ∃ group : Finset ι, (∀ i, i ∈ group ↔ has i = true) ∧ number = group.card

namespace Tally

variable {number : Int} {has : ι → Bool}

theorem nobody : Tally 0 fun _ : ι => false :=
  ⟨∅, by simp, by simp⟩

theorem eq_card (tally : Tally number has) {group : Finset ι}
    (members : ∀ i, i ∈ group ↔ has i = true) : number = group.card := by
  obtain ⟨group', members', card⟩ := tally
  have same : group = group' := by
    ext i
    rw [members, members']
  rw [card, same]

theorem eq_zero (tally : Tally number has) (none : ∀ i, has i = false) : number = 0 := by
  have members : ∀ i, i ∈ (∅ : Finset ι) ↔ has i = true := by
    intro i
    simp [none i]
  rw [tally.eq_card members, Finset.card_empty]
  rfl

theorem positive (tally : Tally number has) {i : ι} (there : has i = true) : 0 < number := by
  obtain ⟨group, members, card⟩ := tally
  rw [card]
  exact Int.natCast_pos.mpr (Finset.card_pos.mpr ⟨i, (members i).mpr there⟩)

variable [DecidableEq ι]

/-- **One client gets the property or loses it**, and the number changes with it. -/
theorem update (tally : Tally number has) (i : ι) {number' : Int} {now : Bool}
    (balance : number' + (has i).toNat = number + now.toNat) :
    Tally number' (Function.update has i now) := by
  obtain ⟨group, members, card⟩ := tally
  have others : ∀ j, j ≠ i → (Function.update has i now j = true ↔ j ∈ group) := by
    intro j other
    rw [Function.update_of_ne other, members]
  cases now with
  | true =>
      refine ⟨insert i group, fun j => ?_, ?_⟩
      · rcases eq_or_ne j i with rfl | other
        · simp
        · rw [others j other, Finset.mem_insert, or_iff_right other]
      · cases before : has i with
        | true =>
            rw [Finset.insert_eq_of_mem ((members i).mpr before)]
            simp only [before, Bool.toNat_true] at balance
            omega
        | false =>
            rw [Finset.card_insert_of_notMem (by simp [members, before])]
            simp only [before, Bool.toNat_true, Bool.toNat_false] at balance
            omega
  | false =>
      refine ⟨group.erase i, fun j => ?_, ?_⟩
      · rcases eq_or_ne j i with rfl | other
        · simp
        · rw [others j other, Finset.mem_erase, and_iff_right other]
      · cases before : has i with
        | true =>
            have removed := Finset.card_erase_add_one ((members i).mpr before)
            simp only [before, Bool.toNat_true, Bool.toNat_false] at balance
            omega
        | false =>
            rw [Finset.erase_eq_of_notMem (by simp [members, before])]
            simp only [before, Bool.toNat_false] at balance
            omega

end Tally

end OsLab.Foundation
