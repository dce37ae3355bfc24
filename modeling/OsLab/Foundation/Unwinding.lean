import Mathlib.Data.List.Basic
import Mathlib.Data.List.Nodup

/-!
# Acquiring resources in order

Resources are acquired and released one at a time, and only the one that was acquired last
may be released: `held` follows a sequence of such events and fails at any other.

`acquireAll` acquires a list of resources. At the first that cannot be acquired it releases
all it has, the last first, and returns the error. `held_acquireAll` says that it ends with
all resources or with none, according to what it returns, and never breaks the order.
-/

set_option autoImplicit false

namespace OsLab.Foundation

variable {ρ : Type}

inductive Event (ρ : Type) where
  | acquire (r : ρ)
  | release (r : ρ)
  deriving DecidableEq, Repr

variable [DecidableEq ρ]

/-- The resources that are held after the events, the one acquired last first. A resource that
is held already is not acquired, and none but the last is released. -/
def held : List (Event ρ) → List ρ → Option (List ρ)
  | [], stack => some stack
  | .acquire r :: rest, stack => if r ∈ stack then none else held rest (r :: stack)
  | .release _ :: _, [] => none
  | .release r :: rest, top :: below => if r = top then held rest below else none

/-- Everything is released, the last first. -/
theorem held_release_all (stack : List ρ) : held (stack.map .release) stack = some [] := by
  induction stack with
  | nil => rfl
  | cons r below ih =>
      rw [List.map_cons, held, if_pos rfl]
      exact ih

/-- The events of an acquisition on top of `stack`, and what it returns: 0, or the error of the
first resource that could not be acquired. -/
def acquireAll (result : ρ → Int) : List ρ → List ρ → List (Event ρ) × Int
  | [], _ => ([], 0)
  | r :: rest, stack =>
      if result r = 0 then
        let (events, ret) := acquireAll result rest (r :: stack)
        (.acquire r :: events, ret)
      else (stack.map .release, result r)

/-- **All resources or none.** -/
theorem held_acquireAll (result : ρ → Int) (resources stack : List ρ)
    (fresh : (resources.reverse ++ stack).Nodup) :
    ((acquireAll result resources stack).2 = 0 ∧ (∀ r ∈ resources, result r = 0) ∧
        held (acquireAll result resources stack).1 stack = some (resources.reverse ++ stack)) ∨
      (∃ earlier r later, resources = earlier ++ r :: later ∧ (∀ x ∈ earlier, result x = 0) ∧
        result r ≠ 0 ∧ (acquireAll result resources stack).2 = result r ∧
        held (acquireAll result resources stack).1 stack = some []) := by
  induction resources generalizing stack with
  | nil => exact .inl ⟨rfl, by simp, rfl⟩
  | cons r rest ih =>
      rw [acquireAll]
      by_cases acquired : result r = 0
      · have free : r ∉ stack := by
          intro member
          rw [List.nodup_append'] at fresh
          exact fresh.2.2 (List.mem_reverse.mpr List.mem_cons_self) member
        have fresh' : (rest.reverse ++ r :: stack).Nodup := by
          simpa using fresh
        simp only [if_pos acquired, held, if_neg free]
        rcases ih (r :: stack) fresh' with ⟨ret, all, stacked⟩ |
          ⟨earlier, x, later, rfl, before, failed, ret, stacked⟩
        · refine .inl ⟨ret, List.forall_mem_cons.mpr ⟨acquired, all⟩, ?_⟩
          simpa using stacked
        · exact .inr ⟨r :: earlier, x, later, rfl, List.forall_mem_cons.mpr ⟨acquired, before⟩,
            failed, ret, stacked⟩
      · rw [if_neg acquired]
        exact .inr ⟨[], r, rest, rfl, by simp, acquired, rfl, held_release_all stack⟩

end OsLab.Foundation
