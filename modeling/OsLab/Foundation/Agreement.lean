import Mathlib.Init

/-!
# Two computations that agree

A fallible computation agrees with another one when both return, with related values, or both
stop, for related reasons. Agreement composes (`Agree.bind`), so it holds of two programs that
are written alike as soon as it holds of their parts.
-/

set_option autoImplicit false

namespace OsLab.Foundation

variable {ε ε' α α' β β' : Type}

/-- Both return related values, or both stop for related reasons. -/
inductive Agree (stop : ε → ε' → Prop) (related : α → α' → Prop) :
    Except ε α → Except ε' α' → Prop where
  | returns {x : α} {x' : α'} (values : related x x') : Agree stop related (.ok x) (.ok x')
  | stops {e : ε} {e' : ε'} (reasons : stop e e') : Agree stop related (.error e) (.error e')

namespace Agree

variable {stop : ε → ε' → Prop} {related : α → α' → Prop} {related' : β → β' → Prop}
  {m : Except ε α} {m' : Except ε' α'}

theorem outcomes (agree : Agree stop related m m') :
    (∃ x x', m = .ok x ∧ m' = .ok x' ∧ related x x') ∨
      ∃ e e', m = .error e ∧ m' = .error e' ∧ stop e e' := by
  cases agree with
  | returns values => exact .inl ⟨_, _, rfl, rfl, values⟩
  | stops reasons => exact .inr ⟨_, _, rfl, rfl, reasons⟩

theorem bind (first : Agree stop related m m') {k : α → Except ε β} {k' : α' → Except ε' β'}
    (later : ∀ x x', related x x' → Agree stop related' (k x) (k' x')) :
    Agree stop related' (m >>= k) (m' >>= k') := by
  cases first with
  | returns values => exact later _ _ values
  | stops reasons => exact .stops reasons

theorem mono (agree : Agree stop related m m') {weaker : α → α' → Prop}
    (later : ∀ x x', related x x' → weaker x x') : Agree stop weaker m m' := by
  cases agree with
  | returns values => exact .returns (later _ _ values)
  | stops reasons => exact .stops reasons

end Agree

end OsLab.Foundation
