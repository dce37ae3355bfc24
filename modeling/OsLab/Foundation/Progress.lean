import OsLab.Foundation.Runs

/-!
# Runs that come to an end

A system completes within a bound when no run is longer and every run that cannot be
continued is in a final state (`Completes`). Then every run can be continued to a final
state (`Completes.extends`), whatever it has done before.

`completes_of_measure` is the rule: a measure that every step of an invariant's states
decreases, and a proof that a state of the invariant without a step is final.
-/

set_option autoImplicit false

namespace OsLab.Foundation

universe u v

variable {σ : Type u} {α : Type v} {step : σ → α → σ → Prop} {start : σ}

/-- No step is possible. -/
def Stuck (step : σ → α → σ → Prop) (s : σ) : Prop := ∀ a t, ¬ step s a t

theorem Run.append {first second : List (σ × α)} {s t : σ} (run : Run step start first s)
    (further : Run step s second t) : Run step start (first ++ second) t := by
  induction further with
  | nil => rwa [List.append_nil]
  | snoc _ next ih =>
      rw [← List.append_assoc]
      exact ih.snoc next

theorem Reachable.trans {s t : σ} (first : Reachable step start s) (second : Reachable step s t) :
    Reachable step start t := by
  obtain ⟨_, run⟩ := first
  obtain ⟨_, further⟩ := second
  exact ⟨_, run.append further⟩

/-- No run has more than `bound` steps, and a run that cannot be continued has come to a
final state. -/
def Completes (step : σ → α → σ → Prop) (start : σ) (bound : Nat) (final : σ → Prop) : Prop :=
  ∀ trace s, Run step start trace s → trace.length ≤ bound ∧ (Stuck step s → final s)

/-- **The measure rule.** -/
theorem completes_of_measure (Inv : σ → Prop) (measure : σ → Nat) {final : σ → Prop}
    (base : Inv start) (preserved : ∀ s a t, Inv s → step s a t → Inv t)
    (decreases : ∀ s a t, Inv s → step s a t → measure t < measure s)
    (ends : ∀ s, Inv s → Stuck step s → final s) :
    Completes step start (measure start) final := by
  intro trace s run
  have inv := run.invariant Inv base preserved
  refine ⟨?_, ends s inv⟩
  have paid : trace.length + measure s ≤ measure start := by
    clear inv
    induction run with
    | nil => simp
    | snoc run' next ih =>
        have less := decreases _ _ _ (run'.invariant Inv base preserved) next
        rw [List.length_append, List.length_singleton]
        omega
  omega

/-- **Every run can be continued to a final state.** -/
theorem Completes.extends {bound : Nat} {final : σ → Prop}
    (completes : Completes step start bound final) {trace : List (σ × α)} {s : σ}
    (run : Run step start trace s) :
    ∃ further t, Run step s further t ∧ Stuck step t ∧ final t := by
  -- on the number of steps that are left
  induction left : bound - trace.length using Nat.strongRecOn generalizing trace s with
  | ind n ih =>
      by_cases stuck : Stuck step s
      · exact ⟨[], s, .nil, stuck, (completes trace s run).2 stuck⟩
      · simp only [Stuck, not_forall, not_not] at stuck
        obtain ⟨a, t, next⟩ := stuck
        have longer := run.snoc next
        have inside := (completes _ _ longer).1
        rw [List.length_append, List.length_singleton] at inside
        obtain ⟨further, u, rest, ended⟩ := ih (bound - (trace ++ [(s, a)]).length) (by
          rw [List.length_append, List.length_singleton]
          omega) longer rfl
        exact ⟨[(s, a)] ++ further, u, (Run.nil.snoc next).append rest, ended⟩

end OsLab.Foundation
