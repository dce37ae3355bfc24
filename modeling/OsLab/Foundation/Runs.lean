import Mathlib.Data.List.Basic

/-!
# Runs of a labelled step relation

A system is a relation `step s a t`: in the state `s` the action `a` can lead to
the state `t`. A run from a start state is a finite sequence of such steps. Its
trace lists every action together with the state it was taken in, so a property
of the steps of a run (a guard on the state before a step and its action) is a
property of the members of the trace.

Four rules carry the results about runs:

* an invariant of the start state that every step preserves holds at the end of
  every run (`Run.invariant`);
* the same when preservation needs a guard and every step of the run meets it
  (`Run.always_of_guard`);
* a property that a step keeps exactly when it meets a guard holds in every state
  of a run exactly when all steps of the run meet the guard
  (`Run.always_iff_guarded`, and `Run.always_iff_guarded_of_invariant` where the
  argument needs more than the property);
* a map that takes every step of one system to a step of another takes reachable
  states to reachable states (`Reachable.simulated`).

Where the system is a step function, `replay` takes a given list of actions. `Run.replay`
says that this is a run, with the trace `traceOf`.
-/

set_option autoImplicit false

namespace OsLab.Foundation

universe u v w z

variable {σ : Type u} {α : Type v}

/-- A finite run from `start`, with the actions it took and the state each of
them was taken in. -/
inductive Run (step : σ → α → σ → Prop) (start : σ) : List (σ × α) → σ → Prop where
  | nil : Run step start [] start
  | snoc {trace : List (σ × α)} {s t : σ} {a : α} :
      Run step start trace s → step s a t → Run step start (trace ++ [(s, a)]) t

/-- A state at the end of some run. -/
def Reachable (step : σ → α → σ → Prop) (start s : σ) : Prop :=
  ∃ trace, Run step start trace s

variable {step : σ → α → σ → Prop} {start : σ}

theorem Reachable.refl : Reachable step start start :=
  ⟨[], .nil⟩

theorem Reachable.next {s t : σ} {a : α} (reached : Reachable step start s)
    (next : step s a t) : Reachable step start t := by
  obtain ⟨trace, run⟩ := reached
  exact ⟨trace ++ [(s, a)], run.snoc next⟩

namespace Run

/-- **The invariant rule.** -/
theorem invariant (Inv : σ → Prop) (base : Inv start)
    (preserved : ∀ s a t, Inv s → step s a t → Inv t)
    {trace : List (σ × α)} {s : σ} (run : Run step start trace s) : Inv s := by
  induction run with
  | nil => exact base
  | snoc _ next ih => exact preserved _ _ _ ih next

/-- **The invariant rule under a guard.** In a run whose steps all meet the guard
the invariant holds at the end and in every state on the way. -/
theorem always_of_guard (Inv : σ → Prop) (guard : σ → α → Prop) (base : Inv start)
    (preserved : ∀ s a t, Inv s → guard s a → step s a t → Inv t)
    {trace : List (σ × α)} {s : σ} (run : Run step start trace s)
    (guarded : ∀ p ∈ trace, guard p.1 p.2) : Inv s ∧ ∀ p ∈ trace, Inv p.1 := by
  induction run with
  | nil => exact ⟨base, nofun⟩
  | snoc _ next ih =>
      simp only [List.forall_mem_append, List.forall_mem_singleton] at guarded ⊢
      obtain ⟨before, earlier⟩ := ih guarded.1
      exact ⟨preserved _ _ _ before guarded.2 next, earlier, before⟩

/-- **The exact condition for a property of a whole run, with a strengthened
invariant.** From a state of the invariant a step that leads to the property meets
the guard, and a step that meets the guard leads back into the invariant. -/
theorem always_iff_guarded_of_invariant {Inv P : σ → Prop} {guard : σ → α → Prop}
    (base : Inv start) (weaken : ∀ s, Inv s → P s)
    (needed : ∀ s a t, Inv s → step s a t → P t → guard s a)
    (enough : ∀ s a t, Inv s → guard s a → step s a t → Inv t)
    {trace : List (σ × α)} {s : σ} (run : Run step start trace s) :
    (P s ∧ ∀ p ∈ trace, P p.1) ↔ ∀ p ∈ trace, guard p.1 p.2 := by
  constructor
  · intro holds
    induction run with
    | nil => simp
    | snoc run' next ih =>
        simp only [List.forall_mem_append, List.forall_mem_singleton] at holds ⊢
        obtain ⟨after, earlier, before⟩ := holds
        have guarded := ih ⟨before, earlier⟩
        have inv := (run'.always_of_guard Inv guard base enough guarded).1
        exact ⟨guarded, needed _ _ _ inv next after⟩
  · intro guarded
    obtain ⟨last, earlier⟩ := run.always_of_guard Inv guard base enough guarded
    exact ⟨weaken _ last, fun p member => weaken _ (earlier p member)⟩

/-- **The exact condition for a property of a whole run.** In the states of an
invariant a step keeps the property if and only if it meets the guard. Then the
property holds in all states of a run if and only if all its steps meet the
guard. -/
theorem always_iff_guarded {Inv P : σ → Prop} {guard : σ → α → Prop} (base : Inv start)
    (preserved : ∀ s a t, Inv s → step s a t → Inv t) (holds : P start)
    (exact_guard : ∀ s a t, Inv s → P s → step s a t → (P t ↔ guard s a))
    {trace : List (σ × α)} {s : σ} (run : Run step start trace s) :
    (P s ∧ ∀ p ∈ trace, P p.1) ↔ ∀ p ∈ trace, guard p.1 p.2 := by
  have needed : ∀ s a t, Inv s ∧ P s → step s a t → P t → guard s a :=
    fun s a t both next after => (exact_guard s a t both.1 both.2 next).mp after
  have enough : ∀ s a t, Inv s ∧ P s → guard s a → step s a t → Inv t ∧ P t := by
    intro s a t both guarded next
    exact ⟨preserved s a t both.1 next, (exact_guard s a t both.1 both.2 next).mpr guarded⟩
  exact run.always_iff_guarded_of_invariant ⟨base, holds⟩ (fun _ both => both.2) needed enough

end Run

/-- The invariant rule for reachable states. -/
theorem Reachable.invariant (Inv : σ → Prop) (base : Inv start)
    (preserved : ∀ s a t, Inv s → step s a t → Inv t) {s : σ}
    (reached : Reachable step start s) : Inv s := by
  obtain ⟨_, run⟩ := reached
  exact run.invariant Inv base preserved

/-- **The simulation rule.** -/
theorem Reachable.simulated {τ : Type w} {β : Type z} {step' : τ → β → τ → Prop} (view : σ → τ)
    (simulates : ∀ s a t, step s a t → ∃ b, step' (view s) b (view t)) {s : σ}
    (reached : Reachable step start s) : Reachable step' (view start) (view s) := by
  refine reached.invariant (fun s => Reachable step' (view start) (view s)) .refl ?_
  intro s a t before stepped
  obtain ⟨b, stepped'⟩ := simulates s a t stepped
  exact before.next stepped'

/-! ## Step functions -/

/-- The given actions, one after the other. -/
def replay (next : σ → α → Option σ) : List α → σ → Option σ
  | [], s => some s
  | a :: rest, s =>
      match next s a with
      | none => none
      | some t => replay next rest t

theorem replay_append (next : σ → α → Option σ) (first second : List α) (s : σ) :
    replay next (first ++ second) s = (replay next first s).bind (replay next second) := by
  induction first generalizing s with
  | nil => rfl
  | cons a rest ih =>
      rw [List.cons_append, replay, replay]
      cases next s a with
      | none => rfl
      | some t => exact ih t

/-- The given actions, each with the state it is taken in. -/
def traceOf (next : σ → α → Option σ) : List α → σ → List (σ × α)
  | [], _ => []
  | a :: rest, s =>
      (s, a) :: match next s a with
        | none => []
        | some t => traceOf next rest t

theorem Run.replay {next : σ → α → Option σ} {actions : List α} {trace : List (σ × α)} {s t : σ}
    (run : Run (fun s a t => next s a = some t) start trace s)
    (ran : Foundation.replay next actions s = some t) :
    Run (fun s a t => next s a = some t) start (trace ++ traceOf next actions s) t := by
  induction actions generalizing trace s with
  | nil =>
      cases ran
      rwa [traceOf, List.append_nil]
  | cons a rest ih =>
      unfold Foundation.replay at ran
      cases stepped : next s a with
      | none =>
          rw [stepped] at ran
          cases ran
      | some u =>
          rw [stepped] at ran
          have longer := ih (run.snoc stepped) ran
          rw [List.append_assoc, List.singleton_append] at longer
          rwa [traceOf, stepped]

/-- Given actions that are possible one after the other are a run. -/
theorem run_of_replay {next : σ → α → Option σ} {actions : List α} {t : σ}
    (ran : Foundation.replay next actions start = some t) :
    Run (fun s a t => next s a = some t) start (traceOf next actions start) t :=
  Run.nil.replay ran

theorem Reachable.replay {next : σ → α → Option σ} {actions : List α} {s t : σ}
    (reached : Reachable (fun s a t => next s a = some t) start s)
    (ran : Foundation.replay next actions s = some t) :
    Reachable (fun s a t => next s a = some t) start t := by
  obtain ⟨trace, run⟩ := reached
  exact ⟨_, run.replay ran⟩

end OsLab.Foundation
