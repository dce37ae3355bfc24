/-!
# Computations that record what they do

A property of a program's result says nothing about the values it computed on the
way or the calls it made. A logged computation returns or stops like the program
it observes and also carries the list of what was recorded until then. A computation
that stops keeps its log, so what a run did before it failed can be observed too.

The outcome of a logged computation is that of the program without the records
(`outcome_bind` and the other simp lemmas), which is how an observed copy of a
program is shown to be the program. `Only` says that everything in the log has a
property, with one rule for each way to build a computation: what the first part of
a sequence records, and what the second part records after any result of the
first (`Only.bind`).
-/

set_option autoImplicit false

namespace OsLab.Foundation

universe u v w

/-- What follows a value that is there. -/
@[simp] theorem ok_bind {ε : Type v} {α β : Type w} (a : α) (next : α → Except ε β) :
    (Except.ok a >>= next) = next a :=
  rfl

/-- A computation that returns or stops, with what it recorded. -/
structure Logged (ω : Type u) (ε : Type v) (α : Type w) where
  log : List ω
  outcome : Except ε α

namespace Logged

variable {ω : Type u} {ε : Type v} {α β : Type w}

/-- What follows a computation that stops is not done. -/
def bind (x : Logged ω ε α) (next : α → Logged ω ε β) : Logged ω ε β :=
  match x.outcome with
  | .error stop => ⟨x.log, .error stop⟩
  | .ok a => ⟨x.log ++ (next a).log, (next a).outcome⟩

instance : Monad (Logged ω ε) where
  pure a := ⟨[], .ok a⟩
  bind := bind

/-- Add an entry to the log and return a value. -/
def record (entry : ω) (a : α) : Logged ω ε α := ⟨[entry], .ok a⟩

/-- A computation that is not observed. -/
def quiet (outcome : Except ε α) : Logged ω ε α := ⟨[], outcome⟩

/-! ## The outcome -/

@[simp] theorem outcome_pure (a : α) : (pure a : Logged ω ε α).outcome = .ok a := rfl

@[simp] theorem outcome_record (entry : ω) (a : α) :
    (record entry a : Logged ω ε α).outcome = .ok a := rfl

@[simp] theorem outcome_quiet (outcome : Except ε α) :
    (quiet outcome : Logged ω ε α).outcome = outcome := rfl

@[simp] theorem outcome_bind (x : Logged ω ε α) (next : α → Logged ω ε β) :
    (x >>= next).outcome = x.outcome >>= fun a => (next a).outcome := by
  show (x.bind next).outcome = _
  unfold bind
  cases x.outcome with
  | error stop => rfl
  | ok a => rfl

/-! ## The log -/

@[simp] theorem log_pure (a : α) : (pure a : Logged ω ε α).log = [] := rfl

@[simp] theorem log_record (entry : ω) (a : α) : (record entry a : Logged ω ε α).log = [entry] :=
  rfl

@[simp] theorem log_quiet (outcome : Except ε α) : (quiet outcome : Logged ω ε α).log = [] := rfl

theorem log_bind_of_ok {x : Logged ω ε α} {a : α} (returned : x.outcome = .ok a)
    (next : α → Logged ω ε β) : (x >>= next).log = x.log ++ (next a).log := by
  show (x.bind next).log = _
  simp only [bind, returned]

theorem log_bind_of_error {x : Logged ω ε α} {stop : ε} (stopped : x.outcome = .error stop)
    (next : α → Logged ω ε β) : (x >>= next).log = x.log := by
  show (x.bind next).log = _
  simp only [bind, stopped]

/-- What follows without a record does not change the log. -/
theorem log_bind_of_silent {next : α → Logged ω ε β} (silent : ∀ a, (next a).log = [])
    (x : Logged ω ε α) : (x >>= next).log = x.log := by
  cases outcome : x.outcome with
  | error stop => exact log_bind_of_error outcome next
  | ok a => rw [log_bind_of_ok outcome, silent, List.append_nil]

@[simp] theorem log_record_bind (entry : ω) (a : α) (next : α → Logged ω ε β) :
    (record entry a >>= next).log = entry :: (next a).log :=
  rfl

/-- Everything that is recorded has the property. -/
def Only (P : ω → Prop) (x : Logged ω ε α) : Prop := ∀ entry ∈ x.log, P entry

namespace Only

variable {P : ω → Prop}

theorem pure (a : α) : Only P (pure a : Logged ω ε α) := by
  intro entry member
  cases member

theorem quiet (outcome : Except ε α) : Only P (quiet outcome : Logged ω ε α) := by
  intro entry member
  cases member

theorem record {entry : ω} (holds : P entry) (a : α) :
    Only P (record entry a : Logged ω ε α) :=
  List.forall_mem_singleton.mpr holds

/-- **The rule for sequences.** -/
theorem bind {x : Logged ω ε α} {next : α → Logged ω ε β} (first : Only P x)
    (second : ∀ a, x.outcome = .ok a → Only P (next a)) : Only P (x >>= next) := by
  intro entry member
  cases outcome : x.outcome with
  | error stop =>
      rw [log_bind_of_error outcome] at member
      exact first entry member
  | ok a =>
      rw [log_bind_of_ok outcome, List.mem_append] at member
      rcases member with inFirst | inSecond
      · exact first entry inFirst
      · exact second a outcome entry inSecond

/-- The rule for sequences where the result of the first part is known. -/
theorem bind_of_ok {x : Logged ω ε α} {next : α → Logged ω ε β} {a : α} (first : Only P x)
    (returned : x.outcome = .ok a) (second : Only P (next a)) : Only P (x >>= next) := by
  refine bind first fun b returned' => ?_
  rw [returned, Except.ok.injEq] at returned'
  subst returned'
  exact second

end Only

end Logged

end OsLab.Foundation
