import OsLab.MessageQueue.Module
import OsLab.Globalvar.Model

/-!
# Loading and unloading `3lab/dev/globalvar.c`

`globalvar_init` looks at the result of `register_chrdev_region` only. When `cdev_add`,
`class_create` or `device_create` fails, it goes on and returns 0, and `globalvar_exit` takes
back all four registrations all the same. The kernel's side is that of the module of
`glo_pro.c`: resources are taken back in the reverse order, and none that is not registered.

`unload_balanced_iff` follows any number of loads: a registration is taken back that is not
there exactly when one of these calls has failed in a load that was undone.
-/

set_option autoImplicit false

namespace OsLab.Globalvar

open OsLab.Foundation
open OsLab.MessageQueue (Answers Created Resource resources)

/-- `MAJOR_NUM`, the value of `major`. -/
def majorNum : Nat := 456

/-- The calls of `globalvar_init`, and its result. `device_create` returns an error for a class
that is one. -/
def globalvarInitModule (k : Answers) : List (Event Resource) × Int :=
  let result := if majorNum ≠ 0 then k.registerChrdevRegion else k.allocChrdevRegion
  if result < 0 then ([], result)
  else
    ([.acquire .region] ++
      (if k.cdevAdd ≠ 0 then [] else [.acquire .cdev]) ++
      (if k.classCreate.isErr then []
        else [.acquire .classObject] ++
          if k.deviceCreate.isErr then [] else [.acquire .device]), 0)

/-- The calls of `globalvar_exit`. -/
def globalvarExitEvents : List (Event Resource) :=
  [.release .device, .release .classObject, .release .cdev, .release .region]

/-- The three calls whose results are not looked at have succeeded. -/
def Complete (k : Answers) : Prop :=
  k.cdevAdd = 0 ∧ k.classCreate = .object ∧ k.deviceCreate = .object

instance (k : Answers) : Decidable (Complete k) :=
  inferInstanceAs (Decidable (_ ∧ _ ∧ _))

/-! ## The system -/

/-- The module with what the kernel answered when it was loaded, and the answers of the loads
that were undone. -/
structure Module where
  loaded : Option Answers
  registered : List Resource
  faulted : Bool
  undone : List Answers

def unloaded : Module := { loaded := none, registered := [], faulted := false, undone := [] }

/-- The kernel carries out the calls of the module. -/
def Module.register (m : Module) (events : List (Event Resource)) : Module :=
  match held events m.registered with
  | some registered => { m with registered := registered }
  | none => { m with faulted := true }

def Module.insmod (m : Module) (k : Answers) : Module :=
  let (events, ret) := globalvarInitModule k
  { m with loaded := if ret = 0 then some k else none }.register events

def Module.rmmod (m : Module) (k : Answers) : Module :=
  { m with loaded := none, undone := m.undone ++ [k] }.register globalvarExitEvents

inductive Action where
  | insmod (k : Answers)
  | rmmod

inductive Moves (m : Module) : Action → Module → Prop where
  | insmod (k : Answers) (absent : m.loaded = none) : Moves m (.insmod k) (m.insmod k)
  | rmmod {k : Answers} (present : m.loaded = some k) : Moves m .rmmod (m.rmmod k)

/-! ## One load -/

theorem held_init (k : Answers) :
    ∃ stack, held (globalvarInitModule k).1 [] = some stack ∧
      ((globalvarInitModule k).2 ≠ 0 → stack = []) ∧
      ((globalvarInitModule k).2 = 0 → (held globalvarExitEvents stack = some [] ∧ Complete k) ∨
        (held globalvarExitEvents stack = none ∧ ¬ Complete k)) := by
  by_cases refused : k.registerChrdevRegion < 0
  · have init : globalvarInitModule k = ([], k.registerChrdevRegion) := by
      simp [globalvarInitModule, majorNum, refused]
    rw [init]
    refine ⟨[], rfl, fun _ => rfl, fun zero => ?_⟩
    have zero' : k.registerChrdevRegion = 0 := zero
    omega
  · have ret : (globalvarInitModule k).2 = 0 := by simp [globalvarInitModule, majorNum, refused]
    simp only [globalvarInitModule, majorNum, Complete]
    by_cases cdev : k.cdevAdd = 0 <;> cases classObject : k.classCreate with
    | object =>
        cases device : k.deviceCreate <;>
          simp [refused, cdev, Created.isErr, held, globalvarExitEvents]
    | errPtr errno => simp [refused, cdev, Created.isErr, held, globalvarExitEvents]

/-! ## Any number of loads -/

/-- What holds of the module at any time. -/
structure Sound (m : Module) : Prop where
  faulted_iff : m.faulted = true ↔ ∃ k ∈ m.undone, ¬ Complete k
  absent : m.faulted = false → m.loaded = none → m.registered = []
  present : m.faulted = false → ∀ k, m.loaded = some k →
    held (globalvarInitModule k).1 [] = some m.registered ∧ (globalvarInitModule k).2 = 0

theorem Module.register_of_faulted {m : Module} (faulted : m.faulted = true)
    (events : List (Event Resource)) :
    (m.register events).faulted = true ∧ (m.register events).undone = m.undone := by
  unfold Module.register
  split
  · exact ⟨faulted, rfl⟩
  · exact ⟨rfl, rfl⟩

theorem Sound.of_faulted {m : Module} (faulted : m.faulted = true)
    (bad : ∃ k ∈ m.undone, ¬ Complete k) : Sound m := by
  have never : m.faulted ≠ false := by simp [faulted]
  exact ⟨iff_of_true faulted bad, fun faultless => absurd faultless never,
    fun faultless => absurd faultless never⟩

theorem Sound.insmod {m : Module} (sound : Sound m) (absent : m.loaded = none) (k : Answers) :
    Sound (m.insmod k) := by
  cases faulted : m.faulted with
  | true =>
      obtain ⟨still, undone⟩ := Module.register_of_faulted (m :=
        { m with loaded := if (globalvarInitModule k).2 = 0 then some k else none }) faulted
        (globalvarInitModule k).1
      exact .of_faulted still (by
        rw [Module.insmod, undone]
        exact sound.faulted_iff.mp faulted)
  | false =>
      obtain ⟨stack, stacked, refused, -⟩ := held_init k
      have nothing := sound.absent faulted absent
      simp only [Module.insmod, Module.register, nothing, stacked]
      refine ⟨sound.faulted_iff, fun _ gone => ?_, fun _ k' there => ?_⟩
      · refine refused fun zero => ?_
        simp [zero] at gone
      · by_cases zero : (globalvarInitModule k).2 = 0
        · simp only [zero, if_true, Option.some.injEq] at there
          rw [← there]
          exact ⟨stacked, zero⟩
        · simp [zero] at there

theorem Sound.rmmod {m : Module} (sound : Sound m) {k : Answers} (present : m.loaded = some k) :
    Sound (m.rmmod k) := by
  cases faulted : m.faulted with
  | true =>
      obtain ⟨bad, member, incomplete⟩ := sound.faulted_iff.mp faulted
      obtain ⟨still, undone⟩ := Module.register_of_faulted
        (m := { m with loaded := none, undone := m.undone ++ [k] }) faulted globalvarExitEvents
      exact .of_faulted still ⟨bad, by
        rw [Module.rmmod, undone]
        exact List.mem_append_left _ member, incomplete⟩
  | false =>
      obtain ⟨registered, zero⟩ := sound.present faulted k present
      obtain ⟨stack, stacked, -, outcome⟩ := held_init k
      rw [registered, Option.some.injEq] at stacked
      rw [← stacked] at outcome
      rcases outcome zero with ⟨balanced, complete⟩ | ⟨unbalanced, incomplete⟩
      · simp only [Module.rmmod, Module.register, balanced]
        refine ⟨?_, fun _ _ => rfl, fun _ _ there => by cases there⟩
        have before := sound.faulted_iff
        simp only [List.mem_append, List.mem_singleton]
        rw [before]
        constructor
        · rintro ⟨bad, member, incomplete⟩
          exact ⟨bad, .inl member, incomplete⟩
        · rintro ⟨bad, member | rfl, incomplete⟩
          · exact ⟨bad, member, incomplete⟩
          · exact absurd complete incomplete
      · simp only [Module.rmmod, Module.register, unbalanced]
        exact .of_faulted rfl ⟨k, List.mem_append_right _ (List.mem_singleton_self k), incomplete⟩

theorem sound_of_reachable {m : Module} (reached : Reachable Moves unloaded m) : Sound m := by
  refine reached.invariant Sound
    ⟨by simp [unloaded], fun _ _ => rfl, fun _ k present => by cases present⟩ ?_
  rintro s a t sound moves
  cases moves with
  | insmod k absent => exact sound.insmod absent k
  | rmmod present => exact sound.rmmod present

/-- **When unloading is safe.** After any number of loads, something was taken back that was not
registered exactly when one of the loads that were undone had a failed `cdev_add`,
`class_create` or `device_create`, which `globalvar_init` has not looked at. Until then an
unloaded module has nothing registered. -/
theorem unload_balanced_iff {m : Module} (reached : Reachable Moves unloaded m) :
    (m.faulted = true ↔ ∃ k ∈ m.undone, ¬ Complete k) ∧
      (m.faulted = false → m.loaded = none → m.registered = []) := by
  have sound := sound_of_reachable reached
  exact ⟨sound.faulted_iff, sound.absent⟩

/-- `class_create` fails, the module is loaded all the same, and is unloaded. -/
theorem unload_balanced_iff_class :
    let k : Answers := ⟨0, 0, 0, .errPtr 11, .errPtr 18⟩
    ((unloaded.insmod k).rmmod k).faulted = true := by
  have reached := (Reachable.refl.next (Moves.insmod (m := unloaded)
    ⟨0, 0, 0, .errPtr 11, .errPtr 18⟩ rfl)).next (.rmmod rfl)
  exact (unload_balanced_iff reached).1.mpr ⟨_, List.mem_singleton_self _, by decide⟩

end OsLab.Globalvar
