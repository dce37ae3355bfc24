import Mathlib.Logic.Function.Basic
import OsLab.Foundation.Runs

/-!
# Replacing a system call: `3lab/modify_syscall/modify_syscall.c`

The module writes the address of `hello` over entry 96 of the system call table, which is in
read-only memory, and writes the old entry back when it is unloaded. For each of the two
writes it clears the write-protect bit of `CR0` and then restores the register.

A state is followed together with the machine as it would be without the module (`plain`),
which only other code changes. `patch_transparent` compares the two in every run of loads,
unloads and actions of other code. `unload_restores_iff` is about the entry 0, which
`restore_syscall` takes for "nothing to restore".

`show_iff_loaded` is about `3lab/check/check_syscall_entry.c`, which prints the entry.

Loading and unloading are one step each: the model has one CPU, and nothing interrupts the
module between `clear_wp` and `restore_wp`. The source does not see to that. Other code that
changes `CR0` in between, or a thread that goes on with another CPU, is not in the model.
-/

set_option autoImplicit false

namespace OsLab.Syscall

open OsLab.Foundation

/-! ## The machine -/

abbrev Word := BitVec 64

/-- `SYS_NO`. -/
def sysNo : Word := 96

/-- `WP_BIT`. -/
def wpBit : Word := 0x00010000

/-- The value of `p_sys_call_table`. -/
def pSysCallTable : Word := 0xffffffff964002c0

def einval : Int := 22

/-- Control register 0, and the word at each address. -/
structure Machine where
  cr0 : Word
  memory : Word → Word

/-- A store to read-only memory faults while the write-protect bit is set. -/
def Machine.store (readOnly : Word → Bool) (c : Machine) (address value : Word) :
    Option Machine :=
  if readOnly address && c.cr0 &&& wpBit ≠ 0 then none
  else some { c with memory := Function.update c.memory address value }

/-! ## The module -/

/-- The value that `cr0` had, and the machine with the bit cleared. -/
def clearWp (c : Machine) : Word × Machine := (c.cr0, { c with cr0 := c.cr0 &&& ~~~wpBit })

def restoreWp (cr0 : Word) (c : Machine) : Machine := { c with cr0 := cr0 }

/-- `p_sys_call_table + SYS_NO * sizeof(void *)`. -/
def sysCallAddr (p : Word) : Word := p + sysNo * 8

/-- `old_sys_call_func` and the machine, after a call that did not fault. -/
structure Patched where
  ret : Int
  oldSysCallFunc : Word
  machine : Machine

section Functions

variable (readOnly : Word → Bool) (hello p : Word)

def modifySyscall (oldSysCallFunc : Word) (c : Machine) : Option Patched :=
  if p = 0 then some ⟨-einval, oldSysCallFunc, c⟩
  else
    let old := c.memory (sysCallAddr p)
    let (oldcr0, cleared) := clearWp c
    match cleared.store readOnly (sysCallAddr p) hello with
    | none => none
    | some written => some ⟨0, old, restoreWp oldcr0 written⟩

def restoreSyscall (oldSysCallFunc : Word) (c : Machine) : Option Machine :=
  if p = 0 ∨ oldSysCallFunc = 0 then some c
  else
    let (oldcr0, cleared) := clearWp c
    match cleared.store readOnly (sysCallAddr p) oldSysCallFunc with
    | none => none
    | some written => some (restoreWp oldcr0 written)

end Functions

/-- A line of `/proc/syscall96`. -/
inductive Line where
  | table (p : Word)
  | notProvided
  | entry (address word : Word)
  deriving DecidableEq, Repr

/-- `show_syscall_entry`. -/
def showSyscallEntry (p : Word) (c : Machine) : List Line :=
  if p = 0 then [.table p, .notProvided]
  else [.table p, .entry (sysCallAddr p) (c.memory (sysCallAddr p))]

/-! ## The system -/

/-- The machine, the module, and the machine as it would be without the module. -/
structure State where
  machine : Machine
  loaded : Bool
  oldSysCallFunc : Word
  plain : Machine

/-- The module is loaded and unloaded, and other code writes a word or `CR0`. -/
inductive Action where
  | insmod
  | rmmod
  | write (address value : Word)
  | control (cr0 : Word)

def Machine.write (c : Machine) (address value : Word) : Machine :=
  { c with memory := Function.update c.memory address value }

section System

variable (readOnly : Word → Bool) (hello p : Word)

/-- Before the module is loaded. -/
def boot (c : Machine) : State := { machine := c, loaded := false, oldSysCallFunc := 0, plain := c }

/-- `mymodule_init` returns 0 whatever `modify_syscall` does. The variables of a module are new
with every load. The statements of a load, and of an unload, are not interrupted. -/
def step (s : State) : Action → Option State
  | .insmod =>
      if s.loaded then none
      else (modifySyscall readOnly hello p 0 s.machine).map fun patched =>
        { s with
          machine := patched.machine
          loaded := true
          oldSysCallFunc := patched.oldSysCallFunc }
  | .rmmod =>
      if s.loaded then
        (restoreSyscall readOnly p s.oldSysCallFunc s.machine).map fun restored =>
          { s with machine := restored, loaded := false, oldSysCallFunc := 0 }
      else none
  | .write address value =>
      some { s with
        machine := s.machine.write address value
        plain := s.plain.write address value }
  | .control cr0 =>
      some { s with
        machine := { s.machine with cr0 := cr0 }
        plain := { s.plain with cr0 := cr0 } }

/-- While the module is loaded, other code leaves the entry alone. -/
def Step (s : State) (a : Action) (t : State) : Prop :=
  step readOnly hello p s a = some t ∧
    ∀ address value, a = .write address value → s.loaded = true → address ≠ sysCallAddr p

end System

/-! ## The two functions -/

variable {readOnly : Word → Bool} {hello p : Word}

theorem store_cleared (c : Machine) (address value : Word) :
    (clearWp c).2.store readOnly address value =
      some { cr0 := c.cr0 &&& ~~~wpBit, memory := Function.update c.memory address value } := by
  have cleared : c.cr0 &&& ~~~wpBit &&& wpBit = 0 := by
    rw [BitVec.and_assoc]
    have none : ~~~wpBit &&& wpBit = 0 := by decide
    rw [none]
    exact BitVec.and_zero
  simp [Machine.store, clearWp, cleared]

/-- `modify_syscall` never faults. It changes the entry and nothing else. -/
theorem modifySyscall_eq (old : Word) (c : Machine) :
    modifySyscall readOnly hello p old c =
      if p = 0 then some ⟨-einval, old, c⟩
      else some ⟨0, c.memory (sysCallAddr p), c.write (sysCallAddr p) hello⟩ := by
  unfold modifySyscall
  split
  · rfl
  · simp only [store_cleared]
    rfl

theorem restoreSyscall_eq (old : Word) (c : Machine) :
    restoreSyscall readOnly p old c =
      if p = 0 ∨ old = 0 then some c else some (c.write (sysCallAddr p) old) := by
  unfold restoreSyscall
  split
  · rfl
  · simp only [store_cleared]
    rfl

/-! ## Runs -/

/-- The entry that a load has replaced. -/
def State.replaced (s : State) (p : Word) : Word := s.plain.memory (sysCallAddr p)

/-- The table has a function at the entry when the module is loaded. -/
def Filled (p : Word) (s : State) (a : Action) : Prop :=
  a = .insmod → s.machine.memory (sysCallAddr p) ≠ 0

/-- The machine is the plain one, but for the entry while the module is loaded. -/
structure Transparent (hello p : Word) (s : State) : Prop where
  unloaded : s.loaded = false → s.machine = s.plain
  idle : p = 0 → s.machine = s.plain
  loaded : s.loaded = true → p ≠ 0 →
    s.machine = s.plain.write (sysCallAddr p) hello ∧ s.oldSysCallFunc = s.replaced p ∧
      s.replaced p ≠ 0

theorem write_same (c : Machine) (address value : Word) :
    (c.write address value).memory address = value :=
  Function.update_self ..

theorem write_other (c : Machine) {address other : Word} (distinct : other ≠ address)
    (value : Word) : (c.write address value).memory other = c.memory other :=
  Function.update_of_ne distinct ..

theorem write_comm (c : Machine) {address other : Word} (distinct : address ≠ other)
    (value value' : Word) :
    (c.write address value).write other value' = (c.write other value').write address value := by
  simp only [Machine.write, Function.update_comm distinct]

theorem write_write (c : Machine) (address value value' : Word) :
    (c.write address value).write address value' = c.write address value' := by
  simp [Machine.write]

theorem write_self (c : Machine) (address : Word) : c.write address (c.memory address) = c := by
  simp [Machine.write]

theorem Transparent.step {s t : State} {a : Action} (transparent : Transparent hello p s)
    (stepped : Step readOnly hello p s a t) (filled : Filled p s a) : Transparent hello p t := by
  obtain ⟨ran, alone⟩ := stepped
  cases a with
  | insmod =>
      rw [Syscall.step, modifySyscall_eq] at ran
      cases loaded : s.loaded with
      | true => simp [loaded] at ran
      | false =>
          have same := transparent.unloaded loaded
          by_cases zero : p = 0
          · simp only [loaded, zero, if_true, Bool.false_eq_true, if_false, Option.map_some,
              Option.some.injEq] at ran
            cases ran
            exact ⟨nofun, fun _ => same, fun _ given => absurd zero given⟩
          · simp only [loaded, zero, Bool.false_eq_true, if_false, Option.map_some,
              Option.some.injEq] at ran
            cases ran
            have nonzero := filled rfl
            rw [same] at nonzero
            refine ⟨nofun, fun is => absurd is zero, fun _ _ => ⟨?_, ?_, nonzero⟩⟩
            · show s.machine.write _ _ = _
              rw [same]
            · show s.machine.memory _ = _
              rw [same]
              rfl
  | rmmod =>
      rw [Syscall.step, restoreSyscall_eq] at ran
      cases loaded : s.loaded with
      | false => simp [loaded] at ran
      | true =>
          by_cases zero : p = 0
          · simp only [loaded, zero, if_true, true_or, Option.map_some, Option.some.injEq] at ran
            cases ran
            have same := transparent.idle zero
            exact ⟨fun _ => same, fun _ => same, nofun⟩
          · obtain ⟨machine, old, nonzero⟩ := transparent.loaded loaded zero
            have given : s.oldSysCallFunc ≠ 0 := by rwa [old]
            simp only [loaded, zero, given, if_true, or_self, if_false, Option.map_some,
              Option.some.injEq] at ran
            cases ran
            have restored : s.machine.write (sysCallAddr p) s.oldSysCallFunc = s.plain := by
              rw [machine, old, write_write]
              exact write_self ..
            exact ⟨fun _ => restored, fun _ => restored, nofun⟩
  | write address value =>
      cases ran
      refine ⟨fun unloaded => ?_, fun zero => ?_, fun loaded given => ?_⟩
      · exact congrArg (Machine.write · address value) (transparent.unloaded unloaded)
      · exact congrArg (Machine.write · address value) (transparent.idle zero)
      · obtain ⟨machine, old, nonzero⟩ := transparent.loaded loaded given
        have distinct := alone address value rfl loaded
        have kept : (s.plain.write address value).memory (sysCallAddr p) = s.replaced p :=
          write_other s.plain distinct.symm value
        refine ⟨?_, old.trans kept.symm, kept.trans_ne nonzero⟩
        show s.machine.write address value = _
        rw [machine]
        exact write_comm _ distinct.symm _ _
  | control cr0 =>
      cases ran
      refine ⟨fun unloaded => ?_, fun zero => ?_, fun loaded given => ?_⟩
      · exact congrArg ({ · with cr0 := cr0 }) (transparent.unloaded unloaded)
      · exact congrArg ({ · with cr0 := cr0 }) (transparent.idle zero)
      · obtain ⟨machine, old, nonzero⟩ := transparent.loaded loaded given
        refine ⟨?_, old, nonzero⟩
        show { s.machine with cr0 := cr0 } = _
        rw [machine]
        rfl

theorem transparent_of_run {c : Machine} {trace : List (State × Action)} {s : State}
    (run : Run (Step readOnly hello p) (boot c) trace s)
    (filled : ∀ step ∈ trace, Filled p step.1 step.2) : Transparent hello p s := by
  induction run with
  | nil => exact ⟨fun _ => rfl, fun _ => rfl, nofun⟩
  | snoc _ next ih =>
      rw [List.forall_mem_append, List.forall_mem_singleton] at filled
      exact (ih filled.1).step next filled.2

/-- **The patch is transparent.** In every run in which the entry is not 0 when the module is
loaded, and in which other code leaves it alone while the module is loaded: the machine is at
all times the one that other code alone would have made, but for the entry, which is `hello`
while the module is loaded. So `CR0` and all other memory are as without the module, and
unloading undoes everything. Neither of the two functions can fault, as nothing interrupts
them. -/
theorem patch_transparent {c : Machine} {trace : List (State × Action)} {s : State}
    (run : Run (Step readOnly hello p) (boot c) trace s)
    (filled : ∀ step ∈ trace, Filled p step.1 step.2) :
    s.machine = (if s.loaded = true ∧ p ≠ 0 then s.plain.write (sysCallAddr p) hello
      else s.plain) ∧
    ∃ t, step readOnly hello p s (if s.loaded then .rmmod else .insmod) = some t := by
  have transparent := transparent_of_run run filled
  constructor
  · cases loaded : s.loaded with
    | false =>
        rw [if_neg (by simp)]
        exact transparent.unloaded loaded
    | true =>
        by_cases zero : p = 0
        · rw [if_neg (by simp [zero])]
          exact transparent.idle zero
        · rw [if_pos ⟨rfl, zero⟩]
          exact (transparent.loaded loaded zero).1
  · cases loaded : s.loaded with
    | false =>
        simp only [Bool.false_eq_true, if_false, step, loaded, modifySyscall_eq]
        split <;> exact ⟨_, rfl⟩
    | true =>
        simp only [if_true, step, loaded, restoreSyscall_eq]
        split <;> exact ⟨_, rfl⟩

/-- A machine with one function in all entries, and the write-protect bit set. -/
def sample : Machine := { cr0 := wpBit, memory := fun _ => 5 }

/-- The state of `sample` after a load, with `hello` at 7 and all memory read-only. -/
def sampleLoaded : State :=
  { machine := sample.write (sysCallAddr pSysCallTable) 7
    loaded := true
    oldSysCallFunc := 5
    plain := sample }

theorem sampleLoaded_step :
    Step (fun _ => true) 7 pSysCallTable (boot sample) .insmod sampleLoaded := by
  refine ⟨?_, nofun⟩
  rw [step, modifySyscall_eq, if_neg (by decide)]
  rfl

theorem patch_transparent_sample :
    sampleLoaded.machine = sample.write (sysCallAddr pSysCallTable) 7 ∧
      ∃ t, step (fun _ => true) 7 pSysCallTable sampleLoaded .rmmod = some t := by
  have both := patch_transparent (Run.nil.snoc sampleLoaded_step) (by
    intro step member
    obtain rfl := List.mem_singleton.mp member
    intro _
    exact (by decide : (5 : Word) ≠ 0))
  rwa [if_pos ⟨rfl, by decide⟩] at both

/-- **What the other module shows.** In the runs of `patch_transparent`, with the same address
of the table, `/proc/syscall96` shows `hello` while the module is loaded, and else the entry
as other code has made it. Without an address it shows none. -/
theorem show_iff_loaded {c : Machine} {trace : List (State × Action)} {s : State}
    (run : Run (Step readOnly hello p) (boot c) trace s)
    (filled : ∀ step ∈ trace, Filled p step.1 step.2) :
    showSyscallEntry p s.machine =
      if p = 0 then [.table 0, .notProvided]
      else [.table p, .entry (sysCallAddr p)
        (if s.loaded then hello else s.plain.memory (sysCallAddr p))] := by
  have transparent := transparent_of_run run filled
  unfold showSyscallEntry
  by_cases zero : p = 0
  · simp only [zero, if_true]
  · cases loaded : s.loaded with
    | false => simp only [zero, if_false, Bool.false_eq_true, transparent.unloaded loaded]
    | true => simp only [zero, if_false, if_true, (transparent.loaded loaded zero).1, write_same]

theorem show_iff_loaded_sample :
    showSyscallEntry pSysCallTable sampleLoaded.machine =
      [.table pSysCallTable, .entry (sysCallAddr pSysCallTable) 7] := by
  have shown := show_iff_loaded (Run.nil.snoc sampleLoaded_step) (by
    intro step member
    obtain rfl := List.mem_singleton.mp member
    intro _
    exact (by decide : (5 : Word) ≠ 0))
  rwa [if_neg (by decide)] at shown

/-! ## The entry 0 -/

/-- An action of other code that leaves the entry alone. -/
def Outside (p : Word) : Action → Prop
  | .insmod | .rmmod => False
  | .write address _ => address ≠ sysCallAddr p
  | .control _ => True

/-- What an action of other code does to the machine. -/
def Machine.other (c : Machine) : Action → Machine
  | .insmod | .rmmod => c
  | .write address value => c.write address value
  | .control cr0 => { c with cr0 := cr0 }

/-- Other code does not see the entry. -/
theorem other_write {actions : List Action} (outside : ∀ a ∈ actions, Outside p a) (c : Machine)
    (value : Word) :
    actions.foldl Machine.other (c.write (sysCallAddr p) value) =
      (actions.foldl Machine.other c).write (sysCallAddr p) value := by
  induction actions generalizing c with
  | nil => rfl
  | cons a rest ih =>
      obtain ⟨first, later⟩ := List.forall_mem_cons.mp outside
      rw [List.foldl_cons, List.foldl_cons, ← ih later]
      congr 1
      cases a with
      | insmod | rmmod => cases first
      | write address value' => exact write_comm c (Ne.symm first) value value'
      | control cr0 => rfl

theorem other_entry {actions : List Action} (outside : ∀ a ∈ actions, Outside p a) (c : Machine) :
    (actions.foldl Machine.other c).memory (sysCallAddr p) = c.memory (sysCallAddr p) := by
  have seen := other_write outside c (c.memory (sysCallAddr p))
  rw [write_self] at seen
  rw [seen]
  exact write_same ..

theorem replay_outside {actions : List Action} (outside : ∀ a ∈ actions, Outside p a) (s : State) :
    replay (step readOnly hello p) actions s = some { s with
      machine := actions.foldl Machine.other s.machine
      plain := actions.foldl Machine.other s.plain } := by
  induction actions generalizing s with
  | nil => rfl
  | cons a rest ih =>
      obtain ⟨first, later⟩ := List.forall_mem_cons.mp outside
      cases a with
      | insmod | rmmod => cases first
      | write address value => exact ih later _
      | control cr0 => exact ih later _

theorem write_eq_self_iff (c : Machine) (address value : Word) :
    c.write address value = c ↔ c.memory address = value := by
  constructor
  · intro same
    rw [← write_same c address value, same]
  · rintro rfl
    exact write_self c address

theorem step_insmod {s : State} (unloaded : s.loaded = false) :
    step readOnly hello p s .insmod = some { s with
      machine := if p = 0 then s.machine else s.machine.write (sysCallAddr p) hello
      loaded := true
      oldSysCallFunc := if p = 0 then 0 else s.machine.memory (sysCallAddr p) } := by
  simp only [step, unloaded, modifySyscall_eq, Bool.false_eq_true, if_false]
  split <;> rfl

theorem step_rmmod {s : State} (loaded : s.loaded = true) :
    step readOnly hello p s .rmmod = some { s with
      machine := if p = 0 ∨ s.oldSysCallFunc = 0 then s.machine
        else s.machine.write (sysCallAddr p) s.oldSysCallFunc
      loaded := false
      oldSysCallFunc := 0 } := by
  simp only [step, loaded, restoreSyscall_eq, if_true]
  split <;> rfl

/-- **When unloading restores the machine.** The module is loaded, other code runs that leaves
the entry alone, and the module is unloaded. Nothing faults, and the machine is what other code
has made of it exactly when the address of the table is 0, or the entry was not, or `hello`
is. -/
theorem unload_restores_iff {s : State} (unloaded : s.loaded = false) {actions : List Action}
    (outside : ∀ a ∈ actions, Outside p a) :
    ∃ t, replay (step readOnly hello p) (.insmod :: (actions ++ [.rmmod])) s = some t ∧
      t.loaded = false ∧
      (t.machine = actions.foldl Machine.other s.machine ↔
        p = 0 ∨ s.machine.memory (sysCallAddr p) ≠ 0 ∨ hello = 0) := by
  simp only [replay, step_insmod unloaded, replay_append, replay_outside outside,
    Option.bind_some, step_rmmod, Option.some.injEq, exists_eq_left', true_and]
  by_cases zero : p = 0
  · simp [zero]
  · simp only [zero, if_false, false_or]
    rw [other_write outside]
    by_cases entry : s.machine.memory (sysCallAddr p) = 0
    · rw [if_pos entry, write_eq_self_iff, other_entry outside, entry]
      constructor
      · exact fun same => .inr same.symm
      · rintro (differs | same)
        · exact absurd rfl differs
        · exact same.symm
    · have kept := write_self (actions.foldl Machine.other s.machine) (sysCallAddr p)
      rw [other_entry outside] at kept
      rw [if_neg entry, write_write, kept]
      exact iff_of_true rfl (.inl entry)

/-- The entry is 0, and `hello` stays there. -/
theorem unload_restores_iff_zero :
    let c : Machine := { cr0 := wpBit, memory := fun _ => 0 }
    ∃ t, replay (step (fun _ => true) 7 pSysCallTable) [.insmod, .rmmod] (boot c) = some t ∧
      t.machine ≠ c := by
  obtain ⟨t, ran, -, restored⟩ := @unload_restores_iff (fun _ => true) 7 pSysCallTable
    (boot { cr0 := wpBit, memory := fun _ => 0 }) rfl [] (by simp)
  exact ⟨t, ran, fun same => absurd (restored.mp same) (by simp [boot, pSysCallTable])⟩

end OsLab.Syscall
