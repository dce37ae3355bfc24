import OsLab.Foundation.Unwinding
import OsLab.MessageQueue.OpenFiles
import OsLab.MessageQueue.Ownership

/-!
# Loading and unloading `3lab/dev/glo_pro.c`

`m2m_init` registers a device number, the `cdev`, a class and a device, and takes back what it
has registered when one of the calls fails. `m2m_exit` takes all of them back and frees the
messages that nobody has read. The order matters to the kernel, so the registrations are
events of `held`.

The system loads the module, lets clients call it and unloads it, any number of times.
It keeps a loaded module as long as a file is open or a call is in progress, since the
file operations have an owner. `module_lifecycle` says what is registered and allocated in
every state, and that each load starts the device from the beginning.
-/

set_option autoImplicit false

namespace OsLab.MessageQueue

open OsLab.Foundation

/-! ## Registration -/

/-- What the module registers. -/
inductive Resource where
  | region
  | cdev
  | classObject
  | device
  deriving DecidableEq, Repr

/-- A pointer from `class_create` or `device_create`: an object, or `ERR_PTR` of an error
from 1 to `MAX_ERRNO`. -/
inductive Created where
  | object
  | errPtr (errno : Fin 4095)
  deriving DecidableEq, Repr

/-- `IS_ERR`. -/
def Created.isErr : Created → Bool
  | .object => false
  | .errPtr _ => true

/-- `PTR_ERR`, and 0 for an object. -/
def Created.ptrErr : Created → Int
  | .object => 0
  | .errPtr errno => -(errno + 1)

/-- `IS_ERR_OR_NULL`, where a field that was never set is `NULL`. -/
def isErrOrNull : Option Created → Bool
  | none => true
  | some pointer => pointer.isErr

/-- What the kernel answers to the calls of `m2m_init`. -/
structure Answers where
  registerChrdevRegion : Int
  allocChrdevRegion : Int
  cdevAdd : Int
  classCreate : Created
  deviceCreate : Created
  deriving Repr

/-- `dev_major`, which nothing sets. -/
def devMajor : Nat := 0

/-- What `m2m_init` leaves: its calls, its result, and two fields of `m2m_chardev`. -/
structure Init where
  events : List (Event Resource)
  ret : Int
  classField : Option Created
  deviceField : Option Created

/-- `m2m_init` after the initialisation of `m2m_chardev`. -/
def m2mInitModule (k : Answers) : Init :=
  let ret := if devMajor ≠ 0 then k.registerChrdevRegion else k.allocChrdevRegion
  if ret ≠ 0 then ⟨[], ret, none, none⟩
  else if k.cdevAdd ≠ 0 then
    ⟨[.acquire .region, .release .region], k.cdevAdd, none, none⟩
  else if k.classCreate.isErr then
    ⟨[.acquire .region, .acquire .cdev, .release .cdev, .release .region],
      k.classCreate.ptrErr, some k.classCreate, none⟩
  else if k.deviceCreate.isErr then
    ⟨[.acquire .region, .acquire .cdev, .acquire .classObject, .release .classObject,
        .release .cdev, .release .region],
      k.deviceCreate.ptrErr, some k.classCreate, some k.deviceCreate⟩
  else
    ⟨[.acquire .region, .acquire .cdev, .acquire .classObject, .acquire .device], 0,
      some k.classCreate, some k.deviceCreate⟩

/-- The registrations that `m2m_exit` takes back. -/
def m2mExitEvents (classField deviceField : Option Created) : List (Event Resource) :=
  (if isErrOrNull deviceField then [] else [.release .device]) ++
    (if isErrOrNull classField then [] else [.release .classObject]) ++
    [.release .cdev, .release .region]

/-- The loop of `m2m_exit` over the list: of every message the data are freed and then the
`struct msg`. The numbers are the bytes and the objects that are left. -/
def freeMessages {ι : Type} : List (Msg ι) → Nat → Nat → Nat × Nat
  | [], live, nodes => (live, nodes)
  | m :: rest, live, nodes => freeMessages rest (live - m.len) (nodes - 1)

/-- The result of the call that registers a resource. -/
def Answers.result (k : Answers) : Resource → Int
  | .region => k.allocChrdevRegion
  | .cdev => k.cdevAdd
  | .classObject => k.classCreate.ptrErr
  | .device => k.deviceCreate.ptrErr

/-- The order of registration. -/
def resources : List Resource := [.region, .cdev, .classObject, .device]

theorem ptrErr_eq_zero_iff {pointer : Created} : pointer.ptrErr = 0 ↔ pointer = .object := by
  cases pointer with
  | object => simp [Created.ptrErr]
  | errPtr errno =>
      simp only [Created.ptrErr, reduceCtorEq, iff_false]
      omega

theorem isErr_iff {pointer : Created} : pointer.isErr = true ↔ pointer.ptrErr ≠ 0 := by
  rw [Ne, ptrErr_eq_zero_iff]
  cases pointer <;> simp [Created.isErr]

/-- `m2m_init` acquires the resources in their order, and none when one cannot be acquired. -/
theorem m2mInitModule_eq (k : Answers) :
    ((m2mInitModule k).events, (m2mInitModule k).ret) = acquireAll k.result resources [] := by
  simp only [m2mInitModule, devMajor, ne_eq, not_true_eq_false, if_false, isErr_iff, resources,
    acquireAll, Answers.result]
  by_cases region : k.allocChrdevRegion = 0
  case neg => simp [region]
  by_cases cdev : k.cdevAdd = 0
  case neg => simp [region, cdev]
  by_cases classObject : k.classCreate.ptrErr = 0
  case neg => simp [region, cdev, classObject]
  by_cases device : k.deviceCreate.ptrErr = 0 <;> simp [region, cdev, classObject, device]

theorem m2mInitModule_cases (k : Answers) :
    ((m2mInitModule k).ret = 0 ∧ (∀ r, k.result r = 0) ∧
        (m2mInitModule k).classField = some .object ∧
        (m2mInitModule k).deviceField = some .object ∧
        held (m2mInitModule k).events [] = some resources.reverse) ∨
      (∃ earlier r later, resources = earlier ++ r :: later ∧ (∀ x ∈ earlier, k.result x = 0) ∧
        (m2mInitModule k).ret = k.result r ∧ k.result r ≠ 0 ∧
        held (m2mInitModule k).events [] = some []) := by
  have same := m2mInitModule_eq k
  rw [Prod.ext_iff] at same
  obtain ⟨events, ret⟩ := same
  dsimp only at events ret
  rcases held_acquireAll k.result resources [] (by decide) with
    ⟨zero, all, stacked⟩ | ⟨earlier, r, later, split, before, failed, returned, stacked⟩
  · have every : ∀ r, k.result r = 0 := fun r => all r (by cases r <;> decide)
    have classObject := ptrErr_eq_zero_iff.mp (every .classObject)
    have device := ptrErr_eq_zero_iff.mp (every .device)
    have region : k.allocChrdevRegion = 0 := every .region
    have cdev : k.cdevAdd = 0 := every .cdev
    refine .inl ⟨ret.trans zero, every, ?_, ?_, ?_⟩
    · simp [m2mInitModule, devMajor, classObject, device, region, cdev, Created.isErr]
    · simp [m2mInitModule, devMajor, classObject, device, region, cdev, Created.isErr]
    · rw [events, stacked, List.append_nil]
  · exact .inr ⟨earlier, r, later, split, before, ret.trans returned, failed, by
      rw [events, stacked]⟩

/-! ## The system -/

variable (ι : Type)

/-- The module, what the kernel has registered for it, and the device. `faulted` tells that
something was taken back that was not registered, or not last. -/
structure Module where
  loaded : Bool
  classField : Option Created
  deviceField : Option Created
  registered : List Resource
  faulted : Bool
  dev : State ι

/-- What happens to the module. -/
inductive Action where
  | insmod (k : Answers)
  | call (i : ι) (choice : Choice)
  | rmmod

variable {ι}

/-- Before the module is loaded for the first time. -/
def unloaded : Module ι where
  loaded := false
  classField := none
  deviceField := none
  registered := []
  faulted := false
  dev := m2mInit

/-- The kernel carries out the calls of the module. -/
def Module.register (m : Module ι) (events : List (Event Resource)) : Module ι :=
  match held events m.registered with
  | some registered => { m with registered := registered }
  | none => { m with faulted := true }

/-- A module that is loaded has new memory, and what it allocated before is still there. The
memory of the module goes when `m2m_init` returns an error. -/
def Module.insmod (m : Module ι) (k : Answers) : Module ι :=
  let init := m2mInitModule k
  let initialized := { m with
    dev := { m2mInit with
      live := m.dev.live
      nodes := m.dev.nodes
      contexts := m.dev.contexts } }
  if init.ret = 0 then
    { initialized with
      loaded := true
      classField := init.classField
      deviceField := init.deviceField }.register init.events
  else initialized.register init.events

/-- `m2m_exit`, and the memory of the module goes. -/
def Module.rmmod (m : Module ι) : Module ι :=
  let left := freeMessages m.dev.dev.msgList m.dev.live m.dev.nodes
  { m with
    loaded := false
    classField := none
    deviceField := none
    dev := { m.dev with
      dev := { m.dev.dev with msgList := [] }
      live := left.1
      nodes := left.2 } }.register
    (m2mExitEvents m.classField m.deviceField)

/-- No file of the device is open, and no call is in progress. -/
def Unused (s : State ι) : Prop := ∀ i, (s.client i).ctx = false ∧ (s.client i).pc = .idle

/-- Nothing is allocated. -/
structure NoMemory (s : State ι) : Prop where
  live : s.live = 0
  nodes : s.nodes = 0
  contexts : s.contexts = 0

variable [DecidableEq ι]

section System

variable [KernelMemory]

/-- What can happen next. -/
inductive Moves (m : Module ι) : Action ι → Module ι → Prop where
  | insmod (k : Answers) (absent : m.loaded = false) : Moves m (.insmod k) (m.insmod k)
  | call {i : ι} {choice : Choice} {t : State ι} (present : m.loaded = true)
      (disciplined : Disciplined m.dev (i, choice)) (stepped : Step m.dev (i, choice) t) :
      Moves m (.call i choice) { m with dev := t }
  | rmmod (present : m.loaded = true) (unused : Unused m.dev) : Moves m .rmmod m.rmmod

/-- The device since the module was loaded. -/
def Disciplined.Reached (s : State ι) : Prop :=
  ∃ trace, Run Step m2mInit trace s ∧ ∀ step ∈ trace, Disciplined step.1 step.2

/-- What holds of the module at any time. -/
structure Sound (m : Module ι) : Prop where
  faultless : m.faulted = false
  absent : m.loaded = false → m.registered = [] ∧ NoMemory m.dev
  present : m.loaded = true → m.registered = resources.reverse ∧
    m.classField = some .object ∧ m.deviceField = some .object ∧ Disciplined.Reached m.dev

omit [DecidableEq ι] [KernelMemory] in
/-- The loop frees what belongs to the list and nothing else. -/
theorem freeMessages_eq (messages : List (Msg ι)) (bytes objects : Nat) :
    freeMessages messages (totalLen messages + bytes) (messages.length + objects) =
      (bytes, objects) := by
  induction messages with
  | nil => rw [freeMessages, totalLen_nil, List.length_nil, Nat.zero_add, Nat.zero_add]
  | cons m later ih =>
      have objectsLeft : (m :: later).length + objects - 1 = later.length + objects := by
        rw [List.length_cons]
        omega
      rw [freeMessages, totalLen_cons, Nat.add_assoc, Nat.add_sub_cancel_left, objectsLeft]
      exact ih

theorem Sound.insmod {m : Module ι} (sound : Sound m) (absent : m.loaded = false) (k : Answers) :
    Sound (m.insmod k) := by
  obtain ⟨nothing, memory⟩ := sound.absent absent
  have fresh : ({ m2mInit with
      live := m.dev.live
      nodes := m.dev.nodes
      contexts := m.dev.contexts } : State ι) = m2mInit := by
    rw [memory.live, memory.nodes, memory.contexts]
    rfl
  rcases m2mInitModule_cases k with ⟨zero, -, classField, deviceField, stacked⟩ |
    ⟨_, _, _, -, -, ret, failed, stacked⟩
  · rw [Module.insmod, if_pos zero]
    simp only [Module.register, nothing, stacked, fresh]
    exact ⟨sound.faultless, nofun, fun _ => ⟨rfl, classField, deviceField, [], .nil, by simp⟩⟩
  · rw [Module.insmod, if_neg (by rw [ret]; exact failed)]
    simp only [Module.register, nothing, stacked, fresh]
    refine ⟨sound.faultless, fun _ => ⟨rfl, rfl, rfl, rfl⟩, fun loaded => ?_⟩
    rw [absent] at loaded
    cases loaded

theorem Sound.rmmod {m : Module ι} (sound : Sound m) (present : m.loaded = true)
    (unused : Unused m.dev) : Sound m.rmmod := by
  obtain ⟨registered, classField, deviceField, trace, run, disciplined⟩ := sound.present present
  have owned := exact_of_reachable ⟨trace, run⟩
  have live : m.dev.live = totalLen m.dev.dev.msgList := by
    refine owned.data.eq_common fun i => ?_
    show (m.dev.client i).pc.phase.held = 0
    rw [(unused i).2]
    rfl
  have nodes : m.dev.nodes = m.dev.dev.msgList.length := by
    refine owned.nodes.eq_common fun i => ?_
    show (m.dev.client i).pc.phase.heldNodes = 0
    rw [(unused i).2]
    rfl
  have contexts : m.dev.contexts = 0 := by
    refine Int.natCast_eq_zero.mp ((opened_of_run run disciplined).contexts.eq_zero fun i => ?_)
    rw [Client.inContexts, (unused i).1, (unused i).2]
    rfl
  have freed := freeMessages_eq m.dev.dev.msgList 0 0
  rw [Nat.add_zero, Nat.add_zero, ← live, ← nodes] at freed
  have stacked : held (m2mExitEvents m.classField m.deviceField) m.registered = some [] := by
    rw [registered, classField, deviceField]
    rfl
  simp only [Module.rmmod, Module.register, stacked]
  refine ⟨sound.faultless, fun _ => ⟨rfl, ?_, ?_, contexts⟩, ?_⟩
  · exact congrArg Prod.fst freed
  · exact congrArg Prod.snd freed
  · exact fun loaded => absurd loaded Bool.false_ne_true

theorem Sound.step {m m' : Module ι} {a : Action ι} (sound : Sound m) (moves : Moves m a m') :
    Sound m' := by
  cases moves with
  | insmod k absent => exact sound.insmod absent k
  | rmmod present unused => exact sound.rmmod present unused
  | call present disciplined stepped =>
      obtain ⟨registered, classField, deviceField, trace, run, all⟩ := sound.present present
      refine ⟨sound.faultless, fun absent => ?_, fun _ => ⟨registered, classField, deviceField,
        _, run.snoc stepped, ?_⟩⟩
      · rw [present] at absent
        cases absent
      · rw [List.forall_mem_append, List.forall_mem_singleton]
        exact ⟨all, disciplined⟩

theorem sound_of_reachable {m : Module ι} (reached : Reachable Moves (unloaded : Module ι) m) :
    Sound m :=
  reached.invariant Sound
    ⟨rfl, fun _ => ⟨rfl, rfl, rfl, rfl⟩, fun loaded => absurd loaded Bool.false_ne_true⟩
    fun _ _ _ sound moves => sound.step moves

/-- **The module over any number of loads.** Nothing is ever taken back that is not registered
last. While the module is not loaded, nothing is registered and nothing is allocated, neither
messages with their data nor the contexts of files. While it is loaded, all four resources are
registered, both counters count the open files, and the device is in a state that calls lead to
from a first load. Loading succeeds exactly when all four calls do, and otherwise returns the
error of the first that fails. -/
theorem module_lifecycle {m : Module ι} (reached : Reachable Moves (unloaded : Module ι) m) :
    m.faulted = false ∧
    (m.loaded = false → m.registered = [] ∧ NoMemory m.dev ∧
      ∀ k, ((m.insmod k).loaded = true ↔ ∀ r, k.result r = 0) ∧
        ((m.insmod k).loaded = false → ∃ earlier r later, resources = earlier ++ r :: later ∧
          (∀ x ∈ earlier, k.result x = 0) ∧ k.result r ≠ 0 ∧
          (m2mInitModule k).ret = k.result r)) ∧
    (m.loaded = true → m.registered = [.device, .classObject, .cdev, .region] ∧
      ReachableState m.dev ∧ ∃ files, OpenCounts m.dev files) := by
  have sound := sound_of_reachable reached
  refine ⟨sound.faultless, fun absent => ?_, fun present => ?_⟩
  · obtain ⟨nothing, memory⟩ := sound.absent absent
    refine ⟨nothing, memory, fun k => ?_⟩
    rcases m2mInitModule_cases k with ⟨zero, all, -, -, stacked⟩ |
      ⟨earlier, r, later, order, before, ret, failed, stacked⟩
    · have loaded : (m.insmod k).loaded = true := by
        rw [Module.insmod, if_pos zero]
        simp only [Module.register, nothing, stacked]
      exact ⟨iff_of_true loaded all, fun unloaded => by rw [loaded] at unloaded; cases unloaded⟩
    · have unloaded : (m.insmod k).loaded = false := by
        rw [Module.insmod, if_neg (by rw [ret]; exact failed)]
        simp only [Module.register, nothing, stacked, absent]
      refine ⟨iff_of_false (by rw [unloaded]; exact Bool.false_ne_true) fun all =>
        failed (all r), fun _ => ⟨earlier, r, later, order, before, failed, ret⟩⟩
  · obtain ⟨registered, -, -, trace, run, disciplined⟩ := sound.present present
    exact ⟨registered, ⟨trace, run⟩, (opened_of_run run disciplined).counts⟩

end System

/-- The module is loaded at the second attempt, since `device_create` has failed at first. -/
theorem module_lifecycle_second :
    let failed : Module (Fin 2) := unloaded.insmod ⟨0, 0, 0, .object, .errPtr 11⟩
    let m := failed.insmod ⟨0, 0, 0, .object, .object⟩
    failed.registered = [] ∧ m.loaded = true ∧
      m.registered = [.device, .classObject, .cdev, .region] := by
  have first : Reachable Moves (unloaded : Module (Fin 2))
      (unloaded.insmod ⟨0, 0, 0, .object, .errPtr 11⟩) :=
    Reachable.refl.next (.insmod _ rfl)
  refine ⟨((module_lifecycle first).2.1 rfl).1, rfl, ?_⟩
  exact ((module_lifecycle (first.next (.insmod _ rfl))).2.2 rfl).1

end OsLab.MessageQueue
