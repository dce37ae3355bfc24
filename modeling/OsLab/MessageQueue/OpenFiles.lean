import OsLab.Foundation.Holdings
import OsLab.MessageQueue.Wakeup

/-!
# Who has the device open

`m2m_open` allocates a `struct client_ctx`, stores it in the file and adds one to `readers` and
to `writers`; `m2m_release` takes these back in another order. Each is a statement of its own,
so while a file is being opened or released the three may disagree about it. `Stage` is where a
client is in these two calls, and `inReaders`, `inWriters` and `inContexts` say what has been
done for its file at each point.

A file is opened before any other call on it, and not twice (`Disciplined`). Under this rule,
which the kernel's file layer keeps, every statement changes a counter exactly by what it
changes for its own file (`FileMove.balance`). So both counters are the number of the files that
are counted in them, at any point of any interleaving, and while no file is being opened or
released they are the number of open files (`open_counts`).
-/

set_option autoImplicit false

namespace OsLab.MessageQueue

open OsLab.Foundation

variable {ι : Type}

/-! ## What has been done for a file -/

/-- Where a client is with its file. -/
inductive Stage where
  | opening (pc : OpenPc)
  | releasing (pc : ReleasePc)
  | elsewhere

def Pc.stage : Pc ι → Stage
  | .opening pc => .opening pc
  | .releasing pc => .releasing pc
  | _ => .elsewhere

namespace Stage

variable (ctx : Bool)

/-- The file is counted in `readers`. -/
def inReaders : Stage → Bool
  | .opening .incWriters => true
  | .opening _ => false
  | .releasing .test | .releasing .decReaders | .elsewhere => ctx
  | .releasing _ => false

/-- The file is counted in `writers`. -/
def inWriters : Stage → Bool
  | .opening _ => false
  | .releasing .test | .releasing .decReaders | .releasing .decWriters | .elsewhere => ctx
  | .releasing _ => false

/-- The `struct client_ctx` of the file is allocated. -/
def inContexts : Stage → Bool
  | .opening .kzalloc => false
  | .opening _ => true
  | .releasing .clearCtx => false
  | .releasing _ | .elsewhere => ctx

/-- Whether the file is open where the stage determines it. -/
def Proper : Stage → Prop
  | .opening .kzalloc | .opening .setCtx => ctx = false
  | .opening _ => ctx = true
  | .releasing .test | .elsewhere => True
  | .releasing _ => ctx = true

end Stage

/-- A wake-up moves nobody to or from a file. -/
@[simp] theorem stage_wake (effect : Effect ι) (pc : Pc ι) : (effect.wake pc).stage = pc.stage := by
  cases effect with
  | wakeReadq =>
      cases pc with
      | reading a rpc => cases rpc <;> rfl
      | _ => rfl
  | wakeWriteq =>
      cases pc with
      | writing a wpc => cases wpc <;> rfl
      | _ => rfl
  | _ => rfl

/-! ## What a statement does for a file -/

/-- Whether the file is open after a statement. -/
def FileEffect.ctx (before : Bool) : FileEffect → Bool
  | .setCtx => true
  | .clearCtx => false
  | _ => before

def FileEffect.readers : FileEffect → Int
  | .incReaders => 1
  | .decReaders => -1
  | _ => 0

def FileEffect.writers : FileEffect → Int
  | .incWriters => 1
  | .decWriters => -1
  | _ => 0

def FileEffect.contexts : FileEffect → Int
  | .kzalloc => 1
  | .kfree => -1
  | _ => 0

/-- The part of an effect that concerns files. -/
def Effect.onFile : Effect ι → Option FileEffect
  | .file effect => some effect
  | _ => none

/-- What a statement can do for its file: whether the file is open, the stage before, the
effect, and the stage after. -/
inductive FileMove : Bool → Stage → Option FileEffect → Stage → Prop where
  | other (ctx : Bool) : FileMove ctx .elsewhere none .elsewhere
  | begins : FileMove false .elsewhere none (.opening .kzalloc)
  | ends (ctx : Bool) : FileMove ctx .elsewhere none (.releasing .test)
  | noMemory (ctx : Bool) : FileMove ctx (.opening .kzalloc) none .elsewhere
  | kzalloc (ctx : Bool) : FileMove ctx (.opening .kzalloc) (some .kzalloc) (.opening .setCtx)
  | setCtx (ctx : Bool) : FileMove ctx (.opening .setCtx) (some .setCtx) (.opening .incReaders)
  | incReaders (ctx : Bool) :
      FileMove ctx (.opening .incReaders) (some .incReaders) (.opening .incWriters)
  | incWriters (ctx : Bool) : FileMove ctx (.opening .incWriters) (some .incWriters) .elsewhere
  | isOpen : FileMove true (.releasing .test) none (.releasing .decReaders)
  | isClosed : FileMove false (.releasing .test) none .elsewhere
  | decReaders (ctx : Bool) :
      FileMove ctx (.releasing .decReaders) (some .decReaders) (.releasing .decWriters)
  | decWriters (ctx : Bool) :
      FileMove ctx (.releasing .decWriters) (some .decWriters) (.releasing .kfree)
  | kfree (ctx : Bool) : FileMove ctx (.releasing .kfree) (some .kfree) (.releasing .clearCtx)
  | clearCtx (ctx : Bool) : FileMove ctx (.releasing .clearCtx) (some .clearCtx) .elsewhere

section Moves

variable {ctx : Bool} {stage stage' : Stage} {effect : Option FileEffect}

theorem FileMove.proper (moves : FileMove ctx stage effect stage') (proper : stage.Proper ctx) :
    stage'.Proper (effect.elim ctx (FileEffect.ctx ctx)) := by
  cases moves <;> first | exact proper | trivial

/-- **A statement counts its own file.** -/
theorem FileMove.balance (moves : FileMove ctx stage effect stage') (proper : stage.Proper ctx) :
    effect.elim 0 FileEffect.readers + (stage.inReaders ctx).toNat =
        (stage'.inReaders (effect.elim ctx (FileEffect.ctx ctx))).toNat ∧
      effect.elim 0 FileEffect.writers + (stage.inWriters ctx).toNat =
        (stage'.inWriters (effect.elim ctx (FileEffect.ctx ctx))).toNat ∧
      effect.elim 0 FileEffect.contexts + (stage.inContexts ctx).toNat =
        (stage'.inContexts (effect.elim ctx (FileEffect.ctx ctx))).toNat := by
  cases moves <;>
    simp_all [Stage.Proper, Stage.inReaders, Stage.inWriters, Stage.inContexts, FileEffect.ctx,
      FileEffect.readers, FileEffect.writers, FileEffect.contexts]

/-- The object that is freed is there. -/
theorem FileMove.inContexts_of_kfree (moves : FileMove ctx stage (some .kfree) stage')
    (proper : stage.Proper ctx) : stage.inContexts ctx = true := by
  cases moves
  exact proper

end Moves

/-! ## The statements of the code -/

theorem fileMove_open {pc : OpenPc} {choice : Choice} {effect : Effect ι} {pc' : Pc ι} (ctx : Bool)
    (decided : m2mOpenNext pc choice = some (effect, pc')) :
    FileMove ctx (.opening pc) effect.onFile pc'.stage := by
  cases pc with
  | kzalloc =>
      cases choice <;> cases decided
      · exact .kzalloc ctx
      · exact .noMemory ctx
  | setCtx => cases choice <;> cases decided; exact .setCtx ctx
  | incReaders => cases choice <;> cases decided; exact .incReaders ctx
  | incWriters => cases choice <;> cases decided; exact .incWriters ctx

theorem fileMove_release {pc : ReleasePc} {choice : Choice} {effect : Effect ι} {pc' : Pc ι}
    {ctx : Bool} (decided : m2mReleaseNext ctx pc choice = some (effect, pc')) :
    FileMove ctx (.releasing pc) effect.onFile pc'.stage := by
  cases pc with
  | test =>
      cases choice <;> cases decided
      cases ctx with
      | true => exact .isOpen
      | false => exact .isClosed
  | decReaders => cases choice <;> cases decided; exact .decReaders ctx
  | decWriters => cases choice <;> cases decided; exact .decWriters ctx
  | kfree => cases choice <;> cases decided; exact .kfree ctx
  | clearCtx => cases choice <;> cases decided; exact .clearCtx ctx

theorem onFile_read {dev : Mydev ι} {a : ReadArgs} {pc : ReadPc ι} {choice : Choice}
    {effect : Effect ι} {pc' : Pc ι} (decided : m2mReadNext dev a pc choice = some (effect, pc')) :
    effect.onFile = none := by
  unfold m2mReadNext at decided
  split at decided <;> grind [Effect.onFile]

theorem onFile_write [KernelMemory] {dev : Mydev ι} {live : Nat} {i : ι} {number : Nat}
    {a : WriteArgs} {pc : WritePc ι} {choice : Choice} {effect : Effect ι} {pc' : Pc ι}
    (decided : m2mWriteNext dev live i number a pc choice = some (effect, pc')) :
    effect.onFile = none := by
  unfold m2mWriteNext at decided
  split at decided <;> grind [Effect.onFile]

theorem onFile_poll {dev : Mydev ι} {pc : PollPc} {choice : Choice} {effect : Effect ι}
    {pc' : Pc ι} (decided : m2mPollNext dev pc choice = some (effect, pc')) :
    effect.onFile = none := by
  unfold m2mPollNext at decided
  split at decided <;> grind [Effect.onFile]

/-- The file of a client is opened when it is not open, and any other call is on an open
file. -/
def Disciplined (s : State ι) (a : ι × Choice) : Prop :=
  ∀ c, a.2 = .call c → (c = .m2mOpen ↔ (s.client a.1).ctx = false)

/-- The call an idle client makes. -/
def Choice.call? : Choice → Option Call
  | .call c => some c
  | _ => none

def Call.opens : Call → Bool
  | .m2mOpen => true
  | _ => false

theorem disciplined_iff {s : State ι} {a : ι × Choice} :
    Disciplined s a ↔ ∀ c ∈ a.2.call?, (c.opens = true ↔ (s.client a.1).ctx = false) := by
  refine forall_congr' fun c => ?_
  have opens : c.opens = true ↔ c = .m2mOpen := by cases c <;> simp [Call.opens]
  have called : c ∈ a.2.call? ↔ a.2 = .call c := by
    rcases a with ⟨i, choice⟩
    cases choice <;> simp [Choice.call?]
  rw [opens, called]

instance (s : State ι) (a : ι × Choice) : Decidable (Disciplined s a) :=
  decidable_of_iff _ disciplined_iff.symm

theorem fileMove_next [KernelMemory] {s : State ι} {i : ι} {choice : Choice} {effect : Effect ι}
    {pc : Pc ι} (disciplined : Disciplined s (i, choice))
    (decided : next s i choice = some (effect, pc)) :
    FileMove (s.client i).ctx (s.client i).pc.stage effect.onFile pc.stage := by
  unfold next at decided
  split at decided
  case h_1 c position =>
    cases decided
    rw [position]
    cases c with
    | m2mOpen =>
        rw [(disciplined _ rfl).mp rfl]
        exact .begins
    | m2mRelease => exact .ends _
    | m2mRead | m2mWrite | m2mPoll => exact .other _
  case h_2 pc position =>
    rw [position]
    exact fileMove_open _ decided
  case h_3 pc position =>
    rw [position]
    exact fileMove_release decided
  case h_4 position =>
    rw [position, onFile_read decided]
    rcases m2mReadNext_stays decided with ⟨_, rfl⟩ | ⟨_, _, rfl⟩ <;> exact .other _
  case h_5 position =>
    rw [position, onFile_write decided]
    rcases m2mWriteNext_stays decided with ⟨_, rfl⟩ | ⟨_, _, rfl⟩ <;> exact .other _
  case h_6 position =>
    rw [position, onFile_poll decided]
    rcases m2mPollNext_stays decided with ⟨_, rfl⟩ | ⟨_, rfl⟩ <;> exact .other _
  case h_7 position =>
    cases decided
    rw [position]
    exact .other _
  case h_8 => cases decided

variable [DecidableEq ι]

theorem ctx_after (s : State ι) (i j : ι) (effect : Effect ι) (pc : Pc ι) :
    ((s.after i effect pc).client j).ctx =
      if j = i then effect.onFile.elim (s.client i).ctx (FileEffect.ctx (s.client i).ctx)
      else (s.client j).ctx := by
  rcases eq_or_ne j i with rfl | other
  · cases effect with
    | file effect =>
        cases effect <;>
          simp [State.after, State.apply, State.applyFile, State.setClient, Effect.onFile,
            FileEffect.ctx]
    | _ => simp [State.after, State.apply, State.setClient, State.mapPc, Effect.onFile]
  · cases effect with
    | file effect =>
        cases effect <;>
          simp [State.after, State.apply, State.applyFile, State.setClient, other]
    | _ => simp [State.after, State.apply, State.setClient, State.mapPc, other]

/-- What the statement adds to the three counters. -/
theorem counters_after (s : State ι) (i : ι) (effect : Effect ι) (pc : Pc ι) :
    (s.after i effect pc).dev.readers =
        s.dev.readers + effect.onFile.elim 0 FileEffect.readers ∧
      (s.after i effect pc).dev.writers =
        s.dev.writers + effect.onFile.elim 0 FileEffect.writers ∧
      ((effect.onFile = some .kfree → 0 < s.contexts) →
        ((s.after i effect pc).contexts : Int) =
          s.contexts + effect.onFile.elim 0 FileEffect.contexts) := by
  cases effect with
  | file effect =>
      cases effect <;>
        simp [State.after, State.apply, State.applyFile, State.setClient, Effect.onFile,
          FileEffect.readers, FileEffect.writers, FileEffect.contexts] <;> omega
  | _ => simp [State.after, State.apply, State.setClient, State.mapPc, Effect.onFile]

/-- What is measured of a file changes at the mover only. -/
theorem measure_after (measure : Bool → Stage → Bool) (s : State ι) (i : ι) (effect : Effect ι)
    (pc : Pc ι) :
    (fun j => measure ((s.after i effect pc).client j).ctx
        ((s.after i effect pc).client j).pc.stage) =
      Function.update (fun j => measure (s.client j).ctx (s.client j).pc.stage) i
        (measure (effect.onFile.elim (s.client i).ctx (FileEffect.ctx (s.client i).ctx))
          pc.stage) := by
  funext j
  rw [ctx_after, after_pc, stage_wake]
  rcases eq_or_ne j i with rfl | other
  · rw [Function.update_self, if_pos rfl, if_pos rfl]
  · rw [Function.update_of_ne other, if_neg other, if_neg other]

/-- The number of the files with a measure changes as the measure of the mover does. -/
theorem tally_after (measure : Bool → Stage → Bool) {s : State ι} {i : ι} {effect : Effect ι}
    {pc : Pc ι} {number number' : Int}
    (tally : Tally number fun j => measure (s.client j).ctx (s.client j).pc.stage)
    (balance : number' + (measure (s.client i).ctx (s.client i).pc.stage).toNat =
      number + (measure (effect.onFile.elim (s.client i).ctx (FileEffect.ctx (s.client i).ctx))
        pc.stage).toNat) :
    Tally number' fun j => measure ((s.after i effect pc).client j).ctx
      ((s.after i effect pc).client j).pc.stage := by
  rw [measure_after]
  exact tally.update i balance

/-! ## The invariant -/

def Client.inReaders (c : Client ι) : Bool := c.pc.stage.inReaders c.ctx

def Client.inWriters (c : Client ι) : Bool := c.pc.stage.inWriters c.ctx

def Client.inContexts (c : Client ι) : Bool := c.pc.stage.inContexts c.ctx

/-- The counters are exact. -/
structure Opened (s : State ι) : Prop where
  files : ∃ number, Tally number fun i => (s.client i).ctx
  readers : Tally s.dev.readers fun i => (s.client i).inReaders
  writers : Tally s.dev.writers fun i => (s.client i).inWriters
  contexts : Tally s.contexts fun i => (s.client i).inContexts
  proper : ∀ i, (s.client i).pc.stage.Proper (s.client i).ctx

omit [DecidableEq ι] in
theorem opened_init : Opened (m2mInit : State ι) where
  files := ⟨0, .nobody⟩
  readers := .nobody
  writers := .nobody
  contexts := .nobody
  proper _ := trivial

/-- **A statement of a disciplined client keeps the counters exact.** -/
theorem Opened.step [KernelMemory] {s t : State ι} {a : ι × Choice} (opened : Opened s)
    (disciplined : Disciplined s a) (stepped : Step s a t) : Opened t := by
  obtain ⟨i, choice⟩ := a
  obtain ⟨effect, pc, decided, rfl⟩ := step_cases stepped
  have moves := fileMove_next disciplined decided
  have proper := opened.proper i
  obtain ⟨inReaders, inWriters, inContexts⟩ := moves.balance proper
  obtain ⟨readers, writers, contexts⟩ := counters_after s i effect pc
  have there : effect.onFile = some .kfree → 0 < s.contexts := by
    intro frees
    rw [frees] at moves
    exact Int.natCast_pos.mp (opened.contexts.positive (moves.inContexts_of_kfree proper))
  refine ⟨?_, ?_, ?_, ?_, fun j => ?_⟩
  · obtain ⟨number, tally⟩ := opened.files
    exact ⟨_, tally_after (fun ctx _ => ctx) tally (Int.sub_add_cancel ..)⟩
  · refine tally_after (fun ctx stage => stage.inReaders ctx) opened.readers ?_
    rw [readers, ← inReaders, Int.add_assoc]
  · refine tally_after (fun ctx stage => stage.inWriters ctx) opened.writers ?_
    rw [writers, ← inWriters, Int.add_assoc]
  · refine tally_after (fun ctx stage => stage.inContexts ctx) opened.contexts ?_
    rw [contexts there, ← inContexts, Int.add_assoc]
  · rw [ctx_after, after_pc, stage_wake]
    rcases eq_or_ne j i with rfl | other
    · rw [if_pos rfl, if_pos rfl]
      exact moves.proper proper
    · rw [if_neg other, if_neg other]
      exact opened.proper j

theorem opened_of_run [KernelMemory] {trace : List (State ι × (ι × Choice))} {s : State ι}
    (run : Run Step m2mInit trace s) (disciplined : ∀ step ∈ trace, Disciplined step.1 step.2) :
    Opened s :=
  (run.always_of_guard Opened Disciplined opened_init
    (fun _ _ _ opened disciplined stepped => opened.step disciplined stepped) disciplined).1

omit [DecidableEq ι] in
/-- A file that is counted is open. -/
theorem Opened.ctx_of_counted {s : State ι} (opened : Opened s) {i : ι}
    (counted : (s.client i).inReaders = true ∨ (s.client i).inWriters = true) :
    (s.client i).ctx = true := by
  have proper := opened.proper i
  unfold Client.inReaders Client.inWriters at counted
  generalize (s.client i).pc.stage = stage at counted proper
  cases stage with
  | opening pc => cases pc <;> simp_all [Stage.inReaders, Stage.inWriters, Stage.Proper]
  | releasing pc => cases pc <;> simp_all [Stage.inReaders, Stage.inWriters, Stage.Proper]
  | elsewhere => simpa [Stage.inReaders, Stage.inWriters] using counted

/-- What the two counters are, for the set of open files. -/
structure OpenCounts (s : State ι) (files : Finset ι) : Prop where
  open_iff : ∀ i, i ∈ files ↔ (s.client i).ctx = true
  readers : s.dev.readers = (files.filter fun i => (s.client i).inReaders).card
  writers : s.dev.writers = (files.filter fun i => (s.client i).inWriters).card
  /-- While no file is being opened or released. -/
  settled : (∀ i, (s.client i).pc.stage = .elsewhere) →
    s.dev.readers = files.card ∧ s.dev.writers = files.card ∧ s.contexts = files.card

omit [DecidableEq ι] in
theorem Opened.counts {s : State ι} (opened : Opened s) : ∃ files, OpenCounts s files := by
  obtain ⟨number, files, members, -⟩ := opened.files
  refine ⟨files, members, opened.readers.eq_card fun i => ?_, opened.writers.eq_card fun i => ?_,
    fun settled => ?_⟩
  · rw [Finset.mem_filter, members, and_iff_right_of_imp]
    exact fun counted => opened.ctx_of_counted (.inl counted)
  · rw [Finset.mem_filter, members, and_iff_right_of_imp]
    exact fun counted => opened.ctx_of_counted (.inr counted)
  · refine ⟨opened.readers.eq_card fun i => ?_, opened.writers.eq_card fun i => ?_,
      Int.natCast_inj.mp (opened.contexts.eq_card fun i => ?_)⟩
    · rw [members, Client.inReaders, settled i]
      rfl
    · rw [members, Client.inWriters, settled i]
      rfl
    · rw [members, Client.inContexts, settled i]
      rfl

/-- **`readers` and `writers` count the open files.** After any interleaving of the statements of
calls, of which none opens an open file and none but `m2m_open` is on a closed file, finitely
many files are open, `readers` is the number of those that are counted in it, an open file
being counted from the `atomic_inc` of its `m2m_open` to the `atomic_dec` of its `m2m_release`,
and so is `writers`. While no file is being opened or released, both are the number of open files
and each has its `struct client_ctx`. -/
theorem open_counts [KernelMemory] {trace : List (State ι × (ι × Choice))} {s : State ι}
    (run : Run Step m2mInit trace s) (disciplined : ∀ step ∈ trace, Disciplined step.1 step.2) :
    ∃ files, OpenCounts s files :=
  (opened_of_run run disciplined).counts

/-- One client opens its file, and the other comes to the point between its two increments. -/
def halfOpen (i j : ι) : List (ι × Choice) := alone i .m2mOpen 5 ++ alone j .m2mOpen 3

theorem open_counts_halfOpen :
    ∃ s : State (Fin 2), s.dev.readers = 2 ∧ s.dev.writers = 1 ∧ ∃ files, OpenCounts s files := by
  obtain ⟨s, ran⟩ := Option.isSome_iff_exists.mp
    (show (runSchedule (halfOpen (0 : Fin 2) 1) m2mInit).isSome from rfl)
  have run := run_of_runSchedule ran
  have counters : s.dev.readers = 2 ∧ s.dev.writers = 1 := by
    cases ran
    exact ⟨rfl, rfl⟩
  have disciplined : ∀ p ∈ scheduleTrace (halfOpen (0 : Fin 2) 1), Disciplined p.1 p.2 := by
    decide +kernel
  exact ⟨s, counters.1, counters.2, open_counts run disciplined⟩

end OsLab.MessageQueue
