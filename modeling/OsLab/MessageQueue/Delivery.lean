import OsLab.Foundation.Histories
import OsLab.MessageQueue.Protocol

/-!
# Delivery in order, without loss or duplication

Two histories are kept: the messages in the order of `list_add_tail`, and the messages
in the order of `list_del` with the read that took them. The invariant `Delivered` says

* the first history is the second followed by the list;
* no call adds two entries to either history, because a call that has not changed the
  list has a number no entry has;
* what a client carries through its phases is the message of its own call, and what
  a call returned tells what it did.

`Delivered.step` is the step lemma and `fifo_delivery` the result on the code.
-/

set_option autoImplicit false

namespace OsLab.MessageQueue

open OsLab.Foundation

variable {ι : Type}

/-- In a call that has not changed the list. -/
def Phase.pending : Phase ι → Bool
  | .calling _ | .inspecting _ | .trying _ | .testing _ | .denied _ | .granted _ | .admitted _
  | .hollow _ | .allocated _ | .faulted _ | .stripped _ | .filled _ _ | .linking _ _ => true
  | _ => false

/-! ## What a call did -/

section Results

variable (appended : List (Msg ι)) (dequeued : List (Taken ι)) (i : ι) (number : Nat)

/-- What the result of call `number` of client `i` tells: a positive result of a write
is the count, and a message with its bytes was appended. A result of a read that is
not negative is the number of bytes delivered from a message it took. -/
def Result : Call → Int → List UInt8 → Prop
  | .m2mWrite a, ret, _ => 0 < ret → ret = a.count ∧ msgAlloc i number a ∈ appended
  | .m2mRead a, ret, delivered => 0 ≤ ret →
      ∃ m, ⟨i, number, m⟩ ∈ dequeued ∧ ret = (min a.count m.len : Nat) ∧
        delivered = m.data.take (min a.count m.len)
  | _, _, _ => True

/-- What a client carries through its phases. -/
def Carries : Phase ι → Prop
  | .filled a m | .linking a m => m = msgAlloc i number a
  | .linked a m | .counted a m | .announcing a m => m = msgAlloc i number a ∧ m ∈ appended
  | .unlinked _ m | .uncounted _ m | .taken _ m => ⟨i, number, m⟩ ∈ dequeued
  | .copied a _ ret delivered | .emptied a _ ret delivered | .freed a _ ret delivered =>
      Result appended dequeued i number (.m2mRead a) ret delivered
  | .returning c ret delivered => Result appended dequeued i number c ret delivered
  | _ => True

variable {appended dequeued i number}

theorem Carries.of_refused {c : Call} {ret : Int} {delivered : List UInt8}
    (refused : c.Refused ret) :
    Carries appended dequeued i number (.returning c ret delivered) := by
  cases c with
  | m2mRead a => exact fun positive => absurd refused (Int.not_lt.mpr positive)
  | m2mWrite a => exact fun positive => absurd positive (Int.not_lt.mpr refused)
  | _ => trivial

theorem Result.mono {appended' : List (Msg ι)} {dequeued' : List (Taken ι)} {c : Call}
    {ret : Int} {delivered : List UInt8} (more : appended ⊆ appended')
    (more' : dequeued ⊆ dequeued') (result : Result appended dequeued i number c ret delivered) :
    Result appended' dequeued' i number c ret delivered := by
  cases c with
  | m2mRead a =>
      intro positive
      obtain ⟨m, taken, facts⟩ := result positive
      exact ⟨m, more' taken, facts⟩
  | m2mWrite a =>
      intro positive
      obtain ⟨count, member⟩ := result positive
      exact ⟨count, more member⟩
  | _ => trivial

theorem Carries.mono {appended' : List (Msg ι)} {dequeued' : List (Taken ι)} {p : Phase ι}
    (more : appended ⊆ appended') (more' : dequeued ⊆ dequeued')
    (carries : Carries appended dequeued i number p) :
    Carries appended' dequeued' i number p := by
  cases p with
  | linked | counted | announcing => exact ⟨carries.1, more carries.2⟩
  | unlinked | uncounted | taken => exact more' carries
  | copied a _ ret delivered | emptied a _ ret delivered | freed a _ ret delivered =>
      exact Result.mono (c := .m2mRead a) more more' carries
  | returning => exact Result.mono more more' carries
  | _ => exact carries

variable {p p' : Phase ι}

theorem Quiet.carries (moves : Quiet i number p p')
    (carries : Carries appended dequeued i number p) :
    Carries appended dequeued i number p' := by
  cases moves with
  | refuse c ret refused => exact .of_refused refused
  | giveUp a ret refused => exact .of_refused refused
  | noMemory a => exact .of_refused (show -enomem ≤ 0 by decide)
  | fill a => rfl
  | announce a m =>
      intro _
      exact ⟨rfl, carries.1 ▸ carries.2⟩
  | copy a m =>
      intro _
      exact ⟨m, carries, rfl, rfl⟩
  | copyFault a m => exact .of_refused (c := .m2mRead a) (show -efault < 0 by decide)
  | announceRoom => exact carries
  | again | enter | retry | inspect | deny | noData | fault => trivial

theorem Acquire.carries (moves : Acquire p p')
    (carries : Carries appended dequeued i number p) :
    Carries appended dequeued i number p' := by
  cases moves with
  | link a m => exact carries
  | inspect | test => trivial

theorem Release.carries (moves : Release p p')
    (carries : Carries appended dequeued i number p) :
    Carries appended dequeued i number p' := by
  cases moves with
  | refuse c ret refused => exact .of_refused refused
  | announce | take => exact carries
  | again | deny | passed => trivial

theorem Kfree.carries {bytes : Nat} (moves : Kfree p bytes p')
    (carries : Carries appended dequeued i number p) :
    Carries appended dequeued i number p' := by
  cases moves with
  | fault a => trivial
  | message => exact carries

theorem KfreeMsg.carries (moves : KfreeMsg p p')
    (carries : Carries appended dequeued i number p) :
    Carries appended dequeued i number p' := by
  cases moves with
  | refuse a ret refused => exact .of_refused refused
  | message => exact carries

end Results

/-! ## The invariant -/

namespace Protocol

/-- What the histories, the list and the clients tell about each other. -/
structure Delivered (s : Protocol ι) : Prop where
  fifo : s.appended = s.dequeued.map Taken.msg ++ s.msgList
  writes : Numbered Msg.writer Msg.call s.appended
  reads : Numbered Taken.reader Taken.call s.dequeued
  freshWrites : Fresh Msg.writer Msg.call s.calls (Phase.pending ∘ s.phase) s.appended
  freshReads : Fresh Taken.reader Taken.call s.calls (Phase.pending ∘ s.phase) s.dequeued
  complete : ∀ m ∈ s.appended, m.data.length = m.len
  carried : ∀ i, Carries s.appended s.dequeued i (s.calls i) (s.phase i)
  kept : ∀ r ∈ s.returned,
    Result s.appended s.dequeued r.client r.number r.call r.ret r.delivered

theorem delivered_init : (init : Protocol ι).Delivered where
  fifo := rfl
  writes := .nil
  reads := .nil
  freshWrites := nofun
  freshReads := nofun
  complete := nofun
  carried _ := trivial
  kept := nofun

variable [DecidableEq ι] {s t : Protocol ι} {i : ι}

theorem Step.grows (stepped : Step s i t) :
    s.appended ⊆ t.appended ∧ s.dequeued ⊆ t.dequeued := by
  cases stepped with
  | link phase => exact ⟨List.subset_append_left .., List.Subset.refl _⟩
  | unlink phase first => exact ⟨List.Subset.refl _, List.subset_append_left ..⟩
  | _ => exact ⟨List.Subset.refl _, List.Subset.refl _⟩

theorem Step.calls_other {j : ι} (stepped : Step s i t) (other : j ≠ i) :
    t.calls j = s.calls j := by
  cases stepped with
  | begin => exact Function.update_of_ne other ..
  | _ => rfl

/-- A call is pending from its beginning to its change of the list. -/
theorem Step.pending_cases (stepped : Step s i t) :
    (t.calls = Function.update s.calls i (s.calls i + 1)) ∨
    (t.calls = s.calls ∧ ((t.phase i).pending = true → (s.phase i).pending = true)) := by
  cases stepped with
  | begin => exact .inl rfl
  | quiet moves | acquire _ moves | release moves | kfree moves | kfreeMsg moves =>
      refine .inr ⟨rfl, ?_⟩
      simp only [move_phase, Function.update_self]
      generalize s.phase i = p at moves
      cases moves <;> simp [Phase.pending]
  | grant phase | kmallocMsg phase | kmalloc phase | link phase | count phase | unlink phase
  | uncount phase | finish phase => exact .inr ⟨rfl, by simp [phase, Phase.pending]⟩

/-- A step that makes no entry keeps a history fresh. -/
theorem Step.fresh {α : Type} {author : α → ι} {number : α → Nat} {history : List α}
    (stepped : Step s i t)
    (fresh : Fresh author number s.calls (Phase.pending ∘ s.phase) history) :
    Fresh author number t.calls (Phase.pending ∘ t.phase) history := by
  rcases stepped.pending_cases with calls | ⟨calls, pending⟩
  · rw [calls]
    refine fresh.advance i fun j other => ?_
    simp only [Function.comp_apply, stepped.phase_other other]
  · rw [calls]
    refine fresh.mono fun j waits => ?_
    rcases eq_or_ne j i with rfl | other
    · exact pending waits
    · rwa [Function.comp_apply, ← stepped.phase_other other]

namespace Delivered

theorem step_fifo (delivered : s.Delivered) (stepped : Step s i t) :
    t.appended = t.dequeued.map Taken.msg ++ t.msgList := by
  have before := delivered.fifo
  cases stepped with
  | link phase => simp [before]
  | unlink phase first => simp [before, first]
  | _ => exact before

theorem step_carried (delivered : s.Delivered) (stepped : Step s i t) (j : ι) :
    Carries t.appended t.dequeued j (t.calls j) (t.phase j) := by
  have before := delivered.carried j
  rcases eq_or_ne j i with rfl | other
  · cases stepped with
    | quiet moves => simpa using moves.carries before
    | acquire _ moves => simpa using moves.carries before
    | release moves => simpa using moves.carries before
    | kfree moves => simpa using moves.carries before
    | kfreeMsg moves => simpa using moves.carries before
    | link phase =>
        rw [phase] at before
        simp [Carries, show _ = _ from before]
    | unlink phase first => simp [Carries]
    | count phase | uncount phase =>
        rw [phase] at before
        simpa [Carries] using before
    | begin | grant | kmallocMsg | kmalloc | finish => simp [Carries]
  · obtain ⟨more, more'⟩ := stepped.grows
    rw [stepped.phase_other other, stepped.calls_other other]
    exact before.mono more more'

theorem step_kept (delivered : s.Delivered) (stepped : Step s i t) :
    ∀ r ∈ t.returned, Result t.appended t.dequeued r.client r.number r.call r.ret r.delivered := by
  obtain ⟨more, more'⟩ := stepped.grows
  have before : ∀ r ∈ s.returned,
      Result t.appended t.dequeued r.client r.number r.call r.ret r.delivered :=
    fun r member => (delivered.kept r member).mono more more'
  cases stepped with
  | finish phase =>
      have carried := delivered.carried i
      rw [phase] at carried
      intro r member
      rcases List.mem_append.mp member with old | new
      · exact before r old
      · cases List.mem_singleton.mp new
        exact carried
  | _ => exact before

theorem step_writes (delivered : s.Delivered) (stepped : Step s i t) :
    Numbered Msg.writer Msg.call t.appended ∧
      Fresh Msg.writer Msg.call t.calls (Phase.pending ∘ t.phase) t.appended ∧
      ∀ m ∈ t.appended, m.data.length = m.len := by
  have fresh := stepped.fresh delivered.freshWrites
  cases stepped with
  | link phase =>
      have carried := delivered.carried i
      rw [phase] at carried
      cases carried
      refine ⟨delivered.writes.record delivered.freshWrites ?_ rfl, ?_, ?_⟩
      · simp [msgAlloc, phase, Phase.pending]
      · refine delivered.freshWrites.record ?_ ?_ rfl
        · simp [msgAlloc, Phase.pending]
        · intro j other
          simp [Function.update_of_ne (show j ≠ i from other)]
      · intro m member
        rcases List.mem_append.mp member with old | new
        · exact delivered.complete m old
        · cases List.mem_singleton.mp new
          simp [msgAlloc, WriteArgs.bytes]
  | _ => exact ⟨delivered.writes, fresh, delivered.complete⟩

theorem step_reads (delivered : s.Delivered) (stepped : Step s i t) :
    Numbered Taken.reader Taken.call t.dequeued ∧
      Fresh Taken.reader Taken.call t.calls (Phase.pending ∘ t.phase) t.dequeued := by
  have fresh := stepped.fresh delivered.freshReads
  cases stepped with
  | unlink phase first =>
      refine ⟨delivered.reads.record delivered.freshReads ?_ rfl, ?_⟩
      · simp [phase, Phase.pending]
      · refine delivered.freshReads.record ?_ ?_ rfl
        · simp [Phase.pending]
        · intro j other
          simp [Function.update_of_ne (show j ≠ i from other)]
  | _ => exact ⟨delivered.reads, fresh⟩

/-- **A step keeps the histories.** -/
theorem step (delivered : s.Delivered) (stepped : Step s i t) : t.Delivered where
  fifo := delivered.step_fifo stepped
  writes := (delivered.step_writes stepped).1
  reads := (delivered.step_reads stepped).1
  freshWrites := (delivered.step_writes stepped).2.1
  freshReads := (delivered.step_reads stepped).2
  complete := (delivered.step_writes stepped).2.2
  carried := delivered.step_carried stepped
  kept := delivered.step_kept stepped

end Delivered

end Protocol

/-! ## The result on the code -/

variable [DecidableEq ι]

theorem delivered_of_reachable [KernelMemory] {s : State ι} (reached : ReachableState s) :
    s.protocol.Delivered :=
  (protocol_reachable reached).invariant Protocol.Delivered Protocol.delivered_init
    fun _ _ _ before stepped => before.step stepped

/-- **Delivery in order, without loss or duplication.** In every reachable state the
messages appended are the messages dequeued followed by the list. No message is dequeued
twice, and those of one writer are dequeued in the order of its calls. A write that
returned a positive result returned its count and appended exactly one message, with its
bytes. A read that returned `n ≥ 0` took exactly one message and delivered its first
`n = min(count, len)` bytes. -/
theorem fifo_delivery [KernelMemory] {s : State ι} (reached : ReachableState s) :
    s.appended = s.dequeued.map Taken.msg ++ s.dev.msgList ∧
    (s.dequeued.map fun t => (t.msg.writer, t.msg.call)).Nodup ∧
    (s.dequeued.Pairwise fun t t' => t.msg.writer = t'.msg.writer → t.msg.call < t'.msg.call) ∧
    (∀ r ∈ s.returned, ∀ a, r.call = .m2mWrite a → 0 < r.ret →
      r.ret = a.count ∧
      s.appended.filter (fun m => m.writer = r.client ∧ m.call = r.number) =
        [⟨a.count, a.bytes, r.client, r.number⟩]) ∧
    (∀ r ∈ s.returned, ∀ a, r.call = .m2mRead a → 0 ≤ r.ret →
      ∃ m, s.dequeued.filter (fun t => t.reader = r.client ∧ t.call = r.number) =
          [⟨r.client, r.number, m⟩] ∧
        r.ret = (min a.count m.len : Nat) ∧ r.delivered = m.data.take (min a.count m.len) ∧
        r.delivered.length = min a.count m.len) := by
  have delivered := delivered_of_reachable reached
  have fifo : s.appended = s.dequeued.map Taken.msg ++ s.dev.msgList := delivered.fifo
  have writes : Numbered Msg.writer Msg.call s.appended := delivered.writes
  have ordered : Numbered Msg.writer Msg.call (s.dequeued.map Taken.msg) := by
    rw [fifo] at writes
    exact (List.pairwise_append.mp writes).1
  refine ⟨fifo, ?_, List.pairwise_map.mp ordered, ?_, ?_⟩
  · simpa [List.map_map, Function.comp_def] using ordered.keys_nodup
  · intro r member a call positive
    have result := delivered.kept r member
    rw [call] at result
    obtain ⟨count, appended⟩ := result positive
    exact ⟨count, writes.filter_eq_singleton appended⟩
  · intro r member a call positive
    have result := delivered.kept r member
    rw [call] at result
    obtain ⟨m, taken, count, bytes⟩ := result positive
    have complete : m.data.length = m.len := by
      refine delivered.complete m ?_
      rw [delivered.fifo]
      exact List.mem_append_left _ (List.mem_map_of_mem taken)
    refine ⟨m, delivered.reads.filter_eq_singleton taken, count, bytes, ?_⟩
    rw [bytes, List.length_take, complete]
    omega

/-- Client 0 writes three bytes and client 1 reads two of them. -/
theorem fifo_delivery_one_message :
    ∃ s : State (Fin 2), s.returned.map (fun r => (r.client, r.ret)) = [(0, 3), (1, 2)] ∧
      s.dequeued.length = 1 ∧ s.appended = s.dequeued.map Taken.msg ++ s.dev.msgList := by
  obtain ⟨s, ran⟩ := Option.isSome_iff_exists.mp
    (show (runSchedule (alone (0 : Fin 2) (.m2mWrite ⟨false, 3, fun _ => 7⟩) 13 ++
      alone 1 (.m2mRead ⟨false, 2⟩) 11) m2mInit).isSome from rfl)
  have delivery := (fifo_delivery (reachable_of_runSchedule .refl ran)).1
  have results : s.returned.map (fun r => (r.client, r.ret)) = [(0, 3), (1, 2)] := by
    cases ran
    rfl
  have one : s.dequeued.length = 1 := by
    cases ran
    rfl
  exact ⟨s, results, one, delivery⟩

end OsLab.MessageQueue
