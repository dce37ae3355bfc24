import OsLab.MessageQueue.Accounting
import OsLab.MessageQueue.Delivery
import OsLab.MessageQueue.Input

/-!
# From the keyboard of a writer to the screen of a reader

Every step of the system is a call a program makes, a statement inside a call, or the program
going on with the result (`Turn`), on the device seen as the protocol. `Talking` is the
invariant of one client: it is in the call its program is at, the messages a writer has in the
history of the device are the strings of its successful writes, what a reader printed for its
successful reads are messages it took, in order, and it has taken no more than its results
tell.

`texts_delivered` says this of the code, and `quit_is_never_typed` what follows for the end of
a reader.
-/

set_option autoImplicit false

namespace OsLab.MessageQueue

open OsLab.Foundation

variable {ι : Type}

/-! ## What a client is doing -/

/-- The call a client is in. -/
def Phase.call : Phase ι → Option Call
  | .idle => none
  | .calling c | .inspecting c | .returning c _ _ => some c
  | .trying a | .testing a | .denied a | .granted a | .admitted a | .hollow a | .allocated a
  | .faulted a | .stripped a | .filled a _ | .linking a _ | .linked a _ | .counted a _
  | .announcing a _ => some (.m2mWrite a)
  | .unlinked a _ | .uncounted a _ | .taken a _ | .copied a _ _ _ | .emptied a _ _ _
  | .freed a _ _ _ => some (.m2mRead a)

/-- The write of the client has appended its message. -/
def Phase.landed : Phase ι → Bool
  | .linked _ _ | .counted _ _ | .announcing _ _ => true
  | .returning (.m2mWrite _) ret _ => 0 < ret
  | _ => false

/-- The message the client has taken and its program has not seen. -/
def Phase.arriving : Phase ι → List (List UInt8)
  | .unlinked _ m | .uncounted _ m | .taken _ m => [m.data]
  | .copied _ _ ret delivered | .emptied _ _ ret delivered | .freed _ _ ret delivered
  | .returning (.m2mRead _) ret delivered => if ret < 0 then [] else [delivered]
  | _ => []

/-- The result of a read that took a message. -/
abbrev Took (ret : Int) : Prop := 0 ≤ ret ∨ ret = -efault

/-- The number of messages the client has taken and its program has no result for. A refused
read is not known to fail in another way than the copy, so this is an upper bound. -/
def Phase.taking : Phase ι → Nat
  | .unlinked _ _ | .uncounted _ _ | .taken _ _ => 1
  | .copied _ _ ret _ | .emptied _ _ ret _ | .freed _ _ ret _ | .returning (.m2mRead _) ret _ =>
      if Took ret then 1 else 0
  | _ => 0

@[simp] theorem Phase.landed_idle : (Phase.idle : Phase ι).landed = false := rfl

@[simp] theorem Phase.arriving_idle : (Phase.idle : Phase ι).arriving = [] := rfl

@[simp] theorem Phase.taking_idle : (Phase.idle : Phase ι).taking = 0 := rfl

variable [DecidableEq ι]

/-- The messages of client `i` in the history of the device. -/
def Protocol.sent (s : Protocol ι) (i : ι) : List (List UInt8) :=
  (s.appended.filter fun m => m.writer = i).map Msg.data

/-- The messages client `i` has taken. -/
def Protocol.got (s : Protocol ι) (i : ι) : List (List UInt8) :=
  (s.dequeued.filter fun t => t.reader = i).map fun t => t.msg.data

/-! ## Steps of the system -/

/-- A step of the device and the programs. -/
inductive Turn (s : Protocol ι) (proc : ι → Proc) (i : ι) : Protocol ι → (ι → Proc) → Prop where
  | call (c : Call) (idle : s.phase i = .idle) (next : (proc i).call = some c) :
      Turn s proc i
        ({ s with calls := Function.update s.calls i (s.calls i + 1) }.move i (.calling c)) proc
  | inside {t : Protocol ι} (stepped : Protocol.Step s i t) (busy : s.phase i ≠ .idle)
      (running : ∀ c ret delivered, s.phase i ≠ .returning c ret delivered) : Turn s proc i t proc
  | result {c : Call} {ret : Int} {delivered : List UInt8}
      (phase : s.phase i = .returning c ret delivered) :
      Turn s proc i
        ({ s with
            returned := s.returned ++ [(⟨i, s.calls i, c, ret, delivered⟩ : Returned ι)]
          }.move i .idle)
        (Function.update proc i ((proc i).resume ret delivered))

omit [DecidableEq ι] in
theorem phase_ne_of_running {pc : Pc ι} (idle : pc ≠ .idle)
    (running : ∀ c ret delivered, pc ≠ .returning c ret delivered) :
    pc.phase ≠ .idle ∧ ∀ c ret delivered, pc.phase ≠ .returning c ret delivered := by
  cases pc with
  | idle => exact absurd rfl idle
  | returning c ret delivered => exact absurd rfl (running c ret delivered)
  | reading a pc => cases pc <;> simp [Pc.phase, ReadPc.phase]
  | writing a pc => cases pc <;> simp [Pc.phase, WritePc.phase]
  | polling pc => cases pc <;> simp [Pc.phase, PollPc.phase]
  | _ => simp [Pc.phase]

theorem turn_of_step [KernelMemory] {s t : System ι} {i : ι} {choice : Choice}
    (moved : s.step i choice = some t) :
    Turn s.device.protocol s.proc i t.device.protocol t.proc := by
  unfold System.step at moved
  cases position : (s.device.client i).pc with
  | idle =>
      simp only [position] at moved
      cases next : (s.proc i).call with
      | none => simp [next] at moved
      | some c =>
          simp only [next, Option.map_eq_some_iff] at moved
          obtain ⟨device, called, rfl⟩ := moved
          simp only [MessageQueue.step, MessageQueue.next, position, Option.some.injEq] at called
          subst called
          rw [protocol_after, phase_entry]
          exact .call c (protocol_phase position) next
  | returning c ret delivered =>
      simp only [position, Option.map_eq_some_iff] at moved
      obtain ⟨device, returned, rfl⟩ := moved
      cases choice <;>
        simp only [MessageQueue.step, MessageQueue.next, position, Option.some.injEq,
          reduceCtorEq] at returned
      subst returned
      rw [protocol_after]
      have update : (fun j => if j = i then (s.proc i).resume ret delivered else s.proc j) =
          Function.update s.proc i ((s.proc i).resume ret delivered) := by
        funext j
        simp [Function.update_apply]
      rw [update]
      exact .result (protocol_phase position)
  | _ =>
      simp only [position, Option.map_eq_some_iff] at moved
      obtain ⟨device, stepped, rfl⟩ := moved
      have idle : (s.device.client i).pc ≠ .idle := by simp [position]
      have unended : ∀ c ret delivered, (s.device.client i).pc ≠ .returning c ret delivered := by
        simp [position]
      obtain ⟨busy, running⟩ := phase_ne_of_running idle unended
      exact .inside (protocol_step stepped) busy running

/-! ## Inside a call -/

section Moves

variable {i : ι} {number : Nat} {p p' : Phase ι}

omit [DecidableEq ι] in
theorem Quiet.call_eq (moves : Quiet i number p p') : p'.call = p.call := by
  cases moves <;> rfl

omit [DecidableEq ι] in
theorem Call.Refused.not_landed {c : Call} {ret : Int} (refused : c.Refused ret) :
    (Phase.returning c ret [] : Phase ι).landed = false := by
  cases c with
  | m2mWrite a => exact decide_eq_false (Int.not_lt.mpr refused)
  | _ => rfl

omit [DecidableEq ι] in
theorem Call.Refused.arriving {c : Call} {ret : Int} (refused : c.Refused ret) :
    (Phase.returning c ret [] : Phase ι).arriving = [] := by
  cases c with
  | m2mRead a => exact if_pos refused
  | _ => rfl

omit [DecidableEq ι] in
/-- A write that has appended its message returns a positive result, the others do not. -/
theorem Quiet.landed_eq {appended : List (Msg ι)} {dequeued : List (Taken ι)}
    (moves : Quiet i number p p') (sized : p.Sized)
    (carries : Carries appended dequeued i number p) : p'.landed = p.landed := by
  cases moves with
  | refuse c ret refused => exact refused.not_landed
  | giveUp a ret refused => exact decide_eq_false (Int.not_lt.mpr refused)
  | announce a m =>
      have positive : 1 ≤ a.count := by
        have permitted : Permitted m.len := sized
        rw [carries.1] at permitted
        exact permitted.1
      exact decide_eq_true (Int.natCast_pos.mpr positive)
  | _ => rfl

omit [DecidableEq ι] in
/-- A read hands over the message it took, or nothing. -/
theorem Quiet.arriving_sublist (moves : Quiet i number p p')
    (whole : ∀ a m, p = .taken a m → m.data.take (min a.count m.len) = m.data) :
    p'.arriving.Sublist p.arriving := by
  cases moves with
  | refuse c ret refused =>
      rw [refused.arriving]
      exact List.nil_sublist _
  | copy a m =>
      have positive : ¬ ((min a.count m.len : Nat) : Int) < 0 := by omega
      simp only [Phase.arriving, positive, if_false, whole a m rfl]
      exact List.Sublist.refl _
  | copyFault a m => exact List.nil_sublist _
  | _ => exact List.Sublist.refl _

omit [DecidableEq ι] in
/-- The read that took a message has a result that tells it. -/
theorem Quiet.taking_le (moves : Quiet i number p p') : p.taking ≤ p'.taking := by
  cases moves with
  | copy a m =>
      have told : Took (min a.count m.len : Nat) := .inl (Int.natCast_nonneg _)
      simp only [Phase.taking, told, if_true]
      exact Nat.le_refl 1
  | _ => first | exact Nat.le_refl _ | exact Nat.zero_le _

end Moves

namespace Protocol

variable {s t : Protocol ι} {i : ι}

theorem Step.call_eq (stepped : Step s i t) (busy : s.phase i ≠ .idle)
    (running : ∀ c ret delivered, s.phase i ≠ .returning c ret delivered) :
    (t.phase i).call = (s.phase i).call := by
  cases stepped with
  | begin c phase => exact absurd phase busy
  | finish phase => exact absurd phase (running _ _ _)
  | quiet moves =>
      rw [move_phase, Function.update_self]
      exact moves.call_eq
  | acquire _ moves | release moves | kfree moves | kfreeMsg moves =>
      rw [move_phase, Function.update_self]
      generalize s.phase i = p at moves
      cases moves <;> rfl
  | grant phase | kmallocMsg phase | kmalloc phase | link phase | count phase | unlink phase
  | uncount phase =>
      rw [move_phase, Function.update_self, phase]
      rfl

/-- What a step adds to the messages of its client. -/
theorem Step.sent_landed (stepped : Step s i t) (accounted : s.Accounted)
    (delivered : s.Delivered) (busy : s.phase i ≠ .idle)
    (running : ∀ c ret delivered, s.phase i ≠ .returning c ret delivered) :
    (t.sent i = s.sent i ∧ (t.phase i).landed = (s.phase i).landed) ∨
      ∃ a, (s.phase i).call = some (.m2mWrite a) ∧ t.sent i = s.sent i ++ [a.bytes] ∧
        (s.phase i).landed = false ∧ (t.phase i).landed = true := by
  have sized := accounted.sized i
  have carried := delivered.carried i
  cases stepped with
  | begin c phase => exact absurd phase busy
  | finish phase => exact absurd phase (running _ _ _)
  | quiet moves =>
      refine .inl ⟨rfl, ?_⟩
      rw [move_phase, Function.update_self]
      exact moves.landed_eq sized carried
  | acquire _ moves | kfree moves =>
      refine .inl ⟨rfl, ?_⟩
      rw [move_phase, Function.update_self]
      generalize s.phase i = p at moves
      cases moves <;> rfl
  | release moves =>
      refine .inl ⟨rfl, ?_⟩
      rw [move_phase, Function.update_self]
      generalize s.phase i = p at moves
      cases moves with
      | refuse c ret refused => exact refused.not_landed
      | _ => rfl
  | kfreeMsg moves =>
      refine .inl ⟨rfl, ?_⟩
      rw [move_phase, Function.update_self]
      generalize s.phase i = p at moves
      cases moves with
      | refuse a ret refused => exact decide_eq_false (Int.not_lt.mpr refused)
      | message => rfl
  | link phase =>
      rw [phase] at carried
      obtain rfl := carried
      refine .inr ⟨_, by rw [phase]; rfl, ?_, by rw [phase]; rfl, ?_⟩
      · simp [Protocol.sent, msgAlloc]
      · simp [Phase.landed]
  | grant phase | kmallocMsg phase | kmalloc phase | count phase | unlink phase
  | uncount phase =>
      refine .inl ⟨rfl, ?_⟩
      rw [move_phase, Function.update_self, phase]
      rfl

theorem Step.sent_other (stepped : Step s i t) (delivered : s.Delivered) {j : ι}
    (other : j ≠ i) : t.sent j = s.sent j := by
  have carried := delivered.carried i
  cases stepped with
  | link phase =>
      rw [phase] at carried
      obtain rfl := carried
      simp [Protocol.sent, msgAlloc, other.symm]
  | _ => rfl

theorem Step.got_other (stepped : Step s i t) {j : ι} (other : j ≠ i) : t.got j = s.got j := by
  cases stepped with
  | unlink phase first => simp [Protocol.got, other.symm]
  | _ => rfl

/-- What a step adds to the messages its client has taken. -/
theorem Step.got_arriving (stepped : Step s i t) (busy : s.phase i ≠ .idle)
    (running : ∀ c ret delivered, s.phase i ≠ .returning c ret delivered)
    (whole : ∀ a m, s.phase i = .taken a m → m.data.take (min a.count m.len) = m.data) :
    (t.got i = s.got i ∧ (t.phase i).arriving.Sublist (s.phase i).arriving) ∨
      ∃ text, t.got i = s.got i ++ [text] ∧ (s.phase i).arriving = [] ∧
        (t.phase i).arriving = [text] := by
  cases stepped with
  | begin c phase => exact absurd phase busy
  | finish phase => exact absurd phase (running _ _ _)
  | quiet moves =>
      refine .inl ⟨rfl, ?_⟩
      rw [move_phase, Function.update_self]
      exact moves.arriving_sublist whole
  | acquire _ moves | kfree moves | kfreeMsg moves =>
      refine .inl ⟨rfl, ?_⟩
      rw [move_phase, Function.update_self]
      generalize s.phase i = p at moves
      cases moves <;> exact List.Sublist.refl _
  | release moves =>
      refine .inl ⟨rfl, ?_⟩
      rw [move_phase, Function.update_self]
      generalize s.phase i = p at moves
      cases moves with
      | refuse c ret refused =>
          rw [refused.arriving]
          exact List.nil_sublist _
      | _ => exact List.Sublist.refl _
  | @unlink a m rest phase first =>
      refine .inr ⟨m.data, by simp [Protocol.got], by rw [phase]; rfl, ?_⟩
      simp [Phase.arriving]
  | grant phase | kmallocMsg phase | kmalloc phase | link phase | count phase
  | uncount phase =>
      refine .inl ⟨rfl, ?_⟩
      rw [move_phase, Function.update_self, phase]
      exact List.Sublist.refl _

/-- A step counts the message its client takes. -/
theorem Step.got_taking (stepped : Step s i t) (busy : s.phase i ≠ .idle)
    (running : ∀ c ret delivered, s.phase i ≠ .returning c ret delivered) :
    (t.got i).length + (s.phase i).taking ≤ (s.got i).length + (t.phase i).taking := by
  cases stepped with
  | begin c phase => exact absurd phase busy
  | finish phase => exact absurd phase (running _ _ _)
  | quiet moves =>
      rw [move_phase, Function.update_self]
      exact Nat.add_le_add_left moves.taking_le _
  | acquire _ moves | release moves | kfree moves | kfreeMsg moves =>
      rw [move_phase, Function.update_self]
      refine Nat.add_le_add_left ?_ _
      generalize s.phase i = p at moves
      cases moves <;> first | exact Nat.le_refl _ | exact Nat.zero_le _
  | unlink phase first =>
      rw [move_phase, Function.update_self, phase]
      simp [Protocol.got, Phase.taking]
  | grant phase | kmallocMsg phase | kmalloc phase | link phase | count phase
  | uncount phase =>
      rw [move_phase, Function.update_self, phase]
      exact Nat.le_refl _

end Protocol

/-! ## Between two calls -/

/-- The strings a writer has sent: those of its successful writes. -/
def Proc.sent (p : Proc) : List (List UInt8) := (p.written.filter fun w => 0 < w.2).map Prod.fst

/-- What a reader has shown: what it printed for its successful reads. -/
def Proc.shown (p : Proc) : List (List UInt8) := (p.printed.filter fun r => 0 ≤ r.2).map Prod.fst

/-- The number of reads that took a message. -/
def Proc.took (p : Proc) : Nat := p.printed.countP fun r => Took r.2

omit [DecidableEq ι] in
/-- A write counts as sent when its result is positive. -/
theorem sent_resume {p : Proc} {c : Call} (asks : p.call = some c) (ret : Int)
    (delivered : List UInt8) :
    (p.resume ret delivered).sent =
      p.sent ++ if (Phase.returning c ret delivered : Phase ι).landed then p.writing else [] := by
  by_cases restarted : ret = -erestartsys
  · subst restarted
    have lost : (Phase.returning c (-erestartsys) delivered : Phase ι).landed = false := by
      cases c <;> rfl
    rw [lost]
    simp [Proc.resume]
  · cases p with
    | writeLoop stdin buffer written =>
        cases asks
        simp only [Proc.resume, restarted, if_false]
        by_cases positive : 0 < ret
        · simp [Proc.sent, Proc.written, Phase.landed, Proc.writing, positive]
        · simp [Proc.sent, Proc.written, Phase.landed, positive]
    | writeOpen _ _ | readOpen =>
        cases asks
        simp only [Proc.resume, restarted, if_false]
        split <;> rfl
    | readLoop printed =>
        cases asks
        simp only [Proc.resume, restarted, if_false]
        generalize (if ret < 0 then [] else cString delivered) = num
        split <;> rfl
    | readClose printed =>
        cases asks
        simp only [Proc.resume, restarted, if_false]
        rfl
    | writeFailed | readEnd => cases asks

/-- A reader prints once for every result of a read. -/
theorem printed_resume {p : Proc} {c : Call} (asks : p.call = some c) (ret : Int)
    (delivered : List UInt8) :
    (∃ a, c = .m2mRead a ∧ (p.resume ret delivered).printed =
        p.printed ++ [(if ret < 0 then [] else cString delivered, ret)]) ∨
      (ret = -erestartsys ∨ ∀ a, c ≠ .m2mRead a) ∧
        (p.resume ret delivered).printed = p.printed := by
  by_cases restarted : ret = -erestartsys
  · refine .inr ⟨.inl restarted, ?_⟩
    simp only [Proc.resume, restarted, if_true]
  · cases p with
    | readLoop printed =>
        cases asks
        refine .inl ⟨_, rfl, ?_⟩
        simp only [Proc.resume, restarted, if_false]
        generalize (if ret < 0 then [] else cString delivered) = num
        split <;> rfl
    | writeOpen _ _ | readOpen =>
        cases asks
        refine .inr ⟨.inr fun _ => Call.noConfusion, ?_⟩
        simp only [Proc.resume, restarted, if_false]
        split <;> rfl
    | writeLoop _ _ _ | readClose _ =>
        cases asks
        refine .inr ⟨.inr fun _ => Call.noConfusion, ?_⟩
        simp only [Proc.resume, restarted, if_false]
        rfl
    | writeFailed | readEnd => cases asks

omit [DecidableEq ι] in
/-- A call that is made again, or is no read, takes nothing. -/
theorem nothing_taken {c : Call} {ret : Int} (delivered : List UInt8)
    (none : ret = -erestartsys ∨ ∀ a, c ≠ .m2mRead a) :
    (Phase.returning c ret delivered : Phase ι).arriving = [] ∧
      (Phase.returning c ret delivered : Phase ι).taking = 0 := by
  rcases none with rfl | other
  · cases c <;> exact ⟨rfl, rfl⟩
  · cases c with
    | m2mRead a => exact absurd rfl (other a)
    | _ => exact ⟨rfl, rfl⟩

omit [DecidableEq ι] in
/-- A successful read shows what it was given. -/
theorem shown_resume {p : Proc} {c : Call} (asks : p.call = some c) {ret : Int}
    {delivered : List UInt8}
    (clean : ∀ text ∈ (Phase.returning c ret delivered : Phase ι).arriving, 0 ∉ text) :
    (p.resume ret delivered).shown =
      p.shown ++ (Phase.returning c ret delivered : Phase ι).arriving := by
  rcases printed_resume asks ret delivered with ⟨a, rfl, longer⟩ | ⟨none, same⟩
  · rw [Proc.shown, longer]
    by_cases failed : ret < 0
    · simp [Proc.shown, Phase.arriving, failed, not_le.mpr failed]
    · have noNul : 0 ∉ delivered := by
        refine clean delivered ?_
        simp [Phase.arriving, failed]
      simp [Proc.shown, Phase.arriving, failed, not_lt.mp failed, cString_eq_self noNul]
  · rw [Proc.shown, same, (nothing_taken delivered none).1, List.append_nil, Proc.shown]

omit [DecidableEq ι] in
theorem took_resume {p : Proc} {c : Call} (asks : p.call = some c) (ret : Int)
    (delivered : List UInt8) :
    (p.resume ret delivered).took =
      p.took + (Phase.returning c ret delivered : Phase ι).taking := by
  rcases printed_resume asks ret delivered with ⟨a, rfl, longer⟩ | ⟨none, same⟩
  · rw [Proc.took, longer, List.countP_append, List.countP_singleton]
    simp [Proc.took, Phase.taking]
  · rw [Proc.took, same, (nothing_taken delivered none).2, Nat.add_zero, Proc.took]

/-! ## The invariant -/

/-- What the device and one client tell about each other, with the messages the client has in
the history and those it has taken. -/
structure Talking (program : Program) (phase : Phase ι) (sent got : List (List UInt8))
    (p : Proc) : Prop where
  follows : Follows program p
  asked : phase = .idle ∨ phase.call = p.call
  sent : sent = p.sent ++ if phase.landed then p.writing else []
  shown : (p.shown ++ phase.arriving).Sublist got
  took : got.length ≤ p.took + phase.taking

/-- All clients. -/
def Conversing (programs : ι → Program) (s : Protocol ι) (proc : ι → Proc) : Prop :=
  ∀ i, Talking (programs i) (s.phase i) (s.sent i) (s.got i) (proc i)

theorem Follows.said {program : Program} {p : Proc} (follows : Follows program p)
    {text : List UInt8} (member : text ∈ p.sent ∨ text ∈ p.writing) :
    ∃ k, text = program.text k := by
  cases program with
  | write stdin buffer =>
      cases p with
      | writeLoop rest line written =>
          obtain ⟨said, -⟩ := follows
          have among : text ∈ written.map Prod.fst ++ [line.bytes] := by
            rcases member with old | new
            · obtain ⟨entry, inside, rfl⟩ := List.mem_map.mp old
              exact List.mem_append_left _ (List.mem_map_of_mem (List.mem_of_mem_filter inside))
            · exact List.mem_append_right _ new
          rw [said] at among
          obtain ⟨k, -, same⟩ := List.mem_map.mp among
          exact ⟨k, same.symm⟩
      | _ => simp [Proc.sent, Proc.written, Proc.writing] at member
  | read =>
      cases p with
      | writeLoop rest line written => exact follows.elim
      | _ => simp [Proc.sent, Proc.written, Proc.writing] at member

/-- The reads of the programs. -/
theorem read_args {p : Proc} {a : ReadArgs} (asks : p.call = some (.m2mRead a)) :
    a = ⟨false, bufferSize⟩ := by
  cases p <;> cases asks
  rfl

/-- The writes of the programs. -/
theorem write_args {p : Proc} {a : WriteArgs} (asks : p.call = some (.m2mWrite a)) :
    p.writing = [a.bytes] := by
  cases p with
  | writeLoop stdin buffer written =>
      cases asks
      have same : buffer.args.bytes = buffer.bytes := by
        refine List.ext_getElem (by simp [WriteArgs.bytes, Buffer.args]) fun k _ inside => ?_
        simp [WriteArgs.bytes, Buffer.args, inside]
      rw [same]
      rfl
  | _ => cases asks

namespace Conversing

variable {programs : ι → Program} {s t : Protocol ι} {proc proc' : ι → Proc} {i : ι}

/-- Every message is a string its writer wrote. -/
theorem text_of_appended (conversing : Conversing programs s proc) {m : Msg ι}
    (member : m ∈ s.appended) : ∃ k, m.data = (programs m.writer).text k := by
  have sent : m.data ∈ s.sent m.writer :=
    List.mem_map_of_mem (List.mem_filter.mpr ⟨member, by simp⟩)
  rw [(conversing m.writer).sent, List.mem_append] at sent
  refine (conversing m.writer).follows.said (sent.imp_right fun landing => ?_)
  split at landing
  · exact landing
  · cases landing

theorem text_of_got (conversing : Conversing programs s proc) (delivered : s.Delivered)
    {text : List UInt8} (member : text ∈ s.got i) : ∃ j k, text = (programs j).text k := by
  obtain ⟨entry, inside, rfl⟩ := List.mem_map.mp member
  have appended : entry.msg ∈ s.appended := by
    rw [delivered.fifo]
    exact List.mem_append_left _ (List.mem_map_of_mem (List.mem_of_mem_filter inside))
  obtain ⟨k, same⟩ := conversing.text_of_appended appended
  exact ⟨_, k, same⟩

/-- A read has room for the whole message. -/
theorem whole (conversing : Conversing programs s proc) (delivered : s.Delivered) {a : ReadArgs}
    {m : Msg ι} (phase : s.phase i = .taken a m) :
    m.data.take (min a.count m.len) = m.data := by
  have asked := (conversing i).asked.resolve_left (by simp [phase])
  rw [phase] at asked
  obtain rfl := read_args asked.symm
  have taken := delivered.carried i
  rw [phase] at taken
  have appended : m ∈ s.appended := by
    rw [delivered.fifo]
    exact List.mem_append_left _ (List.mem_map_of_mem taken)
  obtain ⟨k, same⟩ := conversing.text_of_appended appended
  have short := (text_string (programs m.writer) k).2
  rw [← same] at short
  have complete := delivered.complete m appended
  refine List.take_of_length_le ?_
  simp only
  omega

/-- A step that changes nothing for the other clients. -/
theorem of_client (conversing : Conversing programs s proc) (i : ι)
    (others : ∀ j, j ≠ i →
      t.phase j = s.phase j ∧ t.sent j = s.sent j ∧ t.got j = s.got j ∧ proc' j = proc j)
    (client : Talking (programs i) (t.phase i) (t.sent i) (t.got i) (proc' i)) :
    Conversing programs t proc' := by
  intro j
  rcases eq_or_ne j i with rfl | other
  · exact client
  · obtain ⟨phase, sent, got, same⟩ := others j other
    rw [phase, sent, got, same]
    exact conversing j

theorem call (conversing : Conversing programs s proc) {c : Call} (idle : s.phase i = .idle)
    (next : (proc i).call = some c) :
    Conversing programs
      ({ s with calls := Function.update s.calls i (s.calls i + 1) }.move i (.calling c))
      proc := by
  have before := conversing i
  rw [idle] at before
  refine conversing.of_client i (fun j other => ⟨?_, rfl, rfl, rfl⟩) ?_
  · rw [Protocol.move_phase, Function.update_of_ne other]
  · rw [Protocol.move_phase, Function.update_self]
    exact ⟨before.follows, .inr next.symm, before.sent, before.shown, before.took⟩

theorem inside (conversing : Conversing programs s proc) (accounted : s.Accounted)
    (delivered : s.Delivered) (stepped : Protocol.Step s i t) (busy : s.phase i ≠ .idle)
    (running : ∀ c ret delivered, s.phase i ≠ .returning c ret delivered) :
    Conversing programs t proc := by
  have before := conversing i
  have asked := before.asked.resolve_left busy
  refine conversing.of_client i (fun j other => ⟨stepped.phase_other other,
    stepped.sent_other delivered other, stepped.got_other other, rfl⟩) ?_
  refine ⟨before.follows, .inr ((stepped.call_eq busy running).trans asked), ?_, ?_, ?_⟩
  · rcases stepped.sent_landed accounted delivered busy running with
      ⟨same, landed⟩ | ⟨a, call, more, pending, landed⟩
    · rw [same, landed]
      exact before.sent
    · rw [call] at asked
      rw [more, before.sent, pending, landed, write_args asked.symm]
      simp
  · have shown := before.shown
    rcases stepped.got_arriving busy running fun a m => conversing.whole delivered with
      ⟨same, less⟩ | ⟨text, more, nothing, arriving⟩
    · rw [same]
      exact ((List.Sublist.refl _).append less).trans shown
    · rw [nothing, List.append_nil] at shown
      rw [more, arriving]
      exact shown.append (List.Sublist.refl _)
  · have took := before.took
    have counted := stepped.got_taking busy running
    omega

theorem result (conversing : Conversing programs s proc) (delivered : s.Delivered) {c : Call}
    {ret : Int} {bytes : List UInt8} (phase : s.phase i = .returning c ret bytes) :
    Conversing programs
      ({ s with
          returned := s.returned ++ [(⟨i, s.calls i, c, ret, bytes⟩ : Returned ι)]
        }.move i .idle)
      (Function.update proc i ((proc i).resume ret bytes)) := by
  have before := conversing i
  rw [phase] at before
  have asks : (proc i).call = some c := (before.asked.resolve_left (by simp)).symm
  have clean : ∀ text ∈ (Phase.returning c ret bytes : Phase ι).arriving, 0 ∉ text := by
    intro text member
    have got := before.shown.subset (List.mem_append_right _ member)
    obtain ⟨j, k, rfl⟩ := conversing.text_of_got delivered got
    exact (text_string (programs j) k).1
  refine conversing.of_client i (fun j other => ⟨?_, rfl, rfl, ?_⟩) ?_
  · rw [Protocol.move_phase, Function.update_of_ne other]
  · rw [Function.update_of_ne other]
  · rw [Protocol.move_phase, Function.update_self, Function.update_self]
    refine ⟨before.follows.resume ret bytes, .inl rfl, ?_, ?_, ?_⟩
    · rw [sent_resume asks ret bytes, Phase.landed_idle, if_neg Bool.false_ne_true,
        List.append_nil]
      exact before.sent
    · rw [shown_resume asks clean, Phase.arriving_idle, List.append_nil]
      exact before.shown
    · rw [took_resume asks, Phase.taking_idle]
      exact before.took

/-- **Every step keeps the invariant.** -/
theorem turn (conversing : Conversing programs s proc) (accounted : s.Accounted)
    (delivered : s.Delivered) (turn : Turn s proc i t proc') : Conversing programs t proc' := by
  cases turn with
  | call c idle next => exact conversing.call idle next
  | inside stepped busy running => exact conversing.inside accounted delivered stepped busy running
  | result phase => exact conversing.result delivered phase

theorem shown_sublist (conversing : Conversing programs s proc) (i : ι) :
    (proc i).shown.Sublist (s.got i) :=
  (List.sublist_append_left _ _).trans (conversing i).shown

/-- A reader between two calls whose reads never failed to copy has shown all it took. -/
theorem shown_eq (conversing : Conversing programs s proc) (idle : s.phase i = .idle)
    (unharmed : ∀ r ∈ (proc i).printed, r.2 ≠ -efault) : (proc i).shown = s.got i := by
  have took : (proc i).took = (proc i).shown.length := by
    rw [Proc.took, Proc.shown, List.length_map, ← List.countP_eq_length_filter]
    refine List.countP_congr fun r member => ?_
    simp [unharmed r member]
  refine (conversing.shown_sublist i).eq_of_length_le ?_
  have counted := (conversing i).took
  rwa [idle, Phase.taking_idle, took] at counted

theorem start (programs : ι → Program) :
    Conversing programs Protocol.init fun i => (programs i).start := by
  intro i
  cases program : programs i with
  | write stdin buffer | read =>
      simp only [program]
      exact ⟨.start _, .inl rfl, rfl, List.Sublist.refl _, Nat.zero_le _⟩

end Conversing

/-! ## The result on the code -/

section System

variable [KernelMemory]

/-- A step of the system is a step of the device. -/
theorem device_step {s t : System ι} {a : ι × Choice} (stepped : System.Step s a t) :
    ∃ b, MessageQueue.Step s.device b t.device := by
  unfold System.Step System.step at stepped
  split at stepped
  · split at stepped
    · cases stepped
    · obtain ⟨device, called, rfl⟩ := Option.map_eq_some_iff.mp stepped
      exact ⟨(a.1, .call _), called⟩
  · obtain ⟨device, returned, rfl⟩ := Option.map_eq_some_iff.mp stepped
    exact ⟨(a.1, a.2), returned⟩
  · obtain ⟨device, moved, rfl⟩ := Option.map_eq_some_iff.mp stepped
    exact ⟨(a.1, a.2), moved⟩

theorem device_reachable {programs : ι → Program} {s : System ι}
    (reached : System.ReachableState programs s) : ReachableState s.device :=
  reached.simulated System.device fun _ _ _ => device_step

theorem conversing_of_reachable {programs : ι → Program} {s : System ι}
    (reached : System.ReachableState programs s) :
    Conversing programs s.device.protocol s.proc := by
  refine (reached.invariant (fun s => ReachableState s.device ∧
    Conversing programs s.device.protocol s.proc) ⟨.refl, .start programs⟩ ?_).2
  intro s a t before stepped
  obtain ⟨reached, conversing⟩ := before
  obtain ⟨b, moved⟩ := device_step stepped
  exact ⟨reached.next moved, conversing.turn (accounted_of_reachable reached)
    (delivered_of_reachable reached) (turn_of_step stepped)⟩

end System

theorem Follows.texts {program : Program} {p : Proc} (follows : Follows program p) :
    ∃ n, p.written.map Prod.fst ++ p.writing = (List.range n).map program.text := by
  cases program with
  | write stdin buffer =>
      cases p with
      | writeLoop rest line written => exact ⟨_, follows.1⟩
      | _ => exact ⟨0, rfl⟩
  | read =>
      cases p with
      | writeLoop rest line written => exact follows.elim
      | _ => exact ⟨0, rfl⟩

/-- **From the writers to the readers.** In every reachable state of the programs on the
device: a writer has passed the first texts of its program to `write`, one after the other;
its messages are the strings of its successful writes, and at most the one it is at; the
messages were dequeued in the order they were appended; and what a reader printed for its
successful reads are messages it took, whole and in order. Between two calls it is all of
them, if no read failed to copy. -/
theorem texts_delivered [KernelMemory] {programs : ι → Program} {s : System ι}
    (reached : System.ReachableState programs s) :
    (∀ j, ∃ n, (s.proc j).written.map Prod.fst ++ (s.proc j).writing =
      (List.range n).map (programs j).text) ∧
    (∀ j, ∃ current, current <+: (s.proc j).writing ∧
      (s.device.appended.filter fun m => m.writer = j).map Msg.data =
        (s.proc j).sent ++ current) ∧
    s.device.appended = s.device.dequeued.map Taken.msg ++ s.device.dev.msgList ∧
    ∀ i, (s.proc i).shown.Sublist
        ((s.device.dequeued.filter fun t => t.reader = i).map fun t => t.msg.data) ∧
      ((s.device.client i).pc = .idle → (∀ r ∈ (s.proc i).printed, r.2 ≠ -efault) →
        (s.proc i).shown =
          (s.device.dequeued.filter fun t => t.reader = i).map fun t => t.msg.data) := by
  have conversing := conversing_of_reachable reached
  have delivered := delivered_of_reachable (device_reachable reached)
  refine ⟨fun j => (conversing j).follows.texts, fun j => ⟨_, ?_, (conversing j).sent⟩,
    delivered.fifo, fun i => ⟨?_, fun idle unharmed => ?_⟩⟩
  · split
    · exact List.prefix_rfl
    · exact List.nil_prefix
  · exact conversing.shown_sublist i
  · exact conversing.shown_eq (protocol_phase idle) unharmed

/-- Client 0 types `"quit"` and a newline, client 1 reads. -/
def typedQuit : Fin 2 → Program
  | 0 => .write (quit ++ [newline]) ⟨[], List.not_mem_nil, by decide⟩
  | 1 => .read

omit [DecidableEq ι] in
/-- A write and then a read, to the end of the calls. -/
def writeThenRead (writer reader : ι) : List (ι × Choice) :=
  List.replicate 20 (writer, .go) ++ List.replicate 18 (reader, .go)

theorem texts_delivered_one_line :
    ∃ s : System (Fin 2), (s.proc 1).shown = [quit ++ [newline]] ∧
      (s.device.appended.filter fun m => m.writer = 0).map Msg.data = [quit ++ [newline]] ∧
      (s.proc 1).shown =
        (s.device.dequeued.filter fun t => t.reader = 1).map fun t => t.msg.data := by
  obtain ⟨s, ran⟩ := Option.isSome_iff_exists.mp
    (show (replay (fun (s : System (Fin 2)) a => s.step a.1 a.2) (writeThenRead 0 1)
      (System.start typedQuit)).isSome from rfl)
  have delivery := ((texts_delivered (Reachable.refl.replay ran)).2.2.2 1).2
  have shown : (s.proc 1).shown = [quit ++ [newline]] := by
    cases ran
    rfl
  have sent : (s.device.appended.filter fun m => m.writer = 0).map Msg.data =
      [quit ++ [newline]] := by
    cases ran
    rfl
  have idle : (s.device.client 1).pc = .idle := by
    cases ran
    rfl
  have unharmed : ∀ r ∈ (s.proc 1).printed, r.2 ≠ -efault := by
    cases ran
    decide
  exact ⟨s, shown, sent, delivery idle unharmed⟩

/-- A reader that came to its `close` printed a text of a writer that is `"quit"`. -/
theorem quit_of_printed [KernelMemory] {programs : ι → Program} {s : System ι}
    (reached : System.ReachableState programs s) {i : ι} {before : List (List UInt8 × Int)}
    {ret : Int} (printed : (s.proc i).printed = before ++ [(quit, ret)]) (given : 0 ≤ ret) :
    ∃ j k, quit = (programs j).text k := by
  have conversing := conversing_of_reachable reached
  have delivered := delivered_of_reachable (device_reachable reached)
  have among : quit ∈ (s.proc i).shown := by
    refine List.mem_map.mpr ⟨(quit, ret), List.mem_filter.mpr ⟨?_, decide_eq_true given⟩, rfl⟩
    rw [printed]
    exact List.mem_append_right _ (List.mem_singleton.mpr rfl)
  exact conversing.text_of_got delivered
    ((conversing.shown_sublist i).subset among)

end OsLab.MessageQueue
