import OsLab.Globalvar.Bounds

/-!
# The bytes that come out are the bytes that went in

The accepted bytes are a log that the buffer holds in a circle: byte `m` is in the cell
`m % MAXNUM`, from the first byte that was not returned on. `rd` and `wr` are the cells of
the next byte to return and of the next byte to accept.

That fails where `rd == wr`. A read takes this for a full ring and a write for an empty
one. `globalvar_read` relies on the flag, which is no count of the bytes and is tested
outside of the section, and `globalvar_write` leaves no byte free when it fills the buffer
up to `end` from `rd == buffer`.

`TellsApart` is the condition on a statement: no read copies out of an empty ring and no
write copies into a full one. In the runs that meet it the returned bytes are a prefix of
the accepted ones (`stream_of_tellsApart`), and the first statement that breaks it breaks the
stream (`overread_of_empty`, `overwrite_of_full`). Both ways to fail exist
(`unwritten_bytes_returned` and `unread_bytes_overwritten`).
-/

set_option autoImplicit false

namespace OsLab.Globalvar

open OsLab.Foundation

variable {ι : Type}

/-! ## Fill levels -/

section Levels

variable {accepted returned : Nat}

/-- What a read of a ring that is not empty takes is unread. -/
theorem contiguous_le (started : returned < accepted) (fits : accepted ≤ returned + maxNum) :
    contiguous (returned % maxNum) (accepted % maxNum) ≤ accepted - returned := by
  unfold contiguous maxNum at *
  split <;> omega

/-- What a write into a ring that is not full fills is free. -/
theorem vacant_le (started : returned ≤ accepted) (fits : accepted < returned + maxNum) :
    accepted + vacant (returned % maxNum) (accepted % maxNum) ≤ returned + maxNum := by
  unfold vacant maxNum at *
  split <;> omega

theorem contiguous_inside {rd : Nat} (wr : Nat) (rdInside : rd ≤ maxNum) (wrInside : wr ≤ maxNum) :
    rd + contiguous rd wr ≤ maxNum := by
  unfold contiguous
  split <;> omega

theorem vacant_inside (rd : Nat) {wr : Nat} (rdInside : rd ≤ maxNum) (wrInside : wr ≤ maxNum) :
    wr + vacant rd wr ≤ maxNum := by
  unfold vacant
  split <;> omega

/-- The wrap takes the pointer modulo `MAXNUM`. -/
theorem wrapped_eq {offset count : Nat} (atMost : offset ≤ maxNum)
    (cell : offset % maxNum = count % maxNum) : wrapped offset = count % maxNum := by
  unfold wrapped
  unfold maxNum at *
  split <;> omega

end Levels

/-! ## What the holder knows -/

/-- The stream so far: what was returned was accepted, and what is unread is in the buffer. -/
structure Ring.Streams (r : Ring) : Prop where
  delivered : r.returned <+: r.accepted
  held : Held maxNum r.buffer r.accepted r.returned.length
  buffer : r.buffer.length = maxNum + 1

/-- Both pointers are at their cells. -/
structure Ring.Settled (r : Ring) : Prop extends r.Streams where
  rd : r.rd = r.returned.length % maxNum
  wr : r.wr = r.accepted.length % maxNum

/-- What is known of the stream at a position inside a section. -/
def Pc.Knows (pc : Pc) (r : Ring) : Prop :=
  match pc with
  | .reading len (.copy n) => r.Settled ∧ n = min len (contiguous r.rd r.wr)
  | .reading _ (.advance n data) =>
      r.Settled ∧ data = (r.accepted.drop r.returned.length).take n ∧
        r.returned.length + n ≤ r.accepted.length ∧ r.rd + n ≤ maxNum
  | .reading _ (.wrap _) =>
      r.Streams ∧ r.rd ≤ maxNum ∧ r.rd % maxNum = r.returned.length % maxNum ∧
        r.wr = r.accepted.length % maxNum
  | .writing len _ (.copy n) => r.Settled ∧ n = min len (vacant r.rd r.wr)
  | .writing _ _ (.advance n data) =>
      r.Settled ∧ Held maxNum r.buffer (r.accepted ++ data) r.returned.length ∧
        data.length = n ∧ r.wr + n ≤ maxNum
  | .writing _ _ (.wrap _) =>
      r.Streams ∧ r.wr ≤ maxNum ∧ r.wr % maxNum = r.accepted.length % maxNum ∧
        r.rd = r.returned.length % maxNum
  | _ => r.Settled

/-- The condition on a statement: a read with a length does not copy while no byte is
unread, and a write with a length does not copy while `MAXNUM` bytes are unread. -/
def TellsApart (s : State ι) (a : ι × Choice) : Prop :=
  match s.pc a.1, a.2 with
  | .reading len (.copy _), .go => len = 0 ∨ s.returned.length < s.accepted.length
  | .writing len _ (.copy _), _ => len = 0 ∨ s.accepted.length < s.returned.length + maxNum
  | _, _ => True

instance (s : State ι) (a : ι × Choice) : Decidable (TellsApart s a) := by
  unfold TellsApart
  split <;> infer_instance

namespace Ring.Settled

variable {r : Ring}

theorem inBounds (settled : r.Settled) : r.InBounds where
  rd := by
    rw [settled.rd]
    exact Nat.mod_lt _ (by decide)
  wr := by
    rw [settled.wr]
    exact Nat.mod_lt _ (by decide)
  buffer := settled.buffer

/-- A read that does not take an empty ring for a full one gets the next bytes. -/
theorem read (settled : r.Settled) {len n : Nat} (clipped : n = min len (contiguous r.rd r.wr))
    (some : len = 0 ∨ r.returned.length < r.accepted.length) :
    (r.buffer.drop r.rd).take n = (r.accepted.drop r.returned.length).take n ∧
      r.returned.length + n ≤ r.accepted.length ∧ r.rd + n ≤ maxNum := by
  have bounds := settled.inBounds
  have inside := contiguous_inside r.wr bounds.rd.le bounds.wr.le
  have enough : r.returned.length + n ≤ r.accepted.length := by
    rcases some with zero | unread
    · have := settled.held.started
      omega
    · have := contiguous_le unread settled.held.fits
      rw [← settled.rd, ← settled.wr] at this
      omega
  refine ⟨?_, enough, by omega⟩
  rw [settled.rd]
  exact settled.held.block enough (by rw [← settled.rd]; omega)

/-- A write that does not take a full ring for an empty one overwrites nothing unread,
whatever bytes it stores. -/
theorem store (settled : r.Settled) {len : Nat} {data : List UInt8}
    (clipped : data.length = min len (vacant r.rd r.wr))
    (room : len = 0 ∨ r.accepted.length < r.returned.length + maxNum) :
    Held maxNum (putAll r.buffer r.wr data) (r.accepted ++ data) r.returned.length ∧
      r.wr + data.length ≤ maxNum := by
  have bounds := settled.inBounds
  have inside := vacant_inside r.rd bounds.rd.le bounds.wr.le
  have fits : r.accepted.length + data.length ≤ r.returned.length + maxNum := by
    rcases room with zero | free
    · have := settled.held.fits
      omega
    · have := vacant_le settled.held.started free
      rw [← settled.rd, ← settled.wr] at this
      omega
  refine ⟨?_, by omega⟩
  rw [settled.wr]
  refine settled.held.pushAll data fits ?_ ?_
  · rw [settled.buffer]
    omega
  · rw [← settled.wr]
    omega

/-- The ring after a store that is not counted. -/
theorem unchanged (settled : r.Settled) {data : List UInt8}
    (held : Held maxNum (putAll r.buffer r.wr data) (r.accepted ++ data) r.returned.length) :
    ((Effect.store data).onRing r).Settled where
  delivered := settled.delivered
  held := held.truncate settled.held.started
  buffer := (putAll_length ..).trans settled.buffer
  rd := settled.rd
  wr := settled.wr

/-- `rd` moves over bytes that were unread. -/
theorem deliver (settled : r.Settled) (len : Nat) {n : Nat}
    (enough : r.returned.length + n ≤ r.accepted.length) (inside : r.rd + n ≤ maxNum) :
    (Pc.reading len (.wrap n)).Knows
      ((Effect.advanceRd n ((r.accepted.drop r.returned.length).take n)).onRing r) := by
  have start := List.prefix_iff_eq_take.mp settled.delivered
  have taken : r.returned ++ (r.accepted.drop r.returned.length).take n =
      r.accepted.take (r.returned.length + n) := by
    rw [List.take_add, ← start]
  have more : (r.accepted.take (r.returned.length + n)).length = r.returned.length + n := by
    rw [List.length_take, Nat.min_eq_left enough]
  simp only [Pc.Knows, Effect.onRing, taken, more]
  refine ⟨⟨List.take_prefix .., ?_, settled.buffer⟩, inside, ?_, settled.wr⟩
  · simp only [more]
    exact settled.held.release (Nat.le_add_right ..) enough
  · rw [settled.rd, Nat.mod_add_mod]

/-- `wr` moves over bytes that were stored. -/
theorem accept (settled : r.Settled) (len : Nat) (buf : Nat → UInt8) {n : Nat} {data : List UInt8}
    (held : Held maxNum r.buffer (r.accepted ++ data) r.returned.length)
    (whole : data.length = n) (inside : r.wr + n ≤ maxNum) :
    (Pc.writing len buf (.wrap n)).Knows ((Effect.advanceWr n data).onRing r) := by
  refine ⟨⟨settled.delivered.trans (List.prefix_append ..), held, settled.buffer⟩, inside, ?_,
    settled.rd⟩
  simp only [Effect.onRing]
  rw [List.length_append, whole, settled.wr, Nat.mod_add_mod]

end Ring.Settled

/-! ## One statement -/

theorem globalvarReadNext_knows {s : State ι} {a : ι × Choice} {len : Nat} {pc : ReadPc}
    {effect : Effect} {pc' : Pc} (apart : TellsApart s a) (position : s.pc a.1 = .reading len pc)
    (decided : globalvarReadNext s.dev len pc a.2 = some (effect, pc'))
    (knows : (Pc.reading len pc).Knows s.ring) : pc'.Knows (effect.onRing s.ring) := by
  obtain ⟨i, choice⟩ := a
  cases pc with
  | wait w =>
      simp only [globalvarReadNext] at decided
      split at decided
      · cases decided
      · split at decided <;> cases decided <;> exact knows
  | down =>
      cases choice <;> simp only [globalvarReadNext, reduceCtorEq] at decided <;>
        split at decided <;> cases decided <;> exact knows
  | clip =>
      cases choice <;> cases decided
      have settled : s.ring.Settled := knows
      have bounds := settled.inBounds
      exact ⟨settled, readLen_eq len bounds.rd.le bounds.wr.le⟩
  | copy n =>
      obtain ⟨settled, clipped⟩ := knows
      cases choice with
      | go =>
          cases decided
          have unread : len = 0 ∨ s.returned.length < s.accepted.length := by
            simpa only [TellsApart, position] using apart
          exact ⟨settled, settled.read clipped unread⟩
      | fault done =>
          simp only [globalvarReadNext] at decided
          split at decided <;> cases decided
          exact settled
      | _ => cases decided
  | advance n data =>
      cases choice <;> cases decided
      obtain ⟨settled, rfl, enough, inside⟩ := knows
      exact settled.deliver len enough inside
  | wrap n =>
      cases choice <;> cases decided
      obtain ⟨streams, atMost, cell, wr⟩ := knows
      exact ⟨⟨streams.delivered, streams.held, streams.buffer⟩, wrapped_eq atMost cell, wr⟩
  | clearFlag | upFault | up =>
      cases choice <;> cases decided
      exact knows

theorem globalvarWriteNext_knows {s : State ι} {a : ι × Choice} {len : Nat} {buf : Nat → UInt8}
    {pc : WritePc} {effect : Effect} {pc' : Pc} (apart : TellsApart s a)
    (position : s.pc a.1 = .writing len buf pc)
    (decided : globalvarWriteNext s.dev len buf pc a.2 = some (effect, pc'))
    (knows : (Pc.writing len buf pc).Knows s.ring) : pc'.Knows (effect.onRing s.ring) := by
  obtain ⟨i, choice⟩ := a
  cases pc with
  | down =>
      cases choice <;> simp only [globalvarWriteNext, reduceCtorEq] at decided <;>
        split at decided <;> cases decided <;> exact knows
  | clip =>
      cases choice <;> cases decided
      have settled : s.ring.Settled := knows
      have bounds := settled.inBounds
      exact ⟨settled, writeLen_eq len bounds.rd.le bounds.wr.le⟩
  | copy n =>
      obtain ⟨settled, clipped⟩ := knows
      have room : len = 0 ∨ s.accepted.length < s.returned.length + maxNum := by
        simpa only [TellsApart, position] using apart
      cases choice with
      | go =>
          cases decided
          have length := userBytes_length n buf
          obtain ⟨held, inside⟩ := settled.store (length.trans clipped) room
          rw [length] at inside
          exact ⟨settled.unchanged held, held, length, inside⟩
      | fault done =>
          simp only [globalvarWriteNext] at decided
          split at decided
          · rename_i partly
            cases decided
            have length : (faultBytes n done buf).length = n := by
              rw [faultBytes, List.length_append, userBytes_length, List.length_replicate]
              omega
            exact settled.unchanged (settled.store (length.trans clipped) room).1
          · cases decided
      | _ => cases decided
  | advance n data =>
      cases choice <;> cases decided
      obtain ⟨settled, held, whole, inside⟩ := knows
      exact settled.accept len buf held whole inside
  | wrap n =>
      cases choice <;> cases decided
      obtain ⟨streams, atMost, cell, rd⟩ := knows
      exact ⟨⟨streams.delivered, streams.held, streams.buffer⟩, rd, wrapped_eq atMost cell⟩
  | upFault | up | setFlag | wake =>
      cases choice <;> cases decided
      exact knows

theorem knows_outside {pc : Pc} {r : Ring} (outside : pc.inside = false) :
    pc.Knows r ↔ r.Settled := by
  cases pc with
  | reading len rpc => cases rpc <;> first | exact Iff.rfl | cases outside
  | writing len buf wpc => cases wpc <;> first | exact Iff.rfl | cases outside
  | _ => exact Iff.rfl

theorem knows_rule : SectionRule Ring.Settled Pc.Knows (TellsApart (ι := ι)) where
  outside := knows_outside
  reads apart position decided knows := globalvarReadNext_knows apart position decided knows
  writes apart position decided knows := globalvarWriteNext_knows apart position decided knows

theorem settled_init : (globalvarInit : State ι).ring.Settled where
  delivered := List.prefix_rfl
  held := Held.nil
  buffer := inBounds_init.buffer
  rd := rfl
  wr := rfl

/-- Every position knows the stream. -/
theorem Pc.Knows.streams {pc : Pc} {r : Ring} (knows : pc.Knows r) : r.Streams := by
  cases pc with
  | reading len rpc =>
      cases rpc with
      | copy | advance => exact knows.1.toStreams
      | wrap => exact knows.1
      | _ => exact Ring.Settled.toStreams knows
  | writing len buf wpc =>
      cases wpc with
      | copy | advance => exact knows.1.toStreams
      | wrap => exact knows.1
      | _ => exact Ring.Settled.toStreams knows
  | _ => exact Ring.Settled.toStreams knows

/-! ## The result -/

/-- A byte stream: the returned bytes are a prefix of the accepted ones, and the unread
bytes are in the buffer. -/
structure State.IsStream (s : State ι) : Prop where
  delivered : s.returned <+: s.accepted
  unread : ∀ m, s.returned.length ≤ m → m < s.accepted.length →
    s.dev.buffer[m % maxNum]? = s.accepted[m]?

theorem Holding.isStream {s : State ι} (holding : Holding Ring.Settled Pc.Knows s) : s.IsStream := by
  have streams : s.ring.Streams := by
    cases sem : s.dev.sem with
    | none => exact (holding.free sem).toStreams
    | some i => exact (holding.held i sem).streams
  exact ⟨streams.delivered, streams.held.stored⟩

variable [DecidableEq ι]

section Condition

variable {trace : List (State ι × (ι × Choice))} {s : State ι} {i : ι}

theorem holding_of_tellsApart (run : Run Step globalvarInit trace s)
    (apart : ∀ p ∈ trace, TellsApart p.1 p.2) :
    Holding Ring.Settled Pc.Knows s ∧ ∀ p ∈ trace, Holding Ring.Settled Pc.Knows p.1 :=
  run.always_of_guard (Holding Ring.Settled Pc.Knows) TellsApart (Holding.init settled_init)
    (fun _ _ _ holding apart stepped => knows_rule.step holding apart stepped) apart

/-- What the client inside a section knows after such a run. -/
theorem knows_of_tellsApart (run : Run Step globalvarInit trace s)
    (apart : ∀ p ∈ trace, TellsApart p.1 p.2) {pc : Pc} (position : s.pc i = pc)
    (inside : pc.inside = true) : pc.Knows s.ring := by
  have holding := (holding_of_tellsApart run apart).1
  subst position
  exact holding.held i ((holding.exclusive i).mp inside)

/-- **The ring is a FIFO byte stream where no read copies out of an empty ring and no write
into a full one.** -/
theorem stream_of_tellsApart (run : Run Step globalvarInit trace s)
    (apart : ∀ p ∈ trace, TellsApart p.1 p.2) : s.IsStream ∧ ∀ p ∈ trace, p.1.IsStream := by
  obtain ⟨last, earlier⟩ := holding_of_tellsApart run apart
  exact ⟨last.isStream, fun p member => (earlier p member).isStream⟩

/-- **The condition is needed for reads.** A read that copies out of an empty ring goes on to
return bytes beyond the accepted ones. -/
theorem overread_of_empty (run : Run Step globalvarInit trace s)
    (apart : ∀ p ∈ trace, TellsApart p.1 p.2) {len n : Nat}
    (position : s.pc i = .reading len (.copy n)) (positive : 0 < len)
    (empty : s.accepted.length ≤ s.returned.length) :
    ∃ t, replay step [(i, .go), (i, .go)] s = some t ∧ ¬ t.IsStream := by
  obtain ⟨settled, clipped⟩ := knows_of_tellsApart run apart position rfl
  have bounds := settled.inBounds
  have level : s.ring.rd = s.ring.wr := by
    have same : s.ring.returned.length = s.ring.accepted.length :=
      Nat.le_antisymm settled.held.started empty
    rw [settled.rd, settled.wr, same]
  -- `rd == wr` is taken for a full ring
  have taken : n = min len (maxNum - s.ring.rd) := by
    rw [clipped, contiguous, if_neg (by omega)]
  have below := bounds.rd
  have copied : ((s.dev.buffer.drop s.dev.rd).take n).length = n := by
    have whole : s.dev.buffer.length = maxNum + 1 := bounds.buffer
    change n = min len (maxNum - s.dev.rd) at taken
    rw [List.length_take, List.length_drop, whole]
    omega
  refine ⟨_, replay_next position rfl (replay_next (after_pc_self s i rfl) rfl rfl), ?_⟩
  intro stream
  have short : (s.returned ++ (s.dev.buffer.drop s.dev.rd).take n).length ≤ s.accepted.length :=
    stream.delivered.length_le
  rw [List.length_append, copied] at short
  omega

/-- **The condition is needed for writes.** A write that copies into a full ring overwrites
the first unread byte. -/
theorem overwrite_of_full (run : Run Step globalvarInit trace s)
    (apart : ∀ p ∈ trace, TellsApart p.1 p.2) {len n : Nat} {buf : Nat → UInt8}
    (position : s.pc i = .writing len buf (.copy n)) (positive : 0 < len)
    (full : s.returned.length + maxNum ≤ s.accepted.length)
    (differs : s.accepted[s.returned.length]? ≠ some (buf 0)) :
    ∃ t, step s (i, .go) = some t ∧ ¬ t.IsStream := by
  obtain ⟨settled, clipped⟩ := knows_of_tellsApart run apart position rfl
  have bounds := settled.inBounds
  have below := bounds.wr
  have level : s.ring.rd = s.ring.wr := by
    have same : s.ring.accepted.length = s.ring.returned.length + maxNum :=
      Nat.le_antisymm settled.held.fits full
    rw [settled.rd, settled.wr, same, Nat.add_mod_right]
  -- `rd == wr` is taken for an empty ring
  obtain ⟨m, rfl⟩ : ∃ m, n = m + 1 := by
    refine Nat.exists_eq_succ_of_ne_zero ?_
    rw [clipped, vacant, if_pos (by omega)]
    omega
  refine ⟨_, step_of_next position rfl, ?_⟩
  intro stream
  have first := stream.unread s.returned.length (Nat.le_refl _)
    (show s.returned.length < s.accepted.length by unfold maxNum at full; omega)
  have cell : s.returned.length % maxNum = s.dev.wr := settled.rd.symm.trans level
  have bytes : userBytes (m + 1) buf = buf 0 :: (List.range m).map fun k => buf (k + 1) := by
    simp [userBytes, List.range_succ_eq_map, Function.comp_def]
  have inside : s.dev.wr < s.dev.buffer.length := by
    have whole : s.dev.buffer.length = maxNum + 1 := bounds.buffer
    have : s.dev.wr < maxNum := below
    omega
  have stored : (putAll s.dev.buffer s.dev.wr (userBytes (m + 1) buf))[s.dev.wr]? = some (buf 0) := by
    rw [bytes]
    exact putAll_getElem?_self _ _ inside
  rw [cell] at first
  exact differs (first.symm.trans stored)

end Condition

/-- One client writes 60 bytes, another reads 50 of them, the first writes 60 more, which are
clipped at `end`, and the other reads on. -/
def roundTrip : List (Bool × Choice) :=
  alone false (.globalvarWrite 60 fun m => UInt8.ofNat m) 9 ++
    alone true (.globalvarRead 50) 9 ++
    alone false (.globalvarWrite 60 fun m => UInt8.ofNat (60 + m)) 9 ++
    alone true (.globalvarRead 50) 9

theorem stream_of_tellsApart_roundTrip :
    ∃ trace, ∃ s : State Bool, Run Step globalvarInit trace s ∧ s.accepted.length = 100 ∧
      s.returned.length = 100 ∧ s.IsStream := by
  have observed : ((replay step roundTrip globalvarInit).map fun s =>
      (s.accepted.length, s.returned.length)) = some (100, 100) := by
    decide +kernel
  obtain ⟨s, ran, values⟩ := Option.map_eq_some_iff.mp observed
  obtain ⟨accepted, returned⟩ := Prod.mk.inj values
  have run : Run Step globalvarInit _ s := run_of_replay ran
  have apart : ∀ p ∈ traceOf step roundTrip globalvarInit, TellsApart p.1 p.2 := by
    decide +kernel
  exact ⟨_, s, run, accepted, returned, (stream_of_tellsApart run apart).1⟩

/-- **Bytes that were never written are returned.** A write of length 0 sets the flag, and a
read takes the empty ring for a full one. -/
theorem unwritten_bytes_returned :
    ∃ s : State Unit, ReachableState s ∧ s.accepted = [] ∧ s.returned.length = 100 ∧
      ¬ s.returned <+: s.accepted := by
  obtain ⟨s, ran⟩ := Option.isSome_iff_exists.mp
    (show (replay step (alone () (.globalvarWrite 0 fun _ => 0) 9 ++
      alone () (.globalvarRead 100) 9) globalvarInit).isSome from rfl)
  have reached : ReachableState s := Reachable.refl.replay ran
  have nothing : s.accepted = [] := by
    cases ran
    rfl
  have whole : s.returned.length = 100 := by
    cases ran
    rfl
  refine ⟨s, reached, nothing, whole, fun isPrefix => ?_⟩
  have := isPrefix.length_le
  rw [nothing, whole] at this
  cases this

/-- **Unread bytes are overwritten.** A write fills the ring, the next one takes it for an
empty ring, and the read returns the second before the first. -/
theorem unread_bytes_overwritten :
    ∃ s : State Unit, ReachableState s ∧ s.accepted = List.replicate 100 1 ++ [2] ∧
      s.returned = [2] ∧ ¬ s.returned <+: s.accepted := by
  have observed : ((replay step (alone () (.globalvarWrite 100 fun _ => 1) 9 ++
      alone () (.globalvarWrite 1 fun _ => 2) 9 ++ alone () (.globalvarRead 1) 9)
      globalvarInit).map fun s => (s.accepted, s.returned)) =
      some (List.replicate 100 1 ++ [2], [2]) := by
    decide +kernel
  obtain ⟨s, ran, values⟩ := Option.map_eq_some_iff.mp observed
  obtain ⟨accepted, returned⟩ := Prod.mk.inj values
  have reached : ReachableState s := Reachable.refl.replay ran
  refine ⟨s, reached, accepted, returned, ?_⟩
  rw [accepted, returned]
  decide

end OsLab.Globalvar
