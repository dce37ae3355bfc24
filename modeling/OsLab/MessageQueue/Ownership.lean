import OsLab.MessageQueue.Accounting

/-!
# Who owns the memory

A message is two objects, the `struct msg` and its data, and the module allocates and frees
them one after the other. All it has allocated for messages is accounted for: every byte of
data and every `struct msg` is that of a message in the list or is owned by one call in
progress (`live_exact`). So nothing is lost when a call fails, and when no call owns a
`struct msg` the list is all there is.
-/

set_option autoImplicit false

namespace OsLab.MessageQueue

open OsLab.Foundation

variable {ι : Type} [DecidableEq ι]

namespace Protocol

/-- All that is allocated belongs to the messages in the list or to the clients. -/
structure Exact (s : Protocol ι) : Prop where
  data : Spent s.live (totalLen s.msgList) (Phase.held ∘ s.phase)
  nodes : Spent s.nodes s.msgList.length (Phase.heldNodes ∘ s.phase)

variable {s t : Protocol ι} {i : ι}

/-- A `struct msg` goes from a client to the list or back, is allocated or is freed. -/
theorem Step.node_balance (stepped : Step s i t)
    (paid : s.msgList.length + (s.phase i).heldNodes ≤ s.nodes) :
    t.msgList.length + (t.phase i).heldNodes + s.nodes =
      t.nodes + (s.msgList.length + (s.phase i).heldNodes) := by
  cases stepped with
  | quiet moves =>
      have same := moves.keeps.2.2.2.2
      simp only [move_nodes, move_msgList, move_phase, Function.update_self]
      omega
  | acquire _ moves =>
      have same := moves.enters.2.2.2.2.2
      simp only [move_nodes, move_msgList, move_phase, Function.update_self]
      omega
  | release moves =>
      have same := moves.leaves.2.2.2.2.2
      simp only [move_nodes, move_msgList, move_phase, Function.update_self]
      omega
  | kfree moves =>
      have same := moves.gives.2.2.2.2
      simp only [move_nodes, move_msgList, move_phase, Function.update_self]
      omega
  | kfreeMsg moves =>
      obtain ⟨-, -, -, before, after⟩ := moves.gives
      simp only [move_nodes, move_msgList, move_phase, Function.update_self]
      omega
  | link phase =>
      simp only [move_nodes, move_msgList, move_phase, Function.update_self, phase,
        Phase.heldNodes, List.length_append, List.length_singleton]
      omega
  | unlink phase first =>
      simp only [move_nodes, move_msgList, move_phase, Function.update_self, phase, first,
        Phase.heldNodes, List.length_cons]
      omega
  | begin _ phase | finish phase | grant phase | kmallocMsg phase | kmalloc phase | count phase
  | uncount phase =>
      simp only [move_nodes, move_msgList, move_phase, Function.update_self, phase,
        Phase.heldNodes]
      omega

/-- A step keeps the books without a remainder. -/
theorem Exact.step (owned : s.Exact) (accounted : s.Accounted) (stepped : Step s i t) :
    t.Exact where
  data := by
    rw [stepped.measure_eq]
    exact owned.data.update i (accounted.step_balance stepped)
  nodes := by
    rw [stepped.measure_eq]
    exact owned.nodes.update i (stepped.node_balance (owned.nodes.one_le i))

end Protocol

theorem exact_of_reachable [KernelMemory] {s : State ι} (reached : ReachableState s) :
    s.protocol.Exact := by
  refine ((protocol_reachable reached).invariant (fun p => p.Accounted ∧ p.Exact)
    ⟨Protocol.accounted_init, .nobody 0, .nobody 0⟩ ?_).2
  intro s i t both stepped
  exact ⟨both.1.step stepped, both.2.step both.1 stepped⟩

/-- The bytes of the message data a client owns. -/
def Pc.owned (pc : Pc ι) : Nat := pc.phase.held

/-- The `struct msg` objects a client owns. -/
def Pc.ownedNodes (pc : Pc ι) : Nat := pc.phase.heldNodes

omit [DecidableEq ι] in
/-- Who owns data owns their `struct msg`, and no second one. -/
theorem ownedNodes_bounds (pc : Pc ι) :
    pc.ownedNodes ≤ 1 ∧ (pc.ownedNodes = 0 → pc.owned = 0) := by
  unfold Pc.ownedNodes Pc.owned
  cases pc.phase <;> simp [Phase.heldNodes, Phase.held]

/-- **Every live object has one owner.** In every reachable state the bytes of data and the
`struct msg` objects allocated for messages are those of the messages in the list together with
those the calls in progress own, of which there are finitely many; a call owns at most one
`struct msg`. When none owns one, both are those of the list alone. -/
theorem live_exact [KernelMemory] {s : State ι} (reached : ReachableState s) :
    (∃ clients : Finset ι,
      (∀ i ∉ clients, (s.client i).pc.owned = 0 ∧ (s.client i).pc.ownedNodes = 0) ∧
      s.live = totalLen s.dev.msgList + ∑ i ∈ clients, (s.client i).pc.owned ∧
      s.nodes = s.dev.msgList.length + ∑ i ∈ clients, (s.client i).pc.ownedNodes) ∧
    (∀ i, (s.client i).pc.ownedNodes ≤ 1) ∧
    ((∀ i, (s.client i).pc.ownedNodes = 0) →
      s.live = totalLen s.dev.msgList ∧ s.nodes = s.dev.msgList.length) := by
  have owned := exact_of_reachable reached
  refine ⟨owned.data.both owned.nodes, fun i => (ownedNodes_bounds _).1, fun none => ⟨?_, ?_⟩⟩
  · exact owned.data.eq_common fun i => (ownedNodes_bounds (s.client i).pc).2 (none i)
  · exact owned.nodes.eq_common none

/-- Client 0 has written three bytes, and client 1 has taken them from the list and freed the
data. -/
theorem live_exact_taken :
    ∃ s : State (Fin 2), s.dev.msgList.length = 0 ∧ s.live = 0 ∧ s.nodes = 1 ∧
      ¬ ∀ i, (s.client i).pc.ownedNodes = 0 := by
  obtain ⟨s, ran⟩ := Option.isSome_iff_exists.mp
    (show (runSchedule (alone (0 : Fin 2) (.m2mWrite ⟨false, 3, fun _ => 7⟩) 13 ++
      alone 1 (.m2mRead ⟨false, 2⟩) 8) m2mInit).isSome from rfl)
  have alone := (live_exact (reachable_of_runSchedule .refl ran)).2.2
  have list : s.dev.msgList.length = 0 := by
    cases ran
    rfl
  have live : s.live = 0 := by
    cases ran
    rfl
  have nodes : s.nodes = 1 := by
    cases ran
    rfl
  refine ⟨s, list, live, nodes, fun none => ?_⟩
  have nothing := (alone none).2
  rw [list, nodes] at nothing
  cases nothing

end OsLab.MessageQueue
