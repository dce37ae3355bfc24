import OsLab.Foundation.Ring
import OsLab.Paging.Model

/-!
# FIFO replacement

The specification knows only the order in which pages are loaded. With `k` frames the
resident pages are those of the last `k` loads, and a request of any other page loads
it (`fifoLoads`).

The simulator stores no order. It keeps the loads in a circular array: load `m` is in
frame `m % k`, whether the frame was empty or held a page before, and `fifo_ptr` is the
frame of the next load (`Layout`). Filling and replacing are then the same push, and
`simulateFifo_refines` reads the specification off the layout.
-/

set_option autoImplicit false

namespace OsLab.Paging

open OsLab.Foundation

/-! ## The specification -/

section Specification

variable {α : Type}

/-- The pages of the last `k` loads, the oldest first. -/
def lastLoads (k : Nat) (loads : List α) : List α := loads.drop (loads.length - k)

theorem lastLoads_length (k : Nat) (loads : List α) :
    (lastLoads k loads).length = min k loads.length := by
  rw [lastLoads, List.length_drop]
  omega

/-- One more load drops the oldest once there are `k`. -/
theorem lastLoads_snoc {k : Nat} (frames : 1 ≤ k) (loads : List α) (page : α) :
    lastLoads k (loads ++ [page]) = lastLoads (k - 1) loads ++ [page] := by
  rw [lastLoads, lastLoads, List.length_append, List.length_singleton,
    List.drop_append_of_le_length (by omega)]
  congr 2
  omega

theorem lastLoads_sublist {n k : Nat} (fewer : n ≤ k) (loads : List α) :
    (lastLoads n loads).Sublist (lastLoads k loads) := by
  have split : loads.length - n = (loads.length - k) + (loads.length - n - (loads.length - k)) := by
    omega
  rw [lastLoads, lastLoads, split, ← List.drop_drop]
  exact List.drop_sublist ..

variable [DecidableEq α]

/-- The loads after one more request. -/
def fifoLoad (k : Nat) (loads : List α) (page : α) : List α :=
  if page ∈ lastLoads k loads then loads else loads ++ [page]

/-- The pages loaded for a request sequence, in the order of loading: a request of a
page that is not among the last `k` loads is a fault and loads it. -/
def fifoLoads (k : Nat) (seq : List α) : List α := seq.foldl (fifoLoad k) []

theorem fifoLoads_snoc (k : Nat) (seq : List α) (page : α) :
    fifoLoads k (seq ++ [page]) = fifoLoad k (fifoLoads k seq) page := by
  simp [fifoLoads]

/-- The resident pages are distinct. -/
theorem nodup_lastLoads {k : Nat} (frames : 1 ≤ k) (seq : List α) :
    (lastLoads k (fifoLoads k seq)).Nodup := by
  induction seq using List.reverseRecOn with
  | nil => simp [fifoLoads, lastLoads]
  | append_singleton seq page ih =>
      rw [fifoLoads_snoc, fifoLoad]
      split
      · exact ih
      · rename_i absent
        have kept := lastLoads_sublist (Nat.sub_le k 1) (fifoLoads k seq)
        rw [lastLoads_snoc frames]
        refine List.nodup_append'.mpr ⟨ih.sublist kept, List.nodup_singleton page, ?_⟩
        intro x resident isPage
        rw [List.mem_singleton] at isPage
        exact absent (isPage ▸ kept.subset resident)

end Specification

/-! ## The frames as a circular array of loads -/

/-- The variables of `simulate_fifo` after the given loads. -/
structure Layout (k : Nat) (loads : List Int) (s : Fifo) : Prop where
  frames : 1 ≤ k
  length : s.frames.length = k
  real : ∀ page ∈ loads, page ≠ -1
  held : Held k s.frames loads (loads.length - k)
  empty : ∀ j, loads.length ≤ j → j < k → s.frames[j]? = some (-1)
  pointer : s.fifoPtr = loads.length % k
  faults : s.pageFaults = loads.length

namespace Layout

variable {k : Nat} {loads : List Int} {s : Fifo}

/-- Before all frames are filled, the loads stand in order from the first frame on. -/
theorem frames_of_few (layout : Layout k loads s) (few : loads.length ≤ k) :
    s.frames = loads ++ List.replicate (k - loads.length) (-1) := by
  refine List.ext_getElem? fun j => ?_
  rcases Nat.lt_or_ge j loads.length with loaded | free
  · rw [List.getElem?_append_left loaded,
      ← layout.held.stored j (by omega) loaded, Nat.mod_eq_of_lt (by omega)]
  · rw [List.getElem?_append_right free, List.getElem?_replicate]
    rcases Nat.lt_or_ge j k with inside | outside
    · rw [layout.empty j free inside, if_pos (by omega)]
    · rw [if_neg (by omega), List.getElem?_eq_none]
      rw [layout.length]
      exact outside

/-- Once all frames are filled, the frames are the last loads in another order. -/
theorem perm_of_many (layout : Layout k loads s) (many : k ≤ loads.length) :
    s.frames.Perm (lastLoads k loads) := by
  have rotated := layout.held.rotate_eq (by omega) layout.length
  rw [lastLoads, ← rotated]
  exact (List.rotate_perm ..).symm

theorem real_lastLoads (layout : Layout k loads s) {page : Int} (resident : page ∈ lastLoads k loads) :
    page ≠ -1 :=
  layout.real page (List.mem_of_mem_drop resident)

/-- The pages in the frames are those of the last loads. -/
theorem occupied_perm (layout : Layout k loads s) :
    (occupied s.frames).Perm (lastLoads k loads) := by
  rcases Nat.le_total loads.length k with few | many
  · have all : occupied loads = loads :=
      occupied_of_full fun sentinel => layout.real _ sentinel rfl
    rw [layout.frames_of_few few, occupied, List.filter_append, ← occupied, ← occupied, all,
      occupied_replicate, List.append_nil, lastLoads, Nat.sub_eq_zero_of_le few, List.drop_zero]
  · have perm := layout.perm_of_many many
    have full : (-1 : Int) ∉ s.frames := fun sentinel =>
      layout.real_lastLoads (perm.subset sentinel) rfl
    rw [occupied_of_full full]
    exact perm

/-- The hit search finds a page exactly when it is resident. -/
theorem mem_frames (layout : Layout k loads s) {page : Int} (real : page ≠ -1) :
    page ∈ s.frames ↔ page ∈ lastLoads k loads := by
  rw [← layout.occupied_perm.mem_iff, mem_occupied]
  simp [real]

/-- The first empty frame is the one of the next load. -/
theorem slotOf_empty (layout : Layout k loads s) (few : loads.length < k) :
    slotOf (-1) s.frames = some loads.length := by
  have absent : slotOf (-1) loads = none :=
    slotOf_eq_none.mpr fun sentinel => layout.real _ sentinel rfl
  rw [layout.frames_of_few few.le, slotOf, List.findIdx?_append, ← slotOf, absent,
    show k - loads.length = (k - loads.length - 1) + 1 by omega, List.replicate_succ]
  simp [List.findIdx?_cons]

theorem slotOf_full (layout : Layout k loads s) (many : k ≤ loads.length) :
    slotOf (-1) s.frames = none := by
  refine slotOf_eq_none.mpr fun sentinel => ?_
  exact layout.real_lastLoads ((layout.perm_of_many many).subset sentinel) rfl

/-- Once all frames are filled, the pointer is at the page loaded first among them. -/
theorem oldest (layout : Layout k loads s) (many : k ≤ loads.length) :
    ∃ page, (lastLoads k loads).head? = some page ∧ s.frames[s.fifoPtr]? = some page := by
  have first : loads.length - k < loads.length := by
    have := layout.frames
    omega
  have cell : (loads.length - k) % k = loads.length % k := (Nat.mod_eq_sub_mod many).symm
  refine ⟨loads[loads.length - k], ?_, ?_⟩
  · rw [lastLoads, List.head?_drop, List.getElem?_eq_getElem first]
  · rw [layout.pointer, ← cell, layout.held.stored _ (Nat.le_refl _) first,
      List.getElem?_eq_getElem first]

/-- **Filling a frame and replacing a page are the same push into the circular array**: the
page goes into the frame of the next load and the pointer moves on. -/
theorem load (layout : Layout k loads s) {page : Int} (real : page ≠ -1) :
    Layout k (loads ++ [page])
      { frames := s.frames.set (loads.length % k) page
        fifoPtr := (loads.length + 1) % k
        pageFaults := s.pageFaults + 1 } where
  frames := layout.frames
  length := by rw [List.length_set, layout.length]
  real := by
    intro x member
    rcases List.mem_append.mp member with earlier | last
    · exact layout.real x earlier
    · rw [List.mem_singleton.mp last]
      exact real
  held := by
    have positive := layout.frames
    -- the oldest load gives its frame up before the new one takes it
    have released : Held k s.frames loads ((loads ++ [page]).length - k) :=
      layout.held.release (by simp; omega) (by simp; omega)
    refine released.push ?_ layout.length.ge page
    rw [List.length_append, List.length_singleton]
    omega
  empty := by
    intro j free inside
    rw [List.length_append, List.length_singleton] at free
    have apart : loads.length % k ≠ j := by
      rw [Nat.mod_eq_of_lt (by omega)]
      omega
    rw [List.getElem?_set_ne apart]
    exact layout.empty j (by omega) inside
  pointer := by rw [List.length_append, List.length_singleton]
  faults := by rw [List.length_append, List.length_singleton, layout.faults]

end Layout

theorem layout_init {k : Nat} (frames : 1 ≤ k) : Layout k [] (fifoInit k) where
  frames := frames
  length := List.length_replicate ..
  real _ member := absurd member List.not_mem_nil
  held := by
    rw [List.length_nil, Nat.zero_sub]
    exact Held.nil
  empty j _ inside := by rw [fifoInit, List.getElem?_replicate, if_pos inside]
  pointer := (Nat.zero_mod k).symm
  faults := rfl

/-! ## One round -/

/-- What a round does: a hit, a load into the next empty frame, or a load into the
frame of the oldest load. -/
theorem fifoStep_cases {k : Nat} {loads : List Int} {s : Fifo} (layout : Layout k loads s)
    {page : Int} (real : page ≠ -1) :
    (page ∈ lastLoads k loads ∧ fifoStep k s page = (.hit none, s)) ∨
    (page ∉ lastLoads k loads ∧ (fifoStep k s page).1.isHit = false ∧
      (fifoStep k s page).2 =
        { frames := s.frames.set (loads.length % k) page
          fifoPtr := (loads.length + 1) % k
          pageFaults := s.pageFaults + 1 } ∧
      (k ≤ loads.length → ∃ old, (lastLoads k loads).head? = some old ∧
        s.frames[s.fifoPtr]? = some old ∧ (fifoStep k s page).1 = .replaced old s.fifoPtr)) := by
  by_cases resident : page ∈ lastLoads k loads
  · obtain ⟨i, found⟩ := Option.isSome_iff_exists.mp
      (slotOf_isSome.mpr ((layout.mem_frames real).mpr resident))
    exact .inl ⟨resident, by rw [fifoStep, found]⟩
  · have missing : slotOf page s.frames = none :=
      slotOf_eq_none.mpr fun member => resident ((layout.mem_frames real).mp member)
    refine .inr ⟨resident, ?_⟩
    rcases Nat.lt_or_ge loads.length k with few | many
    · simp only [fifoStep, missing, layout.slotOf_empty few, Nat.mod_eq_of_lt few]
      exact ⟨rfl, trivial, fun many => absurd few (by omega)⟩
    · obtain ⟨old, oldest, there⟩ := layout.oldest many
      simp only [fifoStep, missing, layout.slotOf_full many]
      refine ⟨rfl, ?_, fun _ => ⟨old, oldest, there, ?_⟩⟩
      · rw [layout.pointer, Nat.mod_add_mod]
      · rw [List.getD_eq_getElem?_getD, there]
        rfl

/-- A round prints a hit exactly when the page is resident. -/
theorem fifoStep_isHit {k : Nat} {loads : List Int} {s : Fifo} (layout : Layout k loads s)
    {page : Int} (real : page ≠ -1) :
    (fifoStep k s page).1.isHit ↔ page ∈ lastLoads k loads := by
  rcases fifoStep_cases layout real with ⟨resident, round⟩ | ⟨absent, noHit, -⟩
  · rw [round]
    exact ⟨fun _ => resident, fun _ => rfl⟩
  · rw [noHit]
    exact ⟨fun isHit => (nomatch isHit), fun resident => absurd resident absent⟩

theorem layout_step {k : Nat} {loads : List Int} {s : Fifo} (layout : Layout k loads s)
    {page : Int} (real : page ≠ -1) :
    Layout k (fifoLoad k loads page) (fifoStep k s page).2 := by
  rcases fifoStep_cases layout real with ⟨resident, round⟩ | ⟨absent, -, left, -⟩
  · rw [fifoLoad, if_pos resident, round]
    exact layout
  · rw [fifoLoad, if_neg absent, left]
    exact layout.load real

/-- The layout after every request sequence. -/
theorem layout_after {k : Nat} (frames : 1 ≤ k) {seq : List Int} (real : ∀ page ∈ seq, page ≠ -1) :
    Layout k (fifoLoads k seq) (fifoAfter k seq) := by
  refine after_invariant _ (fun pre s => Layout k (fifoLoads k pre) s) (layout_init frames) real ?_
  intro pre page s isPage layout
  rw [fifoLoads_snoc]
  exact layout_step layout isPage

/-- **`simulate_fifo` is FIFO replacement.** In every round the pages in the frames are
those of the last `min k faults` loads, without duplicates; the round prints a hit
exactly when the page was among them before; and with all frames occupied a fault
writes the page over the oldest of them. The number of page faults is the number of
loads. -/
theorem simulateFifo_refines {k : Nat} (atLeastOne : 1 ≤ k) {seq : List Int}
    (real : ∀ page ∈ seq, page ≠ -1) :
    (simulateFifo seq k).length = seq.length ∧
    (fifoAfter k seq).pageFaults = (fifoLoads k seq).length ∧
    ∀ (i : Nat) (page : Int) (report : Report) (s : Fifo),
      seq[i]? = some page → (simulateFifo seq k)[i]? = some (report, s) →
      let before := fifoLoads k (seq.take i)
      let loads := fifoLoads k (seq.take (i + 1))
      let frames := (fifoAfter k (seq.take i)).frames
      ((occupied s.frames).Nodup ∧ (occupied s.frames).Perm (lastLoads k loads) ∧
        (occupied s.frames).length = min k loads.length) ∧
      (report.isHit ↔ page ∈ lastLoads k before) ∧
      (page ∉ lastLoads k before → -1 ∉ frames →
        ∃ oldest slot, (lastLoads k before).head? = some oldest ∧
          frames[slot]? = some oldest ∧ report = .replaced oldest slot ∧
          s.frames = frames.set slot page) ∧
      s.pageFaults = loads.length := by
  refine ⟨simulate_length .., (layout_after atLeastOne real).faults, ?_⟩
  intro i page report s request round
  obtain ⟨stepped, longer, left⟩ := simulate_round _ request round
  have isPage : page ≠ -1 := real page (List.mem_of_getElem? request)
  have realBefore : ∀ page ∈ seq.take i, page ≠ -1 := fun x member =>
    real x (List.mem_of_mem_take member)
  have layoutBefore := layout_after atLeastOne realBefore
  have layout : Layout k (fifoLoads k (seq.take (i + 1))) s := by
    have := layout_step layoutBefore isPage
    rwa [← fifoLoads_snoc, ← longer, fifoAfter, stepped] at this
  intro before loads frames
  refine ⟨⟨?_, layout.occupied_perm, ?_⟩, ?_, ?_, layout.faults⟩
  · exact layout.occupied_perm.nodup_iff.mpr (nodup_lastLoads atLeastOne _)
  · rw [layout.occupied_perm.length_eq, lastLoads_length]
  · have told := fifoStep_isHit layoutBefore isPage
    rwa [fifoAfter, stepped] at told
  · intro fault full
    have many : k ≤ before.length := by
      by_contra few
      have free := layoutBefore.slotOf_empty (Nat.lt_of_not_le few)
      exact full (slotOf_isSome.mp (by rw [free]; rfl))
    rcases fifoStep_cases layoutBefore isPage with ⟨resident, -⟩ | ⟨-, -, written, victim⟩
    · exact absurd resident fault
    · obtain ⟨oldest, first, there, outcome⟩ := victim many
      rw [fifoAfter, stepped] at outcome written
      refine ⟨oldest, _, first, there, outcome, ?_⟩
      rw [layoutBefore.pointer]
      exact congrArg Fifo.frames written

/-- Belady's sequence with three frames: the fourth request replaces page 1, which was
loaded first, and nine requests fault. -/
theorem simulateFifo_refines_belady :
    (simulateFifo [1, 2, 3, 4, 1, 2, 5, 1, 2, 3, 4, 5] 3)[3]? =
        some (.replaced 1 0, ⟨[4, 2, 3], 1, 4⟩) ∧
      (occupied [4, 2, 3]).Perm [2, 3, 4] ∧
      (fifoAfter 3 [1, 2, 3, 4, 1, 2, 5, 1, 2, 3, 4, 5]).pageFaults = 9 := by
  obtain ⟨-, faults, rounds⟩ :=
    @simulateFifo_refines 3 (by decide) [1, 2, 3, 4, 1, 2, 5, 1, 2, 3, 4, 5] (by decide)
  have fourth := rounds 3 4 (.replaced 1 0) ⟨[4, 2, 3], 1, 4⟩ (by decide) (by decide)
  exact ⟨by decide, fourth.1.2.1, faults.trans (by decide)⟩

end OsLab.Paging
