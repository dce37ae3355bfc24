import OsLab.Foundation.Competitive
import OsLab.Paging.Conservative
import OsLab.Paging.Renaming

/-!
# The simulators against the best replacement

The counter `page_faults` is the number of faults of the policy whose hits a simulator
tells (`TellsHits.pageFaults`), so what is known of conservative policies is known of it.

`simulators_competitive` compares both simulators with any schedule for the same requests,
also one that knows them all beforehand, loads pages before they are asked for and gives up
what it likes. `simulators_worst_case` says that the factor cannot be improved.
`main_faults` puts this together for the whole program: what `main` prints as the number of
page faults, for every input and every outcome of `rand`.
-/

set_option autoImplicit false

namespace OsLab.Paging

open OsLab.Foundation

/-! ## The counter -/

section Counter

variable {σ : Type} {step : σ → Int → Report × σ}

/-- The counter is advanced by the rounds that print a fault. -/
def Counts (step : σ → Int → Report × σ) (pageFaults : σ → Nat) : Prop :=
  ∀ s page, pageFaults (step s page).2 =
    pageFaults s + if (step s page).1.isHit then 0 else 1

theorem TellsHits.pageFaults {pageFaults : σ → Nat} {resident : List Int → List Int} {s : σ}
    {seq : List Int} (counts : Counts step pageFaults) (tells : TellsHits step resident s seq) :
    pageFaults (after step s seq) = pageFaults s + (faultsFrom resident [] seq).length := by
  induction seq using List.reverseRecOn with
  | nil => simp [after, faultsFrom]
  | append_singleton seq page ih =>
      have before : TellsHits step resident s seq := by
        rintro earlier page' later rfl
        exact tells earlier page' (later ++ [page]) (by simp)
      have told := tells seq page [] rfl
      rw [after_snoc, counts, ih before, faultsFrom_append, List.length_append, Nat.add_assoc,
        faultsFrom, List.nil_append]
      by_cases resides : page ∈ resident seq
      · rw [if_pos (told.mpr resides), if_pos resides]
        rfl
      · rw [if_neg fun isHit => resides (told.mp isHit), if_neg resides]
        rfl

end Counter

theorem fifoStep_counts (k : Nat) : Counts (fifoStep k) Fifo.pageFaults := by
  intro s page
  unfold fifoStep
  cases slotOf page s.frames with
  | some i => rfl
  | none =>
      cases slotOf (-1) s.frames with
      | some i => rfl
      | none => rfl

theorem lruStep_counts (k : Nat) : Counts (lruStep k) Lru.pageFaults := by
  intro s page
  unfold lruStep
  cases slotOf page s.frames with
  | some i => rfl
  | none =>
      cases slotOf (-1) s.frames with
      | some i => rfl
      | none => rfl

/-- The pages `simulate_fifo` keeps. -/
def fifoResident (k : Nat) (history : List Int) : List Int := lastLoads k (fifoLoads k history)

theorem fifo_pageFaults {k : Nat} (atLeastOne : 1 ≤ k) {seq : List Int}
    (real : ∀ page ∈ seq, page ≠ -1) :
    (fifoAfter k seq).pageFaults = (faultsFrom (fifoResident k) [] seq).length := by
  have counted := (fifo_tellsHits atLeastOne real).pageFaults (fifoStep_counts k)
  rwa [fifoInit, Nat.zero_add] at counted

theorem lru_pageFaults {k : Nat} (atLeastOne : 1 ≤ k) {seq : List Int}
    (real : ∀ page ∈ seq, page ≠ -1) :
    (lruAfter k seq).pageFaults = (faultsFrom (mostRecent k) [] seq).length := by
  obtain ⟨k, rfl⟩ : ∃ n, k = n + 1 := ⟨k - 1, by omega⟩
  have counted := (lru_tellsHits real).pageFaults (lruStep_counts (k + 1))
  rwa [lruInit, Nat.zero_add] at counted

/-! ## What the two policies keep -/

theorem fifoLoads_subset (k : Nat) (history : List Int) : fifoLoads k history ⊆ history := by
  induction history using List.reverseRecOn with
  | nil => exact List.nil_subset _
  | append_singleton history page ih =>
      have earlier := List.subset_append_of_subset_left [page] ih
      rw [fifoLoads_snoc, fifoLoad]
      split
      · exact earlier
      · exact List.append_subset.mpr ⟨earlier, List.subset_append_right ..⟩

theorem fifoResident_subset (k : Nat) (history : List Int) : fifoResident k history ⊆ history :=
  List.Subset.trans (List.drop_subset ..) (fifoLoads_subset k history)

theorem mostRecent_subset (k : Nat) (history : List Int) : mostRecent k history ⊆ history :=
  fun _ member => mem_recency.mp (List.mem_of_mem_take member)

theorem fifoResident_places (k : Nat) (history : List Int) :
    (fifoResident k history).toFinset.card ≤ k := by
  refine (List.toFinset_card_le _).trans ?_
  rw [fifoResident, lastLoads_length]
  exact Nat.min_le_left ..

theorem mostRecent_places (k : Nat) (history : List Int) :
    (mostRecent k history).toFinset.card ≤ k := by
  refine (List.toFinset_card_le _).trans ?_
  rw [mostRecent, List.length_take]
  exact Nat.min_le_left ..

/-! ## The best replacement -/

/-- **Both simulators are competitive.** With `k` frames their page faults are at most
`k / (k - h + 1)` times the loads of any schedule with `h ≤ k` frames, up to a constant that
does not depend on the sequence. For `h = k` this is at most `k` times the loads of the best
replacement. -/
theorem simulators_competitive {k h : Nat} (atLeastOne : 1 ≤ k) (fewer : h ≤ k) {seq : List Int}
    (real : ∀ page ∈ seq, page ≠ -1) {schedule : List (Finset Int)}
    (serves : Serves h seq schedule) :
    (k - h + 1) * (fifoAfter k seq).pageFaults ≤ k * (loads ∅ schedule + (k - h)) ∧
      (k - h + 1) * (lruAfter k seq).pageFaults ≤ k * (loads ∅ schedule + (k - h)) := by
  constructor
  · rw [fifo_pageFaults atLeastOne real]
    exact (conservative_lastLoads k).competitive atLeastOne fewer serves
  · rw [lru_pageFaults atLeastOne real]
    exact (conservative_mostRecent k).competitive atLeastOne fewer serves

/-- Belady's sequence with three frames: LRU has ten faults, and a schedule that knows the
sequence loads seven pages. -/
theorem simulators_competitive_belady :
    (lruAfter 3 [1, 2, 3, 4, 1, 2, 5, 1, 2, 3, 4, 5]).pageFaults = 10 ∧
      (3 - 3 + 1) * (lruAfter 3 [1, 2, 3, 4, 1, 2, 5, 1, 2, 3, 4, 5]).pageFaults ≤
        3 * (loads ∅ [{1}, {1, 2}, {1, 2, 3}, {1, 2, 4}, {1, 2, 4}, {1, 2, 4}, {1, 2, 5},
          {1, 2, 5}, {1, 2, 5}, {3, 2, 5}, {3, 4, 5}, {3, 4, (5 : Int)}] + (3 - 3)) := by
  refine ⟨by decide, (@simulators_competitive 3 3 (by decide) (by decide) _ (by decide) _ ?_).2⟩
  rw [Serves]
  simp

/-- The `k + 1` pages `0 .. k`. -/
def firstPages (k : Nat) : Finset Int := (Finset.range (k + 1)).image Int.ofNat

theorem firstPages_card (k : Nat) : (firstPages k).card = k + 1 := by
  rw [firstPages, Finset.card_image_of_injective _ fun _ _ => Int.ofNat.inj, Finset.card_range]

theorem real_of_mem_firstPages {k : Nat} {page : Int} (member : page ∈ firstPages k) :
    page ≠ -1 := by
  obtain ⟨i, -, rfl⟩ := Finset.mem_image.mp member
  exact Int.noConfusion

/-- **The factor `k` is the best possible.** For either simulator there are sequences of any
number `n` of blocks of `k` requests on the pages `0 .. k` with a page fault at every request,
for which some schedule with as many frames loads no more than `k + n - 1` pages. -/
theorem simulators_worst_case {k : Nat} (atLeastOne : 1 ≤ k) (n : Nat) :
    (∃ seq schedule, (∀ page ∈ seq, page ∈ firstPages k) ∧ seq.length = n * k ∧
      (fifoAfter k seq).pageFaults = n * k ∧ Serves k seq schedule ∧
      loads ∅ schedule + 1 ≤ k + n) ∧
    (∃ seq schedule, (∀ page ∈ seq, page ∈ firstPages k) ∧ seq.length = n * k ∧
      (lruAfter k seq).pageFaults = n * k ∧ Serves k seq schedule ∧
      loads ∅ schedule + 1 ≤ k + n) := by
  constructor
  · obtain ⟨seq, schedule, length, among, faults, serves, few⟩ :=
      exists_worst_case atLeastOne (firstPages_card k) (fifoResident_places k) n
    have real : ∀ page ∈ seq, page ≠ -1 := fun page member =>
      real_of_mem_firstPages (among page member)
    refine ⟨seq, schedule, among, length, ?_, serves, few⟩
    rw [fifo_pageFaults atLeastOne real, faults, length]
  · obtain ⟨seq, schedule, length, among, faults, serves, few⟩ :=
      exists_worst_case atLeastOne (firstPages_card k) (mostRecent_places k) n
    have real : ∀ page ∈ seq, page ≠ -1 := fun page member =>
      real_of_mem_firstPages (among page member)
    refine ⟨seq, schedule, among, length, ?_, serves, few⟩
    rw [lru_pageFaults atLeastOne real, faults, length]

theorem simulators_worst_case_three :
    ∃ seq schedule, (∀ page ∈ seq, page ∈ firstPages 3) ∧ seq.length = 10 * 3 ∧
      (fifoAfter 3 seq).pageFaults = 10 * 3 ∧ Serves 3 seq schedule ∧
      loads ∅ schedule + 1 ≤ 3 + 10 :=
  (@simulators_worst_case 3 (by decide) 10).1

/-! ## The program -/

/-- `gen_random_sequence`: the requests in the array when it returns. `input` are the numbers
that `scanf` converts before it fails, and `rand i` is what the `i`-th call of `rand`
returns. -/
def genRandomSequence (maxLen : Nat) (rand : Nat → Nat) : List Int → List Int
  | n :: maxPage :: _ =>
      if n ≤ 0 ∨ n > maxLen then []
      else
        let maxPage := if maxPage < 2 then 2 else maxPage
        (List.range n.toNat).map fun i => (rand i : Int) % maxPage
  | _ => []

inductive Mode where
  | fifo
  | lru
  deriving DecidableEq, Repr

/-- What a run of `main` comes to: nothing is simulated, or a simulator prints its rounds
and in the end the number of page faults. -/
inductive Session where
  | stopped
  | simulated (mode : Mode) (frames : Nat) (seq : List Int) (rounds : List Report)
      (pageFaults : Nat)
  deriving DecidableEq, Repr

/-- The simulator that `main` chooses. -/
def runMode (mode : Mode) (frames : Nat) (seq : List Int) : Session :=
  match mode with
  | .fifo =>
      .simulated mode frames seq ((simulateFifo seq frames).map Prod.fst)
        (fifoAfter frames seq).pageFaults
  | .lru =>
      .simulated mode frames seq ((simulateLru seq frames).map Prod.fst)
        (lruAfter frames seq).pageFaults

/-- `main`, with the numbers that `scanf` converts before it fails. -/
def main (rand : Nat → Nat) : List Int → Session
  | choice :: frames :: source :: input =>
      let seq :=
        if source = 1 then genRandomSequence maxSeq rand input
        else readManualSequence maxSeq input
      if seq = [] then .stopped
      else runMode (if choice = 1 then .fifo else .lru) (chosenFrames frames) seq
  | _ => .stopped

/-- The pages of a generated sequence are numbers from 0 on, and there are not too many. -/
theorem genRandomSequence_spec (maxLen : Nat) (rand : Nat → Nat) (input : List Int) :
    (genRandomSequence maxLen rand input).length ≤ maxLen ∧
      ∀ page ∈ genRandomSequence maxLen rand input, page ≠ -1 := by
  rcases input with _ | ⟨n, _ | ⟨maxPage, rest⟩⟩
  · simp [genRandomSequence]
  · simp [genRandomSequence]
  · simp only [genRandomSequence]
    split
    · simp
    · rename_i inside
      refine ⟨by rw [List.length_map, List.length_range]; omega, ?_⟩
      intro page member
      obtain ⟨i, -, rfl⟩ := List.mem_map.mp member
      -- the modulus is at least 2
      have positive : (if maxPage < 2 then 2 else maxPage) ≠ 0 := by split <;> omega
      have := Int.emod_nonneg (rand i) positive
      omega

theorem readManualSequence_length (maxLen : Nat) (input : List Int) :
    (readManualSequence maxLen input).length ≤ maxLen := by
  cases input with
  | nil => simp [readManualSequence]
  | cons n numbers =>
      simp only [readManualSequence]
      split
      · simp
      · rename_i inside
        rw [List.length_take]
        omega

/-- What `main` simulates: the frames and the sequence are within the arrays, and a generated
sequence has no page `-1`. -/
theorem main_simulated {rand : Nat → Nat} {input : List Int} {mode : Mode} {k faults : Nat}
    {seq : List Int} {rounds : List Report}
    (ran : main rand input = .simulated mode k seq rounds faults) :
    (1 ≤ k ∧ k ≤ maxFrames) ∧ (1 ≤ seq.length ∧ seq.length ≤ maxSeq) ∧
      (input[2]? = some 1 → ∀ page ∈ seq, page ≠ -1) ∧
      runMode mode k seq = .simulated mode k seq rounds faults := by
  rcases input with _ | ⟨choice, _ | ⟨frames, _ | ⟨source, rest⟩⟩⟩
  · cases ran
  · cases ran
  · cases ran
  · simp only [main] at ran
    generalize read : (if source = 1 then genRandomSequence maxSeq rand rest
      else readManualSequence maxSeq rest) = entered at ran
    split at ran
    · cases ran
    · rename_i some
      have inside : entered.length ≤ maxSeq := by
        rw [← read]
        split
        · exact (genRandomSequence_spec maxSeq rand rest).1
        · exact readManualSequence_length maxSeq rest
      have generated : source = 1 → ∀ page ∈ entered, page ≠ -1 := by
        intro random
        rw [← read, if_pos random]
        exact (genRandomSequence_spec maxSeq rand rest).2
      have same : mode = (if choice = 1 then .fifo else .lru) ∧ k = chosenFrames frames ∧
          seq = entered := by
        generalize (if choice = 1 then Mode.fifo else Mode.lru) = chosen at ran
        cases chosen with
        | fifo => cases ran; exact ⟨rfl, rfl, rfl⟩
        | lru => cases ran; exact ⟨rfl, rfl, rfl⟩
      obtain ⟨rfl, rfl, rfl⟩ := same
      refine ⟨chosenFrames_mem frames, ⟨List.length_pos_iff.mpr some, inside⟩, ?_, ran⟩
      intro random
      exact generated (by simpa using random)

/-- Either simulator prints one round for each request. -/
theorem runMode_rounds {mode : Mode} {k faults : Nat} {seq : List Int} {rounds : List Report}
    (ran : runMode mode k seq = .simulated mode k seq rounds faults) :
    rounds.length = seq.length := by
  cases mode with
  | fifo =>
      cases ran
      rw [List.length_map, simulateFifo, simulate_length]
  | lru =>
      cases ran
      rw [List.length_map, simulateLru, simulate_length]

/-- The faults either simulator prints are those of its policy. -/
theorem runMode_policy {mode : Mode} {k faults : Nat} {seq : List Int} {rounds : List Report}
    (atLeastOne : 1 ≤ k) (real : ∀ page ∈ seq, page ≠ -1)
    (ran : runMode mode k seq = .simulated mode k seq rounds faults) :
    ∃ resident : List Int → List Int,
      Conservative resident k ∧ (∀ history, resident history ⊆ history) ∧
        faults = (faultsFrom resident [] seq).length := by
  cases mode with
  | fifo =>
      cases ran
      exact ⟨fifoResident k, conservative_lastLoads k, fifoResident_subset k,
        fifo_pageFaults atLeastOne real⟩
  | lru =>
      cases ran
      exact ⟨mostRecent k, conservative_mostRecent k, mostRecent_subset k,
        lru_pageFaults atLeastOne real⟩

theorem faultsFrom_length_le (resident : List Int → List Int) (history window : List Int) :
    (faultsFrom resident history window).length ≤ window.length := by
  induction window generalizing history with
  | nil => exact Nat.le_refl _
  | cons page window ih =>
      have := ih (history ++ [page])
      rw [faultsFrom]
      split <;> simp only [List.length_cons] <;> omega

/-- **What the program prints.** For every input and whatever `rand` returns: if `main` comes
to a simulation, it is one with 1 to 100 frames and 1 to 1000 requests, and one round is printed
for each of them. For a generated sequence, or one without the page `-1`, the number of page
faults lies between the number of different pages and the number of requests, is the number of
different pages when there are frames for all of them, and is at most `k / (k - h + 1)` times
the loads of any schedule with `h ≤ k` frames plus `k - h`. -/
theorem main_faults {rand : Nat → Nat} {input : List Int} {mode : Mode} {k faults : Nat}
    {seq : List Int} {rounds : List Report}
    (ran : main rand input = .simulated mode k seq rounds faults) :
    (1 ≤ k ∧ k ≤ maxFrames) ∧ (1 ≤ seq.length ∧ seq.length ≤ maxSeq) ∧
      rounds.length = seq.length ∧
      ((input[2]? = some 1 ∨ ∀ page ∈ seq, page ≠ -1) →
        (distinct seq ≤ faults ∧ faults ≤ seq.length) ∧
        (distinct seq ≤ k → faults = distinct seq) ∧
        ∀ h, h ≤ k → ∀ schedule, Serves h seq schedule →
          (k - h + 1) * faults ≤ k * (loads ∅ schedule + (k - h))) := by
  obtain ⟨frames, requests, generated, simulated⟩ := main_simulated ran
  refine ⟨frames, requests, runMode_rounds simulated, fun real => ?_⟩
  have pages : ∀ page ∈ seq, page ≠ -1 := real.elim generated id
  obtain ⟨resident, conservative, among, rfl⟩ := runMode_policy frames.1 pages simulated
  refine ⟨⟨distinct_le_faults among seq, ?_⟩, ?_, ?_⟩
  · exact faultsFrom_length_le resident [] seq
  · exact conservative.faults_eq_distinct among
  · intro h fewer schedule serves
    exact conservative.competitive frames.1 fewer serves

/-- LRU with three frames on four generated pages out of 0 and 1. -/
theorem main_faults_generated :
    main (fun i => i * i) [2, 3, 1, 4, 2] =
        .simulated .lru 3 [0, 1, 0, 1]
          [.placed 0, .placed 1, .hit (some 0), .hit (some 1)] 2 ∧
      (distinct [(0 : Int), 1, 0, 1] ≤ 2 ∧ 2 ≤ [(0 : Int), 1, 0, 1].length) := by
  have ran : main (fun i => i * i) [2, 3, 1, 4, 2] =
      .simulated .lru 3 [0, 1, 0, 1]
        [.placed 0, .placed 1, .hit (some 0), .hit (some 1)] 2 := by decide
  exact ⟨ran, ((main_faults ran).2.2.2 (.inl rfl)).1⟩

end OsLab.Paging
