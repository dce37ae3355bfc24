import OsLab.Foundation.Replacement
import OsLab.Paging.Fifo
import OsLab.Paging.Lru

/-!
# Faults in a window of requests

Both simulators are conservative: in a window of requests with at most `k` different
pages no page faults twice. For LRU this is a property of the pages requested last. For
FIFO it is the number of loads: a page is given up at the `k`-th load after its own, and
while it is there these loads are of different pages, all requested in the window
(`fifoLoads_window`).

`faultsWithin` reads the faults of a window off the rounds that were printed. Where the
hits that a simulator prints are those of a policy (`TellsHits`), they are the faults of
that policy. `simulators_conservative` puts the two together.
-/

set_option autoImplicit false

namespace OsLab.Paging

open OsLab.Foundation

/-! ## FIFO gives up a page at the `k`-th load after its own -/

section Fifo

variable {α : Type} {k : Nat}

/-- The newest loads are among the last `k`, as long as there are no more of them. -/
theorem mem_lastLoads_append {before recent : List α} (few : recent.length ≤ k) {x : α}
    (loaded : x ∈ recent) : x ∈ lastLoads k (before ++ recent) := by
  rw [lastLoads, List.length_append, List.drop_append]
  refine List.mem_append_right _ ?_
  rwa [show before.length + recent.length - k - before.length = 0 by omega, List.drop_zero]

variable [DecidableEq α]

/-- While at most `k` different pages are requested from the load of a page on, the loads
from then on are of different pages, all of them requested. -/
theorem fifoLoads_window {history window : List α} {x : α}
    (absent : x ∉ lastLoads k (fifoLoads k history)) (few : distinct (x :: window) ≤ k) :
    ∃ recent, fifoLoads k (history ++ x :: window) = fifoLoads k history ++ x :: recent ∧
      (x :: recent).Nodup ∧ recent ⊆ window := by
  induction window using List.reverseRecOn with
  | nil =>
      refine ⟨[], ?_, List.nodup_singleton x, List.nil_subset _⟩
      rw [fifoLoads_snoc, fifoLoad, if_neg absent]
  | append_singleton window y ih =>
      have fewer : distinct (x :: window) ≤ k :=
        Nat.le_trans (distinct_le_of_subset (List.cons_subset_cons x
          (List.subset_append_left ..))) few
      obtain ⟨recent, loads, nodup, requested⟩ := ih fewer
      rw [← List.cons_append, ← List.append_assoc, fifoLoads_snoc, loads, fifoLoad]
      split
      · exact ⟨recent, rfl, nodup, List.subset_append_of_subset_left _ requested⟩
      · rename_i missing
        have short : (x :: recent).length ≤ k :=
          Nat.le_trans (length_le_distinct nodup (List.cons_subset_cons x requested)) fewer
        -- none of the recent loads was given up, so the page that is loaded is another one
        have other : y ∉ x :: recent := fun member => missing (mem_lastLoads_append short member)
        refine ⟨recent ++ [y], by simp, ?_, ?_⟩
        · rw [← List.cons_append, List.nodup_append']
          exact ⟨nodup, List.nodup_singleton y, by simpa using other⟩
        · refine List.append_subset.mpr ⟨?_, List.subset_append_right ..⟩
          exact List.subset_append_of_subset_left _ requested

theorem conservative_lastLoads (k : Nat) :
    Conservative (fun history : List α => lastLoads k (fifoLoads k history)) k := by
  intro history x window absent few
  obtain ⟨recent, loads, nodup, requested⟩ := fifoLoads_window absent few
  show x ∈ lastLoads k (fifoLoads k (history ++ x :: window))
  rw [loads]
  refine mem_lastLoads_append ?_ List.mem_cons_self
  exact Nat.le_trans (length_le_distinct nodup (List.cons_subset_cons x requested)) few

end Fifo

/-! ## The faults of a window of rounds -/

section Rounds

variable {σ : Type}

/-- The page of a round that prints a fault. -/
def faulting : Int × Report × σ → Option Int
  | (page, report, _) => if report.isHit then none else some page

/-- The pages of the requests in a window for which a fault is printed, in order. -/
def faultsWithin (seq : List Int) (rounds : List (Report × σ)) (start length : Nat) : List Int :=
  (((seq.zip rounds).drop start).take length).filterMap faulting

variable (step : σ → Int → Report × σ)

theorem simulate_drop (s : σ) (seq : List Int) (i : Nat) :
    (simulate step s seq).drop i = simulate step (after step s (seq.take i)) (seq.drop i) := by
  induction seq generalizing s i with
  | nil => simp [simulate]
  | cons page rest ih =>
      cases i with
      | zero => rfl
      | succ i =>
          rw [simulate, List.drop_succ_cons, List.drop_succ_cons, ih]
          rfl

theorem simulate_take (s : σ) (seq : List Int) (n : Nat) :
    (simulate step s seq).take n = simulate step s (seq.take n) := by
  induction seq generalizing s n with
  | nil => simp [simulate]
  | cons page rest ih =>
      cases n with
      | zero => rfl
      | succ n => rw [List.take_succ_cons, simulate, simulate, List.take_succ_cons, ih]

/-- A step tells the hits of a policy on a sequence. -/
def TellsHits (resident : List Int → List Int) (s : σ) (seq : List Int) : Prop :=
  ∀ earlier page later, seq = earlier ++ page :: later →
    ((step (after step s earlier) page).1.isHit ↔ page ∈ resident earlier)

variable {step} {resident : List Int → List Int} {s : σ}

theorem TellsHits.faults {earlier window later : List Int}
    (tells : TellsHits step resident s (earlier ++ window ++ later)) :
    (window.zip (simulate step (after step s earlier) window)).filterMap faulting =
      faultsFrom resident earlier window := by
  induction window generalizing earlier with
  | nil => rfl
  | cons page window ih =>
      have shifted : earlier ++ page :: window ++ later =
          earlier ++ [page] ++ window ++ later := by simp
      have rest := ih (shifted ▸ tells)
      have told := tells earlier page (window ++ later) (by simp)
      rw [after_snoc] at rest
      rw [simulate, List.zip_cons_cons, List.filterMap_cons, rest, faultsFrom]
      by_cases resides : page ∈ resident earlier
      · rw [if_pos resides, faulting, if_pos (told.mpr resides)]
      · rw [if_neg resides, faulting, if_neg fun isHit => resides (told.mp isHit)]

/-- The faults of a window are those of the policy that tells the hits. -/
theorem TellsHits.faultsWithin {seq : List Int} (tells : TellsHits step resident s seq)
    (start length : Nat) :
    faultsWithin seq (simulate step s seq) start length =
      faultsFrom resident (seq.take start) ((seq.drop start).take length) := by
  have parts : seq = seq.take start ++ (seq.drop start).take length ++
      (seq.drop start).drop length := by
    rw [List.append_assoc, List.take_append_drop, List.take_append_drop]
  rw [Paging.faultsWithin, List.zip, List.drop_zipWith, List.take_zipWith, ← List.zip,
    simulate_drop, simulate_take]
  exact TellsHits.faults (parts ▸ tells)

end Rounds

/-! ## The two simulators -/

theorem fifo_tellsHits {k : Nat} (atLeastOne : 1 ≤ k) {seq : List Int}
    (real : ∀ page ∈ seq, page ≠ -1) :
    TellsHits (fifoStep k) (fun history => lastLoads k (fifoLoads k history)) (fifoInit k) seq := by
  rintro earlier page later rfl
  have layout := @layout_after k atLeastOne earlier fun x member => real x (by simp [member])
  exact fifoStep_isHit layout (real page (by simp))

theorem lru_tellsHits {k : Nat} {seq : List Int} (real : ∀ page ∈ seq, page ≠ -1) :
    TellsHits (lruStep (k + 1)) (mostRecent (k + 1)) (lruInit (k + 1)) seq := by
  rintro earlier page later rfl
  have stamped := @stamped_after k earlier fun x member => real x (by simp [member])
  exact lruStep_isHit stamped (real page (by simp))

/-- **Both simulators are conservative.** In every window of the request sequence with at
most `k` different pages, each page faults at most once, with either simulator, and so
at most `k` faults are printed for the window. The state at the beginning of the window
is whatever the requests before it left. -/
theorem simulators_conservative {k : Nat} (atLeastOne : 1 ≤ k) {seq : List Int}
    (real : ∀ page ∈ seq, page ≠ -1) (start length : Nat)
    (few : distinct ((seq.drop start).take length) ≤ k) :
    ((∀ page, (faultsWithin seq (simulateFifo seq k) start length).count page ≤ 1) ∧
      (faultsWithin seq (simulateFifo seq k) start length).length ≤ k) ∧
    ((∀ page, (faultsWithin seq (simulateLru seq k) start length).count page ≤ 1) ∧
      (faultsWithin seq (simulateLru seq k) start length).length ≤ k) := by
  constructor
  · rw [simulateFifo, (fifo_tellsHits atLeastOne real).faultsWithin]
    refine ⟨List.nodup_iff_count_le_one.mp ?_, ?_⟩
    · exact (conservative_lastLoads k).nodup_faults _ few
    · exact (conservative_lastLoads k).length_faults_le _ few
  · obtain ⟨k, rfl⟩ : ∃ n, k = n + 1 := ⟨k - 1, by omega⟩
    rw [simulateLru, (lru_tellsHits real).faultsWithin]
    refine ⟨List.nodup_iff_count_le_one.mp ?_, ?_⟩
    · exact (conservative_mostRecent (k + 1)).nodup_faults _ few
    · exact (conservative_mostRecent (k + 1)).length_faults_le _ few

/-- Three frames and the last six of ten requests, which are of the pages 1, 4 and 5: with
either simulator page 5 and page 1 fault, once each, and LRU ends with them and page 4 in its
frames, after six faults. -/
theorem simulators_conservative_window :
    faultsWithin [1, 2, 3, 4, 5, 1, 5, 4, 1, 5]
        (simulateFifo [1, 2, 3, 4, 5, 1, 5, 4, 1, 5] 3) 4 6 = [5, 1] ∧
      faultsWithin [1, 2, 3, 4, 5, 1, 5, 4, 1, 5]
        (simulateLru [1, 2, 3, 4, 5, 1, 5, 4, 1, 5] 3) 4 6 = [5, 1] ∧
      (faultsWithin [1, 2, 3, 4, 5, 1, 5, 4, 1, 5]
        (simulateLru [1, 2, 3, 4, 5, 1, 5, 4, 1, 5] 3) 4 6).length ≤ 3 ∧
      (lruAfter 3 [1, 2, 3, 4, 5, 1, 5, 4, 1, 5]).frames = [4, 5, 1] ∧
      (lruAfter 3 [1, 2, 3, 4, 5, 1, 5, 4, 1, 5]).pageFaults = 6 := by
  have window := @simulators_conservative 3 (by decide) [1, 2, 3, 4, 5, 1, 5, 4, 1, 5] (by decide)
    4 6 (by decide)
  exact ⟨by decide, by decide, window.2.2, by decide, by decide⟩

end OsLab.Paging
