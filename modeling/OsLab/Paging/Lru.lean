import OsLab.Foundation.Recency
import OsLab.Paging.Model

/-!
# LRU replacement

The specification knows only the request sequence: with `k` frames the resident pages
are the `k` distinct pages requested last (`mostRecent`).

The simulator knows only the time of the last use of every frame. `Stamped` relates the
two: the pages in the frames are the specification's, and the stamp of a page is the
time of its last request. The search for the smallest stamp then finds the last of the
`k` pages (`Stamped.victim`), and a round writes one frame and its stamp in all three
branches (`lruStep_cases`).

`simulateLru_refines` is the refinement. `simulateLru_inclusion` compares two runs with
different numbers of frames: the pages resident with fewer frames are the beginning of
the same list, so more frames never give more faults.
-/

set_option autoImplicit false

namespace OsLab.Paging

open OsLab.Foundation

/-! ## The search for the smallest stamp -/

/-- The loop up to index `n` ends at an index whose stamp is the smallest so far. -/
theorem lruIndex_loop (lastUsed : List Int) (n : Nat) :
    lruIndex (n + 1) lastUsed ≤ n ∧
      ∀ j ≤ n, lastUsed.getD (lruIndex (n + 1) lastUsed) (-1) ≤ lastUsed.getD j (-1) := by
  induction n with
  | zero =>
      refine ⟨Nat.le_refl 0, fun j atMost => ?_⟩
      rw [Nat.le_zero.mp atMost]
      exact Int.le_refl _
  | succ n ih =>
      obtain ⟨inside, smallest⟩ := ih
      have round : lruIndex (n + 1 + 1) lastUsed =
          if lastUsed.getD (n + 1) (-1) < lastUsed.getD (lruIndex (n + 1) lastUsed) (-1)
          then n + 1 else lruIndex (n + 1) lastUsed := by
        rw [lruIndex, Nat.add_sub_cancel, List.range'_concat, List.foldl_append, Nat.one_mul,
          Nat.add_comm 1 n]
        rfl
      rw [round]
      split
      · rename_i smaller
        refine ⟨Nat.le_refl _, fun j atMost => ?_⟩
        rcases Nat.le_succ_iff.mp atMost with earlier | rfl
        · exact Int.le_trans (Int.le_of_lt smaller) (smallest j earlier)
        · exact Int.le_refl _
      · rename_i notSmaller
        refine ⟨Nat.le_trans inside (Nat.le_succ n), fun j atMost => ?_⟩
        rcases Nat.le_succ_iff.mp atMost with earlier | rfl
        · exact smallest j earlier
        · exact Int.not_lt.mp notSmaller

/-! ## Stamps are times of last requests -/

/-- The variables of `simulate_lru` after the given requests. -/
structure Stamped (k : Nat) (pre : List Int) (s : Lru) : Prop where
  frames : s.frames.length = k
  stamps : s.lastUsed.length = k
  clock : s.timeCounter = pre.length
  resident : (occupied s.frames).Perm (mostRecent k pre)
  stamped : ∀ (j : Nat) (page : Int), s.frames[j]? = some page → page ≠ -1 →
    s.lastUsed[j]? = some (lastTime pre page : Int)

/-- The write of a round: the page goes into frame `i` and the frame is stamped. -/
def Lru.write (s : Lru) (i : Nat) (page : Int) (faults : Nat) : Lru where
  frames := s.frames.set i page
  lastUsed := s.lastUsed.set i (s.timeCounter + 1 : Nat)
  pageFaults := faults
  timeCounter := s.timeCounter + 1

theorem stamped_init (k : Nat) : Stamped k [] (lruInit k) where
  frames := List.length_replicate ..
  stamps := List.length_replicate ..
  clock := rfl
  resident := by simp [lruInit, occupied_replicate, mostRecent]
  stamped j page there isPage := by
    have := List.mem_of_getElem? there
    exact absurd (List.eq_of_mem_replicate this) isPage

namespace Stamped

variable {k : Nat} {pre : List Int} {s : Lru}

/-- The hit search finds a page exactly when it is resident. -/
theorem mem_frames (stamped : Stamped k pre s) {page : Int} (real : page ≠ -1) :
    page ∈ s.frames ↔ page ∈ mostRecent k pre := by
  rw [← stamped.resident.mem_iff, mem_occupied]
  simp [real]

/-- A page is in one frame only. -/
theorem slot_unique (stamped : Stamped k pre s) {i j : Nat} {page : Int} (real : page ≠ -1)
    (first : s.frames[i]? = some page) (second : s.frames[j]? = some page) : j = i := by
  by_contra apart
  have distinct : (occupied s.frames).Nodup :=
    stamped.resident.nodup_iff.mpr (nodup_mostRecent k pre)
  obtain ⟨whole, -⟩ := set_perm first page
  have remaining : (occupied s.frames).Perm (page :: occupied (s.frames.eraseIdx i)) := by
    simpa [occupied, real] using whole.filter (· ≠ -1)
  refine (List.nodup_cons.mp (remaining.nodup_iff.mp distinct)).1 (mem_occupied.mpr ⟨?_, real⟩)
  exact List.mem_eraseIdx_iff_getElem?.mpr ⟨j, apart, second⟩

/-- A write keeps the stamps right when the page is in no other frame. -/
theorem write (stamped : Stamped k pre s) {i : Nat} {page : Int} (inside : i < k)
    (elsewhere : ∀ j : Nat, s.frames[j]? = some page → j = i) (faults : Nat)
    (resident : (occupied (s.frames.set i page)).Perm (mostRecent k (pre ++ [page]))) :
    Stamped k (pre ++ [page]) (s.write i page faults) where
  frames := by rw [Lru.write, List.length_set, stamped.frames]
  stamps := by rw [Lru.write, List.length_set, stamped.stamps]
  clock := by rw [Lru.write, stamped.clock, List.length_append, List.length_singleton]
  resident := resident
  stamped := by
    intro j x there isPage
    have here : i < s.lastUsed.length := by rw [stamped.stamps]; exact inside
    simp only [Lru.write] at there ⊢
    rcases eq_or_ne i j with rfl | other
    · rw [List.getElem?_set_self (by rw [stamped.frames]; exact inside), Option.some_inj] at there
      rw [List.getElem?_set_self here, lastTime_snoc, if_pos there.symm, stamped.clock]
    · rw [List.getElem?_set_ne other] at there
      have otherPage : x ≠ page := by
        rintro rfl
        exact other (elsewhere j there).symm
      rw [List.getElem?_set_ne other, lastTime_snoc, if_neg otherPage]
      exact stamped.stamped j x there isPage

/-- With every frame occupied, the search finds the resident page whose last request is
the oldest. -/
theorem victim (stamped : Stamped (k + 1) pre s) (full : (-1 : Int) ∉ s.frames) :
    ∃ page, s.frames[lruIndex (k + 1) s.lastUsed]? = some page ∧
      mostRecent (k + 1) pre = mostRecent k pre ++ [page] := by
  obtain ⟨inside, smallest⟩ := lruIndex_loop s.lastUsed k
  have resident := stamped.resident
  rw [occupied_of_full full] at resident
  have long : k + 1 ≤ (recency pre).length := by
    have := resident.length_eq
    rw [stamped.frames, mostRecent, List.length_take] at this
    omega
  have stamp : ∀ (j : Nat) (page : Int), s.frames[j]? = some page →
      s.lastUsed.getD j (-1) = lastTime pre page := by
    intro j page there
    have isPage : page ≠ -1 := ne_of_mem_of_not_mem (List.mem_of_getElem? there) full
    rw [List.getD_eq_getElem?_getD, stamped.stamped j page there isPage, Option.getD_some]
  obtain ⟨page, there⟩ : ∃ page, s.frames[lruIndex (k + 1) s.lastUsed]? = some page :=
    ⟨_, List.getElem?_eq_getElem (by rw [stamped.frames]; omega)⟩
  have split : mostRecent (k + 1) pre = mostRecent k pre ++ [(recency pre)[k]] := by
    rw [mostRecent, List.take_add_one, List.getElem?_eq_getElem (by omega)]
    rfl
  have oldest : ∀ y ∈ mostRecent (k + 1) pre, lastTime pre page ≤ lastTime pre y := by
    intro y member
    obtain ⟨j, at_j⟩ := List.mem_iff_getElem?.mp (resident.mem_iff.mpr member)
    have bound : j < k + 1 := by
      rw [← stamped.frames]
      exact (List.getElem?_eq_some_iff.mp at_j).1
    have := smallest j (Nat.lt_succ_iff.mp bound)
    rw [stamp _ _ there, stamp _ _ at_j] at this
    exact Int.ofNat_le.mp this
  refine ⟨page, there, ?_⟩
  rw [eq_last_of_oldest split (resident.mem_iff.mp (List.mem_of_getElem? there)) oldest]
  exact split

end Stamped

/-! ## One round -/

section Round

variable {k : Nat} {pre : List Int} {s : Lru} {page : Int}

/-- What a round does: it writes the frame of the page, an empty frame, or the frame of
the last of the resident pages. -/
theorem lruStep_cases (stamped : Stamped (k + 1) pre s) (real : page ≠ -1) :
    (page ∈ mostRecent (k + 1) pre ∧ ∃ i, s.frames[i]? = some page ∧
      lruStep (k + 1) s page = (.hit (some i), s.write i page s.pageFaults)) ∨
    (page ∉ mostRecent (k + 1) pre ∧ ∃ i : Nat, s.frames[i]? = some (-1) ∧
      lruStep (k + 1) s page = (.placed i, s.write i page (s.pageFaults + 1))) ∨
    (page ∉ mostRecent (k + 1) pre ∧ -1 ∉ s.frames ∧ ∃ (i : Nat) (victim : Int),
      s.frames[i]? = some victim ∧ mostRecent (k + 1) pre = mostRecent k pre ++ [victim] ∧
      lruStep (k + 1) s page = (.replaced victim i, s.write i page (s.pageFaults + 1))) := by
  by_cases resident : page ∈ mostRecent (k + 1) pre
  · obtain ⟨i, found⟩ := Option.isSome_iff_exists.mp
      (slotOf_isSome.mpr ((stamped.mem_frames real).mpr resident))
    have there := getElem?_of_slotOf found
    refine .inl ⟨resident, i, there, ?_⟩
    simp only [lruStep, found, Lru.write, set_of_getElem? there]
  · have missing : slotOf page s.frames = none :=
      slotOf_eq_none.mpr fun member => resident ((stamped.mem_frames real).mp member)
    refine .inr ?_
    cases free : slotOf (-1) s.frames with
    | some i =>
        refine .inl ⟨resident, i, getElem?_of_slotOf free, ?_⟩
        simp only [lruStep, missing, free, Lru.write]
    | none =>
        have full := slotOf_eq_none.mp free
        obtain ⟨victim, there, last⟩ := stamped.victim full
        refine .inr ⟨resident, full, _, victim, there, last, ?_⟩
        simp only [lruStep, missing, free, Lru.write, List.getD_eq_getElem?_getD, there,
          Option.getD_some]

/-- A round prints a hit exactly when the page is resident. -/
theorem lruStep_isHit (stamped : Stamped (k + 1) pre s) (real : page ≠ -1) :
    (lruStep (k + 1) s page).1.isHit ↔ page ∈ mostRecent (k + 1) pre := by
  rcases lruStep_cases stamped real with
    ⟨recent, i, -, round⟩ | ⟨absent, i, -, round⟩ | ⟨absent, -, i, victim, -, -, round⟩
  · rw [round]
    exact ⟨fun _ => recent, fun _ => rfl⟩
  · rw [round]
    exact ⟨fun isHit => (nomatch isHit), fun recent => absurd recent absent⟩
  · rw [round]
    exact ⟨fun isHit => (nomatch isHit), fun recent => absurd recent absent⟩

/-- The write of a round leaves the pages requested last in the frames. -/
theorem stamped_step (stamped : Stamped (k + 1) pre s) (real : page ≠ -1) :
    Stamped (k + 1) (pre ++ [page]) (lruStep (k + 1) s page).2 := by
  have bound : ∀ {i : Nat} {old : Int}, s.frames[i]? = some old → i < k + 1 := by
    intro i old there
    rw [← stamped.frames]
    exact (List.getElem?_eq_some_iff.mp there).1
  have nowhere : page ∉ mostRecent (k + 1) pre → ∀ (i j : Nat), s.frames[j]? = some page → j = i :=
    fun absent _ _ there =>
      absurd ((stamped.mem_frames real).mp (List.mem_of_getElem? there)) absent
  rcases lruStep_cases stamped real with
    ⟨recent, i, there, round⟩ | ⟨absent, i, free, round⟩ | ⟨absent, full, i, victim, there, last, round⟩
  · rw [round]
    refine stamped.write (bound there) (fun j other => stamped.slot_unique real there other) _ ?_
    rw [set_of_getElem? there, mostRecent_of_mem recent]
    exact stamped.resident.trans (List.perm_cons_erase recent)
  · rw [round]
    refine stamped.write (bound free) (nowhere absent i) _ ?_
    have added := occupied_set_empty free real
    -- an empty frame means that fewer than `k + 1` pages were ever requested
    have few : (recency pre).length ≤ k := by
      have entries := (occupied_set_empty free real).length_eq
      have atMost := List.length_filter_le (fun x : Int => decide (x ≠ -1)) (s.frames.set i page)
      rw [← occupied, entries, List.length_cons, stamped.resident.length_eq, mostRecent,
        List.length_take, List.length_set, stamped.frames] at atMost
      omega
    have all : mostRecent (k + 1) pre = mostRecent k pre := by
      rw [mostRecent, mostRecent, List.take_of_length_le few,
        List.take_of_length_le (Nat.le_succ_of_le few)]
    rw [all] at absent
    rw [mostRecent_of_notMem absent, ← all]
    exact added.trans (stamped.resident.cons page)
  · rw [round]
    refine stamped.write (bound there) (nowhere absent i) _ ?_
    have isPage : victim ≠ -1 := ne_of_mem_of_not_mem (List.mem_of_getElem? there) full
    obtain ⟨rest, before, after⟩ := occupied_set_page there isPage real
    have kept : rest.Perm (mostRecent k pre) := by
      refine (List.perm_cons victim).mp (before.symm.trans (stamped.resident.trans ?_))
      rw [last]
      exact List.perm_append_singleton ..
    rw [mostRecent_of_notMem fun recent => absent (by rw [last]; simp [recent])]
    exact after.trans (kept.cons page)

/-- A round counts a fault exactly when the page is not resident. -/
theorem lruStep_faults (stamped : Stamped (k + 1) pre s) (real : page ≠ -1) :
    (lruStep (k + 1) s page).2.pageFaults =
      s.pageFaults + if page ∈ mostRecent (k + 1) pre then 0 else 1 := by
  rcases lruStep_cases stamped real with
    ⟨recent, i, -, round⟩ | ⟨absent, i, -, round⟩ | ⟨absent, -, i, victim, -, -, round⟩
  · rw [round, if_pos recent]
    rfl
  · rw [round, if_neg absent]
    rfl
  · rw [round, if_neg absent]
    rfl

end Round

/-! ## Whole sequences -/

/-- The frames and stamps after every request sequence. -/
theorem stamped_after {k : Nat} {seq : List Int} (real : ∀ page ∈ seq, page ≠ -1) :
    Stamped (k + 1) seq (lruAfter (k + 1) seq) := by
  refine after_invariant _ (Stamped (k + 1)) (stamped_init (k + 1)) real ?_
  intro pre page s isPage stamped
  exact stamped_step stamped isPage

/-- **`simulate_lru` is LRU replacement.** After every round the pages in the frames are
the `min k d` distinct pages requested last, without duplicates, where `d` is the number
of distinct pages so far; the round prints a hit exactly when the page was among them
before; and with all frames occupied a fault writes the page over the resident page
whose last request is the oldest. -/
theorem simulateLru_refines {k : Nat} (atLeastOne : 1 ≤ k) {seq : List Int}
    (real : ∀ page ∈ seq, page ≠ -1) :
    (simulateLru seq k).length = seq.length ∧
    ∀ (i : Nat) (page : Int) (report : Report) (s : Lru),
      seq[i]? = some page → (simulateLru seq k)[i]? = some (report, s) →
      let before := seq.take i
      let requests := seq.take (i + 1)
      let frames := (lruAfter k before).frames
      ((occupied s.frames).Nodup ∧ (occupied s.frames).Perm (mostRecent k requests) ∧
        (occupied s.frames).length = min k requests.dedup.length) ∧
      (report.isHit ↔ page ∈ mostRecent k before) ∧
      (page ∉ mostRecent k before → -1 ∉ frames →
        ∃ victim slot, frames[slot]? = some victim ∧
          (∀ other ∈ frames, other ≠ victim → lastTime before victim < lastTime before other) ∧
          report = .replaced victim slot ∧ s.frames = frames.set slot page) := by
  refine ⟨simulate_length .., ?_⟩
  obtain ⟨k, rfl⟩ : ∃ n, k = n + 1 := ⟨k - 1, by omega⟩
  intro i page report s request round
  obtain ⟨stepped, longer, left⟩ := simulate_round _ request round
  have isPage : page ≠ -1 := real page (List.mem_of_getElem? request)
  have stamped : Stamped (k + 1) (seq.take i) (lruAfter (k + 1) (seq.take i)) :=
    stamped_after fun x member => real x (List.mem_of_mem_take member)
  have stampedAfter : Stamped (k + 1) (seq.take (i + 1)) s := by
    have := stamped_step stamped isPage
    rwa [← longer, lruAfter, stepped] at this
  have cases := lruStep_cases stamped isPage
  rw [show lruStep (k + 1) (lruAfter (k + 1) (seq.take i)) page = (report, s) from stepped] at cases
  intro before requests frames
  refine ⟨⟨?_, stampedAfter.resident, ?_⟩, ?_, ?_⟩
  · exact stampedAfter.resident.nodup_iff.mpr (nodup_mostRecent ..)
  · rw [stampedAfter.resident.length_eq, mostRecent_length]
  · have told := lruStep_isHit stamped isPage
    rwa [lruAfter, stepped] at told
  · intro fault full
    rcases cases with ⟨recent, -⟩ | ⟨-, slot, free, -⟩ | ⟨-, -, slot, victim, there, last, outcome⟩
    · exact absurd recent fault
    · exact absurd (List.mem_of_getElem? free) full
    · refine ⟨victim, slot, there, ?_, congrArg Prod.fst outcome,
        congrArg (fun round => round.2.frames) outcome⟩
      intro other inFrame notVictim
      have recent := stamped.resident.mem_iff.mp (by rwa [occupied_of_full full])
      exact lastTime_last_lt last recent notVictim

/-- A hit on page 1 keeps it, so with three frames the request of 4 replaces page 2. -/
theorem simulateLru_refines_hit :
    (simulateLru [1, 2, 3, 1, 4] 3)[4]? = some (.replaced 2 1, ⟨[1, 4, 3], [4, 5, 3], 4, 5⟩) ∧
      (occupied [1, 4, 3]).Perm (mostRecent 3 [1, 2, 3, 1, 4]) ∧
      mostRecent 3 [1, 2, 3, 1, 4] = ([4, 1, 3] : List Int) := by
  obtain ⟨-, rounds⟩ := @simulateLru_refines 3 (by decide) [1, 2, 3, 1, 4] (by decide)
  have fifth := rounds 4 4 (.replaced 2 1) ⟨[1, 4, 3], [4, 5, 3], 4, 5⟩ (by decide) (by decide)
  exact ⟨by decide, fifth.1.2.1, by decide⟩

/-- **More frames never hurt LRU.** The pages resident with `n` frames are resident with
`m ≥ n` frames after every prefix of the sequence, and the run with `m` frames reports
at most as many page faults. -/
theorem simulateLru_inclusion {n m : Nat} (atLeastOne : 1 ≤ n) (fewer : n ≤ m) {seq : List Int}
    (real : ∀ page ∈ seq, page ≠ -1) :
    (∀ i page, page ∈ occupied (lruAfter n (seq.take i)).frames →
      page ∈ occupied (lruAfter m (seq.take i)).frames) ∧
    (lruAfter m seq).pageFaults ≤ (lruAfter n seq).pageFaults := by
  obtain ⟨n, rfl⟩ : ∃ j, n = j + 1 := ⟨n - 1, by omega⟩
  obtain ⟨m, rfl⟩ : ∃ j, m = j + 1 := ⟨m - 1, by omega⟩
  constructor
  · intro i page resident
    have realBefore : ∀ page ∈ seq.take i, page ≠ -1 :=
      fun x member => real x (List.mem_of_mem_take member)
    refine (stamped_after realBefore).resident.mem_iff.mpr ?_
    exact mostRecent_subset fewer _ ((stamped_after realBefore).resident.mem_iff.mp resident)
  · induction seq using List.reverseRecOn with
    | nil => exact Nat.le_refl 0
    | append_singleton pre page ih =>
        have realBefore : ∀ page ∈ pre, page ≠ -1 := fun x member => real x (by simp [member])
        have isPage : page ≠ -1 := real page (by simp)
        have atMost := ih realBefore
        rw [lruAfter, lruAfter, after_snoc, after_snoc, ← lruAfter, ← lruAfter,
          lruStep_faults (stamped_after realBefore) isPage,
          lruStep_faults (stamped_after realBefore) isPage]
        -- a hit with fewer frames is a hit with more
        by_cases recent : page ∈ mostRecent (n + 1) pre
        · rw [if_pos recent, if_pos (mostRecent_subset fewer pre recent)]
          exact atMost
        · rw [if_neg recent]
          split <;> omega

/-- The requests 1, 2, 3, 4, 1 with three and with four frames: the frames after the fourth,
and the page faults. -/
theorem simulateLru_inclusion_four :
    ((lruAfter 3 [1, 2, 3, 4]).frames = [4, 2, 3] ∧
        (lruAfter 4 [1, 2, 3, 4]).frames = [1, 2, 3, 4] ∧
        ∀ page ∈ occupied (lruAfter 3 [1, 2, 3, 4]).frames,
          page ∈ occupied (lruAfter 4 [1, 2, 3, 4]).frames) ∧
      (lruAfter 3 [1, 2, 3, 4, 1]).pageFaults = 5 ∧ (lruAfter 4 [1, 2, 3, 4, 1]).pageFaults = 4 ∧
      (lruAfter 4 [1, 2, 3, 4, 1]).pageFaults ≤ (lruAfter 3 [1, 2, 3, 4, 1]).pageFaults := by
  obtain ⟨resident, faults⟩ := @simulateLru_inclusion 3 4 (by decide) (by decide)
    [1, 2, 3, 4, 1] (by decide)
  exact ⟨⟨by decide, by decide, resident 4⟩, by decide, by decide, faults⟩

end OsLab.Paging
