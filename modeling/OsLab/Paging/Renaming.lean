import Mathlib.Data.List.TakeWhile
import Mathlib.Logic.Equiv.Basic
import OsLab.Foundation.Replacement
import OsLab.Paging.Model

/-!
# Renaming the pages

The simulators compare page numbers and do nothing else with them, with one exception:
`-1` stands for an empty frame. A renaming that keeps `-1` apart from the pages turns
the rounds of a run into the renamed rounds (`simulate_rename`).

`read_manual_sequence` delivers any numbers (`readManualSequence_any`), `-1` among them,
and then the exception shows: while a frame is empty, a request of `-1` is a hit. The
first request that is `-1` under one of the two names only therefore tells the two runs
apart, as long as fewer different pages were requested before than there are frames
(`WritesMissing.verdict_of_mismatch`). `simulators_rename_of_frames` says this for one number of
frames, `simulators_rename_iff` that over all numbers there is no other case.
-/

set_option autoImplicit false

namespace OsLab.Paging

open OsLab.Foundation

/-! ## The sequences that are read -/

def maxSeq : Nat := 1000

/-- `read_manual_sequence`: the requests in the array when it returns, as many as it
returns. `input` are the numbers that `scanf` converts before it fails. -/
def readManualSequence (maxLen : Nat) : List Int → List Int
  | [] => []
  | n :: numbers => if n ≤ 0 ∨ n > maxLen then [] else numbers.take n.toNat

/-- Every sequence of at most `max_len` numbers can be entered. -/
theorem readManualSequence_any {maxLen : Nat} {seq : List Int} (some : seq ≠ [])
    (fits : seq.length ≤ maxLen) : readManualSequence maxLen (seq.length :: seq) = seq := by
  have positive := List.length_pos_iff.mpr some
  rw [readManualSequence, if_neg (by omega), Int.toNat_natCast, List.take_length]

/-! ## What is compared -/

/-- The frame that a round prints. -/
def Report.slot : Report → Option Nat
  | .hit frame => frame
  | .placed slot => some slot
  | .replaced _ slot => some slot

/-- The verdict and the frame of every round. -/
def verdicts {σ : Type} (rounds : List (Report × σ)) : List (Bool × Option Nat) :=
  rounds.map fun round => (round.1.isHit, round.1.slot)

/-- A page of the sequence is `-1` under both names or under none. -/
def KeepsEmpty (f : Int → Int) (seq : List Int) : Prop :=
  ∀ page ∈ seq, (f page = -1 ↔ page = -1)

/-! ## Renaming that keeps the empty frame -/

section Rename

variable {g : Int → Int}

def Report.rename (g : Int → Int) : Report → Report
  | .hit frame => .hit frame
  | .placed slot => .placed slot
  | .replaced page slot => .replaced (g page) slot

def Fifo.rename (g : Int → Int) (s : Fifo) : Fifo := { s with frames := s.frames.map g }

def Lru.rename (g : Int → Int) (s : Lru) : Lru := { s with frames := s.frames.map g }

theorem slotOf_map (injective : Function.Injective g) (x : Int) (frames : List Int) :
    slotOf (g x) (frames.map g) = slotOf x frames := by
  rw [slotOf, slotOf, List.findIdx?_map]
  congr 1
  funext y
  simp [injective.eq_iff]

theorem slotOf_empty_map (injective : Function.Injective g) (empty : g (-1) = -1)
    (frames : List Int) : slotOf (-1) (frames.map g) = slotOf (-1) frames := by
  have same := slotOf_map injective (-1) frames
  rwa [empty] at same

theorem getD_map (empty : g (-1) = -1) (frames : List Int) (i : Nat) :
    (frames.map g).getD i (-1) = g (frames.getD i (-1)) := by
  rw [List.getD_eq_getElem?_getD, List.getD_eq_getElem?_getD, List.getElem?_map]
  cases frames[i]? with
  | none => exact empty.symm
  | some page => rfl

theorem fifoStep_rename (injective : Function.Injective g) (empty : g (-1) = -1) (k : Nat)
    (s : Fifo) (page : Int) :
    fifoStep k (s.rename g) (g page) =
      ((fifoStep k s page).1.rename g, (fifoStep k s page).2.rename g) := by
  simp only [fifoStep, Fifo.rename, slotOf_map injective, slotOf_empty_map injective empty,
    getD_map empty]
  cases slotOf page s.frames with
  | some i => rfl
  | none =>
      cases slotOf (-1) s.frames with
      | some i => simp [Report.rename]
      | none => simp [Report.rename]

theorem lruStep_rename (injective : Function.Injective g) (empty : g (-1) = -1) (k : Nat)
    (s : Lru) (page : Int) :
    lruStep k (s.rename g) (g page) =
      ((lruStep k s page).1.rename g, (lruStep k s page).2.rename g) := by
  simp only [lruStep, Lru.rename, slotOf_map injective, slotOf_empty_map injective empty,
    getD_map empty]
  cases slotOf page s.frames with
  | some i => rfl
  | none =>
      cases slotOf (-1) s.frames with
      | some i => simp [Report.rename]
      | none => simp [Report.rename]

end Rename

section Runs

variable {σ : Type} {step : σ → Int → Report × σ} {g : Int → Int} {ren : σ → σ}
  (commutes : ∀ s page, step (ren s) (g page) = ((step s page).1.rename g, ren (step s page).2))

include commutes

/-- The rounds of the renamed sequence are the renamed rounds. -/
theorem simulate_rename (s : σ) (seq : List Int) :
    simulate step (ren s) (seq.map g) =
      (simulate step s seq).map fun round => (round.1.rename g, ren round.2) := by
  induction seq generalizing s with
  | nil => rfl
  | cons page rest ih => rw [List.map_cons, simulate, simulate, List.map_cons, commutes, ih]

theorem after_rename (s : σ) (seq : List Int) :
    after step (ren s) (seq.map g) = ren (after step s seq) := by
  induction seq using List.reverseRecOn with
  | nil => rfl
  | append_singleton seq page ih =>
      rw [List.map_append, List.map_singleton, after_snoc, after_snoc, ih, commutes]

theorem verdicts_rename (s : σ) (seq : List Int) :
    verdicts (simulate step (ren s) (seq.map g)) = verdicts (simulate step s seq) := by
  rw [simulate_rename commutes, verdicts, verdicts, List.map_map]
  refine List.map_congr_left fun round _ => ?_
  obtain ⟨report, t⟩ := round
  cases report with
  | hit frame => rfl
  | placed slot => rfl
  | replaced page slot => rfl

end Runs

theorem fifoInit_rename {g : Int → Int} (empty : g (-1) = -1) (k : Nat) :
    (fifoInit k).rename g = fifoInit k := by
  simp [fifoInit, Fifo.rename, empty]

theorem lruInit_rename {g : Int → Int} (empty : g (-1) = -1) (k : Nat) :
    (lruInit k).rename g = lruInit k := by
  simp [lruInit, Lru.rename, empty]

/-- A renaming that keeps the empty frame apart on a sequence is on that sequence the same
as one that keeps it apart from all pages. -/
theorem KeepsEmpty.extend {f : Int → Int} (injective : Function.Injective f) {seq : List Int}
    (keeps : KeepsEmpty f seq) :
    ∃ g : Int → Int, Function.Injective g ∧ g (-1) = -1 ∧ seq.map f = seq.map g := by
  refine ⟨fun page => Equiv.swap (f (-1)) (-1) (f page), ?_, Equiv.swap_apply_left .., ?_⟩
  · exact (Equiv.swap (f (-1)) (-1)).injective.comp injective
  · refine List.map_congr_left fun page member => ?_
    by_cases sentinel : page = -1
    · subst sentinel
      rw [Equiv.swap_apply_left]
      exact (keeps _ member).mpr rfl
    · refine (Equiv.swap_apply_of_ne_of_ne ?_ ?_).symm
      · exact fun same => sentinel (injective same)
      · exact fun same => sentinel ((keeps page member).mp same)

/-! ## The first page that is not kept apart -/

/-- What the frames can hold after the requests of `pre`: empty frames and pages that were
requested, no page twice. -/
structure Requested (k : Nat) (pre frames : List Int) : Prop where
  length : frames.length = k
  nodup : (occupied frames).Nodup
  among : occupied frames ⊆ pre

namespace Requested

variable {k : Nat} {pre frames : List Int}

theorem init (k : Nat) : Requested k [] (List.replicate k (-1)) where
  length := List.length_replicate ..
  nodup := by simp [occupied_replicate]
  among := by simp [occupied_replicate]

theorem kept (requested : Requested k pre frames) (page : Int) :
    Requested k (pre ++ [page]) frames where
  length := requested.length
  nodup := requested.nodup
  among := List.subset_append_of_subset_left _ requested.among

/-- A missing page is written into one of the frames. -/
theorem written (requested : Requested k pre frames) {page : Int} (missing : page ∉ frames)
    (i : Nat) : Requested k (pre ++ [page]) (frames.set i page) := by
  rcases Nat.lt_or_ge i frames.length with inside | outside
  · have rest : (occupied (frames.eraseIdx i)).Sublist (occupied frames) :=
      (List.eraseIdx_sublist frames i).filter _
    have entries : (occupied (frames.set i page)).Perm
        (occupied [page] ++ occupied (frames.eraseIdx i)) := by
      rw [occupied, occupied, occupied, ← List.filter_append]
      exact (List.set_perm_cons_eraseIdx inside page).filter _
    refine ⟨by rw [List.length_set, requested.length], entries.nodup_iff.mpr ?_, ?_⟩
    · refine List.nodup_append'.mpr ⟨?_, requested.nodup.sublist rest, ?_⟩
      · exact (List.nodup_singleton page).sublist List.filter_sublist
      · intro x isPage held
        have same : x = page := List.mem_singleton.mp (mem_occupied.mp isPage).1
        exact missing (same ▸ (mem_occupied.mp (rest.subset held)).1)
    · intro x member
      rcases List.mem_append.mp (entries.subset member) with isPage | held
      · exact List.mem_append_right _ (mem_occupied.mp isPage).1
      · exact List.mem_append_left _ (requested.among (rest.subset held))
  · rw [List.set_eq_of_length_le outside]
    exact requested.kept page

/-- With fewer different requests than frames, a frame is empty. -/
theorem empty_mem (requested : Requested k pre frames) (few : distinct pre < k) : -1 ∈ frames := by
  by_contra full
  have bound := length_le_distinct requested.nodup requested.among
  rw [occupied_of_full full, requested.length] at bound
  omega

/-- A page that was not requested is in no frame. -/
theorem notMem_of_new (requested : Requested k pre frames) {page : Int} (real : page ≠ -1)
    (new : page ∉ pre) : page ∉ frames :=
  fun member => new (requested.among (mem_occupied.mpr ⟨member, real⟩))

end Requested

section Mismatch

variable {σ : Type} (step : σ → Int → Report × σ) (framesOf : σ → List Int)

theorem verdicts_getElem? (s : σ) (pre later : List Int) (page : Int) :
    (verdicts (simulate step s (pre ++ page :: later)))[pre.length]? =
      some ((step (after step s pre) page).1.isHit, (step (after step s pre) page).1.slot) := by
  simp [verdicts, simulate_getElem?]

/-- A round prints a hit and leaves the frames, or it prints a fault and writes the missing
page into one of them. -/
def WritesMissing : Prop :=
  ∀ s page,
    (page ∈ framesOf s ∧ (step s page).1.isHit = true ∧ framesOf (step s page).2 = framesOf s) ∨
    (page ∉ framesOf s ∧ (step s page).1.isHit = false ∧
      ∃ i, framesOf (step s page).2 = (framesOf s).set i page)

variable {step framesOf} (writes : WritesMissing step framesOf)

include writes

theorem WritesMissing.isHit_iff (s : σ) (page : Int) :
    (step s page).1.isHit = true ↔ page ∈ framesOf s := by
  rcases writes s page with ⟨there, hit, -⟩ | ⟨missing, fault, -⟩
  · simp [there, hit]
  · simp [missing, fault]

variable {k : Nat} {s : σ} (init : framesOf s = List.replicate k (-1))

include init

theorem WritesMissing.requested (seq : List Int) :
    Requested k seq (framesOf (after step s seq)) := by
  induction seq using List.reverseRecOn with
  | nil =>
      rw [after, List.foldl_nil, init]
      exact Requested.init k
  | append_singleton pre page ih =>
      rw [after_snoc]
      rcases writes (after step s pre) page with ⟨-, -, left⟩ | ⟨missing, -, i, written⟩
      · rw [left]
        exact ih.kept page
      · rw [written]
        exact ih.written missing i

/-- With an empty frame, a request of `-1` is a hit. -/
theorem WritesMissing.hit_of_empty {pre : List Int} (few : distinct pre < k) :
    (step (after step s pre) (-1)).1.isHit = true :=
  (writes.isHit_iff _ _).mpr ((writes.requested init pre).empty_mem few)

/-- The first request of a page other than `-1` is a fault. -/
theorem WritesMissing.fault_of_new {pre : List Int} {page : Int} (real : page ≠ -1)
    (new : page ∉ pre) : (step (after step s pre) page).1.isHit = false := by
  rw [← Bool.not_eq_true, writes.isHit_iff]
  exact (writes.requested init pre).notMem_of_new real new

/-- **The first page that is `-1` under one name only tells the two runs apart**, when
fewer different pages than frames were requested before it. -/
theorem WritesMissing.verdict_of_mismatch {f : Int → Int} (injective : Function.Injective f)
    {pre : List Int} {page : Int} (keeps : KeepsEmpty f pre)
    (mismatch : ¬ (f page = -1 ↔ page = -1)) (few : distinct pre < k) :
    (step (after step s (pre.map f)) (f page)).1.isHit ≠
      (step (after step s pre) page).1.isHit := by
  have new : page ∉ pre := fun member => mismatch (keeps page member)
  have newName : f page ∉ pre.map f := fun member =>
    new ((List.mem_map_of_injective injective).mp member)
  have fewNames : distinct (pre.map f) < k := by
    rwa [distinct, List.dedup_map_of_injective injective, List.length_map, ← distinct]
  by_cases sentinel : page = -1
  · have real : f page ≠ -1 := fun name => mismatch ⟨fun _ => sentinel, fun _ => name⟩
    rw [writes.fault_of_new init real newName, sentinel, writes.hit_of_empty init few]
    exact Bool.false_ne_true
  · have name : f page = -1 := by
      by_contra real
      exact mismatch ⟨fun h => absurd h real, fun h => absurd h sentinel⟩
    rw [writes.fault_of_new init sentinel new, name, writes.hit_of_empty init fewNames]
    exact Bool.false_ne_true.symm

theorem WritesMissing.verdicts_ne {f : Int → Int} (injective : Function.Injective f)
    {pre later : List Int} {page : Int} (keeps : KeepsEmpty f pre)
    (mismatch : ¬ (f page = -1 ↔ page = -1)) (few : distinct pre < k) :
    verdicts (simulate step s ((pre ++ page :: later).map f)) ≠
      verdicts (simulate step s (pre ++ page :: later)) := by
  intro same
  have renamed := verdicts_getElem? step s (pre.map f) (later.map f) (f page)
  rw [List.length_map, ← List.map_cons, ← List.map_append, same, verdicts_getElem?,
    Option.some_inj] at renamed
  exact writes.verdict_of_mismatch init injective keeps mismatch few
    (congrArg Prod.fst renamed).symm

end Mismatch

theorem fifo_writesMissing (k : Nat) : WritesMissing (fifoStep k) Fifo.frames := by
  intro s page
  cases search : slotOf page s.frames with
  | some i =>
      refine .inl ⟨slotOf_isSome.mp (by rw [search]; rfl), ?_⟩
      simp [fifoStep, search, Report.isHit]
  | none =>
      refine .inr ⟨slotOf_eq_none.mp search, ?_⟩
      simp only [fifoStep, search]
      cases slotOf (-1) s.frames with
      | some i => exact ⟨rfl, i, rfl⟩
      | none => exact ⟨rfl, s.fifoPtr, rfl⟩

theorem lru_writesMissing (k : Nat) : WritesMissing (lruStep k) Lru.frames := by
  intro s page
  cases search : slotOf page s.frames with
  | some i =>
      refine .inl ⟨slotOf_isSome.mp (by rw [search]; rfl), ?_⟩
      simp [lruStep, search, Report.isHit]
  | none =>
      refine .inr ⟨slotOf_eq_none.mp search, ?_⟩
      simp only [lruStep, search]
      cases slotOf (-1) s.frames with
      | some i => exact ⟨rfl, i, rfl⟩
      | none => exact ⟨rfl, lruIndex k s.lastUsed, rfl⟩

/-- The requests before the first page that is `-1` under one name only. -/
def keptApart (f : Int → Int) (seq : List Int) : List Int :=
  seq.takeWhile fun page => decide (f page = -1 ↔ page = -1)

theorem keptApart_keepsEmpty (f : Int → Int) (seq : List Int) : KeepsEmpty f (keptApart f seq) :=
  fun _ member => of_decide_eq_true
    (List.mem_takeWhile_imp (p := fun page => decide (f page = -1 ↔ page = -1)) member)

/-- A sequence on which a renaming does not keep the empty frame apart has a first page
where it shows. -/
theorem exists_first_mismatch {f : Int → Int} {seq : List Int} (breaks : ¬ KeepsEmpty f seq) :
    ∃ page later, seq = keptApart f seq ++ page :: later ∧ ¬ (f page = -1 ↔ page = -1) := by
  have parts := List.takeWhile_append_dropWhile (l := seq)
    (p := fun page => decide (f page = -1 ↔ page = -1))
  cases rest : seq.dropWhile fun page => decide (f page = -1 ↔ page = -1) with
  | nil =>
      rw [rest, List.append_nil] at parts
      exact absurd (parts ▸ keptApart_keepsEmpty f seq) breaks
  | cons page later =>
      rw [rest] at parts
      refine ⟨page, later, parts.symm, fun kept => ?_⟩
      have first := List.head?_dropWhile_not (fun page => decide (f page = -1 ↔ page = -1)) seq
      simp only [rest, List.head?_cons] at first
      exact Bool.false_ne_true (first.symm.trans (decide_eq_true kept))

/-! ## The exact condition -/

/-- A simulator whose steps commute with renaming does the same under every renaming that
keeps the empty frame apart. -/
theorem KeepsEmpty.same {σ : Type} {step : σ → Int → Report × σ} {ren : (Int → Int) → σ → σ}
    (commutes : ∀ {g : Int → Int}, Function.Injective g → g (-1) = -1 → ∀ s page,
      step (ren g s) (g page) = ((step s page).1.rename g, ren g (step s page).2))
    {s : σ} (empty : ∀ {g : Int → Int}, g (-1) = -1 → ren g s = s) {f : Int → Int}
    (injective : Function.Injective f) {seq : List Int} (keeps : KeepsEmpty f seq) :
    verdicts (simulate step s (seq.map f)) = verdicts (simulate step s seq) ∧
      ∃ g, after step s (seq.map f) = ren g (after step s seq) := by
  obtain ⟨g, injective, sentinel, renamed⟩ := keeps.extend injective
  have rounds := verdicts_rename (commutes injective sentinel) s seq
  have last := after_rename (commutes injective sentinel) s seq
  rw [empty sentinel, ← renamed] at rounds last
  exact ⟨rounds, g, last⟩

theorem fifo_same_of_keepsEmpty {f : Int → Int} (injective : Function.Injective f)
    {seq : List Int} (keeps : KeepsEmpty f seq) (k : Nat) :
    verdicts (simulateFifo (seq.map f) k) = verdicts (simulateFifo seq k) ∧
      (fifoAfter k (seq.map f)).pageFaults = (fifoAfter k seq).pageFaults := by
  obtain ⟨rounds, g, last⟩ := keeps.same (fun injective empty => fifoStep_rename injective empty k)
    (fun empty => fifoInit_rename empty k) injective
  refine ⟨rounds, ?_⟩
  rw [fifoAfter, last]
  rfl

theorem lru_same_of_keepsEmpty {f : Int → Int} (injective : Function.Injective f)
    {seq : List Int} (keeps : KeepsEmpty f seq) (k : Nat) :
    verdicts (simulateLru (seq.map f) k) = verdicts (simulateLru seq k) ∧
      (lruAfter k (seq.map f)).pageFaults = (lruAfter k seq).pageFaults := by
  obtain ⟨rounds, g, last⟩ := keeps.same (fun injective empty => lruStep_rename injective empty k)
    (fun empty => lruInit_rename empty k) injective
  refine ⟨rounds, ?_⟩
  rw [lruAfter, last]
  rfl

/-- A simulator that gives the same verdicts meets a page that is `-1` under one name only
after it was asked for as many different pages as it has frames. -/
theorem WritesMissing.keepsEmpty_or_full {σ : Type} {step : σ → Int → Report × σ}
    {framesOf : σ → List Int} (writes : WritesMissing step framesOf) {k : Nat} {s : σ}
    (init : framesOf s = List.replicate k (-1)) {f : Int → Int}
    (injective : Function.Injective f) {seq : List Int}
    (same : verdicts (simulate step s (seq.map f)) = verdicts (simulate step s seq)) :
    KeepsEmpty f seq ∨ k ≤ distinct (keptApart f seq) := by
  refine or_iff_not_imp_right.mpr fun few => by_contra fun breaks => ?_
  obtain ⟨page, later, parts, mismatch⟩ := exists_first_mismatch breaks
  rw [parts] at same
  exact writes.verdicts_ne init injective (keptApart_keepsEmpty f seq) mismatch
    (Nat.lt_of_not_le few) same

/-- With one frame more than that many pages it meets none. -/
theorem keepsEmpty_of_same {σ : Type} {step : Nat → σ → Int → Report × σ} {framesOf : σ → List Int}
    (writes : ∀ k, WritesMissing (step k) framesOf) {init : Nat → σ}
    (empty : ∀ k, framesOf (init k) = List.replicate k (-1)) {f : Int → Int}
    (injective : Function.Injective f) {seq : List Int}
    (same : ∀ k, 1 ≤ k → verdicts (simulate (step k) (init k) (seq.map f)) =
      verdicts (simulate (step k) (init k) seq)) : KeepsEmpty f seq :=
  ((writes _).keepsEmpty_or_full (empty (distinct (keptApart f seq) + 1)) injective
    (same _ (Nat.succ_pos _))).resolve_right (Nat.not_succ_le_self _)

/-- **One number of frames.** With `k` frames a renaming that keeps `-1` apart changes no
verdict, frame or number of page faults, and one that changes no verdict keeps `-1` apart or
shows the exception only after `k` different pages were requested. -/
theorem simulators_rename_of_frames {f : Int → Int} (injective : Function.Injective f)
    (seq : List Int) (k : Nat) :
    (KeepsEmpty f seq →
      verdicts (simulateFifo (seq.map f) k) = verdicts (simulateFifo seq k) ∧
      (fifoAfter k (seq.map f)).pageFaults = (fifoAfter k seq).pageFaults ∧
      verdicts (simulateLru (seq.map f) k) = verdicts (simulateLru seq k) ∧
      (lruAfter k (seq.map f)).pageFaults = (lruAfter k seq).pageFaults) ∧
    (verdicts (simulateFifo (seq.map f) k) = verdicts (simulateFifo seq k) ∨
        verdicts (simulateLru (seq.map f) k) = verdicts (simulateLru seq k) →
      KeepsEmpty f seq ∨ k ≤ distinct (keptApart f seq)) := by
  constructor
  · intro keeps
    obtain ⟨fifoVerdicts, fifoFaults⟩ := fifo_same_of_keepsEmpty injective keeps k
    exact ⟨fifoVerdicts, fifoFaults, lru_same_of_keepsEmpty injective keeps k⟩
  · rintro (same | same)
    · exact (fifo_writesMissing k).keepsEmpty_or_full rfl injective same
    · exact (lru_writesMissing k).keepsEmpty_or_full rfl injective same

/-- **The page names are opaque up to the sentinel.** With every number of frames the
renamed sequence gives the same verdict and the same frame in every round, and the same
number of page faults, exactly when the renaming keeps `-1` apart from the pages of the
sequence; this holds for FIFO and for LRU. -/
theorem simulators_rename_iff {f : Int → Int} (injective : Function.Injective f) (seq : List Int) :
    ((∀ k, 1 ≤ k →
        verdicts (simulateFifo (seq.map f) k) = verdicts (simulateFifo seq k) ∧
        (fifoAfter k (seq.map f)).pageFaults = (fifoAfter k seq).pageFaults) ↔
      KeepsEmpty f seq) ∧
    ((∀ k, 1 ≤ k →
        verdicts (simulateLru (seq.map f) k) = verdicts (simulateLru seq k) ∧
        (lruAfter k (seq.map f)).pageFaults = (lruAfter k seq).pageFaults) ↔
      KeepsEmpty f seq) := by
  constructor
  · refine ⟨fun same => ?_, fun keeps k _ => fifo_same_of_keepsEmpty injective keeps k⟩
    exact keepsEmpty_of_same fifo_writesMissing (fun _ => rfl) injective
      fun k atLeastOne => (same k atLeastOne).1
  · refine ⟨fun same => ?_, fun keeps k _ => lru_same_of_keepsEmpty injective keeps k⟩
    exact keepsEmpty_of_same lru_writesMissing (fun _ => rfl) injective
      fun k atLeastOne => (same k atLeastOne).1

/-- The pages 1 and 4 under each other's name. -/
theorem simulators_rename_iff_swap :
    verdicts (simulateFifo [4, 2, 3, 4, 1] 3) = verdicts (simulateFifo [1, 2, 3, 1, 4] 3) ∧
      verdicts (simulateLru [4, 2, 3, 4, 1] 3) = verdicts (simulateLru [1, 2, 3, 1, 4] 3) := by
  obtain ⟨fifo, lru⟩ := @simulators_rename_iff (Equiv.swap 1 4) (Equiv.injective _) [1, 2, 3, 1, 4]
  have keeps : KeepsEmpty (Equiv.swap 1 4) [1, 2, 3, 1, 4] := by
    unfold KeepsEmpty
    decide
  exact ⟨(fifo.mpr keeps 3 (by decide)).1, (lru.mpr keeps 3 (by decide)).1⟩

/-- The sequence of the single request `-1` can be entered, and with three frames it is a
hit in an empty frame; under the name 0 it is a fault. -/
theorem sentinel_requested_hits :
    readManualSequence maxSeq [1, -1] = [-1] ∧ Function.Injective (Equiv.swap (-1 : Int) 0) ∧
      verdicts (simulateFifo [-1] 3) = [(true, none)] ∧
      verdicts (simulateFifo ([-1].map (Equiv.swap (-1) 0)) 3) = [(false, some 0)] ∧
      verdicts (simulateLru [-1] 3) = [(true, some 0)] ∧
      verdicts (simulateLru ([-1].map (Equiv.swap (-1) 0)) 3) = [(false, some 0)] ∧
      (fifoAfter 3 [-1]).pageFaults = 0 ∧
      (fifoAfter 3 ([-1].map (Equiv.swap (-1) 0))).pageFaults = 1 := by
  refine ⟨?_, Equiv.injective _, by decide, by decide, by decide, by decide, by decide, by decide⟩
  exact @readManualSequence_any maxSeq [-1] (by simp) (by decide)

end OsLab.Paging
