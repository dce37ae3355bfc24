import Mathlib.Data.List.Perm.Basic
import Mathlib.Data.List.Induction

/-!
# The page-replacement simulator

The two simulators of `2lab/4/4.c`. Each keeps an array of `frame_count` frames, in
which `-1` marks an empty frame, and goes through the request sequence. For every
request it prints whether the page is there (`HIT`), is put into an empty frame, or
replaces another page. The two differ in the frame that is replaced: `simulate_fifo`
keeps a pointer that goes round, `simulate_lru` stamps every frame with the time of
its last use and looks for the smallest stamp.

A simulator is a step on its local variables, with the printed outcome as a result.
`simulate` is the loop over the sequence and collects what each round prints and
leaves; `after` is the state it ends in. `simulate_getElem?` says that round `i` is a
step from the state after the first `i` requests.

`occupied` are the pages in the frames that are not empty. What writing one frame does
to them is the same for both simulators (`occupied_set_empty`, `occupied_set_page`).
-/

set_option autoImplicit false

namespace OsLab.Paging

def maxFrames : Nat := 100

/-- The number of frames `main` runs the simulators with. -/
def chosenFrames (frames : Int) : Nat :=
  if frames ≤ 0 ∨ frames > maxFrames then 3 else frames.toNat

/-- Both simulators run with at least one frame, and the arrays are large enough. -/
theorem chosenFrames_mem (frames : Int) :
    1 ≤ chosenFrames frames ∧ chosenFrames frames ≤ maxFrames := by
  unfold chosenFrames maxFrames
  split <;> omega

/-- What is printed about one request. The FIFO simulator prints no frame on a hit. -/
inductive Report where
  | hit (frame : Option Nat)
  | placed (slot : Nat)
  | replaced (page : Int) (slot : Nat)
  deriving DecidableEq, Repr

def Report.isHit : Report → Bool
  | .hit _ => true
  | _ => false

/-- The first frame that holds `x`: the search loops of both simulators. -/
def slotOf (x : Int) (frames : List Int) : Option Nat := frames.findIdx? (· == x)

/-! ## FIFO -/

structure Fifo where
  frames : List Int
  fifoPtr : Nat
  pageFaults : Nat
  deriving DecidableEq, Repr

def fifoInit (frameCount : Nat) : Fifo where
  frames := List.replicate frameCount (-1)
  fifoPtr := 0
  pageFaults := 0

/-- One round of the loop of `simulate_fifo`. -/
def fifoStep (frameCount : Nat) (s : Fifo) (page : Int) : Report × Fifo :=
  match slotOf page s.frames with
  | some _ => (.hit none, s)
  | none =>
      match slotOf (-1) s.frames with
      | some i =>
          -- the pointer is moved behind the slot just filled
          (.placed i,
            { frames := s.frames.set i page
              fifoPtr := (i + 1) % frameCount
              pageFaults := s.pageFaults + 1 })
      | none =>
          (.replaced (s.frames.getD s.fifoPtr (-1)) s.fifoPtr,
            { frames := s.frames.set s.fifoPtr page
              fifoPtr := (s.fifoPtr + 1) % frameCount
              pageFaults := s.pageFaults + 1 })

/-! ## LRU -/

structure Lru where
  frames : List Int
  lastUsed : List Int
  pageFaults : Nat
  timeCounter : Nat
  deriving DecidableEq, Repr

def lruInit (frameCount : Nat) : Lru where
  frames := List.replicate frameCount (-1)
  lastUsed := List.replicate frameCount (-1)
  pageFaults := 0
  timeCounter := 0

/-- The search for the smallest stamp: start at frame 0 and go on to `i` whenever
`last_used[i] < last_used[lru_index]`. -/
def lruIndex (frameCount : Nat) (lastUsed : List Int) : Nat :=
  (List.range' 1 (frameCount - 1)).foldl
    (fun best i => if lastUsed.getD i (-1) < lastUsed.getD best (-1) then i else best) 0

/-- One round of the loop of `simulate_lru`. The time counter goes up first. -/
def lruStep (frameCount : Nat) (s : Lru) (page : Int) : Report × Lru :=
  let now := s.timeCounter + 1
  match slotOf page s.frames with
  | some i => (.hit (some i), { s with lastUsed := s.lastUsed.set i now, timeCounter := now })
  | none =>
      match slotOf (-1) s.frames with
      | some i =>
          (.placed i,
            { frames := s.frames.set i page
              lastUsed := s.lastUsed.set i now
              pageFaults := s.pageFaults + 1
              timeCounter := now })
      | none =>
          let i := lruIndex frameCount s.lastUsed
          (.replaced (s.frames.getD i (-1)) i,
            { frames := s.frames.set i page
              lastUsed := s.lastUsed.set i now
              pageFaults := s.pageFaults + 1
              timeCounter := now })

/-! ## The loop over the sequence -/

section Simulate

variable {σ : Type} (step : σ → Int → Report × σ)

/-- The rounds of the loop: what each prints and the variables it leaves. -/
def simulate : σ → List Int → List (Report × σ)
  | _, [] => []
  | s, page :: rest => step s page :: simulate (step s page).2 rest

/-- The variables at the end of the loop. -/
def after (s : σ) (seq : List Int) : σ := seq.foldl (fun s page => (step s page).2) s

theorem after_snoc (s : σ) (seq : List Int) (page : Int) :
    after step s (seq ++ [page]) = (step (after step s seq) page).2 := by
  simp [after]

theorem simulate_length (s : σ) (seq : List Int) : (simulate step s seq).length = seq.length := by
  induction seq generalizing s with
  | nil => rfl
  | cons page rest ih => simp [simulate, ih]

/-- Round `i` is a step from the state after the first `i` requests. -/
theorem simulate_getElem? (s : σ) (seq : List Int) (i : Nat) :
    (simulate step s seq)[i]? = seq[i]?.map fun page => step (after step s (seq.take i)) page := by
  induction seq generalizing s i with
  | nil => rfl
  | cons page rest ih =>
      cases i with
      | zero => rfl
      | succ i =>
          rw [simulate, List.getElem?_cons_succ, List.getElem?_cons_succ, ih]
          rfl

/-- Round `i` leaves the state after the first `i + 1` requests. -/
theorem simulate_round {s t : σ} {seq : List Int} {i : Nat} {page : Int} {report : Report}
    (request : seq[i]? = some page) (round : (simulate step s seq)[i]? = some (report, t)) :
    step (after step s (seq.take i)) page = (report, t) ∧
      seq.take (i + 1) = seq.take i ++ [page] ∧ after step s (seq.take (i + 1)) = t := by
  rw [simulate_getElem?, request, Option.map_some, Option.some_inj] at round
  have longer : seq.take (i + 1) = seq.take i ++ [page] := by
    rw [List.take_add_one, request, Option.toList_some]
  refine ⟨round, longer, ?_⟩
  rw [longer, after_snoc, round]

/-- An invariant over the requests so far that every step keeps holds at the end. -/
theorem after_invariant (Inv : List Int → σ → Prop) {s : σ} (base : Inv [] s)
    {seq : List Int} (real : ∀ page ∈ seq, page ≠ -1)
    (kept : ∀ pre page t, page ≠ -1 → Inv pre t → Inv (pre ++ [page]) (step t page).2) :
    Inv seq (after step s seq) := by
  induction seq using List.reverseRecOn with
  | nil => exact base
  | append_singleton pre page ih =>
      rw [after_snoc]
      have before : ∀ page ∈ pre, page ≠ -1 := fun y member => real y (by simp [member])
      exact kept pre page _ (real page (by simp)) (ih before)

end Simulate

/-- `simulate_fifo` on a sequence: its rounds. -/
def simulateFifo (seq : List Int) (frameCount : Nat) : List (Report × Fifo) :=
  simulate (fifoStep frameCount) (fifoInit frameCount) seq

/-- The variables of `simulate_fifo` when it prints the number of page faults. -/
def fifoAfter (frameCount : Nat) (seq : List Int) : Fifo :=
  after (fifoStep frameCount) (fifoInit frameCount) seq

/-- `simulate_lru` on a sequence: its rounds. -/
def simulateLru (seq : List Int) (frameCount : Nat) : List (Report × Lru) :=
  simulate (lruStep frameCount) (lruInit frameCount) seq

/-- The variables of `simulate_lru` when it prints the number of page faults. -/
def lruAfter (frameCount : Nat) (seq : List Int) : Lru :=
  after (lruStep frameCount) (lruInit frameCount) seq

/-! ## The pages in the frames -/

/-- The pages in the frames that are not empty. -/
def occupied (frames : List Int) : List Int := frames.filter (· ≠ -1)

theorem mem_occupied {frames : List Int} {x : Int} : x ∈ occupied frames ↔ x ∈ frames ∧ x ≠ -1 := by
  simp [occupied]

theorem occupied_replicate (n : Nat) : occupied (List.replicate n (-1)) = [] := by
  simp [occupied]

theorem occupied_of_full {frames : List Int} (full : (-1 : Int) ∉ frames) :
    occupied frames = frames := by
  refine List.filter_eq_self.mpr fun x member => ?_
  simpa using ne_of_mem_of_not_mem member full

theorem slotOf_isSome {x : Int} {frames : List Int} : (slotOf x frames).isSome ↔ x ∈ frames := by
  simp [slotOf]

theorem slotOf_eq_none {x : Int} {frames : List Int} : slotOf x frames = none ↔ x ∉ frames := by
  rw [← slotOf_isSome]
  cases slotOf x frames <;> simp

/-- The slot that is found holds the page. -/
theorem getElem?_of_slotOf {x : Int} {frames : List Int} {i : Nat} (found : slotOf x frames = some i) :
    frames[i]? = some x := by
  obtain ⟨inside, holds, -⟩ := List.findIdx?_eq_some_iff_getElem.mp found
  rw [List.getElem?_eq_getElem inside]
  simpa using holds

theorem set_of_getElem? {frames : List Int} {i : Nat} {page : Int} (there : frames[i]? = some page) :
    frames.set i page = frames := by
  obtain ⟨inside, rfl⟩ := List.getElem?_eq_some_iff.mp there
  exact List.set_getElem_self inside

/-- A write replaces the entry of its frame. -/
theorem set_perm {frames : List Int} {i : Nat} {old : Int} (there : frames[i]? = some old)
    (page : Int) :
    frames.Perm (old :: frames.eraseIdx i) ∧
      (frames.set i page).Perm (page :: frames.eraseIdx i) := by
  obtain ⟨inside, rfl⟩ := List.getElem?_eq_some_iff.mp there
  exact ⟨(List.getElem_cons_eraseIdx_perm inside).symm, List.set_perm_cons_eraseIdx inside page⟩

/-- A page that is put into an empty frame is added. -/
theorem occupied_set_empty {frames : List Int} {i : Nat} (there : frames[i]? = some (-1))
    {page : Int} (real : page ≠ -1) :
    (occupied (frames.set i page)).Perm (page :: occupied frames) := by
  obtain ⟨before, written⟩ := set_perm there page
  have rest : (occupied frames).Perm (occupied (frames.eraseIdx i)) := by
    simpa [occupied] using before.filter (· ≠ -1)
  have filled : (occupied (frames.set i page)).Perm (page :: occupied (frames.eraseIdx i)) := by
    simpa [occupied, real] using written.filter (· ≠ -1)
  exact filled.trans (rest.symm.cons page)

/-- A page that is put into an occupied frame takes the place of the page there. -/
theorem occupied_set_page {frames : List Int} {i : Nat} {old : Int}
    (there : frames[i]? = some old) (held : old ≠ -1) {page : Int} (real : page ≠ -1) :
    ∃ rest, (occupied frames).Perm (old :: rest) ∧ (occupied (frames.set i page)).Perm (page :: rest) := by
  obtain ⟨before, written⟩ := set_perm there page
  refine ⟨occupied (frames.eraseIdx i), ?_, ?_⟩
  · simpa [occupied, held] using before.filter (· ≠ -1)
  · simpa [occupied, real] using written.filter (· ≠ -1)

end OsLab.Paging
