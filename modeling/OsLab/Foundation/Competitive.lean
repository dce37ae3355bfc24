import Mathlib.Data.Finset.Card
import Mathlib.Data.List.Forall2
import Mathlib.Tactic.Ring
import OsLab.Foundation.Replacement

/-!
# Conservative policies against offline schedules

An offline schedule knows all requests beforehand. It is given by what it holds after
every request (`Serves`), and it may load members that nobody has asked for. What it pays
is the number of members it loads (`loads`).

A conservative policy with `k` places is competitive (`Conservative.competitive`): against
a schedule with `h ≤ k` places its faults are at most `k / (k - h + 1)` times the loads of
the schedule, up to a constant. The requests are cut into phases of at most `k` different
members. In a phase the policy has at most `k` faults, and from the second request of one
phase to the first of the next the schedule loads at least `k - h + 1` members
(`Serves.enough_loads`).

For `h = k` the factor is `k`, and no policy has a better one: on `k + 1` members every
policy with `k` places can be made to fault at each request, while some schedule with as
many places loads one member in `k` requests (`exists_worst_case`).

A policy that holds requested members only loads each of them at least once
(`distinct_le_faults`), and a conservative one no more than that while there is a place for
each (`Conservative.faults_eq_distinct`).
-/

set_option autoImplicit false

namespace OsLab.Foundation

variable {α : Type}

/-! ## Offline schedules -/

/-- What is held after each request: the requested member, and at most `h` members. -/
def Serves (h : Nat) (requests : List α) (schedule : List (Finset α)) : Prop :=
  List.Forall₂ (fun x held => x ∈ held ∧ held.card ≤ h) requests schedule

theorem Serves.append_inv {h : Nat} {first second : List α} {schedule : List (Finset α)}
    (serves : Serves h (first ++ second) schedule) :
    ∃ before later, schedule = before ++ later ∧ Serves h first before ∧
      Serves h second later := by
  refine ⟨schedule.take first.length, schedule.drop first.length,
    (List.take_append_drop ..).symm, ?_, ?_⟩
  · have front := List.forall₂_take first.length serves
    rwa [List.take_left] at front
  · have back := List.forall₂_drop first.length serves
    rwa [List.drop_left] at back

/-- What is held at the end of a part that is not empty. -/
theorem Serves.last {h : Nat} {requests : List α} {y : α} {schedule : List (Finset α)}
    (serves : Serves h (requests ++ [y]) schedule) (held : Finset α) :
    y ∈ schedule.getLastD held ∧ (schedule.getLastD held).card ≤ h := by
  obtain ⟨before, later, rfl, -, final⟩ := serves.append_inv
  cases final with
  | cons now rest =>
      cases rest
      simpa using now

variable [DecidableEq α]

theorem distinct_eq_card (requests : List α) : distinct requests = requests.toFinset.card := by
  rw [distinct, List.card_toFinset]

theorem faultsFrom_append (resident : List α → List α) (history first second : List α) :
    faultsFrom resident history (first ++ second) =
      faultsFrom resident history first ++ faultsFrom resident (history ++ first) second := by
  induction first generalizing history with
  | nil => simp [faultsFrom]
  | cons x first ih =>
      rw [List.cons_append, faultsFrom, faultsFrom, ih, List.append_assoc, List.singleton_append]
      split
      · rfl
      · rfl

/-! ## Loads that cannot be avoided -/

/-- Every member is loaded at its first request. -/
theorem distinct_le_faults {resident : List α → List α}
    (among : ∀ history, resident history ⊆ history) (requests : List α) :
    distinct requests ≤ (faultsFrom resident [] requests).length := by
  refine length_le_distinct (List.nodup_dedup requests) (fun x member => ?_) |>.trans
    (List.dedup_sublist _).length_le
  rw [List.mem_dedup] at member
  -- up to its first request the member is not in the history
  obtain ⟨earlier, later, rfl, first⟩ := List.eq_append_cons_of_mem member
  rw [faultsFrom_append, faultsFrom, List.nil_append, if_neg fun inside => first (among _ inside)]
  simp

theorem Conservative.faults_eq_distinct {resident : List α → List α} {k : Nat}
    (conservative : Conservative resident k) (among : ∀ history, resident history ⊆ history)
    {requests : List α} (few : distinct requests ≤ k) :
    (faultsFrom resident [] requests).length = distinct requests := by
  refine Nat.le_antisymm ?_ (distinct_le_faults among requests)
  refine length_le_distinct (conservative.nodup_faults [] few) fun x fault => ?_
  obtain ⟨earlier, later, rfl, -⟩ := missing_of_mem_faultsFrom resident fault
  simp

/-! ## What a schedule pays -/

/-- The number of members that are loaded on the way. -/
def loads : Finset α → List (Finset α) → Nat
  | _, [] => 0
  | held, next :: rest => (next \ held).card + loads next rest

theorem loads_append (held : Finset α) (first second : List (Finset α)) :
    loads held (first ++ second) = loads held first + loads (first.getLastD held) second := by
  induction first generalizing held with
  | nil => simp [loads]
  | cons next first ih =>
      rw [List.cons_append, loads, loads, ih, List.getLastD_cons, Nat.add_assoc]

/-- Everything requested that is not held at the beginning is loaded. -/
theorem Serves.missing_le_loads {h : Nat} {requests : List α} {schedule : List (Finset α)}
    (serves : Serves h requests schedule) (held : Finset α) :
    (requests.toFinset \ held).card ≤ loads held schedule := by
  induction serves generalizing held with
  | nil => simp [loads]
  | @cons x next requests schedule now _ ih =>
      have split : (x :: requests).toFinset \ held ⊆
          (next \ held) ∪ (requests.toFinset \ next) := by
        intro y member
        simp only [List.toFinset_cons, Finset.mem_sdiff, Finset.mem_insert,
          Finset.mem_union] at member ⊢
        by_cases inside : y ∈ next
        · exact .inl ⟨inside, member.2⟩
        · refine .inr ⟨?_, inside⟩
          exact member.1.resolve_left fun same => inside (same ▸ now.1)
      calc ((x :: requests).toFinset \ held).card
          ≤ (next \ held).card + (requests.toFinset \ next).card :=
            (Finset.card_le_card split).trans (Finset.card_union_le ..)
        _ ≤ (next \ held).card + loads next schedule := Nat.add_le_add_left (ih next) _

/-- While more than `k` different members are requested, one of them held at the beginning,
all but `h` of them are loaded. -/
theorem Serves.enough_loads {h k : Nat} {x : α} {window : List α} {schedule : List (Finset α)}
    (serves : Serves h window schedule) {held : Finset α} (holds : x ∈ held)
    (places : held.card ≤ h) (many : k < distinct (x :: window)) :
    k + 1 ≤ h + loads held schedule := by
  have covered : (x :: window).toFinset ⊆ held ∪ (window.toFinset \ held) := by
    intro y member
    simp only [List.toFinset_cons, Finset.mem_insert, Finset.mem_union,
      Finset.mem_sdiff] at member ⊢
    by_cases inside : y ∈ held
    · exact .inl inside
    · exact .inr ⟨member.resolve_left fun same => inside (same ▸ holds), inside⟩
  calc k + 1 ≤ (x :: window).toFinset.card := by rwa [← distinct_eq_card]
    _ ≤ held.card + (window.toFinset \ held).card :=
        (Finset.card_le_card covered).trans (Finset.card_union_le ..)
    _ ≤ h + loads held schedule := Nat.add_le_add places (serves.missing_le_loads held)

/-! ## Phases -/

/-- The first phase of a sequence: as many requests as have at most `k` different members. -/
theorem exists_phase {k : Nat} (atLeastOne : 1 ≤ k) (x : α) (rest : List α) :
    distinct (x :: rest) ≤ k ∨
      ∃ phase y later, rest = phase ++ y :: later ∧ distinct (x :: phase) ≤ k ∧
        k < distinct (x :: (phase ++ [y])) := by
  induction rest using List.reverseRecOn with
  | nil => exact .inl (by simpa [distinct] using atLeastOne)
  | append_singleton rest z ih =>
      rcases ih with few | ⟨phase, y, later, rfl, few, many⟩
      · rcases Nat.lt_or_ge k (distinct (x :: (rest ++ [z]))) with many | few'
        · exact .inr ⟨rest, z, [], rfl, few, many⟩
        · exact .inl few'
      · exact .inr ⟨phase, y, later ++ [z], by simp, few, many⟩

/-! ## The upper bound -/

section Competitive

variable {resident : List α → List α} {k : Nat}

/-- The bound from a request on, when the schedule has served it already. -/
theorem Conservative.competitive_from (conservative : Conservative resident k)
    (atLeastOne : 1 ≤ k) {h spare : Nat} (places : h + spare = k) (rest : List α) :
    ∀ (x : α) (history : List α) (held : Finset α) (schedule : List (Finset α)),
      x ∈ held → held.card ≤ h → Serves h rest schedule →
      (spare + 1) * (faultsFrom resident history (x :: rest)).length ≤
        k * (loads held schedule + (spare + 1)) := by
  -- on the length: a phase is taken off in every step
  induction length : rest.length using Nat.strong_induction_on generalizing rest with
  | _ n ih =>
      intro x history held schedule holds few serves
      rcases exists_phase atLeastOne x rest with short | ⟨phase, y, later, rfl, short, many⟩
      · calc (spare + 1) * (faultsFrom resident history (x :: rest)).length
            ≤ (spare + 1) * k :=
              Nat.mul_le_mul_left _ (conservative.length_faults_le history short)
          _ = k * (spare + 1) := Nat.mul_comm ..
          _ ≤ k * (loads held schedule + (spare + 1)) :=
              Nat.mul_le_mul_left _ (Nat.le_add_left ..)
      · rw [List.append_cons] at serves
        obtain ⟨before, after, rfl, first, second⟩ := serves.append_inv
        obtain ⟨holds', few'⟩ := first.last held
        have shorter : later.length < n := by
          rw [← length, List.length_append, List.length_cons]
          omega
        have further := ih later.length shorter later rfl y (history ++ x :: phase)
          (before.getLastD held) after holds' few' second
        have phaseFaults := conservative.length_faults_le history short
        have phaseLoads : spare + 1 ≤ loads held before := by
          have := first.enough_loads holds few many
          omega
        rw [← List.cons_append, faultsFrom_append, List.length_append, loads_append]
        calc (spare + 1) * ((faultsFrom resident history (x :: phase)).length +
                (faultsFrom resident (history ++ x :: phase) (y :: later)).length)
            ≤ (spare + 1) * k + k * (loads (before.getLastD held) after + (spare + 1)) := by
              rw [Nat.mul_add]
              exact Nat.add_le_add (Nat.mul_le_mul_left _ phaseFaults) further
          _ = k * (spare + 1 + loads (before.getLastD held) after + (spare + 1)) := by ring
          _ ≤ k * (loads held before + loads (before.getLastD held) after + (spare + 1)) := by
              refine Nat.mul_le_mul_left _ ?_
              omega

/-- **A conservative policy with `k` places against a schedule with `h`.** Both start with
nothing. -/
theorem Conservative.competitive (conservative : Conservative resident k) (atLeastOne : 1 ≤ k)
    {h : Nat} (fewer : h ≤ k) {requests : List α} {schedule : List (Finset α)}
    (serves : Serves h requests schedule) :
    (k - h + 1) * (faultsFrom resident [] requests).length ≤
      k * (loads ∅ schedule + (k - h)) := by
  cases serves with
  | nil => simp [faultsFrom]
  | @cons x held rest schedule now serves =>
      have bound := conservative.competitive_from atLeastOne (Nat.add_sub_cancel' fewer) rest
        x [] held schedule now.1 now.2 serves
      have loaded : 1 ≤ held.card := Finset.card_pos.mpr ⟨x, now.1⟩
      refine bound.trans (Nat.mul_le_mul_left _ ?_)
      rw [loads, Finset.sdiff_empty]
      omega

end Competitive

/-! ## The lower bound -/

/-- Every request of such a sequence is for a member the policy does not hold. -/
theorem exists_all_faults {resident : List α → List α} {k : Nat} {members : Finset α}
    (more : k < members.card) (places : ∀ history, (resident history).toFinset.card ≤ k)
    (n : Nat) :
    ∃ requests : List α, requests.length = n ∧ (∀ x ∈ requests, x ∈ members) ∧
      faultsFrom resident [] requests = requests := by
  induction n with
  | zero => exact ⟨[], rfl, by simp, rfl⟩
  | succ n ih =>
      obtain ⟨requests, length, among, faults⟩ := ih
      obtain ⟨x, member, absent⟩ :=
        Finset.exists_mem_notMem_of_card_lt_card (Nat.lt_of_le_of_lt (places requests) more)
      refine ⟨requests ++ [x], by simp [length], ?_, ?_⟩
      · simpa [or_imp, forall_and] using ⟨among, member⟩
      · rw [List.mem_toFinset] at absent
        simp [faultsFrom_append, faults, faultsFrom, absent]

theorem loads_replicate (held next : Finset α) (n : Nat) :
    loads held (List.replicate n next) ≤ (next \ held).card := by
  induction n generalizing held with
  | zero => simp [loads]
  | succ n ih =>
      rw [List.replicate_succ, loads]
      have still := ih next
      rw [Finset.sdiff_self, Finset.card_empty, Nat.le_zero] at still
      rw [still, Nat.add_zero]

/-- In a block of `k` requests one of `k + 1` members is not asked for. -/
theorem exists_unrequested {k : Nat} {members : Finset α} (size : members.card = k + 1)
    {block : List α} (length : block.length = k) : ∃ p ∈ members, p ∉ block := by
  obtain ⟨p, member, absent⟩ : ∃ p ∈ members, p ∉ block.toFinset := by
    refine Finset.exists_mem_notMem_of_card_lt_card ?_
    have := List.toFinset_card_le block
    omega
  exact ⟨p, member, fun inside => absent (List.mem_toFinset.mpr inside)⟩

/-- All members but one that the block does not ask for, all through the block. -/
theorem serves_block {k : Nat} {members : Finset α} (size : members.card = k + 1)
    {block : List α} (length : block.length = k) (among : ∀ x ∈ block, x ∈ members) {p : α}
    (member : p ∈ members) (absent : p ∉ block) :
    Serves k block (List.replicate k (members.erase p)) := by
  rw [Serves, List.forall₂_iff_get]
  refine ⟨by simp [length], fun i inside _ => ?_⟩
  rw [List.get_eq_getElem, List.get_eq_getElem, List.getElem_replicate,
    Finset.card_erase_of_mem member, size]
  have requested : block[i] ∈ block := List.getElem_mem inside
  exact ⟨Finset.mem_erase.mpr ⟨fun same => absent (same ▸ requested), among _ requested⟩,
    Nat.le_refl k⟩

/-- A schedule for the first `k` requests that loads at their beginning only, put before a
schedule for the others. -/
theorem exists_block {k : Nat} (atLeastOne : 1 ≤ k) {members : Finset α}
    (size : members.card = k + 1) {requests : List α} (long : k ≤ requests.length)
    (among : ∀ x ∈ requests, x ∈ members) :
    ∃ p ∈ members, ∀ later, Serves k (requests.drop k) later →
      ∃ schedule, Serves k requests schedule ∧ ∀ held,
        loads held schedule ≤ (members.erase p \ held).card + loads (members.erase p) later := by
  have length : (requests.take k).length = k := by rw [List.length_take, Nat.min_eq_left long]
  obtain ⟨p, member, absent⟩ := exists_unrequested size length
  have block := serves_block size length (fun x inside => among x (List.mem_of_mem_take inside))
    member absent
  refine ⟨p, member, fun later serves => ⟨List.replicate k (members.erase p) ++ later, ?_, ?_⟩⟩
  · have joined := List.rel_append block serves
    simp only [List.take_append_drop] at joined
    exact joined
  · intro held
    have final : (List.replicate k (members.erase p)).getLastD held = members.erase p := by
      obtain ⟨m, rfl⟩ : ∃ m, k = m + 1 := ⟨k - 1, by omega⟩
      rw [List.replicate_succ', List.getLastD_concat]
    rw [loads_append, final]
    exact Nat.add_le_add_right (loads_replicate ..) _

/-- From all members but one on, one load for each block of `k` requests is enough. -/
theorem exists_cheap_from {k : Nat} (atLeastOne : 1 ≤ k) {members : Finset α}
    (size : members.card = k + 1) (n : Nat) :
    ∀ (requests : List α) (p : α), requests.length = n * k → (∀ x ∈ requests, x ∈ members) →
      ∃ schedule, Serves k requests schedule ∧ loads (members.erase p) schedule ≤ n := by
  induction n with
  | zero =>
      intro requests p length _
      rw [Nat.zero_mul, List.length_eq_zero_iff] at length
      subst length
      exact ⟨[], .nil, by simp [loads]⟩
  | succ n ih =>
      intro requests p length among
      rw [Nat.add_mul, Nat.one_mul] at length
      obtain ⟨q, -, extend⟩ := exists_block atLeastOne size (by omega) among
      obtain ⟨later, serves, few⟩ := ih (requests.drop k) q (by rw [List.length_drop]; omega)
        fun x member => among x (List.mem_of_mem_drop member)
      obtain ⟨schedule, serves', cost⟩ := extend later serves
      -- the member left out before is the only one that can be missing now
      have one : (members.erase q \ members.erase p).card ≤ 1 := by
        refine (Finset.card_le_card (t := {p}) fun y inside => ?_).trans
          (Finset.card_singleton p).le
        simp only [Finset.mem_sdiff, Finset.mem_erase] at inside
        by_contra other
        exact inside.2 ⟨fun same => other (Finset.mem_singleton.mpr same), inside.1.2⟩
      have total := cost (members.erase p)
      exact ⟨schedule, serves', by omega⟩

/-- **No policy with `k` places does better than the factor `k`.** On `k + 1` members there
are sequences of any number `n` of blocks of `k` requests with a fault at every request,
for which a schedule with `k` places needs no more than `k + n - 1` loads. -/
theorem exists_worst_case {resident : List α → List α} {k : Nat} (atLeastOne : 1 ≤ k)
    {members : Finset α} (size : members.card = k + 1)
    (places : ∀ history, (resident history).toFinset.card ≤ k) (n : Nat) :
    ∃ requests schedule, requests.length = n * k ∧ (∀ x ∈ requests, x ∈ members) ∧
      faultsFrom resident [] requests = requests ∧ Serves k requests schedule ∧
      loads ∅ schedule + 1 ≤ k + n := by
  obtain ⟨requests, length, among, faults⟩ :=
    exists_all_faults (by omega : k < members.card) places (n * k)
  cases n with
  | zero =>
      rw [Nat.zero_mul, List.length_eq_zero_iff] at length
      subst length
      exact ⟨[], [], by simp, by simp, rfl, .nil, by simpa [loads] using atLeastOne⟩
  | succ n =>
      have split : requests.length = n * k + k := by rw [length, Nat.add_mul, Nat.one_mul]
      obtain ⟨p, member, extend⟩ := exists_block atLeastOne size (by omega) among
      obtain ⟨later, serves, few⟩ := exists_cheap_from atLeastOne size n (requests.drop k) p
        (by rw [List.length_drop]; omega) fun x inside => among x (List.mem_of_mem_drop inside)
      obtain ⟨schedule, serves', cost⟩ := extend later serves
      have total := cost ∅
      rw [Finset.sdiff_empty, Finset.card_erase_of_mem member, size] at total
      exact ⟨requests, schedule, length, among, faults, serves', by omega⟩

end OsLab.Foundation
