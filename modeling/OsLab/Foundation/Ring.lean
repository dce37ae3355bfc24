import Mathlib.Data.List.Rotate

/-!
# A log in a circular array

A log grows at its end, and its entries are put into the cells of an array of fixed
size, one after the other, starting again at the first cell after the last. Entry
`m` is in the cell `m % size`. `Held` says that the entries from `lo` on are still
there. It is kept

* by an entry put into the next cell while fewer than `size` entries are held
  (`Held.push`), and by a block of entries that does not pass the end of the array
  (`Held.pushAll`);
* by giving up entries at the front (`Held.release`) or at the end (`Held.truncate`).

What is read back is the log: a block of cells is a block of entries (`Held.block`),
and a full array is a rotation of the last entries (`Held.rotate_eq`).
-/

set_option autoImplicit false

namespace OsLab.Foundation

variable {α : Type}

/-- Entry `m` of the log is in cell `m % size`, for all `m` from `lo` on. -/
structure Held (size : Nat) (cells log : List α) (lo : Nat) : Prop where
  started : lo ≤ log.length
  fits : log.length ≤ lo + size
  stored : ∀ m, lo ≤ m → m < log.length → cells[m % size]? = log[m]?

/-- Less than one round apart, two entries are in different cells. -/
theorem mod_ne_mod (size : Nat) {m m' : Nat} (before : m < m') (near : m' < m + size) :
    m % size ≠ m' % size := by
  intro same
  have whole : (m' - m) % size = 0 := Nat.sub_mod_eq_zero_of_mod_eq same.symm
  rw [Nat.mod_eq_of_lt (by omega)] at whole
  omega

/-- Put a block into consecutive cells. -/
def putAll (cells : List α) (offset : Nat) : List α → List α
  | [] => cells
  | x :: xs => putAll (cells.set offset x) (offset + 1) xs

@[simp] theorem putAll_length (cells : List α) (offset : Nat) (xs : List α) :
    (putAll cells offset xs).length = cells.length := by
  induction xs generalizing cells offset with
  | nil => rfl
  | cons x xs ih => rw [putAll, ih, List.length_set]

theorem putAll_getElem?_of_lt {cells : List α} {offset i : Nat} (xs : List α) (before : i < offset) :
    (putAll cells offset xs)[i]? = cells[i]? := by
  induction xs generalizing cells offset with
  | nil => rfl
  | cons x xs ih => rw [putAll, ih (by omega), List.getElem?_set_ne (by omega)]

/-- The first cell of a block holds its first entry. -/
theorem putAll_getElem?_self {cells : List α} {offset : Nat} (x : α) (xs : List α)
    (inside : offset < cells.length) : (putAll cells offset (x :: xs))[offset]? = some x := by
  rw [putAll, putAll_getElem?_of_lt xs (Nat.lt_succ_self _), List.getElem?_set_self inside]

namespace Held

variable {size lo : Nat} {cells log : List α}

theorem nil : Held size cells [] 0 where
  started := Nat.le_refl 0
  fits := Nat.zero_le _
  stored _ _ beyond := absurd beyond (Nat.not_lt_zero _)

theorem release (held : Held size cells log lo) {lo' : Nat} (later : lo ≤ lo')
    (started : lo' ≤ log.length) : Held size cells log lo' where
  started := started
  fits := by have := held.fits; omega
  stored m above below := held.stored m (later.trans above) below

theorem truncate {xs : List α} (held : Held size cells (log ++ xs) lo) (started : lo ≤ log.length) :
    Held size cells log lo where
  started := started
  fits := by
    have := held.fits
    rw [List.length_append] at this
    omega
  stored m above below := by
    rw [held.stored m above (by rw [List.length_append]; omega), List.getElem?_append_left below]

/-- The next entry goes into the next cell. -/
theorem push (held : Held size cells log lo) (room : log.length < lo + size)
    (inside : size ≤ cells.length) (x : α) :
    Held size (cells.set (log.length % size) x) (log ++ [x]) lo where
  started := by have := held.started; simp; omega
  fits := by simp; omega
  stored := by
    intro m above below
    rw [List.length_append, List.length_singleton] at below
    rcases Nat.lt_succ_iff_lt_or_eq.mp below with earlier | rfl
    · have apart := mod_ne_mod size earlier (by omega)
      rw [List.getElem?_set_ne apart.symm, List.getElem?_append_left earlier]
      exact held.stored m above earlier
    · have cell : log.length % size < cells.length :=
        (Nat.mod_lt _ (by omega)).trans_le inside
      rw [List.getElem?_set_self cell, List.getElem?_append_right (Nat.le_refl _)]
      simp

/-- A block that does not pass the end of the array. -/
theorem pushAll (held : Held size cells log lo) (xs : List α)
    (room : log.length + xs.length ≤ lo + size) (inside : size ≤ cells.length)
    (unbroken : log.length % size + xs.length ≤ size) :
    Held size (putAll cells (log.length % size) xs) (log ++ xs) lo := by
  induction xs generalizing cells log with
  | nil => simpa [putAll] using held
  | cons x xs ih =>
      simp only [List.length_cons] at room unbroken
      have first := held.push (by omega) inside x
      cases xs with
      | nil => simpa [putAll] using first
      | cons y ys =>
          simp only [List.length_cons] at room unbroken
          have next : (log ++ [x]).length % size = log.length % size + 1 := by
            rw [List.length_append, List.length_singleton, Nat.add_mod,
              Nat.mod_eq_of_lt (show 1 < size by omega), Nat.mod_eq_of_lt (by omega)]
          have rest := ih first (by simp; omega) (by simpa using inside) (by rw [next, List.length_cons]; omega)
          rw [next] at rest
          simpa [putAll] using rest

/-- A block of cells is a block of entries. -/
theorem block (held : Held size cells log lo) {n : Nat} (known : lo + n ≤ log.length)
    (unbroken : lo % size + n ≤ size) :
    (cells.drop (lo % size)).take n = (log.drop lo).take n := by
  refine List.ext_getElem? fun j => ?_
  rw [List.getElem?_take, List.getElem?_take]
  by_cases inBlock : j < n
  · rw [if_pos inBlock, if_pos inBlock, List.getElem?_drop, List.getElem?_drop]
    have cell : (lo + j) % size = lo % size + j := by
      rw [Nat.add_mod, Nat.mod_eq_of_lt (show j < size by omega), Nat.mod_eq_of_lt (by omega)]
    rw [← cell]
    exact held.stored (lo + j) (Nat.le_add_right ..) (by omega)
  · rw [if_neg inBlock, if_neg inBlock]

/-- A full array is a rotation of the last entries. -/
theorem rotate_eq (held : Held size cells log lo) (full : log.length = lo + size)
    (whole : cells.length = size) : cells.rotate (lo % size) = log.drop lo := by
  refine List.ext_getElem? fun j => ?_
  by_cases inside : j < size
  · rw [List.getElem?_rotate (by omega), List.getElem?_drop, whole, Nat.add_mod_mod,
      Nat.add_comm j lo]
    exact held.stored (lo + j) (Nat.le_add_right ..) (by omega)
  · rw [List.getElem?_eq_none (by simp; omega), List.getElem?_eq_none (by simp; omega)]

end Held

end OsLab.Foundation
