import Mathlib.Data.List.Basic
import Mathlib.Data.Nat.ModEq
import Mathlib.Logic.Function.Basic

/-!
# Circular storage and bounded queues

A bounded queue (`Fifo`) carries the proof that it does not exceed its capacity. `window` reads
a queue out of circular storage: `q` cells starting at cell `r` of a storage of `n` cells, the
indices taken modulo `n`. `window_push` and `window_pop` are the two edits of a circular buffer,
at its write end and at its read end.
-/

namespace C4OS.Foundations

variable {α : Type*}

/-! ## Bounded queues -/

/-- A first-in first-out queue of at most `cap` items. -/
structure Fifo (α : Type*) (cap : ℕ) where
  /-- The queued items, oldest first. -/
  items : List α
  bounded : items.length ≤ cap

namespace Fifo

variable {cap : ℕ}

@[ext] theorem ext {q q' : Fifo α cap} (h : q.items = q'.items) : q = q' := by
  cases q; cases q'; cases h; rfl

/-- The empty queue. -/
def empty : Fifo α cap := ⟨[], Nat.zero_le _⟩

/-- The number of items that still fit. -/
def room (q : Fifo α cap) : ℕ := cap - q.items.length

/-- Enqueue as many items of `l` as fit. -/
def put (q : Fifo α cap) (l : List α) : Fifo α cap :=
  ⟨q.items ++ l.take q.room, by
    have := q.bounded
    simp only [List.length_append, List.length_take, room]
    omega⟩

/-- Drop the `n` oldest items. -/
def drop (q : Fifo α cap) (n : ℕ) : Fifo α cap :=
  ⟨q.items.drop n, by
    have := q.bounded
    simp only [List.length_drop]
    omega⟩

@[simp] theorem items_empty : (empty : Fifo α cap).items = [] := rfl

@[simp] theorem items_put (q : Fifo α cap) (l : List α) :
    (q.put l).items = q.items ++ l.take q.room := rfl

@[simp] theorem items_drop (q : Fifo α cap) (n : ℕ) : (q.drop n).items = q.items.drop n := rfl

theorem room_put (q : Fifo α cap) (l : List α) : (q.put l).room = q.room - l.length := by
  have := q.bounded
  simp only [room, items_put, List.length_append, List.length_take]
  omega

end Fifo

/-! ## Circular storage -/

/-- The `q` cells of a circular storage of `n` cells that start at cell `r`. -/
def window (data : ℕ → α) (n r q : ℕ) : List α := (List.range q).map fun i => data ((r + i) % n)

@[simp] theorem length_window (data : ℕ → α) (n r q : ℕ) : (window data n r q).length = q := by
  simp [window]

@[simp] theorem window_zero (data : ℕ → α) (n r : ℕ) : window data n r 0 = [] := rfl

/-- Two offsets below the size of the storage address different cells. -/
theorem add_mod_ne {n r i j : ℕ} (hi : i < n) (hj : j < n) (h : i ≠ j) :
    (r + i) % n ≠ (r + j) % n := by
  intro e
  have e' : i ≡ j [MOD n] := Nat.ModEq.add_left_cancel' r e
  exact h (Nat.ModEq.eq_of_lt_of_lt e' hi hj)

/-- **Writing the cell after the window extends the window.** -/
theorem window_push (data : ℕ → α) {n r q : ℕ} (hq : q < n) (b : α) :
    window (Function.update data ((r + q) % n) b) n r (q + 1) = window data n r q ++ [b] := by
  simp only [window, List.range_succ, List.map_append, List.map_cons, List.map_nil,
    Function.update_self]
  congr 1
  refine List.map_congr_left fun i hi => ?_
  have hi' : i < q := List.mem_range.1 hi
  exact Function.update_of_ne (add_mod_ne (by omega) hq (by omega)) _ _

/-- **Reading the first cell of the window shortens the window.** -/
theorem window_pop (data : ℕ → α) (n r q : ℕ) :
    window data n r (q + 1) = data (r % n) :: window data n ((r + 1) % n) q := by
  simp only [window, List.range_succ_eq_map, List.map_cons, List.map_map, Nat.add_zero]
  congr 1
  refine List.map_congr_left fun i _ => ?_
  simp only [Function.comp_apply, Nat.mod_add_mod, Nat.succ_eq_add_one]
  congr 2
  omega

end C4OS.Foundations
