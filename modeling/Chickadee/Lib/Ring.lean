import Mathlib.Tactic

/-!
# Ring buffers

A ring of `cap` cells holds the `len` values from position `pos` on, modulo `cap`. A run of cells
that does not wrap is removed at the front or added at the end.
-/

namespace Chickadee.Lib

variable {α : Type*}

/-- The values of the `n` cells from `i` on. -/
def cells (b : ℕ → α) (i n : ℕ) : List α := (List.range n).map fun j => b (i + j)

/-- The contents of a ring, oldest first. -/
def ringList (b : ℕ → α) (cap pos len : ℕ) : List α :=
  (List.range len).map fun i => b ((pos + i) % cap)

@[simp]
theorem length_cells (b : ℕ → α) (i n : ℕ) : (cells b i n).length = n := by
  unfold cells
  rw [List.length_map, List.length_range]

@[simp]
theorem length_ringList (b : ℕ → α) (cap pos len : ℕ) : (ringList b cap pos len).length = len := by
  unfold ringList
  rw [List.length_map, List.length_range]

/-- The oldest values of a ring. -/
theorem take_ringList (b : ℕ → α) (cap pos : ℕ) {n len : ℕ} (hn : n ≤ len) :
    (ringList b cap pos len).take n = ringList b cap pos n := by
  unfold ringList
  rw [← List.map_take, List.take_range, Nat.min_eq_left hn]

theorem cells_succ (b : ℕ → α) (i n : ℕ) : cells b i (n + 1) = b i :: cells b (i + 1) n := by
  unfold cells
  rw [List.range_succ_eq_map, List.map_cons, List.map_map, Nat.add_zero]
  congr 1
  refine List.map_congr_left fun k _ => ?_
  show b (i + (k + 1)) = b (i + 1 + k)
  rw [Nat.add_right_comm, Nat.add_assoc]

theorem cells_add (b : ℕ → α) (i m n : ℕ) : cells b i (m + n) = cells b i m ++ cells b (i + m) n := by
  unfold cells
  rw [List.range_add, List.map_append, List.map_map]
  congr 1
  refine List.map_congr_left fun k _ => ?_
  show b (i + (m + k)) = b (i + m + k)
  rw [Nat.add_assoc]

theorem cells_congr {b b' : ℕ → α} {i i' n : ℕ} (h : ∀ k < n, b (i + k) = b' (i' + k)) : cells b i n = cells b' i' n :=
  List.map_congr_left fun k hk => h k (List.mem_range.mp hk)

theorem take_cells (b : ℕ → α) (i : ℕ) {n len : ℕ} (hn : n ≤ len) : (cells b i len).take n = cells b i n := by
  unfold cells
  rw [← List.map_take, List.take_range, Nat.min_eq_left hn]

/-- A position less than two turns ahead. -/
theorem mod_of_lt_two_mul {x cap : ℕ} (h : x < 2 * cap) :
    x % cap = if x < cap then x else x - cap := by
  split
  · next hlt => exact Nat.mod_eq_of_lt hlt
  · next hge => rw [Nat.mod_eq_sub_mod (by omega), Nat.mod_eq_of_lt (by omega)]

/-- **The oldest `n` values, as far as they do not wrap, and the rest.** -/
theorem ringList_pop (b : ℕ → α) (cap pos len n : ℕ) (hn : n ≤ len) (hwrap : pos + n ≤ cap) :
    ringList b cap pos len =
      cells b pos n ++ ringList b cap ((pos + n) % cap) (len - n) := by
  unfold ringList cells
  obtain ⟨m, rfl⟩ := Nat.exists_eq_add_of_le hn
  rw [Nat.add_sub_cancel_left, List.range_add, List.map_append, List.map_map]
  congr 1
  · refine List.map_congr_left fun i hi => ?_
    rw [Nat.mod_eq_of_lt (by have := List.mem_range.mp hi; omega)]
  · refine List.map_congr_left fun i _ => ?_
    show b ((pos + (n + i)) % cap) = _
    rw [Nat.mod_add_mod, Nat.add_assoc]

/-- **Values stored behind the newest one, as far as they do not wrap, are added at the end.** -/
theorem ringList_push (b b' : ℕ → α) {cap pos : ℕ} (len n : ℕ) (hpos : pos < cap) (hn : len + n ≤ cap)
    (hsame : ∀ i, i < (pos + len) % cap ∨ (pos + len) % cap + n ≤ i → b' i = b i)
    (hwrap : (pos + len) % cap + n ≤ cap) :
    ringList b' cap pos (len + n) =
      ringList b cap pos len ++ cells b' ((pos + len) % cap) n := by
  unfold ringList cells
  rw [List.range_add, List.map_append, List.map_map]
  congr 1
  · refine List.map_congr_left fun i hi => ?_
    have hi := List.mem_range.mp hi
    refine hsame _ ?_
    rw [mod_of_lt_two_mul (x := pos + len) (by omega)] at *
    rw [mod_of_lt_two_mul (x := pos + i) (by omega)]
    split <;> split <;> omega
  · refine List.map_congr_left fun i hi => ?_
    have hi := List.mem_range.mp hi
    show b' ((pos + (len + i)) % cap) = _
    rw [← Nat.add_assoc, ← Nat.mod_add_mod, Nat.mod_eq_of_lt (by omega)]

end Chickadee.Lib
