import Chickadee.Lib.Extent

/-!
# Lists end to end

`joined g k` is `g 0`, …, `g (k - 1)` one behind the other. When `g i` has as many elements as the extent
`f i`, the position `psum f j + r` is the element `r` of `g j`.

`after p l b` is the first position behind `b` whose element does not satisfy `p`. The positions it gives
one after the other are those of the elements that a filter keeps.
-/

namespace Chickadee.Lib

variable {α : Type}

/-- The first `k` lists, one behind the other. -/
def joined (g : ℕ → List α) (k : ℕ) : List α := (List.range k).flatMap g

section

variable {g g' : ℕ → List α} {f : ℕ → Extent} {k : ℕ}

theorem joined_succ (g : ℕ → List α) (k : ℕ) : joined g (k + 1) = joined g k ++ g k := by
  unfold joined
  rw [List.range_succ, List.flatMap_append, List.flatMap_singleton]

theorem joined_congr (h : ∀ i < k, g i = g' i) : joined g k = joined g' k := by
  induction k with
  | zero => rfl
  | succ k ih => rw [joined_succ, joined_succ, ih fun i hi => h i (by omega), h k (Nat.lt_succ_self k)]

theorem length_joined (h : ∀ i, (g i).length = (f i).count) (k : ℕ) : (joined g k).length = psum f k := by
  induction k with
  | zero => rfl
  | succ k ih => rw [joined_succ, List.length_append, ih, h, psum_succ]

/-- **What is at a position.** -/
theorem getElem?_joined (h : ∀ i, (g i).length = (f i).count) {j r : ℕ} (hj : j < k) (hr : r < (f j).count) :
    (joined g k)[psum f j + r]? = (g j)[r]? := by
  induction k with
  | zero => exact absurd hj (Nat.not_lt_zero j)
  | succ k ih =>
    have hlen := length_joined h k
    rw [joined_succ]
    rcases Nat.lt_succ_iff_lt_or_eq.mp hj with hj | rfl
    · have hle : psum f (j + 1) ≤ psum f k := psum_mono f hj
      rw [psum_succ] at hle
      rw [List.getElem?_append_left (by omega)]
      exact ih hj
    · rw [List.getElem?_append_right (by omega), hlen, Nat.add_sub_cancel_left]

end

section

variable {p : α → Bool} {l : List α} {b : ℕ}

/-- The first position behind `b` whose element does not satisfy `p`, or one behind the list. -/
def after (p : α → Bool) (l : List α) (b : ℕ) : ℕ := b + 1 + ((l.drop (b + 1)).takeWhile p).length

theorem lt_after : b < after p l b := by
  unfold after
  omega

/-- The next element is skipped. -/
theorem after_skip {a : α} (h : l[b + 1]? = some a) (hp : p a = true) : after p l b = after p l (b + 1) := by
  unfold after
  have hlt := (List.getElem?_eq_some_iff.mp h).1
  rw [List.drop_eq_getElem_cons hlt, (List.getElem?_eq_some_iff.mp h).2, List.takeWhile_cons_of_pos hp,
    List.length_cons]
  omega

/-- The next element is the one. -/
theorem after_stop {a : α} (h : l[b + 1]? = some a) (hp : p a = false) : after p l b = b + 1 := by
  unfold after
  have hlt := (List.getElem?_eq_some_iff.mp h).1
  rw [List.drop_eq_getElem_cons hlt, (List.getElem?_eq_some_iff.mp h).2,
    List.takeWhile_cons_of_neg (by rw [hp]; exact Bool.false_ne_true), List.length_nil]

/-- There is no next element. -/
theorem after_end (h : l.length ≤ b + 1) : after p l b = b + 1 := by
  unfold after
  rw [List.drop_eq_nil_of_le h]
  rfl

/-- **One more element that the filter keeps.** -/
theorem filter_drop_after (p : α → Bool) (l : List α) (b : ℕ) :
    (l.drop (b + 1)).filter (fun a => !p a) =
      l[after p l b]?.toList ++ (l.drop (after p l b + 1)).filter fun a => !p a := by
  by_cases hlt : b + 1 < l.length
  · have hget : l[b + 1]? = some l[b + 1] := List.getElem?_eq_getElem hlt
    rw [List.drop_eq_getElem_cons hlt]
    cases hp : p l[b + 1] with
    | true =>
      rw [after_skip hget hp, List.filter_cons_of_neg (by rw [hp]; exact Bool.false_ne_true)]
      exact filter_drop_after p l (b + 1)
    | false =>
      rw [after_stop hget hp, hget, List.filter_cons_of_pos (by rw [hp]; rfl)]
      rfl
  · have hle : l.length ≤ b + 1 := not_lt.mp hlt
    rw [after_end hle, List.drop_eq_nil_of_le hle, List.getElem?_eq_none hle, List.drop_eq_nil_of_le (by omega)]
    rfl
termination_by l.length - b

/-- The position after a step from `b`. Behind the list there are no more steps. -/
def advance (p : α → Bool) (l : List α) (b : ℕ) : ℕ := if b < l.length then after p l b else b

/-- **Step by step the positions are those of the elements that the filter keeps.** -/
theorem getElem?_advance (p : α → Bool) (l : List α) (n b : ℕ) :
    l[(advance p l)^[n + 1] b]? = ((l.drop (b + 1)).filter fun a => !p a)[n]? := by
  induction n generalizing b with
  | zero =>
    show l[advance p l b]? = _
    unfold advance
    split
    · rw [filter_drop_after]
      cases h : l[after p l b]? with
      | some a => rfl
      | none =>
        have hle := List.getElem?_eq_none_iff.mp h
        rw [List.drop_eq_nil_of_le (by omega)]
        rfl
    · next hle =>
      rw [List.getElem?_eq_none (not_lt.mp hle), List.drop_eq_nil_of_le (by omega)]
      rfl
  | succ n ih =>
    rw [Function.iterate_succ_apply, ih]
    unfold advance
    split
    · rw [filter_drop_after p l b]
      cases h : l[after p l b]? with
      | some a => rfl
      | none =>
        have hle := List.getElem?_eq_none_iff.mp h
        rw [List.drop_eq_nil_of_le (by omega)]
        rfl
    · next hle =>
      rw [List.drop_eq_nil_of_le (by omega)]
      rfl

end

end Chickadee.Lib
