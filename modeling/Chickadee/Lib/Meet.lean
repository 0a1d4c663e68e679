import Mathlib

/-!
# Flags that all of an interval has

A word stands for the set of its bits, and the intersection of words is their bitwise and. `IsMeet f p lo hi` says
that `p` is the intersection of the words that `f` gives to the numbers from `lo` on and below `hi`.
-/

namespace Chickadee.Lib

variable {w : ℕ}

/-- `p` has the bits that all the words of the interval have. -/
def IsMeet (f : ℕ → BitVec w) (p : BitVec w) (lo hi : ℕ) : Prop :=
  ∀ i < w, p.getLsbD i = true ↔ ∀ x, lo ≤ x → x < hi → (f x).getLsbD i = true

/-- The intersection of the words of a list of numbers. -/
def meetOf (f : ℕ → BitVec w) (l : List ℕ) : BitVec w := l.foldr (fun x p => f x &&& p) (BitVec.allOnes w)

variable {f : ℕ → BitVec w} {p q : BitVec w} {lo mid hi x : ℕ}

theorem getLsbD_meetOf (l : List ℕ) {i : ℕ} (hi : i < w) :
    (meetOf f l).getLsbD i = true ↔ ∀ x ∈ l, (f x).getLsbD i = true := by
  induction l with
  | nil => simp [meetOf, hi]
  | cons x l ih =>
    rw [show meetOf f (x :: l) = f x &&& meetOf f l from rfl, BitVec.getLsbD_and, Bool.and_eq_true, ih]
    simp

namespace IsMeet

/-- There is one intersection. -/
theorem unique (hp : IsMeet f p lo hi) (hq : IsMeet f q lo hi) : p = q :=
  BitVec.eq_of_getLsbD_eq fun i h => Bool.eq_iff_iff.2 ((hp i h).trans (hq i h).symm)

theorem and (hp : IsMeet f p lo mid) (hq : IsMeet f q mid hi) (hlo : lo ≤ mid) (hhi : mid ≤ hi) :
    IsMeet f (p &&& q) lo hi := by
  intro i h
  rw [BitVec.getLsbD_and, Bool.and_eq_true, hp i h, hq i h]
  constructor
  · intro hboth x hlox hxhi
    rcases Nat.lt_or_ge x mid with hx | hx
    · exact hboth.1 x hlox hx
    · exact hboth.2 x hx hxhi
  · intro hall
    exact ⟨fun x hlox hx => hall x hlox (by omega), fun x hx hxhi => hall x (by omega) hxhi⟩

theorem of_const (hne : lo < hi) (h : ∀ x, lo ≤ x → x < hi → f x = p) : IsMeet f p lo hi := by
  intro i _
  constructor
  · intro hp x hlo hhi
    rw [h x hlo hhi, hp]
  · intro hall
    rw [← h lo le_rfl hne]
    exact hall lo le_rfl hne

/-- Where the interval is extended, the intersection stays when the new words have its bits, and only then. -/
theorem extend_iff (hp : IsMeet f p lo mid) (hlo : lo ≤ mid) (hhi : mid ≤ hi) :
    IsMeet f p lo hi ↔ ∀ x, mid ≤ x → x < hi → p &&& f x = p := by
  constructor
  · intro hall x hx hxhi
    refine BitVec.eq_of_getLsbD_eq fun i h => ?_
    rw [BitVec.getLsbD_and]
    cases hbit : p.getLsbD i with
    | false => rfl
    | true => rw [(hall i h).1 hbit x (by omega) hxhi, Bool.and_self]
  · intro hrest i h
    rw [hp i h]
    constructor
    · intro hbits x hlox hxhi
      rcases Nat.lt_or_ge x mid with hx | hx
      · exact hbits x hlox hx
      · have hbit := (hp i h).2 hbits
        rw [← hrest x hx hxhi, BitVec.getLsbD_and, Bool.and_eq_true] at hbit
        exact hbit.2
    · intro hall x hlox hx
      exact hall x hlox (by omega)

/-- An intersection with an empty word is empty. -/
theorem of_zero (hlo : lo ≤ x) (hhi : x < hi) (hx : f x = 0#w) : IsMeet f 0#w lo hi := by
  intro i _
  rw [BitVec.getLsbD_zero]
  constructor
  · intro h
    cases h
  · intro hall
    have hbit := hall x hlo hhi
    rwa [hx, BitVec.getLsbD_zero] at hbit

/-- A bit that the intersection lacks is lacking somewhere. -/
theorem exists_of_not (hp : IsMeet f p lo hi) {i : ℕ} (h : i < w) (hbit : p.getLsbD i = false) :
    ∃ x, lo ≤ x ∧ x < hi ∧ (f x).getLsbD i = false := by
  by_contra hnone
  simp only [not_exists, not_and, Bool.not_eq_false] at hnone
  rw [(hp i h).2 hnone] at hbit
  cases hbit

end IsMeet

end Chickadee.Lib
