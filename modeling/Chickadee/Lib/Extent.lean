import Mathlib.Tactic

/-!
# Extents

An extent is a range of consecutive numbers. A sequence of extents lays out the positions `0, 1, …`
over those numbers, one extent after the other: `psum f k` positions fit in the first `k` extents
and `blockAt f k b` is the number at position `b`. The layout is injective when no number is in two
extents, and adding a range at the end keeps the positions that were there.
-/

namespace Chickadee.Lib

/-- The numbers `first, …, first + count - 1`. -/
structure Extent where
  first : ℕ
  count : ℕ
deriving DecidableEq

instance : Membership ℕ Extent where
  mem e n := e.first ≤ n ∧ n < e.first + e.count

theorem Extent.mem_iff {e : Extent} {n : ℕ} : n ∈ e ↔ e.first ≤ n ∧ n < e.first + e.count :=
  Iff.rfl

instance (e : Extent) (n : ℕ) : Decidable (n ∈ e) :=
  decidable_of_iff _ Extent.mem_iff.symm

/-- The number of positions in the first `k` extents. -/
def psum (f : ℕ → Extent) : ℕ → ℕ
  | 0 => 0
  | k + 1 => psum f k + (f k).count

/-- The number at position `b`, looked up from the last of `k` extents backwards. -/
def blockAt (f : ℕ → Extent) : ℕ → ℕ → ℕ
  | 0, _ => 0
  | k + 1, b => if psum f k ≤ b then (f k).first + (b - psum f k) else blockAt f k b

section

variable {f g : ℕ → Extent} {k : ℕ}

@[simp]
theorem psum_zero (f : ℕ → Extent) : psum f 0 = 0 := rfl

theorem psum_succ (f : ℕ → Extent) (k : ℕ) : psum f (k + 1) = psum f k + (f k).count := rfl

theorem blockAt_succ (f : ℕ → Extent) (k b : ℕ) :
    blockAt f (k + 1) b =
      if psum f k ≤ b then (f k).first + (b - psum f k) else blockAt f k b := rfl

/-! ## Positions -/

theorem psum_mono (f : ℕ → Extent) {i j : ℕ} (h : i ≤ j) : psum f i ≤ psum f j := by
  induction h with
  | refl => exact le_rfl
  | step _ ih => exact ih.trans (Nat.le_add_right _ _)

/-- Every position is in one of the extents. -/
theorem exists_of_lt_psum {b : ℕ} (h : b < psum f k) :
    ∃ j < k, psum f j ≤ b ∧ b < psum f j + (f j).count := by
  induction k with
  | zero => exact absurd h (Nat.not_lt_zero b)
  | succ k ih =>
    by_cases hb : b < psum f k
    · obtain ⟨j, hj, hlo, hhi⟩ := ih hb
      exact ⟨j, by omega, hlo, hhi⟩
    · exact ⟨k, by omega, by omega, h⟩

/-- The number at a position of extent `j`. -/
theorem blockAt_eq {j b : ℕ} (hj : j < k) (hlo : psum f j ≤ b) (hhi : b < psum f j + (f j).count) :
    blockAt f k b = (f j).first + (b - psum f j) := by
  induction k with
  | zero => omega
  | succ k ih =>
    rw [blockAt_succ]
    rcases Nat.lt_succ_iff_lt_or_eq.mp hj with hj' | rfl
    · have hle : psum f (j + 1) ≤ psum f k := psum_mono f hj'
      rw [psum_succ] at hle
      rw [if_neg (by omega)]
      exact ih hj'
    · rw [if_pos hlo]

theorem exists_blockAt_mem {b : ℕ} (h : b < psum f k) : ∃ j < k, blockAt f k b ∈ f j := by
  obtain ⟨j, hj, hlo, hhi⟩ := exists_of_lt_psum h
  refine ⟨j, hj, ?_⟩
  rw [blockAt_eq hj hlo hhi, Extent.mem_iff]
  omega

/-- **Two positions share a number only when two extents do.** -/
theorem blockAt_inj (huniq : ∀ i < k, ∀ j < k, ∀ n, n ∈ f i → n ∈ f j → i = j) {b c : ℕ}
    (hb : b < psum f k) (hc : c < psum f k) (h : blockAt f k b = blockAt f k c) : b = c := by
  obtain ⟨i, hi, hlo, hhi⟩ := exists_of_lt_psum hb
  obtain ⟨j, hj, hlo', hhi'⟩ := exists_of_lt_psum hc
  rw [blockAt_eq hi hlo hhi, blockAt_eq hj hlo' hhi'] at h
  have hij : i = j := by
    refine huniq i hi j hj ((f i).first + (b - psum f i)) ?_ ?_
    · exact Extent.mem_iff.mpr ⟨by omega, by omega⟩
    · exact Extent.mem_iff.mpr ⟨by omega, by omega⟩
  subst hij
  omega

/-! ## Changing the sequence -/

theorem psum_congr (h : ∀ i < k, f i = g i) : psum f k = psum g k := by
  induction k with
  | zero => rfl
  | succ k ih =>
    have hbelow := ih fun i hi => h i (by omega)
    rw [psum_succ, psum_succ, hbelow, h k (by omega)]

theorem psum_le_psum (h : ∀ i, (f i).count ≤ (g i).count) (n : ℕ) :
    psum f n ≤ psum g n := by
  induction n with
  | zero => exact le_rfl
  | succ n ih =>
    rw [psum_succ, psum_succ]
    exact Nat.add_le_add ih (h n)

theorem psum_le_mul {c : ℕ} (h : ∀ i, (f i).count ≤ c) (n : ℕ) : psum f n ≤ n * c := by
  induction n with
  | zero => exact Nat.zero_le _
  | succ n ih =>
    rw [psum_succ, Nat.succ_mul]
    exact Nat.add_le_add ih (h n)

theorem blockAt_congr (h : ∀ i < k, f i = g i) (b : ℕ) : blockAt f k b = blockAt g k b := by
  induction k with
  | zero => rfl
  | succ k ih =>
    have hsum : psum f k = psum g k := psum_congr fun i hi => h i (by omega)
    have hbelow := ih fun i hi => h i (by omega)
    rw [blockAt_succ, blockAt_succ, hsum, hbelow, h k (by omega)]

/-- The layout `g` with `k'` extents is `f` with the range from `first` on at its end. -/
structure Extends (f : ℕ → Extent) (k : ℕ) (g : ℕ → Extent) (k' first count : ℕ) : Prop where
  total : psum g k' = psum f k + count
  old : ∀ b < psum f k, blockAt g k' b = blockAt f k b
  new : ∀ b, psum f k ≤ b → b < psum f k + count → blockAt g k' b = first + (b - psum f k)

/-- A new extent at the end. -/
theorem Extends.append {first count : ℕ} (h : ∀ i < k, g i = f i) (hk : g k = ⟨first, count⟩) :
    Extends f k g (k + 1) first count := by
  have hsum : psum g k = psum f k := psum_congr h
  refine ⟨?_, ?_, ?_⟩
  · show psum g k + (g k).count = _
    rw [hsum, hk]
  · intro b hb
    rw [blockAt_succ, if_neg (by omega), blockAt_congr h]
  · intro b hb _
    rw [blockAt_succ, if_pos (by omega), hsum, hk]

/-- The last extent is extended in place. -/
theorem Extends.grow {count : ℕ} (h : ∀ i < k, g i = f i)
    (hk : g k = ⟨(f k).first, (f k).count + count⟩) :
    Extends f (k + 1) g (k + 1) ((f k).first + (f k).count) count := by
  have hsum : psum g k = psum f k := psum_congr h
  have htotal : psum f (k + 1) = psum f k + (f k).count := rfl
  refine ⟨?_, ?_, ?_⟩
  · show psum g k + (g k).count = _
    rw [hsum, hk, htotal, Nat.add_assoc]
  · intro b _
    rw [blockAt_succ, blockAt_succ, hsum, hk, blockAt_congr h]
  · intro b hb _
    rw [blockAt_succ, if_pos (by omega), hsum, hk]
    show (f k).first + _ = _
    omega

end

end Chickadee.Lib
