import Chickadee.Lib.Count
import Chickadee.Lib.Bytes

/-!
# Sums in one's complement

The sum of the 16-bit words of a range, with the carries folded back in. A fold keeps the sum modulo 65535,
so a word that holds the complement of the folded sum of the others makes the whole fold to 65535.
-/

namespace Chickadee.Lib

/-- The carries are added to the low 16 bits. -/
def fold16 (s : ℕ) : ℕ := s % 2 ^ 16 + s / 2 ^ 16

/-- The sum of the `n` words from `a` on. -/
def wordSum (m : ℕ → UInt8) (a n : ℕ) : ℕ := ∑ i ∈ Finset.range n, getLE m (a + 2 * i) 2

section

variable {m m' : ℕ → UInt8} {a n s : ℕ}

/-! ## Folding -/

theorem fold16_mod (s : ℕ) : fold16 s % 65535 = s % 65535 := by
  unfold fold16
  omega

theorem fold16_pos (h : 0 < s) : 0 < fold16 s := by
  unfold fold16
  omega

/-- Two folds are enough for a sum of 32 bits. -/
theorem fold16_fold16_le (h : s < 2 ^ 32) : fold16 (fold16 s) ≤ 65535 := by
  have hfirst : fold16 s ≤ 2 * 65535 := by
    unfold fold16
    omega
  rw [fold16]
  omega

/-- **With the complement of its folded sum added, a sum folds to 65535.** -/
theorem fold16_complement (hpos : 0 < s) (h : s < 2 ^ 31) :
    fold16 (fold16 (s + (65535 - fold16 (fold16 s)))) = 65535 := by
  have hle := fold16_fold16_le (s := s) (by omega)
  have hmod : fold16 (fold16 s) % 65535 = s % 65535 := by rw [fold16_mod, fold16_mod]
  generalize fold16 (fold16 s) = f at hle hmod
  -- the total is a multiple of 65535, and so is what it folds to
  have hle' := fold16_fold16_le (s := s + (65535 - f)) (by omega)
  have hpos' := fold16_pos (fold16_pos (s := s + (65535 - f)) (by omega))
  have hmod' : fold16 (fold16 (s + (65535 - f))) % 65535 = (s + (65535 - f)) % 65535 := by
    rw [fold16_mod, fold16_mod]
  omega

/-! ## Words -/

theorem wordSum_zero (m : ℕ → UInt8) (a : ℕ) : wordSum m a 0 = 0 := rfl

/-- The first word apart. -/
theorem wordSum_succ (m : ℕ → UInt8) (a n : ℕ) :
    wordSum m a (n + 1) = getLE m a 2 + wordSum m (a + 2) n := by
  unfold wordSum
  rw [Finset.sum_range_succ']
  have hrest : ∀ i ∈ Finset.range n, getLE m (a + 2 * (i + 1)) 2 = getLE m (a + 2 + 2 * i) 2 := by
    intro i _
    rw [show a + 2 * (i + 1) = a + 2 + 2 * i by omega]
  rw [Finset.sum_congr rfl hrest, Nat.add_comm]
  rfl

theorem wordSum_le (m : ℕ → UInt8) (a n : ℕ) : wordSum m a n ≤ 65535 * n := by
  unfold wordSum
  have hword : ∀ i ∈ Finset.range n, getLE m (a + 2 * i) 2 ≤ 65535 :=
    fun i _ => Nat.lt_succ_iff.mp (getLE_lt m (a + 2 * i) 2)
  calc ∑ i ∈ Finset.range n, getLE m (a + 2 * i) 2
      ≤ (Finset.range n).card • 65535 := Finset.sum_le_card_nsmul _ _ _ hword
    _ = 65535 * n := by rw [Finset.card_range, smul_eq_mul, Nat.mul_comm]

theorem wordSum_pos {j : ℕ} (hj : j < n) (h : 0 < getLE m (a + 2 * j) 2) : 0 < wordSum m a n := by
  unfold wordSum
  exact Finset.sum_pos' (fun _ _ => Nat.zero_le _) ⟨j, Finset.mem_range.mpr hj, h⟩

theorem wordSum_congr (h : ∀ i, a ≤ i → i < a + 2 * n → m i = m' i) : wordSum m a n = wordSum m' a n := by
  unfold wordSum
  refine Finset.sum_congr rfl fun i hi => getLE_congr fun b hb hb' => ?_
  have hlt := Finset.mem_range.mp hi
  exact h b (by omega) (by omega)

/-- A word that was zero is set. -/
theorem wordSum_putLE {j v : ℕ} (hj : j < n) (hzero : getLE m (a + 2 * j) 2 = 0) (hv : v < 2 ^ 16) :
    wordSum (putLE m (a + 2 * j) 2 v) a n = wordSum m a n + v := by
  unfold wordSum
  refine sum_add_eq (x := 0) (Finset.mem_range.mpr hj) (fun i _ hne => ?_) ?_
  · exact getLE_putLE_of_disjoint (by omega)
  · rw [hzero, getLE_putLE, Nat.zero_add, Nat.add_zero]
    exact Nat.mod_eq_of_lt hv

end

end Chickadee.Lib
