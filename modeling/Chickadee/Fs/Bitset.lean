import Mathlib.Tactic

/-!
# `bitset_view` of `lib.hh`

A bitset is a sequence of 64-bit words. The two searches scan it word by word, the first word under a
mask; `find_lsz` is the same scan over the complemented words. Each returns the first position from
`i` on, below its limit, with the bit it looks for, and the limit if there is none.
-/

namespace Chickadee.Fs

/-- The words `v_` of a `bitset_view`. -/
abbrev Words : Type := ℕ → BitVec 64

namespace Words

/-- `operator[]`: bit `i`. -/
def bit (v : Words) (i : ℕ) : Bool := (v (i / 64)).getLsbD (i % 64)

/-- `bit::operator=`: set bit `i` to `x`. -/
def set (v : Words) (i : ℕ) (x : Bool) : Words := fun w =>
  if w = i / 64 then
    if x then v w ||| 1#64 <<< (i % 64) else v w &&& ~~~(1#64 <<< (i % 64))
  else v w

/-- `lsb(x)`: one more than the position of the lowest set bit, 0 if there is none. -/
def lsb (x : BitVec 64) : ℕ :=
  match (List.range 64).find? fun t => x.getLsbD t with
  | some t => t + 1
  | none => 0

/-- The mask of the first word: the bits from `off` on. -/
def mask (off : ℕ) : BitVec 64 := ~~~(if off ≠ 0 then 1#64 <<< off - 1#64 else 0#64)

/-- The loop of the searches, and the `return` after it. -/
def scan (v : Words) (n : ℕ) : ℕ → ℕ → BitVec 64 → ℕ
  | 0, _, _ => n
  | fuel + 1, i, m =>
    if i < n then
      match lsb (v (i / 64) &&& m) with
      | 0 => scan v n fuel (i + 64) (BitVec.allOnes 64)
      | b + 1 => min n (i + b)
    else n

/-- What `find_lsb` and `find_lsz` do with `v_[i / 64]` and with its complement. -/
def find (v : Words) (n_ i n : ℕ) : ℕ :=
  let n := min (n_ - i) n + i
  scan v n (n + 1) (i - i % 64) (mask (i % 64))

/-- `find_lsb(i, n)` of a view of `n_` bits. -/
def find_lsb (v : Words) (n_ i n : ℕ) : ℕ := find v n_ i n

/-- `find_lsz(i, n)` of a view of `n_` bits. -/
def find_lsz (v : Words) (n_ i n : ℕ) : ℕ := find (fun w => ~~~v w) n_ i n

/-! ## Single bits -/

theorem getLsbD_one_shiftLeft {k t : ℕ} (ht : t < 64) :
    (1#64 <<< k).getLsbD t = decide (t = k) := by
  rw [← BitVec.twoPow_eq, BitVec.getLsbD_twoPow]
  by_cases h : k = t
  · subst h
    simp [ht]
  · simp [h, Ne.symm h]

/-- **Setting a bit changes no other bit.** -/
theorem bit_set (v : Words) (i j : ℕ) (x : Bool) :
    (v.set i x).bit j = if j = i then x else v.bit j := by
  have ht : j % 64 < 64 := Nat.mod_lt _ (by decide)
  unfold bit set
  by_cases hw : j / 64 = i / 64
  · have hiff : j % 64 = i % 64 ↔ j = i := by omega
    rw [if_pos hw]
    cases x
    · rw [if_neg (by simp), BitVec.getLsbD_and, BitVec.getLsbD_not, getLsbD_one_shiftLeft ht]
      by_cases h : j = i
      · simp [h]
      · simp [hiff, h, ht]
    · rw [if_pos rfl, BitVec.getLsbD_or, getLsbD_one_shiftLeft ht]
      by_cases h : j = i
      · simp [h]
      · simp [hiff, h]
  · rw [if_neg hw, if_neg (by rintro rfl; exact hw rfl)]

theorem bit_complement (v : Words) (j : ℕ) : Words.bit (fun w => ~~~v w) j = !v.bit j := by
  have ht : j % 64 < 64 := Nat.mod_lt _ (by decide)
  unfold bit
  rw [BitVec.getLsbD_not, decide_eq_true ht, Bool.true_and]

theorem getLsbD_mask {off t : ℕ} (hoff : off < 64) (ht : t < 64) :
    (mask off).getLsbD t = decide (off ≤ t) := by
  unfold mask
  by_cases h : off = 0
  · subst h
    rw [if_neg (by simp), BitVec.not_zero, BitVec.getLsbD_allOnes]
    simp [ht]
  · have hlow : (1#64 <<< off - 1#64).getLsbD t = decide (t < off) := by
      have hval : (1#64 <<< off - 1#64).toNat = 2 ^ off - 1 := by
        have hpow : 2 ^ off < 2 ^ 64 := Nat.pow_lt_pow_right (by decide) hoff
        have hone : (1#64 <<< off).toNat = 2 ^ off := by
          rw [← BitVec.twoPow_eq, BitVec.toNat_twoPow, Nat.mod_eq_of_lt hpow]
        have hpos : 1 ≤ 2 ^ off := Nat.one_le_two_pow
        rw [BitVec.toNat_sub, hone]
        show (2 ^ 64 - 1 + 2 ^ off) % 2 ^ 64 = _
        omega
      rw [BitVec.getLsbD, hval, Nat.testBit_two_pow_sub_one]
    rw [if_pos h, BitVec.getLsbD_not, hlow, decide_eq_true ht, Bool.true_and]
    by_cases hlt : t < off
    · simp [hlt, Nat.not_le.mpr hlt]
    · simp [hlt, Nat.not_lt.mp hlt]

/-! ## The searches -/

theorem lsb_eq_zero {x : BitVec 64} (h : lsb x = 0) {t : ℕ} (ht : t < 64) :
    x.getLsbD t = false := by
  unfold lsb at h
  split at h
  · exact absurd h (Nat.succ_ne_zero _)
  · next hnone => simpa using List.find?_eq_none.mp hnone t (List.mem_range.mpr ht)

theorem lsb_eq_succ {x : BitVec 64} {b : ℕ} (h : lsb x = b + 1) :
    b < 64 ∧ x.getLsbD b = true ∧ ∀ t < b, x.getLsbD t = false := by
  unfold lsb at h
  split at h
  · next t hsome =>
    cases h
    obtain ⟨hbit, hlt, hbelow⟩ := List.find?_range_eq_some.mp hsome
    exact ⟨List.mem_range.mp hlt, hbit, fun u hu => by simpa using hbelow u hu⟩
  · exact absurd h.symm (Nat.succ_ne_zero _)

/-- `r` is the first position from `lo` on that satisfies `p`, or the limit `n` if there is none. -/
structure IsFirst (p : ℕ → Prop) (lo n r : ℕ) : Prop where
  le : r ≤ n
  below : ∀ j, lo ≤ j → j < r → ¬p j
  hit : r < n → lo ≤ r ∧ p r

/-- The bits of one word under the mask of the positions from `lo` on. -/
theorem masked_bit {v : Words} {i lo : ℕ} {m : BitVec 64} (hi : i % 64 = 0)
    (hm : ∀ t < 64, m.getLsbD t = decide (lo ≤ i + t)) {t : ℕ} (ht : t < 64) :
    (v (i / 64) &&& m).getLsbD t = (v.bit (i + t) && decide (lo ≤ i + t)) := by
  have hdiv : (i + t) / 64 = i / 64 := by omega
  have hmod : (i + t) % 64 = t := by omega
  unfold bit
  rw [BitVec.getLsbD_and, hm t ht, hdiv, hmod]

/-- One turn of the scan looks at one word; the induction is on the turns that are left. -/
theorem scan_spec {v : Words} {n : ℕ} (fuel : ℕ) {i lo : ℕ} {m : BitVec 64} (hi : i % 64 = 0)
    (hlo : i ≤ lo) (hlo' : lo < i + 64) (hfuel : n < i + fuel)
    (hm : ∀ t < 64, m.getLsbD t = decide (lo ≤ i + t)) :
    IsFirst (fun j => v.bit j = true) lo n (scan v n fuel i m) := by
  induction fuel generalizing i lo m with
  | zero =>
    have hend : scan v n 0 i m = n := rfl
    rw [hend]
    exact ⟨le_rfl, fun j _ _ => by omega, fun h => absurd h (lt_irrefl n)⟩
  | succ fuel ih =>
    unfold scan
    by_cases hin : i < n
    · rw [if_pos hin]
      split
      · -- no bit in this word: the next one, with nothing masked
        next hzero =>
        have hnext : IsFirst (fun j => v.bit j = true) (i + 64) n
            (scan v n fuel (i + 64) (BitVec.allOnes 64)) :=
          ih (by omega) le_rfl (by omega) (by omega)
            (by intro t ht; rw [BitVec.getLsbD_allOnes]; simp [ht])
        refine ⟨hnext.le, ?_, fun h => ?_⟩
        · intro j hj hjr
          by_cases hword : j < i + 64
          · have hbit := masked_bit (v := v) hi hm (t := j - i) (by omega)
            rw [lsb_eq_zero hzero (by omega), show i + (j - i) = j by omega, decide_eq_true hj,
              Bool.and_true] at hbit
            simp [← hbit]
          · exact hnext.below j (by omega) hjr
        · obtain ⟨hge, hset⟩ := hnext.hit h
          exact ⟨by omega, hset⟩
      · next b hsucc =>
        obtain ⟨hb, hset, hbelow⟩ := lsb_eq_succ hsucc
        rw [masked_bit hi hm hb, Bool.and_eq_true, decide_eq_true_eq] at hset
        refine ⟨min_le_left _ _, ?_, fun h => ?_⟩
        · intro j hj hjr
          have hbit := masked_bit (v := v) hi hm (t := j - i) (by omega)
          rw [hbelow (j - i) (by omega), show i + (j - i) = j by omega, decide_eq_true hj,
            Bool.and_true] at hbit
          simp [← hbit]
        · have heq : min n (i + b) = i + b := by omega
          rw [heq]
          exact ⟨hset.2, hset.1⟩
    · rw [if_neg hin]
      exact ⟨le_rfl, fun j _ _ => by omega, fun h => absurd h (lt_irrefl n)⟩

/-- **A search returns the first position from `i` on with the bit it looks for.** -/
theorem find_spec (v : Words) (n_ i n : ℕ) :
    IsFirst (fun j => v.bit j = true) i (min (n_ - i) n + i) (find v n_ i n) := by
  unfold find
  refine scan_spec _ (by omega) (by omega) (by omega) (by omega) fun t ht => ?_
  rw [getLsbD_mask (Nat.mod_lt _ (by decide)) ht]
  exact decide_eq_decide.mpr (by omega)

theorem find_lsb_spec (v : Words) (n_ i n : ℕ) :
    IsFirst (fun j => v.bit j = true) i (min (n_ - i) n + i) (v.find_lsb n_ i n) :=
  find_spec v n_ i n

theorem find_lsz_spec (v : Words) (n_ i n : ℕ) :
    IsFirst (fun j => v.bit j = false) i (min (n_ - i) n + i) (v.find_lsz n_ i n) := by
  have h := find_spec (fun w => ~~~v w) n_ i n
  simp only [bit_complement, Bool.not_eq_true'] at h
  exact h

end Words

end Chickadee.Fs
