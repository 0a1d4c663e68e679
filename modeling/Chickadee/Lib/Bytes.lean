import Mathlib.Tactic

/-!
# Numbers and copies in byte memory

A memory is a function from addresses to bytes. A number takes `w` bytes, the least significant
first; a copy replaces a range of bytes. The lemmas say what is read back after a write, inside the
written range and outside it.
-/

namespace Chickadee.Lib

/-- The number in the `w` bytes from `a` on. -/
def getLE (m : ℕ → UInt8) (a : ℕ) : ℕ → ℕ
  | 0 => 0
  | w + 1 => (m a).toNat + 256 * getLE m (a + 1) w

/-- Store the lowest `w` bytes of `v` from `a` on. -/
def putLE (m : ℕ → UInt8) (a w v : ℕ) : ℕ → UInt8 := fun i =>
  if a ≤ i ∧ i < a + w then UInt8.ofNat (v / 256 ^ (i - a)) else m i

/-- Replace the `n` bytes from `a` on by the first `n` bytes of `src`. -/
def copyTo (m : ℕ → UInt8) (a n : ℕ) (src : ℕ → UInt8) : ℕ → UInt8 := fun i =>
  if a ≤ i ∧ i < a + n then src (i - a) else m i

section

variable {m m' : ℕ → UInt8} {a w : ℕ}

/-! ## Reading -/

/-- Only the bytes of the number matter. -/
theorem getLE_congr (h : ∀ i, a ≤ i → i < a + w → m i = m' i) : getLE m a w = getLE m' a w := by
  induction w generalizing a with
  | zero => rfl
  | succ w ih =>
    have hhead : m a = m' a := h a le_rfl (by omega)
    have htail := ih (a := a + 1) fun i h₁ h₂ => h i (by omega) (by omega)
    unfold getLE
    rw [hhead, htail]

theorem getLE_lt (m : ℕ → UInt8) (a w : ℕ) : getLE m a w < 256 ^ w := by
  induction w generalizing a with
  | zero => exact Nat.one_pos
  | succ w ih =>
    have hb : (m a).toNat < 256 := (m a).toNat_lt
    have hrest := ih (a + 1)
    unfold getLE
    rw [pow_succ]
    omega

/-- A memory that is looked at from another address. -/
theorem getLE_shift (m : ℕ → UInt8) (a b w : ℕ) : getLE (fun i => m (a + i)) b w = getLE m (a + b) w := by
  induction w generalizing b with
  | zero => rfl
  | succ w ih =>
    unfold getLE
    rw [ih, Nat.add_assoc]

theorem getLE_zero (h : ∀ i, a ≤ i → i < a + w → m i = 0) : getLE m a w = 0 := by
  induction w generalizing a with
  | zero => rfl
  | succ w ih =>
    have hhead : m a = 0 := h a le_rfl (by omega)
    have htail := ih (a := a + 1) fun i h₁ h₂ => h i (by omega) (by omega)
    unfold getLE
    rw [hhead, htail]
    rfl

/-! ## Reading after a write -/

/-- The digits of a number, base 256, give it back. -/
theorem getLE_digits {v : ℕ} (h : ∀ i < w, m (a + i) = UInt8.ofNat (v / 256 ^ i)) :
    getLE m a w = v % 256 ^ w := by
  induction w generalizing a v with
  | zero =>
    show 0 = v % 256 ^ 0
    rw [pow_zero, Nat.mod_one]
  | succ w ih =>
    have hhead : (m a).toNat = v % 256 := by
      rw [← Nat.add_zero a, h 0 (by omega), pow_zero, Nat.div_one]
      exact UInt8.toNat_ofNat'
    have htail : getLE m (a + 1) w = v / 256 % 256 ^ w := by
      refine ih fun i hi => ?_
      rw [show a + 1 + i = a + (i + 1) by omega, h (i + 1) (by omega), Nat.div_div_eq_div_mul,
        pow_succ']
    unfold getLE
    rw [hhead, htail, pow_succ', Nat.mod_mul]

theorem getLE_putLE (m : ℕ → UInt8) (a w v : ℕ) : getLE (putLE m a w v) a w = v % 256 ^ w := by
  refine getLE_digits fun i hi => ?_
  unfold putLE
  rw [if_pos ⟨by omega, by omega⟩, Nat.add_sub_cancel_left]

theorem putLE_of_not_mem {v i : ℕ} (h : i < a ∨ a + w ≤ i) : putLE m a w v i = m i := by
  unfold putLE
  rw [if_neg (by omega)]

/-- A number elsewhere is not affected. -/
theorem getLE_putLE_of_disjoint {b u v : ℕ} (h : b + u ≤ a ∨ a + w ≤ b) :
    getLE (putLE m a w v) b u = getLE m b u :=
  getLE_congr fun _ _ _ => putLE_of_not_mem (by omega)

/-! ## Copies -/

theorem copyTo_of_mem {n : ℕ} {src : ℕ → UInt8} {i : ℕ} (h : a ≤ i) (h' : i < a + n) :
    copyTo m a n src i = src (i - a) := by
  unfold copyTo
  rw [if_pos ⟨h, h'⟩]

theorem copyTo_of_not_mem {n : ℕ} {src : ℕ → UInt8} {i : ℕ} (h : i < a ∨ a + n ≤ i) :
    copyTo m a n src i = m i := by
  unfold copyTo
  rw [if_neg (by omega)]

/-- A number that was copied. -/
theorem getLE_copyTo {n b : ℕ} {src : ℕ → UInt8} (h : b + w ≤ n) :
    getLE (copyTo m a n src) (a + b) w = getLE src b w := by
  rw [← getLE_shift]
  refine getLE_congr fun i hi hi' => ?_
  rw [copyTo_of_mem (by omega) (by omega), Nat.add_sub_cancel_left]

theorem getLE_copyTo_of_disjoint {n b u : ℕ} {src : ℕ → UInt8} (h : b + u ≤ a ∨ a + n ≤ b) :
    getLE (copyTo m a n src) b u = getLE m b u :=
  getLE_congr fun _ _ _ => copyTo_of_not_mem (by omega)

end

end Chickadee.Lib
