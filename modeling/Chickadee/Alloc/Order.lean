import Mathlib.Tactic
import Mathlib.Data.Nat.Log

/-!
# Sizes and orders

The helper functions of `k-alloc.cc` that turn a size into an order, and the constants they use.
`order` is the ceiling of the binary logarithm and `largest_fitting_ord` is its floor.
-/

namespace Chickadee.Alloc

abbrev PAGESIZE : ℕ := 4096
abbrev MIN_ORDER : ℕ := 12
abbrev MAX_ORDER : ℕ := 21
abbrev MEMSIZE_PHYSICAL : ℕ := 0x200000

/-- The loop `while (sz >>= 1) ord++` of `order`. -/
def orderLoop (sz ord : ℕ) : ℕ :=
  if sz >>> 1 = 0 then ord else orderLoop (sz >>> 1) (ord + 1)
termination_by sz
decreasing_by
  rw [Nat.shiftRight_one] at *
  omega

/-- `order(sz, set_min)`. The test `!(y & (y + 1))` asks whether `sz` is a power of two. -/
def order (sz : ℕ) (set_min : Bool := false) : ℕ :=
  let y := sz - 1
  let ord := orderLoop sz 0
  if y &&& (y + 1) = 0 then
    if set_min then (if ord ≥ MIN_ORDER then ord else MIN_ORDER) else ord
  else
    if set_min then (if ord + 1 ≥ MIN_ORDER then ord + 1 else MIN_ORDER) else ord + 1

/-- `largest_fitting_ord(num, sz)`. The recursive call passes `++sz`. -/
def largest_fitting_ord (num : ℕ) (sz : ℕ := 1) : ℕ :=
  if num = 1 then sz - 1
  else if num = 0 then 0
  else largest_fitting_ord (num >>> 1) (sz + 1)
termination_by num
decreasing_by
  rw [Nat.shiftRight_one]
  omega

/-! ## `order` -/

theorem orderLoop_eq (sz : ℕ) : ∀ ord, orderLoop sz ord = ord + Nat.log 2 sz := by
  induction sz using Nat.strongRecOn with
  | _ sz ih =>
    intro ord
    rw [orderLoop, Nat.shiftRight_one]
    split
    · next h => rw [Nat.log_of_lt (by omega), Nat.add_zero]
    · next h =>
      rw [ih _ (by omega), Nat.log_of_one_lt_of_le (by omega : 1 < 2) (by omega : 2 ≤ sz)]
      omega

/-- **`order(sz)` is the ceiling of the binary logarithm of `sz`.** -/
theorem order_eq_clog {sz : ℕ} (h : 0 < sz) : order sz = Nat.clog 2 sz := by
  have hy : sz - 1 + 1 = sz := by omega
  have htest : sz &&& (sz - 1) = 0 ↔ sz.isPowerOfTwo :=
    Nat.and_sub_one_eq_zero_iff_isPowerOfTwo (by omega)
  simp only [order, orderLoop_eq, Nat.zero_add, hy, Bool.false_eq_true, if_false]
  rw [Nat.and_comm]
  have hlo : 2 ^ Nat.log 2 sz ≤ sz := Nat.pow_log_le_self 2 (by omega)
  have hhi : sz < 2 ^ (Nat.log 2 sz + 1) := Nat.lt_pow_succ_log_self (by omega) sz
  split
  · next hand =>
    obtain ⟨k, rfl⟩ := htest.mp hand
    rw [Nat.log_pow (by omega), Nat.clog_pow 2 k (by omega)]
  · next hand =>
    refine le_antisymm ?_ (Nat.clog_le_of_le_pow hhi.le)
    refine Nat.succ_le_of_lt ((Nat.lt_clog_iff_pow_lt (by omega)).mpr ?_)
    exact lt_of_le_of_ne hlo fun he => hand (htest.mpr ⟨_, he.symm⟩)

theorem le_two_pow_order {sz : ℕ} (h : 0 < sz) : sz ≤ 2 ^ order sz := by
  rw [order_eq_clog h]
  exact Nat.le_pow_clog (by omega) sz

theorem order_le {sz k : ℕ} (h : 0 < sz) (hk : sz ≤ 2 ^ k) : order sz ≤ k := by
  rw [order_eq_clog h]
  exact Nat.clog_le_of_le_pow hk

/-! ## `largest_fitting_ord` -/

theorem largest_fitting_ord_eq {num : ℕ} (h : 0 < num) :
    ∀ sz, 0 < sz → largest_fitting_ord num sz = sz - 1 + Nat.log 2 num := by
  induction num using Nat.strongRecOn with
  | _ num ih =>
    intro sz hsz
    rw [largest_fitting_ord, Nat.shiftRight_one]
    split
    · next h1 => rw [h1]; simp
    · next h1 =>
      rw [if_neg (by omega), ih _ (by omega) (by omega) _ (by omega),
        Nat.log_of_one_lt_of_le (by omega : 1 < 2) (by omega : 2 ≤ num)]
      omega

/-- **`largest_fitting_ord(num)` is the floor of the binary logarithm of `num`.** -/
theorem largest_fitting_ord_eq_log {num : ℕ} (h : 0 < num) :
    largest_fitting_ord num = Nat.log 2 num := by
  rw [largest_fitting_ord_eq h 1 (by omega)]
  omega

theorem two_pow_largest_fitting_ord_le {num : ℕ} (h : 0 < num) :
    2 ^ largest_fitting_ord num ≤ num := by
  rw [largest_fitting_ord_eq_log h]
  exact Nat.pow_log_le_self 2 (by omega)

/-- The order of a nonempty page-aligned range that fits in physical memory is a block order. -/
theorem largest_fitting_ord_range {num : ℕ} (h : 0 < num) (hp : PAGESIZE ∣ num)
    (hm : num ≤ MEMSIZE_PHYSICAL) :
    MIN_ORDER ≤ largest_fitting_ord num ∧ largest_fitting_ord num ≤ MAX_ORDER := by
  rw [largest_fitting_ord_eq_log h]
  constructor
  · exact Nat.le_log_of_pow_le (by omega) (Nat.le_of_dvd h hp)
  · have hlt : num < 2 ^ (MAX_ORDER + 1) := lt_of_le_of_lt hm (by norm_num)
    have := (Nat.log_lt_iff_lt_pow (by omega) (by omega)).mpr hlt
    omega

end Chickadee.Alloc
