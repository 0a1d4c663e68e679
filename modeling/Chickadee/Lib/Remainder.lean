import Chickadee.Lib.Crc

/-!
# The register as a remainder

Over two elements a register of `w` bits is a polynomial of degree less than `w`, and the one of a check stands for a
polynomial of degree `w`. A message of bits is a polynomial as well. What the register holds in the end is the remainder.
-/

namespace Chickadee.Lib.Crc

open Polynomial

variable {w : ℕ}

/-- A register as a polynomial: the lowest bit has the highest power. -/
noncomputable def toPoly (c : BitVec w) : (ZMod 2)[X] :=
  ∑ i ∈ Finset.range w, if c.getLsbD i then X ^ (w - 1 - i) else 0

/-- The polynomial of a check. -/
noncomputable def generator (poly : BitVec w) : (ZMod 2)[X] := X ^ w + toPoly poly

/-- A message as a polynomial: the first bit has the highest power. -/
noncomputable def message : List Bool → (ZMod 2)[X]
  | [] => 0
  | b :: bits => (if b then X ^ bits.length else 0) + message bits

section

variable {poly c : BitVec w} {bits : List Bool}

theorem toPoly_xor (a b : BitVec w) : toPoly (a ^^^ b) = toPoly a + toPoly b := by
  unfold toPoly
  rw [← Finset.sum_add_distrib]
  refine Finset.sum_congr rfl fun i _ => ?_
  rw [BitVec.getLsbD_xor]
  cases a.getLsbD i <;> cases b.getLsbD i <;> simp [CharTwo.add_self_eq_zero]

theorem degree_toPoly (c : BitVec w) : (toPoly c).degree < w := by
  rw [← mem_degreeLT]
  refine Submodule.sum_mem _ fun i hi => ?_
  split
  · rw [mem_degreeLT, degree_X_pow]
    have hlt := Finset.mem_range.1 hi
    exact_mod_cast (by omega : w - 1 - i < w)
  · exact Submodule.zero_mem _

theorem monic_generator (poly : BitVec w) : (generator poly).Monic := monic_X_pow_add (degree_toPoly poly)

theorem degree_generator (poly : BitVec w) : (generator poly).degree = w := by
  unfold generator
  rw [degree_add_eq_left_of_degree_lt, degree_X_pow]
  rw [degree_X_pow]
  exact degree_toPoly poly

/-- A shift multiplies, but for the bit that goes out. -/
theorem toPoly_ushiftRight (hw : 0 < w) (c : BitVec w) :
    X * toPoly c = toPoly (c >>> 1) + if c.getLsbD 0 then X ^ w else 0 := by
  obtain ⟨v, rfl⟩ : ∃ v, w = v + 1 := ⟨w - 1, by omega⟩
  unfold toPoly
  rw [Finset.sum_range_succ', mul_add, Finset.mul_sum, Finset.sum_range_succ]
  have hlast : (c >>> 1).getLsbD v = false := by
    rw [BitVec.getLsbD_ushiftRight]
    exact BitVec.getLsbD_of_ge c _ (by omega)
  rw [hlast, if_neg Bool.false_ne_true, add_zero]
  congr 1
  · refine Finset.sum_congr rfl fun i hi => ?_
    have hlt := Finset.mem_range.1 hi
    rw [BitVec.getLsbD_ushiftRight, Nat.add_comm 1 i, mul_ite, mul_zero, ← pow_succ',
      show v + 1 - 1 - (i + 1) + 1 = v + 1 - 1 - i by omega]
  · rw [mul_ite, mul_zero, ← pow_succ']
    simp

theorem toPoly_bit (hw : 0 < w) (b : Bool) : X * toPoly (bit b : BitVec w) = if b then X ^ w else 0 := by
  have hzero : (bit b : BitVec w) >>> 1 = 0#w := by
    apply BitVec.eq_of_getLsbD_eq
    intro i _
    rw [BitVec.getLsbD_ushiftRight, getLsbD_bit]
    simp
  have hnone : toPoly (0#w) = 0 := Finset.sum_eq_zero fun i _ => by simp
  rw [toPoly_ushiftRight hw, hzero, hnone, zero_add, getLsbD_bit]
  simp [hw]

/-- **A shift is a product, reduced.** -/
theorem toPoly_shift (hw : 0 < w) (poly c : BitVec w) : toPoly (shift poly c) = X * toPoly c %ₘ generator poly := by
  have hmul := toPoly_ushiftRight hw c
  unfold shift
  split
  · rename_i hlow
    rw [if_pos hlow] at hmul
    have hunique := div_modByMonic_unique (f := X * toPoly c) (g := generator poly) 1 (toPoly (c >>> 1 ^^^ poly))
      (monic_generator poly) ⟨?_, by rw [degree_generator]; exact degree_toPoly _⟩
    · exact hunique.2.symm
    · rw [toPoly_xor, mul_one, hmul]
      unfold generator
      have htwo : toPoly poly + toPoly poly = 0 := CharTwo.add_self_eq_zero _
      calc toPoly (c >>> 1) + toPoly poly + (X ^ w + toPoly poly)
          = toPoly (c >>> 1) + X ^ w + (toPoly poly + toPoly poly) := by ring
        _ = toPoly (c >>> 1) + X ^ w := by rw [htwo, add_zero]
  · rename_i hlow
    rw [if_neg hlow, add_zero] at hmul
    rw [hmul]
    refine ((modByMonic_eq_self_iff (monic_generator poly)).2 ?_).symm
    rw [degree_generator]
    exact degree_toPoly _

/-- **The register holds a remainder.** -/
theorem toPoly_feed (hw : 0 < w) (poly c : BitVec w) (bits : List Bool) :
    toPoly (feed poly c bits) = (toPoly c * X ^ bits.length + message bits * X ^ w) %ₘ generator poly := by
  induction bits generalizing c with
  | nil =>
    have hself : toPoly c %ₘ generator poly = toPoly c := by
      rw [modByMonic_eq_self_iff (monic_generator poly), degree_generator]
      exact degree_toPoly c
    simp [message, hself]
  | cons b bits ih =>
    rw [feed_cons, ih, toPoly_shift hw]
    refine modByMonic_eq_of_dvd_sub (monic_generator poly) ?_
    -- what the reduction takes off is a multiple
    refine ⟨-((X * toPoly (c ^^^ bit b)) /ₘ generator poly) * X ^ bits.length, ?_⟩
    have hdiv := modByMonic_add_div (X * toPoly (c ^^^ bit b)) (generator poly)
    rw [toPoly_xor, mul_add, toPoly_bit hw] at hdiv ⊢
    rw [message, List.length_cons]
    cases b
    · simp only [Bool.false_eq_true, if_false] at hdiv ⊢
      linear_combination X ^ bits.length * hdiv
    · simp only [if_true] at hdiv ⊢
      linear_combination X ^ bits.length * hdiv

end

end Chickadee.Lib.Crc
