import Mathlib

/-!
# Cyclic redundancy checks

The register of a check is shifted by one bit for each bit of a message, the lowest bit out first, and the polynomial is
added where the bit that goes out is set. The shift is linear, which gives the tables of the fast variants. It is one to
one, so that no change within as many bits as the register has is missed. As a polynomial over two elements, the
register holds a remainder.
-/

namespace Chickadee.Lib.Crc

variable {w : ℕ}

/-- One shift of the register. -/
def shift (poly c : BitVec w) : BitVec w := if c.getLsbD 0 then c >>> 1 ^^^ poly else c >>> 1

/-- One bit, as a register. -/
def bit (b : Bool) : BitVec w := if b then 1#w else 0#w

/-- The register after a message. -/
def feed (poly c : BitVec w) (bits : List Bool) : BitVec w := bits.foldl (fun c b => shift poly (c ^^^ bit b)) c

/-- The bits of a message in one register, the first one lowest. -/
def pack : List Bool → BitVec w
  | [] => 0#w
  | b :: bits => bit b ^^^ pack bits <<< 1

section

variable {poly c d : BitVec w} {bits x y : List Bool} {n : ℕ}

@[simp] theorem feed_nil (poly c : BitVec w) : feed poly c [] = c := rfl

@[simp] theorem feed_cons (poly c : BitVec w) (b : Bool) (bits : List Bool) :
    feed poly c (b :: bits) = feed poly (shift poly (c ^^^ bit b)) bits := rfl

/-- A message in two parts. -/
theorem feed_append (poly c : BitVec w) (x y : List Bool) : feed poly c (x ++ y) = feed poly (feed poly c x) y :=
  List.foldl_append

/-! ## The shift is linear -/

theorem shift_xor (poly a b : BitVec w) : shift poly (a ^^^ b) = shift poly a ^^^ shift poly b := by
  unfold shift
  simp only [BitVec.getLsbD_xor, BitVec.ushiftRight_xor_distrib]
  cases a.getLsbD 0 <;> cases b.getLsbD 0
  · simp
  · simp [BitVec.xor_assoc]
  · simp [BitVec.xor_assoc, BitVec.xor_comm poly]
  · simp only [bne_self_eq_false, Bool.false_eq_true, if_false, if_true]
    rw [BitVec.xor_assoc, ← BitVec.xor_assoc poly, BitVec.xor_comm poly, BitVec.xor_assoc (b >>> 1), BitVec.xor_self,
      BitVec.xor_zero]

theorem iterate_xor (poly : BitVec w) (n : ℕ) (a b : BitVec w) :
    (shift poly)^[n] (a ^^^ b) = (shift poly)^[n] a ^^^ (shift poly)^[n] b := by
  induction n generalizing a b with
  | zero => rfl
  | succ n ih => rw [Function.iterate_succ_apply, shift_xor, ih, ← Function.iterate_succ_apply,
      ← Function.iterate_succ_apply]

/-- What the register held before is shifted along. -/
theorem feed_xor (poly c d : BitVec w) (bits : List Bool) :
    feed poly (c ^^^ d) bits = feed poly c bits ^^^ (shift poly)^[bits.length] d := by
  induction bits generalizing c d with
  | nil => rfl
  | cons b bits ih =>
    rw [feed_cons, feed_cons, BitVec.xor_assoc, BitVec.xor_comm d, ← BitVec.xor_assoc, shift_xor, ih,
      List.length_cons, Function.iterate_succ_apply]

/-! ## The bits that are shifted out -/

/-- Low bits that are clear are shifted out. -/
theorem iterate_of_low (h : ∀ i < n, c.getLsbD i = false) : (shift poly)^[n] c = c >>> n := by
  induction n generalizing c with
  | zero => simp
  | succ n ih =>
    have hlow : shift poly c = c >>> 1 := by
      unfold shift
      rw [h 0 (by omega), if_neg (by simp)]
    rw [Function.iterate_succ_apply, hlow, ih fun i hi => ?_, ← BitVec.shiftRight_add, Nat.add_comm]
    rw [BitVec.getLsbD_ushiftRight, Nat.add_comm]
    exact h (i + 1) (by omega)

/-- **The tables**: the low bits give an entry of a table, and the others are shifted along. -/
theorem iterate_split (poly c mask : BitVec w) (hmask : ∀ i < w, mask.getLsbD i = decide (i < n)) :
    (shift poly)^[n] c = (shift poly)^[n] (c &&& mask) ^^^ c >>> n := by
  have hsplit : c = (c &&& mask) ^^^ (c &&& ~~~mask) := by
    apply BitVec.eq_of_getLsbD_eq
    intro i hi
    rw [BitVec.getLsbD_xor, BitVec.getLsbD_and, BitVec.getLsbD_and, BitVec.getLsbD_not]
    cases c.getLsbD i <;> cases mask.getLsbD i <;> simp [hi]
  have hhigh : (shift poly)^[n] (c &&& ~~~mask) = c >>> n := by
    rw [iterate_of_low fun i hi => ?_]
    · apply BitVec.eq_of_getLsbD_eq
      intro i _
      rw [BitVec.getLsbD_ushiftRight, BitVec.getLsbD_ushiftRight, BitVec.getLsbD_and, BitVec.getLsbD_not]
      by_cases hin : n + i < w
      · have hclear : mask.getLsbD (n + i) = false := by
          rw [hmask _ hin]
          exact decide_eq_false (by omega)
        rw [hclear]
        simp [hin]
      · rw [BitVec.getLsbD_of_ge c _ (by omega), Bool.false_and]
    · rw [BitVec.getLsbD_and, BitVec.getLsbD_not]
      by_cases hin : i < w
      · have hset : mask.getLsbD i = true := by
          rw [hmask i hin]
          exact decide_eq_true hi
        rw [hset]
        simp
      · rw [BitVec.getLsbD_of_ge c i (by omega), Bool.false_and]
  calc (shift poly)^[n] c = (shift poly)^[n] ((c &&& mask) ^^^ (c &&& ~~~mask)) := by rw [← hsplit]
    _ = (shift poly)^[n] (c &&& mask) ^^^ c >>> n := by rw [iterate_xor, hhigh]

/-! ## A message that fits the register -/

theorem getLsbD_bit (b : Bool) (i : ℕ) : (bit b : BitVec w).getLsbD i = (decide (i < w) && (b && decide (i = 0))) := by
  unfold bit
  cases b
  · simp
  · simp [BitVec.getLsbD_one]
    by_cases hi : i = 0
    · subst hi
      simp
    · simp [hi]

theorem getLsbD_pack (bits : List Bool) (i : ℕ) :
    (pack bits : BitVec w).getLsbD i = (decide (i < w) && bits.getD i false) := by
  induction bits generalizing i with
  | nil => simp [pack]
  | cons b bits ih =>
    rw [pack, BitVec.getLsbD_xor, getLsbD_bit, BitVec.getLsbD_shiftLeft, ih]
    cases i with
    | zero => simp
    | succ i =>
      simp only [Nat.add_sub_cancel, List.getD_cons_succ]
      by_cases hi : i + 1 < w
      · simp [hi, show i < w by omega]
      · simp [hi]

/-- A message that fits is shifted in at once. -/
theorem feed_eq_iterate (hn : bits.length ≤ w) : feed poly c bits = (shift poly)^[bits.length] (c ^^^ pack bits) := by
  induction bits generalizing c with
  | nil => simp [pack]
  | cons b bits ih =>
    rw [List.length_cons] at hn
    have hshift : shift poly (pack bits <<< 1 : BitVec w) = pack bits := by
      have hlow : (shift poly)^[1] (pack bits <<< 1 : BitVec w) = (pack bits <<< 1) >>> 1 := by
        refine iterate_of_low fun i hi => ?_
        rw [BitVec.getLsbD_shiftLeft]
        simp [hi]
      rw [Function.iterate_one] at hlow
      rw [hlow]
      apply BitVec.eq_of_getLsbD_eq
      intro i hi
      rw [BitVec.getLsbD_ushiftRight, BitVec.getLsbD_shiftLeft, getLsbD_pack, getLsbD_pack]
      by_cases hlast : 1 + i < w
      · simp [hlast, hi]
      · have hbeyond : bits.getD i false = false := by
          rw [List.getD_eq_default]
          omega
        rw [hbeyond]
        simp [hlast]
    rw [feed_cons, ih (by omega), List.length_cons, Function.iterate_succ_apply, pack, ← BitVec.xor_assoc,
      shift_xor poly (c ^^^ bit b), hshift]

/-! ## Changes that are noticed -/

/-- The shift is one to one if the highest bit of the polynomial is set. -/
theorem shift_injective (hpoly : poly.getLsbD (w - 1) = true) : Function.Injective (shift poly) := by
  have hzero : ∀ c : BitVec w, shift poly c = 0#w → c = 0#w := by
    intro c hc
    have hw : 0 < w := by
      by_contra hw
      rw [BitVec.getLsbD_of_ge poly _ (by omega)] at hpoly
      cases hpoly
    unfold shift at hc
    split at hc
    · -- the highest bit of the sum is that of the polynomial
      have hbit := congrArg (fun c : BitVec w => c.getLsbD (w - 1)) hc
      simp only [BitVec.getLsbD_xor, BitVec.getLsbD_ushiftRight, hpoly, BitVec.getLsbD_zero] at hbit
      rw [BitVec.getLsbD_of_ge c _ (by omega)] at hbit
      cases hbit
    · rename_i hlow
      apply BitVec.eq_of_getLsbD_eq
      intro i hi
      rw [BitVec.getLsbD_zero]
      cases i with
      | zero => simpa using hlow
      | succ i =>
        have hbit := congrArg (fun c : BitVec w => c.getLsbD i) hc
        simp only [BitVec.getLsbD_ushiftRight, BitVec.getLsbD_zero] at hbit
        rwa [Nat.add_comm] at hbit
  intro a b hab
  have hdiff : shift poly (a ^^^ b) = 0#w := by rw [shift_xor, hab, BitVec.xor_self]
  exact BitVec.xor_eq_zero_iff.1 (hzero _ hdiff)

theorem pack_injective (hlen : x.length = y.length) (hx : x.length ≤ w) (h : (pack x : BitVec w) = pack y) : x = y := by
  refine List.ext_getElem hlen fun i hi hi' => ?_
  have hbit := congrArg (fun c : BitVec w => c.getLsbD i) h
  simp only [getLsbD_pack, decide_eq_true (lt_of_lt_of_le hi hx), Bool.true_and] at hbit
  rwa [List.getD_eq_getElem x false hi, List.getD_eq_getElem y false hi'] at hbit

/-- **A change within as many bits as the register has is noticed**, whatever comes before and behind. -/
theorem feed_burst (hpoly : poly.getLsbD (w - 1) = true) (c : BitVec w) (before behind : List Bool)
    (hlen : x.length = y.length) (hx : x.length ≤ w) (hne : x ≠ y) :
    feed poly c (before ++ x ++ behind) ≠ feed poly c (before ++ y ++ behind) := by
  have hinj := shift_injective hpoly
  intro heq
  rw [feed_append, feed_append, feed_append, feed_append] at heq
  generalize feed poly c before = c at heq
  -- the registers behind the change differ, and so they do at the end
  have hsame : feed poly c x = feed poly c y := by
    have hsum : feed poly c x = feed poly c y ^^^ (feed poly c y ^^^ feed poly c x) := by
      rw [← BitVec.xor_assoc, BitVec.xor_self, BitVec.zero_xor]
    rw [hsum, feed_xor] at heq
    have hlast : (shift poly)^[behind.length] (feed poly c y ^^^ feed poly c x) = 0#w := by
      rw [← BitVec.xor_right_inj (feed poly (feed poly c y) behind), heq, BitVec.xor_zero]
    have hzero : (shift poly)^[behind.length] (0#w) = 0#w := by
      rw [iterate_of_low fun i _ => BitVec.getLsbD_zero]
      simp
    rw [← hzero] at hlast
    exact (BitVec.xor_eq_zero_iff.1 (hinj.iterate _ hlast)).symm
  rw [feed_eq_iterate hx, feed_eq_iterate (by omega), hlen] at hsame
  have hpack := hinj.iterate _ hsame
  rw [BitVec.xor_right_inj] at hpack
  exact hne (pack_injective hlen hx hpack)

end

end Chickadee.Lib.Crc
