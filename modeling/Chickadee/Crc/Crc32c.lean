import Chickadee.Crc.Table
import Chickadee.Lib.Remainder

/-!
# `crc32c`

The function takes bytes one at a time up to an aligned address and from there on four at a time. It computes the
remainder of the buffer by the polynomial of Castagnoli, wherever the buffer is.
-/

namespace Chickadee.Crc

open Lib.Crc

/-- One byte: `(crc0 >> 8) ^ crc32c_lookup[0][(crc0 & 0xFF) ^ *cbuf]` -/
def byteStep (crc0 : BitVec 32) (b : UInt8) : BitVec 32 :=
  crc0 >>> 8 ^^^ lookup 0 ((crc0 &&& 0xFF#32) ^^^ b.toBitVec.setWidth 32).toNat

/-- Four bytes as a `uint32_t`. -/
def word (b0 b1 b2 b3 : UInt8) : BitVec 32 := b3.toBitVec ++ b2.toBitVec ++ b1.toBitVec ++ b0.toBitVec

/-- One slice. -/
def sliceStep (crc0 w : BitVec 32) : BitVec 32 :=
  let crc1 := crc0 ^^^ w
  lookup 0 (crc1 >>> 24 &&& 0xFF#32).toNat ^^^ lookup 1 (crc1 >>> 16 &&& 0xFF#32).toNat
    ^^^ lookup 2 (crc1 >>> 8 &&& 0xFF#32).toNat ^^^ lookup 3 (crc1 &&& 0xFF#32).toNat

/-- The initial unaligned bytes: the register and the bytes that are left. -/
def unaligned (cbuf : ℕ) (crc0 : BitVec 32) : List UInt8 → BitVec 32 × List UInt8
  | [] => (crc0, [])
  | b :: buf => if cbuf % 4 ≠ 0 then unaligned (cbuf + 1) (byteStep crc0 b) buf else (crc0, b :: buf)

/-- The four-byte slices. -/
def slices (crc0 : BitVec 32) : List UInt8 → BitVec 32 × List UInt8
  | b0 :: b1 :: b2 :: b3 :: buf => slices (sliceStep crc0 (word b0 b1 b2 b3)) buf
  | buf => (crc0, buf)

/-- `crc32c(crc, buf, len)`, for the bytes of a buffer at `cbuf` -/
def crc32c (crc : BitVec 32) (cbuf : ℕ) (buf : List UInt8) : BitVec 32 :=
  let start := unaligned cbuf (crc ^^^ 0xFFFFFFFF#32) buf
  let rest := slices start.1 start.2
  rest.2.foldl byteStep rest.1 ^^^ 0xFFFFFFFF#32

/-- The bits of a byte, the lowest one first. -/
def byteBits (b : UInt8) : List Bool := (List.range 8).map b.toBitVec.getLsbD

/-- The bits of a buffer. -/
def bits (buf : List UInt8) : List Bool := buf.flatMap byteBits

section

variable {b b0 b1 b2 b3 : UInt8} {buf : List UInt8}

@[simp] theorem length_byteBits (b : UInt8) : (byteBits b).length = 8 := by simp [byteBits]

@[simp] theorem bits_nil : bits [] = [] := rfl

@[simp] theorem bits_cons (b : UInt8) (buf : List UInt8) : bits (b :: buf) = byteBits b ++ bits buf := List.flatMap_cons

theorem bits_append (x y : List UInt8) : bits (x ++ y) = bits x ++ bits y := List.flatMap_append

theorem length_bits (buf : List UInt8) : (bits buf).length = 8 * buf.length := by
  induction buf with
  | nil => rfl
  | cons b buf ih =>
    rw [bits_cons, List.length_append, ih, length_byteBits, List.length_cons]
    omega

theorem getD_byteBits (b : UInt8) (i : ℕ) : (byteBits b).getD i false = b.toBitVec.getLsbD i := by
  by_cases hi : i < 8
  · simp [byteBits, List.getD_eq_getElem?_getD, hi]
  · rw [List.getD_eq_default _ _ (by simpa using hi), BitVec.getLsbD_of_ge _ _ (by omega)]

/-! ## One byte -/

theorem getLsbD_mask {i : ℕ} (hi : i < 32) : (0xFF#32).getLsbD i = decide (i < 8) := by
  have hall : ∀ i < 32, (0xFF#32).getLsbD i = decide (i < 8) := by decide
  exact hall i hi

/-- A table takes one byte through the register. -/
theorem lookup_and (k : ℕ) (hk : k < 4) (x : BitVec 32) :
    lookup k (x &&& 0xFF#32).toNat = (shift poly)^[8 * (k + 1)] (x &&& 0xFF#32) := by
  have hlt : (x &&& 0xFF#32).toNat < 256 := by
    have hle : (x &&& 0xFF#32).toNat ≤ (0xFF#32).toNat := by
      rw [BitVec.toNat_and]
      exact Nat.and_le_right
    exact lt_of_le_of_lt hle (by decide)
  rw [lookup_eq hk hlt]
  simp

/-- The lowest byte by a table, and the others shifted. -/
theorem iterate_byte (k : ℕ) (hk : k < 4) (x : BitVec 32) : (shift poly)^[8 * (k + 1)] x
    = lookup k (x &&& 0xFF#32).toNat ^^^ (shift poly)^[8 * k] (x >>> 8) := by
  rw [lookup_and k hk, Nat.mul_add, Nat.mul_one, Function.iterate_add_apply,
    iterate_split poly x 0xFF#32 fun i hi => getLsbD_mask hi, iterate_xor,
    ← Function.iterate_add_apply]

theorem pack_byteBits (b : UInt8) : pack (byteBits b) = b.toBitVec.setWidth 32 := by
  apply BitVec.eq_of_getLsbD_eq
  intro i hi
  rw [getLsbD_pack, getD_byteBits, BitVec.getLsbD_setWidth]

/-- The index for a byte is the lowest byte once it has been added. -/
theorem index_eq (c : BitVec 32) (b : UInt8) :
    (c &&& 0xFF#32) ^^^ b.toBitVec.setWidth 32 = (c ^^^ b.toBitVec.setWidth 32) &&& 0xFF#32 := by
  apply BitVec.eq_of_getLsbD_eq
  intro i hi
  rw [BitVec.getLsbD_xor, BitVec.getLsbD_and, BitVec.getLsbD_and, BitVec.getLsbD_xor, getLsbD_mask hi,
    BitVec.getLsbD_setWidth]
  by_cases hbyte : i < 8
  · simp [hbyte]
  · simp [hbyte, BitVec.getLsbD_of_ge b.toBitVec i (by omega)]

theorem byteStep_eq (c : BitVec 32) (b : UInt8) : byteStep c b = feed poly c (byteBits b) := by
  have hhigh : b.toBitVec.setWidth 32 >>> 8 = 0#32 := by
    apply BitVec.eq_of_getLsbD_eq
    intro i _
    rw [BitVec.getLsbD_ushiftRight, BitVec.getLsbD_setWidth, BitVec.getLsbD_of_ge _ _ (by omega)]
    simp
  rw [feed_eq_iterate (by simp), length_byteBits, pack_byteBits, iterate_byte 0 (by decide), byteStep, index_eq,
    BitVec.ushiftRight_xor_distrib, hhigh, BitVec.xor_zero]
  exact BitVec.xor_comm _ _

/-! ## Four bytes -/

theorem pack_word : pack (byteBits b0 ++ (byteBits b1 ++ (byteBits b2 ++ byteBits b3))) = word b0 b1 b2 b3 := by
  apply BitVec.eq_of_getLsbD_eq
  intro i hi
  have hget : ∀ (x : List Bool) (b : UInt8) (i : ℕ),
      (byteBits b ++ x).getD i false = if i < 8 then b.toBitVec.getLsbD i else x.getD (i - 8) false := by
    intro x b i
    split
    · rw [List.getD_append _ _ _ _ (by simpa), getD_byteBits]
    · rw [List.getD_append_right _ _ _ _ (by simp; omega), length_byteBits]
  rw [getLsbD_pack, hget, hget, hget, getD_byteBits]
  unfold word
  rw [BitVec.getLsbD_append, BitVec.getLsbD_append, BitVec.getLsbD_append]
  simp only [hi, decide_true, Bool.true_and]

theorem sliceStep_eq (c : BitVec 32) : sliceStep c (word b0 b1 b2 b3)
    = feed poly c (byteBits b0 ++ (byteBits b1 ++ (byteBits b2 ++ byteBits b3))) := by
  rw [feed_eq_iterate (by simp), pack_word]
  simp only [List.length_append, length_byteBits, Nat.reduceAdd]
  unfold sliceStep
  simp only
  generalize c ^^^ word b0 b1 b2 b3 = x
  have hlast : x >>> 8 >>> 8 >>> 8 >>> 8 = 0#32 := by
    rw [← BitVec.shiftRight_add, ← BitVec.shiftRight_add, ← BitVec.shiftRight_add]
    exact BitVec.ushiftRight_eq_zero (by decide)
  have htwo : x >>> 16 = x >>> 8 >>> 8 := BitVec.shiftRight_add x 8 8
  have hthree : x >>> 24 = x >>> 8 >>> 8 >>> 8 := by rw [← htwo, ← BitVec.shiftRight_add]
  have h3 := iterate_byte 3 (by decide) x
  have h2 := iterate_byte 2 (by decide) (x >>> 8)
  have h1 := iterate_byte 1 (by decide) (x >>> 8 >>> 8)
  have h0 := iterate_byte 0 (by decide) (x >>> 8 >>> 8 >>> 8)
  simp only [Nat.reduceAdd, Nat.reduceMul, hlast, Function.iterate_zero, id_eq, BitVec.xor_zero] at h3 h2 h1 h0
  rw [h3, h2, h1, h0, htwo, hthree]
  ac_rfl

/-! ## The loops -/

theorem unaligned_eq (cbuf : ℕ) (c : BitVec 32) (buf : List UInt8) :
    feed poly (unaligned cbuf c buf).1 (bits (unaligned cbuf c buf).2) = feed poly c (bits buf) := by
  induction buf generalizing cbuf c with
  | nil => rfl
  | cons b buf ih =>
    unfold unaligned
    split
    · rw [ih, byteStep_eq, bits_cons, feed_append]
    · rfl

theorem slices_eq (c : BitVec 32) (buf : List UInt8) :
    feed poly (slices c buf).1 (bits (slices c buf).2) = feed poly c (bits buf) := by
  induction c, buf using slices.induct with
  | case1 c b0 b1 b2 b3 buf ih =>
    have hbits : bits (b0 :: b1 :: b2 :: b3 :: buf)
        = (byteBits b0 ++ (byteBits b1 ++ (byteBits b2 ++ byteBits b3))) ++ bits buf := by
      simp [List.append_assoc]
    unfold slices
    rw [ih, sliceStep_eq, hbits, feed_append _ _ (_ ++ _) (bits buf)]
  | case2 c buf hshort =>
    unfold slices
    split
    · exact absurd rfl (hshort _ _ _ _ _)
    · rfl

theorem foldl_byteStep (c : BitVec 32) (buf : List UInt8) : buf.foldl byteStep c = feed poly c (bits buf) := by
  induction buf generalizing c with
  | nil => rfl
  | cons b buf ih => rw [List.foldl_cons, ih, byteStep_eq, bits_cons, feed_append]

/-- The tables and the slices change nothing: the bits of the buffer go through the register one by one. -/
theorem crc32c_eq (crc : BitVec 32) (cbuf : ℕ) (buf : List UInt8) :
    crc32c crc cbuf buf = feed poly (crc ^^^ 0xFFFFFFFF#32) (bits buf) ^^^ 0xFFFFFFFF#32 := by
  unfold crc32c
  simp only
  rw [foldl_byteStep, slices_eq, unaligned_eq]

/-- **`crc32c` computes a remainder**, wherever the buffer is. What has been computed for what comes before stands in
front of the buffer, and all is divided by the polynomial of Castagnoli. -/
theorem crc32c_remainder (crc : BitVec 32) (cbuf : ℕ) (buf : List UInt8) :
    toPoly (crc32c crc cbuf buf ^^^ 0xFFFFFFFF#32)
      = (toPoly (crc ^^^ 0xFFFFFFFF#32) * Polynomial.X ^ (8 * buf.length) + message (bits buf) * Polynomial.X ^ 32)
        %ₘ generator poly := by
  rw [crc32c_eq, BitVec.xor_assoc, BitVec.xor_self, BitVec.xor_zero, toPoly_feed (by decide), length_bits]

/-- **A buffer may be taken in pieces**, whatever their alignments. -/
theorem crc32c_append (crc : BitVec 32) (cbuf cbuf' cbuf'' : ℕ) (x y : List UInt8) :
    crc32c (crc32c crc cbuf x) cbuf' y = crc32c crc cbuf'' (x ++ y) := by
  rw [crc32c_eq, crc32c_eq, crc32c_eq, BitVec.xor_assoc _ 0xFFFFFFFF#32, BitVec.xor_self, BitVec.xor_zero, bits_append,
    feed_append]

/-- The check value of the nine digits. -/
example : crc32c 0#32 2 [0x31, 0x32, 0x33, 0x34, 0x35, 0x36, 0x37, 0x38, 0x39] = 0xE3069283#32 := by decide +kernel

/-! ## Damage -/

theorem length_byteBits_eq {x y : List UInt8} (h : x.length = y.length) : (bits x).length = (bits y).length := by
  rw [length_bits, length_bits, h]

theorem bits_injective {x y : List UInt8} (h : bits x = bits y) : x = y := by
  induction x generalizing y with
  | nil =>
    cases y with
    | nil => rfl
    | cons b y =>
      have hlength := congrArg List.length h
      rw [length_bits, length_bits] at hlength
      simp at hlength
  | cons a x ih =>
    cases y with
    | nil =>
      have hlength := congrArg List.length h
      rw [length_bits, length_bits] at hlength
      simp at hlength
    | cons b y =>
      rw [bits_cons, bits_cons] at h
      obtain ⟨hbyte, hrest⟩ := List.append_inj h (by simp)
      rw [ih hrest]
      congr 1
      apply UInt8.eq_of_toBitVec_eq
      apply BitVec.eq_of_getLsbD_eq
      intro i _
      rw [← getD_byteBits, ← getD_byteBits, hbyte]

/-- Up to four bytes on end that have changed are noticed. -/
theorem crc32c_burst (crc : BitVec 32) (cbuf cbuf' : ℕ) (before behind : List UInt8) {x y : List UInt8}
    (hlen : x.length = y.length) (hx : x.length ≤ 4) (hne : x ≠ y) :
    crc32c crc cbuf (before ++ x ++ behind) ≠ crc32c crc cbuf' (before ++ y ++ behind) := by
  intro heq
  rw [crc32c_eq, crc32c_eq, BitVec.xor_left_inj, bits_append, bits_append, bits_append, bits_append] at heq
  refine feed_burst (by decide) _ (bits before) (bits behind) (length_byteBits_eq hlen) ?_
    (fun hbits => hne (bits_injective hbits)) heq
  rw [length_bits]
  omega

end

end Chickadee.Crc
