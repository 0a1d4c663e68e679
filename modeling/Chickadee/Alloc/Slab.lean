import Mathlib.Tactic
import Chickadee.Alloc.Order

/-!
# The slabs of `k-memrange.hh`

`smallslab` and `bigslab` differ in their constants only, so both are a `Slab` with a `SlabKind`.
The headers of the chunks live in memory: the constructor writes them once and no later code of the
allocator does. What the slab functions read there is passed as the content `m` of memory.
-/

namespace Chickadee.Alloc

/-! ## Memory -/

/-- The content of memory, by virtual address. -/
abbrev Mem : Type := ℕ → UInt8

/-- An `unsigned short` at address `a`. -/
def readUShort (m : Mem) (a : ℕ) : ℕ := (m a).toNat + 256 * (m (a + 1)).toNat

/-- An `unsigned int` at address `a`. -/
def readUInt (m : Mem) (a : ℕ) : ℕ := readUShort m a + 65536 * readUShort m (a + 2)

/-- A `short` at address `a`. -/
def readShort (m : Mem) (a : ℕ) : ℤ :=
  if readUShort m a < 2 ^ 15 then readUShort m a else (readUShort m a : ℤ) - 2 ^ 16

/-- An `int` at address `a`. -/
def readInt (m : Mem) (a : ℕ) : ℤ :=
  if readUInt m a < 2 ^ 31 then readUInt m a else (readUInt m a : ℤ) - 2 ^ 32

theorem readUShort_lt (m : Mem) (a : ℕ) : readUShort m a < 2 ^ 16 := by
  have h₁ := (m a).toNat_lt
  have h₂ := (m (a + 1)).toNat_lt
  unfold readUShort
  omega

theorem readUInt_lt (m : Mem) (a : ℕ) : readUInt m a < 2 ^ 32 := by
  have h₁ := readUShort_lt m a
  have h₂ := readUShort_lt m (a + 2)
  unfold readUInt
  omega

/-- A nonnegative `int` is read like an `unsigned int`. -/
theorem readInt_eq_iff {m : Mem} {a v : ℕ} (hv : v < 2 ^ 31) :
    readInt m a = v ↔ readUInt m a = v := by
  have hlt := readUInt_lt m a
  unfold readInt
  split <;> omega

theorem readShort_eq_iff {m : Mem} {a v : ℕ} (hv : v < 2 ^ 15) :
    readShort m a = v ↔ readUShort m a = v := by
  have hlt := readUShort_lt m a
  unfold readShort
  split <;> omega

/-! ## The two kinds of slabs -/

abbrev SMALL_CHUNKSIZE : ℕ := 128
abbrev BIG_CHUNKSIZE : ℕ := 512
abbrev NUM_SMALL_SLABS : ℕ := PAGESIZE / SMALL_CHUNKSIZE - 1
abbrev NUM_BIG_SLABS : ℕ := 2 * PAGESIZE / BIG_CHUNKSIZE - 1
abbrev SLAB_CANARY : ℕ := 984257
abbrev SLAB_THRESHOLD : ℕ := BIG_CHUNKSIZE - 8
abbrev SMALL_SLAB_THRESHOLD : ℕ := SMALL_CHUNKSIZE - 8
abbrev STATIC_SMALL_SLABS : ℕ := 2
abbrev STATIC_BIG_SLABS : ℕ := 1

/-- `SMALL_SLAB` and `BIG_SLAB`. -/
inductive SlabKind | SMALL_SLAB | BIG_SLAB
deriving DecidableEq

namespace SlabKind

/-- The number of chunks of a slab. -/
def num : SlabKind → ℕ
  | SMALL_SLAB => NUM_SMALL_SLABS
  | BIG_SLAB => NUM_BIG_SLABS

/-- The size of a chunk with its header. -/
def chunksize : SlabKind → ℕ
  | SMALL_SLAB => SMALL_CHUNKSIZE
  | BIG_SLAB => BIG_CHUNKSIZE

/-- The number of slabs that `kalloc` and `kfree` look at. -/
def count : SlabKind → ℕ
  | SMALL_SLAB => STATIC_SMALL_SLABS
  | BIG_SLAB => STATIC_BIG_SLABS

/-- `sizeof(smallslab)` and `sizeof(bigslab)`: five words, the chunks, and one byte a chunk, padded. -/
def sizeof : SlabKind → ℕ
  | SMALL_SLAB => 4040
  | BIG_SLAB => 7736

/-- The offset of `chunks` in a slab. -/
def chunksOffset : ℕ := 40

end SlabKind

/-- The values of `state`. -/
inductive SlabState | SLAB_FREE | SLAB_PARTIAL | SLAB_FULL
deriving DecidableEq

/-- `struct smallslab` and `struct bigslab`, less the bytes of the chunks. -/
structure Slab where
  nallocs_ : ℤ := 0
  state : SlabState := .SLAB_FREE
  ind : ℤ
  free_chunks : List Bool

/-- The constructors `smallslab(index)` and `bigslab(index)`. -/
def Slab.mk' (K : SlabKind) (index : ℕ) : Slab :=
  { ind := index, free_chunks := List.replicate K.num true }

/-- The address of a chunk in the slab at address `a`. -/
def chunkAddr (K : SlabKind) (a c : ℕ) : ℕ := a + SlabKind.chunksOffset + c * K.chunksize

/-- The body of the loop in `give()` that clears the flag of chunk `free_ind`. -/
def Slab.handOut (K : SlabKind) (s : Slab) (free_ind : ℕ) : Slab :=
  let nallocs_ := s.nallocs_ + 1
  { s with
    nallocs_ := nallocs_
    state :=
      if nallocs_ = K.num then .SLAB_FULL else if nallocs_ > 0 then .SLAB_PARTIAL else s.state
    free_chunks := s.free_chunks.set free_ind false }

/--
`give()`, on the slab at address `a`: the new state and the address of the chunk. `none` is a failed
assertion.
-/
def Slab.give (K : SlabKind) (m : Mem) (a : ℕ) (s : Slab) : Option (Slab × ℕ) :=
  if s.state = .SLAB_FULL then none
  else
    -- the loop that looks for the first chunk whose flag is set
    match s.free_chunks.findIdx? id with
    | none => none
    | some free_ind =>
      if readUInt m (chunkAddr K a free_ind + 4) = SLAB_CANARY then
        some (s.handOut K free_ind, chunkAddr K a free_ind)
      else none

/--
`receive(ptr)`, on the slab at address `a`. The index `sc - this->chunks` is in bounds for a chunk of
the slab.
-/
def Slab.receive (K : SlabKind) (m : Mem) (a : ℕ) (s : Slab) (ptr : ℕ) : Option Slab :=
  let c := (ptr - (a + SlabKind.chunksOffset)) / K.chunksize
  if (readUShort m (ptr + 2) : ℤ) = s.ind ∧ readUShort m ptr = K.chunksize ∧
      readUInt m (ptr + 4) = SLAB_CANARY ∧ s.free_chunks[c]? = some false then
    let nallocs_ := s.nallocs_ - 1
    some { s with
      free_chunks := s.free_chunks.set c true, nallocs_ := nallocs_
      state := if nallocs_ > 0 then .SLAB_PARTIAL else .SLAB_FREE }
  else none

/-! ## The invariant of a slab -/

/-- `nallocs_` counts the flags that are 0 and `state` follows from it. -/
structure SlabInv (K : SlabKind) (s : Slab) : Prop where
  length : s.free_chunks.length = K.num
  nallocs : s.nallocs_ = s.free_chunks.count false
  full : s.state = .SLAB_FULL ↔ s.nallocs_ = K.num
  free : s.state = .SLAB_FREE ↔ s.nallocs_ = 0

variable {K : SlabKind} {m : Mem} {a c : ℕ} {s s' : Slab}

theorem SlabKind.num_pos : 0 < K.num := by
  cases K <;> decide

theorem mk'_inv (index : ℕ) : SlabInv K (Slab.mk' K index) where
  length := List.length_replicate
  nallocs := by simp [Slab.mk', List.count_replicate]
  full := by
    have := K.num_pos
    simp only [Slab.mk', reduceCtorEq, false_iff]
    omega
  free := by simp [Slab.mk']

theorem SlabInv.exists_free (h : SlabInv K s) (hs : s.state ≠ .SLAB_FULL) :
    true ∈ s.free_chunks := by
  by_contra hc
  have hall : s.free_chunks.count false = s.free_chunks.length := by
    refine List.count_eq_length.mpr fun x hx => ?_
    cases x with
    | false => rfl
    | true => exact absurd hx hc
  exact hs (h.full.mpr (by rw [h.nallocs, hall, h.length]))

/-- Clearing a flag that is set adds one to the number of cleared flags. -/
theorem count_set_false {l : List Bool} (h : l[c]? = some true) :
    (l.set c false).count false = l.count false + 1 := by
  obtain ⟨hc, he⟩ := List.getElem?_eq_some_iff.mp h
  rw [List.count_set hc, he]
  simp

/-- What `give` does: chunk `c`, free before, is handed out. -/
structure Given (c : ℕ) (s s' : Slab) : Prop where
  was_free : s.free_chunks[c]? = some true
  free_chunks : s'.free_chunks = s.free_chunks.set c false
  ind : s'.ind = s.ind

theorem handOut_inv (h : SlabInv K s) (hc : s.free_chunks[c]? = some true) :
    SlabInv K (s.handOut K c) := by
  have hpos := K.num_pos
  have hnn : 0 ≤ s.nallocs_ := by
    rw [h.nallocs]
    exact Int.natCast_nonneg _
  refine ⟨by simp [Slab.handOut, h.length], ?_, ?_, ?_⟩
  · simp only [Slab.handOut, count_set_false hc, h.nallocs]
    push_cast
    rfl
  · simp only [Slab.handOut]
    split
    · next he => simp [he]
    · next he => simp [he, show s.nallocs_ + 1 > 0 by omega]
  · simp only [Slab.handOut]
    split
    · next he => simp only [reduceCtorEq, false_iff]; omega
    · next he =>
      rw [if_pos (by omega)]
      simp only [reduceCtorEq, false_iff]
      omega

/-- **`give` on a slab that is not full hands out a free chunk and keeps the invariant.** -/
theorem give_ok (h : SlabInv K s) (hs : s.state ≠ .SLAB_FULL)
    (hm : ∀ c < K.num, readUInt m (chunkAddr K a c + 4) = SLAB_CANARY) :
    ∃ c s', s.give K m a = some (s', chunkAddr K a c) ∧ Given c s s' ∧ SlabInv K s' := by
  have hsome : (s.free_chunks.findIdx? id).isSome := by
    rw [List.findIdx?_isSome]
    exact List.any_eq_true.mpr ⟨true, h.exists_free hs, rfl⟩
  obtain ⟨c, hc⟩ := Option.isSome_iff_exists.mp hsome
  obtain ⟨hlt, hfree, -⟩ := List.findIdx?_eq_some_iff_getElem.mp hc
  have hget : s.free_chunks[c]? = some true := List.getElem?_eq_some_iff.mpr ⟨hlt, hfree⟩
  refine ⟨c, s.handOut K c, ?_, ⟨hget, rfl, rfl⟩, handOut_inv h hget⟩
  simp only [Slab.give, if_neg hs, hc, hm c (h.length ▸ hlt), if_true]

end Chickadee.Alloc
