import Chickadee.Alloc.Slab
import Chickadee.Alloc.BuddyAlloc
import Chickadee.Alloc.BuddyFree
import Chickadee.Alloc.BuddyInit

/-!
# `kalloc` and `kfree`

A pointer is its virtual address and `nullptr` is 0. The slabs are static objects in the kernel's
text mapping and the buddy allocator's blocks are addressed through the high-memory mapping, so an
address tells which of the two a pointer came from; `kfree` looks at the bytes before the pointer
instead.
-/

namespace Chickadee.Alloc

abbrev HIGHMEM_BASE : ℕ := 0xFFFF800000000000
abbrev KTEXT_BASE : ℕ := 0xFFFFFFFF80000000

/-- The static objects of `k-alloc.cc`. -/
structure Kstate where
  kalloc_disabled : Bool := false
  buddy : Buddy
  smallslabs : ℕ → Slab
  bigslabs : ℕ → Slab

namespace Kstate

/-- The slabs of one kind. -/
def slabs (k : Kstate) : SlabKind → ℕ → Slab
  | .SMALL_SLAB => k.smallslabs
  | .BIG_SLAB => k.bigslabs

/-- Replace slab `i` of one kind. -/
def setSlab (k : Kstate) (K : SlabKind) (i : ℕ) (s : Slab) : Kstate :=
  match K with
  | .SMALL_SLAB => { k with smallslabs := Function.update k.smallslabs i s }
  | .BIG_SLAB => { k with bigslabs := Function.update k.bigslabs i s }

/-- The state after the constructors of the slabs and `init_kalloc`. -/
def init (b : Buddy) : Kstate where
  buddy := b
  smallslabs := Slab.mk' .SMALL_SLAB
  bigslabs := Slab.mk' .BIG_SLAB

theorem slabs_setSlab (k : Kstate) (K K' : SlabKind) (i i' : ℕ) (s : Slab) :
    (k.setSlab K i s).slabs K' i' = if K' = K ∧ i' = i then s else k.slabs K' i' := by
  cases K <;> cases K' <;> simp [setSlab, slabs, Function.update_apply]

@[simp] theorem setSlab_buddy (k : Kstate) (K : SlabKind) (i : ℕ) (s : Slab) :
    (k.setSlab K i s).buddy = k.buddy := by
  cases K <;> rfl

end Kstate

/-- Where the linker puts the slabs. -/
structure Layout where
  smallslabs : ℕ
  bigslabs : ℕ

namespace Layout

/-- `&smallslabs[i]` and `&bigslabs[i]`. -/
def slab (L : Layout) (K : SlabKind) (i : ℕ) : ℕ :=
  match K with
  | .SMALL_SLAB => L.smallslabs + i * K.sizeof
  | .BIG_SLAB => L.bigslabs + i * K.sizeof

/-- The pointer that `kalloc` returns for chunk `c` of slab `i`: it points behind the header. -/
def data (L : Layout) (K : SlabKind) (i c : ℕ) : ℕ := chunkAddr K (L.slab K i) c + 8

end Layout

/-! ## `kalloc` -/

/-- The loop of `kalloc` over the slabs of one kind. The pointer is null if all of them are full. -/
def giveLoop (L : Layout) (m : Mem) (K : SlabKind) (k : Kstate) : List ℕ → Option (Kstate × ℕ)
  | [] => some (k, 0)
  | i :: rest =>
    if (k.slabs K i).state ≠ .SLAB_FULL then
      match (k.slabs K i).give K m (L.slab K i) with
      | none => none
      | some (s, ptr) => some (k.setSlab K i s, ptr + 8)
    else giveLoop L m K k rest

/-- The slab part of `kalloc`. A small request falls back on the big slabs. -/
def slab_kalloc (L : Layout) (m : Mem) (k : Kstate) (sz : ℕ) : Option (Kstate × ℕ) :=
  if sz ≤ SLAB_THRESHOLD then
    if sz ≤ SMALL_SLAB_THRESHOLD then
      match giveLoop L m .SMALL_SLAB k (List.range STATIC_SMALL_SLABS) with
      | none => none
      | some (k, ptr) =>
        if ptr ≠ 0 then some (k, ptr)
        else giveLoop L m .BIG_SLAB k (List.range STATIC_BIG_SLABS)
    else giveLoop L m .BIG_SLAB k (List.range STATIC_BIG_SLABS)
  else some (k, 0)

/-- `kalloc(sz)`. `none` means that an assertion failed. -/
def kalloc (L : Layout) (m : Mem) (k : Kstate) (sz : ℕ) : Option (Kstate × ℕ) :=
  if k.kalloc_disabled then some (k, 0)
  else if sz = 0 ∨ sz > 1 <<< MAX_ORDER then some (k, 0)
  else
    match slab_kalloc L m k sz with
    | none => none
    | some (k, ptr) =>
      if ptr ≠ 0 then some (k, ptr)
      else
        match k.buddy.kalloc sz with
        | .error _ => none
        | .ok (b, none) => some ({ k with buddy := b }, 0)
        | .ok (b, some blk) => some ({ k with buddy := b }, HIGHMEM_BASE + blk * PAGESIZE)

/-! ## `kfree` -/

/-- `kptr2pa(ptr)`, which asserts that the pointer is in high memory. -/
def kptr2pa (ptr : ℕ) : Option ℕ :=
  if ptr ≥ HIGHMEM_BASE then some (ptr - if ptr ≥ KTEXT_BASE then KTEXT_BASE else HIGHMEM_BASE)
  else none

/-- The loop of `kfree` that looks for the slab of a chunk. -/
def receiveLoop (L : Layout) (m : Mem) (K : SlabKind) (ptr : ℕ) (k : Kstate) :
    List ℕ → Option Kstate
  | [] => some k
  | i :: rest =>
    let chunk_addr := ptr - 8
    let slab_addr := L.slab K i
    if slab_addr ≤ chunk_addr ∧ chunk_addr ≤ slab_addr + K.sizeof ∧
        readInt m (ptr - 6) = (k.slabs K i).ind then
      match (k.slabs K i).receive K m slab_addr chunk_addr with
      | none => none
      | some s => receiveLoop L m K ptr (k.setSlab K i s) rest
    else receiveLoop L m K ptr k rest

/--
`kfree(ptr)`. `none` means that an assertion failed or that the kernel panicked. The last test is the
assertion of `ka2pa` in the argument of `asan_mark_memory`.
-/
def kfree (L : Layout) (m : Mem) (k : Kstate) (ptr : ℕ) : Option Kstate :=
  if ptr = 0 then some k
  else if readInt m (ptr - 4) = SLAB_CANARY then
    if readShort m (ptr - 8) = SMALL_CHUNKSIZE then
      receiveLoop L m .SMALL_SLAB ptr k (List.range STATIC_SMALL_SLABS)
    else if readShort m (ptr - 8) = BIG_CHUNKSIZE then
      receiveLoop L m .BIG_SLAB ptr k (List.range STATIC_BIG_SLABS)
    else none
  else
    match kptr2pa ptr with
    | none => none
    | some addr =>
      match k.buddy.kfree addr with
      | .error _ => none
      | .ok b => if ptr < KTEXT_BASE then some { k with buddy := b } else none

/-! ## What the two functions do -/

/--
The headers of all chunks are as the constructors wrote them. No code of the allocator writes them,
and a caller owns only the bytes behind them.
-/
def SlabHeaders (L : Layout) (m : Mem) : Prop :=
  ∀ K : SlabKind, ∀ i < K.count, ∀ c < K.num,
    readUShort m (chunkAddr K (L.slab K i) c) = K.chunksize ∧
    readUShort m (chunkAddr K (L.slab K i) c + 2) = i ∧
    readUInt m (chunkAddr K (L.slab K i) c + 4) = SLAB_CANARY

/-- The slabs lie in the kernel's text mapping, one behind the other. -/
structure Layout.Valid (L : Layout) : Prop where
  small_text : KTEXT_BASE ≤ L.smallslabs
  big_text : KTEXT_BASE ≤ L.bigslabs
  disjoint : L.smallslabs + 2 * SlabKind.SMALL_SLAB.sizeof ≤ L.bigslabs ∨
    L.bigslabs + 2 * SlabKind.BIG_SLAB.sizeof ≤ L.smallslabs

/-- The invariant of every slab that `kalloc` uses. -/
def SlabsInv (k : Kstate) : Prop :=
  ∀ K : SlabKind, ∀ i < K.count, SlabInv K (k.slabs K i) ∧ (k.slabs K i).ind = i

/-- Chunk `c` of slab `i` is handed out. -/
def ChunkUsed (k : Kstate) (K : SlabKind) (i c : ℕ) : Prop :=
  (k.slabs K i).free_chunks[c]? = some false

variable {L : Layout} {m : Mem} {k k' : Kstate} {K : SlabKind} {i c sz ptr : ℕ}

/-- Only chunk `c` of slab `i` was handed out. -/
structure GaveChunk (K : SlabKind) (i c : ℕ) (k k' : Kstate) : Prop where
  slab_lt : i < K.count
  chunk_lt : c < K.num
  was_free : ¬ ChunkUsed k K i c
  used : ∀ K' i' c', ChunkUsed k' K' i' c' ↔ ChunkUsed k K' i' c' ∨ (K' = K ∧ i' = i ∧ c' = c)
  slabs : SlabsInv k'
  buddy : k'.buddy = k.buddy

theorem setSlab_gave (hk : SlabsInv k) (hi : i < K.count) {s : Slab}
    (hg : Given c (k.slabs K i) s) (hs : SlabInv K s) : GaveChunk K i c k (k.setSlab K i s) := by
  obtain ⟨hlt, -⟩ := List.getElem?_eq_some_iff.mp hg.was_free
  refine ⟨hi, (hk K i hi).1.length ▸ hlt, ?_, ?_, ?_, Kstate.setSlab_buddy _ _ _ _⟩
  · unfold ChunkUsed
    rw [hg.was_free]
    simp
  · intro K' i' c'
    unfold ChunkUsed
    rw [Kstate.slabs_setSlab]
    by_cases hKi : K' = K ∧ i' = i
    · obtain ⟨rfl, rfl⟩ := hKi
      rw [if_pos ⟨rfl, rfl⟩, hg.free_chunks, List.getElem?_set]
      by_cases hc : c = c'
      · subst hc
        simp [hlt]
      · simp [hc, Ne.symm hc]
    · rw [if_neg hKi]
      constructor
      · exact Or.inl
      · rintro (h | ⟨rfl, rfl, -⟩)
        · exact h
        · exact absurd ⟨rfl, rfl⟩ hKi
  · intro K' i' hi'
    rw [Kstate.slabs_setSlab]
    by_cases hKi : K' = K ∧ i' = i
    · obtain ⟨rfl, rfl⟩ := hKi
      rw [if_pos ⟨rfl, rfl⟩, hg.ind]
      exact ⟨hs, (hk K' i' hi').2⟩
    · rw [if_neg hKi]
      exact hk K' i' hi'

/-- **The walk over the slabs of one kind** hands out a chunk or finds all of them full. -/
theorem giveLoop_ok (hk : SlabsInv k) (hm : SlabHeaders L m) (l : List ℕ)
    (hl : ∀ i ∈ l, i < K.count) :
    giveLoop L m K k l = some (k, 0) ∨
    ∃ k' i c, giveLoop L m K k l = some (k', L.data K i c) ∧ GaveChunk K i c k k' := by
  induction l with
  | nil => exact Or.inl rfl
  | cons i rest ih =>
    have hi := hl i List.mem_cons_self
    by_cases hs : (k.slabs K i).state = .SLAB_FULL
    · rw [giveLoop, if_neg (not_not_intro hs)]
      exact ih fun j hj => hl j (List.mem_cons_of_mem _ hj)
    · right
      obtain ⟨c, s, he, hg, hinv⟩ := give_ok (m := m) (a := L.slab K i) (hk K i hi).1 hs
        fun c hc => (hm K i hi c hc).2.2
      refine ⟨k.setSlab K i s, i, c, ?_, setSlab_gave hk hi hg hinv⟩
      rw [giveLoop, if_pos hs, he]
      rfl

/-- The bytes of a chunk that a caller may use. -/
def SlabKind.datasize (K : SlabKind) : ℕ := K.chunksize - 8

theorem data_ne_zero : L.data K i c ≠ 0 := Nat.succ_ne_zero _

/-- **The slab part of `kalloc`** hands out a chunk that is large enough, or does nothing. -/
theorem slab_kalloc_ok (hk : SlabsInv k) (hm : SlabHeaders L m) (sz : ℕ) :
    slab_kalloc L m k sz = some (k, 0) ∨
    ∃ k' K i c, slab_kalloc L m k sz = some (k', L.data K i c) ∧ sz ≤ K.datasize ∧
      GaveChunk K i c k k' := by
  have hbig := giveLoop_ok (K := .BIG_SLAB) hk hm (List.range STATIC_BIG_SLABS)
    fun i hi => List.mem_range.mp hi
  have hsmall := giveLoop_ok (K := .SMALL_SLAB) hk hm (List.range STATIC_SMALL_SLABS)
    fun i hi => List.mem_range.mp hi
  unfold slab_kalloc
  by_cases ht : sz ≤ SLAB_THRESHOLD
  · rw [if_pos ht]
    have hwalk : giveLoop L m .BIG_SLAB k (List.range STATIC_BIG_SLABS) = some (k, 0) ∨
        ∃ k' K i c, giveLoop L m .BIG_SLAB k (List.range STATIC_BIG_SLABS) =
          some (k', L.data K i c) ∧ sz ≤ K.datasize ∧ GaveChunk K i c k k' := by
      rcases hbig with he | ⟨k', i, c, he, hg⟩
      · exact Or.inl he
      · exact Or.inr ⟨k', .BIG_SLAB, i, c, he, ht, hg⟩
    by_cases hs : sz ≤ SMALL_SLAB_THRESHOLD
    · rw [if_pos hs]
      rcases hsmall with he | ⟨k', i, c, he, hg⟩
      · rw [he]
        exact hwalk
      · right
        refine ⟨k', .SMALL_SLAB, i, c, ?_, hs, hg⟩
        rw [he]
        simp only [ne_eq, data_ne_zero, not_false_eq_true, if_true]
    · rw [if_neg hs]
      exact hwalk
  · rw [if_neg ht]
    exact Or.inl rfl

/-! ### `kfree` of a slab pointer -/

/--
What `kfree` reads at `ptr - 6`. The field `ind` has two bytes but `chunk_ind` is an `int *`, so the
low half of the canary comes along.
-/
theorem readInt_chunk_ind (hm : SlabHeaders L m) (hi : i < K.count) (hc : c < K.num) :
    readInt m (L.data K i c - 6) = i + 65536 * (SLAB_CANARY % 65536 : ℕ) := by
  obtain ⟨-, hind, hcan⟩ := hm K i hi c hc
  have he : L.data K i c - 6 = chunkAddr K (L.slab K i) c + 2 := rfl
  have hcount : K.count ≤ 2 := by cases K <;> decide
  have hlow : readUShort m (chunkAddr K (L.slab K i) c + 4) = SLAB_CANARY % 65536 := by
    have h₁ := readUShort_lt m (chunkAddr K (L.slab K i) c + 4)
    unfold readUInt at hcan
    rw [← hcan]
    omega
  have hval : readUInt m (chunkAddr K (L.slab K i) c + 2) =
      i + 65536 * (SLAB_CANARY % 65536) := by
    unfold readUInt
    rw [hind, hlow]
  have hsmall : SLAB_CANARY % 65536 = 1217 := by decide
  rw [he]
  have hcast : (i : ℤ) + 65536 * (SLAB_CANARY % 65536 : ℕ) =
      ((i + 65536 * (SLAB_CANARY % 65536) : ℕ) : ℤ) := by push_cast; rfl
  rw [hcast]
  exact (readInt_eq_iff (by omega)).mpr hval

theorem receiveLoop_skip {l : List ℕ} (h : ∀ i ∈ l, readInt m (ptr - 6) ≠ (k.slabs K i).ind ∨
    ptr - 8 < L.slab K i) : receiveLoop L m K ptr k l = some k := by
  induction l with
  | nil => rfl
  | cons i rest ih =>
    rw [receiveLoop, if_neg]
    · exact ih fun j hj => h j (List.mem_cons_of_mem _ hj)
    · rintro ⟨hlo, -, hind⟩
      rcases h i List.mem_cons_self with hne | hlt
      · exact hne hind
      · exact absurd hlo (Nat.not_le.mpr hlt)

/-- **`kfree` of a slab pointer changes nothing**: no slab matches what it reads for the index. -/
theorem kfree_data (hk : SlabsInv k) (hm : SlabHeaders L m) (hi : i < K.count) (hc : c < K.num) :
    kfree L m k (L.data K i c) = some k := by
  obtain ⟨hsz, -, hcan⟩ := hm K i hi c hc
  have hcan' : readInt m (L.data K i c - 4) = SLAB_CANARY := (readInt_eq_iff (by decide)).mpr hcan
  have hskip : receiveLoop L m K (L.data K i c) k (List.range K.count) = some k := by
    refine receiveLoop_skip fun j hj => Or.inl ?_
    have hj' := List.mem_range.mp hj
    have hcount : K.count ≤ 2 := by cases K <;> decide
    have hsmall : SLAB_CANARY % 65536 = 1217 := by decide
    rw [readInt_chunk_ind hm hi hc, (hk K j hj').2, hsmall]
    omega
  rw [kfree, if_neg data_ne_zero, if_pos hcan']
  cases K with
  | SMALL_SLAB =>
    have hsz' : readShort m (L.data .SMALL_SLAB i c - 8) = SMALL_CHUNKSIZE :=
      (readShort_eq_iff (by decide)).mpr hsz
    rw [if_pos hsz']
    exact hskip
  | BIG_SLAB =>
    have hsz' : readShort m (L.data .BIG_SLAB i c - 8) = BIG_CHUNKSIZE :=
      (readShort_eq_iff (by decide)).mpr hsz
    rw [if_neg (by rw [hsz']; decide), if_pos hsz']
    exact hskip

/-! ### `kfree` of a buddy pointer -/

/-- The pointer that `kalloc` returns for the block at page `p`. -/
def blockPtr (p : ℕ) : ℕ := HIGHMEM_BASE + p * PAGESIZE

theorem blockPtr_inj {p q : ℕ} (h : blockPtr p = blockPtr q) : p = q :=
  Nat.eq_of_mul_eq_mul_right (by decide : 0 < PAGESIZE) (Nat.add_left_cancel h)

/-- A page of physical memory. -/
def InMemory (p : ℕ) : Prop := (p + 1) * PAGESIZE ≤ MEMSIZE_PHYSICAL

theorem blockPtr_lt {p : ℕ} (h : InMemory p) : blockPtr p < KTEXT_BASE := by
  simp only [InMemory, blockPtr, HIGHMEM_BASE, KTEXT_BASE, MEMSIZE_PHYSICAL, PAGESIZE] at *
  omega

/-- The bytes before the pointer do not look like a chunk's canary. -/
def TakesBuddyPath (m : Mem) (ptr : ℕ) : Prop := readInt m (ptr - 4) ≠ SLAB_CANARY

theorem kfree_block {p : ℕ} (hp : InMemory p) (hm : TakesBuddyPath m (blockPtr p)) :
    kfree L m k (blockPtr p) =
      match k.buddy.kfree (p * PAGESIZE) with
      | .error _ => none
      | .ok b => some { k with buddy := b } := by
  have hlt := blockPtr_lt hp
  have hne : blockPtr p ≠ 0 := (Nat.lt_of_lt_of_le (by decide) (Nat.le_add_right _ _)).ne'
  have hpa : kptr2pa (blockPtr p) = some (p * PAGESIZE) := by
    have hge : blockPtr p ≥ HIGHMEM_BASE := Nat.le_add_right _ _
    rw [kptr2pa, if_pos hge, if_neg (Nat.not_le.mpr hlt)]
    exact congrArg some (Nat.add_sub_cancel_left _ _)
  rw [kfree, if_neg hne, if_neg hm]
  simp only [hpa, hlt, if_true]

/-- When the bytes before the pointer look like a canary, nothing is freed. -/
theorem kfree_fooled (hL : L.Valid) {p : ℕ} (hp : InMemory p)
    (hm : ¬ TakesBuddyPath m (blockPtr p)) :
    kfree L m k (blockPtr p) = none ∨ kfree L m k (blockPtr p) = some k := by
  have hlt := blockPtr_lt hp
  have hne : blockPtr p ≠ 0 := (Nat.lt_of_lt_of_le (by decide) (Nat.le_add_right _ _)).ne'
  have hskip : ∀ K l, receiveLoop L m K (blockPtr p) k l = some k := by
    intro K l
    refine receiveLoop_skip fun i _ => Or.inr ?_
    have h₁ := hL.small_text
    have h₂ := hL.big_text
    cases K <;> simp only [Layout.slab] <;> omega
  rw [kfree, if_neg hne, if_pos (not_not.mp hm), hskip, hskip]
  split
  · exact Or.inr rfl
  · split
    · exact Or.inr rfl
    · exact Or.inl rfl

end Chickadee.Alloc
