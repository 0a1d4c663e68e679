import Chickadee.Alloc.AllocRun

/-!
# The allocator is consistent in every reachable state

`Consistent` spells out in terms of the code's own tables what `SysInv` says about the tiling: live
allocations are disjoint and large enough, the listed blocks and the live blocks partition the
available pages, and the metadata of every page agrees with its block.
-/

namespace Chickadee.Alloc

open Chickadee.Lib

/-! ## Blocks and regions -/

/-- The pages of the block `B = (first page, order above that of a page)`. -/
def blockPages (B : ℕ × ℕ) : Set ℕ := Set.Ico B.1 (B.1 + 2 ^ B.2)

/-- The blocks on the free lists. -/
def freeBlocks (b : Buddy) : Set (ℕ × ℕ) := {B | B.1 ∈ b.free_blocks B.2}

/-- The live blocks. -/
def liveBlocks (s : Sys) : Set (ℕ × ℕ) :=
  {B | blockPtr B.1 < KTEXT_BASE ∧ ∃ sz, (blockPtr B.1, sz) ∈ s.live ∧ B.2 = blockOrder sz}

/-- The number of bytes that a live allocation may use. -/
def capacity (L : Layout) (a : ℕ × ℕ) : ℕ :=
  if a.1 < KTEXT_BASE then 2 ^ (blockOrder a.2 + MIN_ORDER)
  else if L.smallslabs ≤ a.1 ∧ a.1 < L.smallslabs + 2 * SlabKind.SMALL_SLAB.sizeof then
    SlabKind.SMALL_SLAB.datasize
  else SlabKind.BIG_SLAB.datasize

/-- The bytes of physical memory of a live allocation. -/
def region (L : Layout) (a : ℕ × ℕ) : Set ℕ :=
  {x | ∃ pa, kptr2pa a.1 = some pa ∧ pa ≤ x ∧ x < pa + capacity L a}

/-- The kernel's image, which holds the slabs, is not among the available pages. -/
def Layout.Outside (L : Layout) (ranges : List MemRange) : Prop :=
  ∀ K : SlabKind, ∀ i < K.count, ∀ a, L.slab K i ≤ a → a < L.slab K i + K.sizeof →
    (a - KTEXT_BASE) / PAGESIZE ∉ availPages ranges

/-- What a page says about itself as part of the block `B`. -/
structure PageAgrees (pg : Bapg) (B : ℕ × ℕ) (free returned : Bool) : Prop where
  ord : pg.ord = B.2 + MIN_ORDER
  free : pg.free = free
  returned : pg.returned = returned
  root_le : pg.r_addr ≤ B.1 * PAGESIZE
  le_root : (B.1 + 2 ^ B.2) * PAGESIZE ≤ pg.r_addr + 2 ^ pg.r_ord
  aligned : 2 ^ pg.ord ∣ B.1 * PAGESIZE - pg.r_addr

/-- **What it means for the allocator to be consistent**; `b₀` is the state after `init_kalloc`. -/
structure Consistent (L : Layout) (ranges : List MemRange) (b₀ : Buddy) (s : Sys) : Prop where
  live_disjoint : s.live.Pairwise fun a c => Disjoint (region L a) (region L c)
  live_size : ∀ a ∈ s.live, a.2 ≤ capacity L a
  live_aligned : ∀ a ∈ s.live, PAGESIZE ∣ a.2 → PAGESIZE ∣ a.1
  lists_nodup : ∀ j, (s.k.buddy.free_blocks j).Nodup
  free_not_live : Disjoint (freeBlocks s.k.buddy) (liveBlocks s)
  blocks_disjoint : (freeBlocks s.k.buddy ∪ liveBlocks s).PairwiseDisjoint blockPages
  blocks_cover : ⋃ B ∈ freeBlocks s.k.buddy ∪ liveBlocks s, blockPages B = availPages ranges
  free_agree : ∀ B ∈ freeBlocks s.k.buddy, ∀ x ∈ blockPages B,
    PageAgrees (s.k.buddy.pgmap x) B true false
  live_agree : ∀ B ∈ liveBlocks s, ∀ x ∈ blockPages B,
    PageAgrees (s.k.buddy.pgmap x) B false (x = B.1)
  root : ∀ x ∈ availPages ranges, (s.k.buddy.pgmap x).r_addr = (b₀.pgmap x).r_addr ∧
    (s.k.buddy.pgmap x).r_ord = (b₀.pgmap x).r_ord

/-! ## The tiles are the blocks -/

section Blocks

variable {L : Layout} {G : Grid} {s : Sys} {b : Buddy} {kt : ℕ → ℕ} {B : ℕ × ℕ}

theorem mem_freeBlocks (hb : BuddyInv G kt ∅ b) : B ∈ freeBlocks b ↔
    B.1 ∈ G.dom ∧ kt B.1 = B.2 ∧ G.start B.2 B.1 = B.1 ∧ (b.pgmap B.1).free = true := by
  rw [freeBlocks, Set.mem_ofPred_eq, hb.lists]
  simp only [Set.mem_empty_iff_false, not_false_eq_true, true_and]
  tauto

theorem mem_liveBlocks (hL : L.Valid) (hG : ∀ p ∈ G.dom, InMemory p) (h : SysInv L G s)
    (hb : BuddyInv G kt ∅ s.k.buddy) : B ∈ liveBlocks s ↔
    B.1 ∈ G.dom ∧ kt B.1 = B.2 ∧ G.start B.2 B.1 = B.1 ∧ (s.k.buddy.pgmap B.1).free = false := by
  -- a live block is one that is marked `returned`, with the order of its page
  have hlive : ∀ sz, (blockPtr B.1, sz) ∈ s.live → blockPtr B.1 < KTEXT_BASE → B.1 ∈ G.dom ∧
      (s.k.buddy.pgmap B.1).returned = true ∧ kt B.1 = blockOrder sz := by
    intro sz hl hlt
    rcases h.live _ hl with ⟨q, hq, he, hr, ho, -⟩ | ⟨K, i, c, -, -, he, -⟩
    · obtain rfl := blockPtr_inj he
      rw [hb.order_eq hq, ho]
      exact ⟨hq, hr, Nat.add_sub_cancel _ _⟩
    · have := data_ge (K := K) (i := i) (c := c) hL
      simp only at he
      omega
  constructor
  · rintro ⟨hlt, sz, hl, ho⟩
    obtain ⟨hd, hr, hk⟩ := hlive sz hl hlt
    obtain ⟨hf, hs⟩ := (hb.returned _ hd).mp hr
    rw [← ho] at hk
    exact ⟨hd, hk, by rwa [hk] at hs, hf⟩
  · rintro ⟨hd, hk, hs, hf⟩
    have hlt := blockPtr_lt (hG _ hd)
    obtain ⟨sz, hl⟩ := h.returned _ hd ((hb.returned _ hd).mpr ⟨hf, by rwa [hk]⟩)
    exact ⟨hlt, sz, hl, by rw [← hk, (hlive sz hl hlt).2.2]⟩

/-- A block is the tile of its first page. -/
theorem blockPages_eq_tile (hk : kt B.1 = B.2) (hs : G.start B.2 B.1 = B.1) :
    blockPages B = G.tile (kt B.1) B.1 := by
  rw [blockPages, hk, Grid.tile, hs]

/-- The metadata of a page of a tile. -/
theorem pageAgrees (hb : BuddyInv G kt ∅ b) (hd : B.1 ∈ G.dom) (hk : kt B.1 = B.2)
    (hs : G.start B.2 B.1 = B.1) {x : ℕ} (hx : x ∈ blockPages B) :
    PageAgrees (b.pgmap x) B (b.pgmap B.1).free (!(b.pgmap B.1).free && (x = B.1)) := by
  rw [blockPages_eq_tile hk hs] at hx
  have hxd := hb.tiling.mem_dom hd hx
  have hkx : kt x = B.2 := by rw [hb.tiling.const _ hd x hx, hk]
  have htop : B.2 ≤ G.top B.1 := hk ▸ hb.tiling.le_top _ hd
  have hroot := Grid.root_of_mem_tile hd htop (hk ▸ hx)
  have hsx : G.start B.2 x = B.1 := by rw [Grid.start_eq_of_mem hd htop (hk ▸ hx), hs]
  have hret : (b.pgmap x).returned = (!(b.pgmap B.1).free && (x = B.1)) := by
    have hr := hb.returned x hxd
    rw [hkx, hsx, hb.free _ hd x hx] at hr
    rw [Bool.eq_iff_iff, hr]
    simp [eq_comm (a := x)]
  have hord := hb.ord x hxd (Set.notMem_empty x)
  rw [hkx] at hord
  refine ⟨hord, hb.free _ hd x hx, hret, ?_, ?_, ?_⟩
  · rw [hb.r_addr x hxd, hroot.2.1]
    exact Nat.mul_le_mul_right _ (G.base_le _ hd)
  · -- the last page of the block lies in the root as well
    have hlast : B.1 + 2 ^ B.2 - 1 ∈ G.tile B.2 B.1 := by
      have hpos := Nat.two_pow_pos B.2
      rw [Grid.mem_tile, hs]
      omega
    obtain ⟨hld, hlb, hlt⟩ := Grid.root_of_mem_tile hd htop hlast
    have hend := G.lt_end _ hld
    rw [hlb, hlt] at hend
    have hle : B.1 + 2 ^ B.2 ≤ G.base B.1 + 2 ^ G.top B.1 := by omega
    have hmul := Nat.mul_le_mul_right PAGESIZE hle
    rw [Nat.add_mul (G.base B.1)] at hmul
    rw [hb.r_addr x hxd, hb.r_ord x hxd, hroot.2.1, hroot.2.2, Nat.pow_add]
    exact hmul
  · rw [hord, hb.r_addr x hxd, hroot.2.1, ← Nat.sub_mul, Nat.pow_add]
    exact Nat.mul_dvd_mul_right (Grid.dvd_of_start hd hs) _

/-- Two tiles that share a page are the same block. -/
theorem tiles_disjoint (hb : BuddyInv G kt ∅ b) {B' : ℕ × ℕ} (hd : B.1 ∈ G.dom)
    (hk : kt B.1 = B.2) (hs : G.start B.2 B.1 = B.1) (hd' : B'.1 ∈ G.dom) (hk' : kt B'.1 = B'.2)
    (hs' : G.start B'.2 B'.1 = B'.1) (hne : B ≠ B') : Disjoint (blockPages B) (blockPages B') := by
  refine Set.disjoint_left.mpr fun x hx hx' => hne ?_
  rw [blockPages_eq_tile hk hs] at hx
  rw [blockPages_eq_tile hk' hs'] at hx'
  have h₁ := hb.tiling.start_eq hd hx
  have h₂ := hb.tiling.start_eq hd' hx'
  rw [hk, hs] at h₁
  rw [hk', hs'] at h₂
  have he : B.1 = B'.1 := h₁.symm.trans h₂
  exact Prod.ext he (by rw [← hk, ← hk', he])

end Blocks

/-! ## Live allocations -/

section Live

variable {L : Layout} {G : Grid} {s : Sys} {b : Buddy} {kt : ℕ → ℕ} {a a' : ℕ × ℕ} {x : ℕ}

/-- A live block is addressed through high memory and spans its pages. -/
theorem BlockLive.region (hG : ∀ p ∈ G.dom, InMemory p) (hb : BuddyInv G kt ∅ b)
    (h : BlockLive G b a) : ∃ p ∈ G.dom, a.1 = blockPtr p ∧ capacity L a = 2 ^ kt p * PAGESIZE ∧
      G.start (kt p) p = p ∧ ∀ x, x ∈ region L a ↔ x / PAGESIZE ∈ G.tile (kt p) p := by
  obtain ⟨p, hp, he, hr, ho, -⟩ := h
  have hlt := blockPtr_lt (hG p hp)
  have hs := ((hb.returned p hp).mp hr).2
  have hk : kt p = blockOrder a.2 := by
    rw [hb.order_eq hp, ho]
    exact Nat.add_sub_cancel _ _
  have hcap : capacity L a = 2 ^ kt p * PAGESIZE := by
    rw [capacity, he, if_pos hlt, hk]
    exact Nat.pow_add _ _ _
  have hpa : kptr2pa a.1 = some (p * PAGESIZE) := by
    have hge : blockPtr p ≥ HIGHMEM_BASE := Nat.le_add_right _ _
    rw [he, kptr2pa, if_pos hge, if_neg (Nat.not_le.mpr hlt)]
    exact congrArg some (Nat.add_sub_cancel_left _ _)
  refine ⟨p, hp, he, hcap, hs, fun x => ?_⟩
  simp only [Alloc.region, Set.mem_ofPred_eq, hpa, Option.some.injEq, exists_eq_left', hcap,
    ← Nat.add_mul, Grid.mem_tile, hs]
  rw [Nat.le_div_iff_mul_le (by decide), Nat.div_lt_iff_lt_mul (by decide)]

/-- A live chunk is addressed through the kernel's text mapping and spans its data. -/
theorem ChunkLive.region {k : Kstate} (hL : L.Valid) (h : ChunkLive L k a) :
    ∃ K i c, i < K.count ∧ c < K.num ∧ a.1 = L.data K i c ∧ capacity L a = K.datasize ∧
      a.2 ≤ K.datasize ∧ ∀ x, x ∈ region L a ↔
        L.data K i c ≤ x + KTEXT_BASE ∧ x + KTEXT_BASE < L.data K i c + K.datasize := by
  obtain ⟨K, i, c, hi, hc, he, -, -, hsz⟩ := h
  have hge := data_ge (K := K) (i := i) (c := c) hL
  have hcap : capacity L a = K.datasize := by
    have hin := chunk_in_slab (L := L) (i := i) hc
    have harr := slab_in_array (L := L) hi
    have hds : K.datasize + 8 = K.chunksize := by cases K <;> decide
    have hdata : L.data K i c = chunkAddr K (L.slab K i) c + 8 := rfl
    have hdis := hL.disjoint
    have hpos : 0 < K.datasize := by cases K <;> decide
    rw [capacity, he, if_neg (Nat.not_lt.mpr hge)]
    cases K with
    | SMALL_SLAB =>
      simp only [Layout.slab, Nat.zero_mul, Nat.add_zero] at harr hin hdata
      rw [if_pos (by omega)]
    | BIG_SLAB =>
      simp only [Layout.slab, Nat.zero_mul, Nat.add_zero] at harr hin hdata
      rw [if_neg (by omega)]
  have hpa : kptr2pa a.1 = some (L.data K i c - KTEXT_BASE) := by
    have hhigh : L.data K i c ≥ HIGHMEM_BASE := le_trans (by decide) hge
    rw [he, kptr2pa, if_pos hhigh, if_pos hge]
  refine ⟨K, i, c, hi, hc, he, hcap, hsz, fun x => ?_⟩
  simp only [Alloc.region, Set.mem_ofPred_eq, hpa, Option.some.injEq, exists_eq_left', hcap]
  omega

/-- **Different live allocations do not overlap.** -/
theorem regions_disjoint {ranges : List MemRange} (hL : L.Valid) (hout : L.Outside ranges)
    (hG : ∀ p ∈ G.dom, InMemory p) (hdom : G.dom = availPages ranges) (h : SysInv L G s)
    (ha : a ∈ s.live) (ha' : a' ∈ s.live) (hne : a.1 ≠ a'.1) :
    Disjoint (region L a) (region L a') := by
  obtain ⟨kt, hb⟩ := h.buddy
  -- a block lies in the available pages, a chunk outside
  have hmixed : ∀ c d, BlockLive G s.k.buddy c → ChunkLive L s.k d →
      Disjoint (region L c) (region L d) := by
    intro c d hc hd
    obtain ⟨p, hp, -, -, -, hreg⟩ := hc.region (L := L) hG hb
    obtain ⟨K, i, j, hi, hj, -, -, -, hreg'⟩ := hd.region hL
    refine Set.disjoint_left.mpr fun x hx hx' => ?_
    have hin := chunk_in_slab (L := L) (i := i) hj
    have hds : K.datasize + 8 = K.chunksize := by cases K <;> decide
    have hdata : L.data K i j = chunkAddr K (L.slab K i) j + 8 := rfl
    have hx'' := (hreg' x).mp hx'
    refine hout K i hi (x + KTEXT_BASE) (by omega) (by omega) ?_
    rw [Nat.add_sub_cancel, ← hdom]
    exact hb.tiling.mem_dom hp ((hreg x).mp hx)
  rcases h.live a ha with hbl | hcl <;> rcases h.live a' ha' with hbl' | hcl'
  · obtain ⟨p, hp, he, -, hs, hreg⟩ := hbl.region (L := L) hG hb
    obtain ⟨q, hq, he', -, hs', hreg'⟩ := hbl'.region (L := L) hG hb
    refine Set.disjoint_left.mpr fun x hx hx' => hne ?_
    have h₁ := hb.tiling.start_eq hp ((hreg x).mp hx)
    have h₂ := hb.tiling.start_eq hq ((hreg' x).mp hx')
    rw [he, he', ← hs, ← hs', ← h₁, ← h₂]
  · exact hmixed a a' hbl hcl'
  · exact (hmixed a' a hbl' hcl).symm
  · obtain ⟨K, i, c, hi, hc, he, -, -, hreg⟩ := hcl.region hL
    obtain ⟨K', i', c', hi', hc', he', -, -, hreg'⟩ := hcl'.region hL
    have hloc : ¬ (K = K' ∧ i = i' ∧ c = c') := by
      rintro ⟨rfl, rfl, rfl⟩
      exact hne (he.trans he'.symm)
    refine Set.disjoint_left.mpr fun x hx hx' => ?_
    have h₁ := (hreg x).mp hx
    have h₂ := (hreg' x).mp hx'
    rcases data_disjoint hL hi hi' hc hc' hloc with hd | hd <;> omega

/-- **A live allocation has room for what was asked for.** -/
theorem live_size (hL : L.Valid) (hG : ∀ p ∈ G.dom, InMemory p) (h : SysInv L G s)
    (ha : a ∈ s.live) : a.2 ≤ capacity L a := by
  rcases h.live a ha with hbl | hcl
  · obtain ⟨p, hp, he, -, -, hpos, -⟩ := hbl
    have hlt := blockPtr_lt (hG p hp)
    have hle : order a.2 ≤ blockOrder a.2 + MIN_ORDER := by
      unfold blockOrder
      omega
    rw [capacity, he, if_pos hlt]
    exact (le_two_pow_order hpos).trans (Nat.pow_le_pow_right (by decide) hle)
  · obtain ⟨K, i, c, -, -, -, hcap, hsz, -⟩ := hcl.region hL
    rw [hcap]
    exact hsz

theorem live_aligned (h : SysInv L G s) (ha : a ∈ s.live) (hsz : PAGESIZE ∣ a.2) :
    PAGESIZE ∣ a.1 := by
  rcases h.live a ha with ⟨p, -, he, -⟩ | ⟨K, i, c, -, -, -, -, hpos, hle⟩
  · rw [he, blockPtr]
    exact (Nat.dvd_add_right (by decide)).mpr (Dvd.intro_left p rfl)
  · -- a request that fits in a chunk is smaller than a page
    have hlt : K.datasize < PAGESIZE := by cases K <;> decide
    exact absurd (Nat.le_of_dvd hpos hsz) (by omega)

end Live

/--
**The allocator is consistent in every reachable state**: every run of `kalloc` and of `kfree` on
live pointers, from `init_kalloc` on disjoint page-aligned ranges, keeps live allocations apart and
the metadata of every page in agreement with the block that contains it.
-/
theorem reachable_consistent {ranges : List MemRange} (hv : ValidRanges ranges) {b₀ : Buddy}
    (hinit : init_kalloc ranges .zero = .ok b₀) {L : Layout} (hL : L.Valid)
    (hout : L.Outside ranges) {s : Sys} (hr : Reachable L b₀ (Correct L) s) :
    Consistent L ranges b₀ s := by
  obtain ⟨b, G, hb, hi, hdom⟩ := init_kalloc_ok hv
  obtain rfl : b = b₀ := Except.ok.inj (hb.symm.trans hinit)
  have hG : ∀ p ∈ G.dom, InMemory p := fun p hp => inMemory_of_available hv (hdom ▸ hp)
  have h : SysInv L G s := .reach hL hG hi (hr.mono fun _ _ hok => hok.1)
  obtain ⟨kt, hbt⟩ := h.buddy
  have hblock : ∀ B ∈ freeBlocks s.k.buddy ∪ liveBlocks s,
      B.1 ∈ G.dom ∧ kt B.1 = B.2 ∧ G.start B.2 B.1 = B.1 := by
    rintro B (hB | hB)
    · obtain ⟨hd, hk, hs, -⟩ := (mem_freeBlocks hbt).mp hB
      exact ⟨hd, hk, hs⟩
    · obtain ⟨hd, hk, hs, -⟩ := (mem_liveBlocks hL hG h hbt).mp hB
      exact ⟨hd, hk, hs⟩
  refine
    { live_disjoint := ?_, live_size := fun a ha => live_size hL hG h ha
      live_aligned := fun a ha => live_aligned h ha, lists_nodup := hbt.nodup
      free_not_live := ?_, blocks_disjoint := ?_, blocks_cover := ?_, free_agree := ?_
      live_agree := ?_, root := ?_ }
  · exact (List.pairwise_map.mp h.nodup).imp_of_mem fun ha ha' hne =>
      regions_disjoint hL hout hG hdom h ha ha' hne
  · refine Set.disjoint_left.mpr fun B hB hB' => ?_
    obtain ⟨-, -, -, hf⟩ := (mem_freeBlocks hbt).mp hB
    obtain ⟨-, -, -, hf'⟩ := (mem_liveBlocks hL hG h hbt).mp hB'
    rw [hf] at hf'
    cases hf'
  · intro B hB B' hB' hne
    obtain ⟨hd, hk, hs⟩ := hblock B hB
    obtain ⟨hd', hk', hs'⟩ := hblock B' hB'
    exact tiles_disjoint hbt hd hk hs hd' hk' hs' hne
  · rw [← hdom]
    ext x
    simp only [Set.mem_iUnion, exists_prop]
    constructor
    · rintro ⟨B, hB, hx⟩
      obtain ⟨hd, hk, hs⟩ := hblock B hB
      rw [blockPages_eq_tile hk hs] at hx
      exact hbt.tiling.mem_dom hd hx
    · intro hx
      obtain ⟨hd, hk, hs⟩ := hbt.tiling.start_spec hx
      rw [hk] at hs
      refine ⟨(G.start (kt x) x, kt x), ?_, Grid.mem_tile_self hx⟩
      cases hf : (s.k.buddy.pgmap (G.start (kt x) x)).free with
      | true => exact Or.inl ((mem_freeBlocks hbt).mpr ⟨hd, hk, hs, hf⟩)
      | false => exact Or.inr ((mem_liveBlocks hL hG h hbt).mpr ⟨hd, hk, hs, hf⟩)
  · intro B hB x hx
    obtain ⟨hd, hk, hs, hf⟩ := (mem_freeBlocks hbt).mp hB
    have hp := pageAgrees hbt hd hk hs hx
    rw [hf] at hp
    exact hp
  · intro B hB x hx
    obtain ⟨hd, hk, hs, hf⟩ := (mem_liveBlocks hL hG h hbt).mp hB
    have hp := pageAgrees hbt hd hk hs hx
    rw [hf] at hp
    exact hp
  · intro x hx
    rw [← hdom] at hx
    exact ⟨(hbt.r_addr x hx).trans (hi.r_addr x hx).symm,
      (hbt.r_ord x hx).trans (hi.r_ord x hx).symm⟩

theorem twoPagesLayout_outside : twoPagesLayout.Outside twoPages := by
  intro K i hi a h₁ h₂ hc
  have harr := slab_in_array (L := twoPagesLayout) hi
  have hlow : KTEXT_BASE + 0x100000 ≤ twoPagesLayout.slab K 0 := by cases K <;> decide
  obtain ⟨r, hr, hx⟩ := hc
  simp [available, twoPages] at hr
  subst hr
  have hlt : (a - KTEXT_BASE) / PAGESIZE < 3 := hx.2
  rw [Nat.div_lt_iff_lt_mul (by decide)] at hlt
  simp only [PAGESIZE] at hlt
  omega

theorem reachable_consistent_twoPages :
    Consistent twoPagesLayout twoPages twoPagesBuddy twoPagesSys :=
  reachable_consistent twoPages_valid twoPages_init twoPagesLayout_valid twoPagesLayout_outside
    twoPagesSys_reachable

end Chickadee.Alloc
