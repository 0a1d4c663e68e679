import Chickadee.Alloc.AllocRun

/-!
# Freeing everything restores the initial free lists

No two buddies are ever both on the free lists. A tiling of the roots without equal buddies consists
of the roots themselves (`Grid.Tiling.full`), so a state without live blocks has the free lists that
`init_kalloc` made.
-/

namespace Chickadee.Alloc

open Chickadee.Lib

/-- Pages `p` and `q` start the two halves of one block of order `j + 1` inside one root. -/
structure Buddies (b : Buddy) (j p q : ℕ) : Prop where
  ne : p ≠ q
  r_addr : (b.pgmap p).r_addr = (b.pgmap q).r_addr
  r_ord : (b.pgmap p).r_ord = (b.pgmap q).r_ord
  below_root : j + MIN_ORDER < (b.pgmap p).r_ord
  parent : (p * PAGESIZE - (b.pgmap p).r_addr) / 2 ^ (j + 1 + MIN_ORDER) =
    (q * PAGESIZE - (b.pgmap q).r_addr) / 2 ^ (j + 1 + MIN_ORDER)

/-- The pointers of the live blocks. -/
def liveBlockPtrs (s : Sys) : List ℕ := (s.live.map Prod.fst).filter (· < KTEXT_BASE)

/-- Free a list of pointers, each with the content of memory at that time. -/
def freeAll (L : Layout) : List (Mem × ℕ) → Kstate → Option Kstate
  | [], k => some k
  | (m, ptr) :: rest, k =>
    match kfree L m k ptr with
    | none => none
    | some k => freeAll L rest k

variable {L : Layout} {G : Grid} {s : Sys} {b b₀ : Buddy} {kt : ℕ → ℕ}

/-- Two listed halves of one block are buddies in the grid. -/
theorem NoBuddies.not_buddies (hb : BuddyInv G kt ∅ b) (hn : NoBuddies G b) {j p q : ℕ}
    (hp : p ∈ b.free_blocks j) (hq : q ∈ b.free_blocks j) : ¬ Buddies b j p q := by
  intro h
  obtain ⟨hpd, -, -, -, hps⟩ := (hb.lists j p).mp hp
  obtain ⟨hqd, -, -, -, hqs⟩ := (hb.lists j q).mp hq
  have hbase : G.base p = G.base q := by
    have he := h.r_addr
    rw [hb.r_addr p hpd, hb.r_addr q hqd] at he
    exact Nat.eq_of_mul_eq_mul_right (by decide) he
  have htop : j < G.top p := by
    have hlt := h.below_root
    rw [hb.r_ord p hpd] at hlt
    omega
  have hdiv : ∀ x, x ∈ G.dom → (x * PAGESIZE - (b.pgmap x).r_addr) / 2 ^ (j + 1 + MIN_ORDER) =
      (x - G.base x) / 2 ^ (j + 1) := by
    intro x hx
    rw [hb.r_addr x hx, ← Nat.sub_mul, Nat.pow_add]
    exact Nat.mul_div_mul_right _ _ (by decide)
  have hpar : G.start (j + 1) q = G.start (j + 1) p := by
    have he := h.parent
    rw [hdiv p hpd, hdiv q hqd] at he
    unfold Grid.start tileStart
    rw [he, hbase]
  have hmem : q ∈ G.tile (j + 1) p := by
    have := Grid.mem_tile_self (k := j + 1) hqd
    rwa [Grid.mem_tile, hpar, ← Grid.mem_tile] at this
  obtain ⟨hbd, -, hbt⟩ := Grid.buddy_root hpd hps htop
  rcases (Grid.mem_parent_iff hpd hps htop).mp hmem with hc | hc
  · have he := Grid.start_eq_of_mem hpd htop.le hc
    rw [hqs, hps] at he
    exact h.ne he.symm
  · have he := Grid.start_eq_of_mem hbd (by rw [hbt]; exact htop.le) hc
    rw [hqs, Grid.start_buddy hpd hps htop] at he
    exact hn j p hp htop (he ▸ hq)

/-- **Without live blocks the free lists are those of `init_kalloc`.** -/
theorem lists_of_none_live (hi : InitInv G b₀) (hG : ∀ p ∈ G.dom, InMemory p) (h : SysInv L G s)
    (hnone : liveBlockPtrs s = []) (j p : ℕ) :
    p ∈ s.k.buddy.free_blocks j ↔ p ∈ b₀.free_blocks j := by
  obtain ⟨kt, hb⟩ := h.buddy
  have hfree : ∀ x ∈ G.dom, (s.k.buddy.pgmap x).free = true := by
    intro x hx
    by_contra hf
    rw [Bool.not_eq_true] at hf
    -- the block of `x` is marked `returned`, hence live
    obtain ⟨hsd, -, hss⟩ := hb.tiling.start_spec hx
    have hsf := hb.free x hx _ Grid.start_mem_tile
    rw [hf] at hsf
    obtain ⟨sz, hl⟩ := h.returned _ hsd ((hb.returned _ hsd).mpr ⟨hsf, hss⟩)
    have hm : blockPtr (G.start (kt x) x) ∈ liveBlockPtrs s :=
      List.mem_filter.mpr ⟨List.mem_map.mpr ⟨_, hl, rfl⟩, by simpa using blockPtr_lt (hG _ hsd)⟩
    rw [hnone] at hm
    exact List.not_mem_nil hm
  have hlisted : ∀ i x, x ∈ s.k.buddy.free_blocks i ↔ x ∈ G.dom ∧ kt x = i ∧ G.start i x = x := by
    intro i x
    rw [hb.lists i x]
    constructor
    · rintro ⟨hx, -, -, hk, hs⟩
      exact ⟨hx, hk, hs⟩
    · rintro ⟨hx, hk, hs⟩
      exact ⟨hx, Set.notMem_empty x, hfree x hx, hk, hs⟩
  have htop : ∀ x ∈ G.dom, kt x = G.top x := by
    refine hb.tiling.full fun x hx hs hlt hk => ?_
    obtain ⟨hbd, -, -⟩ := Grid.buddy_root hx hs hlt
    exact h.noBuddies (kt x) x ((hlisted _ _).mpr ⟨hx, rfl, hs⟩) hlt
      ((hlisted _ _).mpr ⟨hbd, hk, Grid.start_buddy hx hs hlt⟩)
  rw [hlisted, hi.lists]
  constructor
  · rintro ⟨hx, hk, hs⟩
    exact ⟨hx, Set.notMem_empty p, hi.all_free p hx, by rw [← htop p hx, hk], hs⟩
  · rintro ⟨hx, -, -, hk, hs⟩
    exact ⟨hx, by rw [htop p hx, hk], hs⟩

/-- Taking the head off a list without duplicates filters it out of every permutation. -/
theorem perm_filter_ne {l rest : List ℕ} {x : ℕ} (h : (x :: rest).Perm l) (hnd : l.Nodup) :
    rest.Perm (l.filter (· ≠ x)) := by
  have hx : x ∉ rest := (List.nodup_cons.mp (h.nodup_iff.mpr hnd)).1
  have hfil := h.filter (· ≠ x)
  rwa [List.filter_cons_of_neg (by simp), List.filter_eq_self.mpr] at hfil
  intro y hy
  rw [decide_eq_true_eq]
  exact fun hc => hx (hc ▸ hy)

theorem liveBlockPtrs_forget (k : Kstate) (live : List (ℕ × ℕ)) (ptr : ℕ) :
    liveBlockPtrs { k, live := live.filter (·.1 ≠ ptr) } =
      (liveBlockPtrs { k, live }).filter (· ≠ ptr) := by
  simp only [liveBlockPtrs, List.filter_map, List.filter_filter, Function.comp_def, Bool.and_comm]

/-- **Freeing the live blocks in any order succeeds and restores the initial free lists.** -/
theorem freeAll_ok (hL : L.Valid) (hi : InitInv G b₀) (hG : ∀ p ∈ G.dom, InMemory p)
    (frees : List (Mem × ℕ)) : ∀ {s : Sys}, SysInv L G s →
    (frees.map Prod.snd).Perm (liveBlockPtrs s) → (∀ f ∈ frees, TakesBuddyPath f.1 f.2) →
    ∃ k', freeAll L frees s.k = some k' ∧
      ∀ j p, p ∈ k'.buddy.free_blocks j ↔ p ∈ b₀.free_blocks j := by
  induction frees with
  | nil =>
    intro s h hperm _
    exact ⟨s.k, rfl, lists_of_none_live hi hG h hperm.nil_eq.symm⟩
  | cons f rest ih =>
    obtain ⟨m, ptr⟩ := f
    intro s h hperm hpath
    rw [List.map_cons] at hperm
    have hmem : ptr ∈ liveBlockPtrs s := hperm.mem_iff.mp List.mem_cons_self
    obtain ⟨hmem, hlt⟩ := List.mem_filter.mp hmem
    have hbytes : TakesBuddyPath m ptr := hpath (m, ptr) List.mem_cons_self
    obtain ⟨⟨ptr', sz⟩, hl, rfl : ptr' = ptr⟩ := List.mem_map.mp hmem
    rw [decide_eq_true_eq] at hlt
    rcases h.live _ hl with ⟨p, hp, he, hr, -⟩ | ⟨K, i, c, -, -, he, -⟩
    · obtain rfl : ptr' = blockPtr p := he
      obtain ⟨b', hk, -, hinv⟩ := kfree_block_inv hG h hp hr hbytes
      have hrest : (rest.map Prod.snd).Perm
          (liveBlockPtrs { k := { s.k with buddy := b' }
                           live := s.live.filter (·.1 ≠ blockPtr p) }) := by
        rw [liveBlockPtrs_forget]
        exact perm_filter_ne hperm (h.nodup.filter _)
      obtain ⟨k', hk', hlists⟩ := ih hinv hrest fun f hf => hpath f (List.mem_cons_of_mem _ hf)
      exact ⟨k', by rw [freeAll, hk]; exact hk', hlists⟩
    · have := data_ge (K := K) (i := i) (c := c) hL
      simp only at he
      omega

/--
**Buddies are always joined.** In every reachable state no two buddies are both free, and freeing
all live blocks, in any order, makes the free lists what `init_kalloc` made them.
-/
theorem reachable_coalesced {ranges : List MemRange} (hv : ValidRanges ranges) {b₀ : Buddy}
    (hinit : init_kalloc ranges .zero = .ok b₀) {L : Layout} (hL : L.Valid) {s : Sys}
    (hr : Reachable L b₀ (Intact L) s) :
    (∀ j, ∀ p ∈ s.k.buddy.free_blocks j, ∀ q ∈ s.k.buddy.free_blocks j,
      ¬ Buddies s.k.buddy j p q) ∧
    ∀ frees : List (Mem × ℕ), (frees.map Prod.snd).Perm (liveBlockPtrs s) →
      (∀ f ∈ frees, TakesBuddyPath f.1 f.2) →
      ∃ k', freeAll L frees s.k = some k' ∧
        ∀ j p, p ∈ k'.buddy.free_blocks j ↔ p ∈ b₀.free_blocks j := by
  obtain ⟨b, G, hb, hi, hdom⟩ := init_kalloc_ok hv
  obtain rfl : b = b₀ := Except.ok.inj (hb.symm.trans hinit)
  have hG : ∀ p ∈ G.dom, InMemory p := fun p hp => inMemory_of_available hv (hdom ▸ hp)
  have h : SysInv L G s := .reach hL hG hi hr
  obtain ⟨kt, hbt⟩ := h.buddy
  exact ⟨fun j p hp q hq => h.noBuddies.not_buddies hbt hp hq,
    fun frees hperm hpath => freeAll_ok hL hi hG frees h hperm hpath⟩

theorem reachable_coalesced_twoPages : ∃ k',
    freeAll twoPagesLayout [(bootMem twoPagesLayout, blockPtr 1), (bootMem twoPagesLayout, blockPtr 2)]
      twoPagesSys.k = some k' ∧
      ∀ j p, p ∈ k'.buddy.free_blocks j ↔ p ∈ twoPagesBuddy.free_blocks j :=
  (reachable_coalesced twoPages_valid twoPages_init twoPagesLayout_valid
    (twoPagesSys_reachable.mono fun _ _ hok => hok.1)).2 _ (by decide) (by decide)

end Chickadee.Alloc
