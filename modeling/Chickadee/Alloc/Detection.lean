import Chickadee.Alloc.Consistent

/-!
# How `kfree` tells a block from a chunk

`kfree` looks for a canary in the four bytes before the pointer. Before a block these bytes are the
end of another allocation, whose owner may write anything there. `kfree_frees_iff` says that the
block is freed exactly when they are not the canary.

What is then no live block is rejected (`kfree_rejects`): only the first page of a live block is
marked `returned`.
-/

namespace Chickadee.Alloc

open Chickadee.Lib

/--
`kfree` of the block at `ptr`, allocated for a request of `sz` bytes, fails no assertion and makes
exactly the pages of the block free.
-/
def FreesBlock (L : Layout) (m : Mem) (k : Kstate) (ptr sz : ℕ) : Prop :=
  ∃ k', kfree L m k ptr = some k' ∧ ∀ x, (k'.buddy.pgmap x).free = true ↔
    (k.buddy.pgmap x).free = true ∨
      x ∈ blockPages ((ptr - HIGHMEM_BASE) / PAGESIZE, blockOrder sz)

/-- **A live block is freed exactly when the bytes before it are not the canary.** -/
theorem kfree_frees_iff {ranges : List MemRange} (hv : ValidRanges ranges) {b₀ : Buddy}
    (hinit : init_kalloc ranges .zero = .ok b₀) {L : Layout} (hL : L.Valid) {s : Sys}
    (hr : Reachable L b₀ (Intact L) s) {ptr sz : ℕ} (hl : (ptr, sz) ∈ s.live)
    (hptr : ptr < KTEXT_BASE) (m : Mem) :
    FreesBlock L m s.k ptr sz ↔ readInt m (ptr - 4) ≠ SLAB_CANARY := by
  obtain ⟨b, G, hb, hi, hdom⟩ := init_kalloc_ok hv
  obtain rfl : b = b₀ := Except.ok.inj (hb.symm.trans hinit)
  have hG : ∀ p ∈ G.dom, InMemory p := fun p hp => inMemory_of_available hv (hdom ▸ hp)
  have h : SysInv L G s := .reach hL hG hi hr
  obtain ⟨kt, hbt⟩ := h.buddy
  rcases h.live _ hl with ⟨p, hp, he, hret, hord, -⟩ | ⟨K, i, c, -, -, he, -⟩
  · obtain rfl : ptr = blockPtr p := he
    have hpage : (blockPtr p - HIGHMEM_BASE) / PAGESIZE = p := by
      rw [blockPtr, Nat.add_sub_cancel_left]
      exact Nat.mul_div_cancel p (by decide)
    have ho : (s.k.buddy.pgmap p).ord - MIN_ORDER = blockOrder sz := by
      rw [hord]
      exact Nat.add_sub_cancel _ _
    rw [FreesBlock, hpage]
    constructor
    · -- a mistaken call leaves the first page of the block allocated
      rintro ⟨k', hk, hfree⟩ hcan
      have hnf : ¬ (s.k.buddy.pgmap p).free = true := by
        rw [((hbt.returned p hp).mp hret).1]
        decide
      rcases kfree_fooled (k := s.k) hL (hG p hp) (not_not_intro hcan) with hk' | hk'
      · rw [hk'] at hk
        cases hk
      · obtain rfl := Option.some.inj (hk'.symm.trans hk)
        exact hnf ((hfree p).mpr (Or.inr ⟨le_refl _, Nat.lt_add_of_pos_right (Nat.two_pow_pos _)⟩))
    · intro hcan
      obtain ⟨b', hk, hf, -⟩ := kfree_block_inv hG h hp hret hcan
      rw [ho] at hf
      exact ⟨_, hk, hf.free⟩
  · have := data_ge (K := K) (i := i) (c := c) hL
    simp only at he
    omega

theorem kfree_frees_iff_twoPages :
    FreesBlock twoPagesLayout (bootMem twoPagesLayout) twoPagesSys.k (blockPtr 2) PAGESIZE ↔
      readInt (bootMem twoPagesLayout) (blockPtr 2 - 4) ≠ SLAB_CANARY :=
  kfree_frees_iff twoPages_valid twoPages_init twoPagesLayout_valid
    (twoPagesSys_reachable.mono fun _ _ hok => hok.1) List.mem_cons_self (by decide) _

/-- Memory after the owner of page 1 has written the canary at the end of the page. -/
def canaryMem : Mem := fun a =>
  if a = blockPtr 2 - 4 then 0xC1
  else if a = blockPtr 2 - 3 then 0x04
  else if a = blockPtr 2 - 2 then 0x0F
  else bootMem twoPagesLayout a

/-- Page 2 cannot be freed: the kernel panics, because no chunk size stands before the canary. -/
theorem canaryMem_not_freed :
    Reachable twoPagesLayout twoPagesBuddy (Correct twoPagesLayout) twoPagesSys ∧
      (blockPtr 2, PAGESIZE) ∈ twoPagesSys.live ∧
      kfree twoPagesLayout canaryMem twoPagesSys.k (blockPtr 2) = none ∧
      ¬ FreesBlock twoPagesLayout canaryMem twoPagesSys.k (blockPtr 2) PAGESIZE := by
  have hnone : kfree twoPagesLayout canaryMem twoPagesSys.k (blockPtr 2) = none := by
    rw [kfree, if_neg (by decide), if_pos (by decide +kernel), if_neg (by decide +kernel),
      if_neg (by decide +kernel)]
  refine ⟨twoPagesSys_reachable, List.mem_cons_self, hnone, ?_⟩
  rintro ⟨k', hk, -⟩
  rw [hnone] at hk
  cases hk

/-! ## Invalid pointers -/

variable {L : Layout} {G : Grid} {s s' : Sys} {op : Op} {b₀ : Buddy}

/-- A call marks no page `returned` outside the available ones. -/
theorem step_returned (hL : L.Valid) (hG : ∀ p ∈ G.dom, InMemory p) (h : SysInv L G s)
    (hok : Intact L s op) (hs : s.step L op = some s') {p : ℕ}
    (hp : (s'.k.buddy.pgmap p).returned = true) :
    p ∈ G.dom ∨ (s.k.buddy.pgmap p).returned = true := by
  cases op with
  | kalloc m sz =>
    obtain ⟨kt, hb⟩ := h.buddy
    have hres := kalloc_result hb h.slabs hok sz
    generalize hr : kalloc L m s.k sz = r at hres
    cases hres with
    | null =>
      rw [step_kalloc hr] at hs
      cases hs
      exact Or.inr hp
    | chunk hg =>
      rw [step_kalloc hr] at hs
      cases hs
      rw [hg.buddy] at hp
      exact Or.inr hp
    | block _ _ _ ha =>
      rw [step_kalloc hr] at hs
      cases hs
      rcases (ha.returned p).mp hp with hp | rfl
      · exact Or.inr hp
      · exact Or.inl ha.mem
  | kfree m ptr =>
    obtain ⟨hm, sz, hl⟩ := hok
    rcases h.live _ hl with ⟨q, hq, he, hr, -⟩ | ⟨K, i, c, hi, hc, he, -⟩
    · obtain rfl : ptr = blockPtr q := he
      by_cases hf : TakesBuddyPath m (blockPtr q)
      · obtain ⟨b', hk, hfreed, -⟩ := kfree_block_inv hG h hq hr hf
        rw [step_kfree hk] at hs
        cases hs
        exact Or.inr ((hfreed.returned p).mp hp).1
      · rcases kfree_fooled (k := s.k) hL (hG q hq) hf with hk | hk
        · rw [step_kfree_none hk] at hs
          cases hs
        · rw [step_kfree hk] at hs
          cases hs
          exact Or.inr hp
    · obtain rfl : ptr = L.data K i c := he
      rw [step_kfree (kfree_data h.slabs hm hi hc)] at hs
      cases hs
      exact Or.inr hp
  | disable_kalloc =>
    cases hs
    exact Or.inr hp
  | enable_kalloc =>
    cases hs
    exact Or.inr hp

/-- **A page that is marked `returned` starts a live block.** -/
theorem returned_live (hL : L.Valid) (hG : ∀ p ∈ G.dom, InMemory p) (hi : InitInv G b₀)
    (hr : Reachable L b₀ (Intact L) s) {p : ℕ} (hp : (s.k.buddy.pgmap p).returned = true) :
    ∃ o, (p, o) ∈ liveBlocks s := by
  have hinv : SysInv L G s ∧ ∀ q, (s.k.buddy.pgmap q).returned = true → q ∈ G.dom := by
    refine Reach.invariant (P := fun s => SysInv L G s ∧
      ∀ q, (s.k.buddy.pgmap q).returned = true → q ∈ G.dom) ?_ ?_ hr
    · rintro s rfl
      refine ⟨.reach hL hG hi (.init rfl), fun q hq => ?_⟩
      exact absurd hq (by rw [show (Sys.init b₀).k.buddy = b₀ from rfl, hi.none_returned q]; simp)
    · intro s op s' hs hok hstep
      refine ⟨step_inv hL hG hs.1 hok hstep, fun q hq => ?_⟩
      exact (step_returned hL hG hs.1 hok hstep hq).elim id (hs.2 q)
  have hd := hinv.2 p hp
  obtain ⟨sz, hl⟩ := hinv.1.returned p hd hp
  exact ⟨blockOrder sz, blockPtr_lt (hG p hd), sz, hl, rfl⟩

/-- The checks of `kfree` pass only for the first byte of a page that is marked `returned`. -/
theorem kfree_checked {b : Buddy} {addr : ℕ}
    (h : addr % PAGESIZE ≠ 0 ∨ (b.pgmap (addr / PAGESIZE)).returned = false) :
    b.kfree addr = .error b := by
  have hmask : addr &&& 0xfff = addr % PAGESIZE := Nat.and_two_pow_sub_one_eq_mod addr 12
  unfold Buddy.kfree
  rw [hmask]
  by_cases hal : addr % PAGESIZE = 0
  · have hret := h.resolve_left (not_not_intro hal)
    rw [if_neg (not_not_intro hal)]
    -- either assertion fails in the state before the call
    simp only [hret, Bool.false_eq_true, not_false_eq_true, if_true, ite_self]
  · rw [if_pos hal]

/--
**An invalid pointer is rejected.** If no canary precedes `ptr` and no live block starts there,
`kfree` fails an assertion, in the state before the call.
-/
theorem kfree_rejects {ranges : List MemRange} (hv : ValidRanges ranges)
    (hinit : init_kalloc ranges .zero = .ok b₀) (hL : L.Valid)
    (hr : Reachable L b₀ (Intact L) s) {m : Mem} {ptr addr : ℕ} (hpa : kptr2pa ptr = some addr)
    (hcan : readInt m (ptr - 4) ≠ SLAB_CANARY)
    (hstart : ∀ B ∈ liveBlocks s, addr ≠ B.1 * PAGESIZE) :
    s.k.buddy.kfree addr = .error s.k.buddy ∧ kfree L m s.k ptr = none := by
  obtain ⟨b, G, hb, hi, hdom⟩ := init_kalloc_ok hv
  obtain rfl : b = b₀ := Except.ok.inj (hb.symm.trans hinit)
  have hG : ∀ p ∈ G.dom, InMemory p := fun p hp => inMemory_of_available hv (hdom ▸ hp)
  have herr : s.k.buddy.kfree addr = .error s.k.buddy := by
    refine kfree_checked ?_
    by_cases hal : addr % PAGESIZE = 0
    · right
      by_contra hret
      obtain ⟨o, hB⟩ := returned_live hL hG hi hr (Bool.eq_true_of_not_eq_false hret)
      exact hstart _ hB (Nat.div_mul_cancel (Nat.dvd_of_mod_eq_zero hal)).symm
    · exact Or.inl hal
  refine ⟨herr, ?_⟩
  have hne : ptr ≠ 0 := by
    rintro rfl
    rw [kptr2pa, if_neg (by decide)] at hpa
    cases hpa
  rw [kfree, if_neg hne, if_neg hcan, hpa]
  simp only [herr]

/-- The second page of a machine whose only live block is its first one. -/
theorem kfree_rejects_twoPages :
    twoPagesMid.k.buddy.kfree (2 * PAGESIZE) = .error twoPagesMid.k.buddy ∧
      kfree twoPagesLayout (bootMem twoPagesLayout) twoPagesMid.k (blockPtr 2) = none := by
  have hstep : (Sys.init twoPagesBuddy).step twoPagesLayout
      (.kalloc (bootMem twoPagesLayout) PAGESIZE) = some twoPagesMid := step_page rfl twoPages_first
  refine kfree_rejects twoPages_valid twoPages_init twoPagesLayout_valid
    (.step (a := .kalloc (bootMem twoPagesLayout) PAGESIZE) (.init rfl) bootMem_headers hstep)
    (by decide) (by decide +kernel) ?_
  rintro ⟨p, o⟩ ⟨-, sz, hl, -⟩ he
  obtain ⟨hp, -⟩ := Prod.mk.inj (List.mem_singleton.mp hl)
  obtain rfl : p = 1 := blockPtr_inj hp
  exact absurd he (by norm_num)

end Chickadee.Alloc
