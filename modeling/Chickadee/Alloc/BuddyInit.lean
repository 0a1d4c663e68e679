import Chickadee.Alloc.BuddyInv

/-!
# `init_kalloc` establishes the invariant

Every iteration of the inner loop adds a root to the grid (`carveStep_inv`). After the last range the
grid covers exactly the available pages, all of them are free and every root is one listed block.
-/

namespace Chickadee.Alloc

open Chickadee.Lib

variable {G : Grid} {b b' : Buddy} {lo n c : ℕ}

/-! ## The ranges -/

/-- The byte range of `r`. -/
def MemRange.bytes (r : MemRange) : Set ℕ := Set.Ico r.first r.last

/-- The pages of `r`. -/
def MemRange.pages (r : MemRange) : Set ℕ := Set.Ico (r.first / PAGESIZE) (r.last / PAGESIZE)

/-- The ranges that `init_kalloc` uses. -/
def available (ranges : List MemRange) : List MemRange :=
  ranges.filter fun r => r.type = .mem_available

/-- The available pages. -/
def availPages (ranges : List MemRange) : Set ℕ := {x | ∃ r ∈ available ranges, x ∈ r.pages}

/-- An available range is page-aligned and inside physical memory. -/
structure ValidRange (r : MemRange) : Prop where
  first_aligned : PAGESIZE ∣ r.first
  last_aligned : PAGESIZE ∣ r.last
  first_le_last : r.first ≤ r.last
  last_le : r.last ≤ MEMSIZE_PHYSICAL

/-- The available ranges are valid and disjoint. -/
structure ValidRanges (ranges : List MemRange) : Prop where
  valid : ∀ r ∈ available ranges, ValidRange r
  disjoint : (available ranges).Pairwise fun r s => Disjoint r.bytes s.bytes

theorem ValidRange.mem_bytes {r : MemRange} (h : ValidRange r) {x : ℕ} (hx : x ∈ r.pages) :
    x * PAGESIZE ∈ r.bytes := by
  have hf : r.first / PAGESIZE * PAGESIZE = r.first := Nat.div_mul_cancel h.first_aligned
  have hl : r.last / PAGESIZE * PAGESIZE = r.last := Nat.div_mul_cancel h.last_aligned
  constructor
  · rw [← hf]
    exact Nat.mul_le_mul_right _ hx.1
  · rw [← hl]
    exact Nat.mul_lt_mul_of_pos_right hx.2 (by decide)

theorem ValidRange.pages_disjoint {r s : MemRange} (hr : ValidRange r) (hs : ValidRange s)
    (h : Disjoint r.bytes s.bytes) : Disjoint r.pages s.pages := by
  refine Set.disjoint_left.mpr fun x hxr hxs => ?_
  exact Set.disjoint_left.mp h (hr.mem_bytes hxr) (hs.mem_bytes hxs)

/-! ## One root -/

/-- The state during `init_kalloc`: the blocks are the roots, all free. -/
structure InitInv (G : Grid) (b : Buddy) : Prop extends BuddyInv G G.top ∅ b where
  all_free : ∀ x ∈ G.dom, (b.pgmap x).free = true
  none_returned : ∀ x, (b.pgmap x).returned = false

/-- The state after one iteration of the inner loop, on a block of order `n` at page `lo`. -/
def carveStep (lo n : ℕ) (b : Buddy) : Buddy where
  pgmap := updPages
    (fun pg => { pg with
      free := true, ord := n + MIN_ORDER, r_ord := n + MIN_ORDER, r_addr := lo * PAGESIZE })
    lo (2 ^ n) b.pgmap
  free_blocks := Function.update b.free_blocks n (b.free_blocks n ++ [lo])

theorem carveStep_pgmap (x : ℕ) :
    (carveStep lo n b).pgmap x =
      if x ∈ Set.Ico lo (lo + 2 ^ n) then
        { b.pgmap x with
          free := true, ord := n + MIN_ORDER, r_ord := n + MIN_ORDER, r_addr := lo * PAGESIZE }
      else b.pgmap x := updPages_apply _ _ _ _ _

theorem mem_carveStep {j q : ℕ} :
    q ∈ (carveStep lo n b).free_blocks j ↔ q ∈ b.free_blocks j ∨ (j = n ∧ q = lo) := by
  by_cases hj : j = n
  · subst hj
    simp [carveStep]
  · simp [carveStep, hj]

theorem initInv_zero : InitInv Grid.empty Buddy.zero where
  tiling := Grid.tiling_top _
  top_le := fun _ h => h.elim
  r_addr := fun _ h => h.elim
  r_ord := fun _ h => h.elim
  ord := fun _ h => h.elim
  free := fun _ h => h.elim
  returned := fun _ h => h.elim
  lists := fun _ _ => ⟨fun h => (List.not_mem_nil h).elim, fun h => h.1.elim⟩
  nodup := fun _ => List.nodup_nil
  all_free := fun _ h => h.elim
  none_returned := fun _ => rfl

/-- **Cutting one root off a range keeps the invariant.** -/
theorem carveStep_inv (h : InitInv G b) (hn : n ≤ MAX_ORDER - MIN_ORDER)
    (hd : Disjoint G.dom (Set.Ico lo (lo + 2 ^ n))) :
    InitInv (G.addRoot lo n hd) (carveStep lo n b) := by
  have hnew : ∀ x ∈ G.dom, x ∉ Set.Ico lo (lo + 2 ^ n) := fun _ hx => Set.disjoint_left.mp hd hx
  have hold : ∀ x ∈ (G.addRoot lo n hd).dom, x ∉ Set.Ico lo (lo + 2 ^ n) → x ∈ G.dom :=
    fun x hx hm => hx.resolve_right hm
  have hfree : ∀ x ∈ (G.addRoot lo n hd).dom, ((carveStep lo n b).pgmap x).free = true := by
    intro x hx
    rw [carveStep_pgmap]
    split
    · rfl
    · next hm => exact h.all_free x (hold x hx hm)
  have hret : ∀ x, ((carveStep lo n b).pgmap x).returned = false := by
    intro x
    rw [carveStep_pgmap, ← h.none_returned x]
    split <;> rfl
  have hlo : lo ∈ Set.Ico lo (lo + 2 ^ n) := ⟨le_refl _, Nat.lt_add_of_pos_right (Nat.two_pow_pos n)⟩
  have hnot : ∀ j, lo ∉ b.free_blocks j := fun j hc => hnew lo ((h.lists j lo).mp hc).1 hlo
  refine
    { tiling := Grid.tiling_top _, top_le := ?_, r_addr := ?_, r_ord := ?_, ord := ?_, free := ?_
      returned := ?_, lists := ?_, nodup := ?_, all_free := hfree, none_returned := hret }
  · intro x hx
    by_cases hm : x ∈ Set.Ico lo (lo + 2 ^ n)
    · rw [(Grid.addRoot_of_mem hm).2]
      exact hn
    · rw [(Grid.addRoot_of_notMem hm).2]
      exact h.top_le x (hold x hx hm)
  · intro x hx
    by_cases hm : x ∈ Set.Ico lo (lo + 2 ^ n)
    · rw [(Grid.addRoot_of_mem hm).1, carveStep_pgmap, if_pos hm]
    · rw [(Grid.addRoot_of_notMem hm).1, carveStep_pgmap, if_neg hm, h.r_addr x (hold x hx hm)]
  · intro x hx
    by_cases hm : x ∈ Set.Ico lo (lo + 2 ^ n)
    · rw [(Grid.addRoot_of_mem hm).2, carveStep_pgmap, if_pos hm]
    · rw [(Grid.addRoot_of_notMem hm).2, carveStep_pgmap, if_neg hm, h.r_ord x (hold x hx hm)]
  · intro x hx hnl
    by_cases hm : x ∈ Set.Ico lo (lo + 2 ^ n)
    · rw [(Grid.addRoot_of_mem hm).2, carveStep_pgmap, if_pos hm]
    · rw [(Grid.addRoot_of_notMem hm).2, carveStep_pgmap, if_neg hm, h.ord x (hold x hx hm) hnl]
  · intro x hx y hy
    rw [hfree x hx, hfree y (Grid.root_of_mem_tile hx (le_refl _) hy).1]
  · intro x hx
    rw [hret x, hfree x hx]
    simp
  · intro j q
    rw [mem_carveStep, h.lists j q, Grid.mem_addRoot]
    by_cases hm : q ∈ Set.Ico lo (lo + 2 ^ n)
    · -- the new root is one tile, so `lo` is the only start in it
      have hqd : q ∉ G.dom := fun hc => hnew q hc hm
      have hmem : q ∈ (G.addRoot lo n hd).dom := Or.inr hm
      have hst := Grid.start_top hmem
      rw [(Grid.addRoot_of_mem hm).1, (Grid.addRoot_of_mem hm).2] at hst
      rw [(Grid.addRoot_of_mem hm).2, hfree q hmem]
      constructor
      · rintro (⟨hc, -⟩ | ⟨rfl, rfl⟩)
        · exact absurd hc hqd
        · exact ⟨Or.inr hm, Set.notMem_empty _, rfl, rfl, hst⟩
      · rintro ⟨-, -, -, rfl, hs⟩
        exact Or.inr ⟨rfl, hs.symm.trans hst⟩
    · have hne : q ≠ lo := fun hc => hm (hc ▸ hlo)
      have hst : (G.addRoot lo n hd).start j q = G.start j q := by
        unfold Grid.start
        rw [(Grid.addRoot_of_notMem hm).1]
      rw [(Grid.addRoot_of_notMem hm).2, hst, carveStep_pgmap, if_neg hm]
      simp [hm, hne]
  · intro j
    by_cases hj : j = n
    · subst hj
      simp only [carveStep, Function.update_self]
      refine List.nodup_append.mpr ⟨h.nodup j, List.nodup_singleton _, ?_⟩
      rintro x hx y hy rfl
      rw [List.mem_singleton] at hy
      exact hnot j (hy ▸ hx)
    · simp only [carveStep, Function.update_of_ne hj]
      exact h.nodup j

/-! ## The loops -/

theorem carve_succ (h : InitInv G b) (hc : 0 < c) (hn : n + MIN_ORDER = largest_fitting_ord (c * PAGESIZE))
    (hmax : n ≤ MAX_ORDER - MIN_ORDER) (hd : lo ∉ G.dom) :
    carve (lo * PAGESIZE) (c * PAGESIZE) b =
      carve ((lo + 2 ^ n) * PAGESIZE) ((c - 2 ^ n) * PAGESIZE) (carveStep lo n b) := by
  have hpow : 2 ^ (n + MIN_ORDER) = 2 ^ n * PAGESIZE := Nat.pow_add _ _ _
  have hdiv : ∀ x : ℕ, x * PAGESIZE / PAGESIZE = x := fun x => Nat.mul_div_cancel x (by decide)
  have e : n + MIN_ORDER - MIN_ORDER = n := by omega
  have e' : lo + 2 ^ n - lo = 2 ^ n := Nat.add_sub_cancel_left _ _
  have hnot : ∀ j, lo ∉ b.free_blocks j := fun j hl => hd ((h.lists j lo).mp hl).1
  have hminmax : MIN_ORDER ≤ MAX_ORDER := by decide
  rw [carve, if_neg (Nat.mul_pos hc (by decide)).ne']
  simp only [← hn]
  rw [if_pos (by omega)]
  simp only [hpow, ← Nat.add_mul, ← Nat.sub_mul, hdiv, e, e']
  split
  · next hpb => cases hpb.symm.trans (push_back_ok hnot)
  · next hpb =>
    obtain rfl := Except.ok.inj (hpb.symm.trans (push_back_ok hnot))
    rfl

/-- **The inner loop ends and turns the pages of the range into roots.** -/
theorem carve_ok (c : ℕ) : ∀ {G : Grid} {b : Buddy} {lo : ℕ}, InitInv G b →
    (lo + c) * PAGESIZE ≤ MEMSIZE_PHYSICAL → Disjoint G.dom (Set.Ico lo (lo + c)) →
    ∃ b' G', carve (lo * PAGESIZE) (c * PAGESIZE) b = .ok b' ∧ InitInv G' b' ∧
      G'.dom = G.dom ∪ Set.Ico lo (lo + c) := by
  induction c using Nat.strongRecOn with
  | _ c ih =>
    intro G b lo h hmem hd
    rcases Nat.eq_zero_or_pos c with rfl | hc
    · refine ⟨b, G, by rw [carve, if_pos (by omega)], h, ?_⟩
      simp
    · have hsz : 0 < c * PAGESIZE := Nat.mul_pos hc (by decide)
      have hle : c * PAGESIZE ≤ MEMSIZE_PHYSICAL :=
        (Nat.mul_le_mul_right _ (Nat.le_add_left c lo)).trans hmem
      obtain ⟨hmin, hmax⟩ := largest_fitting_ord_range hsz (Dvd.intro_left c rfl) hle
      obtain ⟨n, hn⟩ : ∃ n, n + MIN_ORDER = largest_fitting_ord (c * PAGESIZE) :=
        ⟨_, Nat.sub_add_cancel hmin⟩
      have hfit : 2 ^ n ≤ c := by
        have hpow : 2 ^ (n + MIN_ORDER) = 2 ^ n * PAGESIZE := Nat.pow_add _ _ _
        have hlog := two_pow_largest_fitting_ord_le hsz
        rw [← hn, hpow] at hlog
        exact Nat.le_of_mul_le_mul_right hlog (by decide)
      have hpos := Nat.two_pow_pos n
      have hd₁ : Disjoint G.dom (Set.Ico lo (lo + 2 ^ n)) :=
        hd.mono_right (Set.Ico_subset_Ico_right (by omega))
      have hlo : lo ∉ G.dom := fun hc' =>
        Set.disjoint_left.mp hd₁ hc' ⟨le_refl _, by omega⟩
      have hd₂ : Disjoint (G.addRoot lo n hd₁).dom
          (Set.Ico (lo + 2 ^ n) (lo + 2 ^ n + (c - 2 ^ n))) := by
        refine Set.disjoint_left.mpr fun x hx hm => ?_
        rcases hx with hx | hx
        · exact Set.disjoint_left.mp hd hx ⟨by have := hm.1; omega, by have := hm.2; omega⟩
        · exact absurd hm.1 (by have := hx.2; omega)
      have hsum : lo + 2 ^ n + (c - 2 ^ n) = lo + c := by omega
      have hnmax : n ≤ MAX_ORDER - MIN_ORDER := by omega
      obtain ⟨b', G', hb', hi', hdom⟩ := ih (c - 2 ^ n) (Nat.sub_lt hc hpos)
        (carveStep_inv h hnmax hd₁) (hsum.symm ▸ hmem) hd₂
      refine ⟨b', G', by rw [carve_succ h hc hn hnmax hlo, hb'], hi', ?_⟩
      rw [hdom]
      ext x
      simp only [Set.mem_union, Grid.mem_addRoot, Set.mem_Ico]
      by_cases hx : x ∈ G.dom
      · simp [hx]
      · simp only [hx, false_or]
        omega

/-- The outer loop, from a grid that is disjoint from the ranges still to come. -/
theorem init_kalloc_run (ranges : List MemRange) : ∀ {G : Grid} {b : Buddy}, InitInv G b →
    ValidRanges ranges → Disjoint G.dom (availPages ranges) →
    ∃ b' G', init_kalloc ranges b = .ok b' ∧ InitInv G' b' ∧
      G'.dom = G.dom ∪ availPages ranges := by
  induction ranges with
  | nil =>
    intro G b h _ _
    refine ⟨b, G, rfl, h, ?_⟩
    simp [availPages, available]
  | cons r rest ih =>
    intro G b h hv hd
    by_cases hr : r.type = .mem_available
    · have hav : available (r :: rest) = r :: available rest := List.filter_cons_of_pos (by simpa)
      have hpages : availPages (r :: rest) = r.pages ∪ availPages rest := by
        ext x
        simp [availPages, hav]
      obtain ⟨hval, hdis⟩ := hv
      rw [hav] at hval hdis
      rw [hpages] at hd ⊢
      obtain ⟨hdr, hdrest⟩ := List.pairwise_cons.mp hdis
      have hvr := hval r List.mem_cons_self
      have hfirst : r.first = r.first / PAGESIZE * PAGESIZE :=
        (Nat.div_mul_cancel hvr.first_aligned).symm
      have hlast : r.last = r.last / PAGESIZE * PAGESIZE :=
        (Nat.div_mul_cancel hvr.last_aligned).symm
      have hle : r.first / PAGESIZE ≤ r.last / PAGESIZE := Nat.div_le_div_right hvr.first_le_last
      have hsum : r.first / PAGESIZE + (r.last / PAGESIZE - r.first / PAGESIZE) =
          r.last / PAGESIZE := Nat.add_sub_cancel' hle
      obtain ⟨b₁, G₁, hb₁, hi₁, hdom₁⟩ := @carve_ok (r.last / PAGESIZE - r.first / PAGESIZE)
        G b (r.first / PAGESIZE) h (by rw [hsum, ← hlast]; exact hvr.last_le)
        (by rw [hsum]; exact hd.mono_right Set.subset_union_left)
      rw [hsum] at hdom₁
      rw [Nat.sub_mul, ← hfirst, ← hlast] at hb₁
      have hd₁ : Disjoint G₁.dom (availPages rest) := by
        rw [hdom₁]
        refine Set.disjoint_union_left.mpr ⟨hd.mono_right Set.subset_union_right, ?_⟩
        refine Set.disjoint_left.mpr ?_
        rintro x hx ⟨s, hs, hxs⟩
        exact Set.disjoint_left.mp (hvr.pages_disjoint (hval s (List.mem_cons_of_mem _ hs))
          (hdr s hs)) hx hxs
      obtain ⟨b', G', hb', hi', hdom'⟩ := ih hi₁
        ⟨fun s hs => hval s (List.mem_cons_of_mem _ hs), hdrest⟩ hd₁
      refine ⟨b', G', ?_, hi', ?_⟩
      · rw [init_kalloc, if_pos hr, hb₁]
        exact hb'
      · rw [hdom', hdom₁, Set.union_assoc]
        rfl
    · have hav : available (r :: rest) = available rest := List.filter_cons_of_neg (by simpa)
      have hpages : availPages (r :: rest) = availPages rest := by
        simp only [availPages, hav]
      obtain ⟨hval, hdis⟩ := hv
      rw [hav] at hval hdis
      rw [hpages] at hd ⊢
      obtain ⟨b', G', hb', hi', hdom'⟩ := ih h ⟨hval, hdis⟩ hd
      exact ⟨b', G', by rw [init_kalloc, if_neg hr, hb'], hi', hdom'⟩

/-- **`init_kalloc` fails no assertion and leaves every available page in a free root block.** -/
theorem init_kalloc_ok {ranges : List MemRange} (h : ValidRanges ranges) :
    ∃ b G, init_kalloc ranges .zero = .ok b ∧ InitInv G b ∧ G.dom = availPages ranges := by
  obtain ⟨b, G, hb, hi, hdom⟩ := init_kalloc_run ranges initInv_zero h (Set.empty_disjoint _)
  exact ⟨b, G, hb, hi, hdom.trans (Set.empty_union _)⟩

/-- A state whose blocks are the roots lists no two buddies. -/
theorem noBuddies_of_top (h : BuddyInv G G.top ∅ b) : NoBuddies G b := by
  intro j p hp hj
  obtain ⟨-, -, -, hk, -⟩ := (h.lists j p).mp hp
  omega

end Chickadee.Alloc
