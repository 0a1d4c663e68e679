import Chickadee.Lib.Dyadic
import Chickadee.Alloc.Buddy

/-!
# The invariant of the buddy allocator

The root blocks that `init_kalloc` cuts form a `Grid` over the available pages. The per-page orders
form a `Tiling` of it, and all other metadata is read off the tiling: the free lists hold the starts
of the free tiles, `returned` marks the starts of the allocated ones.

In the middle of `kalloc` and `kfree` one block is on no list although its pages are marked free, and
while `kalloc` halves it its left part carries a stale order. `BuddyInv` therefore takes the tiling
`k` and the pages `held` by the running function as arguments; between two calls nothing is held.
-/

namespace Chickadee.Alloc

open Chickadee.Lib

/-- The metadata agrees with the tiling `k` of the grid `G`; the pages in `held` are on no list. -/
structure BuddyInv (G : Grid) (k : ℕ → ℕ) (held : Set ℕ) (b : Buddy) : Prop where
  tiling : G.Tiling k
  top_le : ∀ x ∈ G.dom, G.top x ≤ MAX_ORDER - MIN_ORDER
  r_addr : ∀ x ∈ G.dom, (b.pgmap x).r_addr = G.base x * PAGESIZE
  r_ord : ∀ x ∈ G.dom, (b.pgmap x).r_ord = G.top x + MIN_ORDER
  ord : ∀ x ∈ G.dom, x ∉ held → (b.pgmap x).ord = k x + MIN_ORDER
  free : ∀ x ∈ G.dom, ∀ y ∈ G.tile (k x) x, (b.pgmap y).free = (b.pgmap x).free
  returned : ∀ x ∈ G.dom,
    (b.pgmap x).returned = true ↔ (b.pgmap x).free = false ∧ G.start (k x) x = x
  lists : ∀ j p, p ∈ b.free_blocks j ↔
    p ∈ G.dom ∧ p ∉ held ∧ (b.pgmap p).free = true ∧ k p = j ∧ G.start j p = p
  nodup : ∀ j, (b.free_blocks j).Nodup

/-- The running function holds the free block of order `n` that starts at page `p`. -/
structure BuddyHeld (G : Grid) (k : ℕ → ℕ) (p n : ℕ) (b : Buddy) : Prop
    extends BuddyInv G k (G.tile n p) b where
  mem : p ∈ G.dom
  order_eq : k p = n
  start_eq : G.start n p = p
  is_free : (b.pgmap p).free = true

/-- No two buddies are both on the free lists. -/
def NoBuddies (G : Grid) (b : Buddy) : Prop :=
  ∀ j p, p ∈ b.free_blocks j → j < G.top p → G.buddy j p ∉ b.free_blocks j

variable {G : Grid} {k : ℕ → ℕ} {held : Set ℕ} {p n : ℕ} {b b' : Buddy}

theorem BuddyHeld.le_top (h : BuddyHeld G k p n b) : n ≤ G.top p :=
  h.order_eq ▸ h.tiling.le_top p h.mem

theorem BuddyHeld.not_listed (h : BuddyHeld G k p n b) {q : ℕ} (hq : q ∈ G.tile n p) (j : ℕ) :
    q ∉ b.free_blocks j := fun hc => ((h.lists j q).mp hc).2.1 hq

/-- The tiling of a consistent state is the one that the `ord` fields spell out. -/
theorem BuddyInv.order_eq (h : BuddyInv G k ∅ b) {x : ℕ} (hx : x ∈ G.dom) :
    k x = (b.pgmap x).ord - MIN_ORDER := by
  rw [h.ord x hx (Set.notMem_empty x)]
  omega

/-! ## Halving a held block -/

/-- The state after one iteration of the loop in `chop`, on a block of order `n + 1`. -/
def chopStep (p n : ℕ) (b : Buddy) : Buddy where
  pgmap := updPages (fun it => { it with ord := n + MIN_ORDER }) (p + 2 ^ n) (2 ^ n) b.pgmap
  free_blocks := Function.update b.free_blocks n (b.free_blocks n ++ [p + 2 ^ n])

theorem mem_chopStep_lists {j q : ℕ} :
    q ∈ (chopStep p n b).free_blocks j ↔ q ∈ b.free_blocks j ∨ (j = n ∧ q = p + 2 ^ n) := by
  by_cases hj : j = n
  · subst hj
    simp [chopStep]
  · simp [chopStep, hj]

theorem chopStep_pgmap (x : ℕ) :
    (chopStep p n b).pgmap x =
      if p + 2 ^ n ≤ x ∧ x < p + 2 ^ n + 2 ^ n then { b.pgmap x with ord := n + MIN_ORDER }
      else b.pgmap x := updPages_apply _ _ _ _ _

@[simp] theorem chopStep_free (x : ℕ) : ((chopStep p n b).pgmap x).free = (b.pgmap x).free := by
  rw [chopStep_pgmap]
  split <;> rfl

@[simp] theorem chopStep_returned (x : ℕ) :
    ((chopStep p n b).pgmap x).returned = (b.pgmap x).returned := by
  rw [chopStep_pgmap]
  split <;> rfl

open Classical in
/-- **Halving a held block keeps the invariant**; the left half is held from then on. -/
theorem chopStep_inv (h : BuddyHeld G k p (n + 1) b) :
    BuddyHeld G (fun y => if y ∈ G.tile (n + 1) p then n else k y) p n (chopStep p n b) := by
  have htop := h.le_top
  have hs : G.start n p = p := Grid.start_of_le h.mem (Nat.le_succ n) h.start_eq
  have hbud : G.buddy n p = p + 2 ^ n := Grid.buddy_of_start_succ h.mem h.start_eq
  obtain ⟨hmd, -, hmt⟩ := Grid.buddy_root h.mem hs htop
  have hms := Grid.start_buddy h.mem hs htop
  rw [hbud] at hmd hmt hms
  have hhalves : ∀ y, y ∈ G.tile (n + 1) p ↔ y ∈ G.tile n p ∨ y ∈ G.tile n (p + 2 ^ n) := by
    intro y
    rw [← hbud]
    exact Grid.mem_parent_iff h.mem hs htop
  have hright : ∀ y, y ∈ G.tile n (p + 2 ^ n) ↔ p + 2 ^ n ≤ y ∧ y < p + 2 ^ n + 2 ^ n := by
    intro y
    rw [Grid.mem_tile, hms]
  have hleft : ∀ y, y ∈ G.tile n p ↔ p ≤ y ∧ y < p + 2 ^ n := by
    intro y
    rw [Grid.mem_tile, hs]
  have hfree : ∀ y ∈ G.tile (n + 1) p, (b.pgmap y).free = true := by
    intro y hy
    rw [h.free p h.mem y (by rwa [h.order_eq]), h.is_free]
  refine
    { tiling := h.tiling.split h.mem h.order_eq
      top_le := h.top_le
      r_addr := ?_, r_ord := ?_, ord := ?_, free := ?_, returned := ?_, lists := ?_, nodup := ?_
      mem := h.mem
      order_eq := if_pos (Grid.mem_tile_self h.mem)
      start_eq := hs
      is_free := by rw [chopStep_free, h.is_free] }
  · intro x hx
    rw [chopStep_pgmap, ← h.r_addr x hx]
    split <;> rfl
  · intro x hx
    rw [chopStep_pgmap, ← h.r_ord x hx]
    split <;> rfl
  · intro x hx hnl
    rw [chopStep_pgmap]
    by_cases hm : x ∈ G.tile (n + 1) p
    · have hr := ((hhalves x).mp hm).resolve_left hnl
      rw [if_pos hm, if_pos ((hright x).mp hr)]
    · rw [if_neg hm, if_neg fun hr => hm ((hhalves x).mpr (Or.inr ((hright x).mpr hr)))]
      exact h.ord x hx hm
  · intro x hx y hy
    rw [chopStep_free, chopStep_free]
    by_cases hm : x ∈ G.tile (n + 1) p
    · simp only [if_pos hm] at hy
      have hy' := Grid.tile_mono (Nat.le_succ n) hy
      rw [Nat.succ_eq_add_one, Grid.tile_eq_of_mem h.mem htop hm] at hy'
      rw [hfree x hm, hfree y hy']
    · simp only [if_neg hm] at hy
      exact h.free x hx y hy
  · intro x hx
    rw [chopStep_returned, chopStep_free, h.returned x hx]
    by_cases hm : x ∈ G.tile (n + 1) p
    · simp [hfree x hm]
    · simp only [if_neg hm]
  · intro j q
    rw [mem_chopStep_lists, chopStep_free]
    by_cases hm : q ∈ G.tile (n + 1) p
    · simp only [if_pos hm, hfree q hm, true_and]
      constructor
      · rintro (hc | ⟨rfl, rfl⟩)
        · exact absurd hc (h.not_listed hm j)
        · refine ⟨hmd, fun hc => ?_, rfl, hms⟩
          have := (hleft _).mp hc
          omega
      · rintro ⟨hqd, hnl, rfl, hqs⟩
        refine Or.inr ⟨rfl, ?_⟩
        have hr := ((hhalves q).mp hm).resolve_left hnl
        have hqm := Grid.start_eq_of_mem hmd (by rw [hmt]; omega) hr
        omega
    · simp only [if_neg hm]
      have hqm : q ≠ p + 2 ^ n := by
        rintro rfl
        exact hm ((hhalves _).mpr (Or.inr (Grid.mem_tile_self hmd)))
      have hnl : q ∉ G.tile n p := fun hc => hm ((hhalves q).mpr (Or.inl hc))
      rw [h.lists j q]
      simp [hqm, hnl, hm]
  · intro j
    by_cases hj : j = n
    · subst hj
      have hnot : p + 2 ^ j ∉ b.free_blocks j :=
        h.not_listed ((hhalves _).mpr (Or.inr (Grid.mem_tile_self hmd))) j
      simp only [chopStep, Function.update_self]
      refine List.nodup_append.mpr ⟨h.nodup j, List.nodup_singleton _, ?_⟩
      intro x hx y hy he
      rw [List.mem_singleton] at hy
      exact hnot (hy ▸ he ▸ hx)
    · simp only [chopStep, Function.update_of_ne hj]
      exact h.nodup j

/-- The right half that is put on a list has the held left half as its buddy. -/
theorem chopStep_noBuddies (h : BuddyHeld G k p (n + 1) b) (hb : NoBuddies G b) :
    NoBuddies G (chopStep p n b) := by
  have htop := h.le_top
  have hs : G.start n p = p := Grid.start_of_le h.mem (Nat.le_succ n) h.start_eq
  have hbud : G.buddy n p = p + 2 ^ n := Grid.buddy_of_start_succ h.mem h.start_eq
  have hbb := Grid.buddy_buddy h.mem hs htop
  rw [hbud] at hbb
  have hpos := Nat.two_pow_pos n
  have hp : ∀ j, p ∉ (chopStep p n b).free_blocks j := by
    intro j hc
    rcases mem_chopStep_lists.mp hc with hc | ⟨-, hc⟩
    · exact h.not_listed (Grid.mem_tile_self h.mem) j hc
    · omega
  intro j q hq hj hc
  rcases mem_chopStep_lists.mp hq with hq' | ⟨rfl, rfl⟩
  · rcases mem_chopStep_lists.mp hc with hc' | ⟨rfl, he⟩
    · exact hb j q hq' hj hc'
    · obtain ⟨hqd, -, -, -, hqs⟩ := (h.lists j q).mp hq'
      have hqq := Grid.buddy_buddy hqd hqs hj
      rw [he, hbb] at hqq
      exact hp j (hqq ▸ hq)
  · rw [hbb] at hc
    exact hp j hc

end Chickadee.Alloc
