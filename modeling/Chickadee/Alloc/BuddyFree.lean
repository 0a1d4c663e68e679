import Mathlib.Data.Nat.Bitwise
import Chickadee.Alloc.BuddyInv

/-!
# The buddy part of `kfree` keeps the invariant

`kfree` marks the block free (`markFreed_inv`), which leaves it held and on no list, and enters a
loop. An iteration either joins the held block with its buddy (`mergeStep_inv`) or puts it on its
list (`pushHeld_inv`). The order of the held block grows with every join and is bounded by the order
of its root, so the loop ends (`coalesce_ok`). `Buddy.kfree_ok` puts the parts together; `Freed` is
its postcondition.
-/

namespace Chickadee.Alloc

open Chickadee.Lib

variable {G : Grid} {k : ℕ → ℕ} {p n o j : ℕ} {b b' : Buddy}

/-- A held block whose pages carry its order, as everywhere in `kfree`. -/
structure HeldOrd (G : Grid) (k : ℕ → ℕ) (p n : ℕ) (b : Buddy) : Prop
    extends BuddyHeld G k p n b where
  held_ord : ∀ x ∈ G.tile n p, (b.pgmap x).ord = n + MIN_ORDER

/-- What the loop of `kfree` leaves alone. -/
structure LoopFrame (b b' : Buddy) : Prop where
  free : ∀ x, (b'.pgmap x).free = (b.pgmap x).free
  returned : ∀ x, (b'.pgmap x).returned = (b.pgmap x).returned
  allocated : ∀ x, (b.pgmap x).free = false → b'.pgmap x = b.pgmap x

theorem LoopFrame.trans {b'' : Buddy} (h : LoopFrame b b') (h' : LoopFrame b' b'') :
    LoopFrame b b'' where
  free x := (h'.free x).trans (h.free x)
  returned x := (h'.returned x).trans (h.returned x)
  allocated x hx := (h'.allocated x ((h.free x).trans hx)).trans (h.allocated x hx)

theorem HeldOrd.start_ord (h : HeldOrd G k p n b) : (b.pgmap p).ord = n + MIN_ORDER :=
  h.held_ord p (Grid.mem_tile_self h.mem)

theorem HeldOrd.mem_held (h : HeldOrd G k p n b) {x : ℕ} :
    x ∈ G.tile n p ↔ p ≤ x ∧ x < p + 2 ^ n := by
  rw [Grid.mem_tile, h.start_eq]

theorem HeldOrd.held_free (h : HeldOrd G k p n b) {x : ℕ} (hx : x ∈ G.tile n p) :
    (b.pgmap x).free = true := by
  rw [h.free p h.mem x (by rwa [h.order_eq]), h.is_free]

/-! ## Finding the buddy -/

/-- `buddy_to_the_left` reads the bit of the block's order off its offset in the root. -/
theorem buddy_to_the_left_iff (h : HeldOrd G k p n b) :
    b.buddy_to_the_left p = true ↔ (p - G.base p) / 2 ^ n % 2 = 1 := by
  have hsub : p * PAGESIZE - G.base p * PAGESIZE = (p - G.base p) * 2 ^ MIN_ORDER :=
    (Nat.sub_mul _ _ _).symm
  have hdiv : (p - G.base p) * 2 ^ MIN_ORDER / 2 ^ (n + MIN_ORDER) = (p - G.base p) / 2 ^ n := by
    rw [Nat.pow_add]
    exact Nat.mul_div_mul_right _ _ (Nat.two_pow_pos _)
  have hpos := Nat.two_pow_pos (n + MIN_ORDER)
  simp only [Buddy.buddy_to_the_left, h.start_ord, h.r_addr p h.mem, hsub, Nat.one_shiftLeft,
    Nat.and_two_pow, Nat.testBit_eq_decide_div_mod_eq, hdiv]
  by_cases hb : (p - G.base p) / 2 ^ n % 2 = 1
  · simp [hb]
  · simp [hb]

/-- The buddy's address is that of the page `G.buddy n p`. -/
theorem buddy_addr_eq (h : HeldOrd G k p n b) :
    (if b.buddy_to_the_left p then p * PAGESIZE - 2 ^ (n + MIN_ORDER)
      else p * PAGESIZE + 2 ^ (n + MIN_ORDER)) = G.buddy n p * PAGESIZE := by
  have hpow : 2 ^ (n + MIN_ORDER) = 2 ^ n * PAGESIZE := Nat.pow_add _ _ _
  simp only [buddy_to_the_left_iff h, hpow, Grid.buddy, sibling]
  split
  · exact (Nat.sub_mul _ _ _).symm
  · exact (Nat.add_mul _ _ _).symm

/-! ## Joining the held block with its buddy -/

/-- The state after one joining iteration of the loop, for a block of order `n` with buddy `q`. -/
def mergeStep (p q n : ℕ) (b : Buddy) : Buddy where
  pgmap := joinPages p q (2 ^ n) b.pgmap
  free_blocks := Function.update b.free_blocks n ((b.free_blocks n).erase q)

section Merge

variable (h : HeldOrd G k p n b) (hn : n < G.top p)
  (hf : (b.pgmap (G.buddy n p)).free = true) (ho : (b.pgmap (G.buddy n p)).ord = n + MIN_ORDER)
include h

theorem mergeStep_pgmap (x : ℕ) :
    (mergeStep p (G.buddy n p) n b).pgmap x =
      if (p ≤ x ∧ x < p + 2 ^ n) ∨ (G.buddy n p ≤ x ∧ x < G.buddy n p + 2 ^ n) then
        { b.pgmap x with ord := (b.pgmap x).ord + 1 }
      else b.pgmap x := by
  refine joinPages_apply _ _ _ _ _ ?_
  rcases Grid.buddy_cases h.mem h.start_eq with ⟨he, -⟩ | ⟨he, -⟩ <;> omega

theorem mergeStep_free (x : ℕ) :
    ((mergeStep p (G.buddy n p) n b).pgmap x).free = (b.pgmap x).free := by
  rw [mergeStep_pgmap h]
  split <;> rfl

theorem mergeStep_returned (x : ℕ) :
    ((mergeStep p (G.buddy n p) n b).pgmap x).returned = (b.pgmap x).returned := by
  rw [mergeStep_pgmap h]
  split <;> rfl

theorem buddy_not_held : G.buddy n p ∉ G.tile n p := by
  rw [h.mem_held]
  have hpos := Nat.two_pow_pos n
  rcases Grid.buddy_cases h.mem h.start_eq with ⟨he, -⟩ | ⟨he, -⟩ <;> omega

include hn ho

theorem buddy_order : k (G.buddy n p) = n := by
  have he := h.ord _ (Grid.buddy_root h.mem h.start_eq hn).1 (buddy_not_held h)
  rw [ho] at he
  omega

include hf

theorem buddy_listed : G.buddy n p ∈ b.free_blocks n :=
  (h.lists n _).mpr ⟨(Grid.buddy_root h.mem h.start_eq hn).1, buddy_not_held h, hf,
    buddy_order h hn ho, Grid.start_buddy h.mem h.start_eq hn⟩

theorem buddy_held_free {x : ℕ} (hx : x ∈ G.tile n (G.buddy n p)) : (b.pgmap x).free = true := by
  rw [h.free _ (Grid.buddy_root h.mem h.start_eq hn).1 x (by rwa [buddy_order h hn ho]), hf]

open Classical in
/-- **Joining two free buddies keeps the invariant**; the parent is held from then on. -/
theorem mergeStep_inv :
    HeldOrd G (fun y => if y ∈ G.tile (n + 1) p then n + 1 else k y) (G.start (n + 1) p) (n + 1)
      (mergeStep p (G.buddy n p) n b) := by
  obtain ⟨hqd, -, hqt⟩ := Grid.buddy_root h.mem h.start_eq hn
  have hqs := Grid.start_buddy h.mem h.start_eq hn
  have hqk := buddy_order h hn ho
  have hpar : ∀ y, y ∈ G.tile (n + 1) p ↔ y ∈ G.tile n p ∨ y ∈ G.tile n (G.buddy n p) :=
    fun y => Grid.mem_parent_iff h.mem h.start_eq hn
  have htile : ∀ y, y ∈ G.tile (n + 1) p ↔
      (p ≤ y ∧ y < p + 2 ^ n) ∨ (G.buddy n p ≤ y ∧ y < G.buddy n p + 2 ^ n) := by
    intro y
    rw [hpar, h.mem_held, Grid.mem_tile, hqs]
  have hsm : G.start (n + 1) p ∈ G.tile (n + 1) p := Grid.start_mem_tile
  have hss : G.tile (n + 1) (G.start (n + 1) p) = G.tile (n + 1) p :=
    Grid.tile_eq_of_mem h.mem hn hsm
  have hfree : ∀ y ∈ G.tile (n + 1) p, (b.pgmap y).free = true := by
    intro y hy
    rcases (hpar y).mp hy with hy | hy
    · exact h.held_free hy
    · exact buddy_held_free h hn hf ho hy
  have hord : ∀ y ∈ G.tile (n + 1) p, (b.pgmap y).ord = n + MIN_ORDER := by
    intro y hy
    rcases (hpar y).mp hy with hy | hy
    · exact h.held_ord y hy
    · have hym := Grid.root_of_mem_tile hqd (by rw [hqt]; exact hn.le) hy
      have hnl : y ∉ G.tile n p := by
        rw [h.mem_held]
        rw [Grid.mem_tile, hqs] at hy
        have hpos := Nat.two_pow_pos n
        rcases Grid.buddy_cases h.mem h.start_eq with ⟨he, -⟩ | ⟨he, -⟩ <;> omega
      rw [h.ord y hym.1 hnl, h.tiling.const _ hqd y (by rwa [hqk]), hqk]
  refine
    { tiling := h.tiling.merge h.mem h.start_eq h.order_eq hn hqk
      top_le := h.top_le
      r_addr := ?_, r_ord := ?_, ord := ?_, free := ?_, returned := ?_, lists := ?_, nodup := ?_
      mem := Grid.start_mem_dom h.mem hn
      order_eq := if_pos hsm
      start_eq := Grid.start_start h.mem hn
      is_free := by rw [mergeStep_free h, hfree _ hsm]
      held_ord := ?_ }
  · intro x hx
    rw [mergeStep_pgmap h, ← h.r_addr x hx]
    split <;> rfl
  · intro x hx
    rw [mergeStep_pgmap h, ← h.r_ord x hx]
    split <;> rfl
  · intro x hx hnl
    rw [hss] at hnl
    rw [mergeStep_pgmap h, if_neg (fun hc => hnl ((htile x).mpr hc)), if_neg hnl]
    exact h.ord x hx fun hc => hnl ((hpar x).mpr (Or.inl hc))
  · intro x hx y hy
    rw [mergeStep_free h, mergeStep_free h]
    by_cases hm : x ∈ G.tile (n + 1) p
    · simp only [if_pos hm, Grid.tile_eq_of_mem h.mem hn hm] at hy
      rw [hfree x hm, hfree y hy]
    · simp only [if_neg hm] at hy
      exact h.free x hx y hy
  · intro x hx
    rw [mergeStep_returned h, mergeStep_free h, h.returned x hx]
    by_cases hm : x ∈ G.tile (n + 1) p
    · simp [hfree x hm]
    · simp only [if_neg hm]
  · intro i q
    rw [mergeStep_free h, hss]
    by_cases hm : q ∈ G.tile (n + 1) p
    · -- nothing is left on the lists inside the parent
      simp only [hm, not_true_eq_false, false_and, and_false, iff_false]
      intro hc
      have hq : q ∈ b.free_blocks i ∧ (i = n → q ≠ G.buddy n p) := by
        by_cases hi : i = n
        · subst hi
          simp only [mergeStep, Function.update_self] at hc
          have := (List.Nodup.mem_erase_iff (h.nodup i)).mp hc
          exact ⟨this.2, fun _ => this.1⟩
        · simp only [mergeStep, Function.update_of_ne hi] at hc
          exact ⟨hc, fun he => absurd he hi⟩
      obtain ⟨-, hnl, -, hkq, hqq⟩ := (h.lists i q).mp hq.1
      have hr := ((hpar q).mp hm).resolve_left hnl
      have hin : i = n := by
        rw [← hkq, ← hqk]
        exact h.tiling.const _ hqd q (by rwa [hqk])
      refine hq.2 hin ?_
      rw [← hqq, hin, Grid.start_eq_of_mem hqd (by rw [hqt]; exact hn.le) hr, hqs]
    · have hne : q ≠ G.buddy n p := by
        rintro rfl
        exact hm ((hpar _).mpr (Or.inr (Grid.mem_tile_self hqd)))
      have hnl : q ∉ G.tile n p := fun hc => hm ((hpar q).mpr (Or.inl hc))
      have hlist : q ∈ (mergeStep p (G.buddy n p) n b).free_blocks i ↔ q ∈ b.free_blocks i := by
        by_cases hi : i = n
        · subst hi
          simp only [mergeStep, Function.update_self]
          exact List.mem_erase_of_ne hne
        · simp only [mergeStep, Function.update_of_ne hi]
      rw [hlist, h.lists i q]
      simp [hnl, hm]
  · intro i
    by_cases hi : i = n
    · subst hi
      simp only [mergeStep, Function.update_self]
      exact (h.nodup i).erase _
    · simp only [mergeStep, Function.update_of_ne hi]
      exact h.nodup i
  · intro x hx
    rw [hss] at hx
    rw [mergeStep_pgmap h, if_pos ((htile x).mp hx)]
    simp only [hord x hx]
    omega

theorem mergeStep_frame : LoopFrame b (mergeStep p (G.buddy n p) n b) where
  free := mergeStep_free h
  returned := mergeStep_returned h
  allocated := by
    intro x hx
    have hqs := Grid.start_buddy h.mem h.start_eq hn
    rw [mergeStep_pgmap h, if_neg]
    rintro (hc | hc)
    · rw [h.held_free (h.mem_held.mpr hc)] at hx
      cases hx
    · rw [buddy_held_free h hn hf ho (by rw [Grid.mem_tile, hqs]; exact hc)] at hx
      cases hx

end Merge

theorem mergeStep_noBuddies {q : ℕ} (hb : NoBuddies G b) : NoBuddies G (mergeStep p q n b) := by
  have hsub : ∀ i x, x ∈ (mergeStep p q n b).free_blocks i → x ∈ b.free_blocks i := by
    intro i x hx
    by_cases hi : i = n
    · subst hi
      simp only [mergeStep, Function.update_self] at hx
      exact List.mem_of_mem_erase hx
    · simpa only [mergeStep, Function.update_of_ne hi] using hx
  exact fun i x hx hi hc => hb i x (hsub i x hx) hi (hsub i _ hc)

/-! ## Listing the held block -/

/-- The state after the held block has been put on its list. -/
def pushHeld (p n : ℕ) (b : Buddy) : Buddy :=
  { b with free_blocks := Function.update b.free_blocks n (b.free_blocks n ++ [p]) }

theorem mem_pushHeld {q : ℕ} :
    q ∈ (pushHeld p n b).free_blocks j ↔ q ∈ b.free_blocks j ∨ (j = n ∧ q = p) := by
  by_cases hj : j = n
  · subst hj
    simp [pushHeld]
  · simp [pushHeld, hj]

theorem pushHeld_frame : LoopFrame b (pushHeld p n b) :=
  ⟨fun _ => rfl, fun _ => rfl, fun _ _ => rfl⟩

theorem push_back_held (h : HeldOrd G k p n b) : b.push_back n p = .ok (pushHeld p n b) :=
  push_back_ok (h.not_listed (Grid.mem_tile_self h.mem))

/-- **Putting the held block on its list leaves nothing held.** -/
theorem pushHeld_inv (h : HeldOrd G k p n b) : BuddyInv G k ∅ (pushHeld p n b) where
  tiling := h.tiling
  top_le := h.top_le
  r_addr := h.r_addr
  r_ord := h.r_ord
  ord := by
    intro x hx _
    by_cases hm : x ∈ G.tile n p
    · rw [show (pushHeld p n b).pgmap x = b.pgmap x from rfl, h.held_ord x hm, ← h.order_eq,
        h.tiling.const p h.mem x (by rwa [h.order_eq])]
    · exact h.ord x hx hm
  free := h.free
  returned := h.returned
  lists := by
    intro i q
    rw [mem_pushHeld, h.lists i q]
    show _ ↔ _ ∧ _ ∧ (b.pgmap q).free = true ∧ _
    constructor
    · rintro (⟨hqd, -, hqf, hkq, hqs⟩ | ⟨rfl, rfl⟩)
      · exact ⟨hqd, Set.notMem_empty q, hqf, hkq, hqs⟩
      · exact ⟨h.mem, Set.notMem_empty q, h.is_free, h.order_eq, h.start_eq⟩
    · rintro ⟨hqd, -, hqf, hkq, hqs⟩
      by_cases hm : q ∈ G.tile n p
      · right
        have hi : i = n := by
          rw [← hkq, ← h.order_eq]
          exact h.tiling.const p h.mem q (by rwa [h.order_eq])
        refine ⟨hi, ?_⟩
        rw [← hqs, hi, Grid.start_eq_of_mem h.mem h.le_top hm, h.start_eq]
      · exact Or.inl ⟨hqd, hm, hqf, hkq, hqs⟩
  nodup := by
    intro i
    by_cases hi : i = n
    · subst hi
      have hnot := h.not_listed (Grid.mem_tile_self h.mem) i
      simp only [pushHeld, Function.update_self]
      refine List.nodup_append.mpr ⟨h.nodup i, List.nodup_singleton _, ?_⟩
      rintro x hx y hy rfl
      rw [List.mem_singleton] at hy
      exact hnot (hy ▸ hx)
    · simp only [pushHeld, Function.update_of_ne hi]
      exact h.nodup i

/-- A block that is listed because the loop stopped has no free buddy of its own order. -/
theorem pushHeld_noBuddies (h : HeldOrd G k p n b) (hb : NoBuddies G b)
    (hstop : n < G.top p →
      ¬ ((b.pgmap (G.buddy n p)).free = true ∧ (b.pgmap (G.buddy n p)).ord = n + MIN_ORDER)) :
    NoBuddies G (pushHeld p n b) := by
  have hlisted : n < G.top p → G.buddy n p ∉ b.free_blocks n := by
    intro hn hc
    obtain ⟨hqd, hnl, hqf, hkq, -⟩ := (h.lists n _).mp hc
    exact hstop hn ⟨hqf, by rw [h.ord _ hqd hnl, hkq]⟩
  intro i q hq hi hc
  rcases mem_pushHeld.mp hq with hq' | ⟨rfl, rfl⟩
  · rcases mem_pushHeld.mp hc with hc' | ⟨rfl, he⟩
    · exact hb i q hq' hi hc'
    · obtain ⟨hqd, -, -, -, hqs⟩ := (h.lists i q).mp hq'
      have hqq := Grid.buddy_buddy hqd hqs hi
      have htop := (Grid.buddy_root hqd hqs hi).2.2
      rw [he] at hqq htop
      exact hlisted (by omega) (by rwa [hqq])
  · rcases mem_pushHeld.mp hc with hc' | ⟨-, he⟩
    · exact hlisted hi hc'
    · exact Grid.buddy_ne h.mem h.start_eq he

/-! ## The loop -/

theorem coalesce_push {m : ℕ} (h : HeldOrd G k p n b)
    (hstop : n < G.top p →
      ¬ ((b.pgmap (G.buddy n p)).free = true ∧ (b.pgmap (G.buddy n p)).ord = n + MIN_ORDER)) :
    coalesce (m + 1) p (p * PAGESIZE) b = .ok (pushHeld p n b) := by
  have e : n + MIN_ORDER - MIN_ORDER = n := by omega
  have hdiv : G.buddy n p * PAGESIZE / PAGESIZE = G.buddy n p := Nat.mul_div_cancel _ (by decide)
  have hpush := push_back_held h
  simp only [coalesce, h.start_ord, h.r_ord p h.mem, e, buddy_addr_eq h, hdiv, hpush]
  split
  · rfl
  · next hne =>
    have hle := h.le_top
    rw [if_neg (hstop (by omega))]

theorem coalesce_merge {m : ℕ} (h : HeldOrd G k p n b) (hn : n < G.top p)
    (hf : (b.pgmap (G.buddy n p)).free = true)
    (ho : (b.pgmap (G.buddy n p)).ord = n + MIN_ORDER) :
    coalesce (m + 1) p (p * PAGESIZE) b =
      coalesce m (G.start (n + 1) p) (G.start (n + 1) p * PAGESIZE)
        (mergeStep p (G.buddy n p) n b) := by
  have e : n + MIN_ORDER - MIN_ORDER = n := by omega
  have hdiv : G.buddy n p * PAGESIZE / PAGESIZE = G.buddy n p := Nat.mul_div_cancel _ (by decide)
  have hsz : 2 ^ (n + MIN_ORDER) / PAGESIZE = 2 ^ n := by
    rw [Nat.pow_add]
    exact Nat.mul_div_cancel _ (by decide)
  have hne : ¬ n + MIN_ORDER = G.top p + MIN_ORDER := by omega
  have hpos := Nat.two_pow_pos n
  have hlt : ∀ q, q * PAGESIZE < p * PAGESIZE ↔ q < p :=
    fun q => Nat.mul_lt_mul_right (by decide)
  simp only [coalesce, h.start_ord, h.r_ord p h.mem, e, buddy_addr_eq h, hdiv, hsz, hne, hf, ho,
    hlt, and_self, if_true, if_false]
  rcases Grid.buddy_cases h.mem h.start_eq with ⟨he, hst⟩ | ⟨he, hst⟩
  · rw [if_neg (by omega), hst]
    rfl
  · rw [if_pos (by omega), hst]
    rfl

/--
**The loop of `kfree` ends and leaves a consistent state.** The number of iterations is bounded by
the distance of the block's order from that of its root.
-/
theorem coalesce_ok (m : ℕ) : ∀ {k : ℕ → ℕ} {p n : ℕ} {b : Buddy}, HeldOrd G k p n b →
    G.top p - n ≤ m →
    ∃ b' k', coalesce (m + 1) p (p * PAGESIZE) b = .ok b' ∧ BuddyInv G k' ∅ b' ∧ LoopFrame b b' ∧
      (NoBuddies G b → NoBuddies G b') := by
  classical
  induction m with
  | zero =>
    intro k p n b h hm
    have hstop : ¬ n < G.top p := by omega
    exact ⟨_, k, coalesce_push h fun hc => absurd hc hstop, pushHeld_inv h, pushHeld_frame,
      fun hb => pushHeld_noBuddies h hb fun hc => absurd hc hstop⟩
  | succ m ih =>
    intro k p n b h hm
    by_cases hj : n < G.top p ∧ (b.pgmap (G.buddy n p)).free = true ∧
        (b.pgmap (G.buddy n p)).ord = n + MIN_ORDER
    · obtain ⟨hn, hf, ho⟩ := hj
      have htop : G.top (G.start (n + 1) p) = G.top p :=
        (Grid.root_of_mem_tile h.mem hn Grid.start_mem_tile).2.2
      obtain ⟨b', k', hc, hi, hfr, hnb⟩ := ih (mergeStep_inv h hn hf ho) (by omega)
      exact ⟨b', k', by rw [coalesce_merge h hn hf ho, hc], hi,
        (mergeStep_frame h hn hf ho).trans hfr, fun hb => hnb (mergeStep_noBuddies hb)⟩
    · have hstop : n < G.top p → ¬ ((b.pgmap (G.buddy n p)).free = true ∧
          (b.pgmap (G.buddy n p)).ord = n + MIN_ORDER) := fun hn hc => hj ⟨hn, hc⟩
      exact ⟨_, k, coalesce_push h hstop, pushHeld_inv h, pushHeld_frame,
        fun hb => pushHeld_noBuddies h hb hstop⟩

/-! ## Marking the block free -/

/-- The state when `kfree` enters its loop. -/
def markFreed (p o : ℕ) (b : Buddy) : Buddy :=
  { b with
    pgmap := updPages (fun it => { it with free := true }) p (2 ^ o)
      (Function.update b.pgmap p { b.pgmap p with returned := false }) }

theorem markFreed_apply (x : ℕ) :
    (markFreed p o b).pgmap x =
      if p ≤ x ∧ x < p + 2 ^ o then
        { b.pgmap x with free := true, returned := (b.pgmap x).returned && (x != p) }
      else b.pgmap x := by
  have hpos := Nat.two_pow_pos o
  change updPages _ _ _ _ x = _
  rw [updPages_apply]
  by_cases hx : x = p
  · subst hx
    rw [if_pos (by omega), if_pos (by omega), Function.update_self]
    simp
  · rw [Function.update_of_ne hx]
    split
    · simp [hx]
    · rfl

/-- Marking an allocated block free leaves it held. -/
theorem markFreed_inv (h : BuddyInv G k ∅ b) (hp : p ∈ G.dom) (hk : k p = o)
    (hs : G.start o p = p) (hf : (b.pgmap p).free = false) : HeldOrd G k p o (markFreed p o b) := by
  classical
  have hin : ∀ x, (p ≤ x ∧ x < p + 2 ^ o) ↔ x ∈ G.tile o p := by
    intro x
    rw [Grid.mem_tile, hs]
  have htop : o ≤ G.top p := hk ▸ h.tiling.le_top p hp
  have hkx : ∀ x ∈ G.tile o p, k x = o := by
    intro x hx
    rw [← hk]
    exact h.tiling.const p hp x (by rwa [hk])
  have hsx : ∀ x ∈ G.tile o p, G.start o x = p := by
    intro x hx
    rw [Grid.start_eq_of_mem hp htop hx, hs]
  have hfx : ∀ x ∈ G.tile o p, (b.pgmap x).free = false := by
    intro x hx
    rw [h.free p hp x (by rwa [hk]), hf]
  have hord : ∀ x ∈ G.dom, ((markFreed p o b).pgmap x).ord = k x + MIN_ORDER := by
    intro x hx
    rw [markFreed_apply, ← h.ord x hx (Set.notMem_empty x)]
    split <;> rfl
  refine
    { tiling := h.tiling, top_le := h.top_le, r_addr := fun x hx => ?_, r_ord := fun x hx => ?_
      ord := fun x hx _ => hord x hx, free := fun x hx y hy => ?_, returned := fun x hx => ?_
      lists := fun j q => ?_, nodup := h.nodup, mem := hp, order_eq := hk, start_eq := hs
      is_free := ?_, held_ord := fun x hx => ?_ }
  · rw [markFreed_apply, ← h.r_addr x hx]
    split <;> rfl
  · rw [markFreed_apply, ← h.r_ord x hx]
    split <;> rfl
  · have hxy : y ∈ G.tile o p ↔ x ∈ G.tile o p := by
      constructor
      · intro hc
        have hky := h.tiling.const x hx y hy
        have hsy := h.tiling.mem_symm hx hy
        rw [hkx y hc] at hky
        rwa [hkx y hc, Grid.tile_eq_of_mem hp htop hc] at hsy
      · intro hc
        rwa [hkx x hc, Grid.tile_eq_of_mem hp htop hc] at hy
    rw [markFreed_apply, markFreed_apply]
    simp only [hin, hxy]
    split
    · rfl
    · exact h.free x hx y hy
  · have hret := h.returned x hx
    rw [markFreed_apply]
    simp only [hin]
    split
    · next hm =>
      rw [hkx x hm, hsx x hm, hfx x hm] at hret
      simp only [true_and] at hret
      simp [hret, eq_comm (a := p)]
    · exact hret
  · rw [markFreed_apply, show (markFreed p o b).free_blocks j = b.free_blocks j from rfl,
      h.lists j q]
    simp only [hin]
    by_cases hq : q ∈ G.tile o p
    · simp [hq, hfx q hq]
    · simp [hq]
  · rw [markFreed_apply, if_pos ((hin p).mpr (Grid.mem_tile_self hp))]
  · rw [hord x (Grid.root_of_mem_tile hp htop hx).1, hkx x hx]

/-- The block `[p, p + 2 ^ o)` was allocated and is free now; no other block was touched. -/
structure Freed (p o : ℕ) (b b' : Buddy) : Prop where
  free : ∀ x, (b'.pgmap x).free = true ↔ (b.pgmap x).free = true ∨ (p ≤ x ∧ x < p + 2 ^ o)
  returned : ∀ x, (b'.pgmap x).returned = true ↔ (b.pgmap x).returned = true ∧ x ≠ p
  frame : ∀ x, (b'.pgmap x).free = false → b'.pgmap x = b.pgmap x

/--
**The buddy part of `kfree` keeps the invariant.** On a page that `kalloc` returned it fails no
assertion and frees exactly the block that starts there.
-/
theorem kfree_ok (h : BuddyInv G k ∅ b) (hp : p ∈ G.dom) (hr : (b.pgmap p).returned = true) :
    ∃ b' k', b.kfree (p * PAGESIZE) = .ok b' ∧ BuddyInv G k' ∅ b' ∧ Freed p (k p) b b' ∧
      (NoBuddies G b → NoBuddies G b') := by
  obtain ⟨hf, hs⟩ := (h.returned p hp).mp hr
  have hmask : p * PAGESIZE &&& 0xfff = 0 := by
    rw [show (0xfff : ℕ) = 2 ^ MIN_ORDER - 1 from rfl, Nat.and_two_pow_sub_one_eq_mod]
    exact Nat.mul_mod_left _ _
  have hdiv : p * PAGESIZE / PAGESIZE = p := Nat.mul_div_cancel _ (by decide)
  have hsz : 2 ^ (k p + MIN_ORDER) / PAGESIZE = 2 ^ k p := by
    rw [Nat.pow_add]
    exact Nat.mul_div_cancel _ (by decide)
  have hord := h.ord p hp (Set.notMem_empty p)
  have hheld := markFreed_inv h hp rfl hs hf
  obtain ⟨b', k', hc, hi, hfr, hnb⟩ := coalesce_ok (norders - 1) hheld (by
    have := h.top_le p hp
    simp only [norders]
    omega)
  refine ⟨b', k', ?_, hi, ?_, fun hb => hnb hb⟩
  · rw [Buddy.kfree, if_neg (not_not_intro hmask)]
    simp only [hdiv, hf, hr, hord, hsz, Bool.false_eq_true, not_true_eq_false, if_false]
    change coalesce norders _ _ _ = _ at hc
    simpa only [markFreed, hf, hord] using hc
  · refine ⟨fun x => ?_, fun x => ?_, fun x hx => ?_⟩
    · rw [hfr.free x, markFreed_apply]
      split
      · next hm => simp [hm]
      · next hm => simp [hm]
    · rw [hfr.returned x, markFreed_apply]
      have hpos := Nat.two_pow_pos (k p)
      split
      · simp
      · next hm => exact ⟨fun hc => ⟨hc, by omega⟩, fun hc => hc.1⟩
    · rw [hfr.free x] at hx
      rw [hfr.allocated x hx, markFreed_apply, if_neg]
      intro hm
      rw [markFreed_apply, if_pos hm] at hx
      cases hx

end Chickadee.Alloc
