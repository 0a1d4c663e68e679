import Chickadee.Alloc.BuddyInv

/-!
# The buddy part of `kalloc` keeps the invariant

`kalloc` takes the first block of a list (`pop_front_held`), halves it until it has the wanted order
(`chop_ok`) and marks it allocated (`markAllocated_inv`). `Buddy.kalloc_ok` puts the three together
and says what the call changes; `Allocated` is its postcondition.
-/

namespace Chickadee.Alloc

open Chickadee.Lib

variable {G : Grid} {k : ℕ → ℕ} {p n o j : ℕ} {b b' : Buddy}

/-! ## Taking a block off its list -/

theorem pop_front_held {rest : List ℕ} (h : BuddyInv G k ∅ b)
    (hl : b.free_blocks j = p :: rest) : BuddyHeld G k p j (b.pop_front j).1 := by
  obtain ⟨hpd, -, hpf, hkp, hps⟩ := (h.lists j p).mp (by rw [hl]; exact List.mem_cons_self)
  have hnd := h.nodup j
  rw [hl, List.nodup_cons] at hnd
  refine
    { tiling := h.tiling, top_le := h.top_le, r_addr := h.r_addr, r_ord := h.r_ord
      ord := fun x hx _ => h.ord x hx (Set.notMem_empty x)
      free := h.free, returned := h.returned, lists := ?_, nodup := ?_
      mem := hpd, order_eq := hkp, start_eq := hps, is_free := hpf }
  · intro i q
    -- the only start of a tile inside the tile of `p` is `p` itself
    have hheld : q ∈ G.tile j p → k q = j ∧ (G.start j q = q → q = p) := by
      intro hq
      refine ⟨by rw [← hkp]; exact h.tiling.const p hpd q (by rwa [hkp]), fun hs => ?_⟩
      rw [← hs, Grid.start_eq_of_mem hpd (hkp ▸ h.tiling.le_top p hpd) hq, hps]
    by_cases hi : i = j
    · subst hi
      have hold := h.lists i q
      rw [hl, List.mem_cons] at hold
      simp only [Buddy.pop_front, Function.update_self, hl, List.tail_cons]
      constructor
      · intro hq
        obtain ⟨hqd, -, hqf, hkq, hqs⟩ := hold.mp (Or.inr hq)
        refine ⟨hqd, fun hc => ?_, hqf, hkq, hqs⟩
        exact hnd.1 ((hheld hc).2 hqs ▸ hq)
      · rintro ⟨hqd, hnq, hqf, hkq, hqs⟩
        refine (hold.mpr ⟨hqd, Set.notMem_empty q, hqf, hkq, hqs⟩).resolve_left ?_
        rintro rfl
        exact hnq (Grid.mem_tile_self hqd)
    · simp only [Buddy.pop_front, Function.update_of_ne hi]
      rw [h.lists i q]
      constructor
      · rintro ⟨hqd, -, hqf, hkq, hqs⟩
        exact ⟨hqd, fun hc => hi (hkq ▸ (hheld hc).1), hqf, hkq, hqs⟩
      · rintro ⟨hqd, -, hqf, hkq, hqs⟩
        exact ⟨hqd, Set.notMem_empty q, hqf, hkq, hqs⟩
  · intro i
    by_cases hi : i = j
    · subst hi
      simp only [Buddy.pop_front, Function.update_self, hl, List.tail_cons]
      exact hnd.2
    · simp only [Buddy.pop_front, Function.update_of_ne hi]
      exact h.nodup i

theorem pop_front_subset {i q : ℕ} (h : q ∈ (b.pop_front j).1.free_blocks i) :
    q ∈ b.free_blocks i := by
  by_cases hi : i = j
  · subst hi
    simp only [Buddy.pop_front, Function.update_self] at h
    exact List.mem_of_mem_tail h
  · simpa only [Buddy.pop_front, Function.update_of_ne hi] using h

@[simp] theorem pop_front_pgmap : (b.pop_front j).1.pgmap = b.pgmap := rfl

theorem pop_front_noBuddies (h : NoBuddies G b) : NoBuddies G (b.pop_front j).1 :=
  fun i q hq hi hc => h i q (pop_front_subset hq) hi (pop_front_subset hc)

/-! ## Halving -/

theorem chop_base {ord : ℕ} (h : MIN_ORDER ≤ ord) : chop p ord ord b = .ok b := by
  have hmin : 1 ≤ MIN_ORDER := by decide
  obtain ⟨m, rfl⟩ : ∃ m, ord = m + 1 := ⟨ord - 1, by omega⟩
  rw [chop, if_neg (by omega)]

theorem chop_succ (h : BuddyHeld G k p (n + 1) b) (ho : o ≤ n) :
    chop p (o + MIN_ORDER) (n + 1 + MIN_ORDER) b =
      chop p (o + MIN_ORDER) (n + MIN_ORDER) (chopStep p n b) := by
  have hnot : ∀ j, p + 2 ^ n ∉ b.free_blocks j := by
    refine h.not_listed ?_
    have h2 : 2 ^ (n + 1) = 2 ^ n + 2 ^ n := by rw [Nat.pow_succ]; omega
    have hpos := Nat.two_pow_pos n
    rw [Grid.mem_tile, h.start_eq]
    omega
  have e1 : n + MIN_ORDER + 1 - MIN_ORDER - 1 = n := by omega
  have e2 : n + 1 + MIN_ORDER = n + MIN_ORDER + 1 := by omega
  rw [e2, chop, if_pos (by omega)]
  simp only [e1, Nat.add_sub_cancel]
  split
  · next hpb => cases hpb.symm.trans (push_back_ok hnot)
  · next hpb =>
    obtain rfl := Except.ok.inj (hpb.symm.trans (push_back_ok hnot))
    rfl

/-- What a function that works inside the held block `[p, p + 2 ^ n)` leaves alone. -/
structure HeldFrame (p n : ℕ) (b b' : Buddy) : Prop where
  free : ∀ x, (b'.pgmap x).free = (b.pgmap x).free
  returned : ∀ x, (b'.pgmap x).returned = (b.pgmap x).returned
  outside : ∀ x, x < p ∨ p + 2 ^ n ≤ x → b'.pgmap x = b.pgmap x

theorem HeldFrame.refl : HeldFrame p n b b := ⟨fun _ => rfl, fun _ => rfl, fun _ _ => rfl⟩

theorem chopStep_frame : HeldFrame p (n + 1) b (chopStep p n b) where
  free := chopStep_free
  returned := chopStep_returned
  outside := by
    intro x hx
    have h2 : 2 ^ (n + 1) = 2 ^ n + 2 ^ n := by rw [Nat.pow_succ]; omega
    rw [chopStep_pgmap, if_neg (by omega)]

/-- **The halving loop ends with a held block of the wanted order.** -/
theorem chop_ok (n : ℕ) : ∀ {k : ℕ → ℕ} {b : Buddy}, BuddyHeld G k p n b → o ≤ n →
    ∃ b' k', chop p (o + MIN_ORDER) (n + MIN_ORDER) b = .ok b' ∧ BuddyHeld G k' p o b' ∧
      HeldFrame p n b b' ∧ (NoBuddies G b → NoBuddies G b') := by
  classical
  induction n with
  | zero =>
    intro k b h ho
    obtain rfl : o = 0 := by omega
    exact ⟨b, k, chop_base (by omega), h, .refl, id⟩
  | succ n ih =>
    intro k b h ho
    rcases Nat.eq_or_lt_of_le ho with rfl | hlt
    · exact ⟨b, k, chop_base (by omega), h, .refl, id⟩
    · obtain ⟨b', k', hc, hh, hf, hn⟩ := ih (chopStep_inv h) (by omega)
      refine ⟨b', k', by rw [chop_succ h (by omega), hc], hh, ?_, fun hb => ?_⟩
      · have hs : HeldFrame p (n + 1) b (chopStep p n b) := chopStep_frame
        refine ⟨fun x => (hf.free x).trans (hs.free x),
          fun x => (hf.returned x).trans (hs.returned x), fun x hx => ?_⟩
        have h2 : 2 ^ (n + 1) = 2 ^ n + 2 ^ n := by rw [Nat.pow_succ]; omega
        exact (hf.outside x (by omega)).trans (hs.outside x hx)
      · exact hn (chopStep_noBuddies h hb)

/-! ## Finding the block -/

theorem setOrd_held (h : BuddyHeld G k p n b) (v : ℕ) :
    BuddyHeld G k p n
      { b with pgmap := updPages (fun it => { it with ord := v }) p (2 ^ n) b.pgmap } := by
  have hsame : ∀ x, ∃ v', updPages (fun it => { it with ord := v }) p (2 ^ n) b.pgmap x =
      { b.pgmap x with ord := v' } := by
    intro x
    rw [updPages_apply]
    split
    · exact ⟨v, rfl⟩
    · exact ⟨(b.pgmap x).ord, rfl⟩
  have hfree : ∀ x, (updPages (fun it => { it with ord := v }) p (2 ^ n) b.pgmap x).free =
      (b.pgmap x).free := fun x => by obtain ⟨v', he⟩ := hsame x; rw [he]
  refine
    { tiling := h.tiling, top_le := h.top_le, r_addr := fun x hx => ?_, r_ord := fun x hx => ?_
      ord := fun x hx hnl => ?_, free := fun x hx y hy => ?_, returned := fun x hx => ?_
      lists := fun j q => ?_, nodup := h.nodup, mem := h.mem, order_eq := h.order_eq
      start_eq := h.start_eq, is_free := (hfree p).trans h.is_free }
  · obtain ⟨v', he⟩ := hsame x
    simp only [he, h.r_addr x hx]
  · obtain ⟨v', he⟩ := hsame x
    simp only [he, h.r_ord x hx]
  · simp only [updPages_apply]
    rw [if_neg, h.ord x hx hnl]
    rwa [Grid.mem_tile, h.start_eq] at hnl
  · simp only [hfree, h.free x hx y hy]
  · obtain ⟨v', he⟩ := hsame x
    simp only [he, h.returned x hx]
  · simp only [hfree, h.lists j q]

/--
**`take` returns a held block of the wanted order**, or nothing, and then the state is unchanged.
The block is the front of its list or a part of a larger block at the front of its own.
-/
theorem take_ok (h : BuddyInv G k ∅ b) (o : ℕ) :
    b.take (o + MIN_ORDER) = .ok (b, none) ∨
    ∃ b' k' p n, b.take (o + MIN_ORDER) = .ok (b', some p) ∧ p ∈ b.free_blocks n ∧ o ≤ n ∧
      BuddyHeld G k' p o b' ∧ HeldFrame p n b b' ∧ (NoBuddies G b → NoBuddies G b') := by
  have e : o + MIN_ORDER - MIN_ORDER = o := by omega
  unfold Buddy.take
  rw [e]
  split
  · cases hno : b.next_order (o + MIN_ORDER) with
    | none => exact Or.inl rfl
    | some nb =>
      right
      obtain ⟨hlt, -, hne⟩ := next_order_some hno
      obtain ⟨n, rfl⟩ : ∃ n, nb = n + MIN_ORDER := ⟨nb - MIN_ORDER, by omega⟩
      have e' : n + MIN_ORDER - MIN_ORDER = n := by omega
      rw [e'] at hne
      simp only [e']
      obtain ⟨p, rest, hl⟩ := List.exists_cons_of_ne_nil hne
      have hheld := pop_front_held h hl
      obtain ⟨b', k', hc, hh, hf, hn⟩ := chop_ok (o := o) n hheld (by omega)
      have hpop : (b.pop_front n) = ((b.pop_front n).1, some p) := by
        simp only [Buddy.pop_front, hl, List.head?_cons]
      rw [hpop]
      simp only [hc]
      refine ⟨_, k', p, n, rfl, by rw [hl]; exact List.mem_cons_self, by omega,
        setOrd_held hh _, ?_, fun hb => hn (pop_front_noBuddies hb)⟩
      have hpos : 2 ^ o ≤ 2 ^ n := Nat.pow_le_pow_right (by omega) (by omega)
      refine ⟨fun x => ?_, fun x => ?_, fun x hx => ?_⟩
      · have he := hf.free x
        simp only [updPages_apply, pop_front_pgmap] at he ⊢
        rw [← he]
        split <;> rfl
      · have he := hf.returned x
        simp only [updPages_apply, pop_front_pgmap] at he ⊢
        rw [← he]
        split <;> rfl
      · have he := hf.outside x hx
        simp only [updPages_apply, pop_front_pgmap] at he ⊢
        rw [if_neg (by omega), he]
  · next hne =>
    right
    obtain ⟨p, rest, hl⟩ := List.exists_cons_of_ne_nil hne
    refine ⟨(b.pop_front o).1, k, p, o, ?_, by rw [hl]; exact List.mem_cons_self, le_refl _,
      pop_front_held h hl, ⟨fun _ => rfl, fun _ => rfl, fun _ _ => rfl⟩, pop_front_noBuddies⟩
    simp only [Buddy.pop_front, hl, List.head?_cons]

/-! ## Marking the block -/

/-- The state after the last loop of `kalloc`. -/
def markAllocated (p o : ℕ) (b : Buddy) : Buddy :=
  { b with
    pgmap := updPages (fun it => { it with free := false, ord := o + MIN_ORDER }) p (2 ^ o)
      (Function.update b.pgmap p { b.pgmap p with returned := true }) }

theorem markAllocated_apply (x : ℕ) :
    (markAllocated p o b).pgmap x =
      if p ≤ x ∧ x < p + 2 ^ o then
        { b.pgmap x with
          free := false, ord := o + MIN_ORDER, returned := (b.pgmap x).returned || (x == p) }
      else b.pgmap x := by
  have hpos := Nat.two_pow_pos o
  change updPages _ _ _ _ x = _
  rw [updPages_apply]
  by_cases hx : x = p
  · subst hx
    rw [if_pos (by omega), if_pos (by omega), Function.update_self]
    simp
  · rw [Function.update_of_ne hx]
    split
    · simp [hx]
    · rfl

/-- **Marking the held block allocated ends the call in a consistent state.** -/
theorem markAllocated_inv (h : BuddyHeld G k p o b) : BuddyInv G k ∅ (markAllocated p o b) := by
  classical
  have hin : ∀ x, (p ≤ x ∧ x < p + 2 ^ o) ↔ x ∈ G.tile o p := by
    intro x
    rw [Grid.mem_tile, h.start_eq]
  have hk : ∀ x ∈ G.tile o p, k x = o := by
    intro x hx
    rw [← h.order_eq]
    exact h.tiling.const p h.mem x (by rwa [h.order_eq])
  have hfree : ∀ x ∈ G.tile o p, (b.pgmap x).free = true := by
    intro x hx
    rw [h.free p h.mem x (by rwa [h.order_eq]), h.is_free]
  have hst : ∀ x ∈ G.tile o p, G.start o x = p := by
    intro x hx
    rw [Grid.start_eq_of_mem h.mem h.le_top hx, h.start_eq]
  refine
    { tiling := h.tiling, top_le := h.top_le, r_addr := fun x hx => ?_, r_ord := fun x hx => ?_
      ord := fun x hx _ => ?_, free := fun x hx y hy => ?_, returned := fun x hx => ?_
      lists := fun j q => ?_, nodup := h.nodup }
  · rw [markAllocated_apply, ← h.r_addr x hx]
    split <;> rfl
  · rw [markAllocated_apply, ← h.r_ord x hx]
    split <;> rfl
  · rw [markAllocated_apply]
    split
    · next hm => rw [hk x ((hin x).mp hm)]
    · next hm => exact h.ord x hx fun hc => hm ((hin x).mpr hc)
  · rw [markAllocated_apply, markAllocated_apply]
    simp only [hin]
    have hxy : y ∈ G.tile o p ↔ x ∈ G.tile o p := by
      constructor
      · intro hc
        have hky := h.tiling.const x hx y hy
        rw [hk y hc] at hky
        have hs := h.tiling.mem_symm hx hy
        rwa [h.tiling.const x hx y hy, ← hky, Grid.tile_eq_of_mem h.mem h.le_top hc] at hs
      · intro hc
        rwa [hk x hc, Grid.tile_eq_of_mem h.mem h.le_top hc] at hy
    simp only [hxy]
    split
    · rfl
    · exact h.free x hx y hy
  · have hret := h.returned x hx
    rw [markAllocated_apply]
    split
    · next hm =>
      have hm' := (hin x).mp hm
      rw [hfree x hm', hk x hm', hst x hm'] at hret
      rw [hk x hm', hst x hm']
      simp only [Bool.true_eq_false, false_and, iff_false, Bool.not_eq_true] at hret
      simp [hret, eq_comm (a := p)]
    · exact hret
  · rw [markAllocated_apply, show (markAllocated p o b).free_blocks j = b.free_blocks j from rfl,
      h.lists j q]
    simp only [hin]
    by_cases hq : q ∈ G.tile o p
    · simp [hq]
    · simp [hq]

/-- The block `[p, p + 2 ^ o)` was free and is allocated now; nothing else was touched. -/
structure Allocated (G : Grid) (p o : ℕ) (b b' : Buddy) : Prop where
  mem : p ∈ G.dom
  start_eq : G.start o p = p
  le_top : o ≤ G.top p
  was_free : ∀ x, p ≤ x → x < p + 2 ^ o → (b.pgmap x).free = true
  ord : ∀ x, p ≤ x → x < p + 2 ^ o → (b'.pgmap x).ord = o + MIN_ORDER
  free : ∀ x, (b'.pgmap x).free = true ↔ (b.pgmap x).free = true ∧ (x < p ∨ p + 2 ^ o ≤ x)
  returned : ∀ x, (b'.pgmap x).returned = true ↔ (b.pgmap x).returned = true ∨ x = p
  frame : ∀ x ∈ G.dom, (b.pgmap x).free = false → b'.pgmap x = b.pgmap x

/--
**The buddy part of `kalloc` keeps the invariant.** It either returns null and changes nothing or
allocates a free block whose order is the larger of `order(sz)` and `MIN_ORDER`.
-/
theorem kalloc_ok (h : BuddyInv G k ∅ b) (sz : ℕ) :
    b.kalloc sz = .ok (b, none) ∨
    ∃ b' k' p, b.kalloc sz = .ok (b', some p) ∧ BuddyInv G k' ∅ b' ∧
      Allocated G p (max (order sz) MIN_ORDER - MIN_ORDER) b b' ∧
      (NoBuddies G b → NoBuddies G b') := by
  obtain ⟨o, ho⟩ : ∃ o, max (order sz) MIN_ORDER = o + MIN_ORDER :=
    ⟨max (order sz) MIN_ORDER - MIN_ORDER, by omega⟩
  have hord : (if order sz ≥ MIN_ORDER then order sz else MIN_ORDER) = o + MIN_ORDER := by
    rw [← ho]
    split <;> omega
  have e : o + MIN_ORDER - MIN_ORDER = o := by omega
  rw [ho, e]
  simp only [Buddy.kalloc, hord, e]
  rcases take_ok h o with ht | ⟨b', k', p, n, ht, hpn, hon, hh, hf, hn⟩
  · exact Or.inl (by rw [ht])
  · right
    refine ⟨markAllocated p o b', k', p, by rw [ht]; rfl, markAllocated_inv hh, ?_, hn⟩
    -- the block that was taken apart is a tile of the old state
    obtain ⟨hpd, -, hpf, hkp, hps⟩ := (h.lists n p).mp hpn
    have hle : 2 ^ o ≤ 2 ^ n := Nat.pow_le_pow_right (by omega) hon
    have hold : ∀ x, p ≤ x → x < p + 2 ^ n → (b.pgmap x).free = true := by
      intro x h1 h2
      rw [h.free p hpd x (by rw [hkp, Grid.mem_tile, hps]; exact ⟨h1, h2⟩), hpf]
    have hpos := Nat.two_pow_pos o
    refine
      { mem := hh.mem, start_eq := hh.start_eq, le_top := hh.le_top
        was_free := fun x h1 h2 => hold x h1 (by omega)
        ord := fun x h1 h2 => ?_, free := fun x => ?_, returned := fun x => ?_
        frame := fun x hx hxf => ?_ }
    · rw [markAllocated_apply, if_pos ⟨h1, h2⟩]
    · rw [markAllocated_apply, ← hf.free x]
      split
      · next hm => simp only [Bool.false_eq_true, false_iff]; omega
      · next hm => exact ⟨fun hc => ⟨hc, by omega⟩, fun hc => hc.1⟩
    · rw [markAllocated_apply, ← hf.returned x]
      split
      · simp
      · next hm => exact ⟨Or.inl, fun hc => hc.resolve_right (by omega)⟩
    · have hout : x < p ∨ p + 2 ^ n ≤ x := by
        by_contra hc
        rw [hold x (by omega) (by omega)] at hxf
        cases hxf
      rw [markAllocated_apply, if_neg (by omega), hf.outside x hout]

end Chickadee.Alloc
