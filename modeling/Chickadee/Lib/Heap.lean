import Mathlib.Tactic

/-!
# Binary heaps

The first `n` cells of an array form a binary tree in which the children of cell `i` are `2 * i + 1` and
`2 * i + 2`. Two cells are swapped along one path of the tree, towards the root after an insertion and away
from it after a removal; what the heap lacks in between is `UpReady` and `DownReady`.
-/

namespace Chickadee.Lib.Heap

variable {α K : Type*} {n i j c : ℕ} {a : ℕ → α}

/-- The parent of a cell. Cell 0 is no cell's child, although `parent 0` is 0. -/
def parent (i : ℕ) : ℕ := (i - 1) / 2

theorem parent_lt (h : 0 < i) : parent i < i := by
  unfold parent
  omega

theorem parent_eq_iff (h : 0 < j) : parent j = i ↔ j = 2 * i + 1 ∨ j = 2 * i + 2 := by
  unfold parent
  omega

/-- Exchange two cells. -/
def swap (a : ℕ → α) (i j : ℕ) : ℕ → α := a ∘ Equiv.swap i j

@[simp]
theorem swap_left (a : ℕ → α) (i j : ℕ) : swap a i j i = a j := by
  simp [swap]

@[simp]
theorem swap_right (a : ℕ → α) (i j : ℕ) : swap a i j j = a i := by
  simp [swap]

theorem swap_other {x : ℕ} (hi : x ≠ i) (hj : x ≠ j) : swap a i j x = a x := by
  unfold swap
  rw [Function.comp_apply, Equiv.swap_apply_of_ne_of_ne hi hj]

/-! ## What the heap holds -/

/-- The entries of the first `n` cells. -/
def contents (n : ℕ) (a : ℕ → α) : Multiset α := (Multiset.range n).map a

theorem contents_succ (n : ℕ) (a : ℕ → α) : contents (n + 1) a = a n ::ₘ contents n a := by
  unfold contents
  rw [Multiset.range_succ, Multiset.map_cons]

theorem mem_contents {x : α} : x ∈ contents n a ↔ ∃ i < n, a i = x := by
  simp [contents]

@[simp]
theorem card_contents (n : ℕ) (a : ℕ → α) : Multiset.card (contents n a) = n := by
  simp [contents]

theorem contents_congr {b : ℕ → α} (h : ∀ i < n, a i = b i) : contents n a = contents n b :=
  Multiset.map_congr rfl fun i hi => h i (Multiset.mem_range.mp hi)

/-- **An exchange loses no entry and doubles none.** -/
theorem contents_swap (a : ℕ → α) (hi : i < n) (hj : j < n) : contents n (swap a i j) = contents n a := by
  have hrange : (Multiset.range n).map (Equiv.swap i j) = Multiset.range n := by
    refine (Multiset.Nodup.ext ?_ (Multiset.nodup_range n)).mpr fun x => ?_
    · exact (Multiset.nodup_range n).map (Equiv.swap i j).injective
    · rw [Multiset.mem_map, Multiset.mem_range]
      constructor
      · rintro ⟨y, hy, rfl⟩
        rw [Multiset.mem_range] at hy
        rw [Equiv.swap_apply_def]
        split_ifs <;> assumption
      · intro hx
        refine ⟨Equiv.swap i j x, Multiset.mem_range.mpr ?_, Equiv.swap_apply_self i j x⟩
        rw [Equiv.swap_apply_def]
        split_ifs <;> assumption
  unfold contents swap
  rw [← Multiset.map_map, hrange]

/-- An entry is put behind the others. -/
theorem contents_push (n : ℕ) (a : ℕ → α) (x : α) :
    contents (n + 1) (Function.update a n x) = x ::ₘ contents n a := by
  rw [contents_succ, Function.update_self]
  exact congrArg _ (contents_congr fun i hi => Function.update_of_ne hi.ne _ _)

/-- The last entry takes the place of the root. -/
theorem contents_pop (n : ℕ) (a : ℕ → α) :
    contents (n + 1) a = a 0 ::ₘ contents n (Function.update a 0 (a n)) := by
  have hsame : contents n (swap a 0 n) = contents n (Function.update a 0 (a n)) := by
    refine contents_congr fun i hi => ?_
    rcases Nat.eq_zero_or_pos i with rfl | hpos
    · rw [swap_left, Function.update_self]
    · rw [swap_other hpos.ne' hi.ne, Function.update_of_ne hpos.ne']
  rw [← contents_swap a (Nat.succ_pos n) (Nat.lt_succ_self n), contents_succ, swap_right, hsame]

/-! ## The order -/

variable [LinearOrder K] {key : α → K}

/-- No entry is below its parent. -/
def Ordered (key : α → K) (n : ℕ) (a : ℕ → α) : Prop := ∀ j, 0 < j → j < n → key (a (parent j)) ≤ key (a j)

/-- **The root is the least entry.** -/
theorem Ordered.root_le (h : Ordered key n a) (hi : i < n) : key (a 0) ≤ key (a i) := by
  induction i using Nat.strong_induction_on with
  | _ i ih =>
    rcases Nat.eq_zero_or_pos i with rfl | hpos
    · exact le_rfl
    · have hlt : parent i < i := parent_lt hpos
      exact (ih (parent i) hlt (hlt.trans hi)).trans (h i hpos hi)

/-- Only the edge above `i` may be out of order, and `i` may be exchanged with its parent. -/
structure UpReady (key : α → K) (n : ℕ) (a : ℕ → α) (i : ℕ) : Prop where
  off : ∀ j, 0 < j → j < n → j ≠ i → key (a (parent j)) ≤ key (a j)
  grand : 0 < i → ∀ j, 0 < j → j < n → parent j = i → key (a (parent i)) ≤ key (a j)

/-- Only the edges below `i` may be out of order, and `i` may be exchanged with a child. -/
structure DownReady (key : α → K) (n : ℕ) (a : ℕ → α) (i : ℕ) : Prop where
  off : ∀ j, 0 < j → j < n → parent j ≠ i → key (a (parent j)) ≤ key (a j)
  grand : 0 < i → ∀ j, 0 < j → j < n → parent j = i → key (a (parent i)) ≤ key (a j)

/-- The walk towards the root ends when the edge above is in order. -/
theorem UpReady.done (h : UpReady key n a i) (hstop : 0 < i → key (a (parent i)) ≤ key (a i)) :
    Ordered key n a := by
  intro j hpos hj
  by_cases hji : j = i
  · subst hji
    exact hstop hpos
  · exact h.off j hpos hj hji

/-- **One exchange towards the root.** -/
theorem UpReady.move (h : UpReady key n a i) (hpos : 0 < i) (hi : i < n) (hlt : key (a i) < key (a (parent i))) :
    UpReady key n (swap a i (parent i)) (parent i) := by
  have hp : parent i < i := parent_lt hpos
  constructor
  · intro j hj hjn hjp
    by_cases hji : j = i
    · subst hji
      rw [swap_left, swap_right]
      exact hlt.le
    rw [swap_other hji hjp]
    by_cases hpi : parent j = i
    · rw [hpi, swap_left]
      exact h.grand hpos j hj hjn hpi
    by_cases hpp : parent j = parent i
    · -- a sibling: it is not below the old parent, so not below the new one
      rw [hpp, swap_right]
      have hsib : key (a (parent i)) ≤ key (a j) := hpp ▸ h.off j hj hjn hji
      exact hlt.le.trans hsib
    · rw [swap_other hpi hpp]
      exact h.off j hj hjn hji
  · intro hp0 j hj hjn hjp
    have hpp : parent (parent i) < parent i := parent_lt hp0
    have htop : key (a (parent (parent i))) ≤ key (a (parent i)) :=
      h.off (parent i) hp0 (hp.trans hi) hp.ne
    rw [swap_other (hpp.trans hp).ne hpp.ne]
    by_cases hji : j = i
    · subst hji
      rw [swap_left]
      exact htop
    · have hne : j ≠ parent i := fun he => by
        have := parent_lt hj
        omega
      rw [swap_other hji hne]
      have hsib : key (a (parent i)) ≤ key (a j) := hjp ▸ h.off j hj hjn hji
      exact htop.trans hsib

/-- The walk away from the root ends when the edges below are in order. -/
theorem DownReady.done (h : DownReady key n a i)
    (hstop : ∀ j, 0 < j → j < n → parent j = i → key (a i) ≤ key (a j)) : Ordered key n a := by
  intro j hpos hj
  by_cases hji : parent j = i
  · rw [hji]
    exact hstop j hpos hj hji
  · exact h.off j hpos hj hji

/-- **One exchange with the least child.** -/
theorem DownReady.move (h : DownReady key n a i) (hpos : 0 < c) (hc : c < n) (hpar : parent c = i)
    (hlt : key (a c) < key (a i)) (hmin : ∀ j, 0 < j → j < n → parent j = i → key (a c) ≤ key (a j)) :
    DownReady key n (swap a i c) c := by
  have hic : i < c := hpar ▸ parent_lt hpos
  constructor
  · intro j hj hjn hjc
    by_cases hj' : j = c
    · subst hj'
      rw [hpar, swap_left, swap_right]
      exact hlt.le
    by_cases hji : j = i
    · subst hji
      have hpj : parent j < j := parent_lt hj
      rw [swap_other hpj.ne hjc, swap_left]
      exact h.grand hj c hpos hc hpar
    rw [swap_other hji hj']
    by_cases hpi : parent j = i
    · rw [hpi, swap_left]
      exact hmin j hj hjn hpi
    · rw [swap_other hpi hjc]
      exact h.off j hj hjn hpi
  · intro _ j hj hjn hjc
    have hcj : c < j := hjc ▸ parent_lt hj
    rw [hpar, swap_left, swap_other (hic.trans hcj).ne' hcj.ne']
    have hedge : key (a (parent j)) ≤ key (a j) := h.off j hj hjn (by omega)
    rwa [hjc] at hedge

end Chickadee.Lib.Heap
