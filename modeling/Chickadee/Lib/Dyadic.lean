import Mathlib

/-!
# Dyadic tilings

A *grid* is a family of disjoint root intervals `[base, base + 2 ^ top)` of natural numbers. Inside
a root, the aligned interval of order `k` around `x` is `tile k x`. A *tiling* gives every point an
order that is constant on the tile it selects: the tiles then partition the roots.

Two operations lead from a tiling to a tiling, `Tiling.split` (halve a tile) and `Tiling.merge`
(join a tile with its sibling). `Tiling.full` says that a tiling without a pair of equal siblings
consists of the roots alone.
-/

namespace Chickadee.Lib

/-- The start of the aligned interval of length `2 ^ k` around `x`, counted from `r`. -/
def tileStart (r k x : ℕ) : ℕ := r + (x - r) / 2 ^ k * 2 ^ k

section TileStart

variable {r k l x y : ℕ}

theorem tileStart_le (h : r ≤ x) : tileStart r k x ≤ x := by
  have := Nat.div_mul_le_self (x - r) (2 ^ k)
  unfold tileStart
  omega

theorem base_le_tileStart : r ≤ tileStart r k x := Nat.le_add_right _ _

theorem lt_tileStart_add (h : r ≤ x) : x < tileStart r k x + 2 ^ k := by
  have hlt : x - r < (x - r) / 2 ^ k * 2 ^ k + 2 ^ k := Nat.lt_div_mul_add (Nat.two_pow_pos k)
  unfold tileStart
  omega

/-- The quotient names the tile: a point between `q * 2 ^ k` and the next multiple has quotient `q`. -/
theorem div_eq_of_mem {q d : ℕ} (h₁ : q * 2 ^ k ≤ d) (h₂ : d < q * 2 ^ k + 2 ^ k) :
    d / 2 ^ k = q := by
  refine Nat.div_eq_of_lt_le h₁ ?_
  rwa [Nat.add_mul, Nat.one_mul]

/-- A point of a tile selects the same tile. -/
theorem tileStart_eq_of_mem (h₁ : tileStart r k x ≤ y) (h₂ : y < tileStart r k x + 2 ^ k) :
    tileStart r k y = tileStart r k x := by
  have hq : (y - r) / 2 ^ k = (x - r) / 2 ^ k := by
    unfold tileStart at h₁ h₂
    exact div_eq_of_mem (by omega) (by omega)
  unfold tileStart
  rw [hq]

theorem tileStart_self_iff (h : r ≤ x) : tileStart r k x = x ↔ 2 ^ k ∣ x - r := by
  unfold tileStart
  constructor
  · intro he
    exact ⟨(x - r) / 2 ^ k, by rw [Nat.mul_comm]; omega⟩
  · intro hd
    rw [Nat.div_mul_cancel hd]
    omega

@[simp] theorem tileStart_base : tileStart r k r = r := by simp [tileStart]

theorem tileStart_idem : tileStart r k (tileStart r k x) = tileStart r k x :=
  tileStart_eq_of_mem (le_refl _) (Nat.lt_add_of_pos_right (Nat.two_pow_pos k))

/-- A larger tile starts no later than a smaller one around the same point. -/
theorem tileStart_anti (h : k ≤ l) : tileStart r l x ≤ tileStart r k x := by
  have hle : (x - r) / 2 ^ l * 2 ^ (l - k) ≤ (x - r) / 2 ^ k := by
    rw [Nat.le_div_iff_mul_le (Nat.two_pow_pos k), Nat.mul_assoc, ← Nat.pow_add,
      Nat.sub_add_cancel h]
    exact Nat.div_mul_le_self _ _
  have hmul := Nat.mul_le_mul_right (2 ^ k) hle
  rw [Nat.mul_assoc, ← Nat.pow_add, Nat.sub_add_cancel h] at hmul
  unfold tileStart
  omega

/-- A larger tile ends no earlier than a smaller one around the same point. -/
theorem tileEnd_mono (h : k ≤ l) : tileStart r k x + 2 ^ k ≤ tileStart r l x + 2 ^ l := by
  have hlt : (x - r) / 2 ^ k < ((x - r) / 2 ^ l + 1) * 2 ^ (l - k) := by
    rw [Nat.div_lt_iff_lt_mul (Nat.two_pow_pos k), Nat.mul_assoc, ← Nat.pow_add,
      Nat.sub_add_cancel h, Nat.add_mul, Nat.one_mul]
    exact Nat.lt_div_mul_add (Nat.two_pow_pos l)
  have hmul := Nat.mul_le_mul_right (2 ^ k) (Nat.succ_le_of_lt hlt)
  rw [Nat.mul_assoc, ← Nat.pow_add, Nat.sub_add_cancel h, Nat.succ_mul, Nat.add_mul,
    Nat.one_mul] at hmul
  unfold tileStart
  omega

end TileStart

/-! ## Siblings -/

/-- The other half of the tile of order `k + 1` around the tile of order `k` that starts at `p`. -/
def sibling (r k p : ℕ) : ℕ := if (p - r) / 2 ^ k % 2 = 1 then p - 2 ^ k else p + 2 ^ k

section Sibling

variable {r k p : ℕ}

/-- A right half lies one tile after the start of the parent. -/
theorem tileStart_succ_of_odd (hr : r ≤ p) (hp : 2 ^ k ∣ p - r) (h : (p - r) / 2 ^ k % 2 = 1) :
    tileStart r (k + 1) p + 2 ^ k = p := by
  obtain ⟨q, hq⟩ := hp
  rw [hq, Nat.mul_div_cancel_left _ (Nat.two_pow_pos k)] at h
  have hdiv : 2 ^ k * q / 2 ^ (k + 1) = q / 2 := by
    rw [Nat.pow_succ, Nat.mul_div_mul_left _ _ (Nat.two_pow_pos k)]
  have hmul : q / 2 * 2 ^ (k + 1) = 2 ^ k * (2 * (q / 2)) := by rw [Nat.pow_succ]; ring
  have hqq : 2 * (q / 2) + 1 = q := by omega
  unfold tileStart
  rw [hq, hdiv, hmul]
  calc r + 2 ^ k * (2 * (q / 2)) + 2 ^ k = r + 2 ^ k * (2 * (q / 2) + 1) := by ring
    _ = p := by rw [hqq, ← hq]; omega

/-- A left half starts where the parent starts. -/
theorem tileStart_succ_of_even (hr : r ≤ p) (hp : 2 ^ k ∣ p - r) (h : (p - r) / 2 ^ k % 2 ≠ 1) :
    tileStart r (k + 1) p = p := by
  obtain ⟨q, hq⟩ := hp
  rw [hq, Nat.mul_div_cancel_left _ (Nat.two_pow_pos k)] at h
  refine (tileStart_self_iff hr).mpr ⟨q / 2, ?_⟩
  have hqq : q = 2 * (q / 2) := by omega
  calc p - r = 2 ^ k * (2 * (q / 2)) := by rw [← hqq, hq]
    _ = 2 ^ (k + 1) * (q / 2) := by rw [Nat.pow_succ]; ring

/-- The parent of `p` is made of `p` and its sibling, in one order or the other. -/
theorem sibling_cases (hr : r ≤ p) (hp : 2 ^ k ∣ p - r) :
    (sibling r k p = p + 2 ^ k ∧ tileStart r (k + 1) p = p) ∨
      (sibling r k p + 2 ^ k = p ∧ tileStart r (k + 1) p = sibling r k p) := by
  by_cases h : (p - r) / 2 ^ k % 2 = 1
  · right
    have := tileStart_succ_of_odd hr hp h
    simp only [sibling, if_pos h]
    omega
  · left
    exact ⟨by simp [sibling, h], tileStart_succ_of_even hr hp h⟩

end Sibling

/-! ## Grids -/

/-- Disjoint root intervals `[base x, base x + 2 ^ top x)` that cover `dom`. -/
structure Grid where
  dom : Set ℕ
  base : ℕ → ℕ
  top : ℕ → ℕ
  base_le : ∀ x ∈ dom, base x ≤ x
  lt_end : ∀ x ∈ dom, x < base x + 2 ^ top x
  root : ∀ x ∈ dom, ∀ y, base x ≤ y → y < base x + 2 ^ top x →
    y ∈ dom ∧ base y = base x ∧ top y = top x

namespace Grid

variable (G : Grid)

/-- The start of the tile of order `k` around `x`. -/
def start (k x : ℕ) : ℕ := tileStart (G.base x) k x

/-- The aligned interval of length `2 ^ k` around `x`. -/
def tile (k x : ℕ) : Set ℕ := Set.Ico (G.start k x) (G.start k x + 2 ^ k)

/-- The other half of the parent of the tile that starts at `p`. -/
def buddy (k p : ℕ) : ℕ := sibling (G.base p) k p

variable {G} {k l x y p : ℕ}

theorem mem_tile : y ∈ G.tile k x ↔ G.start k x ≤ y ∧ y < G.start k x + 2 ^ k := Iff.rfl

theorem mem_tile_self (hx : x ∈ G.dom) : x ∈ G.tile k x :=
  ⟨tileStart_le (G.base_le x hx), lt_tileStart_add (G.base_le x hx)⟩

theorem tile_mono (h : k ≤ l) : G.tile k x ⊆ G.tile l x := fun _ hy =>
  ⟨(tileStart_anti h).trans hy.1, hy.2.trans_le (tileEnd_mono h)⟩

theorem start_top (hx : x ∈ G.dom) : G.start (G.top x) x = G.base x := by
  have h₁ := G.base_le x hx
  have h₂ := G.lt_end x hx
  unfold start tileStart
  rw [Nat.div_eq_of_lt (by omega)]
  simp

/-- A tile no larger than its root stays inside the root. -/
theorem root_of_mem_tile (hx : x ∈ G.dom) (hk : k ≤ G.top x) (hy : y ∈ G.tile k x) :
    y ∈ G.dom ∧ G.base y = G.base x ∧ G.top y = G.top x := by
  have hy' := tile_mono hk hy
  rw [mem_tile, start_top hx] at hy'
  exact G.root x hx y hy'.1 hy'.2

/-- A point of a tile selects the same tile. -/
theorem start_eq_of_mem (hx : x ∈ G.dom) (hk : k ≤ G.top x) (hy : y ∈ G.tile k x) :
    G.start k y = G.start k x := by
  unfold start
  rw [(root_of_mem_tile hx hk hy).2.1]
  exact tileStart_eq_of_mem hy.1 hy.2

theorem tile_eq_of_mem (hx : x ∈ G.dom) (hk : k ≤ G.top x) (hy : y ∈ G.tile k x) :
    G.tile k y = G.tile k x := by
  unfold tile
  rw [start_eq_of_mem hx hk hy]

theorem start_mem_tile : G.start k x ∈ G.tile k x :=
  ⟨le_refl _, Nat.lt_add_of_pos_right (Nat.two_pow_pos k)⟩

theorem start_mem_dom (hx : x ∈ G.dom) (hk : k ≤ G.top x) : G.start k x ∈ G.dom :=
  (root_of_mem_tile hx hk start_mem_tile).1

theorem start_start (hx : x ∈ G.dom) (hk : k ≤ G.top x) :
    G.start k (G.start k x) = G.start k x := start_eq_of_mem hx hk start_mem_tile

/-! ### Building a grid root by root -/

/-- The grid without points. -/
def empty : Grid where
  dom := ∅
  base := id
  top := fun _ => 0
  base_le := fun _ h => h.elim
  lt_end := fun _ h => h.elim
  root := fun _ h => h.elim

open Classical in
/-- The grid with one more root `[lo, lo + 2 ^ n)`. -/
noncomputable def addRoot (G : Grid) (lo n : ℕ) (h : Disjoint G.dom (Set.Ico lo (lo + 2 ^ n))) :
    Grid where
  dom := G.dom ∪ Set.Ico lo (lo + 2 ^ n)
  base x := if x ∈ Set.Ico lo (lo + 2 ^ n) then lo else G.base x
  top x := if x ∈ Set.Ico lo (lo + 2 ^ n) then n else G.top x
  base_le := by
    intro x hx
    by_cases hm : x ∈ Set.Ico lo (lo + 2 ^ n)
    · rw [if_pos hm]
      exact hm.1
    · rw [if_neg hm]
      exact G.base_le x (hx.resolve_right hm)
  lt_end := by
    intro x hx
    by_cases hm : x ∈ Set.Ico lo (lo + 2 ^ n)
    · rw [if_pos hm, if_pos hm]
      exact hm.2
    · rw [if_neg hm, if_neg hm]
      exact G.lt_end x (hx.resolve_right hm)
  root := by
    intro x hx y h₁ h₂
    by_cases hm : x ∈ Set.Ico lo (lo + 2 ^ n)
    · rw [if_pos hm] at h₁ h₂
      rw [if_pos hm] at h₂
      have hy : y ∈ Set.Ico lo (lo + 2 ^ n) := ⟨h₁, h₂⟩
      rw [if_pos hm, if_pos hm, if_pos hy, if_pos hy]
      exact ⟨Or.inr hy, rfl, rfl⟩
    · rw [if_neg hm] at h₁ h₂
      rw [if_neg hm] at h₂
      obtain ⟨hyd, hb, ht⟩ := G.root x (hx.resolve_right hm) y h₁ h₂
      have hy : y ∉ Set.Ico lo (lo + 2 ^ n) := Set.disjoint_left.mp h hyd
      rw [if_neg hm, if_neg hm, if_neg hy, if_neg hy]
      exact ⟨Or.inl hyd, hb, ht⟩

section AddRoot

variable {lo n : ℕ} {h : Disjoint G.dom (Set.Ico lo (lo + 2 ^ n))}

theorem mem_addRoot :
    x ∈ (G.addRoot lo n h).dom ↔ x ∈ G.dom ∨ x ∈ Set.Ico lo (lo + 2 ^ n) := Iff.rfl

theorem addRoot_of_mem (hx : x ∈ Set.Ico lo (lo + 2 ^ n)) :
    (G.addRoot lo n h).base x = lo ∧ (G.addRoot lo n h).top x = n := ⟨if_pos hx, if_pos hx⟩

theorem addRoot_of_notMem (hx : x ∉ Set.Ico lo (lo + 2 ^ n)) :
    (G.addRoot lo n h).base x = G.base x ∧ (G.addRoot lo n h).top x = G.top x :=
  ⟨if_neg hx, if_neg hx⟩

end AddRoot

/-! ### The buddy of a tile -/

/-- A tile that starts at `p` contains a smaller tile that starts at `p`. -/
theorem start_of_le (hp : p ∈ G.dom) (h : k ≤ l) (hs : G.start l p = p) : G.start k p = p := by
  have hle : G.start l p ≤ G.start k p := tileStart_anti h
  rw [hs] at hle
  exact le_antisymm (mem_tile_self hp).1 hle

theorem dvd_of_start (hp : p ∈ G.dom) (hs : G.start k p = p) : 2 ^ k ∣ p - G.base p :=
  (tileStart_self_iff (G.base_le p hp)).mp hs

/-- The parent of a tile is the tile and its buddy, in one order or the other. -/
theorem buddy_cases (hp : p ∈ G.dom) (hs : G.start k p = p) :
    (G.buddy k p = p + 2 ^ k ∧ G.start (k + 1) p = p) ∨
      (G.buddy k p + 2 ^ k = p ∧ G.start (k + 1) p = G.buddy k p) :=
  sibling_cases (G.base_le p hp) (dvd_of_start hp hs)

/-- The tile at the start of its parent has its buddy on the right. -/
theorem buddy_of_start_succ (hp : p ∈ G.dom) (hs : G.start (k + 1) p = p) :
    G.buddy k p = p + 2 ^ k := by
  have hpos := Nat.two_pow_pos k
  rcases buddy_cases hp (start_of_le hp (Nat.le_succ k) hs) with ⟨hb, -⟩ | ⟨hb, hst⟩ <;> omega

theorem buddy_mem_parent (hp : p ∈ G.dom) (hs : G.start k p = p) :
    G.buddy k p ∈ G.tile (k + 1) p := by
  have h2 : 2 ^ (k + 1) = 2 * 2 ^ k := by rw [Nat.pow_succ, Nat.mul_comm]
  have hpos := Nat.two_pow_pos k
  rw [mem_tile]
  rcases buddy_cases hp hs with ⟨hb, hst⟩ | ⟨hb, hst⟩ <;> omega

theorem buddy_root (hp : p ∈ G.dom) (hs : G.start k p = p) (hk : k < G.top p) :
    G.buddy k p ∈ G.dom ∧ G.base (G.buddy k p) = G.base p ∧ G.top (G.buddy k p) = G.top p :=
  root_of_mem_tile hp hk (buddy_mem_parent hp hs)

theorem start_buddy (hp : p ∈ G.dom) (hs : G.start k p = p) (hk : k < G.top p) :
    G.start k (G.buddy k p) = G.buddy k p := by
  obtain ⟨hd, hb, -⟩ := buddy_root hp hs hk
  have hdvd := dvd_of_start hp hs
  refine (tileStart_self_iff (G.base_le _ hd)).mpr ?_
  rw [hb]
  have hle := G.base_le p hp
  have hble := G.base_le _ hd
  rw [hb] at hble
  rcases buddy_cases hp hs with ⟨he, -⟩ | ⟨he, -⟩
  · rw [he, Nat.sub_add_comm hle]
    exact (Nat.dvd_add_right hdvd).mpr (dvd_refl _)
  · have hsub : p - G.base p = G.buddy k p - G.base p + 2 ^ k := by omega
    rw [hsub] at hdvd
    exact (Nat.dvd_add_left (dvd_refl _)).mp hdvd

theorem buddy_ne (hp : p ∈ G.dom) (hs : G.start k p = p) : G.buddy k p ≠ p := by
  have hpos := Nat.two_pow_pos k
  rcases buddy_cases hp hs with ⟨he, -⟩ | ⟨he, -⟩ <;> omega

/-- Being the buddy is symmetric. -/
theorem buddy_buddy (hp : p ∈ G.dom) (hs : G.start k p = p) (hk : k < G.top p) :
    G.buddy k (G.buddy k p) = p := by
  obtain ⟨hd, -, ht⟩ := buddy_root hp hs hk
  have hpar : G.start (k + 1) (G.buddy k p) = G.start (k + 1) p :=
    start_eq_of_mem hp hk (buddy_mem_parent hp hs)
  have hpos := Nat.two_pow_pos k
  rcases buddy_cases hp hs with ⟨he, hst⟩ | ⟨he, hst⟩ <;>
    rcases buddy_cases hd (start_buddy hp hs hk) with ⟨he', hst'⟩ | ⟨he', hst'⟩ <;> omega

/-- A point of the parent lies in the tile or in its buddy. -/
theorem mem_parent_iff (hp : p ∈ G.dom) (hs : G.start k p = p) (hk : k < G.top p) :
    y ∈ G.tile (k + 1) p ↔ y ∈ G.tile k p ∨ y ∈ G.tile k (G.buddy k p) := by
  have h2 : 2 ^ (k + 1) = 2 * 2 ^ k := by rw [Nat.pow_succ, Nat.mul_comm]
  have hsb := start_buddy hp hs hk
  simp only [mem_tile, hs, hsb]
  rcases buddy_cases hp hs with ⟨hb, hst⟩ | ⟨hb, hst⟩ <;> omega

/-! ### Tilings -/

/-- An order for every point that is constant on the tile it selects. -/
structure Tiling (G : Grid) (k : ℕ → ℕ) : Prop where
  le_top : ∀ x ∈ G.dom, k x ≤ G.top x
  const : ∀ x ∈ G.dom, ∀ y ∈ G.tile (k x) x, k y = k x

/-- The roots themselves are a tiling. -/
theorem tiling_top (G : Grid) : G.Tiling G.top where
  le_top _ _ := le_refl _
  const _ hx _ hy := (root_of_mem_tile hx (le_refl _) hy).2.2

namespace Tiling

variable {k : ℕ → ℕ} {n : ℕ}

theorem mem_dom (h : G.Tiling k) (hx : x ∈ G.dom) (hy : y ∈ G.tile (k x) x) : y ∈ G.dom :=
  (root_of_mem_tile hx (h.le_top x hx) hy).1

theorem start_eq (h : G.Tiling k) (hx : x ∈ G.dom) (hy : y ∈ G.tile (k x) x) :
    G.start (k y) y = G.start (k x) x := by
  rw [h.const x hx y hy]
  exact start_eq_of_mem hx (h.le_top x hx) hy

/-- The relation "`y` lies in the tile of `x`" is symmetric. -/
theorem mem_symm (h : G.Tiling k) (hx : x ∈ G.dom) (hy : y ∈ G.tile (k x) x) :
    x ∈ G.tile (k y) y := by
  rw [h.const x hx y hy, tile_eq_of_mem hx (h.le_top x hx) hy]
  exact mem_tile_self hx

/-- The tile of a point is named by its start. -/
theorem start_spec (h : G.Tiling k) (hx : x ∈ G.dom) :
    G.start (k x) x ∈ G.dom ∧ k (G.start (k x) x) = k x ∧
      G.start (k (G.start (k x) x)) (G.start (k x) x) = G.start (k x) x :=
  ⟨h.mem_dom hx start_mem_tile, h.const x hx _ start_mem_tile, h.start_eq hx start_mem_tile⟩

/-- **Halving a tile leaves a tiling.** -/
theorem split (h : G.Tiling k) (hp : p ∈ G.dom) (hk : k p = n + 1) [DecidablePred (· ∈ G.tile (n + 1) p)] :
    G.Tiling fun y => if y ∈ G.tile (n + 1) p then n else k y := by
  have htop : n + 1 ≤ G.top p := hk ▸ h.le_top p hp
  constructor
  · intro x hx
    split
    · next hm =>
      rw [(root_of_mem_tile hp htop hm).2.2]
      omega
    · exact h.le_top x hx
  · intro x hx y hy
    by_cases hm : x ∈ G.tile (n + 1) p
    · rw [if_pos hm] at hy ⊢
      have hy' := tile_mono (Nat.le_succ n) hy
      rw [tile_eq_of_mem hp htop hm] at hy'
      rw [if_pos hy']
    · rw [if_neg hm] at hy ⊢
      rw [if_neg, h.const x hx y hy]
      intro hyp
      -- `y` lies in the tile that is halved, hence so does `x`
      have hky : k y = n + 1 := by rw [← hk]; exact h.const p hp y (by rw [hk]; exact hyp)
      refine hm ?_
      have hxy := h.mem_symm hx hy
      rwa [hky, tile_eq_of_mem hp htop hyp] at hxy

/-- **Joining a tile with its buddy leaves a tiling.** -/
theorem merge (h : G.Tiling k) (hp : p ∈ G.dom) (hs : G.start n p = p) (hk : k p = n)
    (hn : n < G.top p) (hb : k (G.buddy n p) = n) [DecidablePred (· ∈ G.tile (n + 1) p)] :
    G.Tiling fun y => if y ∈ G.tile (n + 1) p then n + 1 else k y := by
  obtain ⟨hbd, -, hbt⟩ := buddy_root hp hs hn
  constructor
  · intro x hx
    split
    · next hm =>
      rw [(root_of_mem_tile hp hn hm).2.2]
      exact hn
    · exact h.le_top x hx
  · intro x hx y hy
    by_cases hm : x ∈ G.tile (n + 1) p
    · rw [if_pos hm] at hy ⊢
      rw [tile_eq_of_mem hp hn hm] at hy
      rw [if_pos hy]
    · rw [if_neg hm] at hy ⊢
      rw [if_neg, h.const x hx y hy]
      intro hyp
      -- `y` lies in one of the two halves, hence so does `x`
      refine hm ((mem_parent_iff hp hs hn).mpr ?_)
      have hxy := h.mem_symm hx hy
      rcases (mem_parent_iff hp hs hn).mp hyp with hc | hc
      · left
        have hky : k y = n := by rw [← hk]; exact h.const p hp y (by rw [hk]; exact hc)
        rwa [hky, tile_eq_of_mem hp hn.le hc] at hxy
      · right
        have hky : k y = n := by rw [← hb]; exact h.const _ hbd y (by rw [hb]; exact hc)
        rwa [hky, tile_eq_of_mem hbd (by rw [hbt]; exact hn.le) hc] at hxy

/--
**A tiling without two equal buddies consists of the roots.**

Take a point of smallest order in its root. Its buddy has no smaller order and not the same one, so
the buddy's tile contains the parent, which contains the point.
-/
theorem full (h : G.Tiling k)
    (hno : ∀ p ∈ G.dom, G.start (k p) p = p → k p < G.top p → k (G.buddy (k p) p) ≠ k p) :
    ∀ x ∈ G.dom, k x = G.top x := by
  suffices hmin : ∀ n, ∀ x ∈ G.dom, k x = n → k x = G.top x from fun x hx => hmin _ x hx rfl
  intro n
  induction n using Nat.strongRecOn with
  | _ n ih =>
    intro x hx hkx
    obtain ⟨hpd, hkp, hps⟩ := h.start_spec hx
    have htop : G.top (G.start (k x) x) = G.top x :=
      (root_of_mem_tile hx (h.le_top x hx) start_mem_tile).2.2
    generalize G.start (k x) x = p at hpd hkp hps htop
    by_contra hne
    have hlt : k p < G.top p := by
      have := h.le_top x hx
      omega
    obtain ⟨hbd, -, hbt⟩ := buddy_root hpd hps hlt
    rcases Nat.lt_trichotomy (k (G.buddy (k p) p)) (k p) with hc | hc | hc
    · have := ih _ (by omega) _ hbd rfl
      omega
    · exact hno p hpd hps hlt hc
    · have hpb : p ∈ G.tile (k (G.buddy (k p) p)) (G.buddy (k p) p) := by
        refine tile_mono hc ?_
        rw [tile_eq_of_mem hpd hlt (buddy_mem_parent hpd hps)]
        exact mem_tile_self hpd
      have := h.const _ hbd p hpb
      omega

end Tiling

end Grid

end Chickadee.Lib
