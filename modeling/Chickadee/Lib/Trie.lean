import Mathlib

/-!
# Tries in memory

A node is a page of entries, and an entry may lead to a node below it. The digits of a key say which entry the
path of the key takes at each depth. A node that belongs to one path alone is met at one depth, by the keys with
the same digits up to there.
-/

namespace Chickadee.Lib.Trie

variable {κ N E : Type*} {sub : E → Option N} {digit : κ → ℕ → ℕ} {m m' : N → ℕ → E} {root : N}

variable (sub digit m root) in
/-- The node that the path of a key meets at a depth. -/
def node (k : κ) : ℕ → Option N
  | 0 => some root
  | d + 1 => (node k d).bind fun t => sub (m t (digit k d))

@[simp] theorem node_zero (k : κ) : node sub digit m root k 0 = some root := rfl

theorem node_succ (k : κ) (d : ℕ) : node sub digit m root k (d + 1)
    = (node sub digit m root k d).bind fun t => sub (m t (digit k d)) := rfl

theorem node_succ_of_node {k : κ} {d : ℕ} {t : N} (ht : node sub digit m root k d = some t) :
    node sub digit m root k (d + 1) = sub (m t (digit k d)) := by
  rw [node_succ, ht, Option.bind_some]

theorem exists_node_of_succ {k : κ} {d : ℕ} {u : N} (hu : node sub digit m root k (d + 1) = some u) :
    ∃ t, node sub digit m root k d = some t ∧ sub (m t (digit k d)) = some u := by
  rw [node_succ, Option.bind_eq_some_iff] at hu
  exact hu

/-- Above a node that is there, the path has nodes at all depths. -/
theorem exists_node_of_le {k : κ} {d e : ℕ} {u : N} (hu : node sub digit m root k e = some u) (hd : d ≤ e) :
    ∃ t, node sub digit m root k d = some t := by
  induction e generalizing u with
  | zero =>
    obtain rfl : d = 0 := by omega
    exact ⟨u, hu⟩
  | succ e ih =>
    by_cases hde : d = e + 1
    · exact ⟨u, by rw [hde, hu]⟩
    · obtain ⟨t, ht, -⟩ := exists_node_of_succ hu
      exact ih ht (by omega)

/-- A node depends on the digits above it. -/
theorem node_congr_digit {k k' : κ} {d : ℕ} (h : ∀ j < d, digit k' j = digit k j) :
    node sub digit m root k' d = node sub digit m root k d := by
  induction d with
  | zero => rfl
  | succ d ih =>
    rw [node_succ, node_succ, ih fun j hj => h j (by omega), h d (by omega)]

/-- A node depends on the entries of its path above it. -/
theorem node_congr {k : κ} {d : ℕ}
    (h : ∀ j < d, ∀ t, node sub digit m root k j = some t → sub (m' t (digit k j)) = sub (m t (digit k j))) :
    node sub digit m' root k d = node sub digit m root k d := by
  induction d with
  | zero => rfl
  | succ d ih =>
    rw [node_succ, node_succ, ih fun j hj => h j (by omega)]
    cases ht : node sub digit m root k d with
    | none => rfl
    | some t => exact h d (by omega) t ht

/-- Below a root that has the entries of another one or none, the nodes are those below the other one. -/
theorem node_of_root {root' : N} {k : κ} {d : ℕ} {u : N}
    (hroot : ∀ t, sub (m' root' (digit k 0)) = some t → sub (m root (digit k 0)) = some t)
    (hm : ∀ e t, 0 < e → e ≤ d → node sub digit m root k e = some t → m' t = m t)
    (hu : node sub digit m' root' k (d + 1) = some u) : node sub digit m root k (d + 1) = some u := by
  induction d generalizing u with
  | zero => exact hroot u hu
  | succ d ih =>
    obtain ⟨t, ht, hsub⟩ := exists_node_of_succ hu
    have hold := ih (fun e t hpos he => hm e t hpos (by omega)) ht
    rw [node_succ_of_node hold, ← hm _ t (by omega) le_rfl hold]
    exact hsub

variable (sub digit m root) in
/-- The nodes below the root, to depth `D`, on the paths of the keys in `K`: no other path meets one of them. -/
def Owned (D : ℕ) (K : κ → Prop) : Prop :=
  ∀ ⦃k k' : κ⦄ ⦃d d' : ℕ⦄ ⦃t : N⦄, K k → 0 < d → d ≤ D → d' ≤ D → node sub digit m root k d = some t →
    node sub digit m root k' d' = some t → d' = d ∧ ∀ j < d, digit k' j = digit k j

theorem Owned.congr {D : ℕ} {K : κ → Prop} (ho : Owned sub digit m root D K)
    (h : ∀ k d, d ≤ D → node sub digit m' root k d = node sub digit m root k d) : Owned sub digit m' root D K := by
  intro k k' d d' t hk hpos hd hd' ht ht'
  rw [h k d hd] at ht
  rw [h k' d' hd'] at ht'
  exact ho hk hpos hd hd' ht ht'

/-! ## A tree, all of whose nodes are owned -/

section Tree

variable {D d : ℕ} {k k' : κ} {t p : N}

/-- The root is met nowhere below. -/
theorem Owned.depth_eq (ho : Owned sub digit m root D fun _ => True) {d' : ℕ} (hd : d ≤ D) (hd' : d' ≤ D)
    (ht : node sub digit m root k d = some t) (ht' : node sub digit m root k' d' = some t) :
    d' = d ∧ ∀ j < d, digit k' j = digit k j := by
  rcases Nat.eq_zero_or_pos d with rfl | hpos
  · rcases Nat.eq_zero_or_pos d' with rfl | hpos'
    · exact ⟨rfl, by simp⟩
    · exact absurd (ho trivial hpos' hd' (by omega) ht' ht).1 (by omega)
  · exact ho trivial hpos hd hd' ht ht'

/-- An entry that is written leaves the nodes that are not below it. -/
theorem Owned.node_eq (ho : Owned sub digit m root D fun _ => True) (hd : d ≤ D)
    (ht : node sub digit m root k d = some t) {d' : ℕ} (hd' : d' ≤ D)
    (hm : ∀ u j, (∃ k e, e ≤ D ∧ node sub digit m root k e = some u) → (u ≠ t ∨ j ≠ digit k d) → m' u j = m u j)
    (hoff : d' ≤ d ∨ ∃ j ≤ d, digit k' j ≠ digit k j) :
    node sub digit m' root k' d' = node sub digit m root k' d' := by
  refine node_congr fun j hj u hu => ?_
  rw [hm u _ ⟨k', j, by omega, hu⟩]
  by_cases hut : u = t
  · subst hut
    obtain ⟨rfl, hdigit⟩ := ho.depth_eq hd (by omega) ht hu
    rcases hoff with hle | ⟨i, hi, hne⟩
    · omega
    · rcases Nat.lt_or_ge i j with hlt | hge
      · exact absurd (hdigit i hlt) hne
      · obtain rfl : i = j := by omega
        exact .inr hne
  · exact .inl hut

/-- `m'` is `m` after the entry of `k` in its node at depth `d`, which led nowhere, has been made to lead to a
blank page that was no node. -/
structure Link (sub : E → Option N) (digit : κ → ℕ → ℕ) (m m' : N → ℕ → E) (root : N) (D : ℕ) (k : κ) (d : ℕ)
    (t p : N) : Prop where
  depth : d < D
  node : Trie.node sub digit m root k d = some t
  absent : sub (m t (digit k d)) = none
  linked : sub (m' t (digit k d)) = some p
  blank : ∀ j, sub (m' p j) = none
  fresh : ∀ k' d', d' ≤ D → Trie.node sub digit m root k' d' ≠ some p
  frame : ∀ u j, u ≠ p → (u ≠ t ∨ j ≠ digit k d) → m' u j = m u j

/-- The paths that do not go through the new entry are as before. -/
theorem Link.node_off (hl : Link sub digit m m' root D k d t p) (ho : Owned sub digit m root D fun _ => True)
    {d' : ℕ} (hd' : d' ≤ D) (hoff : d' ≤ d ∨ ∃ j ≤ d, digit k' j ≠ digit k j) :
    Trie.node sub digit m' root k' d' = Trie.node sub digit m root k' d' := by
  refine ho.node_eq hl.depth.le hl.node hd' (fun u j hu hne => ?_) hoff
  obtain ⟨k₁, e, he, hu⟩ := hu
  refine hl.frame u j ?_ hne
  rintro rfl
  exact hl.fresh k₁ e he hu

/-- Those that do go through it meet the new page, and nothing below. -/
theorem Link.node_on (hl : Link sub digit m m' root D k d t p) (ho : Owned sub digit m root D fun _ => True)
    (hon : ∀ j ≤ d, digit k' j = digit k j) : Trie.node sub digit m' root k' (d + 1) = some p := by
  have ht : Trie.node sub digit m' root k' d = some t := by
    rw [hl.node_off ho hl.depth.le (.inl le_rfl), node_congr_digit fun j hj => hon j (by omega), hl.node]
  rw [node_succ_of_node ht, hon d le_rfl, hl.linked]

theorem Link.node_below (hl : Link sub digit m m' root D k d t p) (ho : Owned sub digit m root D fun _ => True)
    (hon : ∀ j ≤ d, digit k' j = digit k j) {e : ℕ} (he : d + 1 < e) :
    Trie.node sub digit m' root k' e = none := by
  cases hu : Trie.node sub digit m' root k' e with
  | none => rfl
  | some u =>
    obtain ⟨v, hv⟩ := exists_node_of_le hu (show d + 2 ≤ e by omega)
    rw [node_succ_of_node (hl.node_on ho hon), hl.blank] at hv
    cases hv

/-- A node after the link is one from before it or the new page. -/
theorem Link.node_cases (hl : Link sub digit m m' root D k d t p) (ho : Owned sub digit m root D fun _ => True)
    {d' : ℕ} {u : N} (hd' : d' ≤ D) (hu : Trie.node sub digit m' root k' d' = some u) :
    Trie.node sub digit m root k' d' = some u ∨ (u = p ∧ d' = d + 1 ∧ ∀ j ≤ d, digit k' j = digit k j) := by
  by_cases hoff : d' ≤ d ∨ ∃ j ≤ d, digit k' j ≠ digit k j
  · rw [hl.node_off ho hd' hoff] at hu
    exact .inl hu
  · simp only [not_or, not_le, not_exists, not_and, not_not] at hoff
    obtain ⟨hlt, hon⟩ := hoff
    by_cases hdepth : d' = d + 1
    · subst hdepth
      rw [hl.node_on ho hon] at hu
      cases hu
      exact .inr ⟨rfl, rfl, hon⟩
    · rw [hl.node_below ho hon (by omega)] at hu
      cases hu

/-- The nodes from before it are where they were. -/
theorem Link.node_mono (hl : Link sub digit m m' root D k d t p) (ho : Owned sub digit m root D fun _ => True)
    {d' : ℕ} {u : N} (hd' : d' ≤ D) (hu : Trie.node sub digit m root k' d' = some u) :
    Trie.node sub digit m' root k' d' = some u := by
  by_cases hoff : d' ≤ d ∨ ∃ j ≤ d, digit k' j ≠ digit k j
  · rw [hl.node_off ho hd' hoff, hu]
  · simp only [not_or, not_le, not_exists, not_and, not_not] at hoff
    obtain ⟨hlt, hon⟩ := hoff
    obtain ⟨v, hv⟩ := exists_node_of_le hu (show d + 1 ≤ d' by omega)
    have ht : Trie.node sub digit m root k' d = some t := by
      rw [node_congr_digit fun j hj => hon j (by omega), hl.node]
    rw [node_succ_of_node ht, hon d le_rfl, hl.absent] at hv
    cases hv

/-- A tree with a new page is a tree. -/
theorem Link.owned (hl : Link sub digit m m' root D k d t p) (ho : Owned sub digit m root D fun _ => True) :
    Owned sub digit m' root D fun _ => True := by
  intro k₁ k₂ d₁ d₂ u _ hpos hd₁ hd₂ hu₁ hu₂
  rcases hl.node_cases ho hd₁ hu₁ with h₁ | ⟨rfl, rfl, h₁⟩
  · rcases hl.node_cases ho hd₂ hu₂ with h₂ | ⟨rfl, rfl, h₂⟩
    · exact ho trivial hpos hd₁ hd₂ h₁ h₂
    · exact absurd h₁ (hl.fresh k₁ d₁ hd₁)
  · rcases hl.node_cases ho hd₂ hu₂ with h₂ | ⟨-, rfl, h₂⟩
    · exact absurd h₂ (hl.fresh k₂ d₂ hd₂)
    · exact ⟨rfl, fun j hj => by rw [h₂ j (by omega), h₁ j (by omega)]⟩

/-- A page that was no node and is not the new one is no node afterwards. -/
theorem Link.fresh_of_ne (hl : Link sub digit m m' root D k d t p) (ho : Owned sub digit m root D fun _ => True)
    {q : N} (hq : ∀ k' d', d' ≤ D → Trie.node sub digit m root k' d' ≠ some q) (hne : q ≠ p) :
    ∀ k' d', d' ≤ D → Trie.node sub digit m' root k' d' ≠ some q := by
  intro k' d' hd' hnode
  rcases hl.node_cases ho hd' hnode with h | ⟨rfl, -, -⟩
  · exact hq k' d' hd' h
  · exact hne rfl

end Tree

end Chickadee.Lib.Trie
