import Chickadee.Lib.Links
import Chickadee.Lists.Links

/-!
# What the operations on `list_links` do to the rings

Every list is a ring from its head along its elements. `insert_before` and `erase` exchange a piece of a ring,
`swap` gives two rings each the other's head, and every other ring stays as it is.
-/

namespace Chickadee.Lists

open Lib

variable {L T : Type*} [DecidableEq L] [DecidableEq T] {m m' : Mem L T} {c : Contents L T} {l other : L} {x : T}
  {xs ys zs : List T} {p q : Node L T} {v : Option (Node L T)}

namespace Mem

@[simp] theorem setNext_next : (m.setNext p v q).next_ = if q = p then v else (m q).next_ := by
  unfold setNext
  by_cases hq : q = p <;> simp [hq]

@[simp] theorem setNext_prev : (m.setNext p v q).prev_ = (m q).prev_ := by
  unfold setNext
  by_cases hq : q = p <;> simp [hq]

@[simp] theorem setPrev_next : (m.setPrev p v q).next_ = (m q).next_ := by
  unfold setPrev
  by_cases hq : q = p <;> simp [hq]

@[simp] theorem setPrev_prev : (m.setPrev p v q).prev_ = if q = p then v else (m q).prev_ := by
  unfold setPrev
  by_cases hq : q = p <;> simp [hq]

theorem reset_self : m.reset p p = ⟨none, none⟩ := by
  simp [reset]

theorem reset_of_ne (h : q ≠ p) : m.reset p q = m q := by
  simp [reset, h]

theorem setNext_of_ne (h : q ≠ p) : m.setNext p v q = m q := by
  simp [setNext, h]

theorem setPrev_of_ne (h : q ≠ p) : m.setPrev p v q = m q := by
  simp [setPrev, h]

end Mem

/-! ## Memory and contents -/

omit [DecidableEq L] [DecidableEq T]

/-- The head of a list and the links of its elements. -/
def nodes (l : L) (xs : List T) : List (Node L T) := .head l :: xs.map .links

/-- The list `l` has the elements `xs`. -/
def Holds (m : Mem L T) (l : L) (xs : List T) : Prop :=
  Links.Ring (fun p => (m p).next_) (fun p => (m p).prev_) (.head l) (xs.map .links)

/-- **The lists are well formed, with these contents**, and no other element is linked. -/
structure Rep (m : Mem L T) (c : Contents L T) : Prop where
  ring : ∀ l, Holds m l (c l)
  nodup : ∀ l, (c l).Nodup
  apart : ∀ l l' x, x ∈ c l → x ∈ c l' → l = l'
  free : ∀ x, c.Unlinked x → m (.links x) = ⟨none, none⟩

theorem mem_nodes : p ∈ nodes l xs ↔ p = .head l ∨ ∃ x ∈ xs, Node.links x = p := by
  simp [nodes]

theorem links_mem_nodes : Node.links x ∈ nodes l xs ↔ x ∈ xs := by
  simp [nodes]

theorem nodes_concat (l : L) (ys : List T) (x : T) : nodes l (ys ++ [x]) = nodes l ys ++ [.links x] := by
  simp [nodes]

theorem nodup_nodes (h : xs.Nodup) : (nodes l xs).Nodup := by
  have hmap : (xs.map (Node.links (L := L))).Nodup := h.map fun a b hab => Node.links.inj hab
  simpa [nodes] using hmap

theorem nodup_turned (h : xs.Nodup) : (xs.map Node.links ++ [Node.head l]).Nodup :=
  (List.perm_append_singleton _ _).nodup_iff.mpr (nodup_nodes h)

theorem mem_turned : p ∈ xs.map Node.links ++ [Node.head l] ↔ p ∈ nodes l xs :=
  (List.perm_append_singleton _ _).mem_iff

theorem Rep.disjoint (h : Rep m c) {l' : L} (hne : l' ≠ l) (hp : p ∈ nodes l' (c l')) : p ∉ nodes l (c l) := by
  rw [mem_nodes] at hp ⊢
  rintro (rfl | ⟨x, hx, rfl⟩)
  · simp [hne.symm] at hp
  · obtain ⟨y, hy, hyx⟩ := hp.resolve_left (by simp)
    obtain rfl : y = x := Node.links.inj hyx
    exact hne (h.apart _ _ _ hy hx)

/-- **What an operation on one list has to do**: it makes that list a ring again and touches no other. -/
theorem Rep.change [DecidableEq L] (h : Rep m c) (hring : Holds m' l ys) (hnodup : ys.Nodup)
    (hsub : ∀ x ∈ ys, x ∈ c l ∨ c.Unlinked x)
    (hframe : ∀ p, p ∉ nodes l (c l) → p ∉ nodes l ys → m' p = m p)
    (hfree : ∀ x ∈ c l, x ∉ ys → m' (.links x) = ⟨none, none⟩) : Rep m' (Function.update c l ys) := by
  have hother : ∀ l' x, l' ≠ l → x ∈ c l' → x ∉ ys := by
    intro l' x hne hx hys
    rcases hsub x hys with hmem | hun
    · exact hne (h.apart _ _ _ hx hmem)
    · exact hun l' hx
  refine ⟨fun l' => ?_, fun l' => ?_, fun l₁ l₂ x h₁ h₂ => ?_, fun x hx => ?_⟩
  · by_cases hl : l' = l
    · subst hl
      rwa [Function.update_self]
    · rw [Function.update_of_ne hl]
      have hsame : ∀ p ∈ nodes l' (c l'), m' p = m p := by
        intro p hp
        refine hframe p (h.disjoint hl hp) fun hys => ?_
        rw [mem_nodes] at hp hys
        rcases hp with rfl | ⟨x, hx, rfl⟩
        · simp [hl] at hys
        · obtain ⟨y, hy, hyx⟩ := hys.resolve_left (by simp)
          obtain rfl : y = x := Node.links.inj hyx
          exact hother l' y hl hx hy
      exact (h.ring l').congr (fun p hp => by rw [hsame p hp]) fun p hp => by rw [hsame p hp]
  · by_cases hl : l' = l
    · subst hl
      rwa [Function.update_self]
    · rw [Function.update_of_ne hl]
      exact h.nodup l'
  · simp only [Function.update_apply] at h₁ h₂
    split_ifs at h₁ h₂ with e₁ e₂ e₂
    · rw [e₁, e₂]
    · exact absurd h₁ (hother l₂ x e₂ h₂)
    · exact absurd h₂ (hother l₁ x e₁ h₁)
    · exact h.apart _ _ _ h₁ h₂
  · have hys : x ∉ ys := by simpa using hx l
    by_cases hmem : x ∈ c l
    · exact hfree x hmem hys
    · have hun : c.Unlinked x := by
        intro l' hx'
        by_cases hl : l' = l
        · subst hl
          exact hmem hx'
        · exact hx l' (by rwa [Function.update_of_ne hl])
      rw [hframe _ (by rwa [links_mem_nodes]) (by rwa [links_mem_nodes]), h.free x hun]

/-- The nodes on both sides of a place in a list. -/
theorem exists_ends (l : L) (ys zs : List T) : ∃ l₁ p q l₂, nodes l ys = l₁ ++ [p] ∧
    zs.map Node.links ++ [Node.head l] = q :: l₂ := by
  obtain ⟨l₁, p, hp⟩ : ∃ l₁ p, nodes l ys = l₁ ++ [p] := by
    rcases List.eq_nil_or_concat (nodes l ys) with hnil | ⟨l₁, p, hp⟩
    · simp [nodes] at hnil
    · exact ⟨l₁, p, by simpa using hp⟩
  cases zs with
  | nil => exact ⟨l₁, p, .head l, [], hp, rfl⟩
  | cons z zs => exact ⟨l₁, p, .links z, zs.map .links ++ [.head l], hp, rfl⟩

/-- A ring cut at both ends of its part `mid`. -/
theorem cut_eq (mid : List T) {l₁ l₂ : List (Node L T)} (hp : nodes l ys = l₁ ++ [p])
    (hq : zs.map Node.links ++ [Node.head l] = q :: l₂) :
    nodes l (ys ++ mid ++ zs) ++ [.head l] = l₁ ++ p :: (mid.map .links ++ q :: l₂) := by
  have hnodes : nodes l (ys ++ mid ++ zs) = nodes l ys ++ (mid.map .links ++ zs.map .links) := by simp [nodes]
  rw [hnodes, hp, ← hq]
  simp

theorem end_mem_nodes {mid : List T} {l₁ : List (Node L T)} (hp : nodes l ys = l₁ ++ [p]) :
    p ∈ nodes l (ys ++ mid ++ zs) := by
  have hmem : p ∈ nodes l ys := by simp [hp]
  rw [mem_nodes] at hmem ⊢
  rcases hmem with rfl | ⟨y, hy, rfl⟩
  · exact Or.inl rfl
  · exact Or.inr ⟨y, by simp [hy], rfl⟩

theorem start_mem_nodes {mid : List T} {l₂ : List (Node L T)} (hq : zs.map Node.links ++ [Node.head l] = q :: l₂) :
    q ∈ nodes l (ys ++ mid ++ zs) := by
  have hmem : q ∈ nodes l zs := mem_turned.mp (by simp [hq])
  rw [mem_nodes] at hmem ⊢
  rcases hmem with rfl | ⟨y, hy, rfl⟩
  · exact Or.inl rfl
  · exact Or.inr ⟨y, by simp [hy], rfl⟩

/--
**A part of a list is exchanged**, when only the `next_` of the node before it, the `prev_` of the node after it and
the links of the elements of both parts change.
-/
theorem Holds.splice (mid mid' : List T) {l₁ l₂ : List (Node L T)} (h : Holds m l (ys ++ mid ++ zs))
    (hnodup : (ys ++ mid ++ zs).Nodup) (hp : nodes l ys = l₁ ++ [p])
    (hq : zs.map Node.links ++ [Node.head l] = q :: l₂)
    (hnext : ∀ y ∈ nodes l (ys ++ mid ++ zs), y ≠ p → y ∉ mid.map Node.links → (m' y).next_ = (m y).next_)
    (hprev : ∀ y ∈ nodes l (ys ++ mid ++ zs), y ≠ q → y ∉ mid.map Node.links → (m' y).prev_ = (m y).prev_)
    (hmid : (p :: mid'.map .links ++ [q]).IsChain
      (Links.Linked (fun p => (m' p).next_) (fun p => (m' p).prev_))) : Holds m' l (ys ++ mid' ++ zs) := by
  have hcut := cut_eq mid hp hq
  have hturned : (l₁ ++ p :: (mid.map .links ++ q :: l₂)).tail =
      (ys ++ mid ++ zs).map Node.links ++ [Node.head l] := by
    rw [← hcut]
    rfl
  have hring : (l₁ ++ p :: (mid.map .links ++ q :: l₂)).IsChain
      (Links.Linked (fun p => (m p).next_) (fun p => (m p).prev_)) := by
    rw [← hcut]
    exact h
  have hnew := Links.chain_splice hring ?_ ?_ ?_ ?_ hmid
  · rw [← cut_eq mid' hp hq] at hnew
    exact hnew
  · rw [← hcut, List.dropLast_concat]
    exact nodup_nodes hnodup
  · rw [hturned]
    exact nodup_turned hnodup
  · rw [← hcut, List.dropLast_concat]
    exact hnext
  · rw [hturned]
    exact fun y hy => hprev y (mem_turned.mp hy)

/-- A node of a list is linked on both sides. -/
theorem Rep.linked (h : Rep m c) (hp : p ∈ nodes l (c l)) :
    ∃ q r, (m p).next_ = some q ∧ (m p).prev_ = some r := by
  obtain ⟨q, -, hq, -⟩ := (h.ring l).exists_next hp
  obtain ⟨r, -, -, hr⟩ := (h.ring l).exists_prev hp
  exact ⟨q, r, hq, hr⟩

/-- Neighbours in a list. -/
theorem Holds.neighbours (ys zs : List T) {l₁ l₂ : List (Node L T)}
    (h : Holds m l (ys ++ zs)) (hp : nodes l ys = l₁ ++ [p])
    (hq : zs.map Node.links ++ [Node.head l] = q :: l₂) : (m p).next_ = some q ∧ (m q).prev_ = some p := by
  refine Links.Ring.linked h l₁ l₂ ?_
  have hcut := cut_eq [] hp hq
  simpa [nodes] using hcut

section

variable [DecidableEq L] [DecidableEq T]

/-- **`insert_before` puts an element between its position and the node before that.** -/
theorem Rep.insert_before (ys zs : List T) (h : Rep m c) (hc : c l = ys ++ zs) (hx : c.Unlinked x) {l₂ : List (Node L T)}
    (hq : zs.map Node.links ++ [Node.head l] = q :: l₂) :
    ∃ m', m.insert_before (.links x) (some q) = some m' ∧ Rep m' (Function.update c l (ys ++ [x] ++ zs)) := by
  obtain ⟨l₁, p, -, -, hp, -⟩ := exists_ends l ys zs
  have hc' : c l = ys ++ [] ++ zs := by simp [hc]
  have hpmem : p ∈ nodes l (c l) := hc' ▸ end_mem_nodes hp
  have hqmem : q ∈ nodes l (c l) := hc' ▸ start_mem_nodes hq
  have hxmem : Node.links x ∉ nodes l (c l) := by
    rw [links_mem_nodes]
    exact hx l
  have hxp : Node.links x ≠ p := fun he => hxmem (he ▸ hpmem)
  have hxq : Node.links x ≠ q := fun he => hxmem (he ▸ hqmem)
  obtain ⟨hpq, hqp⟩ : (m p).next_ = some q ∧ (m q).prev_ = some p := by
    have hring := h.ring l
    rw [hc] at hring
    exact hring.neighbours ys zs hp hq
  obtain ⟨r, -, hqr, -⟩ := h.linked hqmem
  set m' := (((m.setPrev (.links x) (some p)).setNext (.links x) (some q)).setNext p (some (.links x))).setPrev q
    (some (.links x)) with hm'
  refine ⟨m', ?_, ?_⟩
  · unfold Mem.insert_before
    simp only [hqr, hqp, h.free x hx]
    rfl
  have hpmid : (m' p).next_ = some (.links x) := by simp [hm']
  have hqmid : (m' q).prev_ = some (.links x) := by simp [hm']
  have hxnext : (m' (.links x)).next_ = some q := by simp [hm', hxp]
  have hxprev : (m' (.links x)).prev_ = some p := by simp [hm', hxq]
  refine h.change ?_ ?_ (fun y hy => ?_) (fun y hy hy' => ?_) (fun y hy hy' => ?_)
  · refine Holds.splice (m := m) [] [x] (by simpa [hc] using h.ring l) (by simpa [hc] using h.nodup l) hp hq
      (fun y hy hyp _ => ?_) (fun y hy hyq _ => ?_) ?_
    · have hyx : y ≠ .links x := fun he => hxmem (by rw [hc', ← he]; exact hy)
      simp [hm', hyp, hyx]
    · have hyx : y ≠ .links x := fun he => hxmem (by rw [hc', ← he]; exact hy)
      simp [hm', hyq, hyx]
    · simp [Links.Linked, hpmid, hqmid, hxnext, hxprev]
  · have hnodup := h.nodup l
    have hno : x ∉ ys ++ zs := hc ▸ hx l
    rw [hc] at hnodup
    rw [List.append_assoc, List.singleton_append]
    exact List.nodup_middle.mpr (List.nodup_cons.mpr ⟨hno, hnodup⟩)
  · by_cases hyx : y = x
    · exact Or.inr (hyx ▸ hx)
    · exact Or.inl (by simpa [hc, hyx] using hy)
  · have hyp : y ≠ p := fun he => hy (he ▸ hpmem)
    have hyq : y ≠ q := fun he => hy (he ▸ hqmem)
    have hyx : y ≠ .links x := by
      rintro rfl
      exact hy' (by simp [links_mem_nodes])
    rw [hm', Mem.setPrev_of_ne hyq, Mem.setNext_of_ne hyp, Mem.setNext_of_ne hyx, Mem.setPrev_of_ne hyx]
  · exact absurd (by simpa [hc, or_comm, or_left_comm] using Or.inr hy) hy'

/-- **`erase` takes an element out of its list.** -/
theorem Rep.erase (ys zs : List T) (h : Rep m c) (hc : c l = ys ++ [x] ++ zs) :
    ∃ m', m.erase x = some m' ∧ Rep m' (Function.update c l (ys ++ zs)) := by
  obtain ⟨l₁, p, q, l₂, hp, hq⟩ := exists_ends l ys zs
  have hpmem : p ∈ nodes l (c l) := hc ▸ end_mem_nodes hp
  have hqmem : q ∈ nodes l (c l) := hc ▸ start_mem_nodes hq
  have hring := h.ring l
  have hnodup := h.nodup l
  rw [hc] at hring hnodup
  have hxno : x ∉ ys ++ zs := by
    rw [List.append_assoc, List.singleton_append] at hnodup
    exact (List.nodup_cons.mp (List.nodup_middle.mp hnodup)).1
  have hxp : Node.links x ≠ p := by
    rintro rfl
    have hmem : Node.links x ∈ nodes l ys := by simp [hp]
    rw [links_mem_nodes] at hmem
    exact hxno (List.mem_append_left _ hmem)
  have hxq : Node.links x ≠ q := by
    rintro rfl
    have hmem : Node.links x ∈ zs.map Node.links ++ [Node.head l] := by simp [hq]
    exact hxno (List.mem_append_right _ (by simpa using hmem))
  obtain ⟨-, hprev⟩ : (m p).next_ = some (.links x) ∧ (m (.links x)).prev_ = some p := by
    refine Holds.neighbours ys (x :: zs) ?_ hp rfl
    simpa using hring
  obtain ⟨hnext, -⟩ : (m (.links x)).next_ = some q ∧ (m q).prev_ = some (.links x) :=
    Holds.neighbours (ys ++ [x]) zs hring (nodes_concat l ys x) hq
  set m' := ((m.setNext p (some q)).setPrev q (some p)).reset (.links x) with hm'
  refine ⟨m', ?_, ?_⟩
  · unfold Mem.erase Mem.eraseLinks
    simp only [hnext, hprev]
    rfl
  have hother : ∀ y, y ≠ .links x → m' y = ((m.setNext p (some q)).setPrev q (some p)) y :=
    fun y hy => Mem.reset_of_ne hy
  refine h.change ?_ ?_ (fun y hy => ?_) (fun y hy hy' => ?_) (fun y hy hy' => ?_)
  · rw [show ys ++ zs = ys ++ [] ++ zs by simp]
    refine Holds.splice [x] [] hring hnodup hp hq (fun y hy hyp hyx => ?_) (fun y hy hyq hyx => ?_) ?_
    · rw [hother y (by simpa using hyx)]
      simp [hyp]
    · rw [hother y (by simpa using hyx)]
      simp [hyq]
    · simp [Links.Linked, hother p hxp.symm, hother q hxq.symm]
  · rw [List.append_assoc, List.singleton_append] at hnodup
    exact (List.nodup_cons.mp (List.nodup_middle.mp hnodup)).2
  · exact Or.inl (by rw [hc]; simp only [List.mem_append] at hy ⊢; tauto)
  · have hyp : y ≠ p := fun he => hy (he ▸ hpmem)
    have hyq : y ≠ q := fun he => hy (he ▸ hqmem)
    have hyx : y ≠ .links x := by
      rintro rfl
      exact hy (by simp [links_mem_nodes, hc])
    rw [hother y hyx, Mem.setPrev_of_ne hyq, Mem.setNext_of_ne hyp]
  · obtain rfl : y = x := by
      by_contra hne
      refine hy' ?_
      simpa [hc, hne] using hy
    exact Mem.reset_self

omit [DecidableEq T] in
/-- A ring under another head: the two pointers that lead to the head are changed, and the head is copied. -/
theorem Holds.renamed [DecidableEq T] {p1 p2 : Node L T} {σ : Node L T → Node L T} (h : Holds m l xs)
    (hp1 : (m (.head l)).next_ = some p1) (hp2 : (m (.head l)).prev_ = some p2) (hσ : σ (.head l) = .head other)
    (hfix : ∀ y ∈ xs.map Node.links, σ y = y)
    (hnext : ∀ y ∈ nodes l xs, (m' (σ y)).next_ = if y = p2 then some (.head other) else (m y).next_)
    (hprev : ∀ y ∈ nodes l xs, (m' (σ y)).prev_ = if y = p1 then some (.head other) else (m y).prev_) :
    Holds m' other xs := by
  have hmapNext := h.next_renamed (fun y => (m' (σ y)).next_) hp2 hfix (by rw [hσ]; exact hnext)
  have hmapPrev := h.prev_renamed (fun y => (m' (σ y)).prev_) hp1 hfix (by rw [hσ]; exact hprev)
  have hring := h.map σ (fun y => (m' y).next_) (fun y => (m' y).prev_) hmapNext hmapPrev
  rwa [hσ, List.map_congr_left hfix, List.map_id'] at hring

omit [DecidableEq L] [DecidableEq T] in
/-- The lists exchange their contents. -/
theorem Rep.permute (h : Rep m c) (τ : Equiv.Perm L) (hring : ∀ k, Holds m' k (c (τ k)))
    (hframe : ∀ x, c.Unlinked x → m' (.links x) = m (.links x)) : Rep m' (c ∘ τ) where
  ring := hring
  nodup k := h.nodup (τ k)
  apart k k' x hk hk' := τ.injective (h.apart _ _ x hk hk')
  free x hx := by
    have hun : c.Unlinked x := fun k => by simpa using hx (τ.symm k)
    rw [hframe x hun, h.free x hun]

/-- **`swap` gives each of two lists the elements of the other.** -/
theorem Rep.swap (h : Rep m c) (hne : l ≠ other) :
    ∃ m', m.swap l other = some m' ∧ Rep m' (c ∘ Equiv.swap l other) := by
  have hhead : ∀ k : L, .head k ∈ nodes k (c k) := fun k => mem_nodes.mpr (Or.inl rfl)
  obtain ⟨p1, hp1mem, hp1, -⟩ := (h.ring l).exists_next (hhead l)
  obtain ⟨p2, hp2mem, -, hp2⟩ := (h.ring l).exists_prev (hhead l)
  obtain ⟨q1, hq1mem, hq1, -⟩ := (h.ring other).exists_next (hhead other)
  obtain ⟨q2, hq2mem, -, hq2⟩ := (h.ring other).exists_prev (hhead other)
  have hdis : ∀ {k k' : L} {y z : Node L T}, k ≠ k' → y ∈ nodes k (c k) → z ∈ nodes k' (c k') → y ≠ z :=
    fun hk hy hz he => h.disjoint hk hy (he ▸ hz)
  set m₂ := (m.setNext p2 (some (.head other))).setPrev p1 (some (.head other)) with hm₂
  set m₄ := (m₂.setNext q2 (some (.head l))).setPrev q1 (some (.head l)) with hm₄
  set m' := Function.update (Function.update m₄ (.head l) (m₄ (.head other))) (.head other) (m₄ (.head l)) with hm'
  have hother : m₂ (.head other) = m (.head other) := by
    rw [hm₂, Mem.setPrev_of_ne (hdis hne.symm (hhead other) hp1mem),
      Mem.setNext_of_ne (hdis hne.symm (hhead other) hp2mem)]
  have hcode : m.swap l other = some m' := by
    unfold Mem.swap
    simp only [hp1, hp2]
    rw [← hm₂]
    simp only [hother, hq1, hq2]
    rfl
  -- a node under the other head, where it has one
  set σ := Equiv.swap (Node.head (T := T) l) (.head other) with hσ
  have hfix : ∀ k, ∀ y ∈ (c k).map Node.links, σ y = y := by
    intro k y hy
    obtain ⟨x, -, rfl⟩ := List.mem_map.mp hy
    exact Equiv.swap_apply_of_ne_of_ne (by simp) (by simp)
  have hmoved : ∀ y, m' (σ y) = m₄ y := by
    intro y
    by_cases hyl : y = .head l
    · simp [hyl, hσ, hm']
    · by_cases hyo : y = .head other
      · simp [hyo, hσ, hm', hne]
      · simp [hm', hσ, Equiv.swap_apply_of_ne_of_ne hyl hyo, hyl, hyo]
  have hl : Holds m' other (c l) := by
    refine (h.ring l).renamed hp1 hp2 (Equiv.swap_apply_left _ _) (hfix l) (fun y hy => ?_) fun y hy => ?_
    · rw [hmoved]
      simp [hm₄, hm₂, hdis hne hy hq2mem]
    · rw [hmoved]
      simp [hm₄, hm₂, hdis hne hy hq1mem]
  have ho : Holds m' l (c other) := by
    refine (h.ring other).renamed hq1 hq2 (Equiv.swap_apply_right _ _) (hfix other) (fun y hy => ?_) fun y hy => ?_
    · rw [hmoved]
      simp [hm₄, hm₂, hdis hne.symm hy hp2mem]
    · rw [hmoved]
      simp [hm₄, hm₂, hdis hne.symm hy hp1mem]
  have hframe : ∀ y, y ∉ nodes l (c l) → y ∉ nodes other (c other) → m' y = m y := by
    intro y hyl hyo
    have hno : ∀ z ∈ nodes l (c l), y ≠ z := fun z hz he => hyl (he ▸ hz)
    have hno' : ∀ z ∈ nodes other (c other), y ≠ z := fun z hz he => hyo (he ▸ hz)
    have hfixed : σ y = y := Equiv.swap_apply_of_ne_of_ne (hno _ (hhead l)) (hno' _ (hhead other))
    have hm := hmoved y
    rw [hfixed] at hm
    rw [hm, hm₄, Mem.setPrev_of_ne (hno' _ hq1mem), Mem.setNext_of_ne (hno' _ hq2mem), hm₂,
      Mem.setPrev_of_ne (hno _ hp1mem), Mem.setNext_of_ne (hno _ hp2mem)]
  refine ⟨m', hcode, h.permute _ (fun k => ?_) fun x hx => ?_⟩
  · by_cases hkl : k = l
    · subst hkl
      rwa [Equiv.swap_apply_left]
    by_cases hko : k = other
    · subst hko
      rwa [Equiv.swap_apply_right]
    rw [Equiv.swap_apply_of_ne_of_ne hkl hko]
    have hsame : ∀ y ∈ nodes k (c k), m' y = m y := fun y hy =>
      hframe y (h.disjoint hkl hy) (h.disjoint hko hy)
    exact (h.ring k).congr (fun y hy => by rw [hsame y hy]) fun y hy => by rw [hsame y hy]
  · exact hframe _ (by rw [links_mem_nodes]; exact hx l) (by rw [links_mem_nodes]; exact hx other)

end

end Chickadee.Lists
