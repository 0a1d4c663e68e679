import Mathlib

/-!
# Rings of doubly linked nodes

Every node has a pointer to the next node and one to the previous. A ring goes from a head along its nodes and
back to the head. Of a chain of nodes only the `next` of all but the last and the `prev` of all but the first are
looked at, so a piece of a ring may be exchanged for another by changing the pointers at its two ends.
-/

namespace Chickadee.Lib.Links

variable {N : Type*} {next prev next' prev' : N → Option N} {h p q x y : N} {l l₁ l₂ mid mid' xs : List N}

/-- `q` follows `p`, in both directions. -/
def Linked (next prev : N → Option N) (p q : N) : Prop := next p = some q ∧ prev q = some p

/-- The chain from `h` along `xs` and back to `h`. -/
def Ring (next prev : N → Option N) (h : N) (xs : List N) : Prop := (h :: xs ++ [h]).IsChain (Linked next prev)

theorem chain_congr (hl : l.IsChain (Linked next prev)) (hnext : ∀ y ∈ l.dropLast, next' y = next y)
    (hprev : ∀ y ∈ l.tail, prev' y = prev y) : l.IsChain (Linked next' prev') := by
  rw [List.isChain_iff_forall_rel_of_append_cons_cons] at hl ⊢
  intro a b l₁ l₂ heq
  obtain ⟨hab, hba⟩ := hl heq
  subst heq
  have ha : a ∈ (l₁ ++ a :: b :: l₂).dropLast := by
    simp [List.dropLast_append_of_ne_nil]
  have hb : b ∈ (l₁ ++ a :: b :: l₂).tail := by
    cases l₁ <;> simp
  exact ⟨by rw [hnext a ha, hab], by rw [hprev b hb, hba]⟩

/-- What no pointer of a ring leads out of: a change elsewhere leaves the ring alone. -/
theorem Ring.congr (hr : Ring next prev h xs) (hnext : ∀ y ∈ h :: xs, next' y = next y)
    (hprev : ∀ y ∈ h :: xs, prev' y = prev y) : Ring next' prev' h xs := by
  refine chain_congr hr (fun y hy => hnext y ?_) (fun y hy => hprev y ?_)
  · rwa [List.dropLast_concat] at hy
  · simpa [or_comm] using hy

theorem Ring.linked (hr : Ring next prev h xs) (l₁ l₂ : List N) (heq : h :: xs ++ [h] = l₁ ++ p :: q :: l₂) :
    Linked next prev p q := by
  unfold Ring at hr
  rw [heq] at hr
  exact (List.isChain_append_cons_cons.mp hr).2.1

/-- The node after a node of a ring. -/
theorem Ring.exists_next (hr : Ring next prev h xs) (hy : y ∈ h :: xs) :
    ∃ z ∈ h :: xs, Linked next prev y z := by
  obtain ⟨l₁, l₂, heq⟩ := List.append_of_mem hy
  cases l₂ with
  | nil => exact ⟨h, List.mem_cons_self, hr.linked l₁ [] (by rw [heq]; simp)⟩
  | cons z l₂ =>
    have hz : z ∈ h :: xs := by simp [heq]
    exact ⟨z, hz, hr.linked l₁ (l₂ ++ [h]) (by rw [heq]; simp)⟩

/-- The node before a node of a ring. -/
theorem Ring.exists_prev (hr : Ring next prev h xs) (hy : y ∈ h :: xs) :
    ∃ z ∈ h :: xs, Linked next prev z y := by
  have hy' : y ∈ xs ++ [h] := by simpa [or_comm] using hy
  obtain ⟨l₁, l₂, heq⟩ := List.append_of_mem hy'
  rcases List.eq_nil_or_concat l₁ with rfl | ⟨l₁, z, rfl⟩
  · refine ⟨h, List.mem_cons_self, hr.linked [] l₂ ?_⟩
    rw [List.cons_append, heq]
    rfl
  · have hz : z ∈ h :: xs := by
      have hmem : z ∈ xs ++ [h] := by simp [heq]
      simpa [or_comm] using hmem
    refine ⟨z, hz, hr.linked (h :: l₁) l₂ ?_⟩
    rw [List.cons_append, heq]
    simp

/-! ## Exchanging a piece -/

/--
**The two ends of a chain stay as they are** where only the `next` of `p`, the `prev` of `q` and the pointers of
nodes between them change.
-/
theorem chain_ends (hl : (l₁ ++ p :: (mid ++ q :: l₂)).IsChain (Linked next prev))
    (hdrop : (l₁ ++ p :: (mid ++ q :: l₂)).dropLast.Nodup) (htail : (l₁ ++ p :: (mid ++ q :: l₂)).tail.Nodup)
    (hnext : ∀ y ∈ (l₁ ++ p :: (mid ++ q :: l₂)).dropLast, y ≠ p → y ∉ mid → next' y = next y)
    (hprev : ∀ y ∈ (l₁ ++ p :: (mid ++ q :: l₂)).tail, y ≠ q → y ∉ mid → prev' y = prev y) :
    (l₁ ++ [p]).IsChain (Linked next' prev') ∧ (q :: l₂).IsChain (Linked next' prev') := by
  have hdropEq : (l₁ ++ p :: (mid ++ q :: l₂)).dropLast = l₁ ++ p :: (mid ++ (q :: l₂).dropLast) := by
    rw [List.dropLast_append_of_ne_nil (by simp), List.dropLast_cons_of_ne_nil (by simp),
      List.dropLast_append_of_ne_nil (by simp)]
  have htailEq : (l₁ ++ p :: (mid ++ q :: l₂)).tail = (l₁ ++ [p]).tail ++ (mid ++ q :: l₂) := by
    cases l₁ <;> simp
  rw [hdropEq] at hdrop hnext
  rw [htailEq] at htail hprev
  simp only [List.nodup_append, List.nodup_cons, List.mem_append, List.mem_cons] at hdrop htail
  obtain ⟨hleft, hright⟩ := List.isChain_split.mp hl
  have hright : ((p :: mid) ++ q :: l₂).IsChain (Linked next prev) := by simpa using hright
  have hright := List.isChain_split.mp hright
  constructor
  · refine chain_congr hleft (fun y hy => ?_) (fun y hy => ?_)
    · rw [List.dropLast_concat] at hy
      exact hnext y (by simp [hy]) (by grind) (by grind)
    · exact hprev y (by simp [hy]) (by grind) (by grind)
  · refine chain_congr hright.2 (fun y hy => ?_) (fun y hy => ?_)
    · exact hnext y (by simp [hy]) (by grind) (by grind)
    · rw [List.tail_cons] at hy
      exact hprev y (by simp [hy]) (by grind) (by grind)

/-- **A piece of a chain is exchanged for another.** -/
theorem chain_splice (hl : (l₁ ++ p :: (mid ++ q :: l₂)).IsChain (Linked next prev))
    (hdrop : (l₁ ++ p :: (mid ++ q :: l₂)).dropLast.Nodup) (htail : (l₁ ++ p :: (mid ++ q :: l₂)).tail.Nodup)
    (hnext : ∀ y ∈ (l₁ ++ p :: (mid ++ q :: l₂)).dropLast, y ≠ p → y ∉ mid → next' y = next y)
    (hprev : ∀ y ∈ (l₁ ++ p :: (mid ++ q :: l₂)).tail, y ≠ q → y ∉ mid → prev' y = prev y)
    (hmid : (p :: mid' ++ [q]).IsChain (Linked next' prev')) :
    (l₁ ++ p :: (mid' ++ q :: l₂)).IsChain (Linked next' prev') := by
  obtain ⟨hleft, hright⟩ := chain_ends hl hdrop htail hnext hprev
  refine List.isChain_split.mpr ⟨hleft, ?_⟩
  have hboth : ((p :: mid') ++ q :: l₂).IsChain (Linked next' prev') := List.isChain_split.mpr ⟨hmid, hright⟩
  simpa using hboth

/-! ## Another head -/

/-- **A ring seen through a renaming of its nodes.** -/
theorem Ring.map (σ : N → N) (next' prev' : N → Option N) (hr : Ring next prev h xs)
    (hnext : ∀ y ∈ h :: xs, next' (σ y) = (next y).map σ) (hprev : ∀ y ∈ h :: xs, prev' (σ y) = (prev y).map σ) :
    Ring next' prev' (σ h) (xs.map σ) := by
  have hmap : σ h :: xs.map σ ++ [σ h] = (h :: xs ++ [h]).map σ := by simp
  unfold Ring at hr ⊢
  rw [hmap, List.isChain_map]
  refine hr.imp_of_mem_imp fun a b ha hb hab => ?_
  have ha' : a ∈ h :: xs := by simpa [or_comm] using ha
  have hb' : b ∈ h :: xs := by simpa [or_comm] using hb
  exact ⟨by rw [hnext a ha', hab.1, Option.map_some], by rw [hprev b hb', hab.2, Option.map_some]⟩

/-- Only the `next` of the last node leads to the head, so a ring is renamed by one write. -/
theorem Ring.next_renamed [DecidableEq N] {σ : N → N} (next' : N → Option N) (hr : Ring next prev h xs) (hlast : prev h = some p)
    (hfix : ∀ y ∈ xs, σ y = y) (hnext : ∀ y ∈ h :: xs, next' y = if y = p then some (σ h) else next y) :
    ∀ y ∈ h :: xs, next' y = (next y).map σ := by
  intro y hy
  obtain ⟨z, hz, hyz, hzy⟩ := hr.exists_next hy
  obtain ⟨w, -, hwh, hhw⟩ := hr.exists_prev (y := h) List.mem_cons_self
  obtain rfl : w = p := Option.some.inj (hhw.symm.trans hlast)
  rw [hnext y hy, hyz, Option.map_some]
  by_cases hzh : z = h
  · subst hzh
    rw [if_pos (Option.some.inj (hzy.symm.trans hhw))]
  · have hne : y ≠ w := by
      rintro rfl
      exact hzh (Option.some.inj (hyz.symm.trans hwh))
    rw [if_neg hne, hfix z ((List.mem_cons.mp hz).resolve_left hzh)]

/-- The same for the `prev` of the first node. -/
theorem Ring.prev_renamed [DecidableEq N] {σ : N → N} (prev' : N → Option N) (hr : Ring next prev h xs) (hfirst : next h = some p)
    (hfix : ∀ y ∈ xs, σ y = y) (hprev : ∀ y ∈ h :: xs, prev' y = if y = p then some (σ h) else prev y) :
    ∀ y ∈ h :: xs, prev' y = (prev y).map σ := by
  intro y hy
  obtain ⟨z, hz, hzy, hyz⟩ := hr.exists_prev hy
  obtain ⟨w, -, hhw, hwh⟩ := hr.exists_next (y := h) List.mem_cons_self
  obtain rfl : w = p := Option.some.inj (hhw.symm.trans hfirst)
  rw [hprev y hy, hyz, Option.map_some]
  by_cases hzh : z = h
  · subst hzh
    rw [if_pos (Option.some.inj (hzy.symm.trans hhw))]
  · have hne : y ≠ w := by
      rintro rfl
      exact hzh (Option.some.inj (hyz.symm.trans hwh))
    rw [if_neg hne, hfix z ((List.mem_cons.mp hz).resolve_left hzh)]

end Chickadee.Lib.Links
