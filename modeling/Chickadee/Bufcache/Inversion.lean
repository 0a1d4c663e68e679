import Chickadee.Bufcache.SmallInv

/-!
# Steps are made of small steps

`step_small` takes a step of the machine apart. It needs the invariant, and `Fits`, which rules out
three overlaps of operations that the code gets wrong:

* `get_write(true)` pushes an entry that a `sync` has popped but not yet written;
* `sync(1)` comes to an unreferenced entry that is dirty again;
* `get_disk_entry` wakes up, the slot of the prefetch is empty, and the block is in another slot.
-/

namespace Chickadee.Bufcache

variable {α : Type*}

/-- Every unreferenced entry that the loop comes to before it sleeps is not dirty. -/
def Cache.DropsClean (c : Cache α) : List (Fin ne) → Prop
  | [] => True
  | i :: rest => i ∈ c.pfq_ ∧ (c.e_ i).again = true ∨
      ((c.e_ i).ref_ = 0 → (c.e_ i).estate_ ≠ .es_dirty) ∧ c.DropsClean rest

/-- The entry that a `sync` has popped and for whose write reference it waits. -/
def Pc.popped : Pc → Option (Fin ne)
  | .syncGet _ _ _ e => some e
  | _ => none

/-- **The step is none of the three overlaps.** -/
def Fits (s : State α) : Act α → Prop
  | .next (.pushing _ i) _ _ => ∀ pc ∈ s.tasks, pc.popped ≠ some i
  | .next (.syncLoop drop _ []) _ _ => 0 < drop → s.c.DropsClean (List.finRange ne)
  | .next (.syncDrop _ _ _ rest) _ _ => s.c.DropsClean rest
  | .next (.getWait bn i) _ _ => (s.c.e_ i).estate_ = .es_empty → s.c.Fresh bn
  | _ => True

instance (c : Cache α) : (l : List (Fin ne)) → Decidable (c.DropsClean l)
  | [] => .isTrue trivial
  | i :: rest =>
    have : Decidable (c.DropsClean rest) := instDecidableDropsClean c rest
    inferInstanceAs (Decidable (i ∈ c.pfq_ ∧ (c.e_ i).again = true ∨
      ((c.e_ i).ref_ = 0 → (c.e_ i).estate_ ≠ .es_dirty) ∧ c.DropsClean rest))

instance (c : Cache α) (bn : ℕ) : Decidable (c.Fresh bn) :=
  inferInstanceAs (Decidable (∀ j, (c.e_ j).estate_ ≠ .es_empty → (c.e_ j).bn_ ≠ bn))

instance (s : State α) (a : Act α) : Decidable (Fits s a) := by
  unfold Fits
  split <;> infer_instance

variable [Inhabited α] {c c' : Cache α} {d : ℕ → α} {T : Multiset Pc} {l : List (Event α)}
  {i j : Fin ne} {bn : ℕ} {pc : Pc} {a : Act α} {ok : Bool} {io : Option α} {s s' : State α}

omit [Inhabited α] in
@[simp] theorem Cache.set_set {b b' : Bcentry α} : (c.set i b).set i b' = c.set i b' := by
  simp [Cache.set]

omit [Inhabited α] in
theorem Inv.erase_evictq (h : Inv c T) (hst : (c.e_ i).estate_ ≠ .es_clean) :
    c.evictq_.erase i = c.evictq_ := by
  refine List.erase_of_not_mem fun hi => hst ?_
  exact (h.evict_state (evict_pos_iff.mpr hi)).1

omit [Inhabited α] in
theorem Inv.erase_pfq (h : Inv c T) (hst : (c.e_ i).estate_ ≠ .es_prefetching) :
    c.pfq_.erase i = c.pfq_ := by
  refine List.erase_of_not_mem fun hi => hst ?_
  exact h.pf_state (pf_pos_iff.mpr hi)

/-! ## Finding a slot -/

omit [Inhabited α] in
theorem Cache.slotOf_some (h : c.slotOf bn = some i) :
    (c.e_ i).estate_ ≠ .es_empty ∧ (c.e_ i).bn_ = bn := by
  have hi := List.find?_some h
  simpa [Cache.empty] using hi

omit [Inhabited α] in
theorem Cache.slotOf_none (h : c.slotOf bn = none) : c.Fresh bn := by
  intro j hj hb
  have hnot := List.find?_eq_none.mp h j (List.mem_finRange j)
  simp [Cache.empty, hj, hb] at hnot

omit [Inhabited α] in
theorem Cache.emptySlot_some (h : c.emptySlot = some i) : (c.e_ i).estate_ = .es_empty := by
  have hi := List.find?_some h
  simpa [Cache.empty] using hi

omit [Inhabited α] in
theorem Cache.Fresh.cleared (h : c.Fresh bn) (i : Fin ne) : (c.cleared i).Fresh bn := by
  intro j hj
  by_cases hji : j = i
  · subst hji
    simp [Cache.cleared] at hj
  · have he : (c.cleared i).e_ j = c.e_ j := Cache.set_e_ne hji
    rw [he] at hj ⊢
    exact h j hj

omit [Inhabited α] in
/-- `evict` clears an entry that is unreferenced and not dirty, or changes nothing. -/
theorem evict_spec (h : Inv c T) {r : Option (Fin ne)} (he : c.evict = some (c', r)) :
    (r = none ∧ c' = c) ∨ ∃ i, r = some i ∧ c' = c.cleared i ∧ (c.e_ i).ref_ = 0 ∧
      (c.e_ i).estate_ ≠ .es_dirty := by
  unfold Cache.evict at he
  split at he
  · next blk rest hq =>
    have hmem : blk ∈ c.evictq_ := by rw [hq]; exact List.mem_cons_self
    obtain ⟨hst, href, -⟩ := h.evict_state (evict_pos_iff.mpr hmem)
    have hpf : c.pfq_.erase blk = c.pfq_ := h.erase_pfq (by rw [hst]; simp)
    simp [Cache.clear, href] at he
    obtain ⟨rfl, rfl⟩ := he
    refine Or.inr ⟨blk, rfl, ?_, href, by rw [hst]; simp⟩
    simp [Cache.cleared, Cache.set, hpf, hq, href]
  · split at he
    · simp only [Option.some.injEq, Prod.mk.injEq] at he
      exact Or.inl ⟨he.2.symm, he.1.symm⟩
    · next hq _ it hit =>
      have hmem : it ∈ c.pfq_ := List.mem_of_find?_eq_some hit
      have hst := h.pf_state (pf_pos_iff.mpr hmem)
      have href : (c.e_ it).ref_ = 0 := by
        obtain ⟨h₁, -, -, h₄⟩ := h.entry it
        rw [hst] at h₄
        exact h₁.trans h₄.1
      simp [Cache.clear, href] at he
      obtain ⟨rfl, rfl⟩ := he
      refine Or.inr ⟨it, rfl, ?_, href, by rw [hst]; simp⟩
      simp [Cache.cleared, Cache.set, hq, href]

/-! ## `get_disk_entry` -/

/-- Taking a slot: it is empty and then `bn` is fresh, or its state allows a reference. -/
theorem obtain_small (h : Inv c (pc ::ₘ T)) (hpc : pc = .get bn ∨ pc = .getWait bn i)
    (hst : (c.e_ i).estate_ ≠ .es_prefetching)
    (hnew : (c.e_ i).estate_ = .es_empty → c.Fresh bn)
    (hold : (c.e_ i).estate_ ≠ .es_empty → c.Finds bn i pc)
    (hs : State.gotGet ⟨c, d, pc ::ₘ T, l⟩ pc bn (c.obtain bn i ok) = some s') :
    Smalls (.next pc ok io) ⟨c, d, pc ::ₘ T, l⟩ s' := by
  cases he : (c.e_ i).estate_ with
  | es_prefetching => exact absurd he hst
  | es_allocated =>
    have := (h.entry i).state
    rw [he] at this
    exact this.elim
  | es_empty =>
    have hq := h.erase_evictq (i := i) (by rw [he]; simp)
    by_cases hmem : (c.e_ i).buf_.isSome ∨ ok
    · have hsm := Small.allocate c d T l ok io bn i pc ((c.e_ i).buf_.getD default) hpc he (hnew he)
      simp [Cache.obtain, Cache.load, Cache.set, he, hmem, State.gotGet, State.goto, GetResult.pc,
        addTask, hq] at hs hsm
      subst hs
      exact .main hsm
    · -- no memory: the entry stays empty, but remembers the block number
      have href : (c.e_ i).ref_ = 0 := by
        obtain ⟨h₁, -, -, h₄⟩ := h.entry i
        rw [he] at h₄
        exact h₁.trans h₄.1
      have hbuf : (c.e_ i).buf_ = none := by
        by_contra hb
        exact hmem (Or.inl (Option.isSome_iff_ne_none.mpr hb))
      have hok : ok = false := by
        by_contra hb
        exact hmem (Or.inr (by simpa using hb))
      have hq' : Quiet (.next pc ok io) c _ := Quiet.rename c i bn he
      have hmove : Moves (c.set i { c.e_ i with bn_ := bn }) pc none := by
        rcases hpc with rfl | rfl
        · exact .null bn
        · exact .nullWait bn i
      have hsm' := Small.move _ d T l ok io pc none hmove
      subst hok
      simp [Cache.obtain, Cache.load, Cache.clear, Cache.set, he, hbuf, href, State.gotGet,
        State.goto, GetResult.pc, addTask, hq] at hs hq' hsm'
      subst hs
      exact .quiet _ _ _ _ _ hq' (.main hsm')
  | es_loading =>
    have hq := h.erase_evictq (i := i) (by rw [he]; simp)
    have hsm := Small.await c d T l ok io bn i pc (hold (by rw [he]; simp)) he
    simp [Cache.obtain, Cache.load, Cache.set, he, State.gotGet, State.goto, GetResult.pc, addTask,
      hq] at hs hsm
    subst hs
    exact .main hsm
  | es_clean =>
    have hsm := Small.reference c d T l ok io bn i pc (hold (by rw [he]; simp)) (.inl he)
    simp [Cache.obtain, Cache.load, Cache.set, he, State.gotGet, State.goto, GetResult.pc,
      addTask] at hs hsm
    subst hs
    exact .main hsm
  | es_dirty =>
    have hsm := Small.reference c d T l ok io bn i pc (hold (by rw [he]; simp)) (.inr he)
    simp [Cache.obtain, Cache.load, Cache.set, he, State.gotGet, State.goto, GetResult.pc,
      addTask] at hs hsm
    subst hs
    exact .main hsm

/-- Taking over a prefetch. -/
theorem hit_small (h : Inv c (pc ::ₘ T)) (hpc : c.Finds bn i pc)
    (hst : (c.e_ i).estate_ = .es_prefetching) (hagain : (c.e_ i).again = false)
    (hs : State.gotGet ⟨c, d, pc ::ₘ T, l⟩ pc bn (c.prefetchHit i) = some s') :
    Smalls (.next pc ok io) ⟨c, d, pc ::ₘ T, l⟩ s' := by
  have hev : i ∉ c.evictq_ := by
    intro hi
    have := (h.evict_state (evict_pos_iff.mpr hi)).1
    rw [hst] at this
    exact absurd this (by simp)
  by_cases hq : i ∈ c.pfq_
  · have hsm := Small.hit c d T l ok io bn i pc hpc hst hq hagain
    simp [Cache.prefetchHit, Cache.set, hev, hq, State.gotGet, State.goto, GetResult.pc,
      addTask] at hs hsm
    subst hs
    exact .main hsm
  · simp [Cache.prefetchHit, hev, hq, State.gotGet] at hs

/-- `get_disk_entry(bn)`, up to the first point where it sleeps. -/
theorem get_small (h : Inv c (.get bn ::ₘ T))
    (hs : State.gotGet ⟨c, d, .get bn ::ₘ T, l⟩ (.get bn) bn (c.get_disk_entry bn ok) = some s') :
    Smalls (.next (.get bn) ok io) ⟨c, d, .get bn ::ₘ T, l⟩ s' := by
  unfold Cache.get_disk_entry at hs
  split at hs
  · next i hslot =>
    obtain ⟨hne, hbn⟩ := Cache.slotOf_some hslot
    split at hs
    · next hpf =>
      split at hs
      · have hsm := Small.move c d T l ok io _ _ (Moves.wait bn i hpf hbn)
        simp [State.gotGet, State.goto, GetResult.pc] at hs
        subst hs
        exact .main hsm
      · next hagain => exact hit_small h (.inl ⟨rfl, hbn⟩) hpf (by simpa using hagain) hs
    · next hpf =>
      exact obtain_small h (.inl rfl) hpf (fun he => absurd he hne) (fun _ => .inl ⟨rfl, hbn⟩) hs
  · next hslot =>
    have hfresh := Cache.slotOf_none hslot
    split at hs
    · next i hempty =>
      have he := Cache.emptySlot_some hempty
      exact obtain_small h (.inl rfl) (by rw [he]; simp) (fun _ => hfresh)
        (fun hne => absurd he hne) hs
    · split at hs
      · simp [State.gotGet] at hs
      · next i hev =>
        obtain ⟨hr, -⟩ | ⟨j, hr, rfl, href, hst⟩ := evict_spec h hev
        · exact absurd hr (by simp)
        · obtain rfl : i = j := Option.some.inj hr
          -- first the eviction, then the slot is empty
          have he : ((c.cleared i).e_ i).estate_ = .es_empty := by simp [Cache.cleared]
          refine .quiet _ _ _ _ _ (.clear c i trivial href hst) ?_
          exact obtain_small (h.clear href hst) (.inl rfl) (by rw [he]; simp)
            (fun _ => hfresh.cleared i) (fun hne => absurd he hne) hs
      · next c' hev =>
        obtain ⟨-, rfl⟩ | ⟨i, hr, -⟩ := evict_spec h hev
        · split at hs
          · have hsm := Small.move c' d T l ok io _ _ (Moves.full bn)
            simp [State.gotGet, State.goto, GetResult.pc] at hs
            subst hs
            exact .main hsm
          · have hsm := Small.move c' d T l ok io _ _ (Moves.null bn)
            simp [State.gotGet, State.goto, GetResult.pc] at hs
            subst hs
            exact .main hsm
        · exact absurd hr (by simp)

/-- `get_disk_entry(bn)` after it has slept on a prefetch. -/
theorem getWait_small (h : Inv c (.getWait bn i ::ₘ T))
    (hfresh : (c.e_ i).estate_ = .es_empty → c.Fresh bn)
    (hs : State.gotGet ⟨c, d, .getWait bn i ::ₘ T, l⟩ (.getWait bn i) bn (c.get_resume bn i ok) =
      some s') :
    Smalls (.next (.getWait bn i) ok io) ⟨c, d, .getWait bn i ::ₘ T, l⟩ s' := by
  unfold Cache.get_resume at hs
  split at hs
  · simp [State.gotGet] at hs
  · next hagain =>
    split at hs
    · next hpf => exact hit_small h (.inr rfl) hpf (by simpa using hagain) hs
    · next hpf => exact obtain_small h (.inr rfl) hpf hfresh (fun _ => .inr rfl) hs

/-- `load` after the read. -/
theorem readDone_small
    (hs : State.gotGet ⟨c, d, .readDone bn i ::ₘ T, l⟩ (.readDone bn i) bn (c.loaded i) = some s') :
    Smalls (.next (.readDone bn i) ok io) ⟨c, d, .readDone bn i ::ₘ T, l⟩ s' := by
  have hsm := Small.loaded c d T l ok io bn i
  simp [Cache.loaded, Cache.load, State.gotGet, State.goto, GetResult.pc, addTask] at hs
  subst hs
  exact .main hsm

/-- `load` of a task that has waited for another one. -/
theorem waitLoading_small (h : Inv c (.waitLoading bn i ::ₘ T))
    (hs : State.gotGet ⟨c, d, .waitLoading bn i ::ₘ T, l⟩ (.waitLoading bn i) bn (c.load i ok) =
      some s') :
    Smalls (.next (.waitLoading bn i) ok io) ⟨c, d, .waitLoading bn i ::ₘ T, l⟩ s' := by
  have hS := (h.entry i).state
  have hpos : 0 < counts c (.waitLoading bn i ::ₘ T) i .ref := by simp [counts, Pc.count]
  cases he : (c.e_ i).estate_ with
  | es_empty =>
    rw [he] at hS
    exact absurd hS.1 (by omega)
  | es_allocated =>
    rw [he] at hS
    exact hS.elim
  | es_prefetching =>
    rw [he] at hS
    exact absurd hS.1 (by omega)
  | es_loading =>
    -- not yet loaded: nothing has changed
    simp [Cache.load, he, State.gotGet, State.goto, GetResult.pc, addTask] at hs
    subst hs
    exact .done _
  | es_clean =>
    have hsm := Small.wake c d T l ok io bn i (.inl he)
    simp [Cache.load, he, State.gotGet, State.goto, GetResult.pc, addTask] at hs
    subst hs
    exact .main hsm
  | es_dirty =>
    have hsm := Small.wake c d T l ok io bn i (.inr he)
    simp [Cache.load, he, State.gotGet, State.goto, GetResult.pc, addTask] at hs
    subst hs
    exact .main hsm

/-! ## The loop that drops buffers -/

omit [Inhabited α] in
theorem Cache.cleared_e_ne (hj : j ≠ i) : (c.cleared i).e_ j = c.e_ j := Cache.set_e_ne hj

omit [Inhabited α] in
theorem Cache.DropsClean.cleared {rest : List (Fin ne)} (h : c.DropsClean rest)
    (hi : i ∈ c.pfq_ → (c.e_ i).again = false) : (c.cleared i).DropsClean rest := by
  induction rest with
  | nil => trivial
  | cons j rest ih =>
    by_cases hj : j = i
    · subst hj
      rcases h with ⟨hq, hagain⟩ | ⟨-, hrest⟩
      · rw [hi hq] at hagain
        exact absurd hagain (by simp)
      · exact Or.inr ⟨fun _ => by simp [Cache.cleared], ih hrest⟩
    · rcases h with ⟨hq, hagain⟩ | ⟨hst, hrest⟩
      · refine Or.inl ⟨?_, by rw [Cache.cleared_e_ne hj]; exact hagain⟩
        exact (List.mem_erase_of_ne hj).mpr hq
      · refine Or.inr ⟨?_, ih hrest⟩
        rw [Cache.cleared_e_ne hj]
        exact hst

omit [Inhabited α] in
theorem Cache.dropped_cleared : (c.cleared i).Dropped i := fun _ => by simp [Cache.cleared]

omit [Inhabited α] in
theorem Cache.Dropped.cleared (h : c.Dropped j) (i : Fin ne) : (c.cleared i).Dropped j := by
  by_cases hj : j = i
  · rw [hj]
    exact Cache.dropped_cleared
  · unfold Cache.Dropped
    rw [Cache.cleared_e_ne hj]
    exact h

/-- The result of the loop: quiet steps, and the entries that it has left behind. -/
structure DropSpec (a : Act α) (d : ℕ → α) (T : Multiset Pc) (l : List (Event α)) (c c' : Cache α)
    (rest rest' : List (Fin ne)) : Prop where
  small : ∀ s', Smalls a ⟨c', d, T, l⟩ s' → Smalls a ⟨c, d, T, l⟩ s'
  keeps : ∀ j, c.Dropped j → c'.Dropped j
  drops : ∀ j ∈ rest, j ∉ rest' → c'.Dropped j

/-- Clearing the head before the loop. -/
theorem DropSpec.clear {rest rest' : List (Fin ne)} (href : (c.e_ i).ref_ = 0)
    (hst : (c.e_ i).estate_ ≠ .es_dirty) (ha : a.MayClear)
    (h : DropSpec a d T l (c.cleared i) c' rest rest') :
    DropSpec a d T l c c' (i :: rest) rest' where
  small := fun s' hs' => .quiet _ _ _ _ _ (.clear c i ha href hst) (h.small s' hs')
  keeps := fun j hj => h.keeps j (hj.cleared i)
  drops := by
    intro j hj hj'
    rcases List.mem_cons.mp hj with rfl | hj
    · exact h.keeps j Cache.dropped_cleared
    · exact h.drops j hj hj'

/-- The loop clears one entry after the other. -/
theorem dropLoop_small {drop : ℤ} {rest rest' : List (Fin ne)} (ha : a.MayClear) (h : Inv c T)
    (hclean : c.DropsClean rest) (hs : c.dropLoop drop rest = some (c', rest')) :
    DropSpec a d T l c c' rest rest' := by
  induction rest generalizing c with
  | nil =>
    simp only [Cache.dropLoop, Option.some.injEq, Prod.mk.injEq] at hs
    rw [hs.1]
    exact ⟨fun _ hs' => hs', fun _ hj => hj, fun j hj => absurd hj (by simp)⟩
  | cons i rest ih =>
    -- clearing the head and going on, once it is known that the head does not wait
    have hclear : (i ∈ c.pfq_ → (c.e_ i).again = false) → (c.e_ i).ref_ = 0 →
        (c.cleared i).dropLoop drop rest = some (c', rest') →
        DropSpec a d T l c c' (i :: rest) rest' := by
      intro hi href hs
      rcases hclean with ⟨hq, hagain⟩ | ⟨hst, hrest⟩
      · rw [hi hq] at hagain
        exact absurd hagain (by simp)
      · exact (ih (h.clear href (hst href)) (Cache.DropsClean.cleared hrest hi) hs).clear href
          (hst href) ha
    unfold Cache.dropLoop at hs
    simp only at hs
    split at hs
    · exact absurd hs (by simp)
    · split at hs
      · exact absurd hs (by simp)
      · split at hs
        · next href =>
          split at hs
          · next hq =>
            obtain ⟨hst, -, -⟩ := h.evict_state (evict_pos_iff.mpr hq)
            have hpf : c.pfq_.erase i = c.pfq_ := h.erase_pfq (by rw [hst]; simp)
            refine hclear (fun hp => ?_) href ?_
            · rw [h.pf_state (pf_pos_iff.mpr hp)] at hst
              exact absurd hst (by simp)
            · simpa [Cache.clear, Cache.cleared, Cache.set, href, hpf] using hs
          · next hq =>
            split at hs
            · split at hs
              · simp only [Option.some.injEq, Prod.mk.injEq] at hs
                rw [hs.1]
                refine ⟨fun _ hs' => hs', fun _ hj => hj, fun j hj hj' => absurd hj ?_⟩
                rw [hs.2]
                exact hj'
              · next hagain =>
                refine hclear (fun _ => by simpa using hagain) href ?_
                simpa [Cache.clear, Cache.cleared, Cache.set, href, List.erase_of_not_mem hq] using hs
            · next hp =>
              refine hclear (fun hp' => absurd hp' hp) href ?_
              simpa [Cache.clear, Cache.cleared, Cache.set, href, List.erase_of_not_mem hq,
                List.erase_of_not_mem hp] using hs
        · next href =>
          rcases hclean with ⟨hq, -⟩ | ⟨-, hrest⟩
          · obtain ⟨h₁, -, -, h₄⟩ := h.entry i
            rw [h.pf_state (pf_pos_iff.mpr hq)] at h₄
            exact absurd (h₁.trans h₄.1) href
          · obtain ⟨hsmall, hkeeps, hdrops⟩ := ih h hrest hs
            refine ⟨hsmall, hkeeps, fun j hj hj' => ?_⟩
            rcases List.mem_cons.mp hj with rfl | hj
            · exact hkeeps j fun h0 => absurd h0 href
            · exact hdrops j hj hj'

theorem dropResume_small {drop : ℤ} {rest rest' : List (Fin ne)} (ha : a.MayClear) (h : Inv c T)
    (hclean : c.DropsClean rest) (hs : c.dropResume drop i rest = some (c', rest')) :
    DropSpec a d T l c c' (i :: rest) rest' := by
  unfold Cache.dropResume at hs
  split at hs
  · exact absurd hs (by simp)
  · next hagain =>
    split at hs
    · exact absurd hs (by simp)
    · next hq =>
      split at hs
      · next hp =>
        have hst := h.pf_state (pf_pos_iff.mpr hp)
        have href : (c.e_ i).ref_ = 0 := by
          obtain ⟨h₁, -, -, h₄⟩ := h.entry i
          rw [hst] at h₄
          exact h₁.trans h₄.1
        have hdirty : (c.e_ i).estate_ ≠ .es_dirty := by rw [hst]; simp
        have hloop : (c.cleared i).dropLoop drop rest = some (c', rest') := by
          simpa [Cache.clear, Cache.cleared, Cache.set, href, List.erase_of_not_mem hq] using hs
        exact (dropLoop_small ha (h.clear href hdirty)
          (hclean.cleared fun _ => by simpa using hagain) hloop).clear href hdirty ha
      · exact absurd hs (by simp)

/-! ## The other sections -/

theorem put_small (h : Inv c (.held bn i ::ₘ T)) (hs : c.put i = some c') :
    Small (.put bn i) ⟨c, d, .held bn i ::ₘ T, l⟩ ⟨c', d, T, l⟩ := by
  have hpf : (c.e_ i).estate_ ≠ .es_prefetching := by
    rcases h.held_state (i := i) (by simp [counts, Pc.count]) with hst | hst <;> simp [hst]
  have hsm := Small.put c d T l bn i
  suffices c' = c.released i by rwa [this]
  unfold Cache.put at hs
  simp only at hs
  split at hs
  · exact absurd hs (by simp)
  · split at hs
    · next hcond =>
      split at hs
      · exact absurd hs (by simp)
      · simpa [Cache.released, Cache.set, hcond] using hs.symm
    · next hcond =>
      have hcond' : ¬ ((c.e_ i).ref_ - 1 = 0 ∧ (c.e_ i).bn_ ≠ 0 ∧ (c.e_ i).estate_ ≠ .es_dirty) :=
        fun hc => hcond ⟨hc.1, hc.2.1, hc.2.2, hpf⟩
      rw [Cache.released, if_neg hcond', List.append_nil]
      exact (Option.some.inj hs).symm

omit [Inhabited α] in
theorem syncMark_eq {drop : ℤ} (hs : c.syncMark drop i = some c') : c' = c.marked drop i := by
  unfold Cache.syncMark at hs
  simp only at hs
  split at hs
  · next hcond =>
    split at hs
    · exact absurd hs (by simp)
    · rw [Cache.marked, if_pos hcond]
      exact (Option.some.inj hs).symm
  · next hcond =>
    rw [Cache.marked, if_neg hcond, List.append_nil]
    exact (Option.some.inj hs).symm

/-- An entry in the hand of a `sync` is being popped, or its write reference is taken. -/
theorem dirty_le (hfits : ∀ pc ∈ T, pc.popped ≠ some i) :
    (T.map (·.localCount i)).sum ≤ tcount T i .dirty ∧
      tcount T i .dirty ≤ (T.map (·.localCount i)).sum + tcount T i .wref := by
  induction T using Multiset.induction with
  | empty => exact ⟨le_refl _, le_refl _⟩
  | cons pc T ih =>
    have hT := ih fun pc hmem => hfits pc (Multiset.mem_cons_of_mem hmem)
    have hpc : pc.localCount i ≤ pc.count i .dirty ∧
        pc.count i .dirty ≤ pc.localCount i + pc.count i .wref := by
      cases pc with
      | syncGet drop cont loc e =>
        have hne : i ≠ e := by
          rintro rfl
          exact hfits _ (Multiset.mem_cons_self _ _) rfl
        simp [Pc.count, hne]
      | _ => simp [Pc.count]
    simp only [Multiset.map_cons, Multiset.sum_cons, tcount_cons]
    omega

/-- The second section of `get_write(true)`. -/
theorem push_small (h : Inv c (.pushing bn i ::ₘ T))
    (hfits : ∀ pc ∈ T, pc.popped ≠ some i) :
    Small (.next (.pushing bn i) ok io) ⟨c, d, .pushing bn i ::ₘ T, l⟩
      ⟨c.pushDirty i (State.linked ⟨c, d, .pushing bn i ::ₘ T, l⟩ i), d,
        .writing bn i ::ₘ T, l⟩ := by
  have hle := dirty_le hfits
  have hlink : State.linked ⟨c, d, .pushing bn i ::ₘ T, l⟩ i = true ↔
      i ∈ c.dirty_list_ ∨ 0 < (T.map (·.localCount i)).sum := by
    simp [State.linked, Pc.localCount]
  have hcount : counts c (.pushing bn i ::ₘ T) i .dirty =
      tcount T i .dirty + c.dirty_list_.count i := by
    simp [counts, Pc.count, Pc.localCount, Cache.queued]
  by_cases hl : State.linked ⟨c, d, .pushing bn i ::ₘ T, l⟩ i = true
  · have hdirty : (c.e_ i).estate_ = .es_dirty := by
      rw [h.dirty_state, hcount]
      rcases hlink.mp hl with hmem | hpos
      · have := List.count_pos_iff.mpr hmem
        omega
      · omega
    rw [hl]
    exact .pushOld c d T l ok io bn i hdirty
  · have hnot := fun hc => hl (hlink.mpr hc)
    have hzero : c.dirty_list_.count i = 0 :=
      List.count_eq_zero_of_not_mem fun hmem => hnot (Or.inl hmem)
    have hloc : ¬ 0 < (T.map (·.localCount i)).sum := fun hpos => hnot (Or.inr hpos)
    have hw : tcount T i .wref = 0 := by
      have hwle := (h.entry i).wref_le
      simp [counts, Pc.count, Cache.queued] at hwle
      exact hwle
    have hclean : (c.e_ i).estate_ = .es_clean := by
      rcases h.held_state (i := i) (by simp [counts, Pc.count]) with hst | hst
      · exact hst
      · rw [h.dirty_state, hcount] at hst
        omega
    rw [Bool.eq_false_iff.mpr hl]
    exact .push c d T l ok io bn i hclean

theorem prefetch_block_small {slot : Bool} (hst : (c.e_ i).estate_ = .es_empty)
    (hfresh : c.Fresh bn) (hs : c.prefetch_block bn i ok slot = some c') :
    Smalls (.prefetch bn ok slot) ⟨c, d, T, l⟩ ⟨c', d, T, l⟩ := by
  unfold Cache.prefetch_block at hs
  simp only [hst] at hs
  split at hs
  · next hne => exact absurd rfl hne
  · split at hs
    · split at hs
      · exact absurd hs (by simp)
      · have hsm := Small.prefetch c d T l ok bn slot i ((c.e_ i).buf_.getD default) hst hfresh
        cases slot <;> simp [Cache.set] at hs hsm <;> subst hs <;> exact .main hsm
    · have hq : Quiet (.prefetch bn ok slot) c _ := Quiet.rename c i bn hst
      simp [hst] at hs hq
      subst hs
      exact .quiet _ _ _ _ _ hq (.done _)

theorem prefetch_small {slot : Bool} (h : Inv c T) (hs : c.prefetch bn ok slot = some c') :
    Smalls (.prefetch bn ok slot) ⟨c, d, T, l⟩ ⟨c', d, T, l⟩ := by
  unfold Cache.prefetch at hs
  split at hs
  · rw [Option.some.inj hs]
    exact .done _
  · next hslot =>
    have hfresh := Cache.slotOf_none hslot
    split at hs
    · next i hempty => exact prefetch_block_small (Cache.emptySlot_some hempty) hfresh hs
    · split at hs
      · exact absurd hs (by simp)
      · next i hev =>
        obtain ⟨hr, -⟩ | ⟨j, hr, rfl, href, hst⟩ := evict_spec h hev
        · exact absurd hr (by simp)
        · obtain rfl : i = j := Option.some.inj hr
          refine .quiet _ _ _ _ _ (.clear c i trivial href hst) ?_
          exact prefetch_block_small (by simp [Cache.cleared]) (hfresh.cleared i) hs
      · next hev =>
        obtain ⟨-, rfl⟩ | ⟨i, hr, -⟩ := evict_spec h hev
        · rw [Option.some.inj hs]
          exact .done _
        · exact absurd hr (by simp)

/-! ## All of them -/

theorem next_small (h : Inv c (pc ::ₘ T)) (hfits : Fits ⟨c, d, pc ::ₘ T, l⟩ (.next pc ok io))
    (hs : State.next ⟨c, d, pc ::ₘ T, l⟩ pc ok io = some s') :
    Smalls (.next pc ok io) ⟨c, d, pc ::ₘ T, l⟩ s' := by
  cases pc with
  | get bn => exact get_small h hs
  | getWait bn i => exact getWait_small h hfits hs
  | reading bn i =>
    simp [State.next, State.goto, addTask] at hs
    subst hs
    exact .main (.read c d T l ok io bn i)
  | readDone bn i => exact readDone_small hs
  | waitLoading bn i => exact waitLoading_small h hs
  | held bn i => exact absurd hs (by simp [State.next])
  | pushing bn i =>
    have hT : ∀ pc ∈ T, pc.popped ≠ some i := fun pc hmem =>
      hfits pc (Multiset.mem_cons_of_mem hmem)
    have hsm : Small (.next (.pushing bn i) ok io) ⟨c, d, .pushing bn i ::ₘ T, l⟩ _ :=
      push_small h hT
    simp [State.next, State.goto, addTask] at hs
    subst hs
    exact .main hsm
  | writing bn i => exact absurd hs (by simp [State.next])
  | syncStart drop cont =>
    simp [State.next, State.goto, addTask] at hs
    subst hs
    exact .main (.swap c d T l ok io drop cont)
  | syncLoop drop cont loc =>
    cases loc with
    | cons e loc =>
      have hsm := Small.move c d T l ok io _ _ (Moves.pop drop cont loc e)
      simp [State.next, State.goto] at hs
      subst hs
      exact .main hsm
    | nil =>
      simp only [State.next] at hs
      split at hs
      · next hdrop =>
        split at hs
        · exact absurd hs (by simp)
        · next c₁ rest hloop =>
          simp [State.goto] at hs
          subst hs
          have hspec := dropLoop_small (a := .next (.syncLoop drop cont []) ok io) (d := d) (l := l)
            trivial h (hfits hdrop) hloop
          refine hspec.small _ (.main (.move c₁ d T l ok io _ _ (.drop drop cont rest ?_)))
          exact fun j hj => hspec.drops j (List.mem_finRange j) hj
      · next hdrop =>
        simp [State.goto] at hs
        subst hs
        exact .main (.move c d T l ok io _ _ (.leave drop cont hdrop))
  | syncGet drop cont loc e =>
    have hsm := Small.syncGet c d T l ok io drop cont loc e
    simp only [State.next, Cache.get_write] at hs
    split at hs
    · next hw =>
      simp [State.goto, addTask] at hs
      subst hs
      exact .main (hsm hw)
    · exact absurd hs (by simp)
  | syncWrite drop cont loc e =>
    simp only [State.next, Option.map_eq_some_iff] at hs
    obtain ⟨v, hv, rfl⟩ := hs
    have hsm := Small.syncWrite c d T l ok io drop cont loc e v hv
    simpa [State.goto, addTask] using Smalls.main hsm
  | syncMark drop cont loc e =>
    simp only [State.next, Option.map_eq_some_iff] at hs
    obtain ⟨c', hc, rfl⟩ := hs
    have hsm := Small.syncMark c d T l ok io drop cont loc e
    rw [syncMark_eq hc]
    simpa [State.goto, addTask] using Smalls.main hsm
  | syncPut drop cont loc e =>
    have hsm := Small.syncPut c d T l ok io drop cont loc e
    simp only [State.next, Cache.put_write] at hs
    split at hs
    · simp [State.goto, addTask] at hs
      subst hs
      exact .main hsm
    · exact absurd hs (by simp)
  | syncDrop drop cont i rest =>
    simp only [State.next] at hs
    split at hs
    · exact absurd hs (by simp)
    · next c₁ rest' hloop =>
      simp [State.goto] at hs
      subst hs
      have hspec := dropResume_small (a := .next (.syncDrop drop cont i rest) ok io) (d := d)
        (l := l) trivial h hfits hloop
      refine hspec.small _ (.main (.move c₁ d T l ok io _ _ (.dropOn drop cont i rest rest' ?_)))
      exact fun j hj hj' => hspec.drops j (List.mem_cons.mpr hj) hj'

/-- **A step is made of small steps.** -/
theorem step_small (h : Inv s.c s.tasks) (hfits : Fits s a) (hs : s.step a = some s') :
    Smalls a s s' := by
  obtain ⟨c, d, T, l⟩ := s
  cases a with
  | callGet bn =>
    simp only [State.step, Option.some.injEq] at hs
    subst hs
    exact .main (.callGet c d T l bn)
  | callSync drop =>
    simp only [State.step, Option.some.injEq] at hs
    subst hs
    exact .main (.callSync c d T l drop)
  | next pc ok io =>
    simp only [State.step] at hs
    split at hs
    · next hmem =>
      obtain ⟨T, rfl⟩ := Multiset.exists_cons_of_mem hmem
      exact next_small h hfits hs
    · exact absurd hs (by simp)
  | get_write bn i =>
    simp only [State.step] at hs
    split at hs
    · next hmem =>
      obtain ⟨T, rfl⟩ := Multiset.exists_cons_of_mem hmem
      have hsm := Small.get_write c d T l bn i
      simp only [Cache.get_write] at hs
      split at hs
      · next hw =>
        simp [State.goto, addTask] at hs
        subst hs
        exact .main (hsm hw)
      · exact absurd hs (by simp)
    · exact absurd hs (by simp)
  | modify bn i v =>
    simp only [State.step] at hs
    split at hs
    · next hmem =>
      obtain ⟨T, rfl⟩ := Multiset.exists_cons_of_mem hmem
      simp only [Option.some.injEq] at hs
      subst hs
      exact .main (.modify c d T l bn i v)
    · exact absurd hs (by simp)
  | put_write bn i =>
    simp only [State.step] at hs
    split at hs
    · next hmem =>
      obtain ⟨T, rfl⟩ := Multiset.exists_cons_of_mem hmem
      have hsm := Small.put_write c d T l bn i
      simp only [Cache.put_write] at hs
      split at hs
      · simp [State.goto, addTask] at hs
        subst hs
        exact .main hsm
      · exact absurd hs (by simp)
    · exact absurd hs (by simp)
  | put bn i =>
    simp only [State.step] at hs
    split at hs
    · next hmem =>
      obtain ⟨T, rfl⟩ := Multiset.exists_cons_of_mem hmem
      simp only [Option.map_eq_some_iff] at hs
      obtain ⟨c', hc, rfl⟩ := hs
      simpa [State.goto, addTask] using Smalls.main (put_small h hc (d := d) (l := l))
    · exact absurd hs (by simp)
  | prefetch bn ok slot =>
    simp only [State.step, Option.map_eq_some_iff] at hs
    obtain ⟨c', hc, rfl⟩ := hs
    exact prefetch_small h hc
  | complete i io =>
    simp only [State.step] at hs
    split at hs
    · next hq =>
      simp only [Option.some.injEq] at hs
      subst hs
      exact .main (.complete c d T l i io hq.1)
    · exact absurd hs (by simp)

/-- **A step keeps the invariant.** -/
theorem step_inv (h : Inv s.c s.tasks) (hfits : Fits s a) (hs : s.step a = some s') :
    Inv s'.c s'.tasks := (step_small h hfits hs).inv h

omit [Inhabited α] in
theorem inv_init (d : ℕ → α) : Inv (State.init d).c (State.init d).tasks := by
  constructor
  · exact fun i => ⟨rfl, rfl, Nat.zero_le 1, rfl, rfl, rfl, rfl⟩
  · exact fun i j hi => absurd rfl hi

end Chickadee.Bufcache
