import Chickadee.Bufcache.Small

/-!
# Small steps keep the invariant

One lemma for each small step. All of them go through `Inv.local`: the step changes one entry, and
its numbers change in step with its fields.
-/

namespace Chickadee.Bufcache

variable {α : Type*} {c c' : Cache α} {T : Multiset Pc} {i j : Fin ne} {bn : ℕ} {pc : Pc}
  {b : Bcentry α}

@[simp] theorem Cache.set_e_self : (c.set i b).e_ i = b := Function.update_self ..

theorem Cache.set_e_ne (h : j ≠ i) : (c.set i b).e_ j = c.e_ j := Function.update_of_ne h ..

@[simp] theorem Cache.set_evictq_ : (c.set i b).evictq_ = c.evictq_ := rfl

@[simp] theorem Cache.set_pfq_ : (c.set i b).pfq_ = c.pfq_ := rfl

@[simp] theorem Cache.set_dirty_list_ : (c.set i b).dirty_list_ = c.dirty_list_ := rfl

/-! ## Moves -/

theorem count_syncReturn (cont : Option ℕ) (h : Inv c T) : Inv c (addTask T (syncReturn cont)) := by
  cases cont with
  | none => exact h
  | some bn => exact (Inv.idle_iff idle_get).mpr h

theorem count_dropReturn (drop : ℤ) (cont : Option ℕ) (rest : List (Fin ne)) (h : Inv c T) :
    Inv c (addTask T (dropReturn drop cont rest)) := by
  cases rest with
  | nil => exact count_syncReturn cont h
  | cons i rest => exact (Inv.idle_iff (idle_syncDrop drop cont rest)).mpr h

theorem Inv.move {pc' : Option Pc} (h : Inv c (pc ::ₘ T)) (hm : Moves c pc pc') :
    Inv c (addTask T pc') := by
  cases hm with
  | null bn => exact (Inv.idle_iff idle_get).mp h
  | nullWait bn i => exact (Inv.idle_iff idle_getWait).mp h
  | full bn => exact (Inv.idle_iff (idle_syncStart 0 _)).mpr ((Inv.idle_iff idle_get).mp h)
  | wait bn i => exact (Inv.idle_iff idle_getWait).mpr ((Inv.idle_iff idle_get).mp h)
  | leave drop cont => exact count_syncReturn cont ((Inv.idle_iff (idle_syncDone drop cont)).mp h)
  | drop drop cont rest =>
    exact count_dropReturn drop cont rest ((Inv.idle_iff (idle_syncDone drop cont)).mp h)
  | dropOn drop cont i rest rest' =>
    exact count_dropReturn drop cont rest' ((Inv.idle_iff (idle_syncDrop drop cont rest)).mp h)
  | pop drop cont loc e =>
    -- the popped entry is in the hand of the task now
    refine h.congr (fun _ => ⟨rfl, rfl, rfl, rfl⟩) fun j k => ?_
    cases k with
    | dirty =>
      by_cases hj : j = e
      · simp [counts, addTask, Pc.count, Pc.localCount, hj]
      · have hj' : ¬ e = j := fun he => hj he.symm
        simp [counts, addTask, Pc.count, Pc.localCount, hj, hj']
    | _ => simp [counts, addTask, Pc.count]

/-! ## Clearing and filling an entry -/

theorem Inv.clear (h : Inv c T) (href : (c.e_ i).ref_ = 0) (hst : (c.e_ i).estate_ ≠ .es_dirty) :
    Inv (c.cleared i) T := by
  refine h.local i (fun j hj => Cache.set_e_ne hj) ?_ ?_ ?_
  · intro j hj k
    cases k <;> simp [counts, Cache.queued, Cache.cleared, hj]
  · obtain ⟨h₁, h₂, h₃, h₄⟩ := h.entry i
    have hdirty : ¬ 0 < counts c T i .dirty := fun hd => hst (h.dirty_state.mpr hd)
    have hpf : 0 < counts c T i .pf → counts c T i .pf ≤ 1 := by
      intro hp
      rw [h.pf_state hp] at h₄
      exact h₄.2.2.2
    have hev : 0 < counts c T i .evict → counts c T i .evict = 1 := fun he => (h.evict_state he).2.2
    simp only [counts, Cache.queued, tcount_evict, tcount_pf] at h₁ h₂ h₃ hdirty hpf hev
    constructor
    · simpa [counts, Cache.queued, Cache.cleared] using h₁
    · simpa [counts, Cache.queued, Cache.cleared] using h₂
    · simpa [counts, Cache.queued, Cache.cleared] using h₃
    · simp [counts, Cache.queued, Cache.cleared, StateOk]
      omega
  · intro hne
    simp [Cache.cleared] at hne

theorem Inv.rename (h : Inv c T) (hst : (c.e_ i).estate_ = .es_empty) :
    Inv (c.set i { c.e_ i with bn_ := bn }) T := by
  refine h.local i (fun j hj => Cache.set_e_ne hj) (fun j hj k => rfl) ?_ ?_
  · obtain ⟨h₁, h₂, h₃, h₄⟩ := h.entry i
    rw [Cache.set_e_self]
    exact ⟨h₁, h₂, h₃, h₄⟩
  · intro hne
    rw [Cache.set_e_self] at hne
    exact absurd hst hne

theorem Inv.allocate {v : α} (h : Inv c (pc ::ₘ T)) (hpc : pc.Idle)
    (hst : (c.e_ i).estate_ = .es_empty) (hbn : c.Fresh bn) :
    Inv (c.set i { c.e_ i with
      estate_ := .es_loading, bn_ := bn, ref_ := (c.e_ i).ref_ + 1, buf_ := some v })
      (.reading bn i ::ₘ T) := by
  rw [Inv.idle_iff hpc] at h
  refine h.local i (fun j hj => Cache.set_e_ne hj) ?_ ?_ ?_
  · intro j hj k
    cases k <;> simp [counts, Pc.count, Pc.localCount, Cache.queued, hj]
  · obtain ⟨h₁, h₂, h₃, h₄⟩ := h.entry i
    have hle := counts_le c T i
    rw [hst] at h₄
    simp only [counts, Cache.queued, StateOk, tcount_evict, tcount_pf] at h₁ h₂ h₃ h₄ hle
    constructor <;>
      simp [counts, Pc.count, Pc.localCount, Cache.queued, StateOk] <;>
      omega
  · intro _
    rw [Cache.set_e_self]
    exact Or.inr fun j _ hne => hbn j hne

theorem Inv.prefetch {v : α} {slot : Bool} (h : Inv c T) (hst : (c.e_ i).estate_ = .es_empty)
    (hbn : c.Fresh bn) :
    Inv { c.set i { c.e_ i with
      bn_ := bn, again := true, estate_ := .es_prefetching, buf_ := some v } with
      pfq_ := c.pfq_ ++ (if slot then [i] else []) } T := by
  refine h.local i (fun j hj => Cache.set_e_ne hj) ?_ ?_ ?_
  · intro j hj k
    have hj' : ¬ i = j := fun he => hj he.symm
    cases k <;> cases slot <;> simp [counts, Cache.queued, hj']
  · obtain ⟨h₁, h₂, h₃, h₄⟩ := h.entry i
    rw [hst] at h₄
    simp only [counts, Cache.queued, StateOk, tcount_evict, tcount_pf] at h₁ h₂ h₃ h₄
    constructor <;> cases slot <;> simp [counts, Cache.queued, StateOk] <;> omega
  · intro _
    simp only [Cache.set_e_self]
    exact Or.inr fun j _ hne => hbn j hne

/-! ## References -/

theorem idle_of_finds (h : c.Finds bn i pc) : pc.Idle := by
  rcases h with ⟨rfl, -⟩ | rfl
  · exact idle_get
  · exact idle_getWait

theorem Inv.await (h : Inv c (pc ::ₘ T)) (hpc : pc.Idle) (hst : (c.e_ i).estate_ = .es_loading) :
    Inv (c.set i { c.e_ i with ref_ := (c.e_ i).ref_ + 1 }) (.waitLoading bn i ::ₘ T) := by
  rw [Inv.idle_iff hpc] at h
  refine h.local i (fun j hj => Cache.set_e_ne hj) ?_ ?_ ?_
  · intro j hj k
    cases k <;> simp [counts, Pc.count, Pc.localCount, Cache.queued, hj]
  · obtain ⟨h₁, h₂, h₃, h₄⟩ := h.entry i
    rw [hst] at h₄
    simp only [counts, Cache.queued, StateOk, tcount_evict, tcount_pf] at h₁ h₂ h₃ h₄
    constructor <;>
      simp [counts, Pc.count, Pc.localCount, Cache.queued, StateOk, hst] <;>
      omega
  · intro _
    simp [hst]

theorem Inv.reference (h : Inv c (pc ::ₘ T)) (hpc : pc.Idle)
    (hst : (c.e_ i).estate_ = .es_clean ∨ (c.e_ i).estate_ = .es_dirty) :
    Inv { c.set i { c.e_ i with ref_ := (c.e_ i).ref_ + 1 } with evictq_ := c.evictq_.erase i }
      (.held bn i ::ₘ T) := by
  rw [Inv.idle_iff hpc] at h
  refine h.local i (fun j hj => Cache.set_e_ne hj) ?_ ?_ ?_
  · intro j hj k
    cases k <;> simp [counts, Pc.count, Pc.localCount, Cache.queued, hj]
  · obtain ⟨h₁, h₂, h₃, h₄⟩ := h.entry i
    rcases hst with hst | hst
    all_goals
      rw [hst] at h₄
      simp only [counts, Cache.queued, StateOk, tcount_evict, tcount_pf] at h₁ h₂ h₃ h₄
      constructor <;>
        simp [counts, Pc.count, Pc.localCount, Cache.queued, StateOk, hst] <;>
        omega
  · intro hne
    exact Or.inl ⟨by simpa using hne, by simp⟩

theorem Inv.hit (h : Inv c (pc ::ₘ T)) (hpc : pc.Idle)
    (hst : (c.e_ i).estate_ = .es_prefetching) :
    Inv { c.set i { c.e_ i with ref_ := (c.e_ i).ref_ + 1, estate_ := .es_clean } with
      pfq_ := c.pfq_.erase i } (.held bn i ::ₘ T) := by
  rw [Inv.idle_iff hpc] at h
  refine h.local i (fun j hj => Cache.set_e_ne hj) ?_ ?_ ?_
  · intro j hj k
    cases k <;> simp [counts, Pc.count, Pc.localCount, Cache.queued, hj]
  · obtain ⟨h₁, h₂, h₃, h₄⟩ := h.entry i
    have hle := counts_le c T i
    rw [hst] at h₄
    simp only [counts, Cache.queued, StateOk, tcount_evict, tcount_pf] at h₁ h₂ h₃ h₄ hle
    constructor <;>
      simp [counts, Pc.count, Pc.localCount, Cache.queued, StateOk] <;>
      omega
  · intro _
    simp [hst]

theorem Inv.wake (h : Inv c (.waitLoading bn i ::ₘ T))
    (hst : (c.e_ i).estate_ = .es_clean ∨ (c.e_ i).estate_ = .es_dirty) :
    Inv c (.held bn i ::ₘ T) := by
  refine h.local i (fun j _ => rfl) ?_ ?_ fun hne => Or.inl ⟨hne, rfl⟩
  · intro j hj k
    cases k <;> simp [counts, Pc.count, Pc.localCount, Cache.queued, hj]
  · obtain ⟨h₁, h₂, h₃, h₄⟩ := h.entry i
    rcases hst with hst | hst
    all_goals
      rw [hst] at h₄
      simp [counts, Pc.count, Pc.localCount, Cache.queued, StateOk] at h₁ h₂ h₃ h₄
      constructor <;>
        simp [counts, Pc.count, Pc.localCount, Cache.queued, StateOk, hst] <;>
        omega

theorem Inv.put (h : Inv c (.held bn i ::ₘ T)) : Inv (c.released i) T := by
  have hst := h.held_state (i := i) (by simp [counts, Pc.count])
  have hle := counts_le c T i
  refine h.local i (fun j hj => Cache.set_e_ne hj) ?_ ?_ ?_
  · intro j hj k
    have hj' : ¬ i = j := fun he => hj he.symm
    cases k <;> simp [counts, Pc.count, Pc.localCount, Cache.queued, Cache.released, hj]
    split <;> simp [hj']
  · obtain ⟨h₁, h₂, h₃, h₄⟩ := h.entry i
    rcases hst with hst | hst
    all_goals
      rw [hst] at h₄
      simp [counts, Pc.count, Pc.localCount, Cache.queued, StateOk] at h₁ h₂ h₃ h₄ hle
      constructor <;>
        simp [counts, Cache.queued, Cache.released, StateOk, hst] <;>
        (try split_ifs) <;> (try simp) <;>
        omega
  · intro hne
    exact Or.inl ⟨by simpa [Cache.released] using hne, by simp [Cache.released]⟩

/-! ## Reading -/

theorem Inv.read {v : α} (h : Inv c (.reading bn i ::ₘ T)) :
    Inv (c.set i { c.e_ i with buf_ := some v }) (.readDone bn i ::ₘ T) := by
  refine h.congr (fun j => ?_) fun j k => ?_
  · by_cases hj : j = i
    · subst hj
      simp
    · rw [Cache.set_e_ne hj]
      exact ⟨rfl, rfl, rfl, rfl⟩
  · cases k <;> simp [counts, Pc.count, Pc.localCount, Cache.queued]

theorem Inv.loaded (h : Inv c (.readDone bn i ::ₘ T)) :
    Inv (c.set i { c.e_ i with estate_ := .es_clean }) (.held bn i ::ₘ T) := by
  have hst := h.read_state (i := i) (by simp [counts, Pc.count])
  have hle := counts_le c T i
  refine h.local i (fun j hj => Cache.set_e_ne hj) ?_ ?_ ?_
  · intro j hj k
    cases k <;> simp [counts, Pc.count, Pc.localCount, Cache.queued, hj]
  · obtain ⟨h₁, h₂, h₃, h₄⟩ := h.entry i
    rw [hst] at h₄
    simp [counts, Pc.count, Pc.localCount, Cache.queued, StateOk] at h₁ h₂ h₃ h₄ hle
    constructor <;>
      simp [counts, Pc.count, Pc.localCount, Cache.queued, StateOk] <;>
      omega
  · intro _
    simp [hst]

/-! ## Writing -/

theorem Inv.get_write (h : Inv c (.held bn i ::ₘ T)) (hw : (c.e_ i).wref_ = 0) :
    Inv (c.set i { c.e_ i with wref_ := 1 }) (.pushing bn i ::ₘ T) := by
  have hst := h.held_state (i := i) (by simp [counts, Pc.count])
  refine h.local i (fun j hj => Cache.set_e_ne hj) ?_ ?_ ?_
  · intro j hj k
    cases k <;> simp [counts, Pc.count, Pc.localCount, Cache.queued, hj]
  · obtain ⟨h₁, h₂, h₃, h₄⟩ := h.entry i
    rcases hst with hst | hst
    all_goals
      rw [hst] at h₄
      simp [counts, Pc.count, Pc.localCount, Cache.queued, StateOk] at h₁ h₂ h₃ h₄
      constructor <;>
        simp [counts, Pc.count, Pc.localCount, Cache.queued, StateOk, hst] <;>
        omega
  · intro hne
    exact Or.inl ⟨by simpa using hne, by simp⟩

theorem Inv.pushOld (h : Inv c (.pushing bn i ::ₘ T)) (hst : (c.e_ i).estate_ = .es_dirty) :
    Inv c (.writing bn i ::ₘ T) := by
  refine h.local i (fun j _ => rfl) ?_ ?_ fun hne => Or.inl ⟨hne, rfl⟩
  · intro j hj k
    cases k <;> simp [counts, Pc.count, Pc.localCount, Cache.queued, hj]
  · obtain ⟨h₁, h₂, h₃, h₄⟩ := h.entry i
    rw [hst] at h₄
    simp [counts, Pc.count, Pc.localCount, Cache.queued, StateOk] at h₁ h₂ h₃ h₄
    constructor <;>
      simp [counts, Pc.count, Pc.localCount, Cache.queued, StateOk, hst] <;>
      omega

theorem Inv.push (h : Inv c (.pushing bn i ::ₘ T)) (hst : (c.e_ i).estate_ = .es_clean) :
    Inv { c.set i { c.e_ i with estate_ := .es_dirty } with dirty_list_ := c.dirty_list_ ++ [i] }
      (.writing bn i ::ₘ T) := by
  refine h.local i (fun j hj => Cache.set_e_ne hj) ?_ ?_ ?_
  · intro j hj k
    have hj' : ¬ i = j := fun he => hj he.symm
    cases k <;> simp [counts, Pc.count, Pc.localCount, Cache.queued, hj, hj']
  · obtain ⟨h₁, h₂, h₃, h₄⟩ := h.entry i
    have hle := counts_le c T i
    rw [hst] at h₄
    simp [counts, Pc.count, Pc.localCount, Cache.queued, StateOk] at h₁ h₂ h₃ h₄ hle
    constructor <;>
      simp [counts, Pc.count, Pc.localCount, Cache.queued, StateOk] <;>
      omega
  · intro _
    simp [hst]

theorem Inv.modify {v : α} (h : Inv c T) : Inv (c.set i { c.e_ i with buf_ := some v }) T := by
  refine h.congr (fun j => ?_) fun j k => rfl
  by_cases hj : j = i
  · subst hj
    simp
  · rw [Cache.set_e_ne hj]
    exact ⟨rfl, rfl, rfl, rfl⟩

theorem Inv.complete {v : α} (h : Inv c T) :
    Inv (c.set i { c.e_ i with buf_ := some v, again := false }) T := by
  refine h.congr (fun j => ?_) fun j k => rfl
  by_cases hj : j = i
  · subst hj
    simp
  · rw [Cache.set_e_ne hj]
    exact ⟨rfl, rfl, rfl, rfl⟩

theorem Inv.put_write (h : Inv c (.writing bn i ::ₘ T)) :
    Inv (c.set i { c.e_ i with wref_ := 0 }) (.held bn i ::ₘ T) := by
  have hst := h.write_state (i := i) (by simp [counts, Pc.count])
  refine h.local i (fun j hj => Cache.set_e_ne hj) ?_ ?_ ?_
  · intro j hj k
    cases k <;> simp [counts, Pc.count, Pc.localCount, Cache.queued, hj]
  · obtain ⟨h₁, h₂, h₃, h₄⟩ := h.entry i
    rw [hst] at h₄
    simp [counts, Pc.count, Pc.localCount, Cache.queued, StateOk] at h₁ h₂ h₃ h₄
    constructor <;>
      simp [counts, Pc.count, Pc.localCount, Cache.queued, StateOk, hst] <;>
      omega
  · intro _
    simp [hst]

/-! ## `sync` -/

theorem Inv.swap {drop : ℤ} {cont : Option ℕ} (h : Inv c (.syncStart drop cont ::ₘ T)) :
    Inv { c with dirty_list_ := [] } (.syncLoop drop cont c.dirty_list_ ::ₘ T) := by
  refine h.congr (fun _ => ⟨rfl, rfl, rfl, rfl⟩) fun j k => ?_
  cases k <;> simp [counts, Pc.count, Pc.localCount, Cache.queued]
  omega

/-- An entry that `sync` has in its hand is dirty. -/
theorem Inv.hand_state (h : Inv c (pc ::ₘ T)) (hpc : 0 < pc.count i .dirty) :
    (c.e_ i).estate_ = .es_dirty := by
  rw [h.dirty_state, counts, tcount_cons]
  omega

theorem Inv.syncGet {drop : ℤ} {cont : Option ℕ} {loc : List (Fin ne)}
    (h : Inv c (.syncGet drop cont loc i ::ₘ T)) (hw : (c.e_ i).wref_ = 0) :
    Inv (c.set i { c.e_ i with wref_ := 1 }) (.syncWrite drop cont loc i ::ₘ T) := by
  have hst := h.hand_state (i := i) (by simp [Pc.count])
  refine h.local i (fun j hj => Cache.set_e_ne hj) ?_ ?_ ?_
  · intro j hj k
    cases k <;> simp [counts, Pc.count, Pc.localCount, Cache.queued, hj]
  · obtain ⟨h₁, h₂, h₃, h₄⟩ := h.entry i
    rw [hst] at h₄
    simp [counts, Pc.count, Pc.localCount, Cache.queued, StateOk] at h₁ h₂ h₃ h₄
    constructor <;>
      simp [counts, Pc.count, Pc.localCount, Cache.queued, StateOk, hst] <;>
      omega
  · intro hne
    exact Or.inl ⟨by simpa using hne, by simp⟩

theorem Inv.syncWrite {drop : ℤ} {cont : Option ℕ} {loc : List (Fin ne)}
    (h : Inv c (.syncWrite drop cont loc i ::ₘ T)) : Inv c (.syncMark drop cont loc i ::ₘ T) := by
  refine h.congr (fun _ => ⟨rfl, rfl, rfl, rfl⟩) fun j k => ?_
  cases k <;> simp [counts, Pc.count, Pc.localCount, Cache.queued]

theorem Inv.syncMark {drop : ℤ} {cont : Option ℕ} {loc : List (Fin ne)}
    (h : Inv c (.syncMark drop cont loc i ::ₘ T)) :
    Inv (c.marked drop i) (.syncPut drop cont loc i ::ₘ T) := by
  have hst := h.hand_state (i := i) (by simp [Pc.count])
  have hle := counts_le c T i
  refine h.local i (fun j hj => Cache.set_e_ne hj) ?_ ?_ ?_
  · intro j hj k
    have hj' : ¬ i = j := fun he => hj he.symm
    cases k <;> simp [counts, Pc.count, Pc.localCount, Cache.queued, Cache.marked, hj]
    split <;> simp [hj']
  · obtain ⟨h₁, h₂, h₃, h₄⟩ := h.entry i
    rw [hst] at h₄
    simp [counts, Pc.count, Pc.localCount, Cache.queued, StateOk] at h₁ h₂ h₃ h₄ hle
    constructor <;>
      simp [counts, Pc.count, Pc.localCount, Cache.queued, Cache.marked, StateOk] <;>
      (try split_ifs) <;> (try simp) <;>
      omega
  · intro _
    simp [Cache.marked, hst]

theorem Inv.syncPut {drop : ℤ} {cont : Option ℕ} {loc : List (Fin ne)}
    (h : Inv c (.syncPut drop cont loc i ::ₘ T)) :
    Inv (c.set i { c.e_ i with wref_ := 0 }) (.syncLoop drop cont loc ::ₘ T) := by
  refine h.local i (fun j hj => Cache.set_e_ne hj) ?_ ?_ ?_
  · intro j hj k
    cases k <;> simp [counts, Pc.count, Pc.localCount, Cache.queued, hj]
  · obtain ⟨h₁, h₂, h₃, h₄⟩ := h.entry i
    have hn : ∀ k, k ≠ .wref → counts (c.set i { c.e_ i with wref_ := 0 })
        (.syncLoop drop cont loc ::ₘ T) i k = counts c (.syncPut drop cont loc i ::ₘ T) i k := by
      intro k hk
      cases k <;> simp [counts, Pc.count, Pc.localCount, Cache.queued] at hk ⊢
    simp [counts, Pc.count, Cache.queued] at h₂ h₃
    refine ⟨?_, ?_, ?_, ?_⟩
    · rw [hn .ref (by simp), Cache.set_e_self]
      exact h₁
    · simp [counts, Pc.count, Cache.queued]
      omega
    · simp [counts, Pc.count, Cache.queued]
      omega
    · rw [Cache.set_e_self]
      generalize (c.e_ i).estate_ = st at h₄
      cases st with
      | es_allocated => exact h₄.elim
      | _ => simpa [StateOk, hn] using h₄
  · intro hne
    exact Or.inl ⟨by simpa using hne, by simp⟩

/-! ## All of them -/

/-- **Every small step keeps the invariant.** -/
theorem Small.inv [Inhabited α] {a : Act α} {s s' : State α} (hs : Small a s s')
    (h : Inv s.c s.tasks) : Inv s'.c s'.tasks := by
  cases hs with
  | callGet => exact (Inv.idle_iff idle_get).mpr h
  | callSync => exact (Inv.idle_iff (idle_syncStart _ _)).mpr h
  | move _ _ _ _ _ _ _ _ hm => exact h.move hm
  | allocate _ _ _ _ _ _ _ _ _ _ hpc hst hbn =>
    refine h.allocate ?_ hst hbn
    rcases hpc with rfl | rfl
    · exact idle_get
    · exact idle_getWait
  | await _ _ _ _ _ _ _ _ _ hpc hst => exact h.await (idle_of_finds hpc) hst
  | reference _ _ _ _ _ _ _ _ _ hpc hst => exact h.reference (idle_of_finds hpc) hst
  | hit _ _ _ _ _ _ _ _ _ hpc hst => exact h.hit (idle_of_finds hpc) hst
  | read => exact h.read
  | loaded => exact h.loaded
  | wake _ _ _ _ _ _ _ _ hst => exact h.wake hst
  | put => exact h.put
  | get_write _ _ _ _ _ _ hw => exact h.get_write hw
  | pushOld _ _ _ _ _ _ _ _ hst => exact h.pushOld hst
  | push _ _ _ _ _ _ _ _ hst => exact h.push hst
  | modify => exact h.modify
  | put_write => exact h.put_write
  | swap => exact h.swap
  | syncGet _ _ _ _ _ _ _ _ _ _ hw => exact h.syncGet hw
  | syncWrite => exact h.syncWrite
  | syncMark => exact h.syncMark
  | syncPut => exact h.syncPut
  | prefetch _ _ _ _ _ _ _ _ _ hst hbn => exact h.prefetch hst hbn
  | complete => exact h.complete

theorem Quiet.inv {a : Act α} (hq : Quiet a c c') (h : Inv c T) : Inv c' T := by
  cases hq with
  | clear i ha href hst => exact h.clear href hst
  | rename i bn hst => exact h.rename hst

/--
What quiet steps keep, and what small steps make of it, given the invariant, is what a whole step
makes of it.
-/
theorem Smalls.keep [Inhabited α] {a : Act α} {s s' : State α} {P Q : State α → Prop}
    (hquiet : ∀ c c' d T l, Inv c T → Quiet a c c' → P ⟨c, d, T, l⟩ → P ⟨c', d, T, l⟩)
    (hsmall : ∀ s s', Inv s.c s.tasks → Small a s s' → P s → Q s') (hdone : ∀ s, P s → Q s)
    (hs : Smalls a s s') (h : Inv s.c s.tasks) (hP : P s) : Q s' := by
  induction hs with
  | done => exact hdone _ hP
  | main hsm => exact hsmall _ _ h hsm hP
  | quiet c c' d T l hq _ ih => exact ih (hq.inv h) (hquiet c c' d T l h hq hP)

theorem Smalls.inv [Inhabited α] {a : Act α} {s s' : State α} (hs : Smalls a s s')
    (h : Inv s.c s.tasks) : Inv s'.c s'.tasks :=
  hs.keep (P := fun s => Inv s.c s.tasks) (fun _ _ _ _ _ h hq _ => hq.inv h)
    (fun _ _ h hsm _ => hsm.inv h) (fun _ h => h) h h

end Chickadee.Bufcache
