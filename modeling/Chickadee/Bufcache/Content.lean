import Chickadee.Bufcache.Queues

/-!
# No update is lost

The latest contents of a block are those of the last modification in the log. In every run that
avoids the overlaps of `Fits`, and in which the disk does what it is asked to do, they are in a
dirty entry that is bound to be written, or on disk.
-/

namespace Chickadee.Bufcache

open Chickadee.Lib

variable {α : Type*}

/-- The contents of all blocks after the events, the latest first. -/
def replay (d : ℕ → α) : List (Event α) → ℕ → α
  | [] => d
  | .got _ _ _ :: l => replay d l
  | .wrote bn v :: l => Function.update (replay d l) bn v

/--
What the buffers and the disk contain, when `m` are the latest contents. A block without a dirty
entry is up to date on disk.
-/
structure Content (m : ℕ → α) (c : Cache α) (disk : ℕ → α) (T : Multiset Pc) : Prop where
  clean : ∀ i, (c.e_ i).estate_ = .es_clean → (c.e_ i).buf_ = some (m (c.e_ i).bn_)
  dirty : ∀ i, (c.e_ i).estate_ = .es_dirty → (c.e_ i).buf_ = some (m (c.e_ i).bn_)
  fetched : ∀ i, (c.e_ i).estate_ = .es_prefetching → (c.e_ i).again = false →
    (c.e_ i).buf_ = some (m (c.e_ i).bn_)
  read : ∀ bn i, .readDone bn i ∈ T → (c.e_ i).buf_ = some (m (c.e_ i).bn_)
  written : ∀ drop cont loc e, .syncMark drop cont loc e ∈ T →
    disk (c.e_ e).bn_ = m (c.e_ e).bn_
  disk : ∀ bn, (∀ i, (c.e_ i).estate_ = .es_dirty → (c.e_ i).bn_ ≠ bn) → disk bn = m bn

/-- The disk does what the step asks it to do. -/
def DiskOk : Act α → Prop
  | .next _ _ io => io = none
  | .complete _ io => io = none
  | _ => True

instance : (a : Act α) → Decidable (DiskOk a)
  | .next _ _ io | .complete _ io => inferInstanceAs (Decidable (io = none))
  | .callGet _ | .callSync _ | .get_write _ _ | .modify _ _ _ | .put_write _ _ | .put _ _ | .prefetch _ _ _ =>
    .isTrue trivial

variable {c c' : Cache α} {disk m : ℕ → α} {T T' : Multiset Pc} {i j : Fin ne} {bn : ℕ} {pc : Pc}
  {a : Act α} {s s' : State α}

/-- Tasks whose place says something about contents. -/
def Pc.Watched : Pc → Prop
  | .readDone _ _ => True
  | .syncMark _ _ _ _ => True
  | _ => False

/-! ## Steps that do not touch contents -/

/-- A step that moves tasks, without new watched ones. -/
theorem Content.tasks (h : Content m c disk T) (hT : ∀ pc ∈ T', pc.Watched → pc ∈ T) :
    Content m c disk T' where
  clean := h.clean
  dirty := h.dirty
  fetched := h.fetched
  read := fun bn i hmem => h.read bn i (hT _ hmem trivial)
  written := fun drop cont loc e hmem => h.written drop cont loc e (hT _ hmem trivial)
  disk := h.disk

/-- A step that changes counters and queues. -/
theorem Content.congr (h : Content m c disk T) (he : ∀ j, (c'.e_ j).estate_ = (c.e_ j).estate_ ∧
    (c'.e_ j).bn_ = (c.e_ j).bn_ ∧ (c'.e_ j).buf_ = (c.e_ j).buf_ ∧
    (c'.e_ j).again = (c.e_ j).again) : Content m c' disk T where
  clean := fun j => by rw [(he j).1, (he j).2.1, (he j).2.2.1]; exact h.clean j
  dirty := fun j => by rw [(he j).1, (he j).2.1, (he j).2.2.1]; exact h.dirty j
  fetched := fun j => by
    rw [(he j).1, (he j).2.1, (he j).2.2.1, (he j).2.2.2]
    exact h.fetched j
  read := fun bn j => by rw [(he j).2.1, (he j).2.2.1]; exact h.read bn j
  written := fun drop cont loc e => by rw [(he e).2.1]; exact h.written drop cont loc e
  disk := fun bn hbn => h.disk bn fun j hj => by
    rw [← (he j).2.1]
    exact hbn j ((he j).1.trans hj)

theorem Content.congr_set (h : Content m c disk T) (hother : ∀ j, j ≠ i → c'.e_ j = c.e_ j)
    (hi : (c'.e_ i).estate_ = (c.e_ i).estate_ ∧ (c'.e_ i).bn_ = (c.e_ i).bn_ ∧
      (c'.e_ i).buf_ = (c.e_ i).buf_ ∧ (c'.e_ i).again = (c.e_ i).again) :
    Content m c' disk T := by
  refine h.congr fun j => ?_
  by_cases hj : j = i
  · rw [hj]
    exact hi
  · rw [hother j hj]
    exact ⟨rfl, rfl, rfl, rfl⟩

/--
A step that changes entry `i`, which is neither read nor written by a task and was not dirty. The
new state is up to date.
-/
theorem Content.entry (h : Content m c disk T) (hother : ∀ j, j ≠ i → c'.e_ j = c.e_ j)
    (hold : (c.e_ i).estate_ ≠ .es_dirty)
    (hread : ∀ bn, .readDone bn i ∉ T) (hmark : ∀ drop cont loc, .syncMark drop cont loc i ∉ T)
    (hi : (c'.e_ i).estate_ = .es_clean ∨ (c'.e_ i).estate_ = .es_dirty ∨
      (c'.e_ i).estate_ = .es_prefetching ∧ (c'.e_ i).again = false →
        (c'.e_ i).buf_ = some (m (c'.e_ i).bn_)) : Content m c' disk T := by
  refine ⟨?_, ?_, ?_, ?_, ?_, ?_⟩
  · intro j hj
    by_cases hji : j = i
    · subst hji
      exact hi (Or.inl hj)
    · rw [hother j hji] at hj ⊢
      exact h.clean j hj
  · intro j hj
    by_cases hji : j = i
    · subst hji
      exact hi (Or.inr (Or.inl hj))
    · rw [hother j hji] at hj ⊢
      exact h.dirty j hj
  · intro j hj hagain
    by_cases hji : j = i
    · subst hji
      exact hi (Or.inr (Or.inr ⟨hj, hagain⟩))
    · rw [hother j hji] at hj hagain ⊢
      exact h.fetched j hj hagain
  · intro bn j hmem
    by_cases hji : j = i
    · subst hji
      exact absurd hmem (hread bn)
    · rw [hother j hji]
      exact h.read bn j hmem
  · intro drop cont loc e hmem
    by_cases hei : e = i
    · subst hei
      exact absurd hmem (hmark drop cont loc)
    · rw [hother e hei]
      exact h.written drop cont loc e hmem
  · intro bn hbn
    refine h.disk bn fun j hj => ?_
    by_cases hji : j = i
    · subst hji
      exact absurd hj hold
    · rw [← hother j hji]
      exact hbn j (by rw [hother j hji]; exact hj)

/-! ## What the numbers say about tasks -/

theorem tcount_pos {k : Kind} (hmem : pc ∈ T) (hpc : 0 < pc.count i k) : 0 < tcount T i k := by
  obtain ⟨T, rfl⟩ := Multiset.exists_cons_of_mem hmem
  rw [tcount_cons]
  omega

/-- An entry that is not loading is not read. -/
theorem Inv.not_read (h : Inv c T) (hst : (c.e_ i).estate_ ≠ .es_loading) (bn : ℕ) :
    .readDone bn i ∉ T := fun hmem =>
  hst (h.read_state (Nat.add_pos_left (tcount_pos hmem (by simp [Pc.count])) _))

/-- An entry that is not dirty is not being written. -/
theorem Inv.not_mark (h : Inv c T) (hst : (c.e_ i).estate_ ≠ .es_dirty) (drop : ℤ)
    (cont : Option ℕ) (loc : List (Fin ne)) : .syncMark drop cont loc i ∉ T := fun hmem =>
  hst (h.dirty_state.mpr (Nat.add_pos_left (tcount_pos hmem (by simp [Pc.count])) _))

/-- Without the task that reads an entry nobody reads it. -/
theorem Inv.only_reader (h : Inv c (pc ::ₘ T)) (hpc : pc.count i .read = 1) (bn : ℕ) :
    .readDone bn i ∉ T := by
  intro hmem
  have hS := (h.entry i).state
  have hcount : counts c (pc ::ₘ T) i .read = 1 + tcount T i .read := by
    simp [counts, hpc, Cache.queued]
  have hpos := tcount_pos (i := i) (k := .read) hmem (by simp [Pc.count])
  rw [h.read_state (i := i) (by omega)] at hS
  have h1 := hS.1
  omega

/-- A block with a non-empty entry that is not dirty is up to date on disk. -/
theorem Content.disk_eq (h : Content m c disk T) (hinv : Inv c T)
    (hne : (c.e_ i).estate_ ≠ .es_empty) (hst : (c.e_ i).estate_ ≠ .es_dirty) :
    disk (c.e_ i).bn_ = m (c.e_ i).bn_ := by
  refine h.disk _ fun j hj hbn => hst ?_
  rw [← hinv.unique j i (by rw [hj]; simp) hne hbn]
  exact hj

/-! ## Steps that touch contents -/

/-- Adding a task that is not watched, for one that may have been. -/
theorem Content.retask {P : Pc} (h : Content m c disk (P ::ₘ T)) (P' : Pc)
    (hP : ¬ P'.Watched := by exact id) :
    Content m c disk (P' ::ₘ T) := by
  refine h.tasks fun q hq hw => ?_
  rcases Multiset.mem_cons.mp hq with rfl | hq
  · exact absurd hw hP
  · exact Multiset.mem_cons_of_mem hq

theorem Content.untask (h : Content m c disk (pc ::ₘ T)) : Content m c disk T :=
  h.tasks fun _ hq _ => Multiset.mem_cons_of_mem hq

theorem Content.move {pc' : Option Pc} (h : Content m c disk (pc ::ₘ T)) (hm : Moves c pc pc') :
    Content m c disk (addTask T pc') := by
  have hreturn : ∀ cont, Content m c disk (addTask T (syncReturn cont)) := fun cont => by
    cases cont with
    | none => exact h.untask
    | some bn => exact h.retask _
  have hdrop : ∀ drop cont rest, Content m c disk (addTask T (dropReturn drop cont rest)) :=
    fun drop cont rest => by
      cases rest with
      | nil => exact hreturn cont
      | cons i rest => exact h.retask _
  cases hm with
  | null | nullWait => exact h.untask
  | full | wait | pop => exact h.retask _
  | leave drop cont => exact hreturn cont
  | drop drop cont rest => exact hdrop drop cont rest
  | dropOn drop cont i rest rest' => exact hdrop drop cont rest'

/-- The disk has read the entry. -/
theorem Content.readEntry (h : Content m c disk (.reading bn i ::ₘ T))
    (hinv : Inv c (.reading bn i ::ₘ T)) :
    Content m (c.set i { c.e_ i with buf_ := some (disk (c.e_ i).bn_) }) disk
      (.readDone bn i ::ₘ T) := by
  have hst := hinv.read_state (i := i) (by simp [counts, Pc.count])
  have hm := h.disk_eq hinv (by rw [hst]; simp) (by rw [hst]; simp)
  rw [hm]
  have hT := hinv.only_reader (i := i) (by simp [Pc.count])
  have hnew : Content m (c.set i { c.e_ i with buf_ := some (m (c.e_ i).bn_) }) disk T := by
    refine h.untask.entry (fun j hj => Cache.set_e_ne hj) (by rw [hst]; simp) hT ?_ ?_
    · exact fun drop cont loc hmem =>
        hinv.not_mark (by rw [hst]; simp) drop cont loc (Multiset.mem_cons_of_mem hmem)
    · simp
  obtain ⟨h₁, h₂, h₃, h₄, h₅, h₆⟩ := hnew
  refine ⟨h₁, h₂, h₃, ?_, ?_, h₆⟩
  · intro bn' j hmem
    rcases Multiset.mem_cons.mp hmem with he | hmem
    · cases he
      simp
    · exact h₄ bn' j hmem
  · intro drop cont loc e hmem
    rcases Multiset.mem_cons.mp hmem with he | hmem
    · exact absurd he (by simp)
    · exact h₅ drop cont loc e hmem

/-- The holder of the write reference sets the buffer. -/
theorem Content.modify {v : α} (h : Content m c disk (.writing bn i ::ₘ T))
    (hinv : Inv c (.writing bn i ::ₘ T)) :
    Content (Function.update m (c.e_ i).bn_ v) (c.set i { c.e_ i with buf_ := some v }) disk
      (.writing bn i ::ₘ T) := by
  have hst := hinv.write_state (i := i) (by simp [counts, Pc.count])
  -- no other entry has the block
  have hother : ∀ j, j ≠ i → (c.e_ j).estate_ ≠ .es_empty → (c.e_ j).bn_ ≠ (c.e_ i).bn_ :=
    fun j hj hne hbn => hj (hinv.unique j i hne (by rw [hst]; simp) hbn)
  have hkeep : ∀ j, j ≠ i → (c.e_ j).estate_ ≠ .es_empty →
      Function.update m (c.e_ i).bn_ v (c.e_ j).bn_ = m (c.e_ j).bn_ :=
    fun j hj hne => Function.update_of_ne (hother j hj hne) ..
  refine ⟨?_, ?_, ?_, ?_, ?_, ?_⟩
  · intro j hj
    by_cases hji : j = i
    · subst hji
      simp
    · rw [Cache.set_e_ne hji] at hj ⊢
      rw [hkeep j hji (by rw [hj]; simp)]
      exact h.clean j hj
  · intro j hj
    by_cases hji : j = i
    · subst hji
      simp
    · rw [Cache.set_e_ne hji] at hj ⊢
      rw [hkeep j hji (by rw [hj]; simp)]
      exact h.dirty j hj
  · intro j hj hagain
    by_cases hji : j = i
    · subst hji
      simp
    · rw [Cache.set_e_ne hji] at hj hagain ⊢
      rw [hkeep j hji (by rw [hj]; simp)]
      exact h.fetched j hj hagain
  · intro bn' j hmem
    have hload := hinv.read_state (Nat.add_pos_left (tcount_pos (i := j) hmem
      (by simp [Pc.count])) _)
    have hji : j ≠ i := by
      rintro rfl
      rw [hst] at hload
      exact absurd hload (by simp)
    rw [Cache.set_e_ne hji, hkeep j hji (by rw [hload]; simp)]
    exact h.read bn' j hmem
  · intro drop cont loc e hmem
    have hdirty := hinv.dirty_state.mpr (Nat.add_pos_left (tcount_pos (i := e) hmem
      (by simp [Pc.count])) _)
    have hei : e ≠ i := by
      -- both would hold the write reference
      rintro rfl
      have hle := (hinv.entry e).wref_le
      rcases Multiset.mem_cons.mp hmem with he | hmem
      · exact absurd he (by simp)
      · have hpos := tcount_pos (i := e) (k := .wref) hmem (by simp [Pc.count])
        simp [counts, Pc.count, Cache.queued] at hle
        omega
    rw [Cache.set_e_ne hei, hkeep e hei (by rw [hdirty]; simp)]
    exact h.written drop cont loc e hmem
  · intro bn' hbn
    have hne : bn' ≠ (c.e_ i).bn_ := by
      rintro rfl
      exact hbn i (by simpa using hst) (by simp)
    rw [Function.update_of_ne hne]
    refine h.disk bn' fun j hj => ?_
    by_cases hji : j = i
    · rw [hji]
      exact fun he => hne he.symm
    · have hj' := hbn j
      rw [Cache.set_e_ne hji] at hj'
      exact hj' hj

/-- The disk has written the entry. -/
theorem Content.writeEntry {v : α} {drop : ℤ} {cont : Option ℕ} {loc : List (Fin ne)}
    (h : Content m c disk (.syncWrite drop cont loc i ::ₘ T))
    (hinv : Inv c (.syncWrite drop cont loc i ::ₘ T)) (hv : (c.e_ i).buf_ = some v) :
    Content m c (Function.update disk (c.e_ i).bn_ v) (.syncMark drop cont loc i ::ₘ T) := by
  have hst := hinv.hand_state (i := i) (by simp [Pc.count])
  have hm : v = m (c.e_ i).bn_ := by
    have hd := h.dirty i hst
    rw [hv] at hd
    exact Option.some.inj hd
  obtain ⟨h₁, h₂, h₃, h₄, h₅, h₆⟩ := h
  have hdisk : ∀ bn', disk bn' = m bn' → Function.update disk (c.e_ i).bn_ v bn' = m bn' := by
    intro bn' hb
    by_cases hbi : bn' = (c.e_ i).bn_
    · rw [hbi, Function.update_self, hm]
    · rw [Function.update_of_ne hbi, hb]
  refine ⟨h₁, h₂, h₃, ?_, ?_, fun bn' hbn => hdisk bn' (h₆ bn' hbn)⟩
  · intro bn' j hmem
    rcases Multiset.mem_cons.mp hmem with he | hmem
    · exact absurd he (by simp)
    · exact h₄ bn' j (Multiset.mem_cons_of_mem hmem)
  · intro drop' cont' loc' e hmem
    rcases Multiset.mem_cons.mp hmem with he | hmem
    · cases he
      rw [Function.update_self, hm]
    · exact hdisk _ (h₅ drop' cont' loc' e (Multiset.mem_cons_of_mem hmem))

/-- A written entry becomes clean. -/
theorem Content.markEntry {drop : ℤ} {cont : Option ℕ} {loc : List (Fin ne)}
    (h : Content m c disk (.syncMark drop cont loc i ::ₘ T))
    (hinv : Inv c (.syncMark drop cont loc i ::ₘ T)) :
    Content m (c.marked drop i) disk (.syncPut drop cont loc i ::ₘ T) := by
  have hst := hinv.hand_state (i := i) (by simp [Pc.count])
  have hw := h.written drop cont loc i (Multiset.mem_cons_self _ _)
  have hbuf := h.dirty i hst
  have hother : ∀ j, j ≠ i → (c.marked drop i).e_ j = c.e_ j := fun j hj => Cache.set_e_ne hj
  have hi : (c.marked drop i).e_ i = { c.e_ i with estate_ := .es_clean } := by
    simp [Cache.marked]
  refine ⟨?_, ?_, ?_, ?_, ?_, ?_⟩
  · intro j hj
    by_cases hji : j = i
    · rw [hji, hi]
      exact hbuf
    · rw [hother j hji] at hj ⊢
      exact h.clean j hj
  · intro j hj
    by_cases hji : j = i
    · rw [hji, hi]
      exact hbuf
    · rw [hother j hji] at hj ⊢
      exact h.dirty j hj
  · intro j hj hagain
    by_cases hji : j = i
    · rw [hji, hi]
      exact hbuf
    · rw [hother j hji] at hj hagain ⊢
      exact h.fetched j hj hagain
  · intro bn' j hmem
    rcases Multiset.mem_cons.mp hmem with he | hmem
    · exact absurd he (by simp)
    · have hold := h.read bn' j (Multiset.mem_cons_of_mem hmem)
      by_cases hji : j = i
      · rw [hji, hi]
        exact hbuf
      · rw [hother j hji]
        exact hold
  · intro drop' cont' loc' e hmem
    rcases Multiset.mem_cons.mp hmem with he | hmem
    · exact absurd he (by simp)
    · have hold := h.written drop' cont' loc' e (Multiset.mem_cons_of_mem hmem)
      by_cases hei : e = i
      · rw [hei, hi]
        exact hw
      · rw [hother e hei]
        exact hold
  · intro bn' hbn
    by_cases hb : bn' = (c.e_ i).bn_
    · rw [hb]
      exact hw
    · refine h.disk bn' fun j hj => ?_
      by_cases hji : j = i
      · rw [hji]
        exact fun he => hb he.symm
      · have hj' := hbn j
        rw [hother j hji] at hj'
        exact hj' hj

/-- **Small steps keep the contents up to date.** -/
theorem Small.content [Inhabited α] {d : ℕ → α} (hs : Small a s s') (hio : DiskOk a)
    (hinv : Inv s.c s.tasks) (h : Content (replay d s.log) s.c s.disk s.tasks) :
    Content (replay d s'.log) s'.c s'.disk s'.tasks := by
  cases hs with
  | callGet c _ T =>
    refine h.tasks fun q hq hw => ?_
    rcases Multiset.mem_cons.mp hq with rfl | hq
    · exact absurd hw id
    · exact hq
  | callSync c _ T =>
    refine h.tasks fun q hq hw => ?_
    rcases Multiset.mem_cons.mp hq with rfl | hq
    · exact absurd hw id
    · exact hq
  | move _ _ _ _ _ _ _ _ hm => exact h.move hm
  | allocate c _ T _ _ _ bn i pc v hpc hst hbn =>
    refine Content.retask (P := pc) ?_ _
    refine h.entry (i := i) (fun j hj => Cache.set_e_ne hj) (by rw [hst]; simp)
      (hinv.not_read (by rw [hst]; simp)) (hinv.not_mark (by rw [hst]; simp)) ?_
    simp
  | await c _ T _ _ _ bn i pc =>
    refine Content.retask (P := pc) ?_ _
    exact h.congr_set (i := i) (fun j hj => Cache.set_e_ne hj) (by simp)
  | reference c _ T _ _ _ bn i pc =>
    refine Content.retask (P := pc) ?_ _
    exact h.congr_set (i := i) (fun j hj => Cache.set_e_ne hj) (by simp)
  | hit c _ T _ _ _ bn i pc hpc hst hq hagain =>
    refine Content.retask (P := pc) ?_ _
    refine h.entry (i := i) (fun j hj => Cache.set_e_ne hj) (by rw [hst]; simp)
      (hinv.not_read (by rw [hst]; simp)) (hinv.not_mark (by rw [hst]; simp)) fun _ => ?_
    simpa [replay] using h.fetched i hst hagain
  | read c _ T _ _ io bn i =>
    obtain rfl : io = none := hio
    exact h.readEntry hinv
  | loaded c _ T _ _ _ bn i =>
    have hst := hinv.read_state (i := i) (by simp [counts, Pc.count])
    have hbuf := h.read bn i (Multiset.mem_cons_self _ _)
    refine Content.tasks (T := T) ?_ fun q hq hw => ?_
    · refine h.untask.entry (i := i) (fun j hj => Cache.set_e_ne hj) (by rw [hst]; simp)
        (hinv.only_reader (by simp [Pc.count])) (fun drop cont loc hmem => ?_) fun _ => ?_
      · exact hinv.not_mark (by rw [hst]; simp) drop cont loc (Multiset.mem_cons_of_mem hmem)
      · simpa [replay] using hbuf
    · rcases Multiset.mem_cons.mp hq with rfl | hq
      · exact absurd hw id
      · exact hq
  | wake => exact h.retask _
  | put c _ T _ bn i =>
    exact h.untask.congr_set (i := i) (fun j hj => Cache.set_e_ne hj) (by simp [Cache.released])
  | get_write c _ T _ bn i =>
    refine Content.retask (P := .held bn i) ?_ _
    exact h.congr_set (i := i) (fun j hj => Cache.set_e_ne hj) (by simp)
  | pushOld => exact h.retask _
  | push c _ T _ _ _ bn i hst =>
    refine Content.retask (P := .pushing bn i) ?_ _
    refine h.entry (i := i) (fun j hj => Cache.set_e_ne hj) (by rw [hst]; simp)
      (hinv.not_read (by rw [hst]; simp)) (hinv.not_mark (by rw [hst]; simp)) fun _ => ?_
    simpa using h.clean i hst
  | modify => exact h.modify hinv
  | put_write c _ T _ bn i =>
    refine Content.retask (P := .writing bn i) ?_ _
    exact h.congr_set (i := i) (fun j hj => Cache.set_e_ne hj) (by simp)
  | swap _ _ _ _ _ _ drop cont =>
    refine Content.retask (P := .syncStart drop cont) ?_ _
    exact h.congr fun _ => ⟨rfl, rfl, rfl, rfl⟩
  | syncGet c _ T _ _ _ drop cont loc e =>
    refine Content.retask (P := .syncGet drop cont loc e) ?_ _
    exact h.congr_set (i := e) (fun j hj => Cache.set_e_ne hj) (by simp)
  | syncWrite _ _ _ _ _ io _ _ _ _ _ hv =>
    obtain rfl : io = none := hio
    exact h.writeEntry hinv hv
  | syncMark => exact h.markEntry hinv
  | syncPut c _ T _ _ _ drop cont loc e =>
    refine Content.retask (P := .syncPut drop cont loc e) ?_ _
    exact h.congr_set (i := e) (fun j hj => Cache.set_e_ne hj) (by simp)
  | prefetch c _ T _ _ bn _ i v hst hbn =>
    refine h.entry (i := i) (fun j hj => Cache.set_e_ne hj) (by rw [hst]; simp)
      (hinv.not_read (by rw [hst]; simp)) (hinv.not_mark (by rw [hst]; simp)) ?_
    simp
  | complete c _ T _ i io hq =>
    obtain rfl : io = none := hio
    have hst := hinv.pf_state (pf_pos_iff.mpr hq)
    have hm := h.disk_eq hinv (i := i) (by rw [hst]; simp) (by rw [hst]; simp)
    refine h.entry (i := i) (fun j hj => Cache.set_e_ne hj) (by rw [hst]; simp)
      (hinv.not_read (by rw [hst]; simp)) (hinv.not_mark (by rw [hst]; simp)) fun _ => ?_
    simpa [ioResult] using hm

theorem Quiet.content (hq : Quiet a c c') (hinv : Inv c T) (h : Content m c disk T) :
    Content m c' disk T := by
  cases hq with
  | clear i ha href hst =>
    have hload : (c.e_ i).estate_ ≠ .es_loading := by
      intro hload
      have hle := counts_le c T i
      obtain ⟨h₁, -, -, h₄⟩ := hinv.entry i
      rw [hload] at h₄
      have h1 := h₄.1
      have h0 : counts c T i .ref = 0 := h₁.symm.trans href
      omega
    refine h.entry (i := i) (fun j hj => Cache.set_e_ne hj) hst (hinv.not_read hload)
      (hinv.not_mark hst) ?_
    simp [Cache.cleared]
  | rename i bn hst =>
    refine h.entry (i := i) (fun j hj => Cache.set_e_ne hj) (by rw [hst]; simp)
      (hinv.not_read (by rw [hst]; simp)) (hinv.not_mark (by rw [hst]; simp)) ?_
    simp [hst]

/-! ## In every run -/

/-- The conditions on a step under which contents are kept. -/
def FitsContent (s : State α) (a : Act α) : Prop := Fits s a ∧ DiskOk a

instance (s : State α) (a : Act α) : Decidable (FitsContent s a) :=
  inferInstanceAs (Decidable (_ ∧ _))

theorem content_init (d : ℕ → α) :
    Content (replay d (State.init d).log) (State.init d).c d (State.init d).tasks := by
  refine ⟨fun i hi => ?_, fun i hi => ?_, fun i hi => ?_, ?_, ?_, fun bn _ => rfl⟩
  · exact absurd hi (by simp [State.init, Cache.init])
  · exact absurd hi (by simp [State.init, Cache.init])
  · exact absurd hi (by simp [State.init, Cache.init])
  · exact fun bn i hmem => absurd hmem (Multiset.notMem_zero _)
  · exact fun drop cont loc e hmem => absurd hmem (Multiset.notMem_zero _)

theorem reachable_content [Inhabited α] {d : ℕ → α} (h : Reachable d FitsContent s) :
    Inv s.c s.tasks ∧ Content (replay d s.log) s.c s.disk s.tasks := by
  refine Reach.invariant
    (P := fun s => Inv s.c s.tasks ∧ Content (replay d s.log) s.c s.disk s.tasks) ?_ ?_ h
  · rintro s rfl
    exact ⟨inv_init d, content_init d⟩
  · rintro s a s' ⟨hinv, hcon⟩ ⟨hfits, hio⟩ hstep
    refine ⟨step_inv hinv hfits hstep, ?_⟩
    exact (step_small hinv hfits hstep).keep
      (P := fun s => Content (replay d s.log) s.c s.disk s.tasks)
      (fun _ _ _ _ _ hinv hq h => hq.content hinv h)
      (fun _ _ hinv hsm h => hsm.content hio hinv h) (fun _ h => h) hinv hcon

/--
The latest contents of block `bn` are in a dirty entry that is on the dirty list or on the way to
the disk, or they are on disk.
-/
def State.Kept (d : ℕ → α) (s : State α) (bn : ℕ) : Prop :=
  (∃ i, (s.c.e_ i).estate_ = .es_dirty ∧ (s.c.e_ i).bn_ = bn ∧
    (s.c.e_ i).buf_ = some (replay d s.log bn) ∧ s.OnDirty i) ∨
    s.disk bn = replay d s.log bn

/-- **No update is lost in a run that avoids the overlaps.** -/
theorem reachable_kept [Inhabited α] {d : ℕ → α} (h : Reachable d FitsContent s) (bn : ℕ) :
    s.Kept d bn := by
  obtain ⟨hinv, hcon⟩ := reachable_content h
  by_cases hdirty : ∃ i, (s.c.e_ i).estate_ = .es_dirty ∧ (s.c.e_ i).bn_ = bn
  · obtain ⟨i, hst, rfl⟩ := hdirty
    exact Or.inl ⟨i, hst, rfl, hcon.dirty i hst, onDirty_iff.mpr (hinv.dirty_state.mp hst)⟩
  · exact Or.inr (hcon.disk bn fun i hst hbn => hdirty ⟨i, hst, hbn⟩)

/-- After the block has been modified and released, its contents are in a dirty entry. -/
theorem reachable_kept_modifyRun : ∃ s : State ℕ,
    exec State.step (fun s a => decide (FitsContent s a)) (State.init fun _ => 0) (modifyRun 77) = some s ∧
      replay (fun _ => 0) s.log 5 = 77 ∧ s.Kept (fun _ => 0) 5 := by
  have hend : (exec State.step (fun s a => decide (FitsContent s a)) (State.init fun _ => 0)
      (modifyRun 77)).map (fun s => replay (fun _ => 0) s.log 5) = some 77 := by
    decide +kernel
  obtain ⟨s, hrun, hs⟩ := Option.map_eq_some_iff.mp hend
  have hreach : Reachable (fun _ => 0) FitsContent s :=
    Reach.exec (fun _ _ => of_decide_eq_true) (.init rfl) hrun
  exact ⟨s, hrun, hs, reachable_kept hreach 5⟩

/-- **A lost update**: the entry of block 5 is gone, and the disk has the old contents. -/
theorem update_lost : ∃ (s : State ℕ) (bn : ℕ), Reachable (fun _ => 0) (fun _ _ => True) s ∧
    ¬ s.Kept (fun _ => 0) bn := by
  have hend : (exec State.step (fun _ _ => true) (State.init fun _ => 0) dropRun).map
      (fun s => (decide (∀ i, (s.c.e_ i).estate_ = .es_empty), s.disk 5,
        replay (fun _ => 0) s.log 5)) = some (true, 0, 77) := by
    decide +kernel
  obtain ⟨s, hrun, hs⟩ := Option.map_eq_some_iff.mp hend
  simp only [Prod.mk.injEq, decide_eq_true_eq] at hs
  obtain ⟨hempty, hdisk, hlatest⟩ := hs
  refine ⟨s, 5, Reach.exec (fun _ _ _ => trivial) (.init rfl) hrun, ?_⟩
  rintro (⟨i, hst, -⟩ | hkept)
  · rw [hempty i] at hst
    exact absurd hst (by simp)
  · rw [hdisk, hlatest] at hkept
    exact absurd hkept (by simp)

end Chickadee.Bufcache
