import Chickadee.Bufcache.Atomic
import Chickadee.Lib.Literals

/-!
# Which entry is evicted

An entry is evictable when it is clean, released and not the superblock's. A clock notes when each
entry became evictable, and when it was last released. When operations run one after the other, the
eviction queue holds the evictable entries in the order in which they became so. That is not the
order of their releases: an entry that is dirty when it is released joins the queue only when `sync`
has written it.
-/

namespace Chickadee.Bufcache

open Chickadee.Lib

variable {α : Type*}

/-- A clean entry that is released and not the superblock's. -/
def Cache.Evictable (c : Cache α) (i : Fin ne) : Prop :=
  (c.e_ i).estate_ = .es_clean ∧ (c.e_ i).ref_ = 0 ∧ (c.e_ i).bn_ ≠ 0

instance (c : Cache α) (i : Fin ne) : Decidable (c.Evictable i) :=
  inferInstanceAs (Decidable (_ ∧ _ ∧ _))

/-- A state with a clock, and for each entry when it became evictable and when it was released. -/
structure Clocked (α : Type*) where
  s : State α
  now : ℕ
  since : Fin ne → ℕ
  released : Fin ne → ℕ

/-- A step, at which the clock ticks. -/
def Clocked.step [Inhabited α] (cs : Clocked α) (a : Act α) : Option (Clocked α) :=
  (cs.s.step a).map fun s =>
    { s
      now := cs.now + 1
      since := fun i =>
        if s.c.Evictable i ∧ ¬ cs.s.c.Evictable i then cs.now + 1 else cs.since i
      released := fun i =>
        if (s.c.e_ i).ref_ = 0 ∧ (cs.s.c.e_ i).ref_ ≠ 0 then cs.now + 1 else cs.released i }

/-- The state after boot. -/
def Clocked.init (d : ℕ → α) : Clocked α :=
  { s := State.init d, now := 0, since := fun _ => 0, released := fun _ => 0 }

/-- The states reached when operations run one after the other. -/
def ClockedReachable [Inhabited α] (d : ℕ → α) (cs : Clocked α) : Prop :=
  Reach (· = Clocked.init d) (fun cs a cs' => cs.step a = some cs') (fun cs a => AtomicOk cs.s a) cs

/-- A `sync(1)` that has not yet come to entry `j` in its loop that drops buffers. -/
def Pc.mayDrop : Pc → Fin ne → Prop
  | .syncLoop drop _ _, _ => drop > 0
  | .syncGet drop _ _ _, _ => drop > 0
  | .syncWrite drop _ _ _, _ => drop > 0
  | .syncMark drop _ _ _, _ => drop > 0
  | .syncPut drop _ _ _, _ => drop > 0
  | .syncDrop _ _ i rest, j => j = i ∨ j ∈ rest
  | _, _ => False

/-- The evictable entries are on the eviction queue, unless a `sync(1)` is about to drop them. -/
structure Queued (c : Cache α) (T : Multiset Pc) : Prop where
  bn : ∀ i ∈ c.evictq_, (c.e_ i).bn_ ≠ 0
  queued : ∀ i, c.Evictable i → i ∈ c.evictq_ ∨ ∃ pc ∈ T, pc.mayDrop i

variable {c c' : Cache α} {d : ℕ → α} {T T' : Multiset Pc} {l : List (Event α)} {i j : Fin ne}
  {pc pc' : Pc} {a : Act α} {s s' : State α}

/-! ## The evictable entries are queued -/

/-- A step that changes entry `i` and its place on the queue. -/
theorem Queued.local (h : Queued c T) (i : Fin ne) (hother : ∀ j, j ≠ i → c'.e_ j = c.e_ j)
    (hq : ∀ j, j ≠ i → (j ∈ c'.evictq_ ↔ j ∈ c.evictq_))
    (hT : ∀ j, (∃ pc ∈ T, pc.mayDrop j) → ∃ pc ∈ T', pc.mayDrop j)
    (hbn : i ∈ c'.evictq_ → (c'.e_ i).bn_ ≠ 0)
    (hi : c'.Evictable i → i ∈ c'.evictq_ ∨ ∃ pc ∈ T', pc.mayDrop i) : Queued c' T' := by
  constructor
  · intro j hj
    by_cases hji : j = i
    · subst hji
      exact hbn hj
    · rw [hother j hji]
      exact h.bn j ((hq j hji).mp hj)
  · intro j hj
    by_cases hji : j = i
    · subst hji
      exact hi hj
    · have hj' : c.Evictable j := by
        unfold Cache.Evictable at hj ⊢
        rw [hother j hji] at hj
        exact hj
      rcases h.queued j hj' with hmem | hdrop
      · exact Or.inl ((hq j hji).mpr hmem)
      · exact Or.inr (hT j hdrop)

/-- A step that leaves the queue and what counts for it alone. -/
theorem Queued.congr (h : Queued c T) (hq : c'.evictq_ = c.evictq_)
    (he : ∀ j, (c'.e_ j).estate_ = (c.e_ j).estate_ ∧ (c'.e_ j).ref_ = (c.e_ j).ref_ ∧
      (c'.e_ j).bn_ = (c.e_ j).bn_)
    (hT : ∀ j, (∃ pc ∈ T, pc.mayDrop j) → ∃ pc ∈ T', pc.mayDrop j) : Queued c' T' := by
  constructor
  · intro j hj
    rw [(he j).2.2]
    exact h.bn j (hq ▸ hj)
  · intro j hj
    unfold Cache.Evictable at hj
    rw [(he j).1, (he j).2.1, (he j).2.2] at hj
    rw [hq]
    exact (h.queued j hj).imp_right (hT j)

/-- A task goes on to a place from which it still drops what it would have dropped. -/
theorem mayDrop_go (h : ∀ j, pc.mayDrop j → pc'.mayDrop j) (j : Fin ne)
    (hdrop : ∃ q ∈ pc ::ₘ T, q.mayDrop j) : ∃ q ∈ pc' ::ₘ T, q.mayDrop j := by
  obtain ⟨q, hq, hj⟩ := hdrop
  rcases Multiset.mem_cons.mp hq with rfl | hq
  · exact ⟨pc', Multiset.mem_cons_self _ _, h j hj⟩
  · exact ⟨q, Multiset.mem_cons_of_mem hq, hj⟩

theorem mayDrop_leave (h : ∀ j, ¬ pc.mayDrop j) (j : Fin ne)
    (hdrop : ∃ q ∈ pc ::ₘ T, q.mayDrop j) : ∃ q ∈ T, q.mayDrop j := by
  obtain ⟨q, hq, hj⟩ := hdrop
  rcases Multiset.mem_cons.mp hq with rfl | hq
  · exact absurd hj (h j)
  · exact ⟨q, hq, hj⟩

/-- A change of counters and contents of one entry. -/
theorem Queued.set {b : Bcentry α} (h : Queued c T)
    (hb : b.estate_ = (c.e_ i).estate_ ∧ b.ref_ = (c.e_ i).ref_ ∧ b.bn_ = (c.e_ i).bn_)
    (hT : ∀ j, (∃ pc ∈ T, pc.mayDrop j) → ∃ pc ∈ T', pc.mayDrop j) :
    Queued (c.set i b) T' := by
  refine h.congr rfl (fun j => ?_) hT
  by_cases hj : j = i
  · rw [hj, Cache.set_e_self]
    exact hb
  · rw [Cache.set_e_ne hj]
    exact ⟨rfl, rfl, rfl⟩

/-- A dropped entry is not evictable. -/
theorem Cache.Dropped.not_evictable (h : c.Dropped j) : ¬ c.Evictable j := by
  rintro ⟨hst, href, -⟩
  rw [h href] at hst
  exact absurd hst (by simp)

theorem mem_addTask {pc'' : Option Pc} (h : pc ∈ T) : pc ∈ addTask T pc'' := by
  cases pc'' with
  | none => exact h
  | some pc' => exact Multiset.mem_cons_of_mem h

theorem Queued.afterDrop (drop : ℤ) (cont : Option ℕ) (rest : List (Fin ne))
    (hbn : ∀ i ∈ c.evictq_, (c.e_ i).bn_ ≠ 0)
    (h : ∀ j, c.Evictable j → j ∈ c.evictq_ ∨ (∃ pc ∈ T, pc.mayDrop j) ∨ j ∈ rest) :
    Queued c (addTask T (dropReturn drop cont rest)) := by
  refine ⟨hbn, fun j hj => ?_⟩
  rcases h j hj with hmem | ⟨pc, hpc, hdrop⟩ | hrest
  · exact Or.inl hmem
  · exact Or.inr ⟨pc, mem_addTask hpc, hdrop⟩
  · cases rest with
    | nil => exact absurd hrest (by simp)
    | cons i rest =>
      exact Or.inr ⟨_, Multiset.mem_cons_self _ _, List.mem_cons.mp hrest⟩

theorem Queued.move {pc'' : Option Pc} (h : Queued c (pc ::ₘ T)) (hm : Moves c pc pc'') :
    Queued c (addTask T pc'') := by
  have hsame : ∀ j, (c.e_ j).estate_ = (c.e_ j).estate_ ∧ (c.e_ j).ref_ = (c.e_ j).ref_ ∧
      (c.e_ j).bn_ = (c.e_ j).bn_ := fun _ => ⟨rfl, rfl, rfl⟩
  cases hm with
  | null bn => exact h.congr rfl hsame (mayDrop_leave fun _ => id)
  | nullWait bn i => exact h.congr rfl hsame (mayDrop_leave fun _ => id)
  | full bn => exact h.congr rfl hsame (mayDrop_go fun _ hj => hj.elim)
  | wait bn i => exact h.congr rfl hsame (mayDrop_go fun _ hj => hj.elim)
  | pop drop cont loc e => exact h.congr rfl hsame (mayDrop_go fun _ hj => hj)
  | leave drop cont hdrop =>
    have hT : Queued c T := h.congr rfl hsame (mayDrop_leave fun _ => hdrop)
    cases cont with
    | none => exact hT
    | some bn =>
      refine hT.congr rfl hsame fun j hj => ?_
      obtain ⟨q, hq, hj⟩ := hj
      exact ⟨q, Multiset.mem_cons_of_mem hq, hj⟩
  | drop drop cont rest hrest =>
    refine Queued.afterDrop drop cont rest h.bn fun j hj => ?_
    rcases h.queued j hj with hmem | -
    · exact Or.inl hmem
    · by_cases hjr : j ∈ rest
      · exact Or.inr (Or.inr hjr)
      · exact absurd hj (hrest j hjr).not_evictable
  | dropOn drop cont i rest rest' hrest =>
    refine Queued.afterDrop drop cont rest' h.bn fun j hj => ?_
    rcases h.queued j hj with hmem | ⟨q, hq, hdrop⟩
    · exact Or.inl hmem
    · rcases Multiset.mem_cons.mp hq with rfl | hq
      · by_cases hjr : j ∈ rest'
        · exact Or.inr (Or.inr hjr)
        · exact absurd hj (hrest j hdrop hjr).not_evictable
      · exact Or.inr (Or.inl ⟨q, hq, hdrop⟩)

/-- Entry `i` is used up, erased from the queue, or both. -/
theorem Queued.erase (h : Queued c T) (hother : ∀ j, j ≠ i → c'.e_ j = c.e_ j)
    (hq : c'.evictq_ = c.evictq_.erase i ∨ c'.evictq_ = c.evictq_)
    (hT : ∀ j, (∃ pc ∈ T, pc.mayDrop j) → ∃ pc ∈ T', pc.mayDrop j)
    (hi : i ∉ c'.evictq_) (hne : ¬ c'.Evictable i) : Queued c' T' := by
  refine h.local i hother (fun j hj => ?_) hT (fun hmem => absurd hmem hi) fun he => absurd he hne
  rcases hq with hq | hq
  · rw [hq]
    exact List.mem_erase_of_ne hj
  · rw [hq]

/-- Entry `i` goes to the end of the queue, if it is evictable. -/
theorem Queued.push (h : Queued c T) (hother : ∀ j, j ≠ i → c'.e_ j = c.e_ j) {p : Prop}
    [Decidable p] (hq : c'.evictq_ = c.evictq_ ++ if p then [i] else [])
    (hT : ∀ j, (∃ pc ∈ T, pc.mayDrop j) → ∃ pc ∈ T', pc.mayDrop j) (hi : i ∉ c.evictq_)
    (hbn : p → (c'.e_ i).bn_ ≠ 0) (he : c'.Evictable i → p ∨ ∃ pc ∈ T', pc.mayDrop i) :
    Queued c' T' := by
  have hmem : i ∈ c'.evictq_ ↔ p := by
    rw [hq]
    by_cases hp : p <;> simp [hp, hi]
  refine h.local i hother (fun j hj => ?_) hT (fun hm => hbn (hmem.mp hm)) fun hev => ?_
  · rw [hq]
    by_cases hp : p <;> simp [hp, hj]
  · exact (he hev).imp_left hmem.mpr

theorem Inv.not_evictq (h : Inv c T) (hst : (c.e_ i).estate_ ≠ .es_clean) : i ∉ c.evictq_ :=
  fun hi => hst (h.evict_state (evict_pos_iff.mpr hi)).1

theorem Inv.not_evictq_ref (h : Inv c T) (href : (c.e_ i).ref_ ≠ 0) : i ∉ c.evictq_ :=
  fun hi => href (h.evict_state (evict_pos_iff.mpr hi)).2.1

theorem Inv.nodup_evictq (h : Inv c T) : c.evictq_.Nodup := by
  rw [List.nodup_iff_count_le_one]
  intro i
  by_cases hi : i ∈ c.evictq_
  · have hone := (h.evict_state (evict_pos_iff.mpr hi)).2.2
    rw [counts, tcount_evict, Nat.zero_add] at hone
    exact hone.le
  · rw [List.count_eq_zero_of_not_mem hi]
    exact Nat.zero_le 1

theorem Quiet.queued (hq : Quiet a c c') (hinv : Inv c T) (h : Queued c T) : Queued c' T := by
  cases hq with
  | clear i ha href hst =>
    refine h.erase (i := i) (fun j hj => Cache.set_e_ne hj) (Or.inl rfl) (fun _ hj => hj) ?_ ?_
    · exact hinv.nodup_evictq.not_mem_erase
    · rintro ⟨hst', -⟩
      simp [Cache.cleared] at hst'
  | rename i bn hst =>
    have hi := hinv.not_evictq (i := i) (by rw [hst]; simp)
    refine h.erase (i := i) (fun j hj => Cache.set_e_ne hj) (Or.inr rfl) (fun _ hj => hj) hi ?_
    rintro ⟨hst', -⟩
    simp [hst] at hst'

/-- What a finder of an entry drops: nothing. -/
theorem Cache.Finds.not_mayDrop {bn : ℕ} (h : c.Finds bn i pc) (j : Fin ne) : ¬ pc.mayDrop j := by
  rcases h with ⟨rfl, -⟩ | rfl <;> exact id

theorem Small.queued [Inhabited α] (hs : Small a s s') (hinv : Inv s.c s.tasks)
    (h : Queued s.c s.tasks) : Queued s'.c s'.tasks := by
  cases hs with
  | callGet c d T l bn =>
    exact h.congr rfl (fun _ => ⟨rfl, rfl, rfl⟩)
      fun j ⟨q, hq, hj⟩ => ⟨q, Multiset.mem_cons_of_mem hq, hj⟩
  | callSync c d T l drop =>
    exact h.congr rfl (fun _ => ⟨rfl, rfl, rfl⟩)
      fun j ⟨q, hq, hj⟩ => ⟨q, Multiset.mem_cons_of_mem hq, hj⟩
  | move _ _ _ _ _ _ _ _ hm => exact h.move hm
  | allocate c _ T _ _ _ bn i pc v hpc hst hbn =>
    have hi : i ∉ c.evictq_ := hinv.not_evictq (by rw [hst]; simp)
    have hdrop : ∀ j, ¬ pc.mayDrop j := by
      rcases hpc with rfl | rfl <;> exact fun _ => id
    refine h.erase (i := i) (fun j hj => Cache.set_e_ne hj) (Or.inr rfl)
      (mayDrop_go fun j hj => absurd hj (hdrop j)) hi ?_
    rintro ⟨hst', -⟩
    simp at hst'
  | await c _ T _ _ _ bn i pc hpc hst =>
    have hi : i ∉ c.evictq_ := hinv.not_evictq (by rw [hst]; simp)
    refine h.erase (i := i) (fun j hj => Cache.set_e_ne hj) (Or.inr rfl)
      (mayDrop_go fun j hj => absurd hj (hpc.not_mayDrop j)) hi ?_
    rintro ⟨-, href, -⟩
    simp at href
  | reference c _ T _ _ _ bn i pc hpc hst =>
    have hi : i ∉ c.evictq_.erase i := hinv.nodup_evictq.not_mem_erase
    refine h.erase (i := i) (fun j hj => Cache.set_e_ne hj) (Or.inl rfl)
      (mayDrop_go fun j hj => absurd hj (hpc.not_mayDrop j)) hi ?_
    rintro ⟨-, href, -⟩
    simp at href
  | hit c _ T _ _ _ bn i pc hpc hst hq hagain =>
    have hi : i ∉ c.evictq_ := hinv.not_evictq (by rw [hst]; simp)
    refine h.erase (i := i) (fun j hj => Cache.set_e_ne hj) (Or.inr rfl)
      (mayDrop_go fun j hj => absurd hj (hpc.not_mayDrop j)) hi ?_
    rintro ⟨-, href, -⟩
    simp at href
  | read c _ T _ _ io bn i => exact h.set ⟨rfl, rfl, rfl⟩ (mayDrop_go fun _ hj => hj.elim)
  | loaded c _ T _ _ _ bn i =>
    have hst : (c.e_ i).estate_ = .es_loading := hinv.read_state (by simp [counts, Pc.count])
    have hi : i ∉ c.evictq_ := hinv.not_evictq (by rw [hst]; simp)
    refine h.erase (i := i) (fun j hj => Cache.set_e_ne hj) (Or.inr rfl)
      (mayDrop_go fun _ hj => hj.elim) hi ?_
    rintro ⟨-, href, -⟩
    have hpos : 0 < counts c (.readDone bn i ::ₘ T) i .ref := by simp [counts, Pc.count]
    have heq : (c.e_ i).ref_ = counts c (.readDone bn i ::ₘ T) i .ref := (hinv.entry i).ref
    simp at href
    omega
  | wake c _ T _ _ _ bn i =>
    exact h.congr rfl (fun _ => ⟨rfl, rfl, rfl⟩) (mayDrop_go fun _ hj => hj.elim)
  | put c _ T _ bn i =>
    have hpos : 0 < counts c (.held bn i ::ₘ T) i .ref := by simp [counts, Pc.count]
    have heq : (c.e_ i).ref_ = counts c (.held bn i ::ₘ T) i .ref := (hinv.entry i).ref
    have href : (c.e_ i).ref_ ≠ 0 := by omega
    have hi : i ∉ c.evictq_ := hinv.not_evictq_ref href
    refine h.push (i := i) (fun j hj => Cache.set_e_ne hj) rfl (mayDrop_leave fun _ => id) hi ?_ ?_
    · rintro ⟨-, hbn, -⟩
      simpa [Cache.released] using hbn
    · rintro ⟨hst, href, hbn⟩
      simp only [Cache.released, Cache.set_e_self] at hst href hbn
      exact Or.inl ⟨href, hbn, by rw [hst]; simp⟩
  | get_write c _ T _ bn i => exact h.set ⟨rfl, rfl, rfl⟩ (mayDrop_go fun _ hj => hj.elim)
  | pushOld c _ T _ _ _ bn i =>
    exact h.congr rfl (fun _ => ⟨rfl, rfl, rfl⟩) (mayDrop_go fun _ hj => hj.elim)
  | push c _ T _ _ _ bn i =>
    have hpos : 0 < counts c (.pushing bn i ::ₘ T) i .ref := by simp [counts, Pc.count]
    have heq : (c.e_ i).ref_ = counts c (.pushing bn i ::ₘ T) i .ref := (hinv.entry i).ref
    have href : (c.e_ i).ref_ ≠ 0 := by omega
    have hi : i ∉ c.evictq_ := hinv.not_evictq_ref href
    refine h.erase (i := i) (fun j hj => Cache.set_e_ne hj) (Or.inr rfl)
      (mayDrop_go fun _ hj => hj.elim) hi ?_
    rintro ⟨hst, -⟩
    simp at hst
  | modify c _ T _ bn i v => exact h.set ⟨rfl, rfl, rfl⟩ fun _ hj => hj
  | put_write c _ T _ bn i => exact h.set ⟨rfl, rfl, rfl⟩ (mayDrop_go fun _ hj => hj.elim)
  | swap c _ T _ _ _ drop cont =>
    exact h.congr rfl (fun _ => ⟨rfl, rfl, rfl⟩) (mayDrop_go fun _ hj => hj.elim)
  | syncGet c _ T _ _ _ drop cont loc e =>
    exact h.set ⟨rfl, rfl, rfl⟩ (mayDrop_go fun _ hj => hj)
  | syncWrite c _ T _ _ _ drop cont loc e =>
    exact h.congr rfl (fun _ => ⟨rfl, rfl, rfl⟩) (mayDrop_go fun _ hj => hj)
  | syncMark c _ T _ _ _ drop cont loc e =>
    have hst : (c.e_ e).estate_ = .es_dirty := hinv.hand_state (by simp [Pc.count])
    have hi : e ∉ c.evictq_ := hinv.not_evictq (by rw [hst]; simp)
    refine h.push (i := e) (fun j hj => Cache.set_e_ne hj) rfl (mayDrop_go fun _ hj => hj) hi ?_ ?_
    · rintro ⟨-, hbn, -⟩
      simpa [Cache.marked] using hbn
    · rintro ⟨-, href, hbn⟩
      simp only [Cache.marked, Cache.set_e_self] at href hbn
      by_cases hdrop : drop ≤ 0
      · exact Or.inl ⟨href, hbn, hdrop⟩
      · exact Or.inr ⟨_, Multiset.mem_cons_self _ _, not_le.mp hdrop⟩
  | syncPut c _ T _ _ _ drop cont loc e =>
    exact h.set ⟨rfl, rfl, rfl⟩ (mayDrop_go fun _ hj => hj)
  | prefetch c _ T _ _ bn _ i v hst =>
    have hi : i ∉ c.evictq_ := hinv.not_evictq (by rw [hst]; simp)
    refine h.erase (i := i) (fun j hj => Cache.set_e_ne hj) (Or.inr rfl) (fun _ hj => hj) hi ?_
    rintro ⟨hst', -⟩
    simp at hst'
  | complete c _ T _ i io => exact h.set ⟨rfl, rfl, rfl⟩ fun _ hj => hj

/-! ## The order of the queue -/

/-- An entry that is not evictable, whatever is cleared. -/
def Cache.InUse (c : Cache α) (i : Fin ne) : Prop :=
  (c.e_ i).ref_ ≠ 0 ∨ (c.e_ i).estate_ = .es_dirty

theorem Cache.InUse.not_evictable (h : c.InUse i) : ¬ c.Evictable i := by
  rintro ⟨hst, href, -⟩
  rcases h with h | h
  · exact h href
  · rw [hst] at h
    exact absurd h (by simp)

/-- The queue loses some entries and then gets some that were in use. -/
def QueueGrows (c c' : Cache α) : Prop :=
  ∃ kept pushed, c'.evictq_ = kept ++ pushed ∧ kept.Sublist c.evictq_ ∧ ∀ i ∈ pushed, c.InUse i

theorem QueueGrows.of_sublist (h : c'.evictq_.Sublist c.evictq_) : QueueGrows c c' :=
  ⟨c'.evictq_, [], (List.append_nil _).symm, h, fun i hi => absurd hi (by simp)⟩

theorem QueueGrows.of_push {p : Prop} [Decidable p]
    (hq : c'.evictq_ = c.evictq_ ++ if p then [i] else []) (hi : c.InUse i) : QueueGrows c c' := by
  refine ⟨c.evictq_, _, hq, List.Sublist.refl _, fun j hj => ?_⟩
  by_cases hp : p
  · rw [if_pos hp, List.mem_singleton] at hj
    rwa [hj]
  · rw [if_neg hp] at hj
    exact absurd hj (by simp)

theorem Quiet.inUse (hq : Quiet a c c') (h : c'.InUse i) : c.InUse i := by
  cases hq with
  | clear j ha href hst =>
    by_cases hij : i = j
    · subst hij
      rcases h with h | h
      · exact absurd href (by simpa [Cache.cleared] using h)
      · simp [Cache.cleared] at h
    · unfold Cache.InUse at h ⊢
      rwa [Cache.cleared_e_ne hij] at h
  | rename j bn hst =>
    by_cases hij : i = j
    · subst hij
      simpa [Cache.InUse] using h
    · unfold Cache.InUse at h ⊢
      rwa [Cache.set_e_ne hij] at h

theorem Quiet.sublist (hq : Quiet a c c') : c'.evictq_.Sublist c.evictq_ := by
  cases hq with
  | clear i => exact List.erase_sublist
  | rename i => exact List.Sublist.refl _

theorem Small.queueGrows [Inhabited α] (hs : Small a s s') (hinv : Inv s.c s.tasks) :
    QueueGrows s.c s'.c := by
  cases hs with
  | put c _ T _ bn i =>
    have hpos : 0 < counts c (.held bn i ::ₘ T) i .ref := by simp [counts, Pc.count]
    have heq : (c.e_ i).ref_ = counts c (.held bn i ::ₘ T) i .ref := (hinv.entry i).ref
    have href : (c.e_ i).ref_ ≠ 0 := by omega
    exact .of_push rfl (Or.inl href)
  | syncMark c _ T _ _ _ drop cont loc e =>
    have hst : (c.e_ e).estate_ = .es_dirty := hinv.hand_state (by simp [Pc.count])
    exact .of_push rfl (Or.inr hst)
  | reference => exact .of_sublist List.erase_sublist
  | _ => exact .of_sublist (List.Sublist.refl _)

theorem Smalls.queueGrows [Inhabited α] (hs : Smalls a s s') (hinv : Inv s.c s.tasks) :
    QueueGrows s.c s'.c := by
  induction hs with
  | done => exact .of_sublist (List.Sublist.refl _)
  | main hsm => exact hsm.queueGrows hinv
  | quiet c c' d T l hq _ ih =>
    obtain ⟨kept, pushed, heq, hsub, huse⟩ := ih (hq.inv hinv)
    exact ⟨kept, pushed, heq, hsub.trans hq.sublist, fun i hi => hq.inUse (huse i hi)⟩

/-! ## In every run -/

/-- The eviction queue is in the order in which its entries became evictable. -/
structure LruInv (d : ℕ → α) (cs : Clocked α) : Prop where
  atomic : AtomicInv d cs.s
  queued : Queued cs.s.c cs.s.tasks
  since_le : ∀ i, cs.since i ≤ cs.now
  sorted : cs.s.c.evictq_.Pairwise fun i j => cs.since i ≤ cs.since j

/-- What is on the queue is evictable. -/
theorem Queued.evictable (h : Queued c T) (hinv : Inv c T) (hi : i ∈ c.evictq_) :
    c.Evictable i := by
  obtain ⟨hst, href, -⟩ := hinv.evict_state (evict_pos_iff.mpr hi)
  exact ⟨hst, href, h.bn i hi⟩

theorem LruInv.step [Inhabited α] {cs cs' : Clocked α} (h : LruInv d cs) (hok : AtomicOk cs.s a)
    (hs : cs.step a = some cs') : LruInv d cs' := by
  obtain ⟨s', hstep, rfl⟩ := Option.map_eq_some_iff.mp hs
  have hinv := h.atomic.inv
  have hsmall := step_small hinv (h.atomic.alone.fits hinv hstep) hstep
  have hatomic := h.atomic.step hok hstep
  have hqueued : Queued s'.c s'.tasks :=
    hsmall.keep (P := fun s => Queued s.c s.tasks) (fun _ _ _ _ _ hi hq h => hq.queued hi h)
      (fun _ _ hi hsm h => hsm.queued hi h) (fun _ h => h) hinv h.queued
  refine ⟨hatomic, hqueued, fun i => ?_, ?_⟩
  · show (if _ then cs.now + 1 else cs.since i) ≤ cs.now + 1
    split
    · exact le_refl _
    · exact (h.since_le i).trans (Nat.le_succ _)
  · obtain ⟨kept, pushed, heq, hsub, huse⟩ := hsmall.queueGrows hinv
    -- the clock has ticked for the entries that have come, and stood still for the others
    have hold : ∀ i ∈ kept, (if s'.c.Evictable i ∧ ¬ cs.s.c.Evictable i then cs.now + 1
        else cs.since i) = cs.since i := fun i hi =>
      if_neg fun hc => hc.2 (h.queued.evictable hinv (hsub.subset hi))
    have hnew : ∀ i ∈ pushed, (if s'.c.Evictable i ∧ ¬ cs.s.c.Evictable i then cs.now + 1
        else cs.since i) = cs.now + 1 := fun i hi => by
      refine if_pos ⟨hqueued.evictable hatomic.inv ?_, (huse i hi).not_evictable⟩
      rw [heq]
      exact List.mem_append_right _ hi
    show s'.c.evictq_.Pairwise _
    rw [heq, List.pairwise_append]
    refine ⟨?_, ?_, ?_⟩
    · refine (h.sorted.sublist hsub).imp_of_mem fun {i j} hi hj hle => ?_
      show (if _ then _ else _) ≤ (if _ then _ else _)
      rw [hold i hi, hold j hj]
      exact hle
    · refine List.pairwise_of_forall_mem_list fun i hi j hj => ?_
      show (if _ then _ else _) ≤ (if _ then _ else _)
      rw [hnew i hi, hnew j hj]
    · intro i hi j hj
      show (if _ then _ else _) ≤ (if _ then _ else _)
      rw [hold i hi, hnew j hj]
      exact (h.since_le i).trans (Nat.le_succ _)

theorem LruInv.init (d : ℕ → α) : LruInv d (Clocked.init d) := by
  refine ⟨AtomicInv.init d, ⟨fun i hi => ?_, fun i hi => ?_⟩, fun i => le_refl 0, ?_⟩
  · exact absurd hi (by simp [Clocked.init, State.init, Cache.init])
  · exact absurd hi.1 (by simp [Clocked.init, State.init, Cache.init])
  · exact List.Pairwise.nil

theorem clocked_lruInv [Inhabited α] {cs : Clocked α} (h : ClockedReachable d cs) :
    LruInv d cs := by
  refine Reach.invariant (P := LruInv d) ?_ ?_ h
  · rintro cs rfl
    exact LruInv.init d
  · exact fun cs a cs' hcs hok hs => hcs.step hok hs

/-- No operation is running, or one that is at the start of `get_disk_entry`. -/
def State.MayEvict (s : State α) : Prop :=
  ∀ pc ∈ s.tasks, pc.busy = true → ∃ bn, pc = .get bn

/-- What `evict` may remove: entry `i`, when it removes it. -/
structure EvictOk (cs : Clocked α) (i : Fin ne) : Prop where
  unreferenced : (cs.s.c.e_ i).ref_ = 0
  not_dirty : (cs.s.c.e_ i).estate_ ≠ .es_dirty
  /-- the superblock's entry stays, once it has been asked for -/
  superblock : (cs.s.c.e_ i).bn_ = 0 → (cs.s.c.e_ i).estate_ = .es_prefetching
  /-- none has been evictable for longer -/
  oldest : ∀ j, cs.s.c.Evictable j →
    (cs.s.c.e_ i).estate_ = .es_clean ∧ cs.since i ≤ cs.since j

theorem LruInv.evictOk {cs : Clocked α} (h : LruInv d cs) (hmay : cs.s.MayEvict)
    (he : cs.s.c.evict = some (c', some i)) : EvictOk cs i := by
  have hinv := h.atomic.inv
  have hqueue : ∀ j, cs.s.c.Evictable j → j ∈ cs.s.c.evictq_ := by
    intro j hj
    rcases h.queued.queued j hj with hmem | ⟨pc, hpc, hdrop⟩
    · exact hmem
    · by_cases hbusy : pc.busy = true
      · obtain ⟨bn, rfl⟩ := hmay pc hpc hbusy
        exact hdrop.elim
      · obtain ⟨bn, i, rfl⟩ := uses_eq_of_idle (by simpa using hbusy)
        exact hdrop.elim
  unfold Cache.evict at he
  split at he
  · next blk rest hq =>
    -- the head of the queue
    have hblk : blk = i := by
      split at he
      · exact absurd he (by simp)
      · exact (Prod.mk.inj (Option.some.inj he)).2 |> Option.some.inj
    rw [hblk] at hq
    have hmem : i ∈ cs.s.c.evictq_ := by rw [hq]; exact List.mem_cons_self
    obtain ⟨hst, href, hbn⟩ := h.queued.evictable hinv hmem
    refine ⟨href, by rw [hst]; simp, fun h0 => absurd h0 hbn, fun j hj => ⟨hst, ?_⟩⟩
    have hsorted := h.sorted
    rw [hq, List.pairwise_cons] at hsorted
    have hj' := hqueue j hj
    rw [hq] at hj'
    rcases List.mem_cons.mp hj' with rfl | hj'
    · exact le_refl _
    · exact hsorted.1 j hj'
  · next hq =>
    have hnone : ∀ j, ¬ cs.s.c.Evictable j := by
      intro j hj
      have hj' := hqueue j hj
      rw [hq] at hj'
      exact absurd hj' (by simp)
    split at he
    · exact absurd he (by simp)
    · next it hit =>
      have hit' : it = i := by
        split at he
        · exact absurd he (by simp)
        · exact (Prod.mk.inj (Option.some.inj he)).2 |> Option.some.inj
      have hmem : i ∈ cs.s.c.pfq_ := hit' ▸ List.mem_of_find?_eq_some hit
      have hst := hinv.pf_state (pf_pos_iff.mpr hmem)
      have href : (cs.s.c.e_ i).ref_ = 0 := by
        obtain ⟨h₁, -, -, h₄⟩ := hinv.entry i
        rw [hst] at h₄
        exact h₁.trans h₄.1
      exact ⟨href, by rw [hst]; simp, fun _ => hst, fun j hj => absurd hj (hnone j)⟩

/-- A task that holds an entry for block `bn` sees the contents that `m` has for `bn`. -/
def State.Agrees (s : State α) (m : ℕ → α) : Prop :=
  ∀ bn i, .held bn i ∈ s.tasks → (s.c.e_ i).bn_ = bn ∧ (s.c.e_ i).buf_ = some (m bn)

/--
**The cache is a plain map, and evicts what has been evictable for longest.** When operations run one
after the other and the disk works, the events are those of a plain map, the holders of entries see
its contents, and `evict` removes a permitted entry.
-/
theorem cache_refines_plainMap [Inhabited α] {cs : Clocked α} (h : ClockedReachable d cs) :
    (∃ m, PlainMap d cs.s.log m ∧ cs.s.Agrees m) ∧
      (cs.s.MayEvict → ∀ c' i, cs.s.c.evict = some (c', some i) → EvictOk cs i) := by
  have hlru := clocked_lruInv h
  refine ⟨⟨_, hlru.atomic.plain, fun bn i hmem => ?_⟩, fun hmay c' i he => hlru.evictOk hmay he⟩
  have hbn : (cs.s.c.e_ i).bn_ = bn := hlru.atomic.alone.block _ hmem bn i rfl
  have hst := hlru.atomic.inv.held_state
    (Nat.add_pos_left (tcount_pos (i := i) hmem (by simp [Pc.count])) _)
  refine ⟨hbn, ?_⟩
  rw [← hbn]
  rcases hst with hst | hst
  · exact hlru.atomic.content.clean i hst
  · exact hlru.atomic.content.dirty i hst

attribute [local instance] Lib.neZero_32

/--
Block 5 is modified and released, then block 6 is read and released, the cache fills up with
prefetches, `sync(0)` writes block 5, and a task asks for one more block.
-/
def lruRun : List (Act ℕ) :=
  modifyRun 77 ++
    [.callGet 6, .next (.get 6) true none, .next (.reading 6 1) true none,
      .next (.readDone 6 1) true none, .put 6 1] ++
    (List.range 30).map (fun n => .prefetch (n + 7) true true) ++
    [.callSync 0, .next (.syncStart 0 none) true none, .next (.syncLoop 0 none [0]) true none,
      .next (.syncGet 0 none [] 0) true none, .next (.syncWrite 0 none [] 0) true none,
      .next (.syncMark 0 none [] 0) true none, .next (.syncPut 0 none [] 0) true none,
      .next (.syncLoop 0 none []) true none, .callGet 100]

/-- The cache fills up with prefetches of blocks 0 to 31, the first of which is completed. -/
def superblockRun : List (Act ℕ) :=
  (List.range 32).map (fun n => .prefetch n true true) ++ [.complete 0 none, .callGet 100]

/-- Such a run, and the state that it leads to. -/
def atomicRun (as : List (Act ℕ)) : Option (Clocked ℕ) :=
  exec Clocked.step (fun cs a => decide (AtomicOk cs.s a)) (Clocked.init fun _ => 0) as

theorem clockedReachable_of_run {as : List (Act ℕ)} {cs : Clocked ℕ}
    (h : atomicRun as = some cs) : ClockedReachable (fun _ => 0) cs :=
  Reach.exec (fun _ _ => of_decide_eq_true) (.init rfl) h

theorem mayEvict_of_tasks {bn : ℕ} (h : s.tasks = {.get bn}) : s.MayEvict := by
  intro pc hpc _
  rw [h, Multiset.mem_singleton] at hpc
  exact ⟨bn, hpc⟩

/-- Where `lruRun` leads to: the cache is full, and `evict` takes entry 1. -/
theorem lruRun_end : ∃ cs c', atomicRun lruRun = some cs ∧ cs.s.tasks = {.get 100} ∧
    cs.s.c.slotOf 100 = none ∧ cs.s.c.emptySlot = none ∧ cs.s.c.evict = some (c', some 1) ∧
    cs.s.c.Evictable 0 ∧ cs.s.c.Evictable 1 ∧ cs.released 0 = 9 ∧ cs.released 1 = 14 := by
  have hend : (atomicRun lruRun).map (fun cs => decide (cs.s.tasks = {.get 100} ∧
      cs.s.c.slotOf 100 = none ∧ cs.s.c.emptySlot = none ∧
      cs.s.c.evict.map (·.2) = some (some 1) ∧ cs.s.c.Evictable 0 ∧ cs.s.c.Evictable 1 ∧
      cs.released 0 = 9 ∧ cs.released 1 = 14)) = some true := by
    decide +kernel
  obtain ⟨cs, hrun, hs⟩ := Option.map_eq_some_iff.mp hend
  obtain ⟨htasks, hslot, hempty, hev, hrest⟩ := of_decide_eq_true hs
  obtain ⟨⟨c', r⟩, hev, rfl⟩ := Option.map_eq_some_iff.mp hev
  exact ⟨cs, c', hrun, htasks, hslot, hempty, hev, hrest⟩

theorem cache_refines_plainMap_lruRun : ∃ cs : Clocked ℕ, atomicRun lruRun = some cs ∧
    (∃ m, PlainMap (fun _ => 0) cs.s.log m ∧ cs.s.Agrees m) ∧ EvictOk cs 1 := by
  obtain ⟨cs, c', hrun, htasks, -, -, hev, -⟩ := lruRun_end
  obtain ⟨hplain, hevict⟩ := cache_refines_plainMap (clockedReachable_of_run hrun)
  exact ⟨cs, hrun, hplain, hevict (mayEvict_of_tasks htasks) c' 1 hev⟩

/--
**Not the least recently released one, and a copy of the superblock.** The cache is full and a task
asks for a block: `evict` removes an entry that was released after another evictable one, and in
another run one that a prefetch has filled with block 0.
-/
theorem evict_not_least_recently_released :
    (∃ (cs : Clocked ℕ) (c' : Cache ℕ) (i j : Fin ne), ClockedReachable (fun _ => 0) cs ∧
      cs.s.MayEvict ∧ cs.s.c.emptySlot = none ∧ cs.s.c.evict = some (c', some i) ∧
      cs.s.c.Evictable i ∧ cs.s.c.Evictable j ∧ cs.released j < cs.released i) ∧
    ∃ (cs : Clocked ℕ) (c' : Cache ℕ) (i : Fin ne), ClockedReachable (fun _ => 0) cs ∧
      cs.s.MayEvict ∧ cs.s.c.emptySlot = none ∧ cs.s.c.evict = some (c', some i) ∧
      (cs.s.c.e_ i).bn_ = 0 := by
  constructor
  · obtain ⟨cs, c', hrun, htasks, -, hempty, hev, h0, h1, hr0, hr1⟩ := lruRun_end
    refine ⟨cs, c', 1, 0, clockedReachable_of_run hrun, mayEvict_of_tasks htasks, hempty, hev, h1,
      h0, ?_⟩
    rw [hr0, hr1]
    simp
  · have hend : (atomicRun superblockRun).map (fun cs => (cs.s.tasks, cs.s.c.emptySlot,
        cs.s.c.evict.map (·.2), (cs.s.c.e_ 0).bn_)) =
        some ({.get 100}, none, some (some 0), 0) := by
      decide +kernel
    obtain ⟨cs, hrun, hs⟩ := Option.map_eq_some_iff.mp hend
    simp only [Prod.mk.injEq, Option.map_eq_some_iff] at hs
    obtain ⟨htasks, hempty, ⟨⟨c', r⟩, hev, rfl⟩, hbn⟩ := hs
    exact ⟨cs, c', 0, clockedReachable_of_run hrun, mayEvict_of_tasks htasks, hempty, hev, hbn⟩

end Chickadee.Bufcache
