import Chickadee.Bufcache.Inversion

/-!
# The queues of the buffer cache

The documented invariant of the three lists, in every state of every run that avoids the overlaps
of `Fits`, and a run with one of these overlaps after which an empty entry is on the dirty list.
-/

namespace Chickadee.Bufcache

open Chickadee.Lib

variable {α : Type*}

/-- The entries that a running `sync` still has to write, or is just writing. -/
def Pc.draining : Pc → List (Fin ne)
  | .syncLoop _ _ loc => loc
  | .syncGet _ _ loc e => e :: loc
  | .syncWrite _ _ loc e => e :: loc
  | .syncMark _ _ loc e => e :: loc
  | .syncPut _ _ loc _ => loc
  | _ => []

/-- The entry is on the dirty list, or a running `sync` has taken it from there. -/
def State.OnDirty (s : State α) (i : Fin ne) : Prop :=
  i ∈ s.c.dirty_list_ ∨ ∃ pc ∈ s.tasks, i ∈ pc.draining

/-- **The documented invariant of the lists.** -/
structure QueuesOk (s : State α) : Prop where
  evictq : ∀ i ∈ s.c.evictq_, (s.c.e_ i).estate_ = .es_clean ∧ (s.c.e_ i).ref_ = 0
  dirty : ∀ i, s.OnDirty i ↔ (s.c.e_ i).estate_ = .es_dirty
  pfq : ∀ i, i ∈ s.c.pfq_ ↔ (s.c.e_ i).estate_ = .es_prefetching
  evictq_dirty : ∀ i, ¬ (i ∈ s.c.evictq_ ∧ s.OnDirty i)
  evictq_pfq : ∀ i, ¬ (i ∈ s.c.evictq_ ∧ i ∈ s.c.pfq_)
  dirty_pfq : ∀ i, ¬ (s.OnDirty i ∧ i ∈ s.c.pfq_)
  empty : ∀ i, (s.c.e_ i).estate_ = .es_empty →
    i ∉ s.c.evictq_ ∧ ¬ s.OnDirty i ∧ i ∉ s.c.pfq_
  unique : ∀ i j, (s.c.e_ i).estate_ ≠ .es_empty → (s.c.e_ j).estate_ ≠ .es_empty →
    (s.c.e_ i).bn_ = (s.c.e_ j).bn_ → i = j

variable {s s' : State α} {i j : Fin ne} {a : Act α}

theorem Pc.mem_draining {pc : Pc} : i ∈ pc.draining ↔ 0 < pc.count i .dirty := by
  cases pc with
  | syncLoop drop cont loc => simp [Pc.draining, Pc.count, Pc.localCount]
  | syncPut drop cont loc e => simp [Pc.draining, Pc.count, Pc.localCount]
  | syncGet drop cont loc e | syncWrite drop cont loc e | syncMark drop cont loc e =>
    by_cases hi : i = e <;> simp [Pc.draining, Pc.count, Pc.localCount, hi]
  | _ => simp [Pc.draining, Pc.count, Pc.localCount]

theorem onDirty_iff : s.OnDirty i ↔ 0 < counts s.c s.tasks i .dirty := by
  have htasks : (∃ pc ∈ s.tasks, i ∈ pc.draining) ↔ 0 < tcount s.tasks i .dirty := by
    induction s.tasks using Multiset.induction with
    | empty => simp
    | cons pc T ih =>
      simp only [Multiset.mem_cons, exists_eq_or_imp, tcount_cons]
      rw [ih, Pc.mem_draining]
      omega
  have hlist : i ∈ s.c.dirty_list_ ↔ 0 < s.c.dirty_list_.count i := List.count_pos_iff.symm
  show _ ↔ 0 < tcount s.tasks i .dirty + s.c.dirty_list_.count i
  rw [State.OnDirty, htasks, hlist]
  omega

/-! ## The prefetch queue -/

/-- Every prefetching entry is on the prefetch queue. -/
def PfExact (c : Cache α) : Prop := ∀ i, (c.e_ i).estate_ = .es_prefetching → i ∈ c.pfq_

/-- The disk has a free command slot whenever `prefetch` asks for one. -/
def HasSlot : Act α → Prop
  | .prefetch _ _ slot => slot = true
  | _ => True

/-- A change of one entry that leaves the prefetch queue alone. -/
theorem PfExact.set {c c' : Cache α} (h : PfExact c) (hother : ∀ j, j ≠ i → c'.e_ j = c.e_ j)
    (hq : c'.pfq_ = c.pfq_)
    (hi : (c'.e_ i).estate_ = .es_prefetching → (c.e_ i).estate_ = .es_prefetching) :
    PfExact c' := by
  intro j hj
  rw [hq]
  by_cases hji : j = i
  · subst hji
    exact h j (hi hj)
  · rw [hother j hji] at hj
    exact h j hj

/-- A change of one entry, which is not prefetching afterwards. -/
theorem PfExact.erase {c c' : Cache α} (h : PfExact c) (hother : ∀ j, j ≠ i → c'.e_ j = c.e_ j)
    (hq : c'.pfq_ = c.pfq_.erase i) (hi : (c'.e_ i).estate_ ≠ .es_prefetching) : PfExact c' := by
  intro j hj
  rw [hq]
  by_cases hji : j = i
  · subst hji
    exact absurd hj hi
  · rw [hother j hji] at hj
    exact (List.mem_erase_of_ne hji).mpr (h j hj)

theorem Small.pfExact [Inhabited α] (hs : Small a s s') (hslot : HasSlot a) (h : PfExact s.c) :
    PfExact s'.c := by
  cases hs with
  | callGet | callSync | move | wake | pushOld | swap | syncWrite => exact h
  | hit c _ _ _ _ _ _ i => exact h.erase (fun j hj => Cache.set_e_ne hj) rfl (by simp)
  | prefetch c _ _ _ _ bn slot i v =>
    obtain rfl : slot = true := hslot
    intro j hj
    by_cases hji : j = i
    · simp [hji]
    · simp only [Cache.set_e_ne hji] at hj
      exact List.mem_append_left _ (h j hj)
  | put c _ _ _ _ i =>
    exact h.set (i := i) (fun j hj => Cache.set_e_ne hj) rfl (by simp [Cache.released])
  | syncMark c _ _ _ _ _ _ _ _ e =>
    exact h.set (i := e) (fun j hj => Cache.set_e_ne hj) rfl (by simp [Cache.marked])
  | allocate _ _ _ _ _ _ _ i | await _ _ _ _ _ _ _ i
  | reference _ _ _ _ _ _ _ i | read _ _ _ _ _ _ _ i | loaded _ _ _ _ _ _ _ i
  | get_write _ _ _ _ _ i | push _ _ _ _ _ _ _ i | modify _ _ _ _ _ i | put_write _ _ _ _ _ i
  | syncGet _ _ _ _ _ _ _ _ _ i | syncPut _ _ _ _ _ _ _ _ _ i | complete _ _ _ _ i =>
    exact h.set (i := i) (fun j hj => Cache.set_e_ne hj) rfl (by simp)

theorem Quiet.pfExact {c c' : Cache α} (hq : Quiet a c c') (h : PfExact c) : PfExact c' := by
  cases hq with
  | clear i => exact h.erase (fun j hj => Cache.set_e_ne hj) rfl (by simp [Cache.cleared])
  | rename i => exact h.set (i := i) (fun j hj => Cache.set_e_ne hj) rfl (by simp)

/-! ## In every run -/

/-- The conditions on a step under which the lists stay consistent. -/
def FitsQueues (s : State α) (a : Act α) : Prop := Fits s a ∧ HasSlot a

instance : (a : Act α) → Decidable (HasSlot a)
  | .prefetch _ _ slot => inferInstanceAs (Decidable (slot = true))
  | .callGet _ | .callSync _ | .next _ _ _ | .get_write _ _ | .modify _ _ _ | .put_write _ _ | .put _ _
  | .complete _ _ => .isTrue trivial

instance (s : State α) (a : Act α) : Decidable (FitsQueues s a) :=
  inferInstanceAs (Decidable (_ ∧ _))

/-- The counts say what the lists contain. -/
theorem queuesOk_of_inv (h : Inv s.c s.tasks) (hpf : PfExact s.c) : QueuesOk s := by
  have hdirty : ∀ i, s.OnDirty i ↔ (s.c.e_ i).estate_ = .es_dirty := fun i =>
    onDirty_iff.trans h.dirty_state.symm
  have hev : ∀ i ∈ s.c.evictq_, (s.c.e_ i).estate_ = .es_clean ∧ (s.c.e_ i).ref_ = 0 := by
    intro i hi
    obtain ⟨hst, href, -⟩ := h.evict_state (evict_pos_iff.mpr hi)
    exact ⟨hst, href⟩
  have hp : ∀ i, i ∈ s.c.pfq_ ↔ (s.c.e_ i).estate_ = .es_prefetching := fun i =>
    ⟨fun hi => h.pf_state (pf_pos_iff.mpr hi), hpf i⟩
  refine ⟨hev, hdirty, hp, ?_, ?_, ?_, ?_, h.unique⟩
  · rintro i ⟨he, hd⟩
    have hst := (hev i he).1
    rw [(hdirty i).mp hd] at hst
    exact absurd hst (by simp)
  · rintro i ⟨he, hq⟩
    have hst := (hev i he).1
    rw [(hp i).mp hq] at hst
    exact absurd hst (by simp)
  · rintro i ⟨hd, hq⟩
    have hst := (hdirty i).mp hd
    rw [(hp i).mp hq] at hst
    exact absurd hst (by simp)
  · intro i hst
    refine ⟨fun he => ?_, fun hd => ?_, fun hq => ?_⟩
    · exact absurd (hst.symm.trans (hev i he).1) (by simp)
    · exact absurd (hst.symm.trans ((hdirty i).mp hd)) (by simp)
    · exact absurd (hst.symm.trans ((hp i).mp hq)) (by simp)

/-- **The lists are consistent in every state of every run that avoids the overlaps.** -/
theorem reachable_queuesOk [Inhabited α] {d : ℕ → α} (h : Reachable d FitsQueues s) :
    QueuesOk s := by
  suffices hinv : Inv s.c s.tasks ∧ PfExact s.c from queuesOk_of_inv hinv.1 hinv.2
  refine Reach.invariant (P := fun s => Inv s.c s.tasks ∧ PfExact s.c) ?_ ?_ h
  · rintro s rfl
    exact ⟨inv_init d, fun i hi => absurd hi (by simp [State.init, Cache.init])⟩
  · rintro s a s' ⟨hinv, hpf⟩ ⟨hfits, hslot⟩ hstep
    refine ⟨step_inv hinv hfits hstep, ?_⟩
    exact (step_small hinv hfits hstep).keep (P := fun s => PfExact s.c)
      (fun _ _ _ _ _ _ hq h => hq.pfExact h) (fun _ _ _ hsm h => hsm.pfExact hslot h) (fun _ h => h) hinv hpf

/-- One task gets block 5, modifies its buffer and releases it. -/
def modifyRun (v : ℕ) : List (Act ℕ) :=
  [.callGet 5, .next (.get 5) true none, .next (.reading 5 0) true none,
    .next (.readDone 5 0) true none, .get_write 5 0, .next (.pushing 5 0) true none,
    .modify 5 0 v, .put_write 5 0, .put 5 0]

theorem reachable_queuesOk_modifyRun : ∃ s : State ℕ,
    exec State.step (fun s a => decide (FitsQueues s a)) (State.init fun _ => 0) (modifyRun 77) = some s ∧
      s.c.dirty_list_ = [0] ∧ QueuesOk s := by
  have hend : (exec State.step (fun s a => decide (FitsQueues s a)) (State.init fun _ => 0)
      (modifyRun 77)).map (·.c.dirty_list_) = some [0] := by
    decide +kernel
  obtain ⟨s, hrun, hs⟩ := Option.map_eq_some_iff.mp hend
  have hreach : Reachable (fun _ => 0) FitsQueues s :=
    Reach.exec (fun _ _ => of_decide_eq_true) (.init rfl) hrun
  exact ⟨s, hrun, hs, reachable_queuesOk hreach⟩

/--
`sync(1)` takes the empty dirty list, the task modifies its block and releases it, and then
`sync(1)` drops all that is not referenced.
-/
def dropRun : List (Act ℕ) :=
  [.callGet 5, .next (.get 5) true none, .next (.reading 5 0) true none,
    .next (.readDone 5 0) true none, .callSync 1, .next (.syncStart 1 none) true none,
    .get_write 5 0, .next (.pushing 5 0) true none, .modify 5 0 77, .put_write 5 0, .put 5 0,
    .next (.syncLoop 1 none []) true none]

/-- **An empty entry on the dirty list.** -/
theorem queues_broken : ∃ s : State ℕ, Reachable (fun _ => 0) (fun _ _ => True) s ∧
    ¬ QueuesOk s := by
  have hend : (exec State.step (fun _ _ => true) (State.init fun _ => 0) dropRun).map
      (fun s => (s.c.dirty_list_, decide ((s.c.e_ 0).estate_ = .es_empty))) =
        some ([0], true) := by
    decide +kernel
  obtain ⟨s, hrun, hs⟩ := Option.map_eq_some_iff.mp hend
  simp only [Prod.mk.injEq, decide_eq_true_eq] at hs
  refine ⟨s, Reach.exec (fun _ _ _ => trivial) (.init rfl) hrun, fun hok => ?_⟩
  have hnot := (hok.empty 0 hs.2).2.1
  exact hnot (Or.inl (by rw [hs.1]; exact List.mem_cons_self))

end Chickadee.Bufcache
