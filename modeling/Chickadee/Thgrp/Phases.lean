import Chickadee.Thgrp.Exit

/-!
# The phases of a thread group

A group goes through four phases: its threads work and leave one by one; a thread has called `exit`
and waits for the others; it is alone and cleans up; it has gone. `Base` keeps the books of `th_`,
`z_` and `nth_` through all of them, and `Ready.test` says what the test of the waiting thread finds.
-/

namespace Chickadee.Thgrp

variable {T V G : Type} [DecidableEq T] {s s' : State T V G} {t u w : T}

/-! ## The books of the group -/

/-- The lists, `nth_`, and the threads that have left `th_`. -/
structure Base (s : State T V G) : Prop where
  nodup : (s.th_ ++ s.z_).Nodup
  nth : s.nth_ = s.th_.length + s.z_.countP fun u => s.pstate_ u = .ps_transition
  on : ∀ u ∈ s.th_, s.pstate_ u = .ps_runnable ∨ s.pstate_ u = .ps_blocked ∨
    s.pstate_ u = .ps_exiting ∧ s.pc u = .gone
  out : ∀ u ∉ s.th_, s.pc u = .gone ∧ s.pstate_ u ≠ .ps_runnable ∧ s.pstate_ u ≠ .ps_blocked
  transition : ∀ u, s.pstate_ u = .ps_transition → u ∈ s.z_

omit [DecidableEq T] in
theorem Base.mem_z (h : Base s) (ht : t ∈ s.th_) : t ∉ s.z_ := fun hz =>
  (List.nodup_append.mp h.nodup).2.2 t ht t hz rfl

omit [DecidableEq T] in
theorem Base.mem_th (h : Base s) (ht : s.pc t ≠ .gone) : t ∈ s.th_ := by
  by_contra hout
  exact ht (h.out t hout).1

omit [DecidableEq T] in
/-- Threads on `th_` move between running, blocked and exiting. -/
theorem Base.congr (h : Base s) (hth : s'.th_ = s.th_) (hz : s'.z_ = s.z_) (hnth : s'.nth_ = s.nth_)
    (hout : ∀ u ∉ s.th_, s'.pstate_ u = s.pstate_ u ∧ s'.pc u = s.pc u)
    (hon : ∀ u ∈ s.th_, s'.pstate_ u = .ps_runnable ∨ s'.pstate_ u = .ps_blocked ∨
      s'.pstate_ u = .ps_exiting ∧ s'.pc u = .gone) : Base s' := by
  refine ⟨by rw [hth, hz]; exact h.nodup, ?_, by rw [hth]; exact hon, ?_, ?_⟩
  · rw [hnth, hth, hz, h.nth]
    congr 2
    refine List.countP_congr fun u hu => ?_
    rw [(hout u fun hth => h.mem_z hth hu).1]
  · intro u hu
    rw [hth] at hu
    rw [(hout u hu).1, (hout u hu).2]
    exact h.out u hu
  · intro u hu
    by_cases hin : u ∈ s.th_
    · rcases hon u hin with hp | hp | hp <;> simp [hp] at hu
    · rw [hz]
      exact h.transition u ((hout u hin).1.symm.trans hu)

theorem Base.wake_all (h : Base s) : Base s.wake_all := by
  refine h.congr rfl rfl rfl (fun u hu => ⟨if_neg fun hw => (h.out u hu).2.2 hw.2, rfl⟩) ?_
  intro u hu
  have hon := h.on u hu
  simp only [State.wake_all]
  split
  · exact Or.inl rfl
  · exact hon

theorem Base.clear (h : Base s) : Base (s.clear t) := by
  by_cases hb : s.pstate_ t = .ps_blocked
  · have ht : t ∈ s.th_ := by
      by_contra hout
      exact (h.out t hout).2.2 hb
    refine h.congr rfl rfl rfl (fun u hu => ⟨?_, rfl⟩) fun u hu => ?_
    · have hne : u ≠ t := fun he => hu (he ▸ ht)
      simp [State.clear, hb, hne]
    · have hon := h.on u hu
      by_cases hut : u = t
      · simp [State.clear, hb, hut]
      · simpa [State.clear, hb, hut] using hon
  · refine h.congr rfl rfl rfl (fun u _ => ⟨?_, rfl⟩) fun u hu => ?_
    · simp [State.clear, hb]
    · simpa [State.clear, hb] using h.on u hu

/-- A thread of the group that is not exiting leaves it for `z_`, in transition. -/
theorem Base.leave (h : Base s) (ht : t ∈ s.th_) (hth : s'.th_ = s.th_.erase t)
    (hz : s'.z_ = s.z_ ++ [t]) (hnth : s'.nth_ = s.nth_)
    (hp : s'.pstate_ = Function.update s.pstate_ t .ps_transition)
    (hpc : s'.pc = Function.update s.pc t .gone) : Base s' := by
  have hnodup := List.nodup_append.mp h.nodup
  have hnot := h.mem_z ht
  have hmem : ∀ u, u ∈ s.th_.erase t ↔ u ≠ t ∧ u ∈ s.th_ := fun u => hnodup.1.mem_erase_iff
  refine ⟨?_, ?_, fun u hu => ?_, fun u hu => ?_, fun u hu => ?_⟩
  · rw [hth, hz]
    refine List.nodup_append.mpr ⟨hnodup.1.erase t, ?_, fun u hu v hv huv => ?_⟩
    · exact List.nodup_append.mpr ⟨hnodup.2.1, List.nodup_singleton t, fun u hu v hv huv =>
        hnot (List.mem_singleton.mp hv ▸ huv ▸ hu)⟩
    · subst huv
      rw [hmem] at hu
      rcases List.mem_append.mp hv with hz | ht
      · exact h.mem_z hu.2 hz
      · exact hu.1 (List.mem_singleton.mp ht)
  · have hcount : s.z_.countP (fun u => decide (s'.pstate_ u = .ps_transition)) =
        s.z_.countP fun u => decide (s.pstate_ u = .ps_transition) := by
      refine List.countP_congr fun u hu => ?_
      have hne : u ≠ t := fun he => hnot (he ▸ hu)
      rw [hp, Function.update_of_ne hne]
    have hlen : (s.th_.erase t).length + 1 = s.th_.length := by
      have hpos : 0 < s.th_.length := List.length_pos_of_mem ht
      rw [List.length_erase_of_mem ht]
      omega
    rw [hnth, hth, hz, List.countP_append, hcount, h.nth]
    have hone : [t].countP (fun u => decide (s'.pstate_ u = .ps_transition)) = 1 := by
      simp [hp]
    omega
  · rw [hth, hmem] at hu
    rw [hp, hpc, Function.update_of_ne hu.1, Function.update_of_ne hu.1]
    exact h.on u hu.2
  · rw [hth, hmem] at hu
    rw [hp, hpc]
    by_cases hut : u = t
    · simp [hut]
    · rw [Function.update_of_ne hut, Function.update_of_ne hut]
      exact h.out u fun hin => hu ⟨hut, hin⟩
  · rw [hz, List.mem_append, List.mem_singleton]
    by_cases hut : u = t
    · exact Or.inr hut
    · rw [hp, Function.update_of_ne hut] at hu
      exact Or.inl (h.transition u hu)

theorem Base.kill (h : Base s) : Base (s.kill t) := by
  unfold State.kill
  split
  · next hk =>
    have ht : t ∈ s.th_ := by
      by_contra hout
      exact (h.out t hout).2.1 hk.2
    refine Base.wake_all (h.congr rfl rfl rfl (fun u hu => ?_) fun u hu => ?_)
    · have hne : u ≠ t := fun he => hu (he ▸ ht)
      simp [hne]
    · by_cases hut : u = t
      · simp [hut]
      · simpa [hut] using h.on u hu
  · exact h

theorem Base.retire (h : Base s) : Base (s.retire t) := by
  unfold State.retire
  split
  · next hp =>
    have htz := h.transition t hp
    have hth : t ∉ s.th_ := fun hin => h.mem_z hin htz
    have hnotin := (List.nodup_append.mp h.nodup).2.1.not_mem_erase (a := t)
    have hperm := List.perm_cons_erase htz
    refine ⟨h.nodup, ?_, fun u hu => ?_, fun u hu => ?_, fun u hu => ?_⟩
    · have hsame : (s.z_.erase t).countP
          (fun u => decide (Function.update s.pstate_ t .ps_blank u = .ps_transition)) =
            (s.z_.erase t).countP fun u => decide (s.pstate_ u = .ps_transition) :=
        List.countP_congr fun u hu => by
          have hne : u ≠ t := fun he => hnotin (he ▸ hu)
          rw [Function.update_of_ne hne]
      have hnth := h.nth
      rw [hperm.countP_eq, List.countP_cons_of_pos (by simpa using hp)] at hnth
      show s.nth_ - 1 = _
      dsimp only
      rw [hperm.countP_eq, List.countP_cons_of_neg (by simp), hsame]
      omega
    · have hne : u ≠ t := fun he => hth (he ▸ hu)
      simpa [hne] using h.on u hu
    · have hon := h.out u hu
      by_cases hut : u = t
      · subst hut
        simpa using hon.1
      · simpa [hut] using hon
    · by_cases hut : u = t
      · exact hut ▸ htz
      · dsimp only at hu
        rw [Function.update_of_ne hut] at hu
        exact h.transition u hu
  · exact h

/-! ## The phases -/

/-- No one has called `exit`. -/
structure Working (s : State T V G) : Prop where
  th : s.th_ ≠ []
  user : ∀ u ∈ s.th_, s.pc u = .user ∧ s.exit_signal_ u = false
  cleaned : s.cleaned = []

/-- `w` has called `exit`: the others are signalled and run on, or have been killed. -/
structure Ready (s : State T V G) (w : T) : Prop where
  mem : w ∈ s.th_
  signal : s.exit_signal_ w = false
  others : ∀ u ∈ s.th_, u ≠ w → s.pc u = .user ∧ s.exit_signal_ u = true ∨ s.pstate_ u = .ps_exiting
  cleaned : s.cleaned = []

/-- `w` waits. If it is blocked it is on `wq_` and another thread has yet to be killed. -/
structure Leaving (s : State T V G) (w : T) : Prop extends Ready s w where
  wait : s.pc w = .wait
  alive : s.pstate_ w ≠ .ps_exiting
  blocked : s.pstate_ w = .ps_blocked →
    w ∈ s.wq_ ∧ (∃ u ∈ s.th_, u ≠ w) ∧ ∀ u ∈ s.th_, u ≠ w → s.pstate_ u ≠ .ps_exiting

/-- `w` is the last thread. -/
structure Alone (s : State T V G) (w : T) : Prop where
  th : s.th_ = [w]
  nth : s.nth_ = 1
  running : s.pstate_ w = .ps_runnable
  signal : s.exit_signal_ w = false
  stage : s.pc w = .exit ∧ s.cleaned = [] ∨ s.pc w = .fds ∧ s.cleaned = [] ∨
    s.pc w = .memory ∧ s.cleaned = [.fds] ∨ s.pc w = .status ∧ s.cleaned = [.fds, .pagetable, .children]

/-- What each part of the cleanup has done. -/
structure Effects (s : State T V G) : Prop where
  fds : .fds ∈ s.cleaned → ∀ fd, s.fdtable_ fd = none
  pagetable : .pagetable ∈ s.cleaned → s.pagetable_ = false
  children : .children ∈ s.cleaned → s.children_ = []
  status : .status ∈ s.cleaned → ∃ t ∈ s.z_, s.retval_ = s.retval t

/-- The life of a group. -/
inductive Phase (s : State T V G) : Prop
  | working (h : Working s)
  | leaving (w : T) (h : Leaving s w)
  | alone (w : T) (h : Alone s w)
  | over (hth : s.th_ = []) (hcleaned : s.cleaned = cleanup)

/-- **What holds in every state of an orderly run.** -/
structure Inv (s : State T V G) : Prop where
  base : Base s
  phase : Phase s
  effects : Effects s

/-! ## The test -/

omit [DecidableEq T] in
/-- Every live thread on `th_` after the loop of the predicate was there before, not exiting. -/
theorem mem_reap {u : T} : u ∈ s.reap.th_ ↔ u ∈ s.th_ ∧ s.pstate_ u ≠ .ps_exiting := by
  simp [State.reap]

omit [DecidableEq T] in
theorem Base.reap (h : Base s) : Base s.reap := by
  have hnodup := List.nodup_append.mp h.nodup
  have hdead : ∀ u ∈ s.th_.filter (fun u => decide (s.pstate_ u = .ps_exiting)),
      u ∈ s.th_ ∧ s.pstate_ u = .ps_exiting := fun u hu => by simpa using hu
  refine ⟨?_, ?_, fun u hu => h.on u (mem_reap.mp hu).1, fun u hu => ?_, fun u hu => ?_⟩
  · refine List.nodup_append.mpr ⟨hnodup.1.filter _, ?_, fun u hu v hv huv => ?_⟩
    · refine List.nodup_append.mpr ⟨hnodup.2.1, hnodup.1.filter _, fun u hu v hv huv => ?_⟩
      exact h.mem_z (hdead v hv).1 (huv ▸ hu)
    · subst huv
      have hlive := mem_reap.mp hu
      rcases List.mem_append.mp hv with hz | hexit
      · exact h.mem_z hlive.1 hz
      · exact hlive.2 (hdead u hexit).2
  · have hlen := List.length_eq_countP_add_countP (fun u => decide (s.pstate_ u = .ps_exiting))
      (l := s.th_)
    have hnone : (s.th_.filter fun u => decide (s.pstate_ u = .ps_exiting)).countP
        (fun u => decide (s.pstate_ u = .ps_transition)) = 0 := by
      refine List.countP_eq_zero.mpr fun u hu => ?_
      simp [(hdead u hu).2]
    have hnth := h.nth
    show s.nth_ - (s.th_.countP fun u => decide (s.pstate_ u = .ps_exiting) : ℕ) =
      ((s.th_.filter fun u => decide (s.pstate_ u ≠ .ps_exiting)).length : ℤ) +
        ((s.z_ ++ s.th_.filter fun u => decide (s.pstate_ u = .ps_exiting)).countP
          fun u => decide (s.pstate_ u = .ps_transition) : ℕ)
    rw [List.countP_append, hnone, ← List.countP_eq_length_filter]
    simp only [decide_not, Bool.not_eq_true, Bool.decide_eq_false, ne_eq] at hlen ⊢
    omega
  · by_cases hin : u ∈ s.th_
    · have hexit : s.pstate_ u = .ps_exiting := by
        by_contra hne
        exact hu (mem_reap.mpr ⟨hin, hne⟩)
      rcases h.on u hin with hp | hp | hp
      · simp [hp] at hexit
      · simp [hp] at hexit
      · exact ⟨hp.2, by simp [State.reap, hexit], by simp [State.reap, hexit]⟩
    · exact h.out u hin
  · exact List.mem_append_left _ (h.transition u hu)

theorem Base.prepare (h : Base s) (ht : t ∈ s.th_) : Base (s.prepare t) := by
  refine h.congr rfl rfl rfl (fun u hu => ⟨?_, rfl⟩) fun u hu => ?_
  · have hne : u ≠ t := fun he => hu (he ▸ ht)
    simp [State.prepare, hne]
  · by_cases hut : u = t
    · simp [State.prepare, hut]
    · simpa [State.prepare, hut] using h.on u hu

/-- The place of a thread on `th_` that is not exiting is free. -/
theorem Base.moved (h : Base s) (ht : t ∈ s.th_) (hlive : s.pstate_ t ≠ .ps_exiting) (pc : Pc) :
    Base { s with pc := Function.update s.pc t pc } := by
  refine h.congr rfl rfl rfl (fun u hu => ⟨rfl, ?_⟩) fun u hu => ?_
  · have hne : u ≠ t := fun he => hu (he ▸ ht)
    simp [hne]
  · have hon := h.on u hu
    by_cases hut : u = t
    · subst hut
      rcases hon with hp | hp | hp
      · exact Or.inl hp
      · exact Or.inr (Or.inl hp)
      · exact absurd hp.1 hlive
    · simpa [hut] using hon

omit [DecidableEq T] in
/-- A group whose only thread on `th_` counts for all of `nth_` has no thread in transition. -/
theorem Base.alone (h : Base s) (ht : t ∈ s.th_) (hnth : s.nth_ = 1) :
    s.th_ = [t] ∧ ∀ u, s.pstate_ u ≠ .ps_transition := by
  have hpos := List.length_pos_of_mem ht
  have hbooks := h.nth
  obtain ⟨v, hv⟩ := List.length_eq_one_iff.mp (show s.th_.length = 1 by omega)
  rw [hv, List.mem_singleton] at ht
  refine ⟨by rw [hv, ht], fun u hu => ?_⟩
  have hcount : 0 < s.z_.countP fun u => decide (s.pstate_ u = .ps_transition) :=
    List.countP_pos_iff.mpr ⟨u, h.transition u hu, by simpa using hu⟩
  omega

/-- **The test of a thread that may test: it is the last one, or someone will wake it.** -/
theorem Ready.test (h : Base s) (hr : Ready s t) (hm : MayTest s t) (hs : s.test t = some s') : Base s' ∧ Phase s' := by
  have hbase := (h.prepare hr.mem).reap
  have hmem : ∀ u, u ∈ (s.prepare t).reap.th_ ↔
      u ∈ s.th_ ∧ (u = t ∨ s.pstate_ u ≠ .ps_exiting) := by
    intro u
    rw [mem_reap]
    by_cases hut : u = t <;> simp [State.prepare, hut]
  have ht : t ∈ (s.prepare t).reap.th_ := (hmem t).mpr ⟨hr.mem, Or.inl rfl⟩
  have hblocked : (s.prepare t).reap.pstate_ t = .ps_blocked := Function.update_self ..
  unfold State.test at hs
  dsimp only at hs
  split at hs
  · cases hs
  · split at hs <;> cases hs
    · next hdone =>
      have hnth : (s.prepare t).reap.nth_ = 1 :=
        hdone.resolve_right fun hsig => by
          rw [show (s.prepare t).reap.exit_signal_ t = s.exit_signal_ t from rfl, hr.signal] at hsig
          cases hsig
      have hsignal : ((s.prepare t).reap.clear t).exit_signal_ t = false := hr.signal
      have hrun : ((s.prepare t).reap.clear t).pstate_ t = .ps_runnable := by
        simp [State.clear, hblocked]
      refine ⟨hbase.clear.moved ht (by rw [hrun]; decide) _, .alone t ⟨?_, hnth, hrun, hsignal, ?_⟩⟩
      · exact (hbase.alone ht hnth).1
      · refine Or.inr (Or.inl ⟨?_, hr.cleaned⟩)
        rw [hsignal]
        exact Function.update_self ..
    · next hmore =>
      rw [not_or] at hmore
      refine ⟨hbase.moved ht (by rw [hblocked]; decide) _, .leaving t ⟨⟨ht, hr.signal, ?_,
        hr.cleaned⟩, Function.update_self .., ?_, fun _ => ⟨?_, ?_, ?_⟩⟩⟩
      · intro u hu hut
        have hpu : (s.prepare t).reap.pstate_ u = s.pstate_ u := Function.update_of_ne hut _ _
        have hpc : Function.update (s.prepare t).reap.pc t .wait u = s.pc u :=
          Function.update_of_ne hut _ _
        show Function.update (s.prepare t).reap.pc t .wait u = _ ∧ _ ∨
          (s.prepare t).reap.pstate_ u = _
        rw [hpu, hpc]
        exact hr.others u ((hmem u).mp hu).1 hut
      · show (s.prepare t).reap.pstate_ t ≠ _
        rw [hblocked]
        decide
      · exact List.mem_append_right _ (List.mem_singleton_self t)
      · -- a thread that is left to die, or else all that is left of `nth_` is on `th_`
        rcases hm with hnone | ⟨u, hu, hut, hlive⟩
        · by_contra hno
          have hall : ∀ u ∈ (s.prepare t).reap.th_, u = t := fun u hu => by
            by_contra hut
            exact hno ⟨u, hu, hut⟩
          have hlen : (s.prepare t).reap.th_.length ≤ 1 := by
            rw [← List.nodup_replicate (a := t), ← List.eq_replicate_of_mem hall]
            exact (List.nodup_append.mp hbase.nodup).1
          have hzero : (s.prepare t).reap.z_.countP
              (fun u => decide ((s.prepare t).reap.pstate_ u = .ps_transition)) = 0 := by
            refine List.countP_eq_zero.mpr fun u hu => ?_
            rcases List.mem_append.mp hu with hz | hexit
            · have hne : u ≠ t := fun he => h.mem_z hr.mem (he ▸ hz)
              simpa [State.reap, State.prepare, hne] using hnone u hz
            · have := (List.mem_filter.mp hexit).2
              simp only [decide_eq_true_eq] at this ⊢
              rw [show (s.prepare t).reap.pstate_ u = (s.prepare t).pstate_ u from rfl, this]
              decide
          have hpos := List.length_pos_of_mem ht
          have hnth := hbase.nth
          rw [hzero] at hnth
          exact hmore.1 (by omega)
        · exact ⟨u, (hmem u).mpr ⟨hu, Or.inr hlive⟩, hut⟩
      · intro u hu hut
        have hpu : (s.prepare t).reap.pstate_ u = s.pstate_ u := Function.update_of_ne hut _ _
        show (s.prepare t).reap.pstate_ u ≠ _
        rw [hpu]
        exact ((hmem u).mp hu).2.resolve_left hut

end Chickadee.Thgrp
