import Chickadee.Thgrp.Phases
import Mathlib.Data.Fintype.Basic
import Mathlib.Data.List.FinRange
import Chickadee.Lib.Literals

/-!
# The cleanup of a thread group

An orderly step keeps the books and leads from one phase to itself or to the next. What carries the
waiting is that a blocked waiter is on `wq_` and some other thread has not been killed yet; what
carries the cleanup is that its thread is alone.
-/

namespace Chickadee.Thgrp

open Lib

variable {T V G : Type} [DecidableEq T] {s s' : State T V G} {t u w : T}

/-! ## The steps -/

theorem Base.deathcall (h : Base s) : Base (s.deathcall t) :=
  Base.wake_all (h.congr rfl rfl rfl (fun _ _ => ⟨rfl, rfl⟩) h.on)

theorem MayTest.deathcall (h : MayTest s t) : MayTest (s.deathcall t) t := by
  rcases h with hnone | ⟨u, hu, hut, hlive⟩
  · refine Or.inl fun u hu => ?_
    have := hnone u hu
    simp only [State.deathcall, State.wake_all]
    split
    · decide
    · exact this
  · refine Or.inr ⟨u, hu, hut, ?_⟩
    simp only [State.deathcall, State.wake_all]
    split
    · decide
    · exact hlive

/-- After the deathcall the caller is the only one that is not signalled. -/
theorem Ready.deathcall (ht : t ∈ s.th_) (hsignal : s.exit_signal_ t = false)
    (huser : ∀ u ∈ s.th_, u ≠ t → s.pc u = .user) (hcleaned : s.cleaned = []) :
    Ready (s.deathcall t) t :=
  ⟨ht, (if_neg fun hne => hne.2 rfl).trans hsignal,
    fun u hu hut => Or.inl ⟨huser u hu hut, if_pos ⟨hu, hut⟩⟩, hcleaned⟩

@[simp] theorem retire_th : (s.retire t).th_ = s.th_ := by unfold State.retire; split <;> rfl
@[simp] theorem retire_pc : (s.retire t).pc = s.pc := by unfold State.retire; split <;> rfl
@[simp] theorem retire_wq : (s.retire t).wq_ = s.wq_ := by unfold State.retire; split <;> rfl
@[simp] theorem retire_cleaned : (s.retire t).cleaned = s.cleaned := by
  unfold State.retire; split <;> rfl
@[simp] theorem retire_signal : (s.retire t).exit_signal_ = s.exit_signal_ := by
  unfold State.retire; split <;> rfl

/-- `schedule` retires no thread that is on `th_`. -/
theorem Base.retire_pstate (h : Base s) (hu : u ∈ s.th_) : (s.retire t).pstate_ u = s.pstate_ u := by
  unfold State.retire
  split
  · next hp =>
    have hne : u ≠ t := fun he => h.mem_z hu (he ▸ h.transition t hp)
    exact Function.update_of_ne hne _ _
  · rfl

/-- A thread that is off `th_`, or is not signalled, is not killed. -/
theorem Base.kill_eq (h : Base s) (ht : t ∈ s.th_ → s.exit_signal_ t = false) : s.kill t = s := by
  refine if_neg fun hk => ?_
  by_cases hin : t ∈ s.th_
  · rw [ht hin] at hk
    exact absurd hk.1 (by decide)
  · exact (h.out t hin).2.1 hk.2

theorem Base.blocked (h : Base s) (ht : t ∈ s.th_) {wq : List T} :
    Base { s with pstate_ := Function.update s.pstate_ t .ps_blocked, wq_ := wq } :=
  (h.prepare ht).congr rfl rfl rfl (fun _ _ => ⟨rfl, rfl⟩) (h.prepare ht).on

theorem Working.texit (hb : Base s) (h : Working s) {status : ℕ} (hu : s.pc t = .user)
    (hr : s.pstate_ t = .ps_runnable) (hok : Orderly s (.texit t status))
    (hs : s.texit t status = some s') : Base s' ∧ Phase s' := by
  have ht : t ∈ s.th_ := hb.mem_th (by rw [hu]; decide)
  unfold State.texit at hs
  dsimp only at hs
  split at hs
  · next hnth =>
    cases hs
    have hmoved := hb.moved ht (by rw [hr]; decide) .exit
    refine ⟨hmoved.congr rfl rfl rfl (fun _ _ => ⟨rfl, rfl⟩) hmoved.on, .alone t ⟨?_, hnth, hr,
      (h.user t ht).2, Or.inl ⟨Function.update_self .., h.cleaned⟩⟩⟩
    exact (hb.alone ht hnth).1
  · next hnth =>
    split at hs <;> cases hs
    refine ⟨hb.leave ht rfl rfl rfl rfl rfl, .working ⟨?_, fun u hu => ?_, h.cleaned⟩⟩
    · obtain ⟨u, hu, hut, -⟩ := hok.resolve_left hnth
      exact List.ne_nil_of_mem ((List.mem_erase_of_ne hut).mpr hu)
    · have hmem := ((List.nodup_append.mp hb.nodup).1.mem_erase_iff).mp hu
      simpa [hmem.1] using h.user u hmem.2

/-- As long as no one has called `exit`. -/
theorem Working.step (hb : Base s) (h : Working s) {a : Act T} (hok : Orderly s a)
    (hs : s.step a = some s') : Base s' ∧ Phase s' := by
  have hth : ∀ t, s.pc t ≠ .gone → t ∈ s.th_ := fun t => hb.mem_th
  have huser : ∀ t, s.pc t ≠ .gone → s.pc t = .user := fun t ht => (h.user t (hth t ht)).1
  have hno : ∀ t, s.pc t ≠ .gone → s.pc t ≠ .user → False := fun t ht hne => hne (huser t ht)
  cases a with
  | exit t status =>
    simp only [State.step] at hs
    split at hs
    · next hg =>
      have ht := hth t (by rw [hg.1]; decide)
      have hb' : Base { s with reg_rdi := Function.update s.reg_rdi t status } :=
        hb.congr rfl rfl rfl (fun _ _ => ⟨rfl, rfl⟩) hb.on
      exact Ready.test hb'.deathcall
        (Ready.deathcall ht hok.1 (fun u hu _ => (h.user u hu).1) h.cleaned) hok.2.deathcall hs
    · cases hs
  | texit t status =>
    simp only [State.step] at hs
    split at hs
    · next hg => exact h.texit hb hg.1 hg.2 hok hs
    · cases hs
  | schedule t =>
    cases hs
    rw [hb.kill_eq fun ht => (h.user t ht).2]
    exact ⟨hb.retire, .working ⟨by simpa using h.th, by simpa using h.user, by simpa using h.cleaned⟩⟩
  | sleep t onWq =>
    simp only [State.step] at hs
    split at hs <;> cases hs
    next hg => exact ⟨hb.blocked (hth t (by rw [hg.1]; decide)), .working ⟨h.th, h.user, h.cleaned⟩⟩
  | awake t =>
    simp only [State.step] at hs
    split at hs <;> cases hs
    exact ⟨hb.clear, .working ⟨h.th, h.user, h.cleaned⟩⟩
  | ioEnd t =>
    simp only [State.step] at hs
    split at hs <;> cases hs
    exact ⟨hb.wake_all, .working ⟨h.th, h.user, h.cleaned⟩⟩
  | texit_exit t | retest t | closeFds t | freeMemory t | finish t =>
    simp only [State.step] at hs
    split at hs
    · next hg => exact (hno t (by rw [hg.1]; decide) (by rw [hg.1]; decide)).elim
    · cases hs

/-- What wakes `wq_` wakes the thread that waits on it. -/
theorem Leaving.wake_all (h : Leaving s w) : Leaving s.wake_all w := by
  refine ⟨⟨h.mem, h.signal, fun u hu hut => (h.others u hu hut).imp_right fun he => ?_, h.cleaned⟩,
    h.wait, ?_, fun hb => ?_⟩
  · simp [State.wake_all, he]
  · have := h.alive
    simp only [State.wake_all]
    split
    · decide
    · exact this
  · simp only [State.wake_all] at hb
    split at hb
    · cases hb
    · next hw => exact absurd ⟨(h.blocked hb).1, hb⟩ hw

/-- The scheduler kills a signalled thread, and this wakes the one that waits. -/
theorem Leaving.kill (h : Leaving s w) : Leaving (s.kill t) w := by
  unfold State.kill
  split
  · next hk =>
    have htw : w ≠ t := by
      rintro rfl
      rw [h.signal] at hk
      exact absurd hk.1 (by decide)
    refine ⟨⟨h.mem, ?_, fun u hu hut => ?_, h.cleaned⟩, ?_, ?_, fun hb => ?_⟩
    · simpa [State.wake_all, htw] using h.signal
    · by_cases heq : u = t
      · simp [State.wake_all, heq]
      · rcases h.others u hu hut with ho | he
        · exact Or.inl (by simpa [State.wake_all, heq] using ho)
        · exact Or.inr (by simp [State.wake_all, heq, he])
    · simpa [State.wake_all, htw] using h.wait
    · have := h.alive
      simp only [State.wake_all, Function.update_of_ne htw]
      split
      · decide
      · exact this
    · simp only [State.wake_all, Function.update_of_ne htw] at hb
      split at hb
      · cases hb
      · next hw => exact absurd ⟨(h.blocked hb).1, hb⟩ hw
  · exact h

/-- A thread that calls `texit` while `w` waits leaves someone behind who will wake `w`. -/
theorem Leaving.texit (hb : Base s) (h : Leaving s w) {status : ℕ} (hu : s.pc t = .user)
    (hok : Orderly s (.texit t status)) (hs : s.texit t status = some s') : Base s' ∧ Phase s' := by
  have ht : t ∈ s.th_ := hb.mem_th (by rw [hu]; decide)
  have htw : w ≠ t := by
    rintro rfl
    rw [h.wait] at hu
    cases hu
  unfold State.texit at hs
  dsimp only at hs
  split at hs
  · next hnth =>
    have hth := (hb.alone ht hnth).1
    have hw := h.mem
    rw [hth, List.mem_singleton] at hw
    exact absurd hw htw
  · next hnth =>
    split at hs <;> cases hs
    have hmem : ∀ u, u ∈ s.th_.erase t ↔ u ≠ t ∧ u ∈ s.th_ := fun u =>
      (List.nodup_append.mp hb.nodup).1.mem_erase_iff
    refine ⟨hb.leave ht rfl rfl rfl rfl rfl, .leaving w ⟨⟨(hmem w).mpr ⟨htw, h.mem⟩, h.signal,
      fun u hu hut => ?_, h.cleaned⟩, ?_, ?_, fun hblocked => ?_⟩⟩
    · have hu := (hmem u).mp hu
      simpa [hu.1] using h.others u hu.2 hut
    · simpa [htw] using h.wait
    · simpa [htw] using h.alive
    · have hblocked : s.pstate_ w = .ps_blocked := by simpa [htw] using hblocked
      obtain ⟨hwq, -, hlive⟩ := h.blocked hblocked
      refine ⟨hwq, ?_, fun u hu hut => ?_⟩
      · obtain ⟨u, hu, hut, hleft⟩ := hok.resolve_left hnth
        refine ⟨u, (hmem u).mpr ⟨hut, hu⟩, ?_⟩
        rintro rfl
        rcases hleft with hpc | hp
        · rw [h.wait] at hpc
          cases hpc
        · exact hp hblocked
      · have hu := (hmem u).mp hu
        simpa [hu.1] using hlive u hu.2 hut

/-- While `w` waits for the others. -/
theorem Leaving.step (hb : Base s) (h : Leaving s w) {a : Act T} (hok : Orderly s a)
    (hs : s.step a = some s') : Base s' ∧ Phase s' := by
  -- apart from `w`, who waits, a thread on `th_` that is not dead is in user code
  have hplace : ∀ t, s.pc t ≠ .gone → s.pstate_ t ≠ .ps_exiting →
      t = w ∧ s.pc t = .wait ∨ t ≠ w ∧ t ∈ s.th_ ∧ s.pc t = .user ∧ s.exit_signal_ t = true := by
    intro t hpc hp
    have ht := hb.mem_th hpc
    by_cases htw : t = w
    · exact Or.inl ⟨htw, by rw [htw]; exact h.wait⟩
    · exact Or.inr ⟨htw, ht, (h.others t ht htw).resolve_right hp⟩
  cases a with
  | exit t status =>
    simp only [State.step] at hs
    split at hs
    · next hg =>
      rcases hplace t (by rw [hg.1]; decide) (by rw [hg.2]; decide) with hw | ho
      · rw [hg.1] at hw
        exact absurd hw.2 (by decide)
      · rw [hok.1] at ho
        exact absurd ho.2.2.2 (by decide)
    · cases hs
  | texit t status =>
    simp only [State.step] at hs
    split at hs
    · next hg => exact h.texit hb hg.1 hok hs
    · cases hs
  | retest t =>
    simp only [State.step] at hs
    split at hs
    · next hg =>
      rcases hplace t (by rw [hg.1]; decide) (by rw [hg.2]; decide) with ⟨rfl, -⟩ | ho
      · have hsame : (s.clear t).pstate_ = s.pstate_ := if_neg (by rw [hg.2]; decide)
        have hready : Ready (s.clear t) t :=
          ⟨h.mem, h.signal, fun u hu hut => by rw [hsame]; exact h.others u hu hut, h.cleaned⟩
        have hmay : MayTest (s.clear t) t := by
          unfold MayTest
          rw [hsame]
          exact hok
        exact hready.test hb.clear hmay hs
      · rw [hg.1] at ho
        exact absurd ho.2.2.1 (by decide)
    · cases hs
  | schedule t =>
    cases hs
    have hk := h.kill (t := t)
    have hbk := hb.kill (t := t)
    refine ⟨hbk.retire, .leaving w ⟨⟨by simpa using hk.mem, by simpa using hk.signal,
      fun u hu hut => ?_, by simpa using hk.cleaned⟩, by simpa using hk.wait, ?_, fun hbl => ?_⟩⟩
    · rw [retire_th] at hu
      rw [retire_pc, retire_signal, hbk.retire_pstate hu]
      exact hk.others u hu hut
    · rw [hbk.retire_pstate hk.mem]
      exact hk.alive
    · rw [hbk.retire_pstate hk.mem] at hbl
      rw [retire_wq, retire_th]
      obtain ⟨hwq, hother, hlive⟩ := hk.blocked hbl
      exact ⟨hwq, hother, fun u hu hut => by rw [hbk.retire_pstate hu]; exact hlive u hu hut⟩
  | sleep t onWq =>
    simp only [State.step] at hs
    split at hs <;> cases hs
    next hg =>
    rcases hplace t (by rw [hg.1]; decide) (by rw [hg.2]; decide) with hw | ⟨htw, ht, -, -⟩
    · rw [hg.1] at hw
      exact absurd hw.2 (by decide)
    · have hwt : w ≠ t := Ne.symm htw
      refine ⟨hb.blocked ht, .leaving w ⟨⟨h.mem, h.signal, fun u hu hut => ?_, h.cleaned⟩, h.wait,
        by simpa [hwt] using h.alive, fun hbl => ?_⟩⟩
      · by_cases hut' : u = t
        · have ho := (h.others u hu hut).resolve_right (by rw [hut', hg.2]; decide)
          exact Or.inl ho
        · simpa [hut'] using h.others u hu hut
      · obtain ⟨hwq, hother, hlive⟩ := h.blocked (by simpa [hwt] using hbl)
        refine ⟨?_, hother, fun u hu hut => ?_⟩
        · dsimp only
          split
          · exact List.mem_append_left _ hwq
          · exact hwq
        · by_cases hut' : u = t
          · simp [hut']
          · simpa [hut'] using hlive u hu hut
  | awake t =>
    simp only [State.step] at hs
    split at hs <;> cases hs
    next hg =>
    rcases hplace t (by rw [hg.1]; decide) (by rw [hg.2]; decide) with hw | ⟨htw, ht, -, -⟩
    · rw [hg.1] at hw
      exact absurd hw.2 (by decide)
    · have hwt : w ≠ t := Ne.symm htw
      refine ⟨hb.clear, .leaving w ⟨⟨h.mem, h.signal, fun u hu hut => ?_, h.cleaned⟩, h.wait, ?_,
        fun hbl => ?_⟩⟩
      · refine (h.others u hu hut).imp_right fun he => ?_
        have hne : u ≠ t := by
          rintro rfl
          rw [hg.2] at he
          cases he
        simpa [State.clear, hg.2, hne] using he
      · simpa [State.clear, hg.2, hwt] using h.alive
      · obtain ⟨hwq, hother, hlive⟩ := h.blocked (by simpa [State.clear, hg.2, hwt] using hbl)
        refine ⟨(List.mem_erase_of_ne hwt).mpr hwq, hother, fun u hu hut => ?_⟩
        by_cases hut' : u = t
        · simp [State.clear, hg.2, hut']
        · simpa [State.clear, hg.2, hut'] using hlive u hu hut
  | ioEnd t =>
    simp only [State.step] at hs
    split at hs <;> cases hs
    exact ⟨hb.wake_all, .leaving w h.wake_all⟩
  | texit_exit t | closeFds t | freeMemory t | finish t =>
    simp only [State.step] at hs
    split at hs
    · next hg =>
      rcases hplace t (by rw [hg.1]; decide) (by rw [hg.2]; decide) with hw | ho
      · rw [hg.1] at hw
        exact absurd hw.2 (by decide)
      · rw [hg.1] at ho
        exact absurd ho.2.2.1 (by decide)
    · cases hs

/-- Nothing is left for the scheduler in a group with one thread. -/
theorem Alone.schedule_eq (hb : Base s) (h : Alone s w) : (s.kill t).retire t = s := by
  have hw : w ∈ s.th_ := by
    rw [h.th]
    exact List.mem_singleton_self w
  rw [hb.kill_eq fun ht => ?_]
  · exact if_neg ((hb.alone hw h.nth).2 t)
  · rw [h.th, List.mem_singleton] at ht
    rw [ht]
    exact h.signal

/-- While the last thread cleans up. -/
theorem Alone.step (hb : Base s) (h : Alone s w) {a : Act T} (hok : Orderly s a)
    (hs : s.step a = some s') : Base s' ∧ Phase s' := by
  have hw : w ∈ s.th_ := by
    rw [h.th]
    exact List.mem_singleton_self w
  have hlive : s.pstate_ w ≠ .ps_exiting := by
    rw [h.running]
    decide
  -- whoever takes a step is `w`, and the place of `w` says which step
  have hself : ∀ t, s.pc t ≠ .gone → t = w := fun t ht => by
    have hin := hb.mem_th ht
    rwa [h.th, List.mem_singleton] at hin
  have hpc : ∀ t, s.pc t ≠ .gone → s.pc t ≠ .user ∧ s.pc t ≠ .wait := fun t ht => by
    rw [hself t ht]
    rcases h.stage with hp | hp | hp | hp <;> rw [hp.1] <;> decide
  cases a with
  | texit_exit t =>
    simp only [State.step] at hs
    split at hs
    · next hg =>
      obtain rfl := hself t (by rw [hg.1]; decide)
      have hcleaned : s.cleaned = [] := by
        rcases h.stage with hp | hp | hp | hp
        · exact hp.2
        all_goals exact absurd (hg.1.symm.trans hp.1) (by decide)
      refine (Ready.deathcall hw h.signal (fun u hu hut => ?_) hcleaned).test hb.deathcall
        (MayTest.deathcall hok) hs
      rw [h.th, List.mem_singleton] at hu
      exact absurd hu hut
    · cases hs
  | closeFds t =>
    simp only [State.step] at hs
    split at hs <;> cases hs
    next hg =>
    obtain rfl := hself t (by rw [hg.1]; decide)
    have hcleaned : s.cleaned = [] := by
      rcases h.stage with hp | hp | hp | hp
      · exact hp.2
      · exact hp.2
      all_goals exact absurd (hg.1.symm.trans hp.1) (by decide)
    have hmoved := hb.moved hw hlive .memory
    refine ⟨hmoved.congr rfl rfl rfl (fun _ _ => ⟨rfl, rfl⟩) hmoved.on, .alone t ⟨h.th, h.nth,
      h.running, h.signal, Or.inr (Or.inr (Or.inl ⟨Function.update_self .., ?_⟩))⟩⟩
    show s.cleaned ++ _ = _
    rw [hcleaned]
    rfl
  | freeMemory t =>
    simp only [State.step] at hs
    split at hs <;> cases hs
    next hg =>
    obtain rfl := hself t (by rw [hg.1]; decide)
    have hcleaned : s.cleaned = [.fds] := by
      rcases h.stage with hp | hp | hp | hp
      · exact absurd (hg.1.symm.trans hp.1) (by decide)
      · exact absurd (hg.1.symm.trans hp.1) (by decide)
      · exact hp.2
      · exact absurd (hg.1.symm.trans hp.1) (by decide)
    have hmoved := hb.moved hw hlive .status
    refine ⟨hmoved.congr rfl rfl rfl (fun _ _ => ⟨rfl, rfl⟩) hmoved.on, .alone t ⟨h.th, h.nth,
      h.running, h.signal, Or.inr (Or.inr (Or.inr ⟨Function.update_self .., ?_⟩))⟩⟩
    show s.cleaned ++ _ = _
    rw [hcleaned]
    rfl
  | finish t =>
    simp only [State.step] at hs
    split at hs
    · next hg =>
      obtain rfl := hself t (by rw [hg.1]; decide)
      have hcleaned : s.cleaned = [.fds, .pagetable, .children] := by
        rcases h.stage with hp | hp | hp | hp
        · exact absurd (hg.1.symm.trans hp.1) (by decide)
        · exact absurd (hg.1.symm.trans hp.1) (by decide)
        · exact absurd (hg.1.symm.trans hp.1) (by decide)
        · exact hp.2
      unfold State.finish at hs
      split at hs <;> cases hs
      next hassert =>
      refine ⟨hb.leave hw rfl rfl rfl rfl rfl, .over hassert.2.2.1 ?_⟩
      show s.cleaned ++ _ = _
      rw [hcleaned]
      rfl
    · cases hs
  | schedule t =>
    cases hs
    rw [h.schedule_eq hb]
    exact ⟨hb, .alone w h⟩
  | exit t _ | texit t _ | sleep t _ | awake t | ioEnd t =>
    simp only [State.step] at hs
    split at hs
    · next hg => exact absurd hg.1 (hpc t (by rw [hg.1]; decide)).1
    · cases hs
  | retest t =>
    simp only [State.step] at hs
    split at hs
    · next hg => exact absurd hg.1 (hpc t (by rw [hg.1]; decide)).2
    · cases hs

/-- When all have gone only the scheduler is left. -/
theorem Base.step_over (hb : Base s) (hth : s.th_ = []) (hcleaned : s.cleaned = cleanup) {a : Act T}
    (hs : s.step a = some s') : Base s' ∧ Phase s' := by
  have hgone : ∀ t, s.pc t = .gone := fun t => (hb.out t (by rw [hth]; exact List.not_mem_nil)).1
  cases a with
  | schedule t =>
    cases hs
    have hk : s.kill t = s := hb.kill_eq fun ht => by
      rw [hth] at ht
      cases ht
    rw [hk]
    exact ⟨hb.retire, .over (by simpa using hth) (by simpa using hcleaned)⟩
  | exit t _ | texit_exit t | texit t _ | retest t | closeFds t | freeMemory t | finish t | sleep t _
  | awake t | ioEnd t =>
    simp only [State.step, hgone, reduceCtorEq, false_and, if_false] at hs

/-! ## What the cleanup leaves -/

omit [DecidableEq T] in
/-- A step that is not part of the cleanup, and only adds threads to `z_`. -/
theorem Effects.frame (h : Effects s) (hc : s'.cleaned = s.cleaned) (hf : s'.fdtable_ = s.fdtable_)
    (hp : s'.pagetable_ = s.pagetable_) (hch : s'.children_ = s.children_)
    (hr : s'.retval_ = s.retval_) (hz : ∀ u ∈ s.z_, u ∈ s'.z_ ∧ s'.retval u = s.retval u) :
    Effects s' := by
  constructor <;> rw [hc]
  · rw [hf]
    exact h.fds
  · rw [hp]
    exact h.pagetable
  · rw [hch]
    exact h.children
  · intro hs
    obtain ⟨t, ht, hret⟩ := h.status hs
    exact ⟨t, (hz t ht).1, by rw [hr, (hz t ht).2, hret]⟩

theorem Effects.test (h : Effects s) (hs : s.test t = some s') : Effects s' := by
  unfold State.test at hs
  dsimp only at hs
  split at hs
  · cases hs
  · split at hs <;> cases hs <;>
      exact h.frame rfl rfl rfl rfl rfl fun u hu => ⟨List.mem_append_left _ hu, rfl⟩

/-- The parts of the cleanup that a step adds have had their effect. -/
theorem Effects.step (hb : Base s) (h : Effects s) {a : Act T} (hs : s.step a = some s') :
    Effects s' := by
  cases a with
  | exit t status =>
    simp only [State.step] at hs
    split at hs
    · have hcall : Effects
          (State.deathcall { s with reg_rdi := Function.update s.reg_rdi t status } t) :=
        h.frame rfl rfl rfl rfl rfl fun u hu => ⟨hu, rfl⟩
      exact hcall.test hs
    · cases hs
  | texit_exit t =>
    simp only [State.step] at hs
    split at hs
    · have hcall : Effects (s.deathcall t) := h.frame rfl rfl rfl rfl rfl fun u hu => ⟨hu, rfl⟩
      exact hcall.test hs
    · cases hs
  | retest t =>
    simp only [State.step] at hs
    split at hs
    · have hclear : Effects (s.clear t) := h.frame rfl rfl rfl rfl rfl fun u hu => ⟨hu, rfl⟩
      exact hclear.test hs
    · cases hs
  | texit t status =>
    simp only [State.step] at hs
    split at hs
    · next hg =>
      have ht := hb.mem_z (hb.mem_th (t := t) (by rw [hg.1]; decide))
      have hne : ∀ u ∈ s.z_, u ≠ t := fun u hu he => ht (he ▸ hu)
      unfold State.texit at hs
      dsimp only at hs
      split at hs
      · cases hs
        exact h.frame rfl rfl rfl rfl rfl fun u hu => ⟨hu, Function.update_of_ne (hne u hu) _ _⟩
      · split at hs <;> cases hs
        exact h.frame rfl rfl rfl rfl rfl fun u hu =>
          ⟨List.mem_append_left _ hu, Function.update_of_ne (hne u hu) _ _⟩
    · cases hs
  | closeFds t =>
    simp only [State.step] at hs
    split at hs <;> cases hs
    refine ⟨fun _ _ => rfl, fun hp => h.pagetable ?_, fun hp => h.children ?_, fun hp => h.status ?_⟩
    all_goals simpa [State.closeFds] using hp
  | freeMemory t =>
    simp only [State.step] at hs
    split at hs <;> cases hs
    refine ⟨fun hp => h.fds ?_, fun _ => rfl, fun _ => rfl, fun hp => h.status ?_⟩
    all_goals simpa [State.freeMemory] using hp
  | finish t =>
    simp only [State.step] at hs
    split at hs
    · unfold State.finish at hs
      split at hs <;> cases hs
      refine ⟨fun hp => h.fds ?_, fun hp => h.pagetable ?_, fun hp => h.children ?_,
        fun _ => ⟨t, by simp, by simp⟩⟩
      all_goals simpa using hp
    · cases hs
  | schedule t =>
    cases hs
    have hk : Effects (s.kill t) := by
      unfold State.kill
      split
      · exact h.frame rfl rfl rfl rfl rfl fun u hu => ⟨hu, rfl⟩
      · exact h
    unfold State.retire
    split
    · exact hk.frame rfl rfl rfl rfl rfl fun u hu => ⟨hu, rfl⟩
    · exact hk
  | sleep t _ | awake t | ioEnd t =>
    simp only [State.step] at hs
    split at hs <;> cases hs
    exact h.frame rfl rfl rfl rfl rfl fun u hu => ⟨hu, rfl⟩

/-! ## The result -/

theorem Inv.init (h : Init s) : Inv s := by
  refine ⟨⟨?_, ?_, fun u hu => Or.inl (h.running u hu).2, fun u hu => ?_, fun u hu => ?_⟩,
    .working ⟨h.th, fun u hu => ⟨(h.running u hu).1, h.signal u⟩, h.cleaned⟩, ?_⟩
  · rw [h.z, List.append_nil]
    exact h.nodup
  · simp [h.z, h.nth]
  · have hout := h.others u hu
    simp [hout]
  · by_cases hin : u ∈ s.th_
    · exact absurd (hu.symm.trans (h.running u hin).2) (by decide)
    · exact absurd (hu.symm.trans (h.others u hin).2) (by decide)
  · constructor <;> rw [h.cleaned] <;> intro hp <;> cases hp

/-- **An orderly step keeps the invariant.** -/
theorem Inv.step (h : Inv s) {a : Act T} (hok : Orderly s a) (hs : s.step a = some s') : Inv s' := by
  have hnext : Base s' ∧ Phase s' := by
    rcases h.phase with hw | ⟨w, hw⟩ | ⟨w, hw⟩ | ⟨hth, hcleaned⟩
    · exact hw.step h.base hok hs
    · exact hw.step h.base hok hs
    · exact hw.step h.base hok hs
    · exact h.base.step_over hth hcleaned hs
  exact ⟨hnext.1, hnext.2, h.effects.step h.base hs⟩

omit [DecidableEq T] in
/-- What the invariant says about the cleanup. -/
theorem Inv.cleanupOk (h : Inv s) : CleanupOk s := by
  refine ⟨?_, fun hnth => ?_, fun hdying => ?_⟩
  · rcases h.phase with hw | ⟨w, hw⟩ | ⟨w, hw⟩ | ⟨hth, hcleaned⟩
    · rw [hw.cleaned]
      exact List.nil_prefix
    · rw [hw.cleaned]
      exact List.nil_prefix
    · rcases hw.stage with hp | hp | hp | hp <;> rw [hp.2] <;> decide
    · rw [hcleaned]
  · have hth : s.th_ = [] := by
      have := h.base.nth
      exact List.length_eq_zero_iff.mp (by omega)
    have hcleaned : s.cleaned = cleanup := by
      rcases h.phase with hw | ⟨w, hw⟩ | ⟨w, hw⟩ | ⟨-, hcleaned⟩
      · exact absurd hth hw.th
      · exact absurd hth (List.ne_nil_of_mem hw.mem)
      · exact absurd hth (by rw [hw.th]; exact List.cons_ne_nil _ _)
      · exact hcleaned
    exact ⟨hcleaned, h.effects.fds (by rw [hcleaned]; decide),
      h.effects.pagetable (by rw [hcleaned]; decide),
      h.effects.children (by rw [hcleaned]; decide), h.effects.status (by rw [hcleaned]; decide)⟩
  · rcases h.phase with hw | ⟨w, hw⟩ | ⟨w, hw⟩ | ⟨-, hcleaned⟩
    · obtain ⟨t, ht⟩ := List.exists_mem_of_ne_nil _ hw.th
      have huser := hw.user t ht
      rcases hdying t (List.mem_append_left _ ht) with hpc | hsig
      · exact absurd huser.1 hpc
      · exact absurd (huser.2.symm.trans hsig) (by decide)
    · refine Or.inr ⟨w, hw.signal, ?_⟩
      rcases h.base.on w hw.mem with hp | hp | hp
      · exact Or.inl ⟨hp, by rw [hw.wait]; decide⟩
      · obtain ⟨hwq, ⟨u, hu, hut⟩, hlive⟩ := hw.blocked hp
        exact Or.inr ⟨hw.wait, hwq, u, hu, hut,
          ((hw.others u hu hut).resolve_right (hlive u hu hut)).2, hlive u hu hut⟩
      · exact absurd hp.1 hw.alive
    · refine Or.inr ⟨w, hw.signal, Or.inl ⟨hw.running, ?_⟩⟩
      rcases hw.stage with hp | hp | hp | hp <;> rw [hp.1] <;> decide
    · exact Or.inl hcleaned

/--
**The cleanup runs exactly once.** In every orderly run its parts run in order, all of them before
`nth_` is 0, and a group whose threads are all dead or dying has cleaned up or is about to.
-/
theorem cleanup_once {s : State T V G}
    (h : Reach Init (fun s a s' => State.step s a = some s') Orderly s) : CleanupOk s := by
  have hinv : Inv s := h.invariant (fun _ => Inv.init) fun _ a _ hi (hok : Orderly _ a) hs =>
    hi.step hok hs
  exact hinv.cleanupOk

/-- `n` threads that run, with a vnode behind descriptor 0 and a child group. -/
def running (n : ℕ) : State (Fin n) ℕ ℕ where
  th_ := List.finRange n
  z_ := []
  nth_ := n
  wq_ := []
  fdtable_ fd := if fd = 0 then some 7 else none
  pagetable_ := true
  children_ := [5]
  initChildren := []
  retval_ := 0
  pstate_ _ := .ps_runnable
  exit_signal_ _ := false
  retval _ := 0
  reg_rdi _ := 0
  pc _ := .user
  cleaned := []

theorem running_init (n : ℕ) : Init (running (n + 1)) where
  th := by simp [running]
  nodup := List.nodup_finRange _
  z := rfl
  nth := by simp [running]
  wq := rfl
  running _ _ := ⟨rfl, rfl⟩
  others t ht := absurd (List.mem_finRange t) ht
  signal _ := rfl
  cleaned := rfl

attribute [local instance] Lib.neZero_two Lib.neZero_three

/-- One thread has left, one calls `exit`, and the third is killed. -/
def exitRun : List (Act (Fin 3)) :=
  [.texit 2 1, .schedule 2, .exit 0 3, .schedule 1, .retest 0, .closeFds 0, .freeMemory 0, .finish 0,
    .schedule 0]

theorem cleanup_once_exitRun :
    ∃ s, exec State.step (fun s a => decide (Orderly s a)) (running 3) exitRun = some s ∧
      CleanupOk s ∧ s.nth_ = 0 ∧ s.retval_ = 3 ∧ s.initChildren = [5] := by
  have hend : (exec State.step (fun s a => decide (Orderly s a)) (running 3) exitRun).map
      (fun s => (s.nth_, s.retval_, s.initChildren)) = some (0, 3, [5]) := by
    decide +kernel
  obtain ⟨s, hrun, hs⟩ := Option.map_eq_some_iff.mp hend
  simp only [Prod.mk.injEq] at hs
  exact ⟨s, hrun, cleanup_once (Reach.exec (fun _ _ => of_decide_eq_true)
    (.init (running_init 2)) hrun), hs⟩

/-! ## The groups that are lost -/

instance (s : State T V G) (t : T) : Decidable (Dying s t) := inferInstanceAs (Decidable (_ ∨ _))

instance [Fintype T] (s : State T V G) : Decidable (AboutToClean s) :=
  inferInstanceAs (Decidable (∃ _, _))

/-- Two threads call `texit`; the scheduler has not counted the first one when the second looks. -/
def togetherRun : List (Act (Fin 2)) := [.texit 0 0, .texit 1 0, .schedule 0, .schedule 1]

/-- Two threads call `exit` and signal each other. -/
def mutualRun : List (Act (Fin 2)) := [.exit 0 0, .exit 1 0, .retest 0, .schedule 0, .schedule 1]

/-- A thread tests while the other one is in transition. The scheduler wakes the parent, not it. -/
def transitionRun : List (Act (Fin 2)) := [.texit 1 0, .exit 0 0, .schedule 1]

/-- After the run the group is dead, or stuck for ever, with nothing cleaned up. -/
def Lost (run : List (Act (Fin 2))) : Prop :=
  ∃ s, exec State.step (fun _ _ => true) (running 2) run = some s ∧
    Reach Init (fun s a s' => State.step s a = some s') (fun _ _ => True) s ∧
    (∀ t ∈ s.th_ ++ s.z_, Dying s t) ∧ s.cleaned = [] ∧ ¬ AboutToClean s ∧ ¬ CleanupOk s

theorem lost_of_exec {run : List (Act (Fin 2))}
    (hend : (exec State.step (fun _ _ => true) (running 2) run).map
      (fun s => decide ((∀ t ∈ s.th_ ++ s.z_, Dying s t) ∧ s.cleaned = [] ∧ ¬ AboutToClean s)) =
      some true) : Lost run := by
  obtain ⟨s, hs, hlost⟩ := Option.map_eq_some_iff.mp hend
  obtain ⟨hdying, hcleaned, hno⟩ := of_decide_eq_true hlost
  refine ⟨s, hs, Reach.exec (fun _ _ _ => trivial) (.init (running_init 1)) hs, hdying, hcleaned, hno,
    fun hok => ?_⟩
  rcases hok.live hdying with hall | habout
  · rw [hcleaned] at hall
    cases hall
  · exact hno habout

/-- Each of the three ways to break the condition loses the cleanup. -/
theorem cleanup_lost : Lost togetherRun ∧ Lost mutualRun ∧ Lost transitionRun :=
  ⟨lost_of_exec (by decide +kernel), lost_of_exec (by decide +kernel),
    lost_of_exec (by decide +kernel)⟩

end Chickadee.Thgrp
