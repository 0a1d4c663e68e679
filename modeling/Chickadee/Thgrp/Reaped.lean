import Chickadee.Lib.Run
import Chickadee.Thgrp.Threads
import Mathlib.Data.Fintype.Basic
import Chickadee.Lib.Literals

/-!
# Reaping

A `waitpid` keeps the pointer to a child from one section to the next. As long as no group is released
while another thread keeps a pointer to it, every kept pointer is to a child of the thread's own group,
so each exited group is reported and released once.
-/

namespace Chickadee.Thgrp.Wait

open Lib

set_option linter.unusedSectionVars false

variable {G W : Type} [DecidableEq G] [DecidableEq W] {init g c : G} {w v : W}
  {s s' : State G W}

/-- The pointers a `waitpid` keeps. -/
structure Holds (s : State G W) : Prop where
  child : ∀ w c, (s.pc w).holds = some c → ∃ g, s.ptable w = some g ∧ c ∈ s.children_ g
  picked : ∀ w c, s.pc w = .picked c → s.nth_ c = 0
  releasing : ∀ w c r, s.pc w = .releasing c r → s.nth_ c = 0 ∧ r = s.retpid c

/-- **What holds in every state of an orderly run.** -/
structure Inv (init : G) (s : State G W) : Prop where
  tree : Tree init s
  names : Names s
  threads : Threads s
  holds : Holds s

/-! ## The pointers that are kept -/

/-- A step after which the threads that keep a pointer are where they were, with what they need. -/
theorem Holds.transfer (h : Holds s) (hkeep : ∀ u d, (s'.pc u).holds = some d → s'.pc u = s.pc u ∧
    ∀ p, s.ptable u = some p → d ∈ s.children_ p → s'.ptable u = some p ∧ d ∈ s'.children_ p ∧
      (s.nth_ d = 0 → s'.nth_ d = 0 ∧ s'.retpid d = s.retpid d)) : Holds s' := by
  refine ⟨fun u d hd => ?_, fun u d hd => ?_, fun u d r hd => ?_⟩
  · obtain ⟨hpc, hp⟩ := hkeep u d hd
    rw [hpc] at hd
    obtain ⟨p, hup, hdp⟩ := h.child u d hd
    exact ⟨p, (hp p hup hdp).1, (hp p hup hdp).2.1⟩
  · obtain ⟨hpc, hp⟩ := hkeep u d (by rw [hd]; rfl)
    rw [hpc] at hd
    obtain ⟨p, hup, hdp⟩ := h.child u d (by rw [hd]; rfl)
    exact ((hp p hup hdp).2.2 (h.picked u d hd)).1
  · obtain ⟨hpc, hp⟩ := hkeep u d (by rw [hd]; rfl)
    rw [hpc] at hd
    obtain ⟨p, hup, hdp⟩ := h.child u d (by rw [hd]; rfl)
    obtain ⟨hnth, hr⟩ := h.releasing u d r hd
    have hsame := (hp p hup hdp).2.2 hnth
    exact ⟨hsame.1, hr.trans hsame.2.symm⟩

/-- A thread that keeps a pointer works, and what it points to is alive. -/
theorem Inv.held (h : Inv init s) (hc : (s.pc w).holds = some c) :
    ∃ g, Works s g w ∧ c ∈ s.children_ g ∧ s.alive c = true := by
  obtain ⟨g, hw, hmem⟩ := h.holds.child w c hc
  have hplace : s.pc w ≠ .gone ∧ s.pc w ≠ .left ∧ s.pc w ≠ .exiting := by
    refine ⟨?_, ?_, ?_⟩ <;> intro hp <;> rw [hp] at hc <;> cases hc
  have hworks := h.threads.works hw hplace
  exact ⟨g, hworks, hmem, (h.tree.listed g c hworks.alive hmem).1⟩

/-- A thread that works moves on, and what it keeps is in order. -/
theorem Inv.moved (h : Inv init s) (hw : Works s g w) (pc : Pc G)
    (hpc : pc ≠ .exiting ∧ pc ≠ .left ∧ pc ≠ .gone) (hhold : ∀ d, pc.holds = some d → d ∈ s.children_ g)
    (hpick : ∀ d, pc = .picked d → s.nth_ d = 0)
    (hrel : ∀ d r, pc = .releasing d r → s.nth_ d = 0 ∧ r = s.retpid d) (ret : W → ℤ) :
    Inv init { s with pc := Function.update s.pc w pc, ret := ret } := by
  refine ⟨h.tree.congr rfl rfl rfl rfl rfl rfl rfl, h.names.congr rfl rfl rfl rfl rfl rfl,
    h.threads.moved hw hpc ⟨rfl, rfl, rfl, rfl, rfl, rfl, rfl, rfl, rfl⟩ rfl,
    fun u d hd => ?_, fun u d hd => ?_, fun u d r hd => ?_⟩
  · by_cases huw : u = w
    · subst huw
      exact ⟨g, hw.group, hhold d (by simpa using hd)⟩
    · exact h.holds.child u d (by simpa [huw] using hd)
  · by_cases huw : u = w
    · subst huw
      exact hpick d (by simpa using hd)
    · exact h.holds.picked u d (by simpa [huw] using hd)
  · by_cases huw : u = w
    · subst huw
      exact hrel d r (by simpa using hd)
    · exact h.holds.releasing u d r (by simpa [huw] using hd)

theorem Inv.return (h : Inv init s) (hw : Works s g w) (ret : ℤ) : Inv init (s.return w ret) :=
  h.moved hw .user (by simp) (fun _ hd => nomatch hd) (fun _ hd => nomatch hd)
    (fun _ _ hd => nomatch hd) _

/-- A thread picks an exited child. -/
theorem Inv.pick (h : Inv init s) (hw : Works s g w) (hc : c ∈ s.children_ g) (hnth : s.nth_ c = 0) :
    Inv init (s.goto w (.picked c)) := by
  refine h.moved hw (.picked c) (by simp) (fun d hd => ?_) (fun d hd => ?_)
    (fun _ _ hd => nomatch hd) _
  · cases hd
    exact hc
  · cases hd
    exact hnth

theorem mem_find_exited (hc : s.find_exited g = some c) : c ∈ s.children_ g ∧ s.nth_ c = 0 :=
  ⟨List.mem_of_find?_eq_some hc, by simpa using List.find?_some hc⟩

theorem Inv.waitpid (h : Inv init s) (hw : Works s g w) (pid options : ℤ) :
    Inv init (s.waitpid g w pid options) := by
  unfold State.waitpid
  dsimp only
  split
  · exact h.return hw _
  · split
    · exact h.return hw _
    · split
      · refine h.moved hw _ ?_ (fun d hd => ?_) (fun d hd => ?_) (fun d r hd => ?_) _
        all_goals split at * <;> simp_all [Pc.holds]
      · split
        · next c hc =>
          have hmem := List.mem_of_find?_eq_some hc
          refine h.moved hw _ ?_ (fun d hd => ?_) (fun d hd => ?_) (fun d r hd => ?_) _
          all_goals split at * <;> simp_all [Pc.holds]
        · exact h

theorem Inv.test (h : Inv init s) (hw : Works s g w) (hs : s.test g w = some s') : Inv init s' := by
  have hchild : ∀ d, (s.pc w).holds = some d → d ∈ s.children_ g := fun d hd => by
    obtain ⟨p, hp, hmem⟩ := h.holds.child w d hd
    rwa [Option.some.inj (hw.group.symm.trans hp)]
  unfold State.test at hs
  split at hs
  · next c hpc =>
    split at hs <;> cases hs
    next hnth => exact h.pick hw (hchild c (by rw [hpc]; rfl)) hnth
  · next c hpc =>
    cases hs
    split
    · exact h.return hw _
    · next hnth => exact h.pick hw (hchild c (by rw [hpc]; rfl)) (not_not.mp hnth)
  · obtain ⟨c, hc, rfl⟩ := Option.map_eq_some_iff.mp hs
    exact h.pick hw (mem_find_exited hc).1 (mem_find_exited hc).2
  · cases hs
    split
    · next c hc => exact h.pick hw (mem_find_exited hc).1 (mem_find_exited hc).2
    · exact h.return hw _
  · cases hs

/-- `d`, to which `u` keeps a pointer, differs from the group of a thread that works. -/
theorem Inv.ne_exited (h : Inv init s) (hw : Works s g w) (hnth : s.nth_ c = 0) : c ≠ g := by
  rintro rfl
  exact hw.running ((h.threads.ok c hw.alive).exited hnth).1

theorem Inv.fork (h : Inv init s) (hw : Works s g w) (hc : s.alive c = false)
    (hv : s.ptable v = none) : Inv init (s.fork g c v) := by
  refine ⟨h.tree.fork h.names hw.alive hw.running hc, h.names.fork hc,
    h.threads.fork h.names hc hv, h.holds.transfer fun u d hd => ?_⟩
  have huv : u ≠ v := by
    rintro rfl
    rw [show (s.fork g c u).pc u = .user from Function.update_self ..] at hd
    cases hd
  refine ⟨Function.update_of_ne huv _ _, fun p hp hmem => ?_⟩
  have hpa := h.threads.live u p hp
  have hne : ∀ q, s.alive q = true → q ≠ c := by
    rintro q hq rfl
    rw [hc] at hq
    cases hq
  have hdc := hne d (h.tree.listed p d hpa hmem).1
  refine ⟨(Function.update_of_ne huv _ _).trans hp, ?_, fun hnth => ⟨?_, ?_⟩⟩
  · by_cases hpg : p = g
    · subst hpg
      simpa [State.fork] using Or.inl hmem
    · simpa [State.fork, hpg, hne p hpa] using hmem
  · simpa [State.fork, hdc] using hnth
  · simp [State.retpid, State.fork, hdc]

theorem Inv.addThread (h : Inv init s) (hw : Works s g w) (hv : s.ptable v = none) :
    Inv init (s.addThread g v) := by
  refine ⟨h.tree.congr rfl rfl rfl rfl rfl rfl rfl, h.names.congr rfl rfl rfl rfl rfl rfl,
    h.threads.addThread hw hv, h.holds.transfer fun u d hd => ?_⟩
  have huv : u ≠ v := by
    rintro rfl
    rw [show (s.addThread g u).pc u = .user from Function.update_self ..] at hd
    cases hd
  refine ⟨Function.update_of_ne huv _ _, fun p hp hmem =>
    ⟨(Function.update_of_ne huv _ _).trans hp, hmem, fun hnth => ⟨?_, rfl⟩⟩⟩
  exact (Function.update_of_ne (h.ne_exited hw hnth) _ _).trans hnth

theorem Inv.leave (h : Inv init s) (hw : Works s g w) (hnth : 2 ≤ s.nth_ g) :
    Inv init (s.leave g w) := by
  refine ⟨h.tree.congr rfl rfl rfl rfl rfl rfl rfl, h.names.congr rfl rfl rfl rfl rfl rfl,
    h.threads.leave hw hnth, h.holds.transfer fun u d hd => ?_⟩
  have huw : u ≠ w := by
    rintro rfl
    rw [show (s.leave g u).pc u = .gone from Function.update_self ..] at hd
    cases hd
  refine ⟨Function.update_of_ne huw _ _, fun p hp hmem => ⟨hp, hmem, fun hnth => ⟨?_, rfl⟩⟩⟩
  exact (Function.update_of_ne (h.ne_exited hw hnth) _ _).trans hnth

theorem Inv.exit (h : Inv init s) (hw : Works s g w) (hnth : s.nth_ g = 1) (hg : g ≠ init) :
    Inv init (s.exit init g w) := by
  refine ⟨h.tree.exit h.names hw.alive hg hw.running, h.names.exit hw.alive hg,
    h.threads.exit h.names hw hnth hg, ?_⟩
  rw [exit_eq hg]
  refine h.holds.transfer fun u d hd => ?_
  have huw : u ≠ w := by
    rintro rfl
    simp [Pc.holds] at hd
  have hkeep : (s.pc u).holds = some d := by simpa [huw] using hd
  refine ⟨Function.update_of_ne huw _ _, fun p hp hmem => ⟨hp, ?_, fun hnth => ⟨hnth, rfl⟩⟩⟩
  -- the caller is the only thread of its group
  have hpg : p ≠ g := by
    rintro rfl
    have hok := h.threads.ok p hw.alive
    have hrun := hok.running hw.running
    obtain ⟨x, hx⟩ := List.length_eq_one_iff.mp (hrun.nth.symm.trans hnth)
    have hwx := hw.th
    rw [hx, List.mem_singleton] at hwx
    rcases (hok.mem u).mp hp with hth | hz
    · rw [hx, List.mem_singleton] at hth
      exact huw (hth.trans hwx.symm)
    · rw [hrun.z u hz] at hkeep
      cases hkeep
  by_cases hpi : p = init
  · subst hpi
    simpa using Or.inl hmem
  · simpa [hpi, hpg] using hmem

theorem Inv.exit_status (h : Inv init s) (hw : s.ptable w = some g) (hpc : s.pc w = .exiting)
    (status : ℕ) : Inv init (s.exit_status g w status) := by
  have hg := h.threads.live w g hw
  obtain ⟨-, hone, hin, -, hnew⟩ := (h.threads.ok g hg).cleaning hw hpc
  refine ⟨h.tree.congr rfl rfl rfl rfl rfl rfl rfl, h.names.exit_status hg hin hnew status,
    h.threads.exit_status h.names hw hpc status, h.holds.transfer fun u d hd => ?_⟩
  have huw : u ≠ w := by
    rintro rfl
    rw [show (s.exit_status g u status).pc u = .left from Function.update_self ..] at hd
    cases hd
  refine ⟨Function.update_of_ne huw _ _, fun p hp hmem => ⟨hp, hmem, fun hnth => ⟨hnth, ?_⟩⟩⟩
  have hdg : d ≠ g := by
    rintro rfl
    omega
  simp [State.retpid, State.exit_status, hdg]

theorem Inv.schedule (h : Inv init s) (hw : s.ptable w = some g) (hpc : s.pc w = .left) :
    Inv init (s.schedule g w) := by
  refine ⟨h.tree.congr rfl rfl rfl rfl rfl rfl rfl, h.names.congr rfl rfl rfl rfl rfl rfl,
    h.threads.schedule hw hpc, h.holds.transfer fun u d hd => ?_⟩
  have huw : u ≠ w := by
    rintro rfl
    rw [show (s.schedule g u).pc u = .gone from Function.update_self ..] at hd
    cases hd
  refine ⟨Function.update_of_ne huw _ _, fun p hp hmem => ⟨hp, hmem, fun hnth => ⟨?_, rfl⟩⟩⟩
  by_cases hdg : d = g
  · subst hdg
    simp [State.schedule, hnth]
  · simpa [State.schedule, hdg] using hnth

theorem Inv.release (h : Inv init s) (hw : Works s g w) {r : ℕ} (hpc : s.pc w = .releasing c r)
    (hno : ∀ v, v ≠ w → (s.pc v).holds ≠ some c) : Inv init (s.release g w c r) := by
  obtain ⟨hnth, rfl⟩ := h.holds.releasing w c r hpc
  obtain ⟨p, hp, hmem⟩ := h.holds.child w c (by rw [hpc]; rfl)
  obtain rfl : p = g := Option.some.inj (hp.symm.trans hw.group)
  have hca := (h.tree.listed p c hw.alive hmem).1
  obtain ⟨hin, hth, hexit⟩ := (h.threads.ok c hca).exited hnth
  have hpc' := h.ne_exited hw hnth
  -- the threads of the group that is released are dead
  have hptable : ∀ u q, s.ptable u = some q → q ≠ c → u ∉ s.z_ c := fun u q hq hne hz =>
    hne (Option.some.inj (hq.symm.trans (((h.threads.ok c hca).mem u).mpr (Or.inr hz))))
  have hworks : Works (s.release_child p c) p w :=
    ⟨(if_neg (hptable w p hw.group (Ne.symm hpc'))).trans hw.group,
      (Function.update_of_ne (Ne.symm hpc') _ _).trans hw.alive, hw.th, hw.gone, hw.running⟩
  have huser : (.user : Pc G) ≠ .exiting ∧ (.user : Pc G) ≠ .left ∧ (.user : Pc G) ≠ .gone := by
    simp
  refine ⟨h.tree.release hw.alive hw.running hmem (h.tree.given c hca hin) _,
    h.names.release hca hexit, (h.threads.release_child hca hnth).moved hworks huser
      ⟨rfl, rfl, rfl, rfl, rfl, rfl, rfl, rfl, rfl⟩ rfl, h.holds.transfer fun u d hd => ?_⟩
  have huw : u ≠ w := by
    rintro rfl
    rw [show (s.release p u c (s.retpid c)).pc u = .user from Function.update_self ..] at hd
    cases hd
  have hsame : (s.release p w c (s.retpid c)).pc u = s.pc u := Function.update_of_ne huw _ _
  rw [hsame] at hd
  have hdc : d ≠ c := by
    rintro rfl
    exact hno u huw hd
  refine ⟨hsame, fun q' hq' hmem' => ⟨?_, ?_, fun hnth => ⟨hnth, rfl⟩⟩⟩
  · have hqc : q' ≠ c := by
      rintro rfl
      have := h.tree.given q' hca hin
      rw [this] at hmem'
      cases hmem'
    exact (if_neg (hptable u q' hq' hqc)).trans hq'
  · show d ∈ Function.update s.children_ p ((s.children_ p).erase c) q'
    by_cases hq : q' = p
    · subst hq
      rw [Function.update_self]
      exact (List.mem_erase_of_ne hdc).mpr hmem'
    · rwa [Function.update_of_ne hq]

/-! ## The result -/

theorem inv_init (h : Init init s) : Inv init s := by
  obtain ⟨w, hth, hpc, hptable⟩ := h.threads
  obtain ⟨hexiting, hexits, hreports⟩ := h.logs
  have hgone : ∀ v, v ≠ w → s.pc v = .gone := fun v hv => h.fresh v <| by
    cases hp : s.ptable v with
    | none => rfl
    | some g => exact absurd ((hptable v g).mp hp).1 hv
  have hnone : ∀ v d, (s.pc v).holds ≠ some d := fun v d hd => by
    by_cases hv : v = w
    · rw [hv, hpc] at hd
      cases hd
    · rw [hgone v hv] at hd
      cases hd
  refine ⟨⟨?_, ?_, ?_, ?_, ?_, ?_, ?_⟩, ⟨?_, ?_, ?_, ?_, ?_, ?_, ?_, ?_⟩, ⟨?_, ?_, h.fresh⟩,
    ⟨fun v d hd => absurd hd (hnone v d), fun v d hd => absurd ?_ (hnone v d),
      fun v d r hd => absurd ?_ (hnone v d)⟩⟩
  · exact ⟨(h.alive init).mpr rfl, by rw [hexiting]; exact List.not_mem_nil⟩
  · exact fun c hc hi => absurd ((h.alive c).mp hc) hi
  · intro p c hp hc
    rw [(h.alive p).mp hp, h.children] at hc
    cases hc
  · intro p hp
    rw [(h.alive p).mp hp, h.children]
    exact List.nodup_nil
  · intro p hp _
    rw [(h.alive p).mp hp, h.children, h.nchildren]
    rfl
  · intro p hp _
    rw [(h.alive p).mp hp, h.children]
  · exact fun c hc hi => absurd ((h.alive c).mp hc) hi
  · intro c hc
    rw [(h.alive c).mp hc, h.tgid, h.cur_tgid]
  · exact fun c d hc hd _ => ((h.alive c).mp hc).trans ((h.alive d).mp hd).symm
  · intro t ht
    rw [hexiting] at ht
    cases ht
  · intro e he
    rw [hexits] at he
    cases he
  · rw [hexits]
    exact List.nodup_nil
  · rw [hreports]
    exact List.nodup_nil
  · intro r hr
    rw [hreports] at hr
    cases hr
  · intro e he
    rw [hexits] at he
    cases he
  · intro g hg
    obtain rfl := (h.alive g).mp hg
    refine ⟨fun v => ?_, fun v hv => ?_, fun v hv => ?_, ?_, fun _ => ⟨?_, ?_, fun v hv => ?_,
      fun v hv => ?_⟩, fun hin => ?_⟩
    · rw [hptable, hth, h.z]
      simp
    · rw [hth, List.mem_singleton] at hv
      simp [hv, hpc]
    · rw [h.z] at hv
      cases hv
    · rw [hth]
      exact List.nodup_singleton w
    · rw [h.nth, hth]
      rfl
    · rw [hth]
      exact List.cons_ne_nil _ _
    · rw [hth, List.mem_singleton] at hv
      simp [hv, hpc]
    · rw [h.z] at hv
      cases hv
    · rw [hexiting] at hin
      cases hin
  · exact fun v g hv => (h.alive g).mpr ((hptable v g).mp hv).2
  · rw [hd]
    rfl
  · rw [hd]
    rfl

/-- **An orderly step keeps the invariant.** -/
theorem Inv.step (h : Inv init s) {a : Act G W} (hok : Orderly s a) (hs : s.step init a = some s') :
    Inv init s' := by
  obtain ⟨g, hg, hs⟩ := Option.bind_eq_some_iff.mp hs
  have hworks : ∀ w, s.ptable w = some g → s.pc w ≠ .gone ∧ s.pc w ≠ .left ∧ s.pc w ≠ .exiting →
      Works s g w := fun w => h.threads.works
  cases a with
  | fork w c v =>
    simp only [State.stepIn] at hs
    split at hs <;> cases hs
    next hgd => exact h.fork (hworks w hg (by simp [hgd.1])) hgd.2.1 hgd.2.2
  | forkFail w =>
    simp only [State.stepIn] at hs
    split at hs <;> cases hs
    exact ⟨h.tree.congr rfl rfl rfl rfl rfl rfl rfl, h.names.forkFail,
      ⟨fun p hp => (h.threads.ok p hp).same ⟨rfl, rfl, rfl, rfl, rfl, fun _ => Iff.rfl,
        fun _ _ => rfl, Iff.rfl, fun _ => Iff.rfl⟩, h.threads.live, h.threads.free⟩,
      ⟨h.holds.child, h.holds.picked, h.holds.releasing⟩⟩
  | clone w v =>
    simp only [State.stepIn] at hs
    split at hs <;> cases hs
    next hgd => exact h.addThread (hworks w hg (by simp [hgd.1])) hgd.2
  | leave w =>
    simp only [State.stepIn] at hs
    split at hs <;> cases hs
    next hgd =>
    have hplace : s.pc w ≠ .exiting ∧ s.pc w ≠ .left ∧ s.pc w ≠ .gone := by simpa using hgd.1
    exact h.leave (hworks w hg ⟨hplace.2.2, hplace.2.1, hplace.1⟩) hgd.2
  | exit w =>
    simp only [State.stepIn] at hs
    split at hs <;> cases hs
    next hgd => exact h.exit (hworks w hg (by simp [hgd.1])) hgd.2.1 hgd.2.2
  | exit_status w status =>
    simp only [State.stepIn] at hs
    split at hs <;> cases hs
    next hgd => exact h.exit_status hg hgd status
  | schedule w =>
    simp only [State.stepIn] at hs
    split at hs <;> cases hs
    next hgd => exact h.schedule hg hgd
  | waitpid w pid options =>
    simp only [State.stepIn] at hs
    split at hs <;> cases hs
    next hgd => exact h.waitpid (hworks w hg (by simp [hgd])) pid options
  | test w =>
    simp only [State.stepIn] at hs
    refine h.test (hworks w hg ?_) hs
    unfold State.test at hs
    refine ⟨?_, ?_, ?_⟩ <;> intro hp <;> rw [hp] at hs <;> cases hs
  | read w =>
    simp only [State.stepIn] at hs
    split at hs <;> cases hs
    next c hpc =>
    have hnth := h.holds.picked w c hpc
    obtain ⟨p, hp, hmem⟩ := h.holds.child w c (by rw [hpc]; rfl)
    obtain rfl : p = g := Option.some.inj (hp.symm.trans hg)
    refine h.moved (hworks w hg (by simp [hpc])) (.releasing c (s.retpid c)) (by simp)
      (fun d hd => ?_) (fun _ hd => nomatch hd) (fun d r hd => ?_) _
    · cases hd
      exact hmem
    · cases hd
      exact ⟨hnth, rfl⟩
  | release w =>
    simp only [State.stepIn] at hs
    split at hs <;> cases hs
    next c r hpc =>
    have hc : (s.pc w).holds = some c := by rw [hpc]; rfl
    refine h.release (hworks w hg (by simp [hpc])) hpc fun v hv hd => ?_
    exact hok v hv (by rw [hc]; simp) (hd.trans hc.symm)

instance (s : State G W) [Fintype W] : (a : Act G W) → Decidable (Orderly s a)
  | .release w => inferInstanceAs
      (Decidable (∀ v, v ≠ w → (s.pc w).holds ≠ none → (s.pc v).holds ≠ (s.pc w).holds))
  | .fork _ _ _ | .forkFail _ | .clone _ _ | .leave _ | .exit _ | .exit_status _ _ | .schedule _
  | .waitpid _ _ _ | .test _ | .read _ => isTrue trivial

attribute [local instance] Lib.neZero_four Lib.neZero_five

/-- The kernel as it starts: thread 0 is the kernel task of init, group 0. -/
def booted : State (Fin 4) (Fin 5) where
  alive g := g = 0
  tgid_ _ := 1
  pthgrp_ _ := 0
  children_ _ := []
  nchildren_ _ := 0
  retval_ _ := 0
  nth_ _ := 1
  th_ _ := [0]
  z_ _ := []
  ptable w := if w = 0 then some 0 else none
  pc w := if w = 0 then .user else .gone
  ret _ := 0
  cur_tgid := 1
  forker _ := 0
  exiting := []
  exits := []
  reports := []

theorem booted_init : Init 0 booted where
  alive g := by simp [booted]
  tgid := rfl
  pthgrp := rfl
  children := rfl
  nchildren := rfl
  threads := ⟨0, rfl, rfl, by decide⟩
  nth := rfl
  z := rfl
  cur_tgid := rfl
  fresh w hw := by
    have hne : w ≠ 0 := by
      rintro rfl
      cases hw
    simp [booted, hne]
  logs := ⟨rfl, rfl, rfl⟩

/--
The first process (thread 1) makes a second thread (2) and forks a child (thread 3), which forks a child
of its own (thread 4) and exits with status 7.
-/
def childExits : List (Act (Fin 4) (Fin 5)) :=
  [.fork 0 1 1, .clone 1 2, .fork 1 2 3, .fork 3 3 4, .exit 3, .exit_status 3 7, .schedule 3]

/-- One thread waits for the child. -/
def waitRun : List (Act (Fin 4) (Fin 5)) :=
  childExits ++ [.waitpid 1 3 0, .test 1, .read 1, .release 1, .waitpid 2 0 1]

end Chickadee.Thgrp.Wait
