import Chickadee.Thgrp.Hierarchy

/-!
# The threads of the groups

A live group works with its threads on `th_`, or has been through the section of `exit` and is at one
of three stages. A step changes the threads of one group only (`Threads.local`).
-/

namespace Chickadee.Thgrp.Wait

set_option linter.unusedSectionVars false

variable {G W : Type} [DecidableEq G] [DecidableEq W] {init g c : G} {w v : W}
  {s s' : State G W}

/-- A group that has not been through the section of `exit`. -/
structure Running (s : State G W) (g : G) : Prop where
  nth : s.nth_ g = (s.th_ g).length
  th : s.th_ g ≠ []
  on : ∀ w ∈ s.th_ g, s.pc w ≠ .exiting
  z : ∀ w ∈ s.z_ g, s.pc w = .gone

/-- A group that has been through it: its last thread is in `exit`, in transition, or counted. -/
inductive Stage (s : State G W) (g : G) : Prop
  | cleaning (w : W) (hth : s.th_ g = [w]) (hpc : s.pc w = .exiting) (hnth : s.nth_ g = 1)
      (hz : ∀ v ∈ s.z_ g, s.pc v = .gone) (hexit : ∀ status, (s.tgid_ g, status) ∉ s.exits)
  | leaving (w : W) (hth : s.th_ g = []) (hw : w ∈ s.z_ g) (hpc : s.pc w = .left)
      (hnth : s.nth_ g = 1) (hz : ∀ v ∈ s.z_ g, v ≠ w → s.pc v = .gone)
      (hexit : (s.tgid_ g, s.retval_ g) ∈ s.exits)
  | over (hth : s.th_ g = []) (hnth : s.nth_ g = 0) (hz : ∀ v ∈ s.z_ g, s.pc v = .gone)
      (hexit : (s.tgid_ g, s.retval_ g) ∈ s.exits)

/-- The threads of a group, and where it is in its life. -/
structure GroupOk (s : State G W) (g : G) : Prop where
  mem : ∀ w, s.ptable w = some g ↔ w ∈ s.th_ g ∨ w ∈ s.z_ g
  th : ∀ w ∈ s.th_ g, s.pc w ≠ .left ∧ s.pc w ≠ .gone
  z : ∀ w ∈ s.z_ g, s.pc w = .left ∨ s.pc w = .gone
  nodup : (s.th_ g).Nodup
  running : s.tgid_ g ∉ s.exiting → Running s g
  stage : s.tgid_ g ∈ s.exiting → Stage s g

/-- The threads of all groups. -/
structure Threads (s : State G W) : Prop where
  ok : ∀ g, s.alive g = true → GroupOk s g
  live : ∀ w g, s.ptable w = some g → s.alive g = true
  free : ∀ w, s.ptable w = none → s.pc w = .gone

/-! ## One group -/

/-- Nothing changes in the group. -/
structure Same (s s' : State G W) (g : G) : Prop where
  nth : s'.nth_ g = s.nth_ g
  th : s'.th_ g = s.th_ g
  z : s'.z_ g = s.z_ g
  tgid : s'.tgid_ g = s.tgid_ g
  retval : s'.retval_ g = s.retval_ g
  ptable : ∀ w, s'.ptable w = some g ↔ s.ptable w = some g
  pc : ∀ w, s.ptable w = some g → s'.pc w = s.pc w
  exiting : s.tgid_ g ∈ s'.exiting ↔ s.tgid_ g ∈ s.exiting
  exits : ∀ status, (s.tgid_ g, status) ∈ s'.exits ↔ (s.tgid_ g, status) ∈ s.exits

theorem GroupOk.same (h : GroupOk s g) (hsame : Same s s' g) : GroupOk s' g := by
  have hth : ∀ w ∈ s.th_ g, s'.pc w = s.pc w := fun w hw => hsame.pc w ((h.mem w).mpr (Or.inl hw))
  have hz : ∀ w ∈ s.z_ g, s'.pc w = s.pc w := fun w hw => hsame.pc w ((h.mem w).mpr (Or.inr hw))
  have hzz : ∀ w, w ∈ s'.z_ g ↔ w ∈ s.z_ g := fun w => by rw [hsame.z]
  refine ⟨fun w => by rw [hsame.ptable, hsame.th, hsame.z, h.mem], fun w hw => ?_, fun w hw => ?_,
    by rw [hsame.th]; exact h.nodup, fun ht => ?_, fun ht => ?_⟩
  · rw [hsame.th] at hw
    rw [hth w hw]
    exact h.th w hw
  · rw [hzz] at hw
    rw [hz w hw]
    exact h.z w hw
  · rw [hsame.tgid, hsame.exiting] at ht
    have hrun := h.running ht
    refine ⟨by rw [hsame.nth, hsame.th, hrun.nth], by rw [hsame.th]; exact hrun.th, fun w hw => ?_,
      fun w hw => ?_⟩
    · rw [hsame.th] at hw
      rw [hth w hw]
      exact hrun.on w hw
    · rw [hzz] at hw
      rw [hz w hw]
      exact hrun.z w hw
  · rw [hsame.tgid, hsame.exiting] at ht
    rcases h.stage ht with ⟨w, hone, hpc, hnth, hgone, hexit⟩ | ⟨w, hone, hw, hpc, hnth, hgone, hexit⟩ |
      ⟨hone, hnth, hgone, hexit⟩
    · have hw : w ∈ s.th_ g := by
        rw [hone]
        exact List.mem_singleton_self w
      refine .cleaning w (hsame.th.trans hone) ((hth w hw).trans hpc) (hsame.nth.trans hnth)
        (fun v hv => ?_) fun status hin => ?_
      · rw [hzz] at hv
        rw [hz v hv, hgone v hv]
      · rw [hsame.tgid, hsame.exits] at hin
        exact hexit status hin
    · refine .leaving w (hsame.th.trans hone) ((hzz w).mpr hw) ((hz w hw).trans hpc)
        (hsame.nth.trans hnth) (fun v hv hvw => ?_) ?_
      · rw [hzz] at hv
        rw [hz v hv, hgone v hv hvw]
      · rw [hsame.tgid, hsame.retval, hsame.exits]
        exact hexit
    · refine .over (hsame.th.trans hone) (hsame.nth.trans hnth) (fun v hv => ?_) ?_
      · rw [hzz] at hv
        rw [hz v hv, hgone v hv]
      · rw [hsame.tgid, hsame.retval, hsame.exits]
        exact hexit

/-- A step that changes one group. -/
theorem Threads.local (h : Threads s) (g : G) (halive : ∀ p, p ≠ g → s'.alive p = s.alive p)
    (hsame : ∀ p, p ≠ g → s.alive p = true → Same s s' p)
    (hlive : ∀ w p, s'.ptable w = some p → p ≠ g → s.ptable w = some p)
    (hmem : ∀ w, s'.ptable w = some g → s'.alive g = true)
    (hfree : ∀ w, s'.ptable w = none → s'.pc w = .gone) (hok : s'.alive g = true → GroupOk s' g) :
    Threads s' := by
  refine ⟨fun p hp => ?_, fun w p hw => ?_, hfree⟩
  · by_cases hpg : p = g
    · subst hpg
      exact hok hp
    · rw [halive p hpg] at hp
      exact (h.ok p hp).same (hsame p hpg hp)
  · by_cases hpg : p = g
    · subst hpg
      exact hmem w hw
    · rw [halive p hpg]
      exact h.live w p (hlive w p hw hpg)

/-- A thread whose group has not exited, and that has not left it. -/
structure Works (s : State G W) (g : G) (w : W) : Prop where
  group : s.ptable w = some g
  alive : s.alive g = true
  th : w ∈ s.th_ g
  gone : s.pc w ≠ .gone
  running : s.tgid_ g ∉ s.exiting

/-- A thread at a place other than those of a leaving thread works. -/
theorem Threads.works (h : Threads s) (hw : s.ptable w = some g)
    (hp : s.pc w ≠ .gone ∧ s.pc w ≠ .left ∧ s.pc w ≠ .exiting) : Works s g w := by
  have hg := h.live w g hw
  have hok := h.ok g hg
  rcases (hok.mem w).mp hw with hth | hz
  · refine ⟨hw, hg, hth, hp.1, fun hin => ?_⟩
    rcases hok.stage hin with ⟨u, hu, hpc, -⟩ | ⟨u, hu, -⟩ | ⟨hu, -⟩
    · rw [hu, List.mem_singleton] at hth
      exact hp.2.2 (hth ▸ hpc)
    all_goals
      rw [hu] at hth
      cases hth
  · rcases hok.z w hz with hpc | hpc
    · exact absurd hpc hp.2.1
    · exact absurd hpc hp.1

/-- Threads of other groups are other threads. -/
theorem Works.ne (hw : Works s g w) {p : G} (hp : p ≠ g) (hv : s.ptable v = some p) : v ≠ w := by
  rintro rfl
  exact hp (Option.some.inj (hv.symm.trans hw.group))

/-- A thread that works moves on in a system call. -/
theorem Threads.moved (h : Threads s) (hw : Works s g w) {pc : Pc G}
    (hpc : pc ≠ .exiting ∧ pc ≠ .left ∧ pc ≠ .gone)
    (hcongr : s'.alive = s.alive ∧ s'.tgid_ = s.tgid_ ∧ s'.nth_ = s.nth_ ∧ s'.th_ = s.th_ ∧
      s'.z_ = s.z_ ∧ s'.retval_ = s.retval_ ∧ s'.ptable = s.ptable ∧ s'.exiting = s.exiting ∧
      s'.exits = s.exits) (hmove : s'.pc = Function.update s.pc w pc) : Threads s' := by
  obtain ⟨e₁, e₂, e₃, e₄, e₅, e₆, e₇, e₈, e₉⟩ := hcongr
  have hok := h.ok g hw.alive
  have hrun := hok.running hw.running
  refine h.local g (fun p _ => by rw [e₁]) (fun p hp _ => ⟨by rw [e₃], by rw [e₄], by rw [e₅], by rw [e₂],
    by rw [e₆], fun v => by rw [e₇], fun v hv => ?_, by rw [e₈], fun st => by rw [e₉]⟩)
    (fun v p hv _ => by rwa [e₇] at hv) (fun v hv => by rw [e₁]; exact hw.alive) (fun v hv => ?_)
    fun _ => ⟨by rw [e₄, e₅, e₇]; exact hok.mem, fun v hv => ?_, fun v hv => ?_, by rw [e₄]; exact hok.nodup,
      fun _ => ⟨by rw [e₃, e₄]; exact hrun.nth, by rw [e₄]; exact hrun.th, fun v hv => ?_, fun v hv => ?_⟩,
      fun hin => absurd hin (by rw [e₂, e₈]; exact hw.running)⟩
  · rw [hmove, Function.update_of_ne (hw.ne hp hv)]
  · rw [e₇] at hv
    have hvw : v ≠ w := by
      rintro rfl
      rw [hw.group] at hv
      cases hv
    rw [hmove, Function.update_of_ne hvw]
    exact h.free v hv
  · rw [e₄] at hv
    rw [hmove]
    by_cases hvw : v = w
    · rw [hvw, Function.update_self]
      exact hpc.2
    · rw [Function.update_of_ne hvw]
      exact hok.th v hv
  · rw [e₅] at hv
    have hgone := hrun.z v hv
    have hvw : v ≠ w := by
      rintro rfl
      exact hw.gone hgone
    rw [hmove, Function.update_of_ne hvw]
    exact Or.inr hgone
  · rw [e₄] at hv
    rw [hmove]
    by_cases hvw : v = w
    · rw [hvw, Function.update_self]
      exact hpc.1
    · rw [Function.update_of_ne hvw]
      exact hrun.on v hv
  · rw [e₅] at hv
    have hgone := hrun.z v hv
    have hvw : v ≠ w := by
      rintro rfl
      exact hw.gone hgone
    rw [hmove, Function.update_of_ne hvw]
    exact hgone

/-- A thread that is not in `ptable` differs from those that are. -/
theorem ne_of_ptable {p : G} (hv : s.ptable v = none) (hw : s.ptable w = some p) : w ≠ v := by
  rintro rfl
  rw [hv] at hw
  cases hw

theorem Threads.fork (h : Threads s) (hn : Names s) (hc : s.alive c = false)
    (hv : s.ptable v = none) : Threads (s.fork g c v) := by
  have hnew : s.cur_tgid + 1 ∉ s.exiting := fun hin => by
    have := hn.exiting _ hin
    omega
  have hno : ∀ w, s.ptable w ≠ some c := fun w hw => by
    have := h.live w c hw
    rw [hc] at this
    cases this
  refine h.local c (fun p hp => Function.update_of_ne hp _ _) (fun p hp _ => ?_) (fun w p hw hp => ?_)
    (fun w _ => Function.update_self ..) (fun w hw => ?_) fun _ => ?_
  · constructor
    case ptable =>
      intro w
      by_cases hwv : w = v
      · simp [State.fork, hwv, hv, Ne.symm hp]
      · simp [State.fork, hwv]
    case pc => exact fun w hw => Function.update_of_ne (ne_of_ptable hv hw) _ _
    case exiting => exact Iff.rfl
    case exits => exact fun _ => Iff.rfl
    all_goals first | rfl | exact Function.update_of_ne hp _ _
  · have hwv : w ≠ v := by
      rintro rfl
      exact hp (Option.some.inj (hw.symm.trans (Function.update_self ..)))
    exact (Function.update_of_ne hwv _ _).symm.trans hw
  · have hwv : w ≠ v := by
      rintro rfl
      exact absurd ((Function.update_self ..).symm.trans hw) (by simp)
    exact (Function.update_of_ne hwv _ _).trans (h.free w ((Function.update_of_ne hwv _ _).symm.trans hw))
  · refine ⟨fun w => ?_, fun w hw => ?_, fun w hw => ?_, ?_, fun _ => ⟨?_, ?_, fun w hw => ?_,
      fun w hw => ?_⟩, fun hin => ?_⟩
    · by_cases hwv : w = v
      · simp [State.fork, hwv]
      · simp [State.fork, hwv, hno w]
    · obtain rfl : w = v := by simpa [State.fork] using hw
      simp [State.fork]
    · simp [State.fork] at hw
    · simp [State.fork]
    · simp [State.fork]
    · simp [State.fork]
    · obtain rfl : w = v := by simpa [State.fork] using hw
      simp [State.fork]
    · simp [State.fork] at hw
    · exact absurd hin (by simpa [State.fork] using hnew)

theorem Threads.addThread (h : Threads s) (hw : Works s g w) (hv : s.ptable v = none) :
    Threads (s.addThread g v) := by
  have hok := h.ok g hw.alive
  have hrun := hok.running hw.running
  have hne : ∀ u, u ∈ s.th_ g ∨ u ∈ s.z_ g → u ≠ v := fun u hu => ne_of_ptable hv ((hok.mem u).mpr hu)
  refine h.local g (fun p hp => rfl) (fun p hp _ => ?_) (fun u p hu hp => ?_)
    (fun u _ => hw.alive) (fun u hu => ?_) fun _ => ?_
  · constructor
    case ptable =>
      intro u
      by_cases huv : u = v
      · simp [State.addThread, huv, hv, Ne.symm hp]
      · simp [State.addThread, huv]
    case pc => exact fun u hu => Function.update_of_ne (ne_of_ptable hv hu) _ _
    case exiting => exact Iff.rfl
    case exits => exact fun _ => Iff.rfl
    all_goals first | rfl | exact Function.update_of_ne hp _ _
  · have huv : u ≠ v := by
      rintro rfl
      exact hp (Option.some.inj (hu.symm.trans (Function.update_self ..)))
    exact (Function.update_of_ne huv _ _).symm.trans hu
  · have huv : u ≠ v := by
      rintro rfl
      exact absurd ((Function.update_self ..).symm.trans hu) (by simp)
    exact (Function.update_of_ne huv _ _).trans (h.free u ((Function.update_of_ne huv _ _).symm.trans hu))
  · refine ⟨fun u => ?_, fun u hu => ?_, fun u hu => ?_, ?_, fun _ => ⟨?_, ?_, fun u hu => ?_,
      fun u hu => ?_⟩, fun hin => absurd hin hw.running⟩
    · by_cases huv : u = v
      · simp [State.addThread, huv]
      · simpa [State.addThread, huv] using hok.mem u
    · rcases (show u ∈ s.th_ g ∨ u = v by simpa [State.addThread] using hu) with hu | hu
      · simpa [State.addThread, hne u (Or.inl hu)] using hok.th u hu
      · simp [State.addThread, hu]
    · have hu : u ∈ s.z_ g := hu
      simpa [State.addThread, hne u (Or.inr hu)] using hok.z u hu
    · simpa [State.addThread, List.nodup_append] using
        ⟨hok.nodup, fun u hu huv => hne u (Or.inl hu) huv⟩
    · simp [State.addThread, hrun.nth]
    · simp [State.addThread]
    · rcases (show u ∈ s.th_ g ∨ u = v by simpa [State.addThread] using hu) with hu | hu
      · simpa [State.addThread, hne u (Or.inl hu)] using hrun.on u hu
      · simp [State.addThread, hu]
    · have hu : u ∈ s.z_ g := hu
      simpa [State.addThread, hne u (Or.inr hu)] using hrun.z u hu

/-- What leaving means for the lists: `w` moves from `th_` to `z_`. -/
theorem GroupOk.mem_moved (h : GroupOk s g) (hw : w ∈ s.th_ g) (u : W) :
    s.ptable u = some g ↔ u ∈ (s.th_ g).erase w ∨ u ∈ s.z_ g ++ [w] := by
  rw [h.mem, h.nodup.mem_erase_iff, List.mem_append, List.mem_singleton]
  by_cases huw : u = w
  · simp [huw, hw]
  · simp [huw]

theorem Threads.leave (h : Threads s) (hw : Works s g w) (hnth : 2 ≤ s.nth_ g) :
    Threads (s.leave g w) := by
  have hok := h.ok g hw.alive
  have hrun := hok.running hw.running
  have hmem : ∀ u, u ∈ (s.th_ g).erase w ↔ u ≠ w ∧ u ∈ s.th_ g := fun u => hok.nodup.mem_erase_iff
  have hlen : ((s.th_ g).erase w).length = s.nth_ g - 1 := by
    rw [List.length_erase_of_mem hw.th, hrun.nth]
  have hzne : ∀ u ∈ s.z_ g, u ≠ w := by
    rintro u hu rfl
    exact hw.gone (hrun.z u hu)
  refine h.local g (fun p hp => rfl) (fun p hp _ => ?_) (fun u p hu _ => hu)
    (fun u _ => hw.alive) (fun u hu => ?_) fun _ => ?_
  · constructor
    case ptable => exact fun _ => Iff.rfl
    case pc => exact fun u hu => Function.update_of_ne (hw.ne hp hu) _ _
    case exiting => exact Iff.rfl
    case exits => exact fun _ => Iff.rfl
    all_goals first | rfl | exact Function.update_of_ne hp _ _
  · by_cases huw : u = w
    · simp [State.leave, huw]
    · simpa [State.leave, huw] using h.free u hu
  · refine ⟨fun u => ?_, fun u hu => ?_, fun u hu => ?_, ?_, fun _ => ⟨?_, ?_, fun u hu => ?_,
      fun u hu => ?_⟩, fun hin => absurd hin hw.running⟩
    · simpa [State.leave] using hok.mem_moved hw.th u
    · have hu := (hmem u).mp (by simpa [State.leave] using hu)
      simpa [State.leave, hu.1] using hok.th u hu.2
    · rcases (show u ∈ s.z_ g ∨ u = w by simpa [State.leave] using hu) with hu | hu
      · simpa [State.leave, hzne u hu] using hok.z u hu
      · simp [State.leave, hu]
    · simpa [State.leave] using hok.nodup.erase w
    · simp [State.leave, hlen]
    · intro hnil
      have hnil : (s.th_ g).erase w = [] := by simpa [State.leave] using hnil
      rw [hnil, List.length_nil] at hlen
      omega
    · have hu := (hmem u).mp (by simpa [State.leave] using hu)
      simpa [State.leave, hu.1] using hrun.on u hu.2
    · rcases (show u ∈ s.z_ g ∨ u = w by simpa [State.leave] using hu) with hu | hu
      · simpa [State.leave, hzne u hu] using hrun.z u hu
      · simp [State.leave, hu]

theorem Threads.exit (h : Threads s) (hn : Names s) (hw : Works s g w) (hnth : s.nth_ g = 1)
    (hg : g ≠ init) : Threads (s.exit init g w) := by
  have hok := h.ok g hw.alive
  have hrun := hok.running hw.running
  have hth : s.th_ g = [w] := by
    obtain ⟨u, hu⟩ := List.length_eq_one_iff.mp (hrun.nth.symm.trans hnth)
    have hwu := hw.th
    rw [hu, List.mem_singleton] at hwu
    rw [hu, hwu]
  have hzne : ∀ u ∈ s.z_ g, u ≠ w := by
    rintro u hu rfl
    exact hw.gone (hrun.z u hu)
  rw [exit_eq hg]
  refine h.local g (fun p hp => rfl) (fun p hp hpa => ?_) (fun u p hu _ => hu)
    (fun u _ => hw.alive) (fun u hu => ?_) fun _ => ?_
  · refine ⟨rfl, rfl, rfl, rfl, rfl, fun _ => Iff.rfl,
      fun u hu => Function.update_of_ne (hw.ne hp hu) _ _, ?_, fun _ => Iff.rfl⟩
    have hne : s.tgid_ p ≠ s.tgid_ g := fun he => hp (hn.unique p g hpa hw.alive he)
    simp [hne]
  · exact (Function.update_of_ne (ne_of_ptable hu hw.group).symm _ _).trans (h.free u hu)
  · refine ⟨hok.mem, fun u hu => ?_, fun u hu => ?_, hok.nodup,
      fun hno => absurd List.mem_cons_self hno, fun _ => .cleaning w hth (Function.update_self ..) hnth
        (fun u hu => ?_) fun status hin => hw.running (hn.exits _ hin)⟩
    · rw [hth, List.mem_singleton] at hu
      simp [hu]
    · simpa [hzne u hu] using hok.z u hu
    · simpa [hzne u hu] using hrun.z u hu

/-- A thread in `exit` is the only one left of its group. -/
theorem GroupOk.cleaning (h : GroupOk s g) (hw : s.ptable w = some g) (hpc : s.pc w = .exiting) :
    s.th_ g = [w] ∧ s.nth_ g = 1 ∧ s.tgid_ g ∈ s.exiting ∧ (∀ v ∈ s.z_ g, s.pc v = .gone) ∧
      ∀ status, (s.tgid_ g, status) ∉ s.exits := by
  have hth : w ∈ s.th_ g := by
    refine ((h.mem w).mp hw).resolve_right fun hz => ?_
    rcases h.z w hz with hp | hp
    · exact absurd (hpc.symm.trans hp) (by simp)
    · exact absurd (hpc.symm.trans hp) (by simp)
  have hin : s.tgid_ g ∈ s.exiting := by
    by_contra hno
    exact (h.running hno).on w hth hpc
  rcases h.stage hin with ⟨u, hu, -, hnth, hz, hexit⟩ | ⟨u, hu, -⟩ | ⟨hu, -⟩
  · have hwu := hth
    rw [hu, List.mem_singleton] at hwu
    exact ⟨by rw [hu, hwu], hnth, hin, hz, hexit⟩
  all_goals
    rw [hu] at hth
    cases hth

theorem Threads.exit_status (h : Threads s) (hn : Names s) (hw : s.ptable w = some g)
    (hpc : s.pc w = .exiting) (status : ℕ) : Threads (s.exit_status g w status) := by
  have hg := h.live w g hw
  have hok := h.ok g hg
  obtain ⟨hth, hnth, hin, hz, -⟩ := hok.cleaning hw hpc
  have hzne : ∀ u ∈ s.z_ g, u ≠ w := by
    rintro u hu rfl
    exact absurd (hpc.symm.trans (hz u hu)) (by simp)
  refine h.local g (fun p hp => rfl) (fun p hp hpa => ?_) (fun u p hu _ => hu)
    (fun u _ => hg) (fun u hu => ?_) fun _ => ?_
  · constructor
    case ptable => exact fun _ => Iff.rfl
    case pc =>
      intro u hu
      refine Function.update_of_ne ?_ _ _
      rintro rfl
      exact hp (Option.some.inj (hu.symm.trans hw))
    case exiting => exact Iff.rfl
    case exits =>
      intro st
      have hne : s.tgid_ p ≠ s.tgid_ g := fun he => hp (hn.unique p g hpa hg he)
      simp [State.exit_status, hne]
    all_goals first | rfl | exact Function.update_of_ne hp _ _
  · exact (Function.update_of_ne (ne_of_ptable hu hw).symm _ _).trans (h.free u hu)
  · have hnil : (s.exit_status g w status).th_ g = [] := by simp [State.exit_status, hth]
    have hzmem : ∀ u, u ∈ (s.exit_status g w status).z_ g ↔ u ∈ s.z_ g ∨ u = w := fun u => by
      simp [State.exit_status]
    have hpcw : (s.exit_status g w status).pc w = .left := Function.update_self ..
    have hpcz : ∀ u ∈ s.z_ g, (s.exit_status g w status).pc u = .gone := fun u hu =>
      (Function.update_of_ne (hzne u hu) _ _).trans (hz u hu)
    refine ⟨fun u => ?_, fun u hu => ?_, fun u hu => ?_, ?_, fun hno => absurd hin hno,
      fun _ => .leaving w hnil ((hzmem w).mpr (Or.inr rfl)) hpcw hnth (fun u hu hne => ?_) ?_⟩
    · simpa [State.exit_status] using hok.mem_moved (by rw [hth]; simp) u
    · rw [hnil] at hu
      cases hu
    · rcases (hzmem u).mp hu with hu | rfl
      · exact Or.inr (hpcz u hu)
      · exact Or.inl hpcw
    · rw [hnil]
      exact List.nodup_nil
    · exact hpcz u (((hzmem u).mp hu).resolve_right hne)
    · simp [State.exit_status]

theorem Threads.schedule (h : Threads s) (hw : s.ptable w = some g) (hpc : s.pc w = .left) :
    Threads (s.schedule g w) := by
  have hg := h.live w g hw
  have hok := h.ok g hg
  have hz : w ∈ s.z_ g := ((hok.mem w).mp hw).resolve_left fun hth => (hok.th w hth).1 hpc
  have hin : s.tgid_ g ∈ s.exiting := by
    by_contra hno
    exact absurd (hpc.symm.trans ((hok.running hno).z w hz)) (by simp)
  have hgone : ∀ u ∈ s.z_ g, s.pc u = .gone → u ≠ w := by
    rintro u - hp rfl
    exact absurd (hpc.symm.trans hp) (by simp)
  refine h.local g (fun p hp => rfl) (fun p hp _ => ?_) (fun u p hu _ => hu)
    (fun u _ => hg) (fun u hu => ?_) fun _ => ?_
  · constructor
    case ptable => exact fun _ => Iff.rfl
    case pc =>
      intro u hu
      refine Function.update_of_ne ?_ _ _
      rintro rfl
      exact hp (Option.some.inj (hu.symm.trans hw))
    case exiting => exact Iff.rfl
    case exits => exact fun _ => Iff.rfl
    all_goals first | rfl | exact Function.update_of_ne hp _ _
  · exact (Function.update_of_ne (ne_of_ptable hu hw).symm _ _).trans (h.free u hu)
  · rcases hok.stage hin with ⟨u, -, -, -, hzg, -⟩ | ⟨u, hth, -, -, hnth, hzg, hexit⟩ | ⟨-, -, hzg, -⟩
    · exact absurd rfl (hgone w hz (hzg w hz))
    · have hpcz : ∀ v ∈ s.z_ g, (s.schedule g w).pc v = .gone := fun v hv => by
        by_cases hvw : v = w
        · simp [State.schedule, hvw]
        · have hwu : w = u := by
            by_contra hne
            exact hgone w hz (hzg w hz hne) rfl
          exact (Function.update_of_ne hvw _ _).trans (hzg v hv (hwu ▸ hvw))
      refine ⟨hok.mem, fun v hv => ?_, fun v hv => Or.inr (hpcz v hv), hok.nodup,
        fun hno => absurd hin hno, fun _ => .over hth ?_ hpcz hexit⟩
      · have hv : v ∈ s.th_ g := hv
        rw [hth] at hv
        cases hv
      · simp [State.schedule, hnth]
    · exact absurd rfl (hgone w hz (hzg w hz))

/-- A group whose `nth_` is 0 has exited. -/
theorem GroupOk.exited (h : GroupOk s g) (hnth : s.nth_ g = 0) : s.tgid_ g ∈ s.exiting ∧
    s.th_ g = [] ∧ (s.tgid_ g, s.retval_ g) ∈ s.exits := by
  have hin : s.tgid_ g ∈ s.exiting := by
    by_contra hno
    have hrun := h.running hno
    exact hrun.th (List.length_eq_zero_iff.mp (hrun.nth.symm.trans hnth))
  rcases h.stage hin with ⟨u, -, -, hone, -⟩ | ⟨u, -, -, -, hone, -⟩ | ⟨hth, -, -, hexit⟩
  · omega
  · omega
  · exact ⟨hin, hth, hexit⟩

theorem Threads.release_child (h : Threads s) (hc : s.alive c = true) (hnth : s.nth_ c = 0) :
    Threads (s.release_child g c) := by
  have hok := h.ok c hc
  have hth := (hok.exited hnth).2.1
  have hz : ∀ u, u ∈ s.z_ c ↔ s.ptable u = some c := fun u => by
    rw [hok.mem, hth]
    simp
  have hptable : ∀ u p, (s.release_child g c).ptable u = some p ↔ p ≠ c ∧ s.ptable u = some p := by
    intro u p
    show (if u ∈ s.z_ c then none else s.ptable u) = some p ↔ _
    by_cases hu : u ∈ s.z_ c
    · rw [if_pos hu]
      refine ⟨(fun hno => nomatch hno), fun hp => absurd ?_ hp.1⟩
      exact (Option.some.inj (((hz u).mp hu).symm.trans hp.2)).symm
    · rw [if_neg hu]
      refine ⟨fun hp => ⟨?_, hp⟩, And.right⟩
      rintro rfl
      exact hu ((hz u).mpr hp)
  refine h.local c (fun p hp => Function.update_of_ne hp _ _) (fun p hp _ => ?_)
    (fun u p hu _ => ((hptable u p).mp hu).2) (fun u hu => absurd rfl ((hptable u c).mp hu).1)
    (fun u hu => ?_) fun hdead => ?_
  · constructor
    case ptable => exact fun u => (hptable u p).trans ⟨And.right, fun hu => ⟨hp, hu⟩⟩
    case pc => exact fun _ _ => rfl
    case exiting => exact Iff.rfl
    case exits => exact fun _ => Iff.rfl
    all_goals first | rfl | exact Function.update_of_ne hp _ _
  · have hu : (if u ∈ s.z_ c then none else s.ptable u) = none := hu
    by_cases huz : u ∈ s.z_ c
    · rcases hok.z u huz with hp | hp
      · -- nobody of an exited group is in transition
        rcases hok.stage (hok.exited hnth).1 with ⟨v, hone, -⟩ | ⟨v, -, -, -, hone, -⟩ | ⟨-, -, hgone, -⟩
        · rw [hth] at hone
          cases hone
        · omega
        · exact hgone u huz
      · exact hp
    · rw [if_neg huz] at hu
      exact h.free u hu
  · exact absurd ((Function.update_self ..).symm.trans hdead) (by simp)

end Chickadee.Thgrp.Wait
