import Chickadee.Thgrp.Waitpid

/-!
# The hierarchy of groups and its names

`Tree` is about the children lists, `Names` about the `tgid_`s and the logs. Only `fork`, the section of
`exit`, the end of `exit` and the release of a child touch them.
-/

namespace Chickadee.Thgrp.Wait

set_option linter.unusedSectionVars false

variable {G W : Type} [DecidableEq G] [DecidableEq W] {init g c : G} {w v : W}
  {s s' : State G W}

/-- The children lists. -/
structure Tree (init : G) (s : State G W) : Prop where
  root : s.alive init = true ∧ s.tgid_ init ∉ s.exiting
  parent : ∀ c, s.alive c = true → c ≠ init →
    s.alive (s.pthgrp_ c) = true ∧ c ∈ s.children_ (s.pthgrp_ c)
  listed : ∀ p c, s.alive p = true → c ∈ s.children_ p →
    s.alive c = true ∧ s.pthgrp_ c = p ∧ c ≠ init
  nodup : ∀ p, s.alive p = true → (s.children_ p).Nodup
  nchildren : ∀ p, s.alive p = true → s.tgid_ p ∉ s.exiting →
    s.nchildren_ p = (s.children_ p).length
  given : ∀ p, s.alive p = true → s.tgid_ p ∈ s.exiting → s.children_ p = []
  forked : ∀ c, s.alive c = true → c ≠ init →
    s.tgid_ (s.pthgrp_ c) = s.forker c ∨ s.pthgrp_ c = init ∧ s.forker c ∈ s.exiting

/-- The `tgid_`s, and what the logs say of them. -/
structure Names (s : State G W) : Prop where
  le : ∀ c, s.alive c = true → s.tgid_ c ≤ s.cur_tgid
  unique : ∀ c d, s.alive c = true → s.alive d = true → s.tgid_ c = s.tgid_ d → c = d
  exiting : ∀ t ∈ s.exiting, t ≤ s.cur_tgid
  exits : ∀ e ∈ s.exits, e.1 ∈ s.exiting
  status : (s.exits.map Prod.fst).Nodup
  once : (s.reports.map Report.tgid).Nodup
  reported : ∀ r ∈ s.reports, ∃ status, (r.tgid, status) ∈ s.exits ∧
    r.retpid = (status * 2 ^ 32 + r.tgid) % 2 ^ 64
  released : ∀ e ∈ s.exits, e.1 ∈ s.reports.map Report.tgid ↔ ∀ c, s.alive c = true → s.tgid_ c ≠ e.1

/-! ## The section of `exit` -/

theorem foldl_adopt (l : List G) (s : State G W) :
    l.foldl (State.adopt init) s = { s with
      pthgrp_ := fun c => if c ∈ l then init else s.pthgrp_ c
      children_ := Function.update s.children_ init (s.children_ init ++ l)
      nchildren_ := Function.update s.nchildren_ init (s.nchildren_ init + l.length) } := by
  induction l generalizing s with
  | nil => simp
  | cons c l ih =>
    rw [List.foldl_cons, ih]
    simp only [State.adopt, Function.update_self, Function.update_idem, List.append_assoc,
      List.singleton_append, State.mk.injEq, true_and, and_true]
    refine ⟨?_, ?_⟩
    · funext d
      by_cases hd : d = c <;> simp [hd]
    · rw [List.length_cons]
      congr 1
      omega

/-- What the section leaves: init has the children of `g`. -/
theorem exit_eq (hg : g ≠ init) : s.exit init g w = { s with
    pthgrp_ := fun c => if c ∈ s.children_ g then init else s.pthgrp_ c
    children_ := Function.update (Function.update s.children_ g []) init
      (s.children_ init ++ s.children_ g)
    nchildren_ := Function.update s.nchildren_ init (s.nchildren_ init + (s.children_ g).length)
    pc := Function.update s.pc w .exiting
    exiting := s.tgid_ g :: s.exiting } := by
  unfold State.exit
  simp only [foldl_adopt]
  rw [Function.update_of_ne (Ne.symm hg)]

/-! ## The children lists -/

theorem Tree.fork (h : Tree init s) (hn : Names s) (hg : s.alive g = true)
    (hlive : s.tgid_ g ∉ s.exiting) (hc : s.alive c = false) : Tree init (s.fork g c v) := by
  have hnew : s.cur_tgid + 1 ∉ s.exiting := fun hin => by
    have := hn.exiting _ hin
    omega
  have hne : ∀ d, s.alive d = true → d ≠ c := by
    rintro d hd rfl
    rw [hc] at hd
    cases hd
  have hgc := hne g hg
  refine ⟨?_, fun d hd hi => ?_, fun p d hp hd => ?_, fun p hp => ?_, fun p hp ht => ?_,
    fun p hp ht => ?_, fun d hd hi => ?_⟩
  · simpa [State.fork, hne init h.root.1] using h.root
  · by_cases hdc : d = c
    · subst hdc
      simp [State.fork, hgc, hg]
    · have hd : s.alive d = true := by simpa [State.fork, hdc] using hd
      obtain ⟨hp, hmem⟩ := h.parent d hd hi
      by_cases hpg : s.pthgrp_ d = g
      · rw [hpg] at hmem
        simp [State.fork, hdc, hpg, hgc, hg, hmem]
      · simpa [State.fork, hdc, hpg, hne _ hp, hp] using hmem
  · by_cases hpg : p = g
    · subst hpg
      by_cases hdc : d = c
      · subst hdc
        exact ⟨by simp [State.fork], by simp [State.fork], fun hi => hne init h.root.1 hi.symm⟩
      · have hd : d ∈ s.children_ p := by simpa [State.fork, hdc] using hd
        simpa [State.fork, hdc] using h.listed p d hg hd
    · by_cases hpc : p = c
      · subst hpc
        simp [State.fork, hpg] at hd
      · have hp : s.alive p = true := by simpa [State.fork, hpc] using hp
        have hd : d ∈ s.children_ p := by simpa [State.fork, hpg, hpc] using hd
        have hl := h.listed p d hp hd
        simpa [State.fork, hne d hl.1] using hl
  · by_cases hpg : p = g
    · subst hpg
      have hnot : c ∉ s.children_ p := fun hin => by
        have := (h.listed p c hg hin).1
        rw [hc] at this
        cases this
      simpa [State.fork, List.nodup_append] using
        ⟨h.nodup p hg, fun d hd hdc => hnot (hdc ▸ hd)⟩
    · by_cases hpc : p = c
      · subst hpc
        simp [State.fork, hpg]
      · have hp : s.alive p = true := by simpa [State.fork, hpc] using hp
        simpa [State.fork, hpg, hpc] using h.nodup p hp
  · by_cases hpg : p = g
    · subst hpg
      simpa [State.fork] using h.nchildren p hg hlive
    · by_cases hpc : p = c
      · subst hpc
        simp [State.fork, hpg]
      · have hp : s.alive p = true := by simpa [State.fork, hpc] using hp
        have ht : s.tgid_ p ∉ s.exiting := by simpa [State.fork, hpc] using ht
        simpa [State.fork, hpg, hpc] using h.nchildren p hp ht
  · by_cases hpc : p = c
    · subst hpc
      simp [State.fork, hnew] at ht
    · have hp : s.alive p = true := by simpa [State.fork, hpc] using hp
      have ht : s.tgid_ p ∈ s.exiting := by simpa [State.fork, hpc] using ht
      have hpg : p ≠ g := fun he => hlive (he ▸ ht)
      simpa [State.fork, hpg, hpc] using h.given p hp ht
  · by_cases hdc : d = c
    · subst hdc
      simp [State.fork, hgc]
    · have hd : s.alive d = true := by simpa [State.fork, hdc] using hd
      simpa [State.fork, hdc, hne _ (h.parent d hd hi).1] using h.forked d hd hi

theorem Tree.exit (h : Tree init s) (hn : Names s) (hg : s.alive g = true) (hne : g ≠ init)
    (hlive : s.tgid_ g ∉ s.exiting) : Tree init (s.exit init g w) := by
  have hother : ∀ p, s.alive p = true → p ≠ g → s.tgid_ p ≠ s.tgid_ g := fun p hp hpg ht =>
    hpg (hn.unique p g hp hg ht)
  have hroot := h.root.1
  rw [exit_eq hne]
  refine ⟨⟨hroot, ?_⟩, fun d hd hi => ?_, fun p d hp hd => ?_, fun p hp => ?_, fun p hp ht => ?_,
    fun p hp ht => ?_, fun d hd hi => ?_⟩
  · simpa [hother init hroot (Ne.symm hne)] using h.root.2
  · obtain ⟨hp, hmem⟩ := h.parent d hd hi
    by_cases hdg : d ∈ s.children_ g
    · simpa [hdg] using hroot
    · have hpg : s.pthgrp_ d ≠ g := fun he => hdg (he ▸ hmem)
      by_cases hpi : s.pthgrp_ d = init
      · rw [hpi] at hmem
        simpa [hdg, hpi, hmem] using hroot
      · simpa [hdg, hpg, hpi, hp] using hmem
  · by_cases hpi : p = init
    · subst hpi
      rcases List.mem_append.mp (by simpa using hd) with hd | hd
      · have hl := h.listed p d hp hd
        exact ⟨hl.1, by simp [hl.2.1], hl.2.2⟩
      · have hl := h.listed g d hg hd
        exact ⟨hl.1, by simp [hd], hl.2.2⟩
    · by_cases hpg : p = g
      · subst hpg
        simp [hpi] at hd
      · have hd : d ∈ s.children_ p := by simpa [hpi, hpg] using hd
        have hl := h.listed p d hp hd
        have hdg : d ∉ s.children_ g := fun hin => hpg (hl.2.1.symm.trans (h.listed g d hg hin).2.1)
        simpa [hdg] using hl
  · by_cases hpi : p = init
    · subst hpi
      simp only [Function.update_self]
      refine List.nodup_append.mpr ⟨h.nodup p hp, h.nodup g hg, fun d hd e he hde => ?_⟩
      exact hne ((h.listed g e hg he).2.1.symm.trans (hde ▸ (h.listed p d hp hd).2.1))
    · by_cases hpg : p = g
      · subst hpg
        simp [hpi]
      · simpa [hpi, hpg] using h.nodup p hp
  · simp only [List.mem_cons, not_or] at ht
    by_cases hpi : p = init
    · subst hpi
      simpa using h.nchildren p hp ht.2
    · have hpg : p ≠ g := fun he => ht.1 (he ▸ rfl)
      simpa [hpi, hpg] using h.nchildren p hp ht.2
  · by_cases hpg : p = g
    · subst hpg
      simp [hne]
    · have ht : s.tgid_ p ∈ s.exiting := by simpa [hother p hp hpg] using ht
      have hpi : p ≠ init := fun he => h.root.2 (he ▸ ht)
      simpa [hpg, hpi] using h.given p hp ht
  · by_cases hdg : d ∈ s.children_ g
    · have hf := h.forked d hd hi
      rw [(h.listed g d hg hdg).2.1] at hf
      rcases hf with hf | hf
      · simp [hdg, hf]
      · exact absurd hf.1 hne
    · rcases h.forked d hd hi with hf | hf
      · simp [hdg, hf]
      · simp [hf]

theorem Tree.release (h : Tree init s) (hg : s.alive g = true)
    (hlive : s.tgid_ g ∉ s.exiting) (hc : c ∈ s.children_ g) (hempty : s.children_ c = []) (r : ℕ) :
    Tree init (s.release g w c r) := by
  have hcl := h.listed g c hg hc
  have hgc : g ≠ c := by
    rintro rfl
    rw [hempty] at hc
    cases hc
  have herase : ∀ d, d ∈ (s.children_ g).erase c ↔ d ≠ c ∧ d ∈ s.children_ g := fun d =>
    (h.nodup g hg).mem_erase_iff
  have halive : ∀ d, (s.release g w c r).alive d = true ↔ d ≠ c ∧ s.alive d = true := by
    intro d
    by_cases hdc : d = c <;> simp [State.release, State.release_child, State.return, hdc]
  have hchildren : (s.release g w c r).children_ =
      Function.update s.children_ g ((s.children_ g).erase c) := rfl
  refine ⟨⟨(halive init).mpr ⟨Ne.symm hcl.2.2, h.root.1⟩, h.root.2⟩, fun d hd hi => ?_,
    fun p d hp hd => ?_, fun p hp => ?_, fun p hp ht => ?_, fun p hp ht => ?_, fun d hd hi => ?_⟩
  · rw [halive] at hd
    obtain ⟨hp, hmem⟩ := h.parent d hd.2 hi
    have hpc : s.pthgrp_ d ≠ c := fun he => by
      rw [he, hempty] at hmem
      cases hmem
    refine ⟨(halive _).mpr ⟨hpc, hp⟩, ?_⟩
    rw [hchildren]
    show d ∈ Function.update s.children_ g ((s.children_ g).erase c) (s.pthgrp_ d)
    by_cases hpg : s.pthgrp_ d = g
    · rw [hpg, Function.update_self, herase]
      exact ⟨hd.1, hpg ▸ hmem⟩
    · rwa [Function.update_of_ne hpg]
  · rw [halive] at hp
    rw [hchildren] at hd
    by_cases hpg : p = g
    · subst hpg
      rw [Function.update_self, herase] at hd
      have hl := h.listed p d hg hd.2
      exact ⟨(halive d).mpr ⟨hd.1, hl.1⟩, hl.2⟩
    · rw [Function.update_of_ne hpg] at hd
      have hl := h.listed p d hp.2 hd
      have hdc : d ≠ c := fun he => hpg (hl.2.1.symm.trans (he ▸ hcl.2.1))
      exact ⟨(halive d).mpr ⟨hdc, hl.1⟩, hl.2⟩
  · rw [halive] at hp
    rw [hchildren]
    by_cases hpg : p = g
    · rw [hpg, Function.update_self]
      exact (h.nodup g hg).erase c
    · rw [Function.update_of_ne hpg]
      exact h.nodup p hp.2
  · rw [halive] at hp
    rw [hchildren]
    show Function.update s.nchildren_ g (s.nchildren_ g - 1) p = _
    by_cases hpg : p = g
    · have hpos := List.length_pos_of_mem hc
      rw [hpg, Function.update_self, Function.update_self, List.length_erase_of_mem hc,
        h.nchildren g hg hlive]
      omega
    · rw [Function.update_of_ne hpg, Function.update_of_ne hpg]
      exact h.nchildren p hp.2 ht
  · rw [halive] at hp
    have hpg : p ≠ g := fun he => hlive (he ▸ ht)
    rw [hchildren, Function.update_of_ne hpg]
    exact h.given p hp.2 ht
  · rw [halive] at hd
    exact h.forked d hd.2 hi

/-- Only the hierarchy and the `tgid_`s matter. -/
theorem Tree.congr (h : Tree init s) (halive : s'.alive = s.alive) (htgid : s'.tgid_ = s.tgid_)
    (hparent : s'.pthgrp_ = s.pthgrp_) (hchildren : s'.children_ = s.children_)
    (hn : s'.nchildren_ = s.nchildren_) (hforker : s'.forker = s.forker)
    (hexiting : s'.exiting = s.exiting) : Tree init s' := by
  refine ⟨?_, ?_, ?_, ?_, ?_, ?_, ?_⟩
  all_goals rw [halive]
  · rw [htgid, hexiting]
    exact h.root
  · rw [hparent, hchildren]
    exact h.parent
  · rw [hchildren, hparent]
    exact h.listed
  · rw [hchildren]
    exact h.nodup
  · rw [htgid, hexiting, hn, hchildren]
    exact h.nchildren
  · rw [htgid, hexiting, hchildren]
    exact h.given
  · rw [htgid, hparent, hforker, hexiting]
    exact h.forked

/-! ## The names -/

theorem Names.fork (h : Names s) (hc : s.alive c = false) : Names (s.fork g c v) := by
  have hne : ∀ d, s.alive d = true → d ≠ c := by
    rintro d hd rfl
    rw [hc] at hd
    cases hd
  have hexits : ∀ e ∈ s.exits, e.1 ≤ s.cur_tgid := fun e he => h.exiting _ (h.exits e he)
  obtain ⟨h₁, h₂, h₃, h₄, h₅, h₆, h₇, h₈⟩ := h
  refine ⟨?_, ?_, ?_, h₄, h₅, h₆, h₇, ?_⟩
  all_goals simp only [State.fork, Function.update_apply]
  · grind
  · grind
  · grind
  · grind

theorem Names.forkFail (h : Names s) : Names { s with cur_tgid := s.cur_tgid + 1 } :=
  ⟨fun c hc => Nat.le_succ_of_le (h.le c hc), h.unique,
    fun t ht => Nat.le_succ_of_le (h.exiting t ht), h.exits, h.status, h.once, h.reported, h.released⟩

theorem Names.exit (h : Names s) (hg : s.alive g = true) (hne : g ≠ init) :
    Names (s.exit init g w) := by
  rw [exit_eq hne]
  refine ⟨h.le, h.unique, fun t ht => ?_, fun e he => List.mem_cons_of_mem _ (h.exits e he), h.status,
    h.once, h.reported, h.released⟩
  rcases List.mem_cons.mp ht with rfl | ht
  · exact h.le g hg
  · exact h.exiting t ht

theorem Names.exit_status (h : Names s) (hg : s.alive g = true) (hexit : s.tgid_ g ∈ s.exiting)
    (hnew : ∀ status, (s.tgid_ g, status) ∉ s.exits) (status : ℕ) :
    Names (s.exit_status g w status) := by
  refine ⟨h.le, h.unique, h.exiting, fun e he => ?_, ?_, h.once, fun r hr => ?_, fun e he => ?_⟩
  · rcases List.mem_cons.mp he with rfl | he
    · exact hexit
    · exact h.exits e he
  · refine List.nodup_cons.mpr ⟨fun hin => ?_, h.status⟩
    obtain ⟨e, he, hfst⟩ := List.mem_map.mp hin
    rw [show e = (s.tgid_ g, e.2) from Prod.ext hfst rfl] at he
    exact hnew e.2 he
  · obtain ⟨st, hst, hr⟩ := h.reported r hr
    exact ⟨st, List.mem_cons_of_mem _ hst, hr⟩
  · rcases List.mem_cons.mp he with rfl | he
    · -- a group that is still alive has not been reported
      refine ⟨fun hr => ?_, fun hno => absurd rfl (hno g hg)⟩
      obtain ⟨r, hr, htgid⟩ := List.mem_map.mp hr
      obtain ⟨st, hst, -⟩ := h.reported r hr
      rw [htgid] at hst
      exact absurd hst (hnew st)
    · exact h.released e he

theorem Names.release (h : Names s) (hc : s.alive c = true) (hexited : (s.tgid_ c, s.retval_ c) ∈ s.exits) :
    Names (s.release g w c (s.retpid c)) := by
  have halive : ∀ d, (s.release g w c (s.retpid c)).alive d = true ↔ d ≠ c ∧ s.alive d = true := by
    intro d
    by_cases hdc : d = c <;> simp [State.release, State.release_child, State.return, hdc]
  have hnot : s.tgid_ c ∉ s.reports.map Report.tgid := fun hin =>
    (h.released _ hexited).mp hin c hc rfl
  refine ⟨fun d hd => h.le d ((halive d).mp hd).2,
    fun d e hd he => h.unique d e ((halive d).mp hd).2 ((halive e).mp he).2, h.exiting, h.exits,
    h.status, List.nodup_cons.mpr ⟨hnot, h.once⟩, fun r hr => ?_, fun e he => ?_⟩
  · rcases List.mem_cons.mp hr with rfl | hr
    · exact ⟨s.retval_ c, hexited, rfl⟩
    · exact h.reported r hr
  · show e.1 ∈ s.tgid_ c :: s.reports.map Report.tgid ↔ _
    rw [List.mem_cons, h.released e he]
    constructor
    · rintro hor d hd htgid
      rw [halive] at hd
      rcases hor with heq | hno
      · exact hd.1 (h.unique d c hd.2 hc (htgid.trans heq))
      · exact hno d hd.2 htgid
    · intro hno
      by_cases heq : e.1 = s.tgid_ c
      · exact Or.inl heq
      · refine Or.inr fun d hd htgid => ?_
        by_cases hdc : d = c
        · exact heq (hdc ▸ htgid.symm)
        · exact hno d ((halive d).mpr ⟨hdc, hd⟩) htgid

theorem Names.congr (h : Names s) (halive : s'.alive = s.alive) (htgid : s'.tgid_ = s.tgid_)
    (hcur : s'.cur_tgid = s.cur_tgid) (hexiting : s'.exiting = s.exiting)
    (hexits : s'.exits = s.exits) (hreports : s'.reports = s.reports) : Names s' := by
  refine ⟨?_, ?_, ?_, ?_, ?_, ?_, ?_, ?_⟩
  · rw [halive, htgid, hcur]
    exact h.le
  · rw [halive, htgid]
    exact h.unique
  · rw [hexiting, hcur]
    exact h.exiting
  · rw [hexits, hexiting]
    exact h.exits
  · rw [hexits]
    exact h.status
  · rw [hreports]
    exact h.once
  · rw [hreports, hexits]
    exact h.reported
  · rw [hexits, hreports, halive, htgid]
    exact h.released

end Chickadee.Thgrp.Wait
