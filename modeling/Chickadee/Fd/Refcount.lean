import Chickadee.Fd.Table
import Chickadee.Lib.Run
import Mathlib.Algebra.Order.BigOperators.Group.Finset

/-!
# Reference counts of vnodes

`Counts` compares `refcount_` with the descriptors that point to a vnode. Each system call changes one
or two descriptors together with the counts (`store`, `drop`); `Places` says what the threads in the
middle of a call rely on.
-/

namespace Chickadee.Fd

open Lib

set_option linter.unusedSectionVars false

variable {V G T S : Type} [DecidableEq V] [DecidableEq G] [DecidableEq T] [DecidableEq S]
  {console v w : V} {g c : G} {t u : T} {fd : ℕ} {s s' : State V G T S}

/-! ## Counting descriptors -/

/-- One descriptor changes. -/
theorem slots_setSlot (s : State V G T S) (hg : g ∈ s.groups) (hfd : fd < MAX_FD) (o : Option V)
    (v : V) :
    (s.setSlot g fd o).slots v + (if s.fdtable_ g fd = some v then 1 else 0) =
      s.slots v + if o = some v then 1 else 0 := by
  refine sum_add_eq hg (fun p _ hp => ?_) ?_
  · simp [State.slotsOf, State.setSlot, hp]
  · have := card_filter_update (Finset.range MAX_FD) (s.fdtable_ g) o (· = some v)
      (Finset.mem_range.mpr hfd)
    simpa [State.slotsOf, State.setSlot] using this

/-- Only the tables of the groups matter. -/
theorem slots_congr (s s' : State V G T S) (hg : s'.groups = s.groups)
    (hfd : s'.fdtable_ = s.fdtable_) (v : V) :
    s'.slots v = s.slots v := by
  unfold State.slots State.slotsOf
  rw [hg, hfd]

/-- A descriptor that points to a vnode is counted. -/
theorem slots_pos (hg : g ∈ s.groups) (hfd : fd < MAX_FD) (hv : s.fdtable_ g fd = some v) :
    0 < s.slots v := by
  have hone : 0 < s.slotsOf g v :=
    Finset.card_pos.mpr ⟨fd, Finset.mem_filter.mpr ⟨Finset.mem_range.mpr hfd, hv⟩⟩
  exact lt_of_lt_of_le hone
    (Finset.single_le_sum (f := fun p => s.slotsOf p v) (fun _ _ => Nat.zero_le _) hg)

/-- A vnode that is counted has a descriptor that points to it. -/
theorem exists_of_slots_pos (h : 0 < s.slots v) :
    ∃ g ∈ s.groups, ∃ fd < MAX_FD, s.fdtable_ g fd = some v := by
  obtain ⟨g, hg, hne⟩ := Finset.exists_ne_zero_of_sum_ne_zero (Nat.pos_iff_ne_zero.mp h)
  obtain ⟨fd, hfd⟩ := Finset.card_ne_zero.mp hne
  rw [Finset.mem_filter, Finset.mem_range] at hfd
  exact ⟨g, hg, fd, hfd.1, hfd.2⟩

/-! ## The counts -/

/-- The counts of a set of vnodes and descriptors that belong together. -/
structure Counts (console : V) (s : State V G T S) : Prop where
  count : ∀ v, v ≠ console → s.alive v = true → s.refcount_ v = s.slots v
  alive : ∀ v, v ≠ console → (s.alive v = true ↔ 0 < s.slots v)
  console : s.alive console = true ∧ (s.slots console : ℤ) < s.refcount_ console

theorem Counts.congr (h : Counts console s) (ha : s'.alive = s.alive) (hr : s'.refcount_ = s.refcount_)
    (hg : s'.groups = s.groups) (hfd : s'.fdtable_ = s.fdtable_) : Counts console s' := by
  have hs := slots_congr s s' hg hfd
  refine ⟨?_, ?_, ?_⟩
  · simp only [ha, hr, hs]
    exact h.count
  · simp only [ha, hs]
    exact h.alive
  · simp only [ha, hr, hs]
    exact h.console

/-- What a descriptor points to is alive. -/
theorem Counts.points (h : Counts console s) (hg : g ∈ s.groups) (hfd : fd < MAX_FD)
    (hv : s.fdtable_ g fd = some v) : s.alive v = true := by
  by_cases hc : v = console
  · rw [hc]
    exact h.console.1
  · exact (h.alive v hc).mpr (slots_pos hg hfd hv)

/-- A free descriptor is made to point to a live vnode, which is counted. -/
theorem Counts.store (h : Counts console s) (hg : g ∈ s.groups) (hfd : fd < MAX_FD)
    (hfree : s.fdtable_ g fd = none) (hv : s.alive v = true) :
    Counts console ((s.setSlot g fd (some v)).incr v) := by
  have hslots : ∀ u, ((s.setSlot g fd (some v)).incr v).slots u =
      s.slots u + if v = u then 1 else 0 := fun u => by
    have := slots_setSlot s hg hfd (some v) u
    simp only [hfree, reduceCtorEq, if_false, Nat.add_zero, Option.some.injEq] at this
    exact this
  refine ⟨fun u hu ha => ?_, fun u hu => ?_, h.console.1, ?_⟩
  · rw [hslots]
    by_cases hvu : v = u
    · subst hvu
      have := h.count v hu hv
      simp [State.incr, State.setSlot, this]
    · simpa [State.incr, State.setSlot, hvu, Ne.symm hvu] using h.count u hu ha
  · rw [hslots]
    by_cases hvu : v = u
    · subst hvu
      simp [State.incr, State.setSlot, hv]
    · simpa [State.incr, State.setSlot, hvu] using h.alive u hu
  · rw [hslots]
    have := h.console.2
    by_cases hvc : v = console
    · subst hvc
      simp [State.incr]
      exact this
    · simpa [State.incr, State.setSlot, hvc, Ne.symm hvc] using this

/-- A free descriptor is made to point to a new vnode. -/
theorem Counts.storeNew (h : Counts console s) (hg : g ∈ s.groups) (hfd : fd < MAX_FD)
    (hfree : s.fdtable_ g fd = none) (hv : s.alive v = false) :
    Counts console ((s.create v).setSlot g fd (some v)) := by
  have hvc : v ≠ console := by
    rintro rfl
    rw [h.console.1] at hv
    cases hv
  have hzero : s.slots v = 0 := by
    have := (h.alive v hvc).not.mp (by simp [hv])
    omega
  have hslots : ∀ u, ((s.create v).setSlot g fd (some v)).slots u =
      s.slots u + if v = u then 1 else 0 := fun u => by
    have := slots_setSlot (s.create v) hg hfd (some v) u
    have hsame : (s.create v).slots u = s.slots u := rfl
    rw [show (s.create v).fdtable_ g fd = none from hfree, hsame] at this
    simpa using this
  refine ⟨fun u hu ha => ?_, fun u hu => ?_, ?_, ?_⟩
  · rw [hslots]
    by_cases hvu : v = u
    · subst hvu
      simp [State.create, State.setSlot, hzero]
    · have ha : s.alive u = true := by
        simpa [State.create, State.setSlot, Ne.symm hvu] using ha
      simpa [State.create, State.setSlot, hvu, Ne.symm hvu] using h.count u hu ha
  · rw [hslots]
    by_cases hvu : v = u
    · subst hvu
      simp [State.create, State.setSlot]
    · simpa [State.create, State.setSlot, hvu, Ne.symm hvu] using h.alive u hu
  · simpa [State.create, State.setSlot, Ne.symm hvc] using h.console.1
  · rw [hslots]
    simpa [State.create, State.setSlot, hvc, Ne.symm hvc] using h.console.2

/-- What `if (!v->close()) delete v` leaves. -/
structure Dropped (s s' : State V G T S) (v : V) : Prop where
  refcount : s'.refcount_ = Function.update s.refcount_ v (s.refcount_ v - 1)
  alive : s'.alive = if s.refcount_ v = 1 then Function.update s.alive v false else s.alive
  same : s'.fdtable_ = s.fdtable_ ∧ s'.groups = s.groups ∧ s'.threads = s.threads ∧
    s'.thgrp_ = s.thgrp_ ∧ s'.pc = s.pc ∧ s'.fd_ = s.fd_ ∧ s'.received_ = s.received_ ∧
    s'.active_ = s.active_

theorem exists_drop (hv : 0 < s.refcount_ v) : ∃ s', s.drop v = some s' ∧ Dropped s s' v := by
  unfold State.drop State.vclose
  rw [if_pos hv, Option.map_some]
  refine ⟨_, rfl, ?_⟩
  simp only [Function.update_self, sub_eq_zero]
  split
  · next hone => exact ⟨rfl, by rw [if_pos hone]; rfl, ⟨rfl, rfl, rfl, rfl, rfl, rfl, rfl, rfl⟩⟩
  · next hmore => exact ⟨rfl, by rw [if_neg hmore], ⟨rfl, rfl, rfl, rfl, rfl, rfl, rfl, rfl⟩⟩

/-- What a descriptor points to can be closed. -/
theorem Counts.refcount_pos (h : Counts console s) (hg : g ∈ s.groups) (hfd : fd < MAX_FD)
    (hv : s.fdtable_ g fd = some v) : 0 < s.refcount_ v := by
  have hpos := slots_pos hg hfd hv
  by_cases hc : v = console
  · have := h.console.2
    rw [hc]
    omega
  · rw [h.count v hc (h.points hg hfd hv)]
    omega

/-- A descriptor is closed: its vnode is uncounted, and deleted if it was the last one. -/
theorem Counts.dropped (h : Counts console s) (hg : g ∈ s.groups) (hfd : fd < MAX_FD)
    (hv : s.fdtable_ g fd = some v) (hd : Dropped s s' v) :
    Counts console (s'.setSlot g fd none) := by
  obtain ⟨hfdt, hgroups, -⟩ := hd.same
  have hva := h.points hg hfd hv
  have hslots : ∀ u, (s'.setSlot g fd none).slots u + (if v = u then 1 else 0) = s.slots u := by
    intro u
    have := slots_setSlot s hg hfd none u
    have hsame : (s'.setSlot g fd none).slots u = (s.setSlot g fd none).slots u :=
      slots_congr (s.setSlot g fd none) (s'.setSlot g fd none) hgroups
        (by simp [State.setSlot, hfdt]) u
    simpa [hsame, hv] using this
  have hother : ∀ u, u ≠ v → s'.alive u = s.alive u := fun u hu => by
    rw [hd.alive]
    split
    · exact Function.update_of_ne hu _ _
    · rfl
  have href : ∀ u, u ≠ v → s'.refcount_ u = s.refcount_ u := fun u hu => by
    rw [hd.refcount, Function.update_of_ne hu]
  have hself : s'.refcount_ v = s.refcount_ v - 1 := by
    rw [hd.refcount, Function.update_self]
  have hrest : ∀ u, u ≠ v → (s'.setSlot g fd none).slots u = s.slots u := fun u hu => by
    have := hslots u
    rw [if_neg (Ne.symm hu)] at this
    omega
  have hone := hslots v
  rw [if_pos rfl] at hone
  refine ⟨fun u hu ha => ?_, fun u hu => ?_, ?_, ?_⟩
  · by_cases huv : u = v
    · subst huv
      have hcount := h.count u hu hva
      show s'.refcount_ u = _
      omega
    · have ha : s.alive u = true := (hother u huv).symm.trans ha
      show s'.refcount_ u = _
      rw [href u huv, hrest u huv]
      exact h.count u hu ha
  · show s'.alive u = true ↔ _
    by_cases huv : u = v
    · subst huv
      have hcount := h.count u hu hva
      rw [hd.alive]
      by_cases hlast : s.refcount_ u = 1
      · rw [if_pos hlast, Function.update_self]
        simp only [Bool.false_eq_true, false_iff]
        omega
      · rw [if_neg hlast, hva]
        simp only [true_iff]
        omega
    · rw [hother u huv, hrest u huv]
      exact h.alive u hu
  · show s'.alive console = true
    by_cases hcv : console = v
    · have hlast : s.refcount_ v ≠ 1 := by
        have := h.console.2
        have hpos := slots_pos hg hfd hv
        rw [hcv] at this
        omega
      rw [hd.alive, if_neg hlast]
      exact h.console.1
    · rw [hother console hcv]
      exact h.console.1
  · have hc := h.console.2
    show _ < s'.refcount_ console
    by_cases hcv : console = v
    · rw [hcv] at hc ⊢
      omega
    · rw [href console hcv, hrest console hcv]
      exact hc

/-- The console gets more references than descriptors. -/
theorem Counts.construct (h : Counts console s) : Counts console (s.construct console) := by
  refine ⟨fun v hv ha => ?_, h.alive, h.console.1, ?_⟩
  · show Function.update s.refcount_ console _ v = s.slots v
    rw [Function.update_of_ne hv]
    exact h.count v hv ha
  · have := h.console.2
    show (s.slots console : ℤ) < Function.update s.refcount_ console _ console
    rw [Function.update_self]
    omega

/-- A group whose descriptors are all closed is forgotten. -/
theorem Counts.removeGroup (h : Counts console s) (hg : g ∈ s.groups)
    (hnone : ∀ fd < MAX_FD, s.fdtable_ g fd = none) :
    Counts console { s with groups := s.groups.erase g } := by
  have hzero : ∀ v, s.slotsOf g v = 0 := fun v => by
    refine Finset.card_eq_zero.mpr (Finset.filter_eq_empty_iff.mpr fun fd hfd hv => ?_)
    rw [hnone fd (Finset.mem_range.mp hfd)] at hv
    cases hv
  have hslots : ∀ v, State.slots { s with groups := s.groups.erase g } v = s.slots v := fun v => by
    have := Finset.add_sum_erase s.groups (fun p => s.slotsOf p v) hg
    rw [hzero v, Nat.zero_add] at this
    exact this
  refine ⟨fun v hv ha => ?_, fun v hv => ?_, h.console.1, ?_⟩
  · rw [hslots]
    exact h.count v hv ha
  · rw [hslots]
    exact h.alive v hv
  · rw [hslots]
    exact h.console.2

/-- A new group gets a copy of a table. -/
theorem Counts.copy (h : Counts console s) (hg : g ∈ s.groups) (hc : c ∉ s.groups) :
    Counts console { s with
      groups := insert c s.groups
      fdtable_ := Function.update s.fdtable_ c (s.fdtable_ g)
      refcount_ := fun v => s.refcount_ v + s.slotsOf g v } := by
  have hslots : ∀ v, State.slots { s with
      groups := insert c s.groups
      fdtable_ := Function.update s.fdtable_ c (s.fdtable_ g)
      refcount_ := fun v => s.refcount_ v + s.slotsOf g v } v = s.slotsOf g v + s.slots v := by
    intro v
    unfold State.slots
    rw [Finset.sum_insert hc]
    congr 1
    · simp [State.slotsOf]
    · refine Finset.sum_congr rfl fun p hp => ?_
      have hpc : p ≠ c := fun he => hc (he ▸ hp)
      simp [State.slotsOf, hpc]
  refine ⟨fun v hv ha => ?_, fun v hv => ?_, h.console.1, ?_⟩
  · rw [hslots]
    have := h.count v hv ha
    show s.refcount_ v + _ = _
    push_cast
    omega
  · rw [hslots]
    show s.alive v = true ↔ _
    rw [h.alive v hv]
    constructor
    · omega
    · intro hpos
      by_contra hno
      have hle : s.slotsOf g v ≤ s.slots v :=
        Finset.single_le_sum (f := fun p => s.slotsOf p v) (fun _ _ => Nat.zero_le _) hg
      omega
  · rw [hslots]
    have := h.console.2
    show _ < s.refcount_ console + _
    push_cast
    omega

/-! ## The system calls -/

theorem find_open_fd_spec {taken : Option ℕ} (h : s.find_open_fd g taken = some fd) :
    fd < MAX_FD ∧ s.fdtable_ g fd = none ∧ some fd ≠ taken := by
  have hmem := List.mem_range.mp (List.mem_of_find?_eq_some h)
  have hp : 3 ≤ fd ∧ s.fdtable_ g fd = none ∧ some fd ≠ taken := by
    simpa using List.find?_some h
  exact ⟨hmem, hp.2⟩

/-- Only the table of `g` and what belongs to the vnodes change. -/
structure TableOnly (s s' : State V G T S) (g : G) : Prop where
  fdtable : ∀ p, p ≠ g → s'.fdtable_ p = s.fdtable_ p
  groups : s'.groups = s.groups
  threads : s'.threads = s.threads
  thgrp : s'.thgrp_ = s.thgrp_
  pc : s'.pc = s.pc
  fd : s'.fd_ = s.fd_
  received : s'.received_ = s.received_

theorem TableOnly.refl (s : State V G T S) (g : G) : TableOnly s s g :=
  ⟨fun _ _ => rfl, rfl, rfl, rfl, rfl, rfl, rfl⟩

theorem TableOnly.setSlot (h : TableOnly s s' g) (fd : ℕ) (o : Option V) :
    TableOnly s (s'.setSlot g fd o) g :=
  ⟨fun p hp => (Function.update_of_ne hp _ _).trans (h.fdtable p hp), h.groups, h.threads, h.thgrp,
    h.pc, h.fd, h.received⟩

theorem TableOnly.create (h : TableOnly s s' g) (v : V) : TableOnly s (s'.create v) g :=
  ⟨h.fdtable, h.groups, h.threads, h.thgrp, h.pc, h.fd, h.received⟩

theorem TableOnly.incr (h : TableOnly s s' g) (v : V) : TableOnly s (s'.incr v) g :=
  ⟨h.fdtable, h.groups, h.threads, h.thgrp, h.pc, h.fd, h.received⟩

theorem Dropped.tableOnly (h : Dropped s s' v) : TableOnly s s' g := by
  obtain ⟨h₁, h₂, h₃, h₄, h₅, h₆, h₇, -⟩ := h.same
  exact ⟨fun _ _ => by rw [h₁], h₂, h₃, h₄, h₅, h₆, h₇⟩

theorem Counts.open_ (h : Counts console s) (hg : g ∈ s.groups) (hv : s.alive v = false) :
    Counts console (s.open_ g v) ∧ TableOnly s (s.open_ g v) g := by
  unfold State.open_
  split
  · next fd hfd =>
    obtain ⟨hlt, hfree, -⟩ := find_open_fd_spec hfd
    exact ⟨h.storeNew hg hlt hfree hv, ((TableOnly.refl s g).create v).setSlot fd _⟩
  · exact ⟨h, .refl s g⟩

theorem Counts.pipe (h : Counts console s) (hg : g ∈ s.groups) (hv : s.alive v = false)
    (hw : s.alive w = false) (hvw : v ≠ w) :
    Counts console (s.pipe g v w) ∧ TableOnly s (s.pipe g v w) g := by
  unfold State.pipe
  split
  · exact ⟨h, .refl s g⟩
  · next rfd hrfd =>
    split
    · exact ⟨h, .refl s g⟩
    · next wfd hwfd =>
      obtain ⟨hrlt, hrfree, -⟩ := find_open_fd_spec hrfd
      obtain ⟨hwlt, hwfree, hne⟩ := find_open_fd_spec hwfd
      have hfds : rfd ≠ wfd := fun he => hne (congrArg some he.symm)
      have hstored := h.storeNew hg hwlt hwfree hw
      have hv' : ((s.create w).setSlot g wfd (some w)).alive v = false :=
        (Function.update_of_ne hvw _ _).trans hv
      have hfree' : ((s.create w).setSlot g wfd (some w)).fdtable_ g rfd = none := by
        simpa [State.setSlot, State.create, hfds] using hrfree
      exact ⟨hstored.storeNew hg hrlt hfree' hv',
        (((((TableOnly.refl s g).create w).create v).setSlot wfd _).setSlot rfd _)⟩

theorem setSlot_setSlot (s : State V G T S) (g : G) (fd : ℕ) (o o' : Option V) :
    (s.setSlot g fd o).setSlot g fd o' = s.setSlot g fd o' := by
  simp [State.setSlot]

theorem Counts.dup2 (h : Counts console s) (hg : g ∈ s.groups) {oldfd newfd : ℕ}
    (hs : s.dup2 g oldfd newfd = some s') : Counts console s' ∧ TableOnly s s' g := by
  unfold State.dup2 at hs
  split at hs
  · cases hs
    exact ⟨h, .refl s g⟩
  · next hlt =>
    rw [not_or, not_le, not_le] at hlt
    split at hs
    · cases hs
      exact ⟨h, .refl s g⟩
    · next v hold =>
      split at hs
      · cases hs
        exact ⟨h, .refl s g⟩
      · next hne =>
        obtain ⟨s₁, hclosed, rfl⟩ := Option.map_eq_some_iff.mp hs
        split at hclosed
        · next w hnew =>
          obtain ⟨s₂, hs₂, hd⟩ := exists_drop (h.refcount_pos hg hlt.2 hnew)
          obtain rfl : s₂ = s₁ := Option.some.inj (hs₂.symm.trans hclosed)
          have hdropped := h.dropped hg hlt.2 hnew hd
          have hg' : g ∈ s₂.groups := by
            rw [hd.same.2.1]
            exact hg
          have hold' : (s₂.setSlot g newfd none).fdtable_ g oldfd = some v := by
            simpa [State.setSlot, hne, hd.same.1] using hold
          have hv := hdropped.points hg' hlt.1 hold'
          have hstored := hdropped.store hg' hlt.2 (by simp [State.setSlot]) hv
          rw [setSlot_setSlot] at hstored
          exact ⟨hstored, (hd.tableOnly.setSlot newfd _).incr v⟩
        · next hnew =>
          cases hclosed
          exact ⟨h.store hg hlt.2 hnew (h.points hg hlt.1 hold),
            ((TableOnly.refl s g).setSlot newfd _).incr v⟩

/-- `dup2` leaves the vnodes alone, or closes the one that `newfd` points to. -/
theorem dup2_cases {oldfd newfd : ℕ} (hs : s.dup2 g oldfd newfd = some s') :
    s'.alive = s.alive ∨ ∃ w, s.fdtable_ g newfd = some w ∧ 0 < s.refcount_ w ∧
      ∃ s₁, Dropped s s₁ w ∧ s'.alive = s₁.alive := by
  unfold State.dup2 at hs
  split at hs
  · cases hs
    exact .inl rfl
  split at hs
  · cases hs
    exact .inl rfl
  split at hs
  · cases hs
    exact .inl rfl
  obtain ⟨s₁, hclosed, rfl⟩ := Option.map_eq_some_iff.mp hs
  split at hclosed
  · next w hw =>
    have hpos : 0 < s.refcount_ w := by
      by_contra hzero
      unfold State.drop State.vclose at hclosed
      rw [if_neg hzero] at hclosed
      cases hclosed
    obtain ⟨s₂, hs₂, hd⟩ := exists_drop hpos
    obtain rfl : s₂ = s₁ := Option.some.inj (hs₂.symm.trans hclosed)
    exact .inr ⟨w, hw, hpos, s₂, hd, rfl⟩
  · cases hclosed
    exact .inl rfl

/-- The last descriptor of a vnode is not closed while an operation on the vnode is in flight. -/
def MayClose (s : State V G T S) (g : G) (fd : ℕ) : Prop :=
  ∀ v ∈ s.fdtable_ g fd, s.refcount_ v = 1 → s.active_ v = 0

instance (s : State V G T S) (g : G) (fd : ℕ) : Decidable (MayClose s g fd) :=
  inferInstanceAs (Decidable (∀ v ∈ s.fdtable_ g fd, s.refcount_ v = 1 → s.active_ v = 0))

/--
What `close` does to an open descriptor: it gives up the last reference and waits, or it gives up a
reference and clears the descriptor.
-/
theorem close_cases (hs : s.close g t fd = some s') :
    s' = s ∨ fd < MAX_FD ∧ ∃ v, s.fdtable_ g fd = some v ∧ 0 < s.refcount_ v ∧
      ((s.refcount_ v = 1 ∧ s.active_ v ≠ 0 ∧
        s' = State.goto { s with refcount_ := Function.update s.refcount_ v 0 } t (.closing fd)) ∨
      ((s.refcount_ v = 1 → s.active_ v = 0) ∧
        ∃ s₁, Dropped s s₁ v ∧ s' = s₁.setSlot g fd none)) := by
  unfold State.close at hs
  split at hs
  · exact .inl (Option.some.inj hs).symm
  next hlt =>
  split at hs
  · exact .inl (Option.some.inj hs).symm
  next v hv =>
  refine .inr ⟨not_le.mp hlt, v, hv, ?_⟩
  unfold State.vclose at hs
  split at hs
  swap
  · cases hs
  next hpos =>
  obtain ⟨s₁, hs₁, hd⟩ := exists_drop hpos
  unfold State.drop State.vclose at hs₁
  rw [if_pos hpos, Option.map_some] at hs₁
  rw [Option.map_some] at hs
  cases hs
  obtain rfl := Option.some.inj hs₁
  refine ⟨hpos, ?_⟩
  dsimp only [Function.update_self] at *
  split
  · next hzero =>
    rw [Function.update_self] at hzero
    split
    · next hactive => exact .inl ⟨by omega, hactive, by rw [hzero]⟩
    · next hactive =>
      rw [if_pos (by rwa [Function.update_self])] at hd
      exact .inr ⟨fun _ => not_not.mp hactive, _, hd, rfl⟩
  · next hmore =>
    rw [if_neg hmore] at hd
    rw [Function.update_self] at hmore
    exact .inr ⟨fun hone => absurd (by omega) hmore, _, hd, rfl⟩

theorem Counts.close (h : Counts console s) (hg : g ∈ s.groups) (hmay : MayClose s g fd)
    (hs : s.close g t fd = some s') : Counts console s' ∧ TableOnly s s' g := by
  rcases close_cases hs with rfl | ⟨hlt, v, hv, -, ⟨hlast, hactive, -⟩ | ⟨-, s₁, hd, rfl⟩⟩
  · exact ⟨h, .refl _ g⟩
  · exact absurd (hmay v hv hlast) hactive
  · exact ⟨h.dropped hg hlt hv hd, hd.tableOnly.setSlot fd none⟩

/-- The constructor of `proc` points free descriptors to the console, at most as many as it counts. -/
theorem initStdio_spec {fds : List ℕ} (hg : g ∈ s.groups) (hlt : ∀ fd ∈ fds, fd < MAX_FD)
    (hs : s.initStdio console g fds = some s') :
    TableOnly s s' g ∧ s'.alive = s.alive ∧ s'.refcount_ = s.refcount_ ∧
      (∀ v, v ≠ console → s'.slots v = s.slots v) ∧
      s'.slots console ≤ s.slots console + fds.length := by
  induction fds generalizing s with
  | nil =>
    cases hs
    exact ⟨.refl _ g, rfl, rfl, fun _ _ => rfl, le_rfl⟩
  | cons fd fds ih =>
    have hrest : ∀ fd ∈ fds, fd < MAX_FD := fun fd hfd => hlt fd (List.mem_cons_of_mem _ hfd)
    unfold State.initStdio at hs
    split at hs
    · obtain ⟨ht, ha, hr, hv, hc⟩ := ih hg hrest hs
      exact ⟨ht, ha, hr, hv, hc.trans (by simp)⟩
    · split at hs
      · next hfree =>
        have hslots := slots_setSlot s hg (hlt fd List.mem_cons_self) (some console)
        simp only [hfree, reduceCtorEq, if_false, Nat.add_zero, Option.some.injEq] at hslots
        obtain ⟨ht, ha, hr, hv, hc⟩ := ih (s := s.setSlot g fd (some console)) hg hrest hs
        refine ⟨⟨fun p hp => ?_, ht.groups, ht.threads, ht.thgrp, ht.pc, ht.fd, ht.received⟩, ha, hr,
          fun v hne => ?_, ?_⟩
        · exact (ht.fdtable p hp).trans (Function.update_of_ne hp _ _)
        · rw [hv v hne, hslots, if_neg (Ne.symm hne), Nat.add_zero]
        · have := hslots console
          rw [if_pos rfl] at this
          rw [List.length_cons]
          omega
      · cases hs

theorem Counts.clone (h : Counts console s) (hg : g ∈ s.groups)
    (hs : (s.construct console).initStdio console g [0, 1, 2] = some s') :
    Counts console s' ∧ TableOnly s s' g := by
  obtain ⟨ht, ha, hr, hv, hc⟩ := initStdio_spec (s := s.construct console) hg (by decide) hs
  have hcon := h.construct
  refine ⟨⟨fun v hne hva => ?_, fun v hne => ?_, ?_, ?_⟩,
    ⟨ht.fdtable, ht.groups, ht.threads, ht.thgrp, ht.pc, ht.fd, ht.received⟩⟩
  · rw [ha] at hva
    rw [hr, hv v hne]
    exact hcon.count v hne hva
  · rw [ha, hv v hne]
    exact hcon.alive v hne
  · rw [ha]
    exact hcon.console.1
  · have hlt := h.console.2
    have hsame : (s.construct console).slots console = s.slots console := rfl
    have hthree : (s.construct console).refcount_ console = s.refcount_ console + 3 :=
      Function.update_self ..
    rw [hsame] at hc
    rw [hr, hthree]
    have hlen : [0, 1, 2].length = 3 := rfl
    omega

/-! ## The threads in the middle of a call -/

/-- The places of a thread at which it keeps nothing but, perhaps, a valid descriptor number. -/
def Pc.Ok : Pc V S → Prop
  | .closing _ | .exiting _ | .clearing _ => False
  | .sending _ fd | .receiving _ _ fd => fd < MAX_FD
  | _ => True

/-- What the threads rely on. -/
structure Places (s : State V G T S) : Prop where
  group : ∀ t ∈ s.threads, s.pc t ≠ .gone → s.thgrp_ t ∈ s.groups
  exiting : ∀ t ∈ s.threads, ∀ i, (s.pc t).closed = some i →
    s.Last t ∧ ∀ fd < i, s.fdtable_ (s.thgrp_ t) fd = none
  ok : ∀ t ∈ s.threads, (s.pc t).closed = none → (s.pc t).Ok
  sent : ∀ sock, s.received_ sock = false → s.fd_ sock < MAX_FD

/-- A step of a thread that is not in `exit`, which may change the table of its own group. -/
theorem Places.act (h : Places s) (ht : t ∈ s.threads) (hgone : s.pc t ≠ .gone)
    (hthreads : s'.threads = s.threads)
    (hthgrp : s'.thgrp_ = s.thgrp_) (hgroups : s'.groups = s.groups)
    (htable : ∀ p, p ≠ s.thgrp_ t → s'.fdtable_ p = s.fdtable_ p)
    (hpc : ∀ u, u ≠ t → s'.pc u = s.pc u) (hok : (s'.pc t).Ok)
    (hsent : ∀ sock, s'.received_ sock = false → s'.fd_ sock < MAX_FD) : Places s' := by
  have hnot : (s'.pc t).closed = none := by
    cases hp : s'.pc t <;> first | rfl | (rw [hp] at hok; exact hok.elim)
  refine ⟨fun u hu hgone' => ?_, fun u hu i hi => ?_, fun u hu hne => ?_, hsent⟩
  · rw [hthreads] at hu
    rw [hthgrp, hgroups]
    by_cases hut : u = t
    · rw [hut]
      exact h.group t ht hgone
    · rw [hpc u hut] at hgone'
      exact h.group u hu hgone'
  · rw [hthreads] at hu
    have hut : u ≠ t := by
      rintro rfl
      rw [hnot] at hi
      cases hi
    rw [hpc u hut] at hi
    obtain ⟨hlast, hnone⟩ := h.exiting u hu i hi
    have hgrp : s.thgrp_ u ≠ s.thgrp_ t := fun he => hgone (hlast t ht (Ne.symm hut) he.symm)
    refine ⟨fun x hx hxu he => ?_, fun fd hfd => ?_⟩
    · rw [hthreads] at hx
      rw [hthgrp] at he
      have hxt : x ≠ t := fun hxt => hgrp (hxt ▸ he).symm
      rw [hpc x hxt]
      exact hlast x hx hxu he
    · rw [hthgrp, htable _ hgrp]
      exact hnone fd hfd
  · rw [hthreads] at hu
    by_cases hut : u = t
    · rw [hut]
      exact hok
    · rw [hpc u hut] at hne ⊢
      exact h.ok u hu hne

/-- A new thread of a live group. -/
theorem Places.addThread (h : Places s) (hu : u ∉ s.threads) (hg : g ∈ s.groups)
    (hnot : ∀ t ∈ s.threads, (s.pc t).closed ≠ none → s.thgrp_ t ≠ g) :
    Places (s.addThread g u) := by
  have hne : ∀ t ∈ s.threads, t ≠ u := fun t ht he => hu (he ▸ ht)
  have hmem : ∀ t, t ∈ (s.addThread g u).threads ↔ t = u ∨ t ∈ s.threads := fun t =>
    Finset.mem_insert
  have hpc : ∀ t ∈ s.threads, (s.addThread g u).pc t = s.pc t := fun t ht =>
    Function.update_of_ne (hne t ht) _ _
  have hgrp : ∀ t ∈ s.threads, (s.addThread g u).thgrp_ t = s.thgrp_ t := fun t ht =>
    Function.update_of_ne (hne t ht) _ _
  have hself : (s.addThread g u).pc u = .user := Function.update_self ..
  have hselfg : (s.addThread g u).thgrp_ u = g := Function.update_self ..
  refine ⟨fun t ht hgone => ?_, fun t ht i hi => ?_, fun t ht hexit => ?_, h.sent⟩
  · rcases (hmem t).mp ht with rfl | ht
    · rw [hselfg]
      exact hg
    · rw [hpc t ht] at hgone
      rw [hgrp t ht]
      exact h.group t ht hgone
  · rcases (hmem t).mp ht with rfl | ht
    · rw [hself] at hi
      cases hi
    · rw [hpc t ht] at hi
      obtain ⟨hlast, hnone⟩ := h.exiting t ht i hi
      refine ⟨fun x hx hxt he => ?_, by rw [hgrp t ht]; exact hnone⟩
      rw [hgrp t ht] at he
      rcases (hmem x).mp hx with hxu | hx
      · rw [hxu, hselfg] at he
        exact absurd he.symm (hnot t ht (by rw [hi]; simp))
      · rw [hgrp x hx] at he
        rw [hpc x hx]
        exact hlast x hx hxt he
  · rcases (hmem t).mp ht with rfl | ht
    · rw [hself]
      trivial
    · rw [hpc t ht] at hexit ⊢
      exact h.ok t ht hexit

end Chickadee.Fd
