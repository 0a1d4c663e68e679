import Chickadee.Fd.Refcount

/-!
# No descriptor points to a deleted vnode

Two things can go wrong: `receivefd` stores a pointer to a vnode that has been deleted since, or before,
it was read from the client's table; and `close` gives up the last reference while its descriptor still
points to the vnode. In all other runs the counts are right.
-/

namespace Chickadee.Fd

open Lib

set_option linter.unusedSectionVars false

variable {V G T S : Type} [DecidableEq V] [DecidableEq G] [DecidableEq T] [DecidableEq S]
  {console v w : V} {g c : G} {t u : T} {fd : ℕ} {s s' : State V G T S}

/-- **What holds in every state of an orderly run.** -/
structure Inv (console : V) (s : State V G T S) : Prop where
  counts : Counts console s
  places : Places s

/-- A vnode that is read from a client's table is stored before it is deleted. -/
def MayReceive (s : State V G T S) (t : T) : Prop :=
  match s.pc t with
  | .receiving _ v _ => s.alive v = true
  | _ => True

/-- The steps after which the counts stay right. -/
def Orderly (s : State V G T S) : Act V G T S → Prop
  | .close t fd => fd < MAX_FD → MayClose s (s.thgrp_ t) fd
  | .receive t => MayReceive s t
  | _ => True

instance (s : State V G T S) (t : T) : Decidable (MayReceive s t) := by
  unfold MayReceive
  split <;> infer_instance

instance (s : State V G T S) : (a : Act V G T S) → Decidable (Orderly s a)
  | .close t fd => inferInstanceAs (Decidable (fd < MAX_FD → MayClose s (s.thgrp_ t) fd))
  | .receive t => inferInstanceAs (Decidable (MayReceive s t))
  | .open_ _ _ | .pipe _ _ _ | .dup2 _ _ _ | .fork _ _ _ | .forkFail _ | .clone _ _ | .closeWoken _
  | .exit _ | .exitFd _ | .io _ _ _ _ | .ioRun _ | .ioEnd _ | .bind _ _ | .connect _ _
  | .disconnect _ _ | .sendfd _ _ _ | .send _ | .timeout _ _
  | .receivefd _ _ _ | .die _ => isTrue trivial

/-- The kernel as it starts: one group, one thread, and the console with a reference to spare. -/
structure Init (console : V) (s : State V G T S) : Prop where
  groups : ∃ g t, s.groups = {g} ∧ s.threads = {t} ∧ s.thgrp_ t = g ∧ s.pc t = .user ∧
    ∀ fd, s.fdtable_ g fd = if fd < 3 then some console else none
  alive : ∀ v, s.alive v = true ↔ v = console
  refcount : s.refcount_ console = 4
  received : ∀ sock, s.received_ sock = true

/-! ## The claim on a state -/

/--
A vnode other than the console is alive as long as a descriptor of a live group points to it, and its
`refcount_` is the number of these. The console has more references than descriptors and is never
deleted, so no descriptor points to a deleted vnode.
-/
structure RefcountsOk (console : V) (s : State V G T S) : Prop where
  count : ∀ v, v ≠ console → s.alive v = true → s.refcount_ v = s.slots v
  deleted : ∀ v, v ≠ console → (s.alive v = false ↔ s.slots v = 0)
  console : s.alive console = true ∧ (s.slots console : ℤ) < s.refcount_ console
  points : ∀ g ∈ s.groups, ∀ fd < MAX_FD, ∀ v, s.fdtable_ g fd = some v → s.alive v = true

/-! ## The steps -/

/-- A step of a thread that may change the table of its group and moves to another place. -/
theorem Inv.act (h : Inv console s) (ht : t ∈ s.threads) (hgone : s.pc t ≠ .gone)
    {s₁ : State V G T S} (hcounts : Counts console s₁) (htable : TableOnly s s₁ (s.thgrp_ t))
    (hcongr : s'.alive = s₁.alive ∧ s'.refcount_ = s₁.refcount_ ∧ s'.groups = s₁.groups ∧
      s'.fdtable_ = s₁.fdtable_ ∧ s'.threads = s₁.threads ∧ s'.thgrp_ = s₁.thgrp_)
    (hpc : ∀ u, u ≠ t → s'.pc u = s.pc u) (hok : (s'.pc t).Ok)
    (hsent : ∀ sock, s'.received_ sock = false → s'.fd_ sock < MAX_FD) : Inv console s' := by
  obtain ⟨e₁, e₂, e₃, e₄, e₅, e₆⟩ := hcongr
  refine ⟨hcounts.congr e₁ e₂ e₃ e₄, h.places.act ht hgone (e₅.trans htable.threads)
    (e₆.trans htable.thgrp) (e₃.trans htable.groups) (fun p hp => ?_) hpc hok hsent⟩
  rw [e₄]
  exact htable.fdtable p hp

/-- A step of a thread in user mode that only changes the table of its group. -/
theorem Inv.table (h : Inv console s) (ht : t ∈ s.threads) (hpc : s.pc t = .user)
    (hstep : Counts console s' ∧ TableOnly s s' (s.thgrp_ t)) : Inv console s' := by
  obtain ⟨hcounts, htable⟩ := hstep
  refine h.act ht (by rw [hpc]; simp) hcounts htable ⟨rfl, rfl, rfl, rfl, rfl, rfl⟩
    (fun u _ => by rw [htable.pc]) (by rw [htable.pc, hpc]; trivial) fun sock hs => ?_
  rw [htable.received] at hs
  rw [htable.fd]
  exact h.places.sent sock hs

/-- A step of a thread that changes neither tables nor counts. -/
theorem Inv.move (h : Inv console s) (ht : t ∈ s.threads) (hgone : s.pc t ≠ .gone)
    (hcongr : s'.alive = s.alive ∧ s'.refcount_ = s.refcount_ ∧ s'.groups = s.groups ∧
      s'.fdtable_ = s.fdtable_ ∧ s'.threads = s.threads ∧ s'.thgrp_ = s.thgrp_)
    (hpc : ∀ u, u ≠ t → s'.pc u = s.pc u) (hok : (s'.pc t).Ok)
    (hsent : ∀ sock, s'.received_ sock = false → s'.fd_ sock < MAX_FD) : Inv console s' :=
  h.act ht hgone h.counts (.refl s _) hcongr hpc hok hsent

/-- A thread moves to another place. -/
theorem Inv.goto (h : Inv console s) (ht : t ∈ s.threads) (hgone : s.pc t ≠ .gone) (pc : Pc V S)
    (hok : pc.Ok) : Inv console (s.goto t pc) :=
  h.move ht hgone ⟨rfl, rfl, rfl, rfl, rfl, rfl⟩ (fun _ hu => Function.update_of_ne hu _ _)
    (by
      show (Function.update s.pc t pc t).Ok
      rw [Function.update_self]
      exact hok) h.places.sent

/-- `active_` and the sockets do not matter, as long as what is sent is a descriptor number. -/
theorem Inv.congr (h : Inv console s)
    (hcongr : s'.alive = s.alive ∧ s'.refcount_ = s.refcount_ ∧ s'.groups = s.groups ∧
      s'.fdtable_ = s.fdtable_ ∧ s'.threads = s.threads ∧ s'.thgrp_ = s.thgrp_ ∧ s'.pc = s.pc)
    (hsent : ∀ sock, s'.received_ sock = false → s'.fd_ sock < MAX_FD) : Inv console s' := by
  obtain ⟨e₁, e₂, e₃, e₄, e₅, e₆, e₇⟩ := hcongr
  refine ⟨h.counts.congr e₁ e₂ e₃ e₄, ?_, ?_, ?_, hsent⟩
  · rw [e₃, e₅, e₆, e₇]
    exact h.places.group
  · unfold State.Last
    rw [e₄, e₅, e₆, e₇]
    exact h.places.exiting
  · rw [e₅, e₇]
    exact h.places.ok

theorem Inv.fork (h : Inv console s) (hg : g ∈ s.groups) (hc : c ∉ s.groups) (hu : u ∉ s.threads) :
    Inv console (s.fork console g c u) := by
  have hold : ∀ t ∈ s.threads, (s.pc t).closed ≠ none → s.thgrp_ t ≠ c := fun t ht hexit he => by
    refine hc (he ▸ h.places.group t ht fun hgone => hexit ?_)
    rw [hgone]
    rfl
  refine ⟨(h.counts.construct.copy hg hc).congr rfl rfl rfl rfl, ?_⟩
  have hbase : Places { s with
      groups := insert c s.groups
      fdtable_ := Function.update s.fdtable_ c (s.fdtable_ g) } := by
    refine ⟨fun t ht hgone => Finset.mem_insert_of_mem (h.places.group t ht hgone),
      fun t ht i hi => ⟨(h.places.exiting t ht i hi).1, fun fd hfd => ?_⟩, h.places.ok, h.places.sent⟩
    show Function.update s.fdtable_ c (s.fdtable_ g) (s.thgrp_ t) fd = none
    rw [Function.update_of_ne (hold t ht (by rw [show (s.pc t).closed = _ from hi]; simp))]
    exact (h.places.exiting t ht i hi).2 fd hfd
  have hthread := hbase.addThread hu (Finset.mem_insert_self c _) hold
  exact ⟨hthread.group, hthread.exiting, hthread.ok, hthread.sent⟩

/-- A thread in `exit` is alone in its group, so that no thread in `exit` sees what another one does. -/
theorem Places.ne_exiting (h : Places s) (ht : t ∈ s.threads) (hgone : s.pc t ≠ .gone)
    (hu : u ∈ s.threads) (hut : u ≠ t) (hi : (s.pc u).closed ≠ none) : s.thgrp_ u ≠ s.thgrp_ t := by
  obtain ⟨i, hi⟩ := Option.ne_none_iff_exists'.mp hi
  exact fun he => hgone ((h.exiting u hu i hi).1 t ht (Ne.symm hut) he.symm)

theorem Inv.clone (h : Inv console s) (ht : t ∈ s.threads) (hpc : s.pc t = .user)
    (hu : u ∉ s.threads)
    (hs : (s.construct console).initStdio console (s.thgrp_ t) [0, 1, 2] = some s') :
    Inv console (s'.addThread (s.thgrp_ t) u) := by
  have hgone : s.pc t ≠ .gone := by
    rw [hpc]
    simp
  have hg := h.places.group t ht hgone
  have hstdio := h.counts.clone hg hs
  have hinv := h.table ht hpc hstdio
  refine ⟨hinv.counts.congr rfl rfl rfl rfl, hinv.places.addThread ?_ ?_ fun x hx hexit => ?_⟩
  · rw [hstdio.2.threads]
    exact hu
  · rw [hstdio.2.groups]
    exact hg
  · rw [hstdio.2.threads] at hx
    rw [hstdio.2.pc] at hexit
    rw [hstdio.2.thgrp]
    refine h.places.ne_exiting ht hgone hx ?_ hexit
    rintro rfl
    rw [hpc] at hexit
    exact hexit rfl

/-- A thread that is, or gets, alone in its group goes on in `exit`. -/
theorem Places.exitMove (h : Places s) (ht : t ∈ s.threads) (hgone : s.pc t ≠ .gone)
    (hlast : s.Last t) (pc : Pc V S) {i : ℕ} (hclosed : pc.closed = some i)
    (hthreads : s'.threads = s.threads) (hthgrp : s'.thgrp_ = s.thgrp_)
    (hgroups : s'.groups = s.groups) (htable : ∀ p, p ≠ s.thgrp_ t → s'.fdtable_ p = s.fdtable_ p)
    (hpc : s'.pc = Function.update s.pc t pc) (hnone : ∀ fd < i, s'.fdtable_ (s.thgrp_ t) fd = none)
    (hsent : ∀ sock, s'.received_ sock = false → s'.fd_ sock < MAX_FD) : Places s' := by
  refine ⟨fun u hu hgone' => ?_, fun u hu j hj => ?_, fun u hu hne => ?_, hsent⟩
  · rw [hthreads] at hu
    rw [hthgrp, hgroups]
    by_cases hut : u = t
    · rw [hut]
      exact h.group t ht hgone
    · rw [hpc, Function.update_of_ne hut] at hgone'
      exact h.group u hu hgone'
  · rw [hthreads] at hu
    by_cases hut : u = t
    · subst hut
      rw [hpc, Function.update_self, hclosed] at hj
      cases hj
      refine ⟨fun x hx hxu he => ?_, by rw [hthgrp]; exact hnone⟩
      rw [hthreads] at hx
      rw [hthgrp] at he
      rw [hpc, Function.update_of_ne hxu]
      exact hlast x hx hxu he
    · rw [hpc, Function.update_of_ne hut] at hj
      have hgrp := h.ne_exiting ht hgone hu hut (by rw [hj]; simp)
      obtain ⟨hlast', hnone'⟩ := h.exiting u hu j hj
      refine ⟨fun x hx hxu he => ?_, fun fd hfd => ?_⟩
      · rw [hthreads] at hx
        rw [hthgrp] at he
        have hxt : x ≠ t := fun hxt => hgrp (hxt ▸ he).symm
        rw [hpc, Function.update_of_ne hxt]
        exact hlast' x hx hxu he
      · rw [hthgrp, htable _ hgrp]
        exact hnone' fd hfd
  · rw [hthreads] at hu
    by_cases hut : u = t
    · subst hut
      rw [hpc, Function.update_self, hclosed] at hne
      cases hne
    · rw [hpc, Function.update_of_ne hut] at hne ⊢
      exact h.ok u hu hne

theorem Inv.exitFd (h : Inv console s) (ht : t ∈ s.threads) {i : ℕ} (hi : s.pc t = .exiting i)
    (hs : s.exitFd (s.thgrp_ t) t i = some s') : Inv console s' := by
  have hgone : s.pc t ≠ .gone := by
    rw [hi]
    simp
  have hg := h.places.group t ht hgone
  obtain ⟨hlast, hnone⟩ := h.places.exiting t ht i (by rw [hi]; rfl)
  unfold State.exitFd at hs
  split at hs
  · next hmax =>
    split at hs
    · next hfree =>
      cases hs
      refine ⟨h.counts.congr rfl rfl rfl rfl, h.places.exitMove ht hgone hlast (.exiting (i + 1)) rfl rfl rfl rfl
        (fun _ _ => rfl) rfl (fun fd hfd => ?_) h.places.sent⟩
      by_cases hfi : fd = i
      · rw [hfi]
        exact hfree
      · exact hnone fd (by omega)
    · next v hv =>
      obtain ⟨s₁, hs₁, rfl⟩ := Option.map_eq_some_iff.mp hs
      obtain ⟨s₂, hs₂, hd⟩ := exists_drop (h.counts.refcount_pos hg hmax hv)
      obtain rfl : s₂ = s₁ := Option.some.inj (hs₂.symm.trans hs₁)
      obtain ⟨hfdt, hgroups, hthreads, hthgrp, hpc, hfd, hrec, -⟩ := hd.same
      refine ⟨(h.counts.dropped hg hmax hv hd).congr rfl rfl rfl rfl,
        h.places.exitMove ht hgone hlast (.clearing i) rfl hthreads hthgrp hgroups
          (fun p hp => ?_) ?_ (fun fd hfd => ?_) fun sock hs => ?_⟩
      · exact (Function.update_of_ne hp _ _).trans (by rw [hfdt])
      · show Function.update s₂.pc t _ = _
        rw [hpc]
      · by_cases hfi : fd = i
        · simp [State.setSlot, State.goto, hfi]
        · simp [State.setSlot, State.goto, hfi, hfdt, hnone fd (by omega)]
      · have hs : s₂.received_ sock = false := hs
        rw [hrec] at hs
        show s₂.fd_ sock < MAX_FD
        rw [hfd]
        exact h.places.sent sock hs
  · next hmax =>
    cases hs
    refine ⟨(h.counts.removeGroup hg fun fd hfd => hnone fd (by omega)).congr rfl rfl rfl rfl,
      ⟨fun u hu hgone' => ?_, fun u hu j hj => ?_, fun u hu hne => ?_, h.places.sent⟩⟩
    · have hut : u ≠ t := by
        rintro rfl
        exact hgone' (Function.update_self ..)
      have hgone' : s.pc u ≠ .gone := by simpa [State.goto, hut] using hgone'
      refine Finset.mem_erase.mpr ⟨fun he => hgone' (hlast u hu hut he), ?_⟩
      exact h.places.group u hu hgone'
    · have hut : u ≠ t := by
        rintro rfl
        simp [State.goto, Pc.closed] at hj
      have hj : (s.pc u).closed = some j := by simpa [State.goto, hut] using hj
      obtain ⟨hlast', hnone'⟩ := h.places.exiting u hu j hj
      refine ⟨fun x hx hxu he => ?_, hnone'⟩
      by_cases hxt : x = t
      · simp [State.goto, hxt]
      · simpa [State.goto, hxt] using hlast' x hx hxu he
    · by_cases hut : u = t
      · simp [State.goto, hut, Pc.Ok]
      · have hne : (s.pc u).closed = none := by simpa [State.goto, hut] using hne
        simpa [State.goto, hut] using h.places.ok u hu hne

theorem Inv.exitClear (h : Inv console s) (ht : t ∈ s.threads) {i : ℕ} (hi : s.pc t = .clearing i) :
    Inv console (s.exitClear (s.thgrp_ t) t i) := by
  obtain ⟨hlast, hnone⟩ := h.places.exiting t ht (i + 1) (by rw [hi]; rfl)
  exact ⟨h.counts.congr rfl rfl rfl rfl, h.places.exitMove ht (by rw [hi]; simp) hlast
    (.exiting (i + 1)) rfl rfl rfl rfl (fun _ _ => rfl) rfl hnone h.places.sent⟩

theorem Inv.exit (h : Inv console s) (ht : t ∈ s.threads) (hpc : s.pc t = .user) (hlast : s.Last t) :
    Inv console (s.goto t (.exiting 0)) :=
  ⟨h.counts.congr rfl rfl rfl rfl, h.places.exitMove ht (by rw [hpc]; simp) hlast (.exiting 0) rfl rfl
    rfl rfl (fun _ _ => rfl) rfl (fun _ hfd => absurd hfd (Nat.not_lt_zero _)) h.places.sent⟩

/-- The operations on an open file change neither tables nor `refcount_`. -/
theorem Inv.io (h : Inv console s) (ht : t ∈ s.threads) (hpc : s.pc t = .user) (op : Io)
    (valid : Bool) : Inv console (s.io (s.thgrp_ t) t op fd valid) := by
  unfold State.io
  split
  · exact h
  · split
    · exact h
    · next v _ =>
      split
      · have hmoved := h.goto ht (by rw [hpc]; simp) (.io fd v) trivial
        exact hmoved.congr ⟨rfl, rfl, rfl, rfl, rfl, rfl, rfl⟩ h.places.sent
      · exact h

theorem Inv.ioRun (h : Inv console s) (ht : t ∈ s.threads) (hpc : s.pc t = .io fd v)
    (hs : s.ioRun (s.thgrp_ t) t fd v = some s') : Inv console s' := by
  unfold State.ioRun at hs
  split at hs
  · cases hs
  · cases hs
    exact h.goto ht (by rw [hpc]; simp) (.ioDone fd v) trivial

theorem Inv.ioEnd (h : Inv console s) (ht : t ∈ s.threads) (hpc : s.pc t = .ioDone fd v)
    (hs : s.ioEnd (s.thgrp_ t) t fd = some s') : Inv console s' := by
  unfold State.ioEnd at hs
  split at hs
  · cases hs
  · cases hs
    have hmoved := h.goto ht (by rw [hpc]; simp) .user trivial
    exact hmoved.congr ⟨rfl, rfl, rfl, rfl, rfl, rfl, rfl⟩ h.places.sent

theorem Inv.sendfd (h : Inv console s) (ht : t ∈ s.threads) (hpc : s.pc t = .user) (sock : S) :
    Inv console (s.sendfd (s.thgrp_ t) t sock fd) := by
  unfold State.sendfd
  split
  · exact h
  · next hlt => exact h.goto ht (by rw [hpc]; simp) (.sending sock fd) (by simp [Pc.Ok]; omega)

theorem Inv.send (h : Inv console s) (ht : t ∈ s.threads) {sock : S}
    (hpc : s.pc t = .sending sock fd) : Inv console (s.send t sock fd) := by
  have hfd : fd < MAX_FD := by
    have hok := h.places.ok t ht (by rw [hpc]; rfl)
    rw [hpc] at hok
    exact hok
  have hmoved := h.goto ht (by rw [hpc]; simp) .user trivial
  unfold State.send
  split
  · refine hmoved.congr ⟨rfl, rfl, rfl, rfl, rfl, rfl, rfl⟩ fun x hx => ?_
    show Function.update s.fd_ sock fd x < MAX_FD
    by_cases hxs : x = sock
    · rw [hxs, Function.update_self]
      exact hfd
    · rw [Function.update_of_ne hxs]
      exact h.places.sent x ((Function.update_of_ne hxs _ _).symm.trans hx)
  · exact hmoved

/-- A message is taken from a socket. -/
theorem Inv.received (h : Inv console s) (sock : S) :
    Inv console { s with received_ := Function.update s.received_ sock true } := by
  refine h.congr ⟨rfl, rfl, rfl, rfl, rfl, rfl, rfl⟩ fun x hx => h.places.sent x ?_
  by_cases hxs : x = sock
  · have hx : Function.update s.received_ sock true x = false := hx
    rw [hxs, Function.update_self] at hx
    cases hx
  · exact (Function.update_of_ne hxs _ _).symm.trans hx

theorem Inv.receivefd (h : Inv console s) (ht : t ∈ s.threads) (hpc : s.pc t = .user) {sock : S}
    {junk : Option V} (hs : s.receivefd t sock junk = some s') : Inv console s' := by
  unfold State.receivefd at hs
  split at hs
  · next hsent =>
    obtain ⟨x, -, rfl⟩ := Option.map_eq_some_iff.mp hs
    split
    · exact h.received sock
    · next v _ =>
      exact h.goto ht (by rw [hpc]; simp) (.receiving sock v (s.fd_ sock))
        (h.places.sent sock hsent.2)
  · cases hs

theorem Inv.receive (h : Inv console s) (ht : t ∈ s.threads) {sock : S}
    (hpc : s.pc t = .receiving sock v fd) (hv : s.alive v = true) :
    Inv console (s.receive (s.thgrp_ t) t sock v fd) := by
  have hgone : s.pc t ≠ .gone := by
    rw [hpc]
    simp
  have hfd : fd < MAX_FD := by
    have hok := h.places.ok t ht (by rw [hpc]; rfl)
    rw [hpc] at hok
    exact hok
  unfold State.receive
  dsimp only
  split
  · exact h.goto ht hgone .user trivial
  · next n hn =>
    have hfree : n < MAX_FD ∧ s.fdtable_ (s.thgrp_ t) n = none := by
      split at hn
      · next hnone =>
        cases hn
        exact ⟨hfd, hnone⟩
      · exact ⟨(find_open_fd_spec hn).1, (find_open_fd_spec hn).2.1⟩
    have hcounts := h.counts.store (h.places.group t ht hgone) hfree.1 hfree.2 hv
    have htable := ((TableOnly.refl s (s.thgrp_ t)).setSlot n (some v)).incr v
    have hstored : Inv console (((s.setSlot (s.thgrp_ t) n (some v)).incr v).goto t .user) :=
      h.act ht hgone hcounts htable ⟨rfl, rfl, rfl, rfl, rfl, rfl⟩
        (fun _ hu => Function.update_of_ne hu _ _)
        (by
          show (Function.update s.pc t .user t).Ok
          rw [Function.update_self]
          trivial) h.places.sent
    exact hstored.received sock

/-- A thread dies; it may have died before. -/
theorem Inv.die (h : Inv console s) (ht : t ∈ s.threads) : Inv console (s.goto t .gone) := by
  by_cases hgone : s.pc t = .gone
  · have hsame : s.goto t .gone = s := by
      unfold State.goto
      rw [← hgone, Function.update_eq_self]
    rw [hsame]
    exact h
  · exact h.goto ht hgone .gone trivial

/-! ## The runs -/


theorem inv_init (h : Init console s) : Inv console s := by
  obtain ⟨g, t, hgroups, hthreads, hthgrp, hpc, htable⟩ := h.groups
  have hslots : ∀ v, s.slots v = if v = console then 3 else 0 := fun v => by
    unfold State.slots State.slotsOf
    rw [hgroups, Finset.sum_singleton]
    by_cases hv : v = console
    · rw [if_pos hv, hv]
      have hstdio : ∀ fd, s.fdtable_ g fd = some console ↔ fd < 3 := fun fd => by
        rw [htable]
        split <;> simp_all
      simp only [hstdio]
      decide
    · rw [if_neg hv]
      refine Finset.card_eq_zero.mpr (Finset.filter_eq_empty_iff.mpr fun fd _ he => ?_)
      rw [htable] at he
      split at he
      · exact hv (Option.some.inj he).symm
      · cases he
  refine ⟨⟨fun v hv ha => absurd ((h.alive v).mp ha) hv, fun v hv => ?_, (h.alive _).mpr rfl, ?_⟩,
    fun u hu _ => ?_, fun u hu i hi => ?_, fun u hu _ => ?_, fun sock hs => ?_⟩
  · rw [hslots, if_neg hv, h.alive]
    simp [hv]
  · rw [hslots, if_pos rfl, h.refcount]
    decide
  · rw [hthreads, Finset.mem_singleton] at hu
    rw [hu, hthgrp, hgroups]
    exact Finset.mem_singleton_self g
  · rw [hthreads, Finset.mem_singleton] at hu
    rw [hu, hpc] at hi
    cases hi
  · rw [hthreads, Finset.mem_singleton] at hu
    rw [hu, hpc]
    trivial
  · rw [h.received] at hs
    cases hs

/-- What holds in every state of an orderly run is preserved by a step. -/
theorem Inv.step (h : Inv console s) {a : Act V G T S} (hok : Orderly s a)
    (hs : s.step console a = some s') : Inv console s' := by
  obtain ⟨ht, hs⟩ := Option.ite_none_right_eq_some.mp hs
  have hgone : s.pc a.thread = .user → s.pc a.thread ≠ .gone := fun hu => by
    rw [hu]
    simp
  have hgroup : s.pc a.thread = .user → s.thgrp_ a.thread ∈ s.groups := fun hu =>
    h.places.group _ ht (hgone hu)
  cases a with
  | open_ t v =>
    obtain ⟨⟨hu, hv⟩, hs⟩ := Option.ite_none_right_eq_some.mp hs
    cases hs
    exact h.table ht hu (h.counts.open_ (hgroup hu) hv)
  | pipe t r w =>
    obtain ⟨⟨hu, hr, hw, hrw⟩, hs⟩ := Option.ite_none_right_eq_some.mp hs
    cases hs
    exact h.table ht hu (h.counts.pipe (hgroup hu) hr hw hrw)
  | dup2 t oldfd newfd =>
    obtain ⟨hu, hs⟩ := Option.ite_none_right_eq_some.mp hs
    exact h.table ht hu (h.counts.dup2 (hgroup hu) hs)
  | fork t c u =>
    obtain ⟨⟨hu, hc, hnew⟩, hs⟩ := Option.ite_none_right_eq_some.mp hs
    cases hs
    exact h.fork (hgroup hu) hc hnew
  | forkFail t =>
    obtain ⟨hu, hs⟩ := Option.ite_none_right_eq_some.mp hs
    cases hs
    exact h.table ht hu ⟨h.counts.construct, ⟨fun _ _ => rfl, rfl, rfl, rfl, rfl, rfl, rfl⟩⟩
  | clone t u =>
    obtain ⟨⟨hu, hnew⟩, hs⟩ := Option.ite_none_right_eq_some.mp hs
    obtain ⟨s₁, hs₁, rfl⟩ := Option.map_eq_some_iff.mp hs
    exact h.clone ht hu hnew hs₁
  | close t fd =>
    obtain ⟨hu, hs⟩ := Option.ite_none_right_eq_some.mp hs
    by_cases hfd : fd < MAX_FD
    · exact h.table ht hu (h.counts.close (hgroup hu) (hok hfd) hs)
    · have hs : s.close (s.thgrp_ t) t fd = some s' := hs
      unfold State.close at hs
      rw [if_pos (not_lt.mp hfd)] at hs
      cases hs
      exact h
  | closeWoken t =>
    -- in an orderly run nobody waits in `close`
    dsimp only [State.stepIn] at hs
    split at hs
    · next fd hpc =>
      have hplace := h.places.ok t ht (by rw [hpc]; rfl)
      rw [hpc] at hplace
      exact hplace.elim
    · cases hs
  | exit t =>
    obtain ⟨⟨hu, hlast⟩, hs⟩ := Option.ite_none_right_eq_some.mp hs
    cases hs
    exact h.exit ht hu hlast
  | exitFd t =>
    dsimp only [State.stepIn, Act.thread] at hs
    split at hs
    · next i hpc => exact h.exitFd ht hpc hs
    · next i hpc =>
      cases hs
      exact h.exitClear ht hpc
    · cases hs
  | io t op fd valid =>
    obtain ⟨hu, hs⟩ := Option.ite_none_right_eq_some.mp hs
    cases hs
    exact h.io ht hu op valid
  | ioRun t =>
    dsimp only [State.stepIn, Act.thread] at hs
    split at hs
    · next fd v hpc => exact h.ioRun ht hpc hs
    · cases hs
  | ioEnd t =>
    dsimp only [State.stepIn, Act.thread] at hs
    split at hs
    · next fd v hpc => exact h.ioEnd ht hpc hs
    · cases hs
  | bind t sock =>
    obtain ⟨-, hs⟩ := Option.ite_none_right_eq_some.mp hs
    cases hs
    exact h.congr ⟨rfl, rfl, rfl, rfl, rfl, rfl, rfl⟩ h.places.sent
  | connect t sock =>
    obtain ⟨-, hs⟩ := Option.ite_none_right_eq_some.mp hs
    cases hs
    exact h.congr ⟨rfl, rfl, rfl, rfl, rfl, rfl, rfl⟩ h.places.sent
  | disconnect t sock =>
    obtain ⟨-, hs⟩ := Option.ite_none_right_eq_some.mp hs
    split at hs
    · cases hs
      exact h.congr ⟨rfl, rfl, rfl, rfl, rfl, rfl, rfl⟩ h.places.sent
    · split at hs
      · cases hs
        exact h.congr ⟨rfl, rfl, rfl, rfl, rfl, rfl, rfl⟩ h.places.sent
      · cases hs
        exact h
  | sendfd t sock fd =>
    obtain ⟨hu, hs⟩ := Option.ite_none_right_eq_some.mp hs
    cases hs
    exact h.sendfd ht hu sock
  | send t =>
    dsimp only [State.stepIn] at hs
    split at hs
    · next sock fd hpc =>
      cases hs
      exact h.send ht hpc
    · cases hs
  | timeout t sock =>
    obtain ⟨-, hs⟩ := Option.ite_none_right_eq_some.mp hs
    cases hs
    exact h.received sock
  | receivefd t sock junk =>
    obtain ⟨hu, hs⟩ := Option.ite_none_right_eq_some.mp hs
    exact h.receivefd ht hu hs
  | receive t =>
    dsimp only [State.stepIn, Act.thread] at hs
    split at hs
    · next sock v fd hpc =>
      cases hs
      have hv : MayReceive s t := hok
      rw [MayReceive, hpc] at hv
      exact h.receive ht hpc hv
    · cases hs
  | die t =>
    obtain ⟨-, hs⟩ := Option.ite_none_right_eq_some.mp hs
    cases hs
    exact h.die ht

theorem Counts.refcountsOk (h : Counts console s) : RefcountsOk console s := by
  refine ⟨h.count, fun v hv => ?_, h.console, fun g hg fd hfd v hv => h.points hg hfd hv⟩
  have := (h.alive v hv).not
  rw [Bool.not_eq_true] at this
  rw [this]
  omega

/--
**As long as `receivefd` stores no pointer to a vnode that is not live, and no vnode loses its last
descriptor with an operation in flight, the counts are right and no descriptor dangles.**
-/
theorem refcounts_ok
    (h : Reach (Init console) (fun s a s' => State.step console s a = some s') Orderly s) :
    RefcountsOk console s :=
  (h.invariant (P := Inv console) (fun _ => inv_init) fun _ _ _ hi hok hs =>
    hi.step hok hs).counts.refcountsOk

/-- The kernel as it starts, with vnode `0` as the console. -/
def booted : State (Fin 4) (Fin 2) (Fin 3) (Fin 1) where
  alive v := v = 0
  refcount_ v := if v = 0 then 4 else 0
  active_ _ := 0
  groups := {0}
  fdtable_ _ fd := if fd < 3 then some 0 else none
  stale_ _ := none
  threads := {0}
  thgrp_ _ := 0
  pc _ := .user
  server_ _ := none
  client_ _ := none
  fd_ _ := 0
  received_ _ := true

theorem booted_init : Init (0 : Fin 4) booted where
  groups := ⟨0, 0, rfl, rfl, rfl, rfl, fun _ => rfl⟩
  alive v := by simp [booted]
  refcount := rfl
  received _ := rfl

/-- A process forks; the child opens vnode 1, which is its descriptor 3, and sends it to its parent. -/
def sendRun : List (Act (Fin 4) (Fin 2) (Fin 3) (Fin 1)) :=
  [.fork 0 1 1, .bind 0 0, .connect 1 0, .open_ 1 1, .sendfd 1 0 3, .send 1, .receivefd 0 0 none]

/-- The parent stores the descriptor, and the child exits. -/
def receiveRun : List (Act (Fin 4) (Fin 2) (Fin 3) (Fin 1)) :=
  sendRun ++ [.receive 0, .dup2 0 3 5, .pipe 0 2 3, .close 0 4, .exit 1] ++
    List.replicate 13 (.exitFd 1)

theorem refcounts_ok_receiveRun :
    ∃ s, exec (State.step 0) (fun s a => decide (Orderly s a)) booted receiveRun = some s ∧
      RefcountsOk 0 s ∧ s.groups = {0} ∧ s.fdtable_ 0 3 = some 1 ∧ s.refcount_ 1 = 2 ∧
      s.alive 2 = false := by
  have hend : (exec (State.step 0) (fun s a => decide (Orderly s a)) booted receiveRun).map
      (fun s => (s.groups, s.fdtable_ 0 3, s.refcount_ 1, s.alive 2)) =
        some ({0}, some 1, 2, false) := by
    decide +kernel
  obtain ⟨s, hrun, hs⟩ := Option.map_eq_some_iff.mp hend
  simp only [Prod.mk.injEq] at hs
  have hreach : Reach (Init 0) (fun s a s' => State.step 0 s a = some s') Orderly s :=
    Reach.exec (fun s a (hok : decide (Orderly s a) = true) => of_decide_eq_true hok)
      (.init booted_init) hrun
  exact ⟨s, hrun, refcounts_ok hreach, hs⟩

/-- The child closes its descriptor before the parent stores it. -/
def staleRun : List (Act (Fin 4) (Fin 2) (Fin 3) (Fin 1)) :=
  sendRun ++ [.close 1 3, .receive 0]

/-- A descriptor of the parent points to a deleted vnode. -/
theorem received_deleted :
    ∃ s : State (Fin 4) (Fin 2) (Fin 3) (Fin 1),
      Reach (Init 0) (fun s a s' => State.step 0 s a = some s') (fun _ _ => True) s ∧
      s.groups = {0, 1} ∧ s.fdtable_ 0 3 = some 1 ∧ s.alive 1 = false ∧ ¬ RefcountsOk 0 s := by
  have hend : (exec (State.step 0) (fun _ _ => true) booted staleRun).map
      (fun s => (s.groups, s.fdtable_ 0 3, s.alive 1)) = some ({0, 1}, some 1, false) := by
    decide +kernel
  obtain ⟨s, hrun, hs⟩ := Option.map_eq_some_iff.mp hend
  simp only [Prod.mk.injEq] at hs
  refine ⟨s, Reach.exec (fun _ _ _ => trivial) (.init booted_init) hrun, hs.1, hs.2.1, hs.2.2,
    fun hok => ?_⟩
  have halive := hok.points 0 (by rw [hs.1]; decide) 3 (by decide) 1 hs.2.1
  rw [hs.2.2] at halive
  cases halive

end Chickadee.Fd
