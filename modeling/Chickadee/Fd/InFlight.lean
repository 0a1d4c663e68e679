import Chickadee.Fd.Counted
import Chickadee.Lib.Literals

/-!
# Operations in flight

`read`, `write` and `ftruncate` look at their descriptor three times: to increment `active_`, to call the
operation, and to decrement `active_`. The descriptor must not change in between. `close` waits for the
operations only if it gives up the last reference, and `dup2` never waits.
-/

namespace Chickadee.Fd.InFlight

open Lib

set_option linter.unusedSectionVars false

variable {V G T S : Type} [DecidableEq V] [DecidableEq G] [DecidableEq T] [DecidableEq S]
  {console v w : V} {g : G} {t u : T} {fd : ℕ} {s s' : State V G T S}

/-- The descriptor a thread operates on, and the vnode whose `active_` it has incremented. -/
def inFlight : Pc V S → Option (ℕ × V)
  | .io fd v | .ioDone fd v => some (fd, v)
  | _ => none

/-- The descriptor that a thread will look at again. -/
def inUse : Pc V S → Option ℕ
  | .io fd _ | .ioDone fd _ | .closing fd => some fd
  | _ => none

/-- The number of operations in flight on `v`. -/
def flights (s : State V G T S) (v : V) : ℕ :=
  (s.threads.filter fun t => (inFlight (s.pc t)).map Prod.snd = some v).card

/-- The calls this is about. -/
def OnTable : Act V G T S → Prop
  | .io _ _ _ _ | .ioRun _ | .ioEnd _ | .close _ _ | .closeWoken _ | .dup2 _ _ _ => True
  | _ => False

instance : DecidablePred (OnTable : Act V G T S → Prop)
  | .io _ _ _ _ | .ioRun _ | .ioEnd _ | .close _ _ | .closeWoken _ | .dup2 _ _ _ => isTrue trivial
  | .open_ _ _ | .pipe _ _ _ | .fork _ _ _ | .forkFail _ | .clone _ _ | .exit _ | .exitFd _
  | .bind _ _ | .connect _ _ | .disconnect _ _ | .sendfd _ _ _ | .send _ | .timeout _ _
  | .receivefd _ _ _ | .receive _ | .die _ => isFalse id

/-- One step of one of these calls. -/
def step (console : V) (s : State V G T S) (a : Act V G T S) : Option (State V G T S) :=
  if OnTable a then s.step console a else none

/-- No thread of `g` has an operation in flight on `fd`. -/
def Idle (s : State V G T S) (g : G) (fd : ℕ) : Prop :=
  ∀ t ∈ s.threads, s.thgrp_ t = g → ∀ p ∈ inFlight (s.pc t), p.1 ≠ fd

instance (s : State V G T S) (g : G) (fd : ℕ) : Decidable (Idle s g fd) :=
  inferInstanceAs (Decidable (∀ t ∈ s.threads, s.thgrp_ t = g → ∀ p ∈ inFlight (s.pc t), p.1 ≠ fd))

/-- A descriptor that shares its vnode is not closed while an operation on it is in flight. -/
def MayClose (s : State V G T S) (g : G) (fd : ℕ) : Prop :=
  ∀ v ∈ s.fdtable_ g fd, s.refcount_ v ≠ 1 → Idle s g fd

/--
What `dup2` copies is not about to be deleted by a `close` that waits, and what it replaces by another
vnode has no operation in flight.
-/
def MayDup2 (s : State V G T S) (g : G) (oldfd newfd : ℕ) : Prop :=
  ∀ v ∈ s.fdtable_ g oldfd, 0 < s.refcount_ v ∧
    ∀ w ∈ s.fdtable_ g newfd, w ≠ v → Idle s g newfd

/-- The steps that leave the operations in flight alone. -/
def Orderly (s : State V G T S) : Act V G T S → Prop
  | .close t fd => fd < MAX_FD → MayClose s (s.thgrp_ t) fd
  | .dup2 t oldfd newfd =>
    oldfd < MAX_FD → newfd < MAX_FD → oldfd ≠ newfd → MayDup2 s (s.thgrp_ t) oldfd newfd
  | _ => True

instance (s : State V G T S) (g : G) (fd : ℕ) : Decidable (MayClose s g fd) :=
  inferInstanceAs (Decidable (∀ v ∈ s.fdtable_ g fd, s.refcount_ v ≠ 1 → Idle s g fd))

instance (s : State V G T S) (g : G) (oldfd newfd : ℕ) : Decidable (MayDup2 s g oldfd newfd) :=
  inferInstanceAs (Decidable (∀ v ∈ s.fdtable_ g oldfd, 0 < s.refcount_ v ∧
    ∀ w ∈ s.fdtable_ g newfd, w ≠ v → Idle s g newfd))

instance (s : State V G T S) : (a : Act V G T S) → Decidable (Orderly s a)
  | .close t fd => inferInstanceAs (Decidable (fd < MAX_FD → MayClose s (s.thgrp_ t) fd))
  | .dup2 t oldfd newfd => inferInstanceAs (Decidable
      (oldfd < MAX_FD → newfd < MAX_FD → oldfd ≠ newfd → MayDup2 s (s.thgrp_ t) oldfd newfd))
  | .open_ _ _ | .pipe _ _ _ | .fork _ _ _ | .forkFail _ | .clone _ _ | .closeWoken _ | .exit _
  | .exitFd _ | .io _ _ _ _ | .ioRun _ | .ioEnd _ | .bind _ _ | .connect _ _ | .disconnect _ _
  | .sendfd _ _ _ | .send _ | .timeout _ _ | .receivefd _ _ _ | .receive _ | .die _ => isTrue trivial

/-- The claim on a state. -/
structure InFlightOk (s : State V G T S) : Prop where
  /-- an operation finds the vnode whose `active_` it has incremented -/
  slot : ∀ t ∈ s.threads, ∀ fd v, inFlight (s.pc t) = some (fd, v) →
    s.fdtable_ (s.thgrp_ t) fd = some v ∧ s.alive v = true ∧ 0 < s.active_ v
  /-- a vnode with operations in flight is not deleted -/
  active : ∀ v, 0 < s.active_ v → s.alive v = true

/-- A state in which every thread is in user mode or dead, and the counts are right. -/
structure Quiet (console : V) (s : State V G T S) : Prop where
  counts : Counts console s
  pc : ∀ t ∈ s.threads, s.pc t = .user ∨ s.pc t = .gone
  group : ∀ t ∈ s.threads, s.pc t = .user → s.thgrp_ t ∈ s.groups
  active : ∀ v, s.active_ v = 0

/-! ## The references -/

/-- Only the last descriptor of a vnode may be without a reference. -/
structure Held (s : State V G T S) : Prop where
  alive : ∀ v, 0 < s.slots v → s.alive v = true
  count : ∀ v, 0 < s.slots v → s.slots v ≤ s.refcount_ v ∨ (s.refcount_ v = 0 ∧ s.slots v = 1)

theorem Held.congr (h : Held s) (ha : s'.alive = s.alive) (hr : s'.refcount_ = s.refcount_)
    (hg : s'.groups = s.groups) (hfd : s'.fdtable_ = s.fdtable_) : Held s' := by
  have hs := slots_congr s s' hg hfd
  refine ⟨?_, ?_⟩
  · simp only [ha, hs]
    exact h.alive
  · simp only [hr, hs]
    exact h.count

/-- A descriptor with a reference has one for each descriptor of its vnode. -/
theorem Held.slots_le (h : Held s) (hv : 0 < s.refcount_ v) : s.slots v ≤ s.refcount_ v := by
  rcases Nat.eq_zero_or_pos (s.slots v) with hzero | hpos
  · rw [hzero]
    exact hv.le
  · rcases h.count v hpos with hle | ⟨hzero, -⟩
    · exact hle
    · omega

/-- A free descriptor is made to point to a vnode that has references. -/
theorem Held.store (h : Held s) (hg : g ∈ s.groups) (hfd : fd < MAX_FD)
    (hfree : s.fdtable_ g fd = none) (hv : s.alive v = true) (href : 0 < s.refcount_ v) :
    Held ((s.setSlot g fd (some v)).incr v) := by
  have hslots : ∀ u, ((s.setSlot g fd (some v)).incr v).slots u =
      s.slots u + if v = u then 1 else 0 := fun u => by
    have := slots_setSlot s hg hfd (some v) u
    simp only [hfree, reduceCtorEq, if_false, Nat.add_zero, Option.some.injEq] at this
    exact this
  refine ⟨fun u hu => ?_, fun u hu => ?_⟩
  · rw [hslots] at hu
    by_cases hvu : v = u
    · exact hvu ▸ hv
    · rw [if_neg hvu] at hu
      exact h.alive u hu
  · rw [hslots] at hu ⊢
    by_cases hvu : v = u
    · subst hvu
      have := h.slots_le href
      left
      show _ ≤ Function.update s.refcount_ v (s.refcount_ v + 1) v
      rw [Function.update_self, if_pos rfl]
      push_cast
      omega
    · rw [if_neg hvu] at hu ⊢
      show _ ≤ Function.update s.refcount_ v _ u ∨ (Function.update s.refcount_ v _ u = 0 ∧ _)
      rw [Function.update_of_ne (Ne.symm hvu)]
      exact h.count u hu

/-- A descriptor loses its vnode. -/
theorem slots_cleared (hg : g ∈ s.groups) (hfd : fd < MAX_FD) (hv : s.fdtable_ g fd = some v)
    (u : V) : (s.setSlot g fd none).slots u + (if v = u then 1 else 0) = s.slots u := by
  have := slots_setSlot s hg hfd none u
  simpa [hv] using this

/-- A descriptor is closed: its reference is given up, and its vnode deleted if it was the last one. -/
theorem Held.dropped (h : Held s) (hg : g ∈ s.groups) (hfd : fd < MAX_FD)
    (hv : s.fdtable_ g fd = some v) (href : 0 < s.refcount_ v) (hd : Dropped s s' v) :
    Held (s'.setSlot g fd none) := by
  have hslots : ∀ u, (s'.setSlot g fd none).slots u + (if v = u then 1 else 0) = s.slots u := by
    intro u
    have hsame : (s'.setSlot g fd none).slots u = (s.setSlot g fd none).slots u :=
      slots_congr (s.setSlot g fd none) (s'.setSlot g fd none) hd.same.2.1
        (by simp [State.setSlot, hd.same.1]) u
    rw [hsame]
    exact slots_cleared hg hfd hv u
  have hle := h.slots_le href
  refine ⟨fun u hu => ?_, fun u hu => ?_⟩
  · show s'.alive u = true
    have := hslots u
    rw [hd.alive]
    by_cases hvu : v = u
    · subst hvu
      rw [if_pos rfl] at this
      rw [if_neg (by omega)]
      exact h.alive v (by omega)
    · rw [if_neg hvu] at this
      have halive := h.alive u (by omega)
      split
      · rw [Function.update_of_ne (Ne.symm hvu)]
        exact halive
      · exact halive
  · show _ ≤ s'.refcount_ u ∨ (s'.refcount_ u = 0 ∧ _)
    have := hslots u
    rw [hd.refcount]
    by_cases hvu : v = u
    · subst hvu
      rw [if_pos rfl] at this
      rw [Function.update_self]
      left
      omega
    · rw [if_neg hvu, Nat.add_zero] at this
      rw [Function.update_of_ne (Ne.symm hvu), this]
      exact h.count u (by omega)

/-- `close` gives up the last reference and keeps the descriptor until nothing is in flight. -/
theorem Held.wait (h : Held s) (href : s.refcount_ v = 1) :
    Held { s with refcount_ := Function.update s.refcount_ v (s.refcount_ v - 1) } := by
  refine ⟨h.alive, fun u hu => ?_⟩
  have hu : 0 < s.slots u := hu
  show _ ≤ Function.update s.refcount_ v _ u ∨ (Function.update s.refcount_ v _ u = 0 ∧ s.slots u = 1)
  by_cases hvu : v = u
  · subst hvu
    have := h.slots_le (v := v) (by omega)
    rw [Function.update_self]
    right
    omega
  · rw [Function.update_of_ne (Ne.symm hvu)]
    exact h.count u hu

/-- `close` clears the descriptor in the end. -/
theorem Held.woken (h : Held s) (hg : g ∈ s.groups) (hfd : fd < MAX_FD)
    (hv : s.fdtable_ g fd = some v) (href : s.refcount_ v = 0) :
    Held ((s.setSlot g fd none).vdelete v) := by
  have hslots : ∀ u, ((s.setSlot g fd none).vdelete v).slots u + (if v = u then 1 else 0) =
      s.slots u := slots_cleared hg hfd hv
  have hone : s.slots v = 1 := by
    have hpos := slots_pos hg hfd hv
    rcases h.count v hpos with hle | ⟨-, hone⟩
    · omega
    · exact hone
  refine ⟨fun u hu => ?_, fun u hu => ?_⟩
  · show Function.update s.alive v false u = true
    have := hslots u
    by_cases hvu : v = u
    · subst hvu
      rw [if_pos rfl] at this
      omega
    · rw [if_neg hvu] at this
      rw [Function.update_of_ne (Ne.symm hvu)]
      exact h.alive u (by omega)
  · have := hslots u
    show _ ≤ s.refcount_ u ∨ (s.refcount_ u = 0 ∧ _)
    by_cases hvu : v = u
    · subst hvu
      rw [if_pos rfl] at this
      omega
    · rw [if_neg hvu, Nat.add_zero] at this
      rw [this]
      exact h.count u (by omega)

/-! ## The operations in flight -/

/-- What the threads in the middle of a call rely on. -/
structure Flight (s : State V G T S) : Prop where
  group : ∀ t ∈ s.threads, s.pc t ≠ .gone → s.thgrp_ t ∈ s.groups
  slot : ∀ t ∈ s.threads, ∀ fd v, inFlight (s.pc t) = some (fd, v) →
    s.fdtable_ (s.thgrp_ t) fd = some v ∧ fd < MAX_FD
  closing : ∀ t ∈ s.threads, ∀ fd, s.pc t = .closing fd →
    fd < MAX_FD ∧ ∃ v, s.fdtable_ (s.thgrp_ t) fd = some v ∧ s.refcount_ v = 0
  closer : ∀ t ∈ s.threads, ∀ u ∈ s.threads, ∀ fd, s.pc t = .closing fd → s.pc u = .closing fd →
    s.thgrp_ t = s.thgrp_ u → t = u
  active : ∀ v, s.active_ v = flights s v

theorem inUse_of_inFlight {pc : Pc V S} (h : inFlight pc = some (fd, v)) : inUse pc = some fd := by
  cases pc <;> cases h <;> rfl

/-- A table changes where no thread looks at it again, and no vnode without references gets one. -/
theorem Flight.table (h : Flight s) (hpc : s'.pc = s.pc) (hactive : s'.active_ = s.active_)
    (hthreads : s'.threads = s.threads) (hthgrp : s'.thgrp_ = s.thgrp_)
    (hgroups : s'.groups = s.groups)
    (hkeep : ∀ t ∈ s.threads, ∀ fd, inUse (s.pc t) = some fd →
      s'.fdtable_ (s.thgrp_ t) fd = s.fdtable_ (s.thgrp_ t) fd)
    (hzero : ∀ v, s.refcount_ v = 0 → s'.refcount_ v = 0) : Flight s' := by
  refine ⟨?_, ?_, ?_, ?_, ?_⟩
  · rw [hpc, hthreads, hthgrp, hgroups]
    exact h.group
  · rw [hpc, hthreads, hthgrp]
    intro t ht fd v hv
    rw [hkeep t ht fd (inUse_of_inFlight hv)]
    exact h.slot t ht fd v hv
  · rw [hpc, hthreads, hthgrp]
    intro t ht fd hfd
    obtain ⟨hlt, v, hv, href⟩ := h.closing t ht fd hfd
    exact ⟨hlt, v, (hkeep t ht fd (by rw [hfd]; rfl)).trans hv, hzero v href⟩
  · rw [hpc, hthreads, hthgrp]
    exact h.closer
  · unfold flights
    rw [hpc, hthreads, hactive]
    exact h.active

/-- Another operation is in flight, or one less. -/
theorem flights_goto (ht : t ∈ s.threads) (pc : Pc V S) (v : V) :
    flights (s.goto t pc) v + (if (inFlight (s.pc t)).map Prod.snd = some v then 1 else 0) =
      flights s v + if (inFlight pc).map Prod.snd = some v then 1 else 0 :=
  card_filter_update s.threads s.pc pc (fun pc => (inFlight pc).map Prod.snd = some v) ht

/-- A thread that does not wait in `close` moves, and so does `active_`. -/
theorem Flight.goto (h : Flight s) (ht : t ∈ s.threads) (hgone : s.pc t ≠ .gone) (pc : Pc V S)
    (hslot : ∀ fd v, inFlight pc = some (fd, v) →
      s.fdtable_ (s.thgrp_ t) fd = some v ∧ fd < MAX_FD)
    (hnot : ∀ fd, pc ≠ .closing fd) (active_ : V → ℤ)
    (hactive : ∀ v, active_ v = flights (s.goto t pc) v) :
    Flight { s.goto t pc with active_ := active_ } := by
  refine ⟨fun u hu hgone' => ?_, fun u hu fd v hv => ?_, fun u hu fd hfd => ?_,
    fun u hu x hx fd hux hxx => ?_, hactive⟩
  · by_cases hut : u = t
    · rw [hut]
      exact h.group t ht hgone
    · exact h.group u hu (by simpa [State.goto, hut] using hgone')
  · by_cases hut : u = t
    · subst hut
      exact hslot fd v (by simpa [State.goto] using hv)
    · exact h.slot u hu fd v (by simpa [State.goto, hut] using hv)
  · by_cases hut : u = t
    · subst hut
      exact absurd (by simpa [State.goto] using hfd) (hnot fd)
    · exact h.closing u hu fd (by simpa [State.goto, hut] using hfd)
  · have hut : u ≠ t := by
      rintro rfl
      exact absurd (by simpa [State.goto] using hux) (hnot fd)
    have hxt : x ≠ t := by
      rintro rfl
      exact absurd (by simpa [State.goto] using hxx) (hnot fd)
    exact h.closer u hu x hx fd (by simpa [State.goto, hut] using hux)
      (by simpa [State.goto, hxt] using hxx)

/-! ## The steps -/

/-- **What holds in every state of an orderly run.** -/
structure Inv (s : State V G T S) : Prop where
  held : Held s
  flight : Flight s

/-- The first section increments `active_` of the vnode of the descriptor. -/
theorem Inv.io (h : Inv s) (ht : t ∈ s.threads) (hpc : s.pc t = .user) (op : Io) (valid : Bool) :
    Inv (s.io (s.thgrp_ t) t op fd valid) := by
  unfold State.io
  split
  · exact h
  · next hlt =>
    split
    · exact h
    · next v hv =>
      split
      · refine ⟨h.held.congr rfl rfl rfl rfl, h.flight.goto ht (by rw [hpc]; simp) (.io fd v)
          (fun fd' v' he => ?_) (by simp) _ fun u => ?_⟩
        · cases he
          exact ⟨hv, not_le.mp hlt⟩
        · have hcount := flights_goto ht (.io fd v) u
          have hactive := h.flight.active u
          rw [hpc] at hcount
          by_cases huv : u = v
          · subst huv
            simp [inFlight] at hcount
            rw [Function.update_self, hcount, hactive]
            push_cast
            rfl
          · simp [inFlight, Ne.symm huv] at hcount
            rw [Function.update_of_ne huv, hcount, hactive]
      · exact h

/-- The operation finds the vnode. -/
theorem Inv.ioRun (h : Inv s) (ht : t ∈ s.threads) (hpc : s.pc t = .io fd v)
    (hs : s.ioRun (s.thgrp_ t) t fd v = some s') : Inv s' := by
  unfold State.ioRun at hs
  split at hs
  · cases hs
  · cases hs
    refine ⟨h.held.congr rfl rfl rfl rfl, h.flight.goto ht (by rw [hpc]; simp) (.ioDone fd v)
      (fun fd' v' he => ?_) (by simp) s.active_ fun u => ?_⟩
    · cases he
      exact h.flight.slot t ht fd v (by rw [hpc]; rfl)
    · have hcount := flights_goto ht (.ioDone fd v) u
      have hsame : inFlight (s.pc t) = inFlight (.ioDone fd v : Pc V S) := by
        rw [hpc]
        rfl
      rw [hsame] at hcount
      have hactive := h.flight.active u
      omega

/-- The last section decrements `active_` of the vnode that the first one has incremented. -/
theorem Inv.ioEnd (h : Inv s) (ht : t ∈ s.threads) (hpc : s.pc t = .ioDone fd v)
    (hs : s.ioEnd (s.thgrp_ t) t fd = some s') : Inv s' := by
  have hv := (h.flight.slot t ht fd v (by rw [hpc]; rfl)).1
  unfold State.ioEnd at hs
  rw [hv] at hs
  cases hs
  refine ⟨h.held.congr rfl rfl rfl rfl, h.flight.goto ht (by rw [hpc]; simp) .user (by simp [inFlight])
    (by simp) _ fun u => ?_⟩
  have hcount := flights_goto ht .user u
  have hactive := h.flight.active u
  rw [hpc] at hcount
  by_cases huv : u = v
  · subst huv
    simp [inFlight] at hcount
    rw [Function.update_self, hactive]
    omega
  · simp [inFlight, Ne.symm huv] at hcount
    rw [Function.update_of_ne huv, hcount, hactive]

/-- Nobody looks again at a descriptor that is idle and that nobody closes. -/
theorem Idle.keep (h : Idle s g fd) (hu : u ∈ s.threads) (hclose : s.pc u ≠ .closing fd) {i : ℕ}
    (huse : inUse (s.pc u) = some i) (hgrp : s.thgrp_ u = g) : i ≠ fd := by
  rintro rfl
  have hfly := h u hu hgrp
  cases hpc : s.pc u <;> rw [hpc] at huse hfly hclose <;> cases huse
  · exact hfly _ rfl rfl
  · exact hfly _ rfl rfl
  · exact hclose rfl

/-- Nobody waits to close a descriptor whose vnode has references. -/
theorem Flight.not_closing (h : Flight s) (hv : s.fdtable_ g fd = some v) (href : 0 < s.refcount_ v)
    (hu : u ∈ s.threads) (hgrp : s.thgrp_ u = g) : s.pc u ≠ .closing fd := fun hclosing => by
  obtain ⟨-, w, hw, hzero⟩ := h.closing u hu fd hclosing
  rw [hgrp, hv] at hw
  cases hw
  omega

/-- Nothing is in flight on a descriptor of a vnode whose `active_` is zero. -/
theorem Flight.idle (h : Flight s) (hv : s.fdtable_ g fd = some v) (hactive : s.active_ v = 0) :
    Idle s g fd := by
  rintro u hu rfl ⟨fd', v'⟩ hp rfl
  have hslot := (h.slot u hu fd' v' hp).1
  have hsame : v = v' := Option.some.inj (hv.symm.trans hslot)
  have hzero : flights s v = 0 := by
    have := h.active v
    omega
  refine absurd ?_ (Finset.filter_eq_empty_iff.mp (Finset.card_eq_zero.mp hzero) hu)
  rw [hp, hsame]
  rfl

/-- A table changes at one descriptor. -/
theorem setSlot_of_ne (s : State V G T S) {g p : G} {fd i : ℕ} (o : Option V)
    (h : p = g → i ≠ fd) : (s.setSlot g fd o).fdtable_ p i = s.fdtable_ p i := by
  by_cases hp : p = g
  · subst hp
    simp [State.setSlot, h rfl]
  · simp [State.setSlot, hp]

/-- A descriptor without operations in flight is closed. -/
theorem Inv.dropped (h : Inv s) (hg : g ∈ s.groups) (hfd : fd < MAX_FD)
    (hv : s.fdtable_ g fd = some v) (href : 0 < s.refcount_ v) (hidle : Idle s g fd)
    (hd : Dropped s s' v) : Inv (s'.setSlot g fd none) := by
  obtain ⟨hfdt, hgroups, hthreads, hthgrp, hpc, -, -, hactive⟩ := hd.same
  refine ⟨h.held.dropped hg hfd hv href hd, h.flight.table hpc hactive hthreads hthgrp hgroups
    (fun u hu fd' huse => ?_) fun w hw => ?_⟩
  · have hkeep : s.thgrp_ u = g → fd' ≠ fd := fun hgrp =>
      hidle.keep hu (h.flight.not_closing hv href hu hgrp) huse hgrp
    rw [setSlot_of_ne _ _ hkeep, hfdt]
  · show s'.refcount_ w = 0
    rw [hd.refcount, Function.update_of_ne (by rintro rfl; omega)]
    exact hw

/-- `close` gives up the last reference: the descriptor stays until nothing is in flight. -/
theorem Inv.wait (h : Inv s) (ht : t ∈ s.threads) (hpc : s.pc t = .user) (hfd : fd < MAX_FD)
    (hv : s.fdtable_ (s.thgrp_ t) fd = some v) (hlast : s.refcount_ v = 1) :
    Inv (State.goto { s with refcount_ := Function.update s.refcount_ v 0 } t (.closing fd)) := by
  have hzero : s.refcount_ v - 1 = 0 := by omega
  have hheld := h.held.wait hlast
  rw [hzero] at hheld
  have hkeep : ∀ w, s.refcount_ w = 0 → Function.update s.refcount_ v 0 w = 0 := fun w hw => by
    by_cases hwv : w = v
    · rw [hwv, Function.update_self]
    · rw [Function.update_of_ne hwv]
      exact hw
  -- another thread that closes the descriptor has given up the last reference before
  have hother : ∀ u ∈ s.threads, s.pc u = .closing fd → s.thgrp_ u ≠ s.thgrp_ t :=
    fun u hu hclosing hgrp => by
      obtain ⟨-, w, hw, href⟩ := h.flight.closing u hu fd hclosing
      rw [hgrp, hv] at hw
      cases hw
      omega
  refine ⟨hheld.congr rfl rfl rfl rfl, fun u hu hgone => ?_, fun u hu fd' v' hv' => ?_,
    fun u hu fd' hclosing => ?_, fun u hu x hx fd' huc hxc hgrp => ?_, fun u => ?_⟩
  · by_cases hut : u = t
    · rw [hut]
      exact h.flight.group t ht (by rw [hpc]; simp)
    · exact h.flight.group u hu (by simpa [State.goto, hut] using hgone)
  · by_cases hut : u = t
    · simp [State.goto, hut, inFlight] at hv'
    · exact h.flight.slot u hu fd' v' (by simpa [State.goto, hut] using hv')
  · by_cases hut : u = t
    · subst hut
      have hfd' : fd = fd' := by simpa [State.goto] using hclosing
      subst hfd'
      exact ⟨hfd, v, hv, Function.update_self ..⟩
    · obtain ⟨hlt, w, hw, href⟩ :=
        h.flight.closing u hu fd' (by simpa [State.goto, hut] using hclosing)
      exact ⟨hlt, w, hw, hkeep w href⟩
  · have hgrp : s.thgrp_ u = s.thgrp_ x := hgrp
    by_cases hut : u = t <;> by_cases hxt : x = t
    · rw [hut, hxt]
    · subst hut
      have hfd' : fd = fd' := by simpa [State.goto] using huc
      subst hfd'
      exact absurd hgrp.symm (hother x hx (by simpa [State.goto, hxt] using hxc))
    · subst hxt
      have hfd' : fd = fd' := by simpa [State.goto] using hxc
      subst hfd'
      exact absurd hgrp (hother u hu (by simpa [State.goto, hut] using huc))
    · exact h.flight.closer u hu x hx fd' (by simpa [State.goto, hut] using huc)
        (by simpa [State.goto, hxt] using hxc) hgrp
  · have hcount := flights_goto ht (.closing fd) u
    have hactive := h.flight.active u
    rw [hpc] at hcount
    simp only [inFlight, Option.map_none, reduceCtorEq, if_false, Nat.add_zero] at hcount
    rw [← hcount] at hactive
    exact hactive

theorem Inv.close (h : Inv s) (ht : t ∈ s.threads) (hpc : s.pc t = .user)
    (hmay : fd < MAX_FD → MayClose s (s.thgrp_ t) fd)
    (hs : s.close (s.thgrp_ t) t fd = some s') : Inv s' := by
  have hgone : s.pc t ≠ .gone := by
    rw [hpc]
    simp
  have hg := h.flight.group t ht hgone
  rcases close_cases hs with rfl | ⟨hlt, v, hv, hpos, ⟨hlast, hactive, rfl⟩ | ⟨hwait, s₁, hd, rfl⟩⟩
  · exact h
  · exact h.wait ht hpc hlt hv hlast
  · refine h.dropped hg hlt hv hpos ?_ hd
    by_cases hlast : s.refcount_ v = 1
    · exact h.flight.idle hv (hwait hlast)
    · exact hmay hlt v hv hlast

/-- `close` comes back when nothing is in flight, and deletes the vnode. -/
theorem Inv.closeWoken (h : Inv s) (ht : t ∈ s.threads) (hpc : s.pc t = .closing fd)
    (hs : s.closeWoken (s.thgrp_ t) t fd = some s') : Inv s' := by
  have hgone : s.pc t ≠ .gone := by
    rw [hpc]
    simp
  have hg := h.flight.group t ht hgone
  obtain ⟨hlt, v, hv, href⟩ := h.flight.closing t ht fd hpc
  unfold State.closeWoken at hs
  rw [hv] at hs
  dsimp only at hs
  split at hs
  · cases hs
  next hactive =>
  cases hs
  have hidle := h.flight.idle hv (not_not.mp hactive)
  refine ⟨(h.held.woken hg hlt hv href).congr rfl rfl rfl rfl, ?_⟩
  have hmoved := h.flight.goto ht hgone .user (by simp [inFlight]) (by simp) s.active_ fun u => by
      have hcount := flights_goto ht .user u
      have hactive := h.flight.active u
      rw [hpc] at hcount
      simp only [inFlight, Option.map_none, reduceCtorEq, if_false, Nat.add_zero] at hcount
      rw [hcount]
      exact hactive
  refine hmoved.table rfl rfl rfl rfl rfl (fun u hu fd' huse => ?_) fun _ hw => hw
  have hut : u ≠ t := by
    rintro rfl
    simp [State.goto, inUse] at huse
  have huse : inUse (s.pc u) = some fd' := by simpa [State.goto, hut] using huse
  have hkeep : s.thgrp_ u = s.thgrp_ t → fd' ≠ fd := fun hgrp =>
    hidle.keep hu (fun hclosing => hut (h.flight.closer u hu t ht fd hclosing hpc hgrp)) huse hgrp
  exact setSlot_of_ne s none hkeep

/-- What `dup2` leaves in the descriptor. -/
theorem dup2_store (h : Inv s) (hg : g ∈ s.groups) (hfd : fd < MAX_FD)
    (hfree : s.fdtable_ g fd = none) (hv : s.alive v = true) (href : 0 < s.refcount_ v) :
    Inv ((s.setSlot g fd (some v)).incr v) := by
  refine ⟨h.held.store hg hfd hfree hv href, h.flight.table rfl rfl rfl rfl rfl
    (fun u hu fd' huse => setSlot_of_ne s _ ?_) fun w hw => ?_⟩
  · rintro rfl rfl
    cases hpc : s.pc u <;> rw [hpc] at huse <;> cases huse
    · have := (h.flight.slot u hu fd' _ (by rw [hpc]; rfl)).1
      rw [hfree] at this
      cases this
    · have := (h.flight.slot u hu fd' _ (by rw [hpc]; rfl)).1
      rw [hfree] at this
      cases this
    · obtain ⟨-, w, hw, -⟩ := h.flight.closing u hu fd' hpc
      rw [hfree] at hw
      cases hw
  · show Function.update s.refcount_ v _ w = 0
    rw [Function.update_of_ne (by rintro rfl; omega)]
    exact hw

/-- `dup2` of a vnode to another descriptor that points to it changes nothing. -/
theorem dup2_same (h : Inv s) (hg : g ∈ s.groups) {oldfd newfd : ℕ} (hlt : oldfd < MAX_FD)
    (hlt' : newfd < MAX_FD) (hne : oldfd ≠ newfd) (hold : s.fdtable_ g oldfd = some v)
    (hnew : s.fdtable_ g newfd = some v) (href : 0 < s.refcount_ v) (hd : Dropped s s' v) :
    Inv ((s'.setSlot g newfd (some v)).incr v) := by
  obtain ⟨hfdt, hgroups, hthreads, hthgrp, hpc, -, -, hactive⟩ := hd.same
  have htwo : 1 < s.slots v := by
    have hcleared := slots_cleared hg hlt' hnew v
    have hpos : 0 < (s.setSlot g newfd none).slots v :=
      slots_pos (s := s.setSlot g newfd none) hg hlt (by simpa [State.setSlot, hne] using hold)
    rw [if_pos rfl] at hcleared
    omega
  have hle := h.held.slots_le href
  have hfdt' : ((s'.setSlot g newfd (some v)).incr v).fdtable_ = s.fdtable_ := by
    simp [State.incr, State.setSlot, hfdt, ← hnew]
  have href' : ((s'.setSlot g newfd (some v)).incr v).refcount_ = s.refcount_ := by
    simp [State.incr, State.setSlot, hd.refcount]
  have halive : s'.alive = s.alive := by
    rw [hd.alive, if_neg (by omega)]
  refine ⟨h.held.congr halive href' hgroups hfdt', h.flight.table hpc hactive hthreads hthgrp hgroups
    (fun u _ i _ => by rw [hfdt']) fun w hw => by rw [href']; exact hw⟩

theorem Inv.dup2 (h : Inv s) (hg : g ∈ s.groups) {oldfd newfd : ℕ}
    (hmay : oldfd < MAX_FD → newfd < MAX_FD → oldfd ≠ newfd → MayDup2 s g oldfd newfd)
    (hs : s.dup2 g oldfd newfd = some s') : Inv s' := by
  unfold State.dup2 at hs
  split at hs
  · cases hs
    exact h
  next hlt =>
  rw [not_or, not_le, not_le] at hlt
  split at hs
  · cases hs
    exact h
  next v hold =>
  split at hs
  · cases hs
    exact h
  next hne =>
  obtain ⟨href, hreplaced⟩ := hmay hlt.1 hlt.2 hne v hold
  have halive := h.held.alive v (slots_pos hg hlt.1 hold)
  obtain ⟨s₁, hclosed, rfl⟩ := Option.map_eq_some_iff.mp hs
  split at hclosed
  · next w hnew =>
    have hw : 0 < s.refcount_ w := by
      by_contra hzero
      unfold State.drop State.vclose at hclosed
      rw [if_neg hzero] at hclosed
      cases hclosed
    obtain ⟨s₂, hs₂, hd⟩ := exists_drop hw
    obtain rfl : s₂ = s₁ := Option.some.inj (hs₂.symm.trans hclosed)
    by_cases hwv : w = v
    · subst hwv
      exact dup2_same h hg hlt.1 hlt.2 hne hold hnew hw hd
    · have hdropped := h.dropped hg hlt.2 hnew hw (hreplaced w hnew hwv) hd
      have hg' : g ∈ (s₂.setSlot g newfd none).groups := by
        rw [show (s₂.setSlot g newfd none).groups = s₂.groups from rfl, hd.same.2.1]
        exact hg
      have hold' : (s₂.setSlot g newfd none).fdtable_ g oldfd = some v := by
        simpa [State.setSlot, hne, hd.same.1] using hold
      have halive' := hdropped.held.alive v (slots_pos hg' hlt.1 hold')
      have href' : 0 < (s₂.setSlot g newfd none).refcount_ v := by
        show 0 < s₂.refcount_ v
        rw [hd.refcount, Function.update_of_ne (Ne.symm hwv)]
        exact href
      have hstored := dup2_store hdropped hg' hlt.2 (by simp [State.setSlot]) halive' href'
      rw [setSlot_setSlot] at hstored
      exact hstored
  · next hnew =>
    cases hclosed
    exact dup2_store h hg hlt.2 hnew halive href

theorem Inv.step (h : Inv s) {a : Act V G T S} (hok : Orderly s a)
    (hs : step console s a = some s') : Inv s' := by
  obtain ⟨htable, hs⟩ := Option.ite_none_right_eq_some.mp hs
  obtain ⟨ht, hs⟩ := Option.ite_none_right_eq_some.mp hs
  cases a with
  | io t op fd valid =>
    obtain ⟨hu, hs⟩ := Option.ite_none_right_eq_some.mp hs
    cases hs
    exact h.io ht hu op valid
  | ioRun t =>
    dsimp only [State.stepIn, Act.thread] at hs
    split at hs
    · next fd v hpc => exact h.ioRun ht hpc hs
    · cases hs
  | ioEnd t =>
    dsimp only [State.stepIn, Act.thread] at hs
    split at hs
    · next fd v hpc => exact h.ioEnd ht hpc hs
    · cases hs
  | close t fd =>
    obtain ⟨hu, hs⟩ := Option.ite_none_right_eq_some.mp hs
    exact h.close ht hu hok hs
  | closeWoken t =>
    dsimp only [State.stepIn, Act.thread] at hs
    split at hs
    · next fd hpc => exact h.closeWoken ht hpc hs
    · cases hs
  | dup2 t oldfd newfd =>
    obtain ⟨hu, hs⟩ := Option.ite_none_right_eq_some.mp hs
    exact h.dup2 (h.flight.group t ht (by rw [hu]; simp)) hok hs
  | open_ | pipe | fork | forkFail | clone | exit | exitFd | bind | connect | disconnect | sendfd |
    send | timeout | receivefd | receive | die => exact htable.elim

theorem inv_quiet (h : Quiet console s) : Inv s := by
  have hnone : ∀ t ∈ s.threads, inFlight (s.pc t) = none ∧ ∀ fd, s.pc t ≠ .closing fd :=
    fun t ht => by
      rcases h.pc t ht with hpc | hpc <;> rw [hpc] <;> exact ⟨rfl, by simp⟩
  refine ⟨⟨fun v hv => ?_, fun v hv => ?_⟩, fun t ht hgone => ?_, fun t ht fd v hv => ?_,
    fun t ht fd hfd => absurd hfd ((hnone t ht).2 fd),
    fun t ht _ _ fd hfd _ _ => absurd hfd ((hnone t ht).2 fd), fun v => ?_⟩
  · obtain ⟨g, hg, fd, hfd, hpoints⟩ := exists_of_slots_pos hv
    exact h.counts.points hg hfd hpoints
  · left
    by_cases hc : v = console
    · rw [hc]
      exact h.counts.console.2.le
    · rw [h.counts.count v hc ((h.counts.alive v hc).mpr hv)]
  · exact h.group t ht ((h.pc t ht).resolve_right hgone)
  · rw [(hnone t ht).1] at hv
    cases hv
  · have hzero : flights s v = 0 :=
      Finset.card_eq_zero.mpr (Finset.filter_eq_empty_iff.mpr fun t ht => by simp [(hnone t ht).1])
    rw [h.active, hzero]
    rfl

theorem Inv.inFlightOk (h : Inv s) : InFlightOk s := by
  have halive : ∀ t ∈ s.threads, ∀ fd v, inFlight (s.pc t) = some (fd, v) → s.alive v = true :=
    fun t ht fd v hv => by
      obtain ⟨hslot, hlt⟩ := h.flight.slot t ht fd v hv
      have hgone : s.pc t ≠ .gone := fun hgone => by
        rw [hgone] at hv
        cases hv
      exact h.held.alive v (slots_pos (h.flight.group t ht hgone) hlt hslot)
  refine ⟨fun t ht fd v hv => ⟨(h.flight.slot t ht fd v hv).1, halive t ht fd v hv, ?_⟩,
    fun v hv => ?_⟩
  · rw [h.flight.active v]
    refine Int.natCast_pos.mpr (Finset.card_pos.mpr ⟨t, Finset.mem_filter.mpr ⟨ht, ?_⟩⟩)
    rw [hv]
    rfl
  · rw [h.flight.active v] at hv
    obtain ⟨t, hmem⟩ := Finset.card_pos.mp (Int.natCast_pos.mp hv)
    obtain ⟨ht, hv⟩ := Finset.mem_filter.mp hmem
    obtain ⟨⟨fd, v'⟩, hfly, rfl⟩ := Option.map_eq_some_iff.mp hv
    exact halive t ht fd v' hfly

/--
**As long as no `close` and no `dup2` takes away a descriptor with an operation in flight, an operation
finds the vnode whose `active_` it has incremented, and no vnode is deleted while `active_` is
positive.**
-/
theorem inFlight_ok
    (h : Reach (Quiet console) (fun s a s' => step console s a = some s') Orderly s) :
    InFlightOk s :=
  (h.invariant (P := Inv) (fun _ => inv_quiet) fun _ _ _ hi hok hs => hi.step hok hs).inFlightOk

attribute [local instance] Lib.neZero_one Lib.neZero_two

/-- A group with two threads, and vnode 1 as descriptors 3 and 5. -/
def shared : State (Fin 2) (Fin 1) (Fin 2) (Fin 1) where
  alive _ := true
  refcount_ v := if v = 0 then 4 else 2
  active_ _ := 0
  groups := {0}
  fdtable_ _ fd := if fd < 3 then some 0 else if fd = 3 ∨ fd = 5 then some 1 else none
  stale_ _ := none
  threads := {0, 1}
  thgrp_ _ := 0
  pc _ := .user
  server_ _ := none
  client_ _ := none
  fd_ _ := 0
  received_ _ := true

theorem shared_quiet : Quiet (0 : Fin 2) shared where
  counts := ⟨by decide, by decide, by decide⟩
  pc := by decide
  group := by decide
  active _ := rfl

/-- While a thread writes to descriptor 3, the other one closes both descriptors, and waits. -/
def waitRun : List (Act (Fin 2) (Fin 1) (Fin 2) (Fin 1)) :=
  [.io 0 .write 3 true, .close 1 5, .dup2 1 0 5, .close 1 3, .ioRun 0]

theorem inFlight_ok_waitRun :
    ∃ s, exec (step 0) (fun s a => decide (Orderly s a)) shared waitRun = some s ∧ InFlightOk s ∧
      s.pc 0 = .ioDone 3 1 ∧ s.pc 1 = .closing 3 ∧ s.active_ 1 = 1 ∧ s.refcount_ 1 = 0 := by
  have hend : (exec (step 0) (fun s a => decide (Orderly s a)) shared waitRun).map
      (fun s => (s.pc 0, s.pc 1, s.active_ 1, s.refcount_ 1)) =
        some (.ioDone 3 1, .closing 3, 1, 0) := by
    decide +kernel
  obtain ⟨s, hrun, hs⟩ := Option.map_eq_some_iff.mp hend
  simp only [Prod.mk.injEq] at hs
  have hreach : Reach (Quiet 0) (fun s a s' => step 0 s a = some s') Orderly s :=
    Reach.exec (fun s a (hok : decide (Orderly s a) = true) => of_decide_eq_true hok)
      (.init shared_quiet) hrun
  exact ⟨s, hrun, inFlight_ok hreach, hs⟩

/-- One thread reads from descriptor 3, and the other one closes it; vnode 1 is open as descriptor 5. -/
def closeRun : List (Act (Fin 2) (Fin 1) (Fin 2) (Fin 1)) :=
  [.io 0 .read 3 true, .close 1 3]

/-- The operation is called through a null pointer. -/
theorem closed_in_flight :
    ∃ s : State (Fin 2) (Fin 1) (Fin 2) (Fin 1),
      Reach (Quiet 0) (fun s a s' => step 0 s a = some s') (fun _ _ => True) s ∧
      s.pc 0 = .io 3 1 ∧ s.fdtable_ 0 3 = none ∧ s.active_ 1 = 1 ∧ ¬ InFlightOk s := by
  have hend : (exec (step 0) (fun _ _ => true) shared closeRun).map
      (fun s => (s.pc 0, s.fdtable_ 0 3, s.active_ 1, s.thgrp_ 0, decide (0 ∈ s.threads))) =
        some (.io 3 1, none, 1, 0, true) := by
    decide +kernel
  obtain ⟨s, hrun, hs⟩ := Option.map_eq_some_iff.mp hend
  simp only [Prod.mk.injEq, decide_eq_true_eq] at hs
  obtain ⟨hpc, hslot, hactive, hgrp, ht⟩ := hs
  refine ⟨s, Reach.exec (fun _ _ _ => trivial) (.init shared_quiet) hrun, hpc, hslot, hactive,
    fun hok => ?_⟩
  have hpoints := (hok.slot 0 ht 3 1 (by rw [hpc]; rfl)).1
  rw [hgrp, hslot] at hpoints
  cases hpoints

end Chickadee.Fd.InFlight
