import Chickadee.Lib.Run
import Mathlib.Data.Int.Notation
import Mathlib.Data.List.Nodup
import Mathlib.Logic.Function.Basic

/-!
# Thread-group exit: `syscall_exit`, `syscall_texit` and `cpustate::schedule`

The threads of one group leave it in three ways: `syscall_texit` moves the caller from `th_` to `z_`
and leaves `nth_` to the scheduler; `syscall_exit` signals the other threads and waits on `wq_` until
it is the last one; a signalled thread is marked `ps_exiting` by the scheduler and taken off `th_` by
the waiting one. Whoever is last cleans up.

A step is one section under `thgrp_lock_`, one section under `ptable_lock`, or one entry of the
scheduler. `cleaned` logs the parts of the cleanup as they run.
-/

namespace Chickadee.Thgrp

/-- `proc::pstate_t` -/
inductive Pstate | ps_blank | ps_runnable | ps_blocked | ps_transition | ps_exiting
deriving DecidableEq

/-- Where a thread is. -/
inductive Pc
  /-- in user mode, or in a system call that does not leave the group -/
  | user
  /-- in `syscall_texit`, before its call of `syscall_exit` -/
  | exit
  /-- in `block_until` of `syscall_exit` -/
  | wait
  /-- in `syscall_exit`, before it closes the descriptors -/
  | fds
  /-- in `syscall_exit`, before it takes `ptable_lock` -/
  | memory
  /-- in `syscall_exit`, after it has released `ptable_lock` -/
  | status
  /-- at its last `yield_noreturn` -/
  | gone
deriving DecidableEq

/-- The parts of the cleanup. -/
inductive Part | fds | pagetable | children | status
deriving DecidableEq

/-- The cleanup, in the order of `syscall_exit`. -/
def cleanup : List Part := [.fds, .pagetable, .children, .status]

/--
The group of threads `T`, its open vnodes `V` and its child groups `G`. `reg_rdi` is the argument of
the system call a thread is in; `initChildren` are the children of init's group; `pagetable_` is false
when the page table has been freed.
-/
structure State (T V G : Type) where
  th_ : List T
  z_ : List T
  nth_ : ℤ
  wq_ : List T
  fdtable_ : ℕ → Option V
  pagetable_ : Bool
  children_ : List G
  initChildren : List G
  retval_ : ℕ
  pstate_ : T → Pstate
  exit_signal_ : T → Bool
  retval : T → ℕ
  reg_rdi : T → ℕ
  pc : T → Pc
  cleaned : List Part

/-- The steps. -/
inductive Act (T : Type)
  /-- `t` calls `syscall_exit(status)`: up to the end of the first test -/
  | exit (t : T) (status : ℕ)
  /-- `t`, the last thread in `syscall_texit`, calls `syscall_exit` -/
  | texit_exit (t : T)
  /-- `t` calls `syscall_texit(status)` -/
  | texit (t : T) (status : ℕ)
  /-- `t` comes back from `block()` in `syscall_exit` and tests again -/
  | retest (t : T)
  | closeFds (t : T)
  | freeMemory (t : T)
  | finish (t : T)
  /-- the CPU of `t` enters `schedule` -/
  | schedule (t : T)
  /-- `t` blocks in another system call, on `wq_` if `onWq` -/
  | sleep (t : T) (onWq : Bool)
  /-- `t`, blocked in another system call, is woken -/
  | awake (t : T)
  /-- `t` ends a read or a write, which wakes `wq_` -/
  | ioEnd (t : T)
deriving DecidableEq

variable {T V G : Type} [DecidableEq T]

namespace State

/-- `wait_queue::wake_all` on `wq_` -/
def wake_all (s : State T V G) : State T V G :=
  { s with
    pstate_ := fun t => if t ∈ s.wq_ ∧ s.pstate_ t = .ps_blocked then .ps_runnable else s.pstate_ t
    wq_ := [] }

/-- `waiter::prepare` -/
def prepare (s : State T V G) (t : T) : State T V G :=
  { s with pstate_ := Function.update s.pstate_ t .ps_blocked, wq_ := s.wq_ ++ [t] }

/-- `waiter::clear` -/
def clear (s : State T V G) (t : T) : State T V G :=
  { s with
    pstate_ := if s.pstate_ t = .ps_blocked then Function.update s.pstate_ t .ps_runnable
      else s.pstate_
    wq_ := s.wq_.erase t }

/-- The loop of the predicate: exiting threads move from `th_` to `z_`. -/
def reap (s : State T V G) : State T V G :=
  { s with
    nth_ := s.nth_ - s.th_.countP (fun u => s.pstate_ u = .ps_exiting)
    th_ := s.th_.filter fun u => s.pstate_ u ≠ .ps_exiting
    z_ := s.z_ ++ s.th_.filter fun u => s.pstate_ u = .ps_exiting }

/-- The first part of `syscall_exit`: the others are signalled and `wq_` is woken. -/
def deathcall (s : State T V G) (t : T) : State T V G :=
  wake_all { s with
    exit_signal_ := fun u => if u ∈ s.th_ ∧ u ≠ t then true else s.exit_signal_ u }

/-- A turn of the loop of `block_until` in `syscall_exit`. `none`: the assertion fails. -/
def test (s : State T V G) (t : T) : Option (State T V G) :=
  let s := s.prepare t
  if s.nth_ < 1 then none
  else
    let s := s.reap
    if s.nth_ = 1 ∨ s.exit_signal_ t then
      let s := s.clear t
      some { s with pc := Function.update s.pc t (if s.exit_signal_ t then .gone else .fds) }
    else some { s with pc := Function.update s.pc t .wait }

/-- The descriptors are closed, without a lock. -/
def closeFds (s : State T V G) (t : T) : State T V G :=
  { s with
    fdtable_ := fun _ => none
    cleaned := s.cleaned ++ [.fds]
    pc := Function.update s.pc t .memory }

/-- The section under `ptable_lock`: memory is freed and the children go to init. -/
def freeMemory (s : State T V G) (t : T) : State T V G :=
  { s with
    pagetable_ := false
    initChildren := s.initChildren ++ s.children_
    children_ := []
    cleaned := s.cleaned ++ [.pagetable, .children]
    pc := Function.update s.pc t .status }

/-- The end of `syscall_exit`. `none`: an assertion fails. -/
def finish (s : State T V G) (t : T) : Option (State T V G) :=
  if t ∈ s.th_ ∧ t ∉ s.z_ ∧ s.th_.erase t = [] ∧ s.nth_ = 1 then
    some { s with
      pstate_ := Function.update s.pstate_ t .ps_transition
      th_ := s.th_.erase t
      z_ := s.z_ ++ [t]
      retval_ := s.reg_rdi t
      retval := Function.update s.retval t (s.reg_rdi t)
      cleaned := s.cleaned ++ [.status]
      pc := Function.update s.pc t .gone }
  else none

/-- `syscall_texit`. `none`: an assertion fails. -/
def texit (s : State T V G) (t : T) (status : ℕ) : Option (State T V G) :=
  let s := { s with
    reg_rdi := Function.update s.reg_rdi t status
    retval := Function.update s.retval t status }
  if s.nth_ = 1 then some { s with pc := Function.update s.pc t .exit }
  else if t ∈ s.th_ ∧ t ∉ s.z_ then
    some { s with
      pstate_ := Function.update s.pstate_ t .ps_transition
      th_ := s.th_.erase t
      z_ := s.z_ ++ [t]
      pc := Function.update s.pc t .gone }
  else none

/-- `schedule`: the kill switch of a signalled thread. -/
def kill (s : State T V G) (t : T) : State T V G :=
  if s.exit_signal_ t = true ∧ s.pstate_ t = .ps_runnable then
    wake_all { s with
      pstate_ := Function.update s.pstate_ t .ps_exiting
      exit_signal_ := Function.update s.exit_signal_ t false
      pc := Function.update s.pc t .gone }
  else s

/-- `schedule`: a thread in transition is done. This wakes the group's parent, not `wq_`. -/
def retire (s : State T V G) (t : T) : State T V G :=
  if s.pstate_ t = .ps_transition then
    { s with nth_ := s.nth_ - 1, pstate_ := Function.update s.pstate_ t .ps_blank }
  else s

/-- One step. -/
def step (s : State T V G) : Act T → Option (State T V G)
  | .exit t status =>
    if s.pc t = .user ∧ s.pstate_ t = .ps_runnable then
      (deathcall { s with reg_rdi := Function.update s.reg_rdi t status } t).test t
    else none
  | .texit_exit t =>
    if s.pc t = .exit ∧ s.pstate_ t = .ps_runnable then (s.deathcall t).test t else none
  | .texit t status =>
    if s.pc t = .user ∧ s.pstate_ t = .ps_runnable then s.texit t status else none
  | .retest t =>
    if s.pc t = .wait ∧ s.pstate_ t = .ps_runnable then (s.clear t).test t else none
  | .closeFds t =>
    if s.pc t = .fds ∧ s.pstate_ t = .ps_runnable then some (s.closeFds t) else none
  | .freeMemory t =>
    if s.pc t = .memory ∧ s.pstate_ t = .ps_runnable then some (s.freeMemory t) else none
  | .finish t =>
    if s.pc t = .status ∧ s.pstate_ t = .ps_runnable then s.finish t else none
  | .schedule t => some ((s.kill t).retire t)
  | .sleep t onWq =>
    if s.pc t = .user ∧ s.pstate_ t = .ps_runnable then
      some { s with
        pstate_ := Function.update s.pstate_ t .ps_blocked
        wq_ := if onWq then s.wq_ ++ [t] else s.wq_ }
    else none
  | .awake t => if s.pc t = .user ∧ s.pstate_ t = .ps_blocked then some (s.clear t) else none
  | .ioEnd t => if s.pc t = .user ∧ s.pstate_ t = .ps_runnable then some s.wake_all else none

end State

/-- A group of running threads that no one has left yet. -/
structure Init (s : State T V G) : Prop where
  th : s.th_ ≠ []
  nodup : s.th_.Nodup
  z : s.z_ = []
  nth : s.nth_ = s.th_.length
  wq : s.wq_ = []
  running : ∀ t ∈ s.th_, s.pc t = .user ∧ s.pstate_ t = .ps_runnable
  others : ∀ t ∉ s.th_, s.pc t = .gone ∧ s.pstate_ t = .ps_blank
  signal : ∀ t, s.exit_signal_ t = false
  cleaned : s.cleaned = []

/-! ## The claim on a state -/

/-- The whole cleanup has run, and this is what is left. -/
structure Cleaned (s : State T V G) : Prop where
  cleaned : s.cleaned = cleanup
  fdtable : ∀ fd, s.fdtable_ fd = none
  pagetable : s.pagetable_ = false
  children : s.children_ = []
  status : ∃ t ∈ s.z_, s.retval_ = s.retval t

/-- A thread is dead or dying: it is leaving the group, or it will have to. -/
def Dying (s : State T V G) (t : T) : Prop := s.pc t ≠ .user ∨ s.exit_signal_ t = true

/--
The cleanup is about to run: some thread that no one has told to die is runnable in `syscall_exit`
or on its way to it, or waits there on `wq_` for a signalled thread, whose death will wake it.
-/
def AboutToClean (s : State T V G) : Prop :=
  ∃ t, s.exit_signal_ t = false ∧
    (s.pstate_ t = .ps_runnable ∧ s.pc t ∈ [.exit, .wait, .fds, .memory, .status] ∨
      s.pc t = .wait ∧ t ∈ s.wq_ ∧
        ∃ u ∈ s.th_, u ≠ t ∧ s.exit_signal_ u = true ∧ s.pstate_ u ≠ .ps_exiting)

/-- The cleanup runs exactly once, before `nth_` reaches 0, and is never lost. -/
structure CleanupOk (s : State T V G) : Prop where
  once : s.cleaned <+: cleanup
  before : s.nth_ = 0 → Cleaned s
  live : (∀ t ∈ s.th_ ++ s.z_, Dying s t) → s.cleaned = cleanup ∨ AboutToClean s

/-! ## The condition -/

/-- When a thread tests whether it is the last, no thread is in transition, or one is left to die. -/
def MayTest (s : State T V G) (t : T) : Prop :=
  (∀ u ∈ s.z_, s.pstate_ u ≠ .ps_transition) ∨ ∃ u ∈ s.th_, u ≠ t ∧ s.pstate_ u ≠ .ps_exiting

/--
`exit` is not called by a signalled thread, the test is not made while the scheduler has yet to count
the last of the other threads, and a thread that calls `texit` is alone or leaves behind a thread that
has not left and does not wait for it.
-/
def Orderly (s : State T V G) : Act T → Prop
  | .exit t _ => s.exit_signal_ t = false ∧ MayTest s t
  | .texit_exit t | .retest t => MayTest s t
  | .texit t _ => s.nth_ = 1 ∨ ∃ u ∈ s.th_, u ≠ t ∧ (s.pc u = .user ∨ s.pstate_ u ≠ .ps_blocked)
  | _ => True

instance (s : State T V G) (t : T) : Decidable (MayTest s t) :=
  inferInstanceAs (Decidable (_ ∨ _))

instance (s : State T V G) : (a : Act T) → Decidable (Orderly s a)
  | .exit t _ => inferInstanceAs (Decidable (s.exit_signal_ t = false ∧ MayTest s t))
  | .texit_exit t | .retest t => inferInstanceAs (Decidable (MayTest s t))
  | .texit t _ => inferInstanceAs (Decidable (s.nth_ = 1 ∨
      ∃ u ∈ s.th_, u ≠ t ∧ (s.pc u = .user ∨ s.pstate_ u ≠ .ps_blocked)))
  | .closeFds _ | .freeMemory _ | .finish _ | .schedule _ | .sleep _ _ | .awake _ | .ioEnd _ =>
    isTrue trivial

end Chickadee.Thgrp
