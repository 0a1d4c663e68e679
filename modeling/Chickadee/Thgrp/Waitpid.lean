import Mathlib

/-!
# The process hierarchy: `syscall_fork`, `syscall_exit` and `syscall_waitpid`

Thread groups are named by the pointers to their `struct thgrp`; a pointer is reused after `delete`.
A step is one section under `ptable_lock`, or one access outside of it. `syscall_waitpid` finds a child
in one section, waits for it or polls it, reads its status without a lock, and releases it in another
section; in between it keeps the pointer.

How a group comes down to its last thread is the matter of `Chickadee.Thgrp.Exit`; here a thread that
leaves others behind is gone at once, and `exit` is the cleanup of the last one.
-/

namespace Chickadee.Thgrp.Wait

def E_CHILD : ℤ := -10
def E_AGAIN : ℤ := -11

/-- Where a thread is. -/
inductive Pc (G : Type)
  /-- in user mode, or in a system call that is not named here -/
  | user
  /-- in `waitpid` for the group `c`, blocking -/
  | waitFor (c : G)
  /-- in `waitpid` for the group `c`, polling -/
  | pollFor (c : G)
  /-- in `waitpid` for any child, blocking -/
  | waitAny
  /-- in `waitpid` for any child, polling -/
  | pollAny
  /-- in `waitpid`, before it reads the status of the exited group `c` -/
  | picked (c : G)
  /-- in `waitpid`, before it releases `c`, with the value it will return -/
  | releasing (c : G) (retpid : ℕ)
  /-- in `exit`, after it has released `ptable_lock` -/
  | exiting
  /-- in `exit`, in transition -/
  | left
  /-- dead -/
  | gone
deriving DecidableEq

/-- The child group a `waitpid` keeps a pointer to. -/
def Pc.holds {G : Type} : Pc G → Option G
  | .waitFor c | .pollFor c | .picked c | .releasing c _ => some c
  | _ => none

/-- A `waitpid` has released the group `tgid` and returns `retpid`. -/
structure Report where
  tgid : ℕ
  retpid : ℕ
deriving DecidableEq

/--
The groups `G` and threads `W`. `alive` says which groups have been allocated and not deleted, `ptable`
to which group a thread that has not been deleted belongs. The last five fields log what has happened:
`forker` is the `tgid_` of the group that forked a group, `exiting` lists the groups whose children have
been given to init, `exits` the exit statuses, `reports` the releases.
-/
structure State (G W : Type) where
  alive : G → Bool
  tgid_ : G → ℕ
  pthgrp_ : G → G
  children_ : G → List G
  nchildren_ : G → ℤ
  retval_ : G → ℕ
  nth_ : G → ℕ
  th_ : G → List W
  z_ : G → List W
  ptable : W → Option G
  pc : W → Pc G
  ret : W → ℤ
  cur_tgid : ℕ
  forker : G → ℕ
  exiting : List ℕ
  exits : List (ℕ × ℕ)
  reports : List Report

/-- The steps. -/
inductive Act (G W : Type)
  /-- `w` forks the group `c` with the thread `v`; the first process is linked to init the same way -/
  | fork (w : W) (c : G) (v : W)
  /-- `w` forks, but there is no memory -/
  | forkFail (w : W)
  /-- `w` adds the thread `v` to its group -/
  | clone (w v : W)
  /-- `w`, which is not the last thread of its group, calls `texit` or is killed -/
  | leave (w : W)
  /-- the last thread of a group, in `exit`: the section under `ptable_lock` -/
  | exit (w : W)
  /-- the end of `exit(status)` -/
  | exit_status (w : W) (status : ℕ)
  /-- the scheduler counts a thread in transition -/
  | schedule (w : W)
  /-- `w` calls `waitpid(pid, options)`: up to the end of the first section -/
  | waitpid (w : W) (pid options : ℤ)
  /-- `w` tests what it waits for -/
  | test (w : W)
  /-- `w` reads the status of the group it has picked -/
  | read (w : W)
  /-- `w` releases the group it has picked -/
  | release (w : W)
deriving DecidableEq

variable {G W : Type} [DecidableEq G] [DecidableEq W]

namespace State

/-- `(cgrp->retval_ << 32) + cgrp->tgid_` -/
def retpid (s : State G W) (c : G) : ℕ := (s.retval_ c * 2 ^ 32 + s.tgid_ c) % 2 ^ 64

/-- A system call returns. -/
def «return» (s : State G W) (w : W) (ret : ℤ) : State G W :=
  { s with pc := Function.update s.pc w .user, ret := Function.update s.ret w ret }

/-- `w` moves on in its system call. -/
def goto (s : State G W) (w : W) (pc : Pc G) : State G W :=
  { s with pc := Function.update s.pc w pc }

/-- A new thread of `g`. -/
def addThread (s : State G W) (g : G) (v : W) : State G W :=
  { s with
    th_ := Function.update s.th_ g (s.th_ g ++ [v])
    nth_ := Function.update s.nth_ g (s.nth_ g + 1)
    ptable := Function.update s.ptable v (some g)
    pc := Function.update s.pc v .user }

/-- The part of `syscall_fork` that makes and links a group. -/
def fork (s : State G W) (g c : G) (v : W) : State G W :=
  { s with
    alive := Function.update s.alive c true
    cur_tgid := s.cur_tgid + 1
    tgid_ := Function.update s.tgid_ c (s.cur_tgid + 1)
    nth_ := Function.update s.nth_ c 1
    th_ := Function.update s.th_ c [v]
    z_ := Function.update s.z_ c []
    ptable := Function.update s.ptable v (some c)
    pc := Function.update s.pc v .user
    pthgrp_ := Function.update s.pthgrp_ c g
    children_ := Function.update (Function.update s.children_ c []) g (s.children_ g ++ [c])
    nchildren_ := Function.update (Function.update s.nchildren_ c 0) g (s.nchildren_ g + 1)
    forker := Function.update s.forker c (s.tgid_ g) }

/-- A thread that is not the last one leaves its group. -/
def leave (s : State G W) (g : G) (w : W) : State G W :=
  { s with
    th_ := Function.update s.th_ g ((s.th_ g).erase w)
    z_ := Function.update s.z_ g (s.z_ g ++ [w])
    nth_ := Function.update s.nth_ g (s.nth_ g - 1)
    pc := Function.update s.pc w .gone }

/-- A turn of the loop in `syscall_exit`: init gets a child. -/
def adopt (init : G) (s : State G W) (c : G) : State G W :=
  { s with
    pthgrp_ := Function.update s.pthgrp_ c init
    children_ := Function.update s.children_ init (s.children_ init ++ [c])
    nchildren_ := Function.update s.nchildren_ init (s.nchildren_ init + 1) }

/-- The section of `syscall_exit` under `ptable_lock`. -/
def exit (init : G) (s : State G W) (g : G) (w : W) : State G W :=
  let s' := (s.children_ g).foldl (adopt init)
    { s with children_ := Function.update s.children_ g [] }
  { s' with pc := Function.update s'.pc w .exiting, exiting := s'.tgid_ g :: s'.exiting }

/-- The end of `syscall_exit`. -/
def exit_status (s : State G W) (g : G) (w : W) (status : ℕ) : State G W :=
  { s with
    th_ := Function.update s.th_ g ((s.th_ g).erase w)
    z_ := Function.update s.z_ g (s.z_ g ++ [w])
    retval_ := Function.update s.retval_ g status
    pc := Function.update s.pc w .left
    exits := (s.tgid_ g, status) :: s.exits }

/-- `schedule` counts a thread in transition. -/
def schedule (s : State G W) (g : G) (w : W) : State G W :=
  { s with
    nth_ := Function.update s.nth_ g (s.nth_ g - 1)
    pc := Function.update s.pc w .gone }

/-- `syscall_waitpid` up to the end of the first section. -/
def waitpid (s : State G W) (g : G) (w : W) (pid options : ℤ) : State G W :=
  if pid < 0 ∨ pid = 1 then s.return w (-1)
  else
    let cgrp := (s.children_ g).find? fun c => s.tgid_ c = pid
    if s.nchildren_ g = 0 ∨ cgrp = none ∧ pid ≠ 0 then s.return w E_CHILD
    else if pid = 0 then s.goto w (if options = 0 then .waitAny else .pollAny)
    else match cgrp with
      | some c => s.goto w (if options = 0 then .waitFor c else .pollFor c)
      | none => s

/-- The first exited child group. -/
def find_exited (s : State G W) (g : G) : Option G := (s.children_ g).find? fun c => s.nth_ c = 0

/-- The tests of `syscall_waitpid`. `none`: it goes on waiting. -/
def test (s : State G W) (g : G) (w : W) : Option (State G W) :=
  match s.pc w with
  | .waitFor c => if s.nth_ c = 0 then some (s.goto w (.picked c)) else none
  | .pollFor c => some (if s.nth_ c ≠ 0 then s.return w E_AGAIN else s.goto w (.picked c))
  | .waitAny => (s.find_exited g).map fun c => s.goto w (.picked c)
  | .pollAny => some (match s.find_exited g with
      | some c => s.goto w (.picked c)
      | none => s.return w E_AGAIN)
  | _ => none

/-- `release_child` -/
def release_child (s : State G W) (pgrp cgrp : G) : State G W :=
  { s with
    ptable := fun v => if v ∈ s.z_ cgrp then none else s.ptable v
    z_ := Function.update s.z_ cgrp []
    children_ := Function.update s.children_ pgrp ((s.children_ pgrp).erase cgrp)
    nchildren_ := Function.update s.nchildren_ pgrp (s.nchildren_ pgrp - 1)
    alive := Function.update s.alive cgrp false }

/-- The second section of `syscall_waitpid`, and its return. -/
def release (s : State G W) (g : G) (w : W) (c : G) (retpid : ℕ) : State G W :=
  { (s.release_child g c).return w retpid with
    reports := ⟨s.tgid_ c, retpid⟩ :: s.reports }

/-- One step of a thread `w` of the group `g`. -/
def stepIn (init : G) (s : State G W) (g : G) : Act G W → Option (State G W)
  | .fork w c v =>
    if s.pc w = .user ∧ s.alive c = false ∧ s.ptable v = none then some (s.fork g c v) else none
  | .forkFail w => if s.pc w = .user then some { s with cur_tgid := s.cur_tgid + 1 } else none
  | .clone w v =>
    if s.pc w = .user ∧ s.ptable v = none then some (s.addThread g v) else none
  | .leave w =>
    if s.pc w ∉ [.exiting, .left, .gone] ∧ 2 ≤ s.nth_ g then some (s.leave g w) else none
  | .exit w => if s.pc w = .user ∧ s.nth_ g = 1 ∧ g ≠ init then some (s.exit init g w) else none
  | .exit_status w status =>
    if s.pc w = .exiting then some (s.exit_status g w status) else none
  | .schedule w => if s.pc w = .left then some (s.schedule g w) else none
  | .waitpid w pid options => if s.pc w = .user then some (s.waitpid g w pid options) else none
  | .test w => s.test g w
  | .read w => match s.pc w with
    | .picked c => some (s.goto w (.releasing c (s.retpid c)))
    | _ => none
  | .release w => match s.pc w with
    | .releasing c retpid => some (s.release g w c retpid)
    | _ => none

end State

/-- The thread that takes a step. -/
def Act.thread : Act G W → W
  | .fork w _ _ | .forkFail w | .clone w _ | .leave w | .exit w | .exit_status w _ | .schedule w
  | .waitpid w _ _ | .test w | .read w | .release w => w

/-- One step. -/
def State.step (init : G) (s : State G W) (a : Act G W) : Option (State G W) :=
  (s.ptable a.thread).bind fun g => s.stepIn init g a

/-- The kernel task of init is alone. -/
structure Init (init : G) (s : State G W) : Prop where
  alive : ∀ g, s.alive g = true ↔ g = init
  tgid : s.tgid_ init = 1
  pthgrp : s.pthgrp_ init = init
  children : s.children_ init = []
  nchildren : s.nchildren_ init = 0
  threads : ∃ w, s.th_ init = [w] ∧ s.pc w = .user ∧ ∀ v g, s.ptable v = some g ↔ v = w ∧ g = init
  nth : s.nth_ init = 1
  z : s.z_ init = []
  cur_tgid : s.cur_tgid = 1
  fresh : ∀ w, s.ptable w = none → s.pc w = .gone
  logs : s.exiting = [] ∧ s.exits = [] ∧ s.reports = []

/-! ## The claim on a state -/

/-- A group is not released while another thread's `waitpid` keeps a pointer to it. -/
def Orderly (s : State G W) : Act G W → Prop
  | .release w => ∀ v, v ≠ w → (s.pc w).holds ≠ none → (s.pc v).holds ≠ (s.pc w).holds
  | _ => True

end Chickadee.Thgrp.Wait
