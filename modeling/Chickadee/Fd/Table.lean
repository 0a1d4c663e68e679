import Chickadee.Lib.Count
import Mathlib.Data.Int.Notation
import Mathlib.Logic.Function.Basic

/-!
# File descriptors: the system calls on `fdtable_`

Vnodes `V` are named by their pointers, which are reused after `delete`. A step is one section under
`thgrp_lock_`, or what a task does between two of them. Where a call makes or deletes a vnode next to
such a section, when nobody else can reach it, this is part of the step. Calls that fail for want of
memory leave no trace and are left out; a negative descriptor is refused like one that is too large.

`exit` closes the descriptors without a lock: a descriptor that is closed is still in memory, for
`receivefd` to read, until the next step (`stale_`). Of a socket there is what `sendfd` and `receivefd`
use; that `client_server_lock_` is held over both sections of `receivefd` is not used.
-/

namespace Chickadee.Fd

/-- Number of descriptors of a group. -/
def MAX_FD : ℕ := 8

/-- Where a thread is. -/
inductive Pc (V S : Type)
  /-- in user mode, or in a system call that is not named here -/
  | user
  /-- in `read`, `write` or `ftruncate` on `fd`, after it has incremented `active_` of `v` -/
  | io (fd : ℕ) (v : V)
  /-- the same, after the operation itself -/
  | ioDone (fd : ℕ) (v : V)
  /-- in `close`, waiting for the operations on `fd` to end -/
  | closing (fd : ℕ)
  /-- in `sendfd`, after it has looked at its own table -/
  | sending (s : S) (fd : ℕ)
  /-- in `receivefd`, after it has read `v` from the table of the client -/
  | receiving (s : S) (v : V) (fd : ℕ)
  /-- in `exit`, before it closes descriptor `i` -/
  | exiting (i : ℕ)
  /-- in `exit`, before it clears descriptor `i`, which it has closed -/
  | clearing (i : ℕ)
  /-- dead, or not yet made -/
  | gone
deriving DecidableEq

/-- The number of descriptors that a thread in `exit` has closed. -/
def Pc.closed {V S : Type} : Pc V S → Option ℕ
  | .exiting i => some i
  | .clearing i => some (i + 1)
  | _ => none

/-- The calls that operate on an open file. -/
inductive Io | read | write | ftruncate
deriving DecidableEq

/-- The groups `G` that have not exited, their threads `T`, and the sockets `S`. -/
structure State (V G T S : Type) where
  alive : V → Bool
  refcount_ : V → ℤ
  active_ : V → ℤ
  groups : Finset G
  fdtable_ : G → ℕ → Option V
  stale_ : G → Option (ℕ × V)
  threads : Finset T
  thgrp_ : T → G
  pc : T → Pc V S
  server_ : S → Option T
  client_ : S → Option T
  fd_ : S → ℕ
  received_ : S → Bool

/-- The steps. -/
inductive Act (V G T S : Type)
  /-- `open` that stores the new vnode `v` -/
  | open_ (t : T) (v : V)
  /-- `pipe` that stores the new vnodes `r` and `w` -/
  | pipe (t : T) (r w : V)
  | dup2 (t : T) (oldfd newfd : ℕ)
  /-- `fork` of the group `c` with the thread `u` -/
  | fork (t : T) (c : G) (u : T)
  /-- `fork` that fails after it has made a `struct proc` -/
  | forkFail (t : T)
  /-- `clone` of the thread `u` -/
  | clone (t u : T)
  | close (t : T) (fd : ℕ)
  /-- `close` comes back from `block_until` -/
  | closeWoken (t : T)
  /-- `exit` of the last thread of a group: up to the loop over the descriptors -/
  | exit (t : T)
  /-- half a turn of that loop, or its end -/
  | exitFd (t : T)
  /-- `read`, `write` or `ftruncate`: up to the end of the first section -/
  | io (t : T) (op : Io) (fd : ℕ) (valid : Bool)
  /-- the operation itself -/
  | ioRun (t : T)
  /-- the last section -/
  | ioEnd (t : T)
  | bind (t : T) (s : S)
  | connect (t : T) (s : S)
  | disconnect (t : T) (s : S)
  /-- `sendfd`: the section under `thgrp_lock_` -/
  | sendfd (t : T) (s : S) (fd : ℕ)
  /-- `sendfd`: `uds::write` -/
  | send (t : T)
  /-- a call of `t` on the socket times out -/
  | timeout (t : T) (s : S)
  /-- `receivefd`: the section under the client's lock; `junk` is what there is in the memory of a
  client that has exited -/
  | receivefd (t : T) (s : S) (junk : Option V)
  /-- `receivefd`: the section under the server's lock -/
  | receive (t : T)
  /-- a thread dies outside of `exit` -/
  | die (t : T)
deriving DecidableEq

variable {V G T S : Type} [DecidableEq V] [DecidableEq G] [DecidableEq T] [DecidableEq S]

namespace State

/-- The descriptors of `g` that point to `v`. -/
def slotsOf (s : State V G T S) (g : G) (v : V) : ℕ :=
  ((Finset.range MAX_FD).filter fun fd => s.fdtable_ g fd = some v).card

/-- The descriptors that point to `v`, over all groups. -/
def slots (s : State V G T S) (v : V) : ℕ := ∑ g ∈ s.groups, s.slotsOf g v

/-- `fdtable_[fd] = o` -/
def setSlot (s : State V G T S) (g : G) (fd : ℕ) (o : Option V) : State V G T S :=
  { s with fdtable_ := Function.update s.fdtable_ g (Function.update (s.fdtable_ g) fd o) }

def goto (s : State V G T S) (t : T) (pc : Pc V S) : State V G T S :=
  { s with pc := Function.update s.pc t pc }

/-- A new vnode. -/
def create (s : State V G T S) (v : V) : State V G T S :=
  { s with
    alive := Function.update s.alive v true
    refcount_ := Function.update s.refcount_ v 1
    active_ := Function.update s.active_ v 0 }

/-- `++refcount_` -/
def incr (s : State V G T S) (v : V) : State V G T S :=
  { s with refcount_ := Function.update s.refcount_ v (s.refcount_ v + 1) }

/-- `vnode::close`. `none`: its assertion fails. -/
def vclose (s : State V G T S) (v : V) : Option (State V G T S) :=
  if 0 < s.refcount_ v then
    some { s with refcount_ := Function.update s.refcount_ v (s.refcount_ v - 1) }
  else none

def vdelete (s : State V G T S) (v : V) : State V G T S :=
  { s with alive := Function.update s.alive v false }

/-- `if (!v->close()) delete v` -/
def drop (s : State V G T S) (v : V) : Option (State V G T S) :=
  (s.vclose v).map fun s => if s.refcount_ v = 0 then s.vdelete v else s

/-- `proc::find_open_fd` -/
def find_open_fd (s : State V G T S) (g : G) (taken_fd : Option ℕ) : Option ℕ :=
  (List.range MAX_FD).find? fun fd => 3 ≤ fd ∧ s.fdtable_ g fd = none ∧ some fd ≠ taken_fd

/-- `syscall_open`: the vnode is stored, or closed and deleted again. -/
def open_ (s : State V G T S) (g : G) (v : V) : State V G T S :=
  match s.find_open_fd g none with
  | some fd => (s.create v).setSlot g fd (some v)
  | none => s

/-- `syscall_pipe` -/
def pipe (s : State V G T S) (g : G) (r w : V) : State V G T S :=
  match s.find_open_fd g none with
  | none => s
  | some rfd => match s.find_open_fd g (some rfd) with
    | none => s
    | some wfd => (((s.create w).create r).setSlot g wfd (some w)).setSlot g rfd (some r)

/-- `syscall_dup2` -/
def dup2 (s : State V G T S) (g : G) (oldfd newfd : ℕ) : Option (State V G T S) :=
  if MAX_FD ≤ oldfd ∨ MAX_FD ≤ newfd then some s
  else match s.fdtable_ g oldfd with
    | none => some s
    | some v =>
      if oldfd = newfd then some s
      else
        let closed := match s.fdtable_ g newfd with
          | some w => s.drop w
          | none => some s
        closed.map fun s => (s.setSlot g newfd (some v)).incr v

/-- The constructor of `proc` adds three references to the console. -/
def construct (console : V) (s : State V G T S) : State V G T S :=
  { s with refcount_ := Function.update s.refcount_ console (s.refcount_ console + 3) }

/-- The constructor of `proc` puts the console in the descriptors `fds`. `none`: its assertion fails. -/
def initStdio (console : V) (g : G) : List ℕ → State V G T S → Option (State V G T S)
  | [], s => some s
  | fd :: fds, s =>
    if s.fdtable_ g fd = some console then initStdio console g fds s
    else if s.fdtable_ g fd = none then initStdio console g fds (s.setSlot g fd (some console))
    else none

/-- A thread that has been made. -/
def addThread (s : State V G T S) (g : G) (u : T) : State V G T S :=
  { s with
    threads := insert u s.threads
    thgrp_ := Function.update s.thgrp_ u g
    pc := Function.update s.pc u .user }

/-- `syscall_fork`: the child gets a copy of the table, and each of its descriptors is counted. -/
def fork (console : V) (s : State V G T S) (g c : G) (u : T) : State V G T S :=
  let s' := s.construct console
  { s'.addThread c u with
    groups := insert c s.groups
    fdtable_ := Function.update s.fdtable_ c (s.fdtable_ g)
    refcount_ := fun v => s'.refcount_ v + s.slotsOf g v }

/-- `syscall_close` up to the wait. -/
def close (s : State V G T S) (g : G) (t : T) (fd : ℕ) : Option (State V G T S) :=
  if MAX_FD ≤ fd then some s
  else match s.fdtable_ g fd with
    | none => some s
    | some v => (s.vclose v).map fun s =>
      if s.refcount_ v = 0 then
        if s.active_ v ≠ 0 then s.goto t (.closing fd)
        else (s.setSlot g fd none).vdelete v
      else s.setSlot g fd none

/-- `syscall_close` after the wait. `none`: it waits on, or dereferences a null pointer. -/
def closeWoken (s : State V G T S) (g : G) (t : T) (fd : ℕ) : Option (State V G T S) :=
  match s.fdtable_ g fd with
  | none => none
  | some v =>
    if s.active_ v ≠ 0 then none else some (((s.setSlot g fd none).vdelete v).goto t .user)

/-- The loop in `syscall_exit` closes descriptor `i`, or ends. -/
def exitFd (s : State V G T S) (g : G) (t : T) (i : ℕ) : Option (State V G T S) :=
  if i < MAX_FD then match s.fdtable_ g i with
    | none => some (s.goto t (.exiting (i + 1)))
    | some v => (s.drop v).map fun s =>
      { (s.setSlot g i none).goto t (.clearing i) with
        stale_ := Function.update s.stale_ g (some (i, v)) }
  else some { s.goto t .gone with groups := s.groups.erase g }

/-- The loop in `syscall_exit` clears descriptor `i`. -/
def exitClear (s : State V G T S) (g : G) (t : T) (i : ℕ) : State V G T S :=
  { s.goto t (.exiting (i + 1)) with stale_ := Function.update s.stale_ g none }

/-- The first section of `syscall_read`, `syscall_write` and `syscall_ftruncate`: they check the
descriptor and then their other arguments. -/
def io (s : State V G T S) (g : G) (t : T) (_ : Io) (fd : ℕ) (valid : Bool) : State V G T S :=
  if MAX_FD ≤ fd then s
  else match s.fdtable_ g fd with
    | none => s
    | some v =>
      if valid then
        { s.goto t (.io fd v) with active_ := Function.update s.active_ v (s.active_ v + 1) }
      else s

/-- The operation. `none`: a null pointer is dereferenced. -/
def ioRun (s : State V G T S) (g : G) (t : T) (fd : ℕ) (v : V) : Option (State V G T S) :=
  match s.fdtable_ g fd with
  | none => none
  | some _ => some (s.goto t (.ioDone fd v))

/-- The last section. `none`: a null pointer is dereferenced. -/
def ioEnd (s : State V G T S) (g : G) (t : T) (fd : ℕ) : Option (State V G T S) :=
  match s.fdtable_ g fd with
  | none => none
  | some v =>
    some { s.goto t .user with active_ := Function.update s.active_ v (s.active_ v - 1) }

/-- The first section of `syscall_sendfd`. -/
def sendfd (s : State V G T S) (g : G) (t : T) (sock : S) (fd : ℕ) : State V G T S :=
  if MAX_FD ≤ fd ∨ s.fdtable_ g fd = none then s else s.goto t (.sending sock fd)

/-- `uds::write` -/
def send (s : State V G T S) (t : T) (sock : S) (fd : ℕ) : State V G T S :=
  if s.client_ sock = some t then
    { s.goto t .user with
      fd_ := Function.update s.fd_ sock fd
      received_ := Function.update s.received_ sock false }
  else s.goto t .user

/-- What `receivefd` reads from the table of a client's group. -/
def readSlot (s : State V G T S) (g : G) (fd : ℕ) (junk : Option V) : Option V :=
  if g ∈ s.groups then match s.stale_ g with
    | some (i, v) => if i = fd then some v else s.fdtable_ g fd
    | none => s.fdtable_ g fd
  else junk

/-- `uds::read` up to the end of the first section. `none`: it waits, or there is no client. -/
def receivefd (s : State V G T S) (t : T) (sock : S) (junk : Option V) : Option (State V G T S) :=
  if s.server_ sock = some t ∧ s.received_ sock = false then
    (s.client_ sock).map fun c =>
      match s.readSlot (s.thgrp_ c) (s.fd_ sock) junk with
      | none => { s with received_ := Function.update s.received_ sock true }
      | some v => s.goto t (.receiving sock v (s.fd_ sock))
  else none

/-- The second section of `uds::read`. -/
def receive (s : State V G T S) (g : G) (t : T) (sock : S) (v : V) (fd : ℕ) : State V G T S :=
  let newfd := if s.fdtable_ g fd = none then some fd else s.find_open_fd g none
  match newfd with
  | none => s.goto t .user
  | some newfd =>
    { ((s.setSlot g newfd (some v)).incr v).goto t .user with
      received_ := Function.update s.received_ sock true }

/-- The other threads of the group of `t` are dead. -/
def Last (s : State V G T S) (t : T) : Prop :=
  ∀ u ∈ s.threads, u ≠ t → s.thgrp_ u = s.thgrp_ t → s.pc u = .gone

instance (s : State V G T S) (t : T) : Decidable (s.Last t) :=
  inferInstanceAs (Decidable (∀ u ∈ s.threads, u ≠ t → s.thgrp_ u = s.thgrp_ t → s.pc u = .gone))

/-- One step of a thread of the group `g`. -/
def stepIn (console : V) (s : State V G T S) (g : G) : Act V G T S → Option (State V G T S)
  | .open_ t v => if s.pc t = .user ∧ s.alive v = false then some (s.open_ g v) else none
  | .pipe t r w =>
    if s.pc t = .user ∧ s.alive r = false ∧ s.alive w = false ∧ r ≠ w then some (s.pipe g r w)
    else none
  | .dup2 t oldfd newfd => if s.pc t = .user then s.dup2 g oldfd newfd else none
  | .fork t c u =>
    if s.pc t = .user ∧ c ∉ s.groups ∧ u ∉ s.threads then some (s.fork console g c u) else none
  | .forkFail t => if s.pc t = .user then some (s.construct console) else none
  | .clone t u =>
    if s.pc t = .user ∧ u ∉ s.threads then
      ((s.construct console).initStdio console g [0, 1, 2]).map fun s => s.addThread g u
    else none
  | .close t fd => if s.pc t = .user then s.close g t fd else none
  | .closeWoken t => match s.pc t with
    | .closing fd => s.closeWoken g t fd
    | _ => none
  | .exit t => if s.pc t = .user ∧ s.Last t then some (s.goto t (.exiting 0)) else none
  | .exitFd t => match s.pc t with
    | .exiting i => s.exitFd g t i
    | .clearing i => some (s.exitClear g t i)
    | _ => none
  | .io t op fd valid => if s.pc t = .user then some (s.io g t op fd valid) else none
  | .ioRun t => match s.pc t with
    | .io fd v => s.ioRun g t fd v
    | _ => none
  | .ioEnd t => match s.pc t with
    | .ioDone fd _ => s.ioEnd g t fd
    | _ => none
  | .bind t sock =>
    if s.pc t = .user ∧ s.server_ sock = none then
      some { s with server_ := Function.update s.server_ sock (some t) }
    else none
  | .connect t sock =>
    if s.pc t = .user ∧ s.client_ sock = none then
      some { s with client_ := Function.update s.client_ sock (some t) }
    else none
  | .disconnect t sock =>
    if s.pc t = .user then
      if s.server_ sock = some t then some { s with server_ := Function.update s.server_ sock none }
      else if s.client_ sock = some t then
        some { s with client_ := Function.update s.client_ sock none }
      else some s
    else none
  | .sendfd t sock fd => if s.pc t = .user then some (s.sendfd g t sock fd) else none
  | .send t => match s.pc t with
    | .sending sock fd => some (s.send t sock fd)
    | _ => none
  | .timeout t sock =>
    if s.pc t = .user then some { s with received_ := Function.update s.received_ sock true }
    else none
  | .receivefd t sock junk => if s.pc t = .user then s.receivefd t sock junk else none
  | .receive t => match s.pc t with
    | .receiving sock v fd => some (s.receive g t sock v fd)
    | _ => none
  | .die t => if (s.pc t).closed = none then some (s.goto t .gone) else none

end State

/-- The thread that takes a step. -/
def Act.thread : Act V G T S → T
  | .open_ t _ | .pipe t _ _ | .dup2 t _ _ | .fork t _ _ | .forkFail t | .clone t _ | .close t _
  | .closeWoken t | .exit t | .exitFd t | .io t _ _ _ | .ioRun t | .ioEnd t | .bind t _
  | .connect t _ | .disconnect t _ | .sendfd t _ _ | .send t | .timeout t _ | .receivefd t _ _
  | .receive t | .die t => t

/-- One step. -/
def State.step (console : V) (s : State V G T S) (a : Act V G T S) : Option (State V G T S) :=
  if a.thread ∈ s.threads then s.stepIn console (s.thgrp_ a.thread) a else none

end Chickadee.Fd
