import Chickadee.Lib.Run
import Mathlib.Logic.Function.Basic

/-!
# Wait queues: `k-wait.hh`, `proc::wake` and `cpustate::schedule`

Tasks that block with either form of `block_until`, wakers that make a predicate true and call
`wake_all`, and the scheduler of each CPU. A step is what happens under one hold of a lock or one
access to an atomic word:

* `prepare` and `clear` hold the queue lock for one step; `wake_all` holds it over several: it pops a
  waiter, exchanges the waiter's state, and enqueues it under the lock of the run queue;
* the test of a predicate, and of `pstate_` in `block()`, is one step;
* `schedule` is entered by `yield()` and by the timer interrupt. It puts the old task back and takes
  the next one under the lock of the run queue, until it has a runnable one.

The second form is entered and left with the lock of the predicate; spinlocks disable interrupts.
-/

namespace Chickadee.Wait

open Lib

/-- `proc::pstate_t`, as far as wait queues are concerned. -/
inductive Pstate | ps_blocked | ps_runnable
deriving DecidableEq

/-- Where a task is in `block_until`. -/
inductive Pc
  /-- not in `block_until` -/
  | out
  /-- at the top of the loop, before `prepare` -/
  | top
  /-- before the test of the predicate -/
  | test
  /-- the predicate was false: before `lock.unlock` (second form) -/
  | unlock
  /-- in `block()`, before the test of `pstate_` -/
  | block
  /-- in `block()`, before `yield()` -/
  | yield
  /-- in `block()`, before `clear()` -/
  | clear
  /-- before `lock.lock` (second form) -/
  | relock
  /-- the predicate was true: before `clear()` -/
  | leave
  /-- `block_until` has returned -/
  | ret
deriving DecidableEq

/-- What a CPU does. -/
inductive Mode
  /-- it runs its current task -/
  | run
  /-- it is in the loop of `schedule` -/
  | sched
deriving DecidableEq

/-- Where a waker is. -/
inductive Waker (T P : Type)
  | idle
  /-- it has made `p` true and is about to call `wake_all` -/
  | owe (p : P)
  /-- in the loop of `wake_all` -/
  | hold (p : P)
  /-- it has popped the waiter of `t` -/
  | popped (p : P) (t : T)
  /-- it has made `t` runnable -/
  | cased (p : P) (t : T)
deriving DecidableEq

/-- The predicate of the waker. -/
def Waker.pred {T P : Type} : Waker T P → Option P
  | .idle => none
  | .owe p | .hold p | .popped p _ | .cased p _ => some p

/--
The tasks' CPUs (`id_ % ncpu`) and whether interrupts are enabled when they hold no spinlock, the
queue on which a predicate is waited for, and the predicate's lock. A predicate is `guarded` when it
is made true under that lock only.
-/
structure Layout (T C Q P L : Type) where
  cpu : T → C
  ie : T → Bool
  queue : P → Q
  lock : P → L
  guarded : P → Bool

/--
The kernel. `pred_` is the predicate a task waits for, `locked` says that it uses the second form and
`last` is the result of its last test. A CPU that has no task runs its idle task, `none`. `fresh` says
that the predicate of a waker has been true ever since the waker made it true.
-/
structure State (T W C Q P L : Type) where
  pstate_ : T → Pstate
  pc : T → Pc
  pred_ : T → P
  locked : T → Bool
  last : T → Bool
  q_ : Q → List T
  qlock : Q → Option W
  waker : W → Waker T P
  fresh : W → Bool
  pred : P → Bool
  held : L → Option T
  runq_ : C → List (Option T)
  current_ : C → Option T
  mode : C → Mode

/-- The steps. -/
inductive Act (T W C P : Type)
  /-- `t` calls `block_until` for `p`, in the second form if `locked` -/
  | call (t : T) (p : P) (locked : Bool)
  | prepare (t : T)
  | test (t : T)
  | unlock (t : T)
  | block (t : T)
  | yield (t : T)
  | clear (t : T)
  | relock (t : T)
  | leave (t : T)
  /-- what `t` does after the return is over -/
  | ret (t : T)
  /-- `w` makes `p` true -/
  | setTrue (w : W) (p : P)
  /-- somebody makes `p` false -/
  | setFalse (p : P)
  /-- `wake_all` takes the queue lock -/
  | grab (w : W)
  /-- `wake_all` pops a waiter, or returns -/
  | pop (w : W)
  /-- `wake` exchanges `pstate_` -/
  | cas (w : W)
  /-- `wake` enqueues the task -/
  | enqueue (w : W)
  /-- a timer interrupt -/
  | preempt (c : C)
  /-- the body of the loop of `schedule` -/
  | switch (c : C)
  /-- the loop of `schedule` ends -/
  | resume (c : C)

variable {T W C Q P L : Type} [DecidableEq T] [DecidableEq W] [DecidableEq C] [DecidableEq Q]
  [DecidableEq P] [DecidableEq L]

namespace State

variable (Λ : Layout T C Q P L) (s : State T W C Q P L)

/-- The queue on which a task waits. -/
def queue (t : T) : Q := Λ.queue (s.pred_ t)

/-- The task runs on its CPU. -/
def Running (t : T) : Prop := s.current_ (Λ.cpu t) = some t ∧ s.mode (Λ.cpu t) = .run

instance (t : T) : Decidable (s.Running Λ t) := inferInstanceAs (Decidable (_ ∧ _))

/-- The idle task is always runnable. -/
def runnable : Option T → Bool
  | none => true
  | some t => s.pstate_ t = .ps_runnable

/-- `t` holds the lock of its predicate. -/
def holdsLock (t : T) : Bool :=
  s.locked t && (s.pc t = .top || s.pc t = .test || s.pc t = .unlock || s.pc t = .leave ||
    s.pc t = .ret)

/-- `cpustate::enqueue(p)` on the CPU of the task. -/
def enqueue (t : T) : State T W C Q P L :=
  if s.current_ (Λ.cpu t) ≠ some t ∧ some t ∉ s.runq_ (Λ.cpu t) then
    { s with runq_ := Function.update s.runq_ (Λ.cpu t) (s.runq_ (Λ.cpu t) ++ [some t]) }
  else s

/-- `waiter::wake()`. -/
def wake (t : T) : State T W C Q P L :=
  if s.pstate_ t = .ps_blocked then
    { s with pstate_ := Function.update s.pstate_ t .ps_runnable }.enqueue Λ t
  else s

/-- `waiter::clear()`, and where the task goes on. -/
def clear (t : T) (pc : Pc) : State T W C Q P L :=
  let s := s.wake Λ t
  { s with
    q_ := Function.update s.q_ (s.queue Λ t) ((s.q_ (s.queue Λ t)).erase t)
    pc := Function.update s.pc t pc }

/-- The body of the loop of `schedule`, under the lock of the run queue. -/
def switch (c : C) : State T W C Q P L :=
  let prev := s.current_ c
  let runq := if s.runnable prev then s.runq_ c ++ [prev] else s.runq_ c
  { s with
    runq_ := Function.update s.runq_ c runq.tail
    current_ := Function.update s.current_ c (runq.head?.getD none) }

/-- A step. -/
def step : Act T W C P → Option (State T W C Q P L)
  | .call t p locked =>
    if s.pc t = .out ∧ s.Running Λ t ∧
        (locked = true → Λ.guarded p = true ∧ s.held (Λ.lock p) = none) then
      some { s with
        pc := Function.update s.pc t .top
        pred_ := Function.update s.pred_ t p
        locked := Function.update s.locked t locked
        held := if locked then Function.update s.held (Λ.lock p) (some t) else s.held }
    else none
  | .prepare t =>
    if s.pc t = .top ∧ s.Running Λ t ∧ s.qlock (s.queue Λ t) = none then
      some { s with
        pstate_ := Function.update s.pstate_ t .ps_blocked
        q_ := Function.update s.q_ (s.queue Λ t) (s.q_ (s.queue Λ t) ++ [t])
        pc := Function.update s.pc t .test }
    else none
  | .test t =>
    if s.pc t = .test ∧ s.Running Λ t then
      let r := s.pred (s.pred_ t)
      some { s with
        last := Function.update s.last t r
        pc := Function.update s.pc t
          (if r then .leave else if s.locked t then .unlock else .block) }
    else none
  | .unlock t =>
    if s.pc t = .unlock ∧ s.Running Λ t then
      some { s with
        held := Function.update s.held (Λ.lock (s.pred_ t)) none
        pc := Function.update s.pc t .block }
    else none
  | .block t =>
    if s.pc t = .block ∧ s.Running Λ t then
      some { s with
        pc := Function.update s.pc t (if s.pstate_ t = .ps_blocked then .yield else .clear) }
    else none
  | .yield t =>
    if s.pc t = .yield ∧ s.Running Λ t then
      some { s with
        pc := Function.update s.pc t .clear
        mode := Function.update s.mode (Λ.cpu t) .sched }
    else none
  | .clear t =>
    if s.pc t = .clear ∧ s.Running Λ t ∧ s.qlock (s.queue Λ t) = none then
      some (s.clear Λ t (if s.locked t then .relock else .top))
    else none
  | .relock t =>
    if s.pc t = .relock ∧ s.Running Λ t ∧ s.held (Λ.lock (s.pred_ t)) = none then
      some { s with
        held := Function.update s.held (Λ.lock (s.pred_ t)) (some t)
        pc := Function.update s.pc t .top }
    else none
  | .leave t =>
    if s.pc t = .leave ∧ s.Running Λ t ∧ s.qlock (s.queue Λ t) = none then
      some (s.clear Λ t .ret)
    else none
  | .ret t =>
    if s.pc t = .ret ∧ s.Running Λ t then
      some { s with
        pc := Function.update s.pc t .out
        held := if s.locked t then Function.update s.held (Λ.lock (s.pred_ t)) none else s.held }
    else none
  | .setTrue w p =>
    if s.waker w = .idle ∧ (Λ.guarded p = true → s.held (Λ.lock p) = none) then
      some { s with
        pred := Function.update s.pred p true
        waker := Function.update s.waker w (.owe p)
        fresh := Function.update s.fresh w true }
    else none
  | .setFalse p =>
    some { s with
      pred := Function.update s.pred p false
      fresh := fun w => s.fresh w && (s.waker w).pred ≠ some p }
  | .grab w =>
    match s.waker w with
    | .owe p =>
      if s.qlock (Λ.queue p) = none then
        some { s with
          qlock := Function.update s.qlock (Λ.queue p) (some w)
          waker := Function.update s.waker w (.hold p) }
      else none
    | _ => none
  | .pop w =>
    match s.waker w with
    | .hold p =>
      match s.q_ (Λ.queue p) with
      | [] =>
        some { s with
          qlock := Function.update s.qlock (Λ.queue p) none
          waker := Function.update s.waker w .idle }
      | t :: rest =>
        some { s with
          q_ := Function.update s.q_ (Λ.queue p) rest
          waker := Function.update s.waker w (.popped p t) }
    | _ => none
  | .cas w =>
    match s.waker w with
    | .popped p t =>
      if s.pstate_ t = .ps_blocked then
        some { s with
          pstate_ := Function.update s.pstate_ t .ps_runnable
          waker := Function.update s.waker w (.cased p t) }
      else some { s with waker := Function.update s.waker w (.hold p) }
    | _ => none
  | .enqueue w =>
    match s.waker w with
    | .cased p t => some ({ s with waker := Function.update s.waker w (.hold p) }.enqueue Λ t)
    | _ => none
  | .preempt c =>
    match s.current_ c with
    | none =>
      if s.mode c = .run then some { s with mode := Function.update s.mode c .sched } else none
    | some t =>
      -- `yield()` enables interrupts for a moment in any case
      if s.mode c = .run ∧ (Λ.ie t = true ∨ s.pc t = .yield) ∧ s.holdsLock t = false then
        some { s with mode := Function.update s.mode c .sched }
      else none
  | .switch c => if s.mode c = .sched then some (s.switch c) else none
  | .resume c =>
    if s.mode c = .sched ∧ s.runnable (s.current_ c) = true then
      some { s with mode := Function.update s.mode c .run }
    else none

/-- A kernel in which nobody waits: every task is runnable, and it runs or is on its run queue. -/
structure Init : Prop where
  pstate : ∀ t, s.pstate_ t = .ps_runnable
  pc : ∀ t, s.pc t = .out
  queue : ∀ q, s.q_ q = [] ∧ s.qlock q = none
  waker : ∀ w, s.waker w = .idle
  held : ∀ l, s.held l = none
  current : ∀ c t, s.current_ c = some t → Λ.cpu t = c
  runq : ∀ c t, some t ∈ s.runq_ c → Λ.cpu t = c
  placed : ∀ t, s.current_ (Λ.cpu t) = some t ∨ some t ∈ s.runq_ (Λ.cpu t)
  mode : ∀ c, s.mode c = .run

end State

/-- The states after any interleaving of steps that satisfy `ok`. -/
def Reachable (Λ : Layout T C Q P L) (ok : State T W C Q P L → Act T W C P → Prop) :
    State T W C Q P L → Prop :=
  Reach (fun s => s.Init Λ) (fun s a s' => s.step Λ a = some s') ok

end Chickadee.Wait
