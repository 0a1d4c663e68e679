import Chickadee.Lib.Run
import Chickadee.Wait.Queue
import Mathlib.Data.Set.Card

/-!
# Futexes: `k-futex.cc` and `proc::syscall_futex`

Tasks of several address spaces that call `FUTEX_WAIT` and `FUTEX_WAKE`. All of them share one list of
futex states, which is looked up by the user virtual address of the word.

A step is what happens under one hold of a lock or one access to memory. `syscall_futex` runs with
interrupts disabled, so a waiter leaves its CPU in `yield()` only. `futexwaiters::find` takes no lock
when it is called by `wake_some`: what it finds may be deleted before the waker uses it.
-/

namespace Chickadee.Futex

open Lib
open Wait (Pstate)

set_option linter.unusedSectionVars false

def FUTEX_WAIT : ℕ := 1

def FUTEX_WAKE : ℕ := 2

/-- The arguments of the system call, without the operation. -/
structure Args where
  uaddr : ℕ
  val : BitVec 32
  timeout_msec : BitVec 64
deriving DecidableEq

/-- What the system call returns. -/
inductive Ret | ok | E_INVAL | E_FAULT | E_AGAIN | E_NOMEM | E_TIMEDOUT
deriving DecidableEq

/-- Where a task is in `syscall_futex`. `S` are the addresses of futex states. -/
inductive Pc (S : Type)
  /-- in user mode -/
  | user
  /-- before the first test of the word -/
  | check
  /-- before `ftwaiters.add` -/
  | add
  /-- in `block_until`, before `prepare` -/
  | prepare (f : S)
  /-- before the test of the predicate -/
  | test (f : S)
  /-- in `block()`, before the test of `pstate_` -/
  | block (f : S)
  /-- in `block()`, before `yield()` -/
  | yield (f : S)
  /-- off its CPU -/
  | asleep (f : S)
  /-- in `block()`, before `clear()` -/
  | clear (f : S)
  /-- behind the loop of `block_until`, before `clear()` -/
  | leave (f : S)
  /-- before `ftwaiters.remove` -/
  | remove (f : S)
  /-- `FUTEX_WAKE`, before `find` -/
  | find
  /-- before `wq_.wake_some` of the state that `find` returned -/
  | wake (f : S)
  /-- the task will never run again -/
  | exiting
deriving DecidableEq

/-- The futex state on which a task waits, from `add` to `remove`. -/
def Pc.waits {S : Type} : Pc S → Option S
  | .prepare f | .test f | .block f | .yield f | .asleep f | .clear f | .leave f | .remove f => some f
  | _ => none

/--
The kernel. `mem` is the memory of each address space as the kernel reads it, word by word; `states_`
is the list of the futex states, and `word_`, `ref_` and `wq_` are the members of each. The waiter of
a task is named by the task.
-/
structure State (T S A : Type) where
  pc : T → Pc S
  args : T → Args
  retval : T → Ret
  timeout_wakeup : T → BitVec 64
  timed_out : T → Bool
  pstate_ : T → Pstate
  exit_signal_ : T → Bool
  mem : A → ℕ → BitVec 32
  ticks : BitVec 64
  states_ : List S
  word_ : S → ℕ
  ref_ : S → ℕ
  wq_ : S → List T

/-- The steps. -/
inductive Act (T S A : Type)
  /-- `t` calls `sys_futex`; `fault` says that the word is not mapped writable for the user -/
  | call (t : T) (op : ℕ) (args : Args) (fault : Bool)
  /-- user code writes a word of its address space -/
  | write (a : A) (uaddr : ℕ) (x : BitVec 32)
  | tick
  | check (t : T)
  /-- `new` is what `knew` returns if it is called -/
  | add (t : T) (new : Option S)
  | prepare (t : T)
  | test (t : T)
  | block (t : T)
  | yield (t : T)
  | resume (t : T)
  | clear (t : T)
  | leave (t : T)
  | remove (t : T)
  | find (t : T)
  | wake (t : T)
  /-- `check_timeout` wakes the waiters of a state -/
  | check_timeout (f : S)
  /-- the group of `t` exits -/
  | signal (t : T)
  /-- `schedule` stops a task that is in user mode -/
  | kill (t : T)
deriving DecidableEq

variable {T S A : Type} [DecidableEq T] [DecidableEq S] [DecidableEq A]

namespace State

variable (Λ : T → A) (s : State T S A)

def goto (t : T) (pc : Pc S) : State T S A := { s with pc := Function.update s.pc t pc }

/-- The system call returns. -/
def ret (t : T) (r : Ret) : State T S A :=
  { s with pc := Function.update s.pc t .user, retval := Function.update s.retval t r }

/-- The word that `t` waits for, in its own address space. -/
def word (t : T) : BitVec 32 := s.mem (Λ t) (s.args t).uaddr

/-- `futexwaiters::find`. -/
def find (uaddr : ℕ) : Option S := s.states_.find? fun f => s.word_ f = uaddr

/-- The waiters that `wq_.wake_some(n)` takes from the queue. -/
def popped (f : S) (n : ℕ) : List T := (s.wq_ f).take n

/-- `wq_.wake_some(n)`, under the lock of the queue. -/
def wake_some (f : S) (n : ℕ) : State T S A :=
  { s with
    wq_ := Function.update s.wq_ f ((s.wq_ f).drop n)
    pstate_ := fun t => if t ∈ s.popped f n then .ps_runnable else s.pstate_ t }

/-- `waiter::clear()`, under the lock of the queue. -/
def clear (t : T) (f : S) : State T S A :=
  { s with
    wq_ := Function.update s.wq_ f ((s.wq_ f).erase t)
    pstate_ := Function.update s.pstate_ t .ps_runnable }

/-- `schedule` makes `t` exit. -/
def exit (t : T) : State T S A :=
  { s.goto t .exiting with exit_signal_ := Function.update s.exit_signal_ t false }

/-- The timeout of `t` has passed. -/
def expired (t : T) : Bool :=
  (s.args t).timeout_msec ≠ 0 && (s.timeout_wakeup t - s.ticks).toInt ≤ 0

/-- The number of tasks that `FUTEX_WAKE` is to wake: `val` as an `int`. -/
def nwake (t : T) : ℕ := (s.args t).val.toInt.toNat

/-- `futexwaiters::add`, under `lock_`; the timeout starts. -/
def add (t : T) (new : Option S) : Option (State T S A) :=
  let s' := { s with
    timed_out := Function.update s.timed_out t false
    timeout_wakeup := Function.update s.timeout_wakeup t
      (s.ticks + ((s.args t).timeout_msec + 9) / 10) }
  match s.find (s.args t).uaddr with
  | some f => some ({ s' with ref_ := Function.update s.ref_ f (s.ref_ f + 1) }.goto t (.prepare f))
  | none =>
    match new with
    | none => some (s.ret t .E_NOMEM)
    | some f =>
      if f ∉ s.states_ then
        some ({ s' with
          states_ := s.states_ ++ [f]
          word_ := Function.update s.word_ f (s.args t).uaddr
          ref_ := Function.update s.ref_ f 1
          wq_ := Function.update s.wq_ f [] }.goto t (.prepare f))
      else none

/-- `futexwaiters::remove`, under `lock_`. -/
def remove (t : T) (f : S) : State T S A :=
  { s with
    ref_ := Function.update s.ref_ f (s.ref_ f - 1)
    states_ := if s.ref_ f - 1 = 0 then s.states_.erase f else s.states_ }.ret t
      (if s.timed_out t then .E_TIMEDOUT else .ok)

/-- A step. -/
def step : Act T S A → Option (State T S A)
  | .call t op args fault =>
    if s.pc t = .user then
      if args.uaddr = 0 ∨ ¬(op = FUTEX_WAIT ∨ op = FUTEX_WAKE) ∨ (args.val = 0 ∧ op = FUTEX_WAKE) then
        some (s.ret t .E_INVAL)
      else if fault then some (s.ret t .E_FAULT)
      else some ({ s with args := Function.update s.args t args }.goto t
        (if op = FUTEX_WAIT then .check else .find))
    else none
  | .write a uaddr x =>
    some { s with mem := Function.update s.mem a (Function.update (s.mem a) uaddr x) }
  | .tick => some { s with ticks := s.ticks + 1 }
  | .check t =>
    if s.pc t = .check then
      if s.word Λ t ≠ (s.args t).val then some (s.ret t .E_AGAIN) else some (s.goto t .add)
    else none
  | .add t new => if s.pc t = .add then s.add t new else none
  | .prepare t =>
    match s.pc t with
    | .prepare f =>
      some ({ s with
        pstate_ := Function.update s.pstate_ t .ps_blocked
        wq_ := Function.update s.wq_ f (s.wq_ f ++ [t]) }.goto t (.test f))
    | _ => none
  | .test t =>
    match s.pc t with
    | .test f =>
      if s.expired t then
        some ({ s with timed_out := Function.update s.timed_out t true }.goto t (.leave f))
      else if s.word Λ t ≠ (s.args t).val ∨ s.exit_signal_ t then some (s.goto t (.leave f))
      else some (s.goto t (.block f))
    | _ => none
  | .block t =>
    match s.pc t with
    | .block f =>
      some (s.goto t (if s.pstate_ t = .ps_blocked then .yield f else .clear f))
    | _ => none
  | .yield t =>
    match s.pc t with
    | .yield f =>
      if s.exit_signal_ t ∧ s.pstate_ t = .ps_runnable then some (s.exit t)
      else some (s.goto t (.asleep f))
    | _ => none
  | .resume t =>
    match s.pc t with
    | .asleep f => if s.pstate_ t = .ps_runnable then some (s.goto t (.clear f)) else none
    | _ => none
  | .clear t =>
    match s.pc t with
    | .clear f => some ((s.clear t f).goto t (.prepare f))
    | _ => none
  | .leave t =>
    match s.pc t with
    | .leave f =>
      if s.exit_signal_ t then some ((s.clear t f).exit t) else some ((s.clear t f).goto t (.remove f))
    | _ => none
  | .remove t =>
    match s.pc t with
    | .remove f => some (s.remove t f)
    | _ => none
  | .find t =>
    if s.pc t = .find then
      match s.find (s.args t).uaddr with
      | some f => some (s.goto t (.wake f))
      | none => some (s.ret t .ok)
    else none
  | .wake t =>
    match s.pc t with
    | .wake f =>
      -- the memory of a deleted state is not modelled: nobody waits there any more
      if f ∈ s.states_ then some ((s.wake_some f (s.nwake t)).ret t .ok) else some (s.ret t .ok)
    | _ => none
  | .check_timeout f =>
    if f ∈ s.states_ then some (s.wake_some f (s.wq_ f).length) else none
  | .signal t => some { s with exit_signal_ := Function.update s.exit_signal_ t true }
  | .kill t => if s.pc t = .user ∧ s.exit_signal_ t then some (s.exit t) else none

/-- A kernel in which no task is in `sys_futex`. -/
structure Init : Prop where
  pc : ∀ t, s.pc t = .user
  pstate : ∀ t, s.pstate_ t = .ps_runnable
  states : s.states_ = []

end State

/-- The states after any interleaving of steps that satisfy `ok`. -/
def Reachable (Λ : T → A) (ok : State T S A → Act T S A → Prop) : State T S A → Prop :=
  Reach State.Init (fun s a s' => s.step Λ a = some s') ok

/-! ## What the steps change -/

section

variable (s : State T S A) (t u : T) (f : S)

@[simp] theorem State.goto_pc (pc : Pc S) : (s.goto t pc).pc = Function.update s.pc t pc := rfl

@[simp] theorem State.ret_pc (r : Ret) : (s.ret t r).pc = Function.update s.pc t .user := rfl

@[simp] theorem State.exit_pc : (s.exit t).pc = Function.update s.pc t .exiting := rfl

@[simp] theorem State.clear_pc : (s.clear t f).pc = s.pc := rfl

@[simp] theorem State.wake_some_pc (n : ℕ) : (s.wake_some f n).pc = s.pc := rfl

@[simp] theorem State.remove_pc : (s.remove t f).pc = Function.update s.pc t .user := rfl

end

end Chickadee.Futex
