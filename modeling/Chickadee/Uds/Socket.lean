import Chickadee.Lib.Run
import Chickadee.Fd.Table

/-!
# Sockets: `struct uds` of `k-vfs.cc` and its system calls

One socket, the processes that use it and their descriptor tables. A step is a section under
`client_server_lock_`; a call that sleeps gives the lock up and takes it again to test its predicate.
`uds::read` takes the locks of two tables one after the other while it holds `client_server_lock_`, so
that it is two steps. The tests of `p` in `uds::write` and `uds::read` are made before the lock is taken.
-/

namespace Chickadee.Uds

open Lib
open Fd (MAX_FD)

set_option linter.unusedSectionVars false

def UDS_TIMEOUT : ℕ := 100

/-- What a call returns. -/
inductive Ret
  | ok
  | fd (n : ℕ)
  | E_BADCONN | E_SOCKTIMEOUT | E_SOCKTAKEN | E_INVAL | E_PERM | E_BADF | E_MFILE
deriving DecidableEq

/-- Where a process is. -/
inductive Pc (V : Type)
  /-- not in a call on the socket -/
  | user
  /-- asleep in `accept` -/
  | accepting (start_time : ℕ)
  /-- asleep in `connect` -/
  | connecting (start_time : ℕ)
  /-- in `sendfd`, before the test of `client_` -/
  | checking (fd : ℕ)
  /-- in `uds::write`, before it takes the lock -/
  | locking (fd : ℕ)
  /-- asleep in `uds::write` -/
  | writing (fd : ℕ) (start_time : ℕ)
  /-- in `uds::read`, before it takes the lock -/
  | entering
  /-- asleep in `uds::read` -/
  | reading (start_time : ℕ)
  /-- in `uds::read`, which holds the lock and has found the client's vnode -/
  | installing (fd : ℕ) (vn : V)
deriving DecidableEq

/-- When the process went to sleep. -/
def Pc.start_time {V : Type} : Pc V → ℕ
  | .accepting t | .connecting t | .writing _ t | .reading t => t
  | _ => 0

/--
The socket and its users. An `fd_` of -1 is `none`; `lock` is the holder of `client_server_lock_` between
two steps, and `fault` says that a null pointer has been followed. `sent` records what each descriptor
for which `sendfd` returned 0 denoted then, less those that a timeout has dropped, and `got` the vnodes
that `receivefd` has returned.
-/
structure State (P G V : Type) where
  fd_ : Option ℕ
  listening_ : Bool
  accepting_ : Bool
  received_ : Bool
  server_ : Option P
  client_ : Option P
  lock : Option P
  ticks : ℕ
  pc : P → Pc V
  retval : P → Ret
  fdtable_ : G → ℕ → Option V
  fault : Bool
  sent : List (Option V)
  got : List V

/-- The steps. -/
inductive Act (P G V : Type)
  | tick
  /-- `open`, `close` or `dup2` changes a descriptor of a group -/
  | setfd (g : G) (fd : ℕ) (v : Option V)
  | listen (p : P)
  | accept (p : P)
  | acceptWake (p : P)
  | connect (p : P)
  | connectWake (p : P)
  | disconnect (p : P)
  /-- `sendfd`: the section under `thgrp_lock_` -/
  | sendfd (p : P) (fd : ℕ)
  /-- `uds::write`: the test of `client_` -/
  | check (p : P)
  | write (p : P)
  | writeWake (p : P)
  /-- `receivefd`: the test of `server_` -/
  | receivefd (p : P)
  | read (p : P)
  | readWake (p : P)
  /-- `uds::read`: the section under the server's lock -/
  | install (p : P)
deriving DecidableEq

variable {P G V : Type} [DecidableEq P] [DecidableEq G] [DecidableEq V]

namespace State

variable (thgrp_ : P → G) (s : State P G V)

def goto (p : P) (pc : Pc V) : State P G V := { s with pc := Function.update s.pc p pc }

/-- The call of `p` returns. -/
def ret (p : P) (r : Ret) : State P G V :=
  { s with pc := Function.update s.pc p .user, retval := Function.update s.retval p r }

/-- `uds::connected` -/
def connected : Bool := s.client_.isSome

/-- A call that went to sleep at `start_time` gives up. -/
def timedOut (start_time end_time : ℕ) : Bool := start_time + UDS_TIMEOUT ≤ end_time

/-- `proc::find_open_fd` -/
def find_open_fd (g : G) : Option ℕ :=
  (List.range MAX_FD).find? fun fd => 3 ≤ fd ∧ s.fdtable_ g fd = none

/-- The end of `accept`. -/
def accepted (p : P) (start_time end_time : ℕ) : State P G V :=
  if !s.connected then s.ret p .E_BADCONN
  else if timedOut start_time end_time then s.ret p .E_SOCKTIMEOUT
  else s.ret p .ok

def accept (p : P) : State P G V :=
  if !s.listening_ then s.ret p .E_BADCONN
  else
    -- the trace line that follows prints `server_->id_`
    let s := { s with accepting_ := true, fault := s.fault || s.server_.isNone }
    if s.connected then s.accepted p s.ticks s.ticks else s.goto p (.accepting s.ticks)

/-- The end of `connect`. -/
def connectEnd (p : P) (start_time end_time : ℕ) : State P G V :=
  if !s.accepting_ then s.ret p .E_BADCONN
  else if timedOut start_time end_time then s.ret p .E_SOCKTIMEOUT
  else { s.ret p .ok with client_ := some p }

def connect (p : P) : State P G V :=
  if s.connected then s.ret p .E_SOCKTAKEN
  else if !s.listening_ then s.ret p .E_BADCONN
  else if s.accepting_ then s.connectEnd p s.ticks s.ticks
  else s.goto p (.connecting s.ticks)

/-- `uds::close` -/
def close (p : P) : State P G V :=
  if s.server_ = some p then
    { s.ret p .ok with server_ := none, accepting_ := false, listening_ := false }
  else if s.client_ = some p then { s.ret p .ok with client_ := none }
  else s.ret p .E_INVAL

/-- The end of `uds::write`. -/
def writeEnd (p : P) (fd : ℕ) (start_time end_time : ℕ) : State P G V :=
  if !s.accepting_ || !s.connected then s.ret p .E_BADCONN
  else if timedOut start_time end_time then
    { s.ret p .E_SOCKTIMEOUT with received_ := true, sent := s.got.map some }
  else
    { s.ret p .ok with
      fd_ := some fd
      received_ := false
      sent := s.sent ++ [s.fdtable_ (thgrp_ p) fd] }

/-- The predicate that `uds::write` waits for. -/
def writeReady (start_time end_time : ℕ) : Bool := !s.received_ || timedOut start_time end_time

def write (p : P) (fd : ℕ) : State P G V :=
  if !s.accepting_ || !s.connected then s.ret p .E_BADCONN
  else if !s.received_ && !s.writeReady s.ticks s.ticks then s.goto p (.writing fd s.ticks)
  else s.writeEnd thgrp_ p fd s.ticks s.ticks

/-- The vnode that the descriptor in the mailbox denotes now; `none` also if there is no client. -/
def denoted : Option V :=
  s.client_.bind fun c => s.fd_.bind fun fd => s.fdtable_ (thgrp_ c) fd

/-- The end of `uds::read`, up to the end of the section under the client's lock. -/
def readEnd (p : P) (start_time end_time : ℕ) : State P G V :=
  if !s.accepting_ then s.ret p .E_BADCONN
  else if timedOut start_time end_time then
    { s.ret p .E_SOCKTIMEOUT with received_ := true, fd_ := none, sent := s.got.map some }
  else if !s.received_ then
    match s.client_, s.fd_ with
    | some c, some fd =>
      match s.fdtable_ (thgrp_ c) fd with
      | none => { s.ret p .E_BADF with fd_ := none, received_ := true }
      | some vn => { s.goto p (.installing fd vn) with lock := some p }
    | _, _ => { s with fault := true }
  else { s with fault := true }

def read (p : P) : State P G V :=
  if !s.accepting_ then s.ret p .E_BADCONN
  else if s.received_ then s.goto p (.reading s.ticks)
  else s.readEnd thgrp_ p s.ticks s.ticks

/-- `uds::read`, from the server's lock to the return. -/
def install (p : P) (fd : ℕ) (vn : V) : State P G V :=
  match s.server_ with
  | none => { s with fault := true }
  | some q =>
    let g := thgrp_ q
    match if s.fdtable_ g fd = none then some fd else s.find_open_fd g with
    | none => { s.ret p .E_MFILE with lock := none }
    | some newfd =>
      { s.ret p (.fd newfd) with
        fdtable_ := Function.update s.fdtable_ g (Function.update (s.fdtable_ g) newfd (some vn))
        fd_ := none
        received_ := true
        lock := none
        got := s.got ++ [vn] }

/-- `p` can take `client_server_lock_` at `pc`. -/
def At (p : P) (pc : Pc V) : Prop := s.pc p = pc ∧ s.lock = none

instance (p : P) (pc : Pc V) : Decidable (s.At p pc) := inferInstanceAs (Decidable (_ ∧ _))

/-- A step. -/
def step (a : Act P G V) : Option (State P G V) :=
  if s.fault then none
  else match a with
    | .tick => some { s with ticks := s.ticks + 1 }
    | .setfd g fd v =>
      some { s with fdtable_ := Function.update s.fdtable_ g (Function.update (s.fdtable_ g) fd v) }
    | .listen p =>
      if s.At p .user then
        if s.server_ = none then some (s.ret p .E_BADCONN)
        else some { s.ret p .ok with listening_ := true }
      else none
    | .accept p => if s.At p .user then some (s.accept p) else none
    | .acceptWake p =>
      match s.pc p with
      | .accepting t =>
        if s.lock = none ∧ (s.connected || timedOut t s.ticks) = true then
          some (s.accepted p t s.ticks)
        else none
      | _ => none
    | .connect p => if s.At p .user then some (s.connect p) else none
    | .connectWake p =>
      match s.pc p with
      | .connecting t =>
        if s.lock = none ∧ (s.accepting_ || timedOut t s.ticks) = true then
          some (s.connectEnd p t s.ticks)
        else none
      | _ => none
    | .disconnect p => if s.At p .user then some (s.close p) else none
    | .sendfd p fd =>
      if s.pc p = .user then
        if MAX_FD ≤ fd ∨ s.fdtable_ (thgrp_ p) fd = none then some (s.ret p .E_BADF)
        else some (s.goto p (.checking fd))
      else none
    | .check p =>
      match s.pc p with
      | .checking fd =>
        if s.client_ = some p then some (s.goto p (.locking fd)) else some (s.ret p .E_PERM)
      | _ => none
    | .write p =>
      match s.pc p with
      | .locking fd => if s.lock = none then some (s.write thgrp_ p fd) else none
      | _ => none
    | .writeWake p =>
      match s.pc p with
      | .writing fd t =>
        if s.lock = none ∧ s.writeReady t s.ticks = true then
          some (s.writeEnd thgrp_ p fd t s.ticks)
        else none
      | _ => none
    | .receivefd p =>
      if s.pc p = .user then
        if s.server_ = some p then some (s.goto p .entering) else some (s.ret p .E_PERM)
      else none
    | .read p => if s.At p .entering then some (s.read thgrp_ p) else none
    | .readWake p =>
      match s.pc p with
      | .reading t =>
        if s.lock = none ∧ (!s.received_ || timedOut t s.ticks) = true then
          some (s.readEnd thgrp_ p t s.ticks)
        else none
      | _ => none
    | .install p =>
      match s.pc p with
      | .installing fd vn => some (s.install thgrp_ p fd vn)
      | _ => none

/-- A socket as `syscall_socket` leaves it: bound to its maker, and nobody is in a call. -/
structure Init : Prop where
  server : s.server_ ≠ none
  fd : s.fd_ = none
  flags : s.listening_ = false ∧ s.accepting_ = false ∧ s.received_ = true
  client : s.client_ = none
  lock : s.lock = none
  pc : ∀ p, s.pc p = .user
  fault : s.fault = false
  logs : s.sent = [] ∧ s.got = []

end State

/-- The states after any interleaving of steps that satisfy `ok`. -/
def Reachable (thgrp_ : P → G) (ok : State P G V → Act P G V → Prop) : State P G V → Prop :=
  Reach State.Init (fun s a s' => s.step thgrp_ a = some s') ok

/-! ## What the steps keep -/

variable {thgrp_ : P → G} {s s' : State P G V} {p q : P} {fd : ℕ} {vn : V}

/-- The process is in `uds::read`, behind the test of `server_`. -/
def Pc.reads : Pc V → Bool
  | .entering | .reading _ | .installing _ _ => true
  | _ => false

/-- The server listens before it accepts, reads while it is the server, and keeps the lock while it takes
a descriptor. The predicate of `uds::write` is true whenever it is tested first. -/
structure Base (s : State P G V) : Prop where
  server : s.listening_ = true → s.server_ ≠ none
  accepting : s.accepting_ = true → s.listening_ = true
  full : s.received_ = false → s.fd_ ≠ none
  reads : ∀ p, (s.pc p).reads = true → s.server_ = some p
  installing : ∀ p fd vn, s.pc p = .installing fd vn →
    s.lock = some p ∧ s.received_ = false ∧ s.fd_ = some fd
  lock : ∀ p, s.lock = some p → ∃ fd vn, s.pc p = .installing fd vn
  writing : ∀ p fd t, s.pc p ≠ .writing fd t

/-- `p` goes on while nobody, or somebody else, holds the lock. -/
theorem Base.move (h : Base s) {x : Pc V} (hpc : s'.pc = Function.update s.pc p x)
    (hold : ∀ fd vn, s.pc p ≠ .installing fd vn) (hnew : ∀ fd vn, x ≠ .installing fd vn)
    (hwriting : ∀ fd t, x ≠ .writing fd t) (hreads : x.reads = true → s'.server_ = some p)
    (hlock : s'.lock = s.lock) (hserver : s'.server_ = s.server_)
    (hlisten : s'.listening_ = true → s'.server_ ≠ none)
    (haccept : s'.accepting_ = true → s'.listening_ = true)
    (hfull : s'.received_ = false → s'.fd_ ≠ none)
    (hbox : s.lock ≠ none → s'.received_ = s.received_ ∧ s'.fd_ = s.fd_) : Base s' := by
  refine ⟨hlisten, haccept, hfull, fun q hq => ?_, fun q fd vn hq => ?_, fun q hq => ?_,
    fun q fd t hq => ?_⟩ <;> by_cases hqp : q = p
  · rw [hpc, hqp, Function.update_self] at hq
    rw [hqp]
    exact hreads hq
  · rw [hpc, Function.update_of_ne hqp] at hq
    rw [hserver]
    exact h.reads q hq
  · rw [hpc, hqp, Function.update_self] at hq
    exact absurd hq (hnew fd vn)
  · rw [hpc, Function.update_of_ne hqp] at hq
    obtain ⟨hl, hr, hf⟩ := h.installing q fd vn hq
    obtain ⟨hr', hf'⟩ := hbox (by rw [hl]; simp)
    exact ⟨by rw [hlock, hl], by rw [hr', hr], by rw [hf', hf]⟩
  · obtain ⟨fd, vn, hinst⟩ := h.lock q (hlock ▸ hq)
    exact absurd (hqp ▸ hinst) (hold fd vn)
  · obtain ⟨fd, vn, hinst⟩ := h.lock q (hlock ▸ hq)
    exact ⟨fd, vn, by rw [hpc, Function.update_of_ne hqp, hinst]⟩
  · rw [hpc, hqp, Function.update_self] at hq
    exact hwriting fd t hq
  · rw [hpc, Function.update_of_ne hqp] at hq
    exact h.writing q fd t hq

/-- The call of `p` returns, with another process' lock and everything else as it was. -/
theorem Base.ret (h : Base s) (hold : ∀ fd vn, s.pc p ≠ .installing fd vn) (r : Ret) :
    Base (s.ret p r) :=
  h.move rfl hold (by simp) (by simp) (fun hr => by cases hr) rfl rfl h.server h.accepting h.full
    fun _ => ⟨rfl, rfl⟩

end Chickadee.Uds
