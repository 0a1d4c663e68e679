import Mathlib.Tactic

/-!
# `ahcistate`: the slots of the disk

A step is one section under the lock of the disk: a request that takes a slot or finds none, an interrupt
with all its acknowledgements. Between two of them the device may complete a command. What a request leaves
for its acknowledgement is a pointer to a status word: on the stack of a caller that waits, or in an entry of
the cache.
-/

namespace Chickadee.Ahci

def E_AGAIN : ℤ := -11

def E_IO : ℤ := -5

/-- A status word: `r` of a blocking request, or `pfstatus_` of an entry. -/
inductive Word (T E : Type)
  | stack (t : T)
  | entry (e : E)
  deriving DecidableEq

/-- `struct ahcistate`, as far as the slots go, with the register of the active commands. -/
structure Ahcistate (W : Type) where
  nslots_ : ℕ
  nslots_available_ : ℕ
  slots_outstanding_mask_ : BitVec 32
  slot_status_ : ℕ → Option W
  ncq_active_mask : BitVec 32

namespace Ahcistate

variable {W : Type}

/-- `slots_outstanding_mask_ & (1U << slot)` -/
def busy (d : Ahcistate W) (slot : ℕ) : Bool := d.slots_outstanding_mask_.getLsbD slot

/-- The slot that a request takes: the first one that is not outstanding. -/
def find_slot (d : Ahcistate W) : Option ℕ := (List.range d.nslots_).find? fun i => !d.busy i

/-- `issue_ncq(slot, …)`; none if an assertion fails. -/
def issue_ncq (d : Ahcistate W) (slot : ℕ) : Option (Ahcistate W) :=
  if slot < d.nslots_ ∧ d.busy slot = false then
    some { d with
      ncq_active_mask := d.ncq_active_mask ||| 1#32 <<< slot
      slots_outstanding_mask_ := d.slots_outstanding_mask_ ||| 1#32 <<< slot
      nslots_available_ := if d.nslots_available_ = 0 then 2 ^ 32 - 1 else d.nslots_available_ - 1 }
  else none

end Ahcistate

/-! ## The system -/

/-- Where a caller of `read_or_write` is: waiting for a slot, or for the command of its request. -/
inductive Phase
  | idle
  | waiting
  | issued (q : ℕ)
  deriving DecidableEq

/-- A store to a status word: the request whose command was acknowledged, and the last to use the word. -/
structure Store (W : Type) where
  cmd : ℕ
  word : W
  user : ℕ
  deriving DecidableEq

/-- The disk, the status words and the callers. What follows `halted` is history and decides nothing. -/
structure State (T E : Type) where
  disk : Ahcistate (Word T E)
  status : Word T E → ℤ
  phase : T → Phase
  /-- An assertion has failed. -/
  fault : Bool
  /-- The kernel has panicked. -/
  halted : Bool
  /-- The requests so far, numbered in the order of their commands. -/
  nreq : ℕ
  word : ℕ → Word T E
  /-- The request whose command a slot has, or had last. -/
  cmd : ℕ → ℕ
  user : Word T E → ℕ
  stores : List (Store (Word T E))
  /-- A request that was running, and one that came with the same word. -/
  reused : List (ℕ × ℕ)

namespace State

variable {T E : Type} [DecidableEq T] [DecidableEq E]

/-- `acknowledge(slot, result)` -/
def acknowledge (s : State T E) (slot : ℕ) (result : ℤ) : State T E :=
  if slot < s.disk.nslots_ ∧ s.disk.busy slot = true then
    let d := { s.disk with
      slots_outstanding_mask_ := s.disk.slots_outstanding_mask_ ^^^ 1#32 <<< slot
      nslots_available_ := (s.disk.nslots_available_ + 1) % 2 ^ 32 }
    match d.slot_status_ slot with
    | some w =>
      { s with
        disk := { d with slot_status_ := Function.update d.slot_status_ slot none }
        status := Function.update s.status w result
        stores := ⟨s.cmd slot, w, s.user w⟩ :: s.stores }
    | none => { s with disk := d }
  else { s with fault := true }

/-- The running requests that use the word `w`. -/
def runningWith (s : State T E) (w : Word T E) : List ℕ :=
  ((List.range 32).filter fun i => s.disk.busy i && decide (s.word (s.cmd i) = w)).map s.cmd

/-- The end of a section that has found a slot: `issue_ncq`, and the pointer to the status word `w`. -/
def send (s : State T E) (slot : ℕ) (w : Word T E) : State T E :=
  match s.disk.issue_ncq slot with
  | some d =>
    { s with
      disk := { d with slot_status_ := Function.update d.slot_status_ slot (some w) }
      nreq := s.nreq + 1
      word := Function.update s.word s.nreq w
      cmd := Function.update s.cmd slot s.nreq
      user := Function.update s.user w s.nreq
      reused := (s.runningWith w).map (fun q => (q, s.nreq)) ++ s.reused }
  | none => { s with fault := true }

/-- The acknowledgement of the completed commands, for the slots that are left. -/
def ackLoop (acks : BitVec 32) : List ℕ → State T E → State T E
  | [], s => s
  | slot :: slots, s => ackLoop acks slots (if acks.getLsbD slot = true then s.acknowledge slot 0 else s)

/-- The loop of `handle_error_interrupt`. -/
def errorLoop : List ℕ → State T E → State T E
  | [], s => s
  | slot :: slots, s => errorLoop slots (if s.disk.busy slot = true then s.acknowledge slot E_IO else s)

/-- `handle_interrupt()`: a disk error halts the kernel. -/
def handle_interrupt (s : State T E) (is_error : Bool) : State T E :=
  let acks := s.disk.slots_outstanding_mask_ &&& ~~~s.disk.ncq_active_mask
  let s := ackLoop acks (List.range 32) s
  if is_error = true then { errorLoop (List.range 32) s with halted := true } else s

end State

inductive Act (T E : Type)
  /-- `read_or_write` is called. -/
  | request (t : T)
  /-- Its caller looks for a slot, and goes on waiting if there is none. -/
  | take (t : T)
  | finish (t : T)
  /-- `prefetch_block` sets the status word and calls `read_or_write_nonblocking`. -/
  | prefetch (e : E)
  /-- The device has completed a command. -/
  | complete (slot : ℕ)
  | interrupt (is_error : Bool)

namespace State

variable {T E : Type} [DecidableEq T] [DecidableEq E]

/-- One step, where it is possible. After a failed assertion or a panic there is none. -/
def next (s : State T E) (a : Act T E) : Option (State T E) :=
  if s.fault = true ∨ s.halted = true then none
  else
    match a with
    | .request t =>
      if s.phase t = .idle then some { s with phase := Function.update s.phase t .waiting } else none
    | .take t =>
      if s.phase t = .waiting then
        match s.disk.find_slot with
        | some slot =>
          some ({ s with
            status := Function.update s.status (.stack t) E_AGAIN
            phase := Function.update s.phase t (.issued s.nreq) }.send slot (.stack t))
        | none => some s
      else none
    | .finish t =>
      match s.phase t with
      | .issued _ =>
        if s.status (.stack t) ≠ E_AGAIN then some { s with phase := Function.update s.phase t .idle } else none
      | .idle | .waiting => none
    | .prefetch e =>
      let s := { s with status := Function.update s.status (.entry e) E_AGAIN }
      match s.disk.find_slot with
      | some slot => some (s.send slot (.entry e))
      | none => some s
    | .complete slot =>
      if s.disk.ncq_active_mask.getLsbD slot = true then
        some { s with disk.ncq_active_mask := s.disk.ncq_active_mask &&& ~~~(1#32 <<< slot) }
      else none
    | .interrupt is_error => some (s.handle_interrupt is_error)

/-- The disk as its constructor leaves it: no command is outstanding. -/
structure Boot (s : State T E) : Prop where
  pos : 1 ≤ s.disk.nslots_
  nslots_ : s.disk.nslots_ ≤ 32
  available : s.disk.nslots_available_ = s.disk.nslots_
  mask : s.disk.slots_outstanding_mask_ = 0#32
  status : ∀ slot, s.disk.slot_status_ slot = none
  fault : s.fault = false
  phase : ∀ t, s.phase t = .idle
  nreq : s.nreq = 0
  stores : s.stores = []
  reused : s.reused = []

/-- The command of the request is outstanding. -/
def Running (s : State T E) (q : ℕ) : Prop := ∃ slot, s.disk.busy slot = true ∧ s.cmd slot = q

/-- The slots that are outstanding. -/
def outstanding (s : State T E) : Finset ℕ := (Finset.range 32).filter fun slot => s.disk.busy slot = true

end State

end Chickadee.Ahci
