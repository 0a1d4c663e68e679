import Chickadee.Lib.Bytes
import Chickadee.Lib.Ring
import Chickadee.Lib.Run
import Mathlib.Data.Multiset.Basic

/-!
# Pipes: `pipe_bbuf` of `k-vfs.cc`

The bounded buffer between the two ends of a pipe, and the tasks that are inside one of its calls.
Every section that runs under one hold of the buffer's lock is one step: the beginning of a call, up
to its end or until it blocks; what a task does when it has been woken, again up to the end or until
it blocks; and the destructor of an end. A call that ends says what it returned; `accepted` and
`returned` record, over all calls so far, the bytes that writes took and the bytes that reads gave.

A step is `none` when an assertion fails or when there is no task to take it.
-/

namespace Chickadee.Pipe

open Lib

abbrev BBUF_CAP : ℕ := 256
abbrev E_PIPE : ℤ := -32

/-- `struct pipe_bbuf`, without its lock and its wait queues. -/
structure Bbuf where
  bbuf_ : ℕ → UInt8
  pos_ : ℕ
  len_ : ℕ
  write_closed_ : Bool
  read_closed_ : Bool

namespace Bbuf

/-- `pipe_empty()`. -/
def pipe_empty (b : Bbuf) : Bool := b.len_ = 0

/-- `pipe_full()`, with its assertion. -/
def pipe_full (b : Bbuf) : Option Bool :=
  if b.len_ ≤ BBUF_CAP then some (b.len_ = BBUF_CAP) else none

/-- The copy loop of `write`: the buffer and the number of bytes written. -/
def writeLoop (data : List UInt8) : ℕ → Bbuf → ℕ → Bbuf × ℕ
  | 0, b, pos => (b, pos)
  | fuel + 1, b, pos =>
    if pos < data.length ∧ b.len_ < BBUF_CAP then
      let index := (b.pos_ + b.len_) % BBUF_CAP
      let available_space := min (BBUF_CAP - index) (BBUF_CAP - b.len_)
      let wr_sz := min (data.length - pos) available_space
      let bbuf := copyTo b.bbuf_ index wr_sz fun i => data.getD (pos + i) 0
      writeLoop data fuel { b with bbuf_ := bbuf, len_ := b.len_ + wr_sz } (pos + wr_sz)
    else (b, pos)

/-- The copy loop of `read`: the buffer and the bytes stored for the caller. -/
def readLoop (sz : ℕ) : ℕ → Bbuf → List UInt8 → Bbuf × List UInt8
  | 0, b, out => (b, out)
  | fuel + 1, b, out =>
    if out.length < sz ∧ 0 < b.len_ then
      let available_space := min b.len_ (BBUF_CAP - b.pos_)
      let n := min (sz - out.length) available_space
      readLoop sz fuel { b with pos_ := (b.pos_ + n) % BBUF_CAP, len_ := b.len_ - n }
        (out ++ cells b.bbuf_ b.pos_ n)
    else (b, out)

/-- What has been written and not yet read. -/
def unread (b : Bbuf) : List UInt8 := ringList b.bbuf_ BBUF_CAP b.pos_ b.len_

end Bbuf

/-- A task inside a call, on a wait queue (`Wait`) or woken and about to test again (`Woken`). -/
inductive Task
  | wrWait (data : List UInt8)
  | wrWoken (data : List UInt8)
  | rdWait (sz : ℕ)
  | rdWoken (sz : ℕ)
deriving DecidableEq

/-- How a section ends. -/
inductive Ret
  /-- the call blocks, or the section is not part of a call -/
  | none
  /-- `write` of `data` returns `r` -/
  | wrote (data : List UInt8) (r : ℤ)
  /-- `read` of `sz` bytes returns the length of `bytes` -/
  | got (sz : ℕ) (bytes : List UInt8)

/-- The sections. -/
inductive Act
  /-- a task with the write end calls `write` -/
  | write (data : List UInt8)
  /-- a woken writer tests again -/
  | rewrite (data : List UInt8)
  /-- a task with the read end calls `read` -/
  | read (sz : ℕ)
  /-- a woken reader tests again -/
  | reread (sz : ℕ)
  /-- a task that has been told to exit leaves the call in which it waits -/
  | leave (t : Task)
  /-- the destructor of the write end -/
  | close_write
  /-- the destructor of the read end -/
  | close_read

/-- A pipe, the tasks inside its calls, and what the calls have transferred so far. -/
structure State where
  b : Bbuf
  tasks : Multiset Task
  accepted : List UInt8
  returned : List UInt8

/-- `wrq_.wake_all()`. -/
def wakeWriters : Task → Task
  | .wrWait data => .wrWoken data
  | t => t

/-- `rdq_.wake_all()`. -/
def wakeReaders : Task → Task
  | .rdWait sz => .rdWoken sz
  | t => t

namespace State

/-- Record what a call returned. -/
def record (s : State) : Ret → State
  | .none => s
  | .wrote data r => { s with accepted := s.accepted ++ data.take r.toNat }
  | .got _ bytes => { s with returned := s.returned ++ bytes }

/-- `write` from the test of `read_closed_` on. -/
def writeTail (s : State) (data : List UInt8) : State × Ret :=
  if s.b.read_closed_ then (s, .wrote data E_PIPE)
  else
    let (b, pos) := s.b.writeLoop data (data.length + 1) 0
    ({ s with b := b, tasks := s.tasks.map wakeReaders }, .wrote data pos)

/-- `read` from the test for the end of the file on. -/
def readTail (s : State) (sz : ℕ) : State × Ret :=
  if s.b.write_closed_ ∧ s.b.pipe_empty then (s, .got sz [])
  else
    let (b, out) := s.b.readLoop sz (sz + 1) []
    ({ s with b := b, tasks := s.tasks.map wakeWriters }, .got sz out)

/-- `block_until` of `write`, from `prepare` to the end of the section. -/
def writeBlock (s : State) (data : List UInt8) : Option (State × Ret) :=
  match s.b.pipe_full with
  | none => none
  | some full =>
    if !full || s.b.read_closed_ then some (s.writeTail data)
    else some ({ s with tasks := .wrWait data ::ₘ s.tasks }, .none)

/-- `block_until` of `read`, from `prepare` to the end of the section. -/
def readBlock (s : State) (sz : ℕ) : State × Ret :=
  if !s.b.pipe_empty || s.b.write_closed_ then s.readTail sz
  else ({ s with tasks := .rdWait sz ::ₘ s.tasks }, .none)

/-- A section, without the record. -/
def next (s : State) : Act → Option (State × Ret)
  | .write data =>
    if s.b.write_closed_ then none
    else
      match s.b.pipe_full with
      | none => none
      | some full => if full ∧ data ≠ [] then s.writeBlock data else some (s.writeTail data)
  | .rewrite data =>
    if .wrWoken data ∈ s.tasks then
      { s with tasks := s.tasks.erase (.wrWoken data) }.writeBlock data
    else none
  | .read sz =>
    if s.b.read_closed_ then none
    else if s.b.pipe_empty ∧ !s.b.write_closed_ ∧ sz ≠ 0 then some (s.readBlock sz)
    else some (s.readTail sz)
  | .reread sz =>
    if .rdWoken sz ∈ s.tasks then
      some ({ s with tasks := s.tasks.erase (.rdWoken sz) }.readBlock sz)
    else none
  | .leave t => if t ∈ s.tasks then some ({ s with tasks := s.tasks.erase t }, .none) else none
  | .close_write =>
    if s.b.write_closed_ then none
    else some ({ s with
      b := { s.b with write_closed_ := true }, tasks := s.tasks.map wakeReaders }, .none)
  | .close_read =>
    if s.b.read_closed_ then none
    else some ({ s with
      b := { s.b with read_closed_ := true }, tasks := s.tasks.map wakeWriters }, .none)

/-- A section and the record of what it returned. -/
def step (s : State) (a : Act) : Option (State × Ret) :=
  match s.next a with
  | none => none
  | some (s', r) => some (s'.record r, r)

end State

/-- A task inside `write`. -/
def Task.isWriter : Task → Bool
  | .wrWait _ | .wrWoken _ => true
  | _ => false

/-- A task inside `read`. -/
def Task.isReader : Task → Bool
  | .rdWait _ | .rdWoken _ => true
  | _ => false

/--
What the users of a pipe keep to: sizes are below `2 ^ 31`; an end is used while it is open, is closed
once, and only when no task is inside one of its calls.
-/
def Allowed (s : State) : Act → Prop
  | .write data => data.length < 2 ^ 31 ∧ s.b.write_closed_ = false
  | .read sz => sz < 2 ^ 31 ∧ s.b.read_closed_ = false
  | .close_write => s.b.write_closed_ = false ∧ ∀ t ∈ s.tasks, t.isWriter = false
  | .close_read => s.b.read_closed_ = false ∧ ∀ t ∈ s.tasks, t.isReader = false
  | _ => True

/-- The task that a section belongs to is there. -/
def Present (s : State) : Act → Prop
  | .rewrite data => .wrWoken data ∈ s.tasks
  | .reread sz => .rdWoken sz ∈ s.tasks
  | .leave t => t ∈ s.tasks
  | _ => True

/-- A new pipe. Its buffer is not initialised. -/
def State.init (m : ℕ → UInt8) : State where
  b := { bbuf_ := m, pos_ := 0, len_ := 0, write_closed_ := false, read_closed_ := false }
  tasks := 0
  accepted := []
  returned := []

/-- The states of a pipe after any interleaving of the sections. -/
def Reachable : State → Prop :=
  Reach (fun s => ∃ m, s = .init m) (fun s a s' => ∃ r, s.step a = some (s', r)) Allowed

end Chickadee.Pipe
