import Mathlib.Data.Multiset.Count
import Chickadee.Lib.Run
import Chickadee.Bufcache.Cache

/-!
# The buffer cache as a concurrent machine

A task is the place in the code where it stands. One step runs one section, i.e. everything between
two points where the task holds neither the cache's nor the entry's lock, or one transfer of the
disk. Tasks that hold several references are several tasks here, each with one of them, which only
adds runs. A loop of `sync` that sleeps on a prefetch keeps the lock of that entry; here others may
use the entry meanwhile, which again only adds runs.
-/

namespace Chickadee.Bufcache

open Chickadee.Lib

/--
Where a task stands. `bn` is the block that it asked for, `i` the entry it uses. `loc` is the dirty
list that a running `sync` took away, `cont` the block that its caller `get_disk_entry` wants.
-/
inductive Pc
  /-- calls `get_disk_entry(bn)` -/
  | get (bn : ℕ)
  /-- waits in `get_disk_entry` for the prefetch in slot `i` -/
  | getWait (bn : ℕ) (i : Fin ne)
  /-- waits for the disk to read entry `i` -/
  | reading (bn : ℕ) (i : Fin ne)
  /-- the disk has read entry `i` -/
  | readDone (bn : ℕ) (i : Fin ne)
  /-- waits until another task has loaded entry `i` -/
  | waitLoading (bn : ℕ) (i : Fin ne)
  /-- holds a reference to entry `i` -/
  | held (bn : ℕ) (i : Fin ne)
  /-- is between the two sections of `get_write(true)` -/
  | pushing (bn : ℕ) (i : Fin ne)
  /-- holds the write reference of entry `i` -/
  | writing (bn : ℕ) (i : Fin ne)
  /-- calls `sync(drop)` -/
  | syncStart (drop : ℤ) (cont : Option ℕ)
  /-- is at the head of the loop of `sync` that writes buffers -/
  | syncLoop (drop : ℤ) (cont : Option ℕ) (loc : List (Fin ne))
  /-- has popped `e` and waits for its write reference -/
  | syncGet (drop : ℤ) (cont : Option ℕ) (loc : List (Fin ne)) (e : Fin ne)
  /-- waits for the disk to write `e` -/
  | syncWrite (drop : ℤ) (cont : Option ℕ) (loc : List (Fin ne)) (e : Fin ne)
  /-- the disk has written `e` -/
  | syncMark (drop : ℤ) (cont : Option ℕ) (loc : List (Fin ne)) (e : Fin ne)
  /-- has marked `e` clean -/
  | syncPut (drop : ℤ) (cont : Option ℕ) (loc : List (Fin ne)) (e : Fin ne)
  /-- waits in the loop of `sync` that drops buffers for the prefetch in slot `i` -/
  | syncDrop (drop : ℤ) (cont : Option ℕ) (i : Fin ne) (rest : List (Fin ne))
deriving DecidableEq

/-- What a caller of the cache observes. -/
inductive Event (α : Type*)
  /-- `get_disk_entry(bn)` returned an entry for block `bn'` whose buffer holds `v` -/
  | got (bn bn' : ℕ) (v : Option α)
  /-- the buffer of an entry for block `bn` was set to `v` under `get_write(true)` -/
  | wrote (bn : ℕ) (v : α)

/-- The cache, the disk, the tasks and the events so far, the latest first. -/
structure State (α : Type*) where
  c : Cache α
  disk : ℕ → α
  tasks : Multiset Pc
  log : List (Event α)

/-- One step of some task, or of the disk. -/
inductive Act (α : Type*)
  /-- a task calls `get_disk_entry(bn)` -/
  | callGet (bn : ℕ)
  /-- a task calls `sync(drop)` -/
  | callSync (drop : ℤ)
  /-- a task at `pc` runs on; `ok` says that `kalloc` has memory, and `io` is `none` if the disk
  request succeeds, else what it leaves -/
  | next (pc : Pc) (ok : Bool) (io : Option α)
  /-- `get_write(true)`, up to the end of its first section -/
  | get_write (bn : ℕ) (i : Fin ne)
  /-- the holder of the write reference sets the buffer -/
  | modify (bn : ℕ) (i : Fin ne) (v : α)
  | put_write (bn : ℕ) (i : Fin ne)
  | put (bn : ℕ) (i : Fin ne)
  /-- an iteration of `prefetch` for block `bn` -/
  | prefetch (bn : ℕ) (ok slot : Bool)
  /-- the disk completes the prefetch in slot `i` -/
  | complete (i : Fin ne) (io : Option α)

variable {α : Type*}

namespace Pc

/-- How often `i` stands on the dirty list that a running `sync` has taken away. -/
def localCount : Pc → Fin ne → ℕ
  | syncLoop _ _ loc, i => loc.count i
  | syncGet _ _ loc _, i => loc.count i
  | syncWrite _ _ loc _, i => loc.count i
  | syncMark _ _ loc _, i => loc.count i
  | syncPut _ _ loc _, i => loc.count i
  | _, _ => 0

end Pc

/-- Where a section of `get_disk_entry(bn)` leaves its task. -/
def GetResult.pc (bn : ℕ) : Cache.GetResult → Option Pc
  | .null => none
  | .entry i => some (.held bn i)
  | .prefetching i => some (.getWait bn i)
  | .reading i => some (.reading bn i)
  | .loading i => some (.waitLoading bn i)
  | .full => some (.syncStart 0 (some bn))

/-- What the disk leaves in memory or on disk. -/
def ioResult (v : α) : Option α → α
  | none => v
  | some g => g

theorem lawfulBEq_slot : LawfulBEq (Fin ne) := inferInstance

attribute [local instance] lawfulBEq_slot

/-- `dlink_.is_linked()`: on the dirty list, or on a list that a running `sync` took away. -/
def State.linked (s : State α) (i : Fin ne) : Bool :=
  i ∈ s.c.dirty_list_ || decide (0 < (s.tasks.map (·.localCount i)).sum)

/-- Add a task, if there is one. -/
def addTask (T : Multiset Pc) : Option Pc → Multiset Pc
  | none => T
  | some pc => pc ::ₘ T

/-- The state after the task at `pc` has gone to `pc'`. -/
def State.goto (s : State α) (pc : Pc) (pc' : Option Pc) : State α :=
  { s with tasks := addTask (s.tasks.erase pc) pc' }

/-- The end of a section of `get_disk_entry(bn)`, with its event. -/
def State.gotGet (s : State α) (pc : Pc) (bn : ℕ) : Option (Cache α × Cache.GetResult) →
    Option (State α)
  | none => none
  | some (c, r) =>
    let s := { s with c }.goto pc (GetResult.pc bn r)
    match r with
    | .entry i => some { s with log := .got bn (c.e_ i).bn_ (c.e_ i).buf_ :: s.log }
    | _ => some s

/-- Where `sync` goes when it returns. -/
def syncReturn (cont : Option ℕ) : Option Pc := cont.map .get

/-- Where the loop that drops buffers leaves its task. -/
def dropReturn (drop : ℤ) (cont : Option ℕ) : List (Fin ne) → Option Pc
  | [] => syncReturn cont
  | i :: rest => some (.syncDrop drop cont i rest)

/-- The next section of the task at `pc`. -/
def State.next [Inhabited α] (s : State α) (pc : Pc) (ok : Bool) (io : Option α) :
    Option (State α) :=
  match pc with
  | .get bn => s.gotGet pc bn (s.c.get_disk_entry bn ok)
  | .getWait bn i => s.gotGet pc bn (s.c.get_resume bn i ok)
  | .reading bn i =>
    let b := s.c.e_ i
    some ({ s with c := s.c.set i { b with buf_ := some (ioResult (s.disk b.bn_) io) } }.goto pc
      (some (.readDone bn i)))
  | .readDone bn i => s.gotGet pc bn (s.c.loaded i)
  | .waitLoading bn i => s.gotGet pc bn (s.c.load i ok)
  | .held _ _ => none
  | .pushing bn i =>
    some ({ s with c := s.c.pushDirty i (s.linked i) }.goto pc (some (.writing bn i)))
  | .writing _ _ => none
  | .syncStart drop cont =>
    some ({ s with c := { s.c with dirty_list_ := [] } }.goto pc
      (some (.syncLoop drop cont s.c.dirty_list_)))
  | .syncLoop drop cont (e :: loc) => some (s.goto pc (some (.syncGet drop cont loc e)))
  | .syncLoop drop cont [] =>
    if drop > 0 then
      match s.c.dropLoop drop (List.finRange ne) with
      | none => none
      | some (c, rest) => some ({ s with c }.goto pc (dropReturn drop cont rest))
    else some (s.goto pc (syncReturn cont))
  | .syncGet drop cont loc e =>
    (s.c.get_write e).map fun c => { s with c }.goto pc (some (.syncWrite drop cont loc e))
  | .syncWrite drop cont loc e =>
    (s.c.e_ e).buf_.map fun v =>
      { s with disk := Function.update s.disk (s.c.e_ e).bn_ (ioResult v io) }.goto pc
        (some (.syncMark drop cont loc e))
  | .syncMark drop cont loc e =>
    (s.c.syncMark drop e).map fun c => { s with c }.goto pc (some (.syncPut drop cont loc e))
  | .syncPut drop cont loc e =>
    (s.c.put_write e).map fun c => { s with c }.goto pc (some (.syncLoop drop cont loc))
  | .syncDrop drop cont i rest =>
    match s.c.dropResume drop i rest with
    | none => none
    | some (c, rest) => some ({ s with c }.goto pc (dropReturn drop cont rest))

/-- One step. `none` means that it is not possible or that an assertion fails. -/
def State.step [Inhabited α] (s : State α) : Act α → Option (State α)
  | .callGet bn => some { s with tasks := .get bn ::ₘ s.tasks }
  | .callSync drop => some { s with tasks := .syncStart drop none ::ₘ s.tasks }
  | .next pc ok io => if pc ∈ s.tasks then s.next pc ok io else none
  | .get_write bn i =>
    if .held bn i ∈ s.tasks then
      (s.c.get_write i).map fun c => { s with c }.goto (.held bn i) (some (.pushing bn i))
    else none
  | .modify bn i v =>
    if .writing bn i ∈ s.tasks then
      some { s with
        c := s.c.set i { s.c.e_ i with buf_ := some v }
        log := .wrote (s.c.e_ i).bn_ v :: s.log }
    else none
  | .put_write bn i =>
    if .writing bn i ∈ s.tasks then
      (s.c.put_write i).map fun c => { s with c }.goto (.writing bn i) (some (.held bn i))
    else none
  | .put bn i =>
    if .held bn i ∈ s.tasks then
      (s.c.put i).map fun c => { s with c }.goto (.held bn i) none
    else none
  | .prefetch bn ok slot => (s.c.prefetch bn ok slot).map fun c => { s with c }
  | .complete i io =>
    let b := s.c.e_ i
    if i ∈ s.c.pfq_ ∧ b.again then
      some { s with
        c := s.c.set i { b with buf_ := some (ioResult (s.disk b.bn_) io), again := false } }
    else none

/-- The state after boot, on a disk with content `d`. -/
def State.init (d : ℕ → α) : State α := { c := .init, disk := d, tasks := 0, log := [] }

/-- The states reached from boot by steps that meet `ok`. -/
def Reachable [Inhabited α] (d : ℕ → α) (ok : State α → Act α → Prop) (s : State α) : Prop :=
  Reach (· = State.init d) (fun s a s' => s.step a = some s') ok s

end Chickadee.Bufcache
