import Chickadee.Fd.Table
import Chickadee.Fs.Inode

/-!
# Open files: the count in an inode, and the block it lives in

The upper bits of `inode::flags` count the `disk_vnode`s on a file, and the lowest bit says that the file
is unlinked. The inode lives in a block of the buffer cache: `fs` shows what the kernel sees, and `stored`
is what the disk holds. A block that is dropped is read again from the disk.

One step is one system call of a task that runs alone, or the cache writing back or dropping blocks. A
live `disk_vnode` holds a reference to the block of its inode; references that other calls hold only keep
more blocks. The directories are a map from path names to inode numbers, and of the loading of blocks
there is what the outcomes of `get_disk_entry` decide. There are fewer than 2^31 vnodes.
-/

namespace Chickadee.Fs.Open

open Lib

abbrev inodesperblock : ℕ := 64

/-- The low bit of `inode::flags` of a file without a name. -/
abbrev unlinked : ℕ := 1

/-- The place of an inode in the inode table. -/
abbrev block (i : ℕ) : ℕ := i / inodesperblock

/-- Vnodes `V`, the tables of groups `G` with threads `T` and sockets `S`, and path names `N`. -/
structure State (V G T S N : Type) where
  fd : Fd.State V G T S
  /-- the live `disk_vnode`s -/
  live : Finset V
  ino_ : V → ℕ
  fs : Disk
  /-- the kernel's memory at the cache entries, which `free_inode` may damage -/
  entries : ℕ → Extent
  stored : ℕ → Inode
  dirty : Finset ℕ
  /-- the blocks that were changed without `get_write` since they were dirty or loaded -/
  missed : Finset ℕ
  names : N → Option ℕ

variable {V G T S N : Type} [DecidableEq V] [DecidableEq G] [DecidableEq T] [DecidableEq S]
  [DecidableEq N]

namespace State

/-- The number of live `disk_vnode`s on an inode. -/
def liveOn (s : State V G T S N) (i : ℕ) : ℕ := (s.live.filter fun v => s.ino_ v = i).card

/-- A live vnode holds a reference to a block of the inode table. -/
def Referenced (s : State V G T S N) (b : ℕ) : Prop := ∃ v ∈ s.live, block (s.ino_ v) = b

instance (s : State V G T S N) (b : ℕ) : Decidable (s.Referenced b) :=
  inferInstanceAs (Decidable (∃ v ∈ s.live, block (s.ino_ v) = b))

/-- `entry()->get_write()`, a change of the inode, `entry()->put_write()` -/
def change (s : State V G T S N) (i : ℕ) (ino : Inode) : State V G T S N :=
  { s with
    fs := s.fs.setInode i ino
    dirty := insert (block i) s.dirty
    missed := s.missed.erase (block i) }

/-- A change of the inode without `get_write`. -/
def changeOnly (s : State V G T S N) (i : ℕ) (ino : Inode) : State V G T S N :=
  { s with
    fs := s.fs.setInode i ino
    missed := if block i ∈ s.dirty then s.missed else insert (block i) s.missed }

/--
`free_inode(ino)` of an unlinked file. `none`: it fails, which `inode::put` asserts it does not, or one of
its own assertions does.
-/
def free_inode (s : State V G T S N) (i : ℕ) : Option (State V G T S N) :=
  if i ≤ 1 then none
  else s.fs.superblock.bind fun d =>
    if d.avail 0 = false then none
    else
      let ino := d.inode i
      let d := d.get_disk_entry.2.setInode i { ino with flags := ino.flags / 2 * 2 + linked }
      (d.free_inode 1 i s.entries).map fun (d, entries) =>
        { s with
          fs := d
          entries := entries
          dirty := insert (block i) s.dirty
          missed := s.missed.erase (block i) }

/-- The test in `inode::put`. -/
def release (s : State V G T S N) (i : ℕ) : Option (State V G T S N) :=
  if (s.fs.inode i).flags / 2 = 0 ∧ (s.fs.inode i).flags % 2 = unlinked then s.free_inode i else some s

/-- `inode::put(user_file)`: the count is decremented without `get_write`. -/
def put (s : State V G T S N) (i : ℕ) (user_file : Bool) : Option (State V G T S N) :=
  let ino := s.fs.inode i
  if ino.type = type_regular then
    if user_file = true then (s.changeOnly i { ino with flags := ino.flags - 2 }).release i
    else s.release i
  else some s

/-- The constructor of `disk_vnode`. -/
def construct (s : State V G T S N) (v : V) (i : ℕ) : State V G T S N :=
  let ino := s.fs.inode i
  { s.change i { ino with flags := ino.flags + 2 } with
    live := insert v s.live
    ino_ := Function.update s.ino_ v i }

/-- The destructor of `disk_vnode`. -/
def destruct (s : State V G T S N) (v : V) : Option (State V G T S N) :=
  State.put { s with live := s.live.erase v } (s.ino_ v) true

/-- `syscall_open` from the type of the inode on; `mem` says whether there is memory for the vnode. -/
def openInode (s : State V G T S N) (g : G) (v : V) (i : ℕ) (trunc mem : Bool) :
    Option (State V G T S N) :=
  if (s.fs.inode i).type = type_regular then
    let s := if trunc = true then s.change i { s.fs.inode i with size := 0 } else s
    if mem = true then
      let s := s.construct v i
      match s.fd.find_open_fd g none with
      | some _ => some { s with fd := s.fd.open_ g v }
      | none => s.destruct v
    else s.put i false
  else s.put i false

/-- `syscall_open` of a disk file. -/
def open_ (s : State V G T S N) (g : G) (v : V) (pathname : N) (create trunc mem : Bool) :
    Option (State V G T S N) :=
  match s.names pathname with
  | some i =>
    if (s.fs.inode i).type = type_directory then some s
    else (s.put i false).bind fun s => s.openInode g v i trunc mem
  | none =>
    if create = true then
      (s.fs.allocate_inode type_regular).bind fun (d, i) =>
        if i = 0 then some { s with fs := d }
        else
          { s with
            fs := d
            dirty := insert (block i) s.dirty
            missed := s.missed.erase (block i)
            names := Function.update s.names pathname (some i) : State V G T S N }.openInode g v i trunc mem
    else some s

/-- `syscall_unlink` -/
def unlink (s : State V G T S N) (pathname : N) : Option (State V G T S N) :=
  match s.names pathname with
  | none => some s
  | some i =>
    if (s.fs.inode i).type = type_directory then some s
    else (s.put i false).bind fun s =>
      let ino := s.fs.inode i
      if ino.flags % 2 ≠ linked then s.put i false
      else
        ((s.change i { ino with flags := ino.flags / 2 * 2 + unlinked }).put i false).map fun s =>
          { s with names := fun n => if s.names n = some i then none else s.names n }

/-- The descriptors have changed, and `slot` is the one that was closed. -/
def closed (s : State V G T S N) (slot : Option V) (fd : Fd.State V G T S) :
    Option (State V G T S N) :=
  match slot with
  | none => some { s with fd := fd }
  | some v =>
    if v ∈ s.live ∧ fd.alive v = false then State.destruct { s with fd := fd } v
    else some { s with fd := fd }

/-- `sync` writes the dirty blocks. -/
def write_dirty (s : State V G T S N) : State V G T S N :=
  { s with
    stored := fun i => if block i ∈ s.dirty then s.fs.inode i else s.stored i
    dirty := ∅ }

/-- The blocks in `p` are dropped, and read again when they are needed. -/
def drop (s : State V G T S N) (p : ℕ → Prop) [DecidablePred p] : State V G T S N :=
  { s with
    fs := { s.fs with inode := fun i => if p (block i) then s.stored i else s.fs.inode i }
    missed := s.missed.filter fun b => ¬ p b }

/-- `sync(drop)` -/
def sync (s : State V G T S N) (drop : ℕ) : State V G T S N :=
  if 0 < drop then s.write_dirty.drop fun b => ¬ s.Referenced b else s.write_dirty

end State

/-- What `write` may do to the disk: it gives the inode more blocks, which were free. -/
structure Written (d d' : Disk) (i : ℕ) : Prop where
  sb : d'.sb = d.sb
  inode : ∀ j, j ≠ i → d'.inode j = d.inode j
  type : (d'.inode i).type = (d.inode i).type
  flags : (d'.inode i).flags = (d.inode i).flags
  wellFormed : ∀ n, Disk.WellFormed d i n → ∃ n', Disk.WellFormed d' i n'
  other : ∀ j, j ≠ i → ∀ b, Disk.Owns d' j b ↔ Disk.Owns d j b
  kept : ∀ b, Disk.Owns d i b → Disk.Owns d' i b
  owns : ∀ b, Disk.Owns d' i b → Disk.Owns d i b ∨ d.fbb.bit b = true
  taken : ∀ b, Disk.Owns d' i b → d'.fbb.bit b = false
  free : ∀ b, d'.fbb.bit b = true → d.fbb.bit b = true

/-- The steps. -/
inductive Act (V G T N : Type)
  | open_ (g : G) (v : V) (pathname : N) (create trunc mem : Bool)
  | dup2 (g : G) (oldfd newfd : ℕ)
  /-- `fork` of the group `c` with the thread `u` -/
  | fork (g c : G) (u : T)
  | close (g : G) (t : T) (fd : ℕ)
  | unlink (pathname : N)
  /-- `write` to the file of a live vnode -/
  | write (v : V)
  | sync (drop : ℕ)
  /-- block `b` of the inode table is dropped to make room -/
  | evict (b : ℕ)

/-- The steps other than `write`. -/
def next (console : V) (s : State V G T S N) : Act V G T N → Option (State V G T S N)
  | .open_ g v pathname create trunc mem =>
    if v ∉ s.live ∧ s.fd.alive v = false then s.open_ g v pathname create trunc mem
    else none
  | .dup2 g oldfd newfd =>
    (s.fd.dup2 g oldfd newfd).bind fun fd => s.closed (s.fd.fdtable_ g newfd) fd
  | .fork g c u =>
    if c ∉ s.fd.groups ∧ u ∉ s.fd.threads then some { s with fd := s.fd.fork console g c u } else none
  | .close g t fd => (s.fd.close g t fd).bind fun fd' => s.closed (s.fd.fdtable_ g fd) fd'
  | .unlink pathname => s.unlink pathname
  | .write _ => none
  | .sync drop => some (s.sync drop)
  | .evict b =>
    if b ∉ s.dirty ∧ ¬ s.Referenced b then some (s.drop (· = b)) else none

/-- One step. -/
def step (console : V) (s : State V G T S N) (a : Act V G T N) (s' : State V G T S N) : Prop :=
  match a with
  | .write v => v ∈ s.live ∧ ∃ d, Written s.fs d (s.ino_ v) ∧
      s' = { s with
        fs := d
        dirty := insert (block (s.ino_ v)) s.dirty
        missed := s.missed.erase (block (s.ino_ v)) }
  | a => next console s a = some s'

end Chickadee.Fs.Open
