import Chickadee.Fs.Bitset
import Chickadee.Lib.Bytes
import Chickadee.Lib.Extent

/-!
# The file system as the kernel sees it: `chickadeefs.hh` through the buffer cache

The superblock, the free block bitmap and the inode table under their types, and every other block
as its bytes; an indirect extent block is read and written through its bytes. A buffer cache entry
shows the current contents of its block, so a pointer into the cache is a block number.

Whether `get_disk_entry` has an entry for its caller is decided by the environment: `avail` lists
the outcomes of the calls to come, and `availNew` those for a block that has just been allocated to
hold extents.
-/

namespace Chickadee.Fs

open Lib

/-! ## Constants and types -/

abbrev blocksize : ℕ := 4096
abbrev bitsperblock : ℕ := 32768
abbrev ndirect : ℕ := 4
abbrev extentsize : ℕ := 8
abbrev extentsperblock : ℕ := 512
abbrev direntsize : ℕ := 128

/-- `inode::type` of a file. -/
abbrev type_regular : ℕ := 1
/-- `inode::type` of a directory. -/
abbrev type_directory : ℕ := 2
/-- The low bit of `inode::flags` of a file with a name. -/
abbrev linked : ℕ := 0

abbrev E_BADF : ℤ := -9
abbrev E_NOMEM : ℤ := -12
abbrev E_INVAL : ℤ := -22
abbrev E_FBIG : ℤ := -27
abbrev E_NOSPC : ℤ := -28
abbrev E_MINERROR : ℤ := -100

/-- Conversion to a 32-bit unsigned type. -/
def u32 (x : ℤ) : ℕ := (x % 2 ^ 32).toNat

/-- Conversion to `size_t`. -/
def u64 (x : ℤ) : ℕ := (x % 2 ^ 64).toNat

/-- `round_up(x, m)` of a `size_t`. -/
def round_up (x m : ℕ) : ℕ :=
  let y := u64 (x + m - 1)
  y - y % m

/-- What the code reads of `struct superblock`, and the bounds of the data area. -/
structure Superblock where
  ninodes : ℕ
  data_bn : ℕ
  journal_bn : ℕ

/--
`struct inode` without its lock and its place in the cache. The direct extents are those below
`ndirect`.
-/
structure Inode where
  type : ℕ
  size : ℕ
  nlink : ℕ
  flags : ℕ
  direct : ℕ → Extent
  indirect : Extent

/-- The contents of a block. -/
abbrev Block : Type := ℕ → UInt8

/-- The file system on a disk. -/
structure Disk where
  sb : Superblock
  fbb : Words
  inode : ℕ → Inode
  buf : ℕ → Block
  avail : ℕ → Bool
  availNew : ℕ → Bool

namespace Disk

/-- Replace an inode. -/
def setInode (d : Disk) (i : ℕ) (ino : Inode) : Disk :=
  { d with inode := Function.update d.inode i ino }

/-- Replace the contents of a block. -/
def setBuf (d : Disk) (bn : ℕ) (b : Block) : Disk :=
  { d with buf := Function.update d.buf bn b }

/-- `bc.get_disk_entry(bn)`: whether it returns an entry. -/
def get_disk_entry (d : Disk) : Bool × Disk :=
  (d.avail 0, { d with avail := fun i => d.avail (i + 1) })

/-- `bc.get_disk_entry(bn)` for the block that `insert` has just allocated. -/
def get_new_entry (d : Disk) : Bool × Disk :=
  (d.availNew 0, { d with availNew := fun i => d.availNew (i + 1) })

/-- Get the superblock, which is asserted to succeed. -/
def superblock (d : Disk) : Option Disk :=
  if d.avail 0 then some d.get_disk_entry.2 else none

end Disk

/-! ## Extents in a block -/

/-- The extent at index `i` of a block of extents. -/
def extentAt (b : Block) (i : ℕ) : Extent :=
  ⟨getLE b (extentsize * i) 4, getLE b (extentsize * i + 4) 4⟩

/-- Store an extent at index `i` of a block of extents. -/
def setExtentAt (b : Block) (i : ℕ) (e : Extent) : Block :=
  putLE (putLE b (extentsize * i) 4 e.first) (extentsize * i + 4) 4 e.count

/-- An extent whose fields fit in 32 bits. -/
def Fits (e : Extent) : Prop := e.first < 2 ^ 32 ∧ e.count < 2 ^ 32

theorem extentAt_fits (b : Block) (i : ℕ) : Fits (extentAt b i) :=
  ⟨getLE_lt b _ 4, getLE_lt b _ 4⟩

/-- **What is stored at an index is read back there, and nothing changes elsewhere.** -/
theorem extentAt_setExtentAt (b : Block) (i j : ℕ) {e : Extent} (he : Fits e) :
    extentAt (setExtentAt b i e) j = if j = i then e else extentAt b j := by
  unfold extentAt setExtentAt
  by_cases h : j = i
  · subst h
    have hfirst : e.first % 256 ^ 4 = e.first := Nat.mod_eq_of_lt he.1
    have hcount : e.count % 256 ^ 4 = e.count := Nat.mod_eq_of_lt he.2
    rw [if_pos rfl, getLE_putLE, getLE_putLE_of_disjoint (by omega), getLE_putLE, hfirst, hcount]
  · have hapart : extentsize * j + 8 ≤ extentsize * i ∨ extentsize * i + 8 ≤ extentsize * j := by
      unfold extentsize
      omega
    rw [if_neg h, getLE_putLE_of_disjoint (by omega), getLE_putLE_of_disjoint (by omega),
      getLE_putLE_of_disjoint (by omega), getLE_putLE_of_disjoint (by omega)]

/-- A block of zeros holds no extent. -/
theorem extentAt_zero (i : ℕ) : extentAt (fun _ => 0) i = ⟨0, 0⟩ := by
  unfold extentAt
  rw [getLE_zero fun _ _ _ => rfl, getLE_zero fun _ _ _ => rfl]

end Chickadee.Fs
