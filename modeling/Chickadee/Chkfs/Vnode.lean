import Chickadee.Chkfs.Iter

/-!
# `disk_vnode`: reads, writes, seeks and truncation

The offset of a vnode is an `off_t`: it is signed, and it wraps. The iterator takes it as a `size_t`, the
inode stores a size of 32 bits. The zeros that `ftruncate` writes come from an array on the kernel stack,
whose room is not modelled.
-/

namespace Chickadee.Chkfs

open Lib Fs

/-- Conversion to `off_t`. -/
def s64 (x : ℤ) : ℤ := (x + 2 ^ 63) % 2 ^ 64 - 2 ^ 63

/-- Conversion to `int`. -/
def s32 (x : ℤ) : ℤ := (x + 2 ^ 31) % 2 ^ 32 - 2 ^ 31

/-! ## The iterator -/

namespace Fileiter

/-- `empty()` -/
def empty (it : Fileiter) (d : Disk) : Bool :=
  match it.eptr_ with
  | none => true
  | some eptr => (extent d it.ino_ eptr).first = 0

/-- The loop of `next()`, for up to `n` blocks: it skips an extent without blocks. -/
def nextLoop : ℕ → Fileiter → M Fileiter
  | 0, _ => throw .fuel
  | n + 1, it => do
    let it ← it.find (round_up (it.off_ + 1) blocksize)
    match it.eptr_ with
    | none => return it
    | some eptr =>
      let ex := extent (← get).disk it.ino_ eptr
      if ex.first = 0 ∧ ex.count ≠ 0 then nextLoop n it else return it

/-- `next()` -/
def next (it : Fileiter) : M Fileiter := do
  let d := (← get).disk
  if it.active d = true then nextLoop (blocks d it.ino_ + 1) it else return it

end Fileiter

/-- The loop of `prefetch`: it goes on while the file does and there is room for the block. -/
def prefetchLoop : ℕ → Fileiter → ℕ → M Fileiter
  | 0, it, off => it.find off
  | n + 1, it, off => do
    let it ← it.find off
    if it.active (← get).disk = true then
      if (← kalloc) = true then prefetchLoop n it (u64 (off + blocksize)) else return it
    else return it

/-- `prefetch(ino, off, true)` -/
def prefetch (ino off : ℕ) : M Unit := do
  let it ← prefetchLoop 8 (fileiter ino) off
  it.destroy

/-! ## `disk_vnode` -/

/-- `struct disk_vnode` without its locks and counts. -/
structure DiskVnode where
  ino_ : ℕ
  mode_ : ℕ
  offset_ : ℤ

/-- The origins that `syscall_lseek` accepts. -/
inductive Origin
  | LSEEK_SET
  | LSEEK_CUR
  | LSEEK_END
  | LSEEK_SIZE
  deriving DecidableEq

/-- `memcpy(buf + b, src, n)` -/
def memcpy (buf : Block) (b n : ℕ) (src : ℕ → UInt8) : Block :=
  fun j => if b ≤ j ∧ j < b + n then src (j - b) else buf j

namespace DiskVnode

/-- `readable()` -/
def readable (v : DiskVnode) : Bool := v.mode_ % 2 = 1

/-- `writeable()` -/
def writeable (v : DiskVnode) : Bool := v.mode_ / 2 % 2 = 1

/-! ### `write` -/

/-- The walk to the end of the space given to the file, for up to `n` blocks. -/
def walkLoop : ℕ → Fileiter → M Fileiter
  | 0, _ => throw .fuel
  | n + 1, it => do
    if it.active (← get).disk = true then
      let it ← it.next
      walkLoop n it
    else return it

/-- Any extra space for `sz` bytes at `offset_` is allocated. -/
def extend (it : Fileiter) (offset_ : ℤ) (sz : ℕ) : M Fileiter := do
  let alloc_sz := u32 it.off_
  if alloc_sz < u64 (offset_ + sz) then
    let count := u32 (round_up (u64 ((u64 (offset_ + sz) : ℤ) - alloc_sz)) blocksize / blocksize : ℕ)
    let first ← allocate_extent count
    if u32 E_MINERROR ≤ first then return it
    else
      let (it, r) ← it.insert first count
      if r < 0 then free_extent first count
      return it
  else return it

/-- The loop that copies the data of a write into the blocks of the file. -/
def writeLoop (src : ℕ → UInt8) (sz : ℕ) : ℕ → Fileiter → ℕ → ℤ → M (Fileiter × ℕ × ℤ)
  | 0, _, _, _ => throw .fuel
  | n + 1, it, nwritten, offset_ => do
    if nwritten < sz then
      prefetch it.ino_ (u64 (offset_ + blocksize))
      let it ← it.find (u64 offset_)
      match ← it.get_disk_entry with
      | some bn =>
        let b := it.off_ % blocksize
        let ncopy := min (blocksize - b) (sz - nwritten)
        set_buf bn fun buf => memcpy buf b ncopy fun j => src (nwritten + j)
        put (.data bn)
        writeLoop src sz n it (nwritten + ncopy) (s64 (offset_ + ncopy))
      | none => return (it, nwritten, offset_)
    else return (it, nwritten, offset_)

/-- `write_nolock(addr, sz)` with the bytes `src` at `addr`: how many are written. -/
def write_nolock (v : DiskVnode) (src : ℕ → UInt8) (sz : ℕ) : M (ℕ × DiskVnode) := do
  let it ← walkLoop (blocks (← get).disk v.ino_ + 1) (fileiter v.ino_)
  let it ← extend it v.offset_ sz
  let (it, nwritten, offset_) ← writeLoop src sz (sz + 1) it 0 v.offset_
  set_inode v.ino_ fun ino => { ino with size := max ino.size (u32 offset_) }
  it.destroy
  return (nwritten, { v with offset_ := offset_ })

/-- `write(addr, sz)` -/
def write (v : DiskVnode) (src : ℕ → UInt8) (sz : ℕ) : M (ℤ × DiskVnode) := do
  if v.writeable = false then return (E_BADF, v)
  else
    lock_write (.inode v.ino_)
    let (nwritten, v) ← v.write_nolock src sz
    unlock_write (.inode v.ino_)
    return (nwritten, v)

/-! ### `read` -/

/-- The loop that copies up to `sz` bytes of the file; `out` is what has been copied. -/
def readLoop (sz : ℕ) : ℕ → Fileiter → Str → ℤ → M (Fileiter × Str × ℤ)
  | 0, _, _, _ => throw .fuel
  | n + 1, it, out, offset_ => do
    let nread := out.length
    if nread < sz then
      prefetch it.ino_ (u64 (offset_ + blocksize))
      let it ← it.find (u64 offset_)
      match ← it.get_disk_entry with
      | some bn =>
        let d := (← get).disk
        let b := it.off_ % blocksize
        let ncopy := min (u64 ((d.inode it.ino_).size - (it.off_ : ℤ))) (min (blocksize - b) (sz - nread))
        let out := out ++ (List.range ncopy).map fun j => d.buf bn (b + j)
        put (.data bn)
        let offset_ := s64 (offset_ + ncopy)
        if ncopy = 0 then return (it, out, offset_) else readLoop sz n it out offset_
      | none =>
        assert (it.empty (← get).disk = true)
        return (it, out, offset_)
    else return (it, out, offset_)

/-- `read(addr, sz)`: the number of bytes, and the bytes that are copied to `addr`. -/
def read (v : DiskVnode) (sz : ℕ) : M (ℤ × Str × DiskVnode) := do
  if v.readable = false then return (E_BADF, [], v)
  else
    lock_read (.inode v.ino_)
    let (it, out, offset_) ← readLoop sz (sz + 1) (fileiter v.ino_) [] v.offset_
    unlock_read (.inode v.ino_)
    it.destroy
    return (out.length, out, { v with offset_ := offset_ })

/-! ### `lseek` -/

/-- `seek_invalid(off, origin)` -/
def seek_invalid (v : DiskVnode) (fsz : ℕ) (off : ℤ) (origin : Origin) : Bool :=
  (origin = .LSEEK_SET ∧ fsz < off) ∨ (origin = .LSEEK_CUR ∧ fsz < s64 (off + v.offset_)) ∨
    (origin = .LSEEK_END ∧ 0 < off)

/-- `lseek_nolock(off, origin)` -/
def lseek_nolock (v : DiskVnode) (off : ℤ) (origin : Origin) : M (ℤ × DiskVnode) := do
  let fsz := ((← get).disk.inode v.ino_).size
  if v.seek_invalid fsz off origin = true then return (E_INVAL, v)
  else match origin with
    | .LSEEK_SET => return (off, { v with offset_ := off })
    | .LSEEK_CUR => return (s64 (v.offset_ + off), { v with offset_ := s64 (v.offset_ + off) })
    | .LSEEK_END => return (s64 (fsz + off), { v with offset_ := s64 (fsz + off) })
    | .LSEEK_SIZE => throw .assertion

/-- `lseek(off, origin)` -/
def lseek (v : DiskVnode) (off : ℤ) (origin : Origin) : M (ℤ × DiskVnode) := do
  lock_read (.inode v.ino_)
  if origin = .LSEEK_SIZE then
    let sz := ((← get).disk.inode v.ino_).size
    unlock_read (.inode v.ino_)
    return (sz, v)
  else
    let (r, v) ← v.lseek_nolock off origin
    unlock_read (.inode v.ino_)
    if r = E_INVAL then return (E_INVAL, v)
    else
      prefetch v.ino_ (u64 v.offset_)
      return (v.offset_, v)

/-! ### `ftruncate` -/

/-- `ftruncate(len)` -/
def ftruncate (v : DiskVnode) (len : ℤ) : M (ℤ × DiskVnode) := do
  lock_write (.inode v.ino_)
  let size := ((← get).disk.inode v.ino_).size
  if len ≤ size then
    set_inode v.ino_ fun ino => { ino with size := u32 len }
    if len < v.offset_ then
      let (_, v) ← v.lseek_nolock 0 .LSEEK_END
      unlock_write (.inode v.ino_)
      return (s32 len, v)
    else
      unlock_write (.inode v.ino_)
      return (s32 len, v)
  else
    let cur_off := v.offset_
    let (end_, v) ← v.lseek_nolock 0 .LSEEK_END
    let (sz, v) ← v.write_nolock (fun _ => 0) (u64 (len - end_))
    let (_, v) ← v.lseek_nolock cur_off .LSEEK_SET
    unlock_write (.inode v.ino_)
    return (s32 (end_ + sz), v)

end DiskVnode

/-! ## The system calls -/

/-- The system calls on an open file, with the contents of the registers. -/
inductive FileCall
  | lseek (off : ℤ) (origin : Origin)
  | read (sz : ℕ)
  | write (src : ℕ → UInt8) (sz : ℕ)
  | ftruncate (len : ℤ)

/-- A system call on an open file: its result, and the vnode after it. -/
def FileCall.run (v : DiskVnode) : FileCall → M (ℤ × DiskVnode)
  | .lseek off origin => v.lseek (s64 off) origin
  | .read sz => do
    let (r, _, v) ← v.read (u64 sz)
    return (r, v)
  | .write src sz => v.write src (u64 sz)
  | .ftruncate len => if s64 len < 0 then return (E_INVAL, v) else v.ftruncate (s64 len)

end Chickadee.Chkfs
