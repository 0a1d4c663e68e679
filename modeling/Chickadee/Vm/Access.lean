import Chickadee.Chkfs.Kernel
import Chickadee.Pipe.Bbuf
import Chickadee.Vm.PageTable

/-!
# What system calls do through the pointers of the user

`read`, `write`, `readdiskfile`, `pwd`, `ls`, `tree` and `fdshow`, with every access that they make through
a pointer that came in a register. The state of the kernel is a `World`: the open files as their kinds see
them, the working directory, the directories, and what the path of `readdiskfile` leads to.
-/

namespace Chickadee.Vm

open Fs Chkfs Pipe

/-- `MAX_UBUF_LEN` -/
abbrev MAX_UBUF_LEN : ℕ := 256

/-- `MAX_FD` -/
abbrev MAX_FD : ℕ := 8

/-- `pad`: the width of a descriptor that `fdshow` shows. -/
abbrev pad : ℕ := 8

/-- Conversion to `int`. -/
def toInt (n : ℕ) : ℤ := if n % 2 ^ 32 < 2 ^ 31 then (n % 2 ^ 32 : ℕ) else (n % 2 ^ 32 : ℕ) - 2 ^ 32

/-- Conversion to `off_t`. -/
def toOff (n : ℕ) : ℤ := if n % 2 ^ 64 < 2 ^ 63 then (n % 2 ^ 64 : ℕ) else (n % 2 ^ 64 : ℕ) - 2 ^ 64

/-! ## Accesses -/

/-- An access of `len` bytes from `addr` on. -/
structure Access where
  addr : ℕ
  len : ℕ
  store : Bool
  deriving DecidableEq, Repr

/-- A load of `len` bytes `off` bytes behind a pointer. -/
def loadAt (p off len : ℕ) : Access := ⟨(p + off) % 2 ^ 64, len, false⟩

/-- A store of `len` bytes `off` bytes behind a pointer. -/
def storeAt (p off len : ℕ) : Access := ⟨(p + off) % 2 ^ 64, len, true⟩

/-- The accesses of a system call, and what it returns where it does. -/
structure Run where
  accesses : List Access
  ret : Option ℤ

/-- The registers of a system call. -/
structure Regstate where
  reg_rdi : UInt64
  reg_rsi : UInt64
  reg_rdx : UInt64
  reg_r10 : UInt64

/-- The caller: its page table, the bytes that memory has at each address, and its registers. -/
structure Caller where
  pt : PageTable
  mem : ℕ → UInt8
  regs : Regstate

/-! ## The kernel -/

/-- A file of a disk: the blocks it has may go past its size, or leave holes before it. -/
structure File where
  size : ℕ
  has : ℕ → Bool
  size_lt : size < 2 ^ 32

inductive Special
  | null
  | random
  | zero
  | full
  deriving DecidableEq

/-- A vnode, with what its object holds when the call has waited for it. -/
inductive Vnode
  /-- The characters typed, up to an end of line. -/
  | kbc (line : List UInt8)
  /-- `grows`: there is memory for the file to get longer. -/
  | memf (mode_ offset_ len_ : ℕ) (grows : Bool)
  | pipe (mode_ pos_ len_ : ℕ) (write_closed_ read_closed_ : Bool)
  /-- For a write, the file as it is after its extension. -/
  | df (mode_ : ℕ) (offset_ : UInt64) (file : File)
  | special (mode_ : ℕ) (type_ : Special)

/-- An entry of a directory. -/
structure Entry where
  inum : ℕ
  name : List UInt8
  name_len : name.length ≤ maxnamelen

/-- What the path of `readdiskfile` leads to. -/
inductive Lookup
  | nodir
  | nofile
  | file (f : File)

structure World where
  sata_disk : Bool
  fdtable : ℕ → Option Vnode
  /-- `pwd_->name` -/
  name : List UInt8
  name_pos : 0 < name.length
  name_len : name.length ≤ maxnamelen
  /-- The directory that `pwd_->name` leads to. -/
  cwd : Option ℕ
  /-- The entries of a directory within its size, block by block. -/
  blocks : ℕ → List (List Entry)
  isdir : ℕ → Bool
  lookup : Lookup

/-- `mode_ & OF_READ` -/
def readable (mode_ : ℕ) : Bool := mode_ % 2 = 1

/-- `mode_ & OF_WRITE` -/
def writeable (mode_ : ℕ) : Bool := mode_ / 2 % 2 = 1

/-! ## The vnodes -/

/-- The loop of `kb_c_vnode::read`: Ctrl-D ends it. -/
def kbcReadLoop (addr sz : ℕ) : List UInt8 → ℕ → List Access × ℕ
  | [], n => ([], n)
  | ch :: line, n =>
    if n < sz ∧ ch ≠ 4 then
      let r := kbcReadLoop addr sz line (n + 1)
      (storeAt addr n 1 :: r.1, r.2)
    else ([], n)

/-- The loop of `pipe_bbuf::write`: `isz` is the size as an `int`. -/
def pipeWriteLoop (addr : ℕ) (isz : ℤ) : ℕ → ℕ → ℕ → ℕ → List Access × ℕ
  | 0, _, _, pos => ([], pos)
  | n + 1, pos_, len_, pos =>
    if pos < isz ∧ len_ < BBUF_CAP then
      let index := (pos_ + len_) % BBUF_CAP
      let available_space := min (BBUF_CAP - index) (BBUF_CAP - len_)
      let wr_sz := min (isz - pos).toNat available_space
      let r := pipeWriteLoop addr isz n pos_ (len_ + wr_sz) (pos + wr_sz)
      (loadAt addr pos wr_sz :: r.1, r.2)
    else ([], pos)

/-- The loop of `pipe_bbuf::read`: `isz` is the size as an `int`. -/
def pipeReadLoop (addr sz : ℕ) (isz : ℤ) : ℕ → ℕ → ℕ → ℕ → List Access × ℕ
  | 0, _, _, pos => ([], pos)
  | n + 1, pos_, len_, pos =>
    if pos < isz ∧ 0 < len_ then
      let available_space := min len_ (BBUF_CAP - pos_)
      let k := min (sz - pos) available_space
      let r := pipeReadLoop addr sz isz n ((pos_ + k) % BBUF_CAP) (len_ - k) (pos + k)
      (storeAt addr pos k :: r.1, r.2)
    else ([], pos)

/-- `pipe_bbuf::read(addr, sz)` -/
def bbufRead (addr sz pos_ len_ : ℕ) (write_closed_ : Bool) : Run :=
  if write_closed_ ∧ len_ = 0 then ⟨[], some (-1)⟩
  else
    let r := pipeReadLoop addr sz (toInt sz) (BBUF_CAP + 1) pos_ len_ 0
    ⟨r.1, some r.2⟩

/-- `pipe_bbuf::write(addr, sz)` -/
def bbufWrite (addr sz pos_ len_ : ℕ) (read_closed_ : Bool) : Run :=
  if read_closed_ then ⟨[], some E_PIPE⟩
  else
    let r := pipeWriteLoop addr (toInt sz) (BBUF_CAP + 1) pos_ len_ 0
    ⟨r.1, some r.2⟩

/-- The loop of `disk_vnode::write_nolock`. -/
def diskWriteLoop (addr sz : ℕ) (f : File) : ℕ → ℕ → ℕ → List Access × ℕ
  | 0, nwritten, _ => ([], nwritten)
  | n + 1, nwritten, offset_ =>
    if nwritten < sz ∧ f.has (offset_ / blocksize) = true then
      let b := offset_ % blocksize
      let ncopy := min (blocksize - b) (sz - nwritten)
      let r := diskWriteLoop addr sz f n (nwritten + ncopy) ((offset_ + ncopy) % 2 ^ 64)
      (loadAt addr nwritten ncopy :: r.1, r.2)
    else ([], nwritten)

/-- The loop that `disk_vnode::read` and `readdiskfile` have: `size - offset` is a `size_t`. -/
def diskReadLoop (addr sz : ℕ) (f : File) : ℕ → ℕ → ℕ → List Access × ℕ
  | 0, nread, _ => ([], nread)
  | n + 1, nread, off =>
    if nread < sz ∧ f.has (off / blocksize) = true then
      let b := off % blocksize
      let ncopy := min ((f.size + 2 ^ 64 - off) % 2 ^ 64) (min (blocksize - b) (sz - nread))
      if ncopy = 0 then ([storeAt addr nread 0], nread)
      else
        let r := diskReadLoop addr sz f n (nread + ncopy) ((off + ncopy) % 2 ^ 64)
        (storeAt addr nread ncopy :: r.1, r.2)
    else ([], nread)

/-- `special_vnode::read` -/
def specialRead (addr sz : ℕ) : Special → Run
  | .null => if sz = 0 then ⟨[], some 0⟩ else ⟨[storeAt addr 0 1], some 1⟩
  | .random | .zero | .full => ⟨(List.range sz).map fun off => storeAt addr off 1, some sz⟩

/-- `special_vnode::write` -/
def specialWrite (sz : ℕ) : Special → ℤ
  | .null | .zero => sz
  | .random => 0
  | .full => E_NOSPC

namespace Vnode

/-- `read(addr, sz)` -/
def read (addr sz : ℕ) : Vnode → Run
  | kbc line =>
    let r := kbcReadLoop addr sz line 0
    ⟨r.1, some r.2⟩
  | memf mode_ offset_ len_ _ =>
    if readable mode_ = false then ⟨[], some E_BADF⟩
    else if len_ < offset_ then ⟨[], none⟩ -- the assertion of `io_sz`
    else
      let rd_sz := min sz (len_ - offset_)
      ⟨[storeAt addr 0 rd_sz], some rd_sz⟩
  | pipe mode_ pos_ len_ write_closed_ _ =>
    if readable mode_ = false then ⟨[], some E_BADF⟩ else bbufRead addr sz pos_ len_ write_closed_
  | df mode_ offset_ file =>
    if readable mode_ = false then ⟨[], some E_BADF⟩
    else
      let r := diskReadLoop addr sz file (sz + 1) 0 offset_.toNat
      ⟨r.1, some r.2⟩
  | special mode_ type_ => if readable mode_ = false then ⟨[], some E_BADF⟩ else specialRead addr sz type_

/-- `write(addr, sz)` -/
def write (addr sz : ℕ) : Vnode → Run
  | kbc _ => ⟨(List.range sz).map fun n => loadAt addr n 1, some sz⟩
  | memf mode_ offset_ len_ grows =>
    if writeable mode_ = false then ⟨[], some E_BADF⟩
    else if len_ < offset_ then ⟨[], none⟩ -- the assertion of `io_sz`
    else if len_ - offset_ < sz ∧ grows = false then ⟨[], some E_NOSPC⟩
    else ⟨[loadAt addr 0 sz], some sz⟩
  | pipe mode_ pos_ len_ _ read_closed_ =>
    if writeable mode_ = false then ⟨[], some E_BADF⟩ else bbufWrite addr sz pos_ len_ read_closed_
  | df mode_ offset_ file =>
    if writeable mode_ = false then ⟨[], some E_BADF⟩
    else
      let r := diskWriteLoop addr sz file (sz + 1) 0 offset_.toNat
      ⟨r.1, some r.2⟩
  | special mode_ type_ =>
    if writeable mode_ = false then ⟨[], some E_BADF⟩ else ⟨[], some (specialWrite sz type_)⟩

end Vnode

/-! ## Validation -/

/-- The test of `IO_invalid` for a page. -/
def ioOk (check_writable : Bool) (it : Vmiter) : Bool :=
  it.present && it.user && (!check_writable || it.writable)

/-- `IO_invalid(p, start, end, check_writable)` -/
def IO_invalid (pt : PageTable) (start last : ℕ) (check_writable : Bool) : Bool :=
  last < start ∨ check pt (ioOk check_writable) start last ≠ some true

/-- The loop of `tree` and `fdshow`: the end is not tested for an overflow. -/
def rangeInvalid (pt : PageTable) (buf bufsz : ℕ) : Bool :=
  check pt (ioOk false) buf ((buf + bufsz) % 2 ^ 64) ≠ some true

/-- `buf_invalid(p, buf, len)` -/
def buf_invalid (pt : PageTable) (buf len : ℕ) : Bool :=
  buf = 0 ∨ ¬(List.range len).all fun pos =>
    let it := find pt ((buf + pos) % 2 ^ 64)
    it.present && it.user

/-! ## The system calls -/

/-- The descriptor in `%rdi`, if it is open. -/
def World.vnode (w : World) (reg_rdi : UInt64) : Option Vnode :=
  let fd := toInt reg_rdi.toNat
  if fd < 0 ∨ MAX_FD ≤ fd then none else w.fdtable fd.toNat

def syscall_read (c : Caller) (w : World) : Run :=
  match w.vnode c.regs.reg_rdi with
  | none => ⟨[], some E_BADF⟩
  | some vn =>
    let addr := c.regs.reg_rsi.toNat
    let sz := c.regs.reg_rdx.toNat
    if IO_invalid c.pt addr ((addr + sz) % 2 ^ 64) true then ⟨[], some E_FAULT⟩ else vn.read addr sz

def syscall_write (c : Caller) (w : World) : Run :=
  match w.vnode c.regs.reg_rdi with
  | none => ⟨[], some E_BADF⟩
  | some vn =>
    let addr := c.regs.reg_rsi.toNat
    let sz := c.regs.reg_rdx.toNat
    if IO_invalid c.pt addr ((addr + sz) % 2 ^ 64) false then ⟨[], some E_FAULT⟩ else vn.write addr sz

/-- `strlen(s)`, up to the size of the address space. -/
def strlenLoop (mem : ℕ → UInt8) (s : ℕ) : ℕ → ℕ → Option ℕ
  | 0, _ => none
  | k + 1, n => if mem ((s + n) % 2 ^ 64) = 0 then some n else strlenLoop mem s k (n + 1)

def strlen (mem : ℕ → UInt8) (s : ℕ) : Option ℕ := strlenLoop mem s (2 ^ 64) 0

/-- The character at an address. -/
def Caller.char (c : Caller) (s off : ℕ) : UInt8 := c.mem ((s + off) % 2 ^ 64)

/-- What `lookup_inode` does to the path in place: `path_find_last` cuts a `/` off its end. -/
def cutSlash (c : Caller) (filename n : ℕ) : List Access :=
  if c.char filename (n - 1) = 47 then [storeAt filename (n - 1) 1] else []

/-- The look-up of `readdiskfile` for a path of `n` characters: only a relative path is copied first. -/
def lookupPath (c : Caller) (w : World) (filename n : ℕ) : List Access :=
  if c.char filename 0 ≠ 47 then []
  else match w.lookup with
    | .nodir => []
    | .nofile | .file _ => cutSlash c filename n

def syscall_readdiskfile (c : Caller) (w : World) : Run :=
  let filename := c.regs.reg_rdi.toNat
  let buf := c.regs.reg_rsi.toNat
  let sz := c.regs.reg_rdx.toNat
  let off := c.regs.reg_r10.toNat
  if w.sata_disk = false then ⟨[], some E_IO⟩
  else match strlen c.mem filename with
    | none => ⟨[loadAt filename 0 (2 ^ 64)], none⟩
    | some n =>
      let path := loadAt filename 0 (n + 1) :: lookupPath c w filename n
      match w.lookup with
      | .nodir | .nofile => ⟨path, some E_NOENT⟩
      | .file f =>
        let r := diskReadLoop buf sz f (sz + 1) 0 off
        ⟨path ++ r.1, some r.2⟩

def syscall_pwd (c : Caller) (w : World) : Run :=
  let buf := c.regs.reg_rdi.toNat
  if buf_invalid c.pt buf (maxnamelen + 1) then ⟨[], some E_FAULT⟩
  else ⟨[storeAt buf 0 (w.name.length + 1)], some w.name.length⟩

/-! ### `ls` -/

/-- How far `ls` has come: what it has stored, how many bytes, and whether a name did not fit. -/
structure Ls where
  accesses : List Access
  off : ℕ
  buf_full : Bool

/-- The entries of a block, in `ls`. -/
def lsBlock (buf bufsz : ℕ) : List Entry → Ls → Ls
  | [], l => l
  | e :: es, l =>
    if e.inum = 0 then lsBlock buf bufsz es l
    else if bufsz < l.off + e.name.length + 2 then { l with buf_full := true }
    else
      let len := e.name.length
      lsBlock buf bufsz es
        { l with
          accesses := l.accesses ++ [storeAt buf l.off (len + 1), storeAt buf (l.off + len) 1]
          off := l.off + len + 1 }

/-- The blocks of a directory, in `ls`. -/
def lsBlocks (buf bufsz : ℕ) : List (List Entry) → Ls → Ls
  | [], l => l
  | b :: bs, l => if (l.off : ℤ) < toInt bufsz then lsBlocks buf bufsz bs (lsBlock buf bufsz b l) else l

def syscall_ls (c : Caller) (w : World) : Run :=
  let bufsz := c.regs.reg_rsi.toNat
  let buf := c.regs.reg_rdi.toNat
  if MAX_UBUF_LEN < bufsz then ⟨[], some E_2BIG⟩
  else if buf_invalid c.pt buf bufsz then ⟨[], some E_FAULT⟩
  else match w.cwd with
    | none => ⟨[], none⟩ -- the assertion of `ls`
    | some dirino =>
      let l := lsBlocks buf bufsz (w.blocks dirino) ⟨[], 0, false⟩
      let last := if l.off = 0 then storeAt buf 0 1 else loadAt buf (l.off - 1) 1
      ⟨l.accesses ++ [last, storeAt buf l.off 1], some (if l.buf_full then E_FBIG else 0)⟩

/-! ### `tree` -/

/-- How far `tree` has come. -/
structure Tree where
  accesses : List Access
  off : ℕ
  nfile : ℕ
  ndir : ℕ

/-- The line of an entry of a directory at a depth, with a name of `sz` characters. -/
def treeLine (buf off depth sz : ℕ) : List Access :=
  ((List.range depth).flatMap fun j => [storeAt buf (off + 5 * j) 1, storeAt buf (off + 5 * j + 1) 4])
    ++ [storeAt buf (off + 5 * depth) 1, storeAt buf (off + 5 * depth + 1) 3,
      storeAt buf (off + 5 * depth + 4) 3, storeAt buf (off + 5 * depth + 5) sz,
      storeAt buf (off + 5 * depth + 5 + sz) 1]

/-- The entries of a block, in `tree_dfs`: `visit` is the call for a directory. -/
def treeBlock (visit : ℕ → Tree → Tree) (isdir : ℕ → Bool) (buf bufsz depth : ℕ) : List Entry → Tree → Tree
  | [], t => t
  | e :: es, t =>
    if e.inum = 0 then treeBlock visit isdir buf bufsz depth es t
    else
      let sz := e.name.length
      if bufsz ≤ (t.off + sz + 5 * depth + 9) % 2 ^ 64 then { t with off := bufsz }
      else
        let t := { t with
          accesses := t.accesses ++ treeLine buf t.off depth sz
          off := t.off + 5 * depth + sz + 6 }
        let t :=
          if isdir e.inum then visit e.inum { t with ndir := t.ndir + 1 }
          else { t with nfile := t.nfile + 1 }
        treeBlock visit isdir buf bufsz depth es t

/-- The blocks of a directory, in `tree_dfs`. -/
def treeBlocks (visit : ℕ → Tree → Tree) (isdir : ℕ → Bool) (buf bufsz depth : ℕ) :
    List (List Entry) → Tree → Tree
  | [], t => t
  | b :: bs, t =>
    let t := treeBlock visit isdir buf bufsz depth b t
    if toInt bufsz ≤ toOff t.off then t else treeBlocks visit isdir buf bufsz depth bs t

/-- `tree_dfs`, for up to `n` more levels. -/
def tree_dfs (w : World) (buf bufsz : ℕ) : ℕ → ℕ → ℕ → Tree → Tree
  | 0, _, _, t => t
  | n + 1, dirino, depth, t =>
    if toInt bufsz ≤ toOff t.off then t
    else treeBlocks (fun i t => tree_dfs w buf bufsz n i (depth + 1) t) w.isdir buf bufsz depth (w.blocks dirino) t

/-- Lines at depth `d` have more than `5 * d` characters, and a directory is only entered before `off` has
reached `2 ^ 31`: `tree` does not come this deep. -/
def treeDepth : ℕ := 2 ^ 15

def syscall_tree (c : Caller) (w : World) : Run :=
  let buf := c.regs.reg_rdi.toNat
  let bufsz := c.regs.reg_rsi.toNat
  if rangeInvalid c.pt buf bufsz then ⟨[], some E_FAULT⟩
  else
    -- `pwd_->read(buf)`, and `lookup_directory` reads the path from there
    let path := [storeAt buf 0 (w.name.length + 1), loadAt buf 0 (w.name.length + 1)]
    match w.cwd with
    | none => ⟨path, some E_NOENT⟩
    | some start =>
      let t := tree_dfs w buf bufsz treeDepth start 0 ⟨[storeAt buf 0 2], 2, 0, 0⟩
      ⟨path ++ t.accesses ++ [storeAt buf t.off 1],
        some (if toInt bufsz ≤ 2 then E_NOSPC else toInt (t.nfile * 2 ^ 16 + t.ndir))⟩

/-! ### `fdshow` -/

/-- What `show_fdtable_` stores for a descriptor: seven characters and a bar. -/
def showFd (buf off : ℕ) : Option Vnode → List Access
  | some _ => ((List.range (pad - 1)).map fun i => storeAt buf (off + i) 1) ++ [storeAt buf (off + pad - 1) 1]
  | none => [storeAt buf off 3, storeAt buf (off + 3) 1, storeAt buf (off + 4) 3, storeAt buf (off + pad - 1) 1]

/-- `show_fdtable_(buf)` -/
def show_fdtable_ (w : World) (buf : ℕ) : List Access :=
  [storeAt buf 0 (MAX_FD * pad + 1), storeAt buf (MAX_FD * pad + 1) 1, storeAt buf (MAX_FD * pad + 2) 1]
    ++ ((List.range MAX_FD).flatMap fun fd => showFd buf (MAX_FD * pad + 3 + fd * pad) (w.fdtable fd))
    ++ [storeAt buf (2 * MAX_FD * pad + 3) 1, storeAt buf (2 * MAX_FD * pad + 4) (MAX_FD * pad + 2),
      storeAt buf (3 * MAX_FD * pad + 5) 1, storeAt buf (3 * MAX_FD * pad + 6) 1]

def syscall_fdshow (c : Caller) (w : World) : Run :=
  let buf := c.regs.reg_rdi.toNat
  let bufsz := c.regs.reg_rsi.toNat
  if bufsz ≤ MAX_FD * pad * 3 + 4 then ⟨[], some E_NOSPC⟩
  else if rangeInvalid c.pt buf bufsz then ⟨[], some E_FAULT⟩
  else ⟨show_fdtable_ w buf, some 0⟩

end Chickadee.Vm
