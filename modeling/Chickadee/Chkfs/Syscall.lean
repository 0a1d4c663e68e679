import Chickadee.Chkfs.Load
import Chickadee.Chkfs.Vnode

/-!
# The file system calls of `proc`

`open`, `unlink`, `rename`, `mkdir`, `rm`, `ls`, `cd`, `tree`, `readdiskfile` and `execv`. The calls that may
keep a reference are split where they do: each part is the code up to there.
-/

namespace Chickadee.Chkfs

open Lib Fs

abbrev OF_WRITE : ℕ := 2
abbrev OF_CREAT : ℕ := 4
abbrev OF_TRUNC : ℕ := 8
abbrev MAX_FD : ℕ := 8

/-! ## Path arguments -/

/-- The length that the working directory adds to a relative path. -/
def prefixLen (s : Str) : M ℕ := if s.head? = some dlm then return 0 else cwd_len

/-- A path name argument that the code looks at before it is checked: an error, or the string. -/
def pathArg (pathname : UserStr) : M (ℤ ⊕ Str) := do
  match pathname with
  | none => throw .assertion
  | some (s, accessible) =>
    let pfxlen ← prefixLen s
    let r := pathname_invalid (some (s, accessible)) pfxlen
    if r ≠ 0 then return .inl r else return .inr s

/-- The same for a path that must not end in a delimiter. -/
def filePathArg (pathname : UserStr) : M (ℤ ⊕ Str) := do
  match ← pathArg pathname with
  | .inl r => return .inl r
  | .inr s => if s.getLast? = some dlm then return .inl E_INVAL else return .inr s

/-- A relative path behind the working directory. If it does not fit, the buffer is used as it is. -/
def absolute (s : Str) : M Str := do
  if s.head? = some dlm then return s
  else
    let buf ← cwd_cat s false
    return buf.getD (← get).stack

theorem moves_pathArg (pathname : UserStr) : ledger.Moves 0 (pathArg pathname) fun _ => 0 := by
  unfold pathArg
  split
  · exact .throw id
  have hlen : ∀ s, ledger.Moves 0 (prefixLen s) fun _ => 0 := fun s => by
    unfold prefixLen
    split
    · exact .pure rfl
    · exact moves_cwd_len
  refine (hlen _).skip fun pfxlen => ?_
  dsimp only
  split
  · exact .pure rfl
  · exact .pure rfl

theorem moves_filePathArg (pathname : UserStr) : ledger.Moves 0 (filePathArg pathname) fun _ => 0 := by
  refine (moves_pathArg _).skip fun r => ?_
  cases r with
  | inl r => exact .pure rfl
  | inr s =>
    dsimp only
    split
    · exact .pure rfl
    · exact .pure rfl

theorem moves_absolute (s : Str) : ledger.Moves 0 (absolute s) fun _ => 0 := by
  unfold absolute
  split
  · exact .pure rfl
  · exact (moves_cwd_cat _ _).skip fun _ => .get fun _ => .pure rfl

/-! ## `open` -/

/-- `find_open_fd(false)` -/
def find_open_fd : M (Option ℕ) := do
  let k ← get
  return (List.range MAX_FD).find? fun fd => 3 ≤ fd ∧ k.fdtable_ fd = none

/-- A slot of the descriptor table is filled. -/
def set_fd (fd : ℕ) (v : Vnode) : M Unit :=
  modify fun k => { k with fdtable_ := Function.update k.fdtable_ fd (some v) }

/-- The constructor of `disk_vnode`. -/
def disk_vnode (ino : ℕ) : M Unit := do
  lock_write (.inode ino)
  set_inode ino fun ino => { ino with flags := u32 (ino.flags + 2) }
  unlock_write (.inode ino)
  modify fun k => { k with disk_vnodes := ino ::ₘ k.disk_vnodes }

/-- `delete` of a `disk_vnode`. -/
def delete_vnode (ino : ℕ) : M Unit := do
  modify fun k => { k with disk_vnodes := k.disk_vnodes.erase ino }
  inode_put ino true

/-- The special files. -/
def specialFiles : List Str :=
  [[47, 100, 101, 118, 47, 110, 117, 108, 108], [47, 100, 101, 118, 47, 114, 97, 110, 100, 111, 109],
    [47, 100, 101, 118, 47, 102, 117, 108, 108], [47, 100, 101, 118, 47, 122, 101, 114, 111]]

/-- `open` of a special file. -/
def openSpecial (type mode : ℕ) : M ℤ := do
  if (← kalloc) = true then
    match ← find_open_fd with
    | none => return E_MFILE
    | some fd =>
      set_fd fd (.special type mode)
      return fd
  else return E_NOMEM

/-- `open` of a disk file until `fstlock` is given back. A directory that is found is not put back. -/
def openInode (fuel : ℕ) (pathname : Str) (create : Bool) : M (ℤ ⊕ ℕ) := do
  match ← lookup_directory pathname true false with
  | some _ =>
    unlock_write .fst
    return .inl E_INVAL
  | none =>
    match ← lookup_inode pathname with
    | some ino =>
      unlock_write .fst
      return .inr ino
    | none =>
      if create = true then
        match ← create_file fuel pathname with
        | some ino =>
          unlock_write .fst
          return .inr ino
        | none =>
          unlock_write .fst
          return .inl E_IO
      else
        unlock_write .fst
        return .inl E_NOENT

/-- The file is truncated if requested. -/
def truncate (ino : ℕ) (trunc : Bool) : M Unit :=
  if trunc = true then do
    lock_write (.inode ino)
    set_inode ino fun ino => { ino with size := 0 }
    unlock_write (.inode ino)
  else return

/-- `open` of a disk file from its inode on. -/
def openVnode (ino mode : ℕ) (trunc : Bool) : M ℤ := do
  if ((← get).disk.inode ino).type ≠ type_regular then
    inode_put ino false
    return E_NOENT
  else
    truncate ino trunc
    if (← kalloc) = true then
      disk_vnode ino
      match ← find_open_fd with
      | none =>
        delete_vnode ino
        return E_MFILE
      | some fd =>
        set_fd fd (.disk ino mode)
        prefetch ino 0
        return fd
    else
      inode_put ino false
      return E_NOMEM

/-- `open` of a disk file. -/
def openDisk (fuel : ℕ) (s : Str) (flags : ℕ) : M ℤ := do
  lock_write .fst
  let pathname ← absolute s
  let create : Bool := flags / OF_CREAT % 2 = 1 ∧ flags / OF_WRITE % 2 = 1
  match ← openInode fuel pathname create with
  | .inl r => return r
  | .inr ino => openVnode ino (flags % 4) (flags / OF_TRUNC % 2 = 1)

/-- `syscall_open` -/
def syscall_open (fuel : ℕ) (pathname : UserStr) (flags : ℕ) : M ℤ := do
  if (← get).sata_disk = false then return E_IO
  else match ← filePathArg pathname with
    | .inl r => return r
    | .inr s =>
      if flags % 4 = 0 then return E_INVAL
      else if s ∈ specialFiles then openSpecial (specialFiles.idxOf s) (flags % 4)
      else openDisk fuel s flags

/-! ## `unlink` and `rename` -/

/-- `unlink` of an inode that was found. -/
def unlinkInode (fuel ino : ℕ) : M ℤ := do
  lock_write (.inode ino)
  if ((← get).disk.inode ino).flags % 2 ≠ linked then
    unlock_write (.inode ino)
    inode_put ino false
    unlock_write .fst
    return E_NOENT
  else
    set_inode ino fun ino => { ino with flags := u32 (ino.flags / 2 * 2 + unlinked) }
    unlock_write (.inode ino)
    inode_put ino false
    let _ ← free_direntry fuel ino
    unlock_write .fst
    return 0

/-- `unlink` of a path. -/
def unlinkPath (fuel : ℕ) (pathname : Str) : M ℤ := do
  match ← lookup_directory pathname true false with
  | some _ =>
    unlock_write .fst
    return E_INVAL
  | none =>
    match ← lookup_inode pathname with
    | none =>
      unlock_write .fst
      return E_NOENT
    | some ino => unlinkInode fuel ino

/-- `syscall_unlink` -/
def syscall_unlink (fuel : ℕ) (pathname : UserStr) : M ℤ := do
  if (← get).sata_disk = false then return E_IO
  else match ← filePathArg pathname with
    | .inl r => return r
    | .inr s =>
      let pathname ← absolute s
      lock_write .fst
      unlinkPath fuel pathname

/-- Both path arguments of `rename`: the lengths are taken before either is checked. -/
def renameArgs (oldpath newpath : UserStr) : M (ℤ ⊕ Str × Str) := do
  match oldpath, newpath with
  | some (o, oldAccessible), some (n, newAccessible) =>
    let pfxlen1 ← prefixLen o
    let pfxlen2 ← prefixLen n
    let r := pathname_invalid (some (o, oldAccessible)) pfxlen1
    let r2 := pathname_invalid (some (n, newAccessible)) pfxlen2
    if r ≠ 0 then return .inl r else if r2 ≠ 0 then return .inl r2 else return .inr (o, n)
  | _, _ => throw .assertion

/-- `syscall_rename`. The first character of each path is dropped. -/
def syscall_rename (oldpath newpath : UserStr) : M ℤ := do
  if (← get).sata_disk = false then return E_IO
  else match ← renameArgs oldpath newpath with
    | .inl r => return r
    | .inr (o, n) =>
      let oldpath ← absolute o
      let newpath ← absolute n
      lock_write .fst
      let r ← rename_direntry oldpath.tail newpath.tail
      unlock_write .fst
      return r

/-! ## `mkdir` and `rm` -/

/-- A call on a path under `fstlock`: `abs` is for an absolute path, `rel` for any other. -/
def onPath (path : UserStr) (abs rel : Str → M ℤ) : M ℤ := do
  match ← pathArg path with
  | .inl r => return r
  | .inr s =>
    lock_write .fst
    let r ← resolved s
    unlock_write .fst
    return r
where
  resolved (s : Str) : M ℤ := do
    if s.head? = some dlm then abs s
    else match ← cwd_cat s true with
      | none => return E_NAMETOOLONG
      | some buf => rel buf

/-- `syscall_mkdir` -/
def syscall_mkdir (fuel : ℕ) (path : UserStr) : M ℤ := onPath path (mkdir fuel) (mkdir fuel)

/-- `rm` of an absolute path: not if it is the working directory. -/
def rmAbs (fuel : ℕ) (s : Str) : M ℤ := do
  if (← cwd_subset s) = true then return E_GETOUT else rm fuel s

/-- `syscall_rm` -/
def syscall_rm (fuel : ℕ) (path : UserStr) : M ℤ := onPath path (rmAbs fuel) (rm fuel)

/-! ## `tree`, `ls` and `cd` -/

/-- `syscall_tree`; `accessible` says whether the buffer is. -/
def syscall_tree (fuel : ℕ) (buf : Block) (bufsz : ℕ) (accessible : Bool) : M (ℤ × Block) := do
  if accessible = false then return (E_FAULT, buf)
  else
    let path ← cwd_read
    let buf := blit buf 0 (path ++ [0])
    lock_read .fst
    let (r, o) ← tree fuel path buf bufsz
    unlock_read .fst
    return (if r ≠ 0 then r else o.nfile * 65536 + o.ndir, o.buf)

/-- `syscall_ls` -/
def syscall_ls (bufsz : ℕ) (accessible : Bool) : M (ℤ × Str) := do
  if MAX_UBUF_LEN < bufsz then return (E_2BIG, [])
  else if accessible = false then return (E_FAULT, [])
  else
    let path ← cwd_read
    lock_read .fst
    let r ← ls path bufsz
    unlock_read .fst
    return r

/-- The loop of `cd` over leading dots: a result, or the rest of the path. -/
def cdDots : ℕ → Str → M (ℤ ⊕ Str)
  | 0, _ => throw .fuel
  | n + 1, path => do
    if path.take 2 = [46, dlm] then cdDots n (path.drop 2)
    else if path.take 2 = [46, 46] then
      let r ← cwd_pull_back
      if r ≠ 0 then return .inl r else cdDots n (skipFirst (path.drop 2))
    else if path = [46] then return .inl 0
    else return .inr path

/-- `cd` relative to the working directory. -/
def cdRelative (path : Str) : M ℤ := do
  lock_read .fst
  match ← cdDots (path.length + 1) path with
  | .inl r =>
    unlock_read .fst
    return r
  | .inr path =>
    if path = [] then
      unlock_read .fst
      return 0
    else match ← cwd_cat path true with
      | none =>
        unlock_read .fst
        return E_NAMETOOLONG
      | some buf =>
        let wr ← cwd_write buf
        unlock_read .fst
        return if wr = true then 0 else E_NOENT

/-- `syscall_cd`. An absolute path that is not found is tried again as a relative one. -/
def syscall_cd (path : UserStr) : M ℤ := do
  match ← pathArg path with
  | .inl r => return r
  | .inr s =>
    if s.head? = some dlm then
      lock_read .fst
      let wr ← cwd_write s
      unlock_read .fst
      if wr = true then return 0 else cdRelative s
    else cdRelative s

/-! ## `readdiskfile` -/

/-- The loop of `readdiskfile`, for up to `n` rounds: the bytes that were read. -/
def readLoop (sz : ℕ) : ℕ → Fileiter → ℕ → Str → M (Fileiter × Str)
  | 0, _, _, _ => throw .fuel
  | n + 1, it, off, buf => do
    if sz ≤ buf.length then return (it, buf)
    else
      let it ← it.find off
      match ← it.get_disk_entry with
      | none => return (it, buf)
      | some bn =>
        let k ← get
        let b := off % blocksize
        let size := (k.disk.inode it.ino_).size
        let ncopy := min (u64 ((size : ℤ) - off)) (min (blocksize - b) (sz - buf.length))
        let buf := buf ++ (List.range ncopy).map fun j => k.disk.buf bn (b + j)
        put (.data bn)
        if ncopy = 0 then return (it, buf) else readLoop sz n it (off + ncopy) buf

/-- `syscall_readdiskfile` -/
def syscall_readdiskfile (filename : Option Str) (sz off : ℕ) : M (ℤ × Str) := do
  if (← get).sata_disk = false then return ( E_IO, [])
  else match filename with
    | none => throw .assertion
    | some s =>
      let filename ← absolute s
      lock_read .fst
      match ← lookup_inode filename with
      | none =>
        unlock_read .fst
        return (E_NOENT, [])
      | some ino =>
        unlock_read .fst
        lock_read (.inode ino)
        let (it, buf) ← readLoop sz (sz + 1) (fileiter ino) off []
        it.destroy
        unlock_read (.inode ino)
        inode_put ino false
        return (buf.length, buf)

/-! ## `execv` -/

/-- `execv` with its inode, until the program is loaded: `none` for no memory, else the result of `load`. -/
def execLoad (ino : ℕ) : M (Option ℤ) := do
  if (← kalloc) = false then
    inode_put ino false
    return none
  else if (← kalloc) = false then
    inode_put ino false
    return none
  else
    lock_read (.inode ino)
    let r ← load ino
    unlock_read (.inode ino)
    inode_put ino false
    return some r

/-- The stack and the console are mapped. -/
def mapStack : M Bool := do
  let stk ← kalloc
  let cons ← kalloc
  return stk && cons

/-- `execv` after the program was loaded, when the inode has been put already: the errors put it again. -/
def execMap (ino : ℕ) (r : ℤ) : M ℤ := do
  if r < 0 then
    inode_put ino false
    return r
  else if (← mapStack) = false then
    inode_put ino false
    return E_NOMEM
  else return 0

/-- `execv` until it knows the inode. With a bad `argv` it returns with the lock. -/
def execInode (prgm_name : Str) (argc : ℤ) (argv : Option (ℕ → UserStr)) : M (ℤ ⊕ ℕ) := do
  lock_read .fst
  match ← lookup_directory prgm_name true false with
  | some _ =>
    unlock_read .fst
    return .inl E_INVAL
  | none =>
    let total_length := argv_invalid argc argv
    assert (total_length ≠ 0)
    if total_length < 0 then return .inl total_length
    else
      let ino ← lookup_inode prgm_name
      unlock_read .fst
      return match ino with
        | none => .inl E_NOENT
        | some ino => .inr ino

/-- `syscall_execv`: 0 stands for the new program. -/
def syscall_execv (prgm_name : UserStr) (argc : ℤ) (argv : Option (ℕ → UserStr)) : M ℤ := do
  if pathname_invalid prgm_name 0 ≠ 0 then return E_FAULT
  else match ← execInode (prgm_name.elim [] Prod.fst) argc argv with
    | .inl r => return r
    | .inr ino =>
      match ← execLoad ino with
      | none => return E_NOMEM
      | some r => execMap ino r

end Chickadee.Chkfs
