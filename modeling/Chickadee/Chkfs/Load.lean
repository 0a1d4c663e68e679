import Chickadee.Chkfs.Tree

/-!
# Arguments, the working directory and the program loader

What the system calls do before and after they use the file system: `pathname_invalid`, `argv_invalid`,
`struct cwd` and `proc::load`.
-/

namespace Chickadee.Chkfs

open Lib Fs

/-! ## Arguments -/

/-- A user pointer to a string: null, or the string with whether the memory it is in is accessible. -/
abbrev UserStr : Type := Option (Str × Bool)

abbrev MAX_FILENAME_LEN : ℕ := 64
abbrev MAX_ARGV_LEN : ℕ := 1016
abbrev MAX_UBUF_LEN : ℕ := 256

/-- `pathname_invalid(p, pathname, pfxlen)`: a longer name is not measured to its end. -/
def pathname_invalid (pathname : UserStr) (pfxlen : ℕ) : ℤ :=
  match pathname with
  | none => E_FAULT
  | some (s, accessible) =>
    if s = [] ∨ accessible = false then E_FAULT
    else if maxnamelen ≤ min s.length (MAX_FILENAME_LEN + 1) + pfxlen then E_NAMETOOLONG
    else 0

/-- The loop of `argv_invalid` over up to `n` arguments: an error, or the number of strings and chars. -/
def argvLoop (argv : ℕ → UserStr) : ℕ → ℕ → ℕ → ℤ ⊕ ℕ × ℕ
  | 0, nstrs, nchars => .inr (nstrs, nchars)
  | n + 1, nstrs, nchars =>
    if MAX_ARGV_LEN < nchars then .inr (nstrs, nchars)
    else match argv nstrs with
      | none => .inr (nstrs, nchars)
      | some arg =>
        if pathname_invalid (some arg) 0 ≠ 0 then .inl (pathname_invalid (some arg) 0)
        else argvLoop argv n (nstrs + 1) (nchars + arg.1.length + 1)

/-- `argv_invalid(argc, argv)`: an error, or the total length. -/
def argv_invalid (argc : ℤ) (argv : Option (ℕ → UserStr)) : ℤ :=
  match argv with
  | none => E_FAULT
  | some argv =>
    if argc < 1 ∨ MAX_ARGV_LEN ≤ argc then E_FAULT
    else match argvLoop argv argc.toNat 0 0 with
      | .inl r => r
      | .inr (nstrs, nchars) =>
        if MAX_ARGV_LEN ≤ nchars then E_2BIG
        else if (nstrs : ℤ) ≠ argc then E_INVAL
        else nchars

/-! ## The working directory -/

/-- A delimiter at the end. -/
def withDlm (s : Str) : Str := if s.getLast? = some dlm then s else s ++ [dlm]

/-- `cwd::write(s)`: whether the directory was found. Its reference is kept. -/
def cwd_write (s : Str) : M Bool := do
  let buf := withDlm s
  match ← lookup_directory buf true false with
  | none => return false
  | some _ =>
    lock_write .cwd
    modify fun k => { k with name := buf }
    unlock_write .cwd
    return true

/-- `cwd::read(buf)` -/
def cwd_read : M Str := do
  lock_read .cwd
  let name := (← get).name
  unlock_read .cwd
  return name

/-- `cwd::len()` -/
def cwd_len : M ℕ := do
  let name ← cwd_read
  return name.length

/-- `cwd::cat(s, buf, dir)`: the buffer, unless the path gets too long. -/
def cwd_cat (s : Str) (dir : Bool) : M (Option Str) := do
  let name ← cwd_read
  if maxnamelen - 2 < s.length + name.length then return none
  else
    let buf := name ++ skipFirst s
    return some (if dir = true then withDlm buf else buf)

/-- The length of the working directory without its last component. -/
def parentLen (name : Str) : ℕ :=
  ((List.range (name.length - 1)).filter fun off => off ≠ 0 ∧ name[off]? = some dlm).getLast?.getD 0 + 1

/-- `cwd::pull_back()` -/
def cwd_pull_back : M ℤ := do
  lock_write .cwd
  let name := (← get).name
  if name = [dlm] then
    unlock_write .cwd
    return E_INVAL
  else
    modify fun k => { k with name := name.take (parentLen name) }
    unlock_write .cwd
    return 0

/-- `cwd::subset(path)` -/
def cwd_subset (path : Str) : M Bool := do
  let name ← cwd_read
  return withDlm path = name

theorem moves_cwd_read : ledger.Moves 0 cwd_read fun _ => 0 :=
  (moves_lock_read _).bind fun _ => .get fun _ => (moves_unlock_read _).bind fun _ => .pure rfl

theorem moves_cwd_len : ledger.Moves 0 cwd_len fun _ => 0 :=
  moves_cwd_read.skip fun _ => .pure rfl

theorem moves_cwd_cat (s : Str) (dir : Bool) : ledger.Moves 0 (cwd_cat s dir) fun _ => 0 := by
  refine moves_cwd_read.skip fun name => ?_
  split
  · exact .pure rfl
  · exact .pure rfl

theorem moves_cwd_subset (path : Str) : ledger.Moves 0 (cwd_subset path) fun _ => 0 :=
  moves_cwd_read.skip fun _ => .pure rfl

theorem moves_cwd_pull_back : ledger.Moves 0 cwd_pull_back fun _ => 0 := by
  refine (moves_lock_write _).bind fun _ => .get fun k => ?_
  dsimp only
  split
  · exact (moves_unlock_write _).bind fun _ => .pure rfl
  · refine (moves_modify ?_ ?_ ?_).skip fun _ => (moves_unlock_write _).bind fun _ => .pure rfl
    all_goals exact fun _ => rfl

/-- The working directory is set exactly if it is found, and then its reference is kept. -/
theorem at_cwd_write (s : Str) (k : Kernel) :
    ledger.At k 0 (cwd_write s) fun r m => OnlyRefs m ∧ (r = true ↔ m ≠ 0) ∧
      (m ≠ 0 ↔ ∃ dir k₁, Returns (lookup_directory (withDlm s) true false) k (some dir) k₁) := by
  refine (moves_lookup_directory _ _ _ k).bind fun dir k₁ m hdir hm => ?_
  subst hm
  cases dir with
  | none =>
    refine .pure ⟨onlyRefs_zero, by simp [inodeRef], fun h => absurd rfl h, ?_⟩
    rintro ⟨_, _, h⟩
    exact absurd (Returns.unique hdir h).1 (by simp)
  | some dir =>
    refine .call (moves_lock_write _) (zero_add _).symm fun _ _ _ => ?_
    refine .skip (moves_modify ?_ ?_ ?_) fun _ _ _ => ?_
    rotate_left 3
    · refine .call (moves_unlock_write _) rfl fun _ _ _ => .pure ?_
      rw [zero_add]
      have hne : inodeRef (some dir) ≠ 0 := Multiset.singleton_ne_zero _
      exact ⟨onlyRefs_singleton _, by simp [hne], fun _ => ⟨dir, k₁, hdir⟩, fun _ => hne⟩
    all_goals exact fun _ => rfl

/-! ## `proc::load` -/

abbrev PAGESIZE : ℕ := 4096
abbrev VA_LOWEND : ℕ := 0x0000800000000000
abbrev ELF_MAGIC : ℕ := 0x464C457F
abbrev ELF_ET_EXEC : ℕ := 2
abbrev ELF_PTYPE_LOAD : ℕ := 1

/-- `diskfile_loader::get_page`: the block it has an entry of, and the number of bytes left there. -/
def get_page (ino off : ℕ) : M (Option (ℕ × ℕ)) := do
  let it ← (fileiter ino).find off
  let e ← it.get_disk_entry
  it.destroy
  return e.map fun bn => (bn, blocksize - off % blocksize)

/-- What the loader reads of `elf_program`. -/
structure ElfProgram where
  p_type : ℕ
  p_offset : ℕ
  p_va : ℕ
  p_filesz : ℕ
  p_memsz : ℕ

/-- The program header at byte `a` of a block. -/
def elfProgramAt (b : Block) (a : ℕ) : ElfProgram :=
  ⟨getLE b a 4, getLE b (a + 8) 8, getLE b (a + 16) 8, getLE b (a + 32) 8, getLE b (a + 40) 8⟩

/-- The header checks of `load`, for a page with `len` bytes. -/
def elfOk (b : Block) (len : ℕ) : Bool :=
  getLE b 0 4 = ELF_MAGIC ∧ getLE b 0x10 2 = ELF_ET_EXEC ∧ getLE b 0x36 2 = 56 ∧ getLE b 0x3a 2 = 64 ∧
    getLE b 0x20 8 ≤ PAGESIZE ∧ getLE b 0x20 8 ≤ len ∧ getLE b 0x38 2 ≠ 0 ∧
    getLE b 0x38 2 ≤ (len - getLE b 0x20 8) / 56 ∧ getLE b 0x38 2 ≤ 4

/-- The pages of a segment are allocated and mapped. -/
def allocPages : ℕ → M Bool
  | 0 => return true
  | n + 1 => do
    if (← kalloc) = true then
      if (← kalloc) = true then allocPages n else return false
    else return false

/-- The loop of `load_segment` over the data between `va` and `end_file`, for up to `n` pages. -/
def loadData (ino end_file : ℕ) : ℕ → ℕ → ℕ → M ℤ
  | 0, _, _ => throw .fuel
  | n + 1, va, off => do
    if end_file ≤ va then return 0
    else
      let req_off := off - off % PAGESIZE
      match ← get_page ino req_off with
      | none => return -1
      | some (bn, r) =>
        let last_off := req_off + r
        put (.data bn)
        if last_off ≤ off then return E_NOEXEC
        else
          let copied := min (last_off - off) (end_file - va)
          loadData ino end_file n (va + copied) (off + copied)

/-- `load_segment(ph, ld)`, without the memory that is filled -/
def load_segment (ino : ℕ) (ph : ElfProgram) : M ℤ := do
  let va := ph.p_va
  if VA_LOWEND < va ∨ VA_LOWEND - va < ph.p_memsz ∨ ph.p_memsz < ph.p_filesz then return E_NOEXEC
  else if (← allocPages ((va % PAGESIZE + ph.p_memsz + PAGESIZE - 1) / PAGESIZE)) = false then
    return E_NOMEM
  else loadData ino (va + ph.p_filesz) (ph.p_filesz + 1) va ph.p_offset

/-- The loop of `load` over the segments. -/
def loadSegments (ino : ℕ) : List ElfProgram → M ℤ
  | [] => return 0
  | ph :: phs => do
    if ph.p_type = ELF_PTYPE_LOAD then
      let r ← load_segment ino ph
      if r < 0 then return r else loadSegments ino phs
    else loadSegments ino phs

/-- `proc::load(ld)` with a `diskfile_loader` -/
def load (ino : ℕ) : M ℤ := do
  match ← get_page ino 0 with
  | none => return -1
  | some (bn, r) =>
    let b := (← get).disk.buf bn
    put (.data bn)
    if r < 64 ∨ elfOk b r = false then return E_NOEXEC
    else loadSegments ino ((List.range (getLE b 0x38 2)).map fun i => elfProgramAt b (getLE b 0x20 8 + 56 * i))

/-- The page that `get_page` holds. -/
def pageRef : Option (ℕ × ℕ) → Multiset Token
  | some (bn, _) => {.ref (.data bn)}
  | none => 0

theorem moves_get_page (ino off : ℕ) : ledger.Moves 0 (get_page ino off) pageRef := by
  refine Ledger.Moves.bind ((fileiter ino).moves_find off) fun it => ?_
  refine it.moves_get_disk_entry.call (zero_add _).symm fun e => ?_
  refine it.moves_destroy.call (add_comm _ _) fun _ => ?_
  rw [zero_add]
  cases e with
  | none => exact .pure rfl
  | some bn => exact .pure rfl

theorem moves_allocPages (n : ℕ) : ledger.Moves 0 (allocPages n) fun _ => 0 := by
  induction n with
  | zero => exact .pure rfl
  | succ n ih =>
    refine moves_kalloc.skip fun _ => ?_
    split
    · refine moves_kalloc.skip fun _ => ?_
      split
      · exact ih
      · exact .pure rfl
    · exact .pure rfl

theorem moves_loadData (ino end_file n va off : ℕ) :
    ledger.Moves 0 (loadData ino end_file n va off) fun _ => 0 := by
  induction n generalizing va off with
  | zero => exact .throw id
  | succ n ih =>
    unfold loadData
    split
    · exact .pure rfl
    refine (moves_get_page _ _).bind fun page => ?_
    cases page with
    | none => exact .pure rfl
    | some page =>
      refine (moves_put _).bind fun _ => ?_
      split
      · exact .pure rfl
      · exact ih _ _

theorem moves_loadSegments (ino : ℕ) (phs : List ElfProgram) :
    ledger.Moves 0 (loadSegments ino phs) fun _ => 0 := by
  induction phs with
  | nil => exact .pure rfl
  | cons ph phs ih =>
    have hsegment : ledger.Moves 0 (load_segment ino ph) fun _ => 0 := by
      unfold load_segment
      dsimp only
      split
      · exact .pure rfl
      refine (moves_allocPages _).skip fun _ => ?_
      split
      · exact .pure rfl
      · exact moves_loadData _ _ _ _ _
    unfold loadSegments
    split
    · refine hsegment.skip fun r => ?_
      split
      · exact .pure rfl
      · exact ih
    · exact ih

/-- **The loader puts every page it gets.** -/
theorem moves_load (ino : ℕ) : ledger.Moves 0 (load ino) fun _ => 0 := by
  refine (moves_get_page _ _).bind fun page => ?_
  cases page with
  | none => exact .pure rfl
  | some page =>
    refine .get fun k => (moves_put _).bind fun _ => ?_
    split
    · exact .pure rfl
    · exact moves_loadSegments _ _

end Chickadee.Chkfs
