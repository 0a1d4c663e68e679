import Chickadee.Chkfs.Contents
import Chickadee.Chkfs.Load
import Chickadee.Lib.Pool
import Chickadee.Vm.PageTable

/-!
# `proc::load` and the memory that it fills

`proc::load` takes the pages of a file from a `proc_loader` and puts them in fresh memory behind a page table.
A `memfile_loader` gives everything from an offset on, a `diskfile_loader` the rest of one block.

A function has no result where the source fails an assertion or follows a null pointer, and where a loop has
used up its fuel.
-/

namespace Chickadee.Elf

open Lib Fs Vm
open Chkfs (ElfProgram elfProgramAt elfOk flat ELF_PTYPE_LOAD E_NOENT E_NOEXEC)

/-! ## The memory -/

/-- What the loader changes: the page table and its `entry_rip_`, the pages that `kalloc` has left, and
physical memory. -/
structure Space where
  entry_rip_ : ℕ
  pt : PageTable
  free : List ℕ
  byte : ℕ → UInt8

namespace Space

/-- `kalloc(PAGESIZE)`: a page and what is left, unless memory has run out. -/
def kalloc (m : Space) : Option (ℕ × Space) :=
  match m.free with
  | [] => none
  | pg :: free => some (pg, { m with free := free })

/-- `kfree(pg)` -/
def kfree (m : Space) (pg : ℕ) : Space := { m with free := pg :: m.free }

/-- `memcpy` to physical memory -/
def memcpy (m : Space) (pa : ℕ) (bs : List UInt8) : Space :=
  { m with byte := copyTo m.byte pa bs.length fun i => bs.getD i 0 }

/-- The entry of a level becomes a page with `PTE_PWU`. -/
def set (m : Space) (level i pa : ℕ) : Space :=
  { m with pt := fun l j => if l = level ∧ j = i then some ⟨pa, true, true, false⟩ else m.pt l j }

/-- The entry becomes a new table, whose own entries are zero. -/
def setTable (m : Space) (level i pa : ℕ) : Space :=
  Space.set { m with pt := fun l j => if l + 1 = level ∧ j / 512 = i then none else m.pt l j } level i pa

end Space

/-- The loop of `try_map`: a table at every level down to 1. -/
def addTables (va : ℕ) : ℕ → Space → Bool × Space
  | 0, m => (true, m)
  | level + 1, m =>
    match m.kalloc with
    | none => (false, m)
    | some (pa, m) => addTables va level (m.setTable (level + 1) (va / pagesize (level + 1)) pa)

/-- `vmiter(pt, va).try_map(pa, PTE_PWU)`, with its assertions -/
def try_map (va pa : ℕ) (m : Space) : Option (Bool × Space) :=
  let it := find m.pt va
  if va % PAGESIZE ≠ 0 ∨ pa % PAGESIZE ≠ 0 ∨ it.w = false ∨ it.u = false ∨ (0 < it.level_ ∧ it.present = true) then
    none
  else match addTables va it.level_ m with
    | (false, m) => some (false, m)
    | (true, m) => some (true, m.set 0 (va / pagesize 0) pa)

/-! ## The loaders -/

/-- `proc_loader`: whether there is a page table, and `get_page`, which fails or gives the valid bytes at an
offset. -/
structure ProcLoader where
  pagetable_ : Bool
  get_page : ℕ → Except ℤ (List UInt8)

/-- `memfile_loader` for the contents of the file, if there is one -/
def memfile_loader (memfile_ : Option (List UInt8)) (pagetable_ : Bool) : ProcLoader where
  pagetable_ := pagetable_
  get_page off :=
    match memfile_ with
    | none => .error E_NOENT
    | some data => if data.length ≤ off then .ok [] else .ok (data.drop off)

/-- `diskfile_loader` for an inode, if there is one. The size of the file is not looked at. -/
def diskfile_loader (d : Disk) (ino_ : Option ℕ) (pagetable_ : Bool) : ProcLoader where
  pagetable_ := pagetable_
  get_page off :=
    match ino_ with
    | none => .error E_NOENT
    | some ino =>
      let bn := (flat d ino).getD (off / blocksize) 0
      if bn = 0 then .error (-1)
      else .ok ((List.range' (off % blocksize) (blocksize - off % blocksize)).map (d.buf bn))

/-! ## `proc::load_segment` -/

/-- The pages from `va` up to `end_mem` are allocated and mapped. -/
def allocPages (end_mem : ℕ) : ℕ → ℕ → Space → Option (Bool × Space)
  | 0, _, _ => none
  | n + 1, va, m =>
    if va < end_mem then
      match m.kalloc with
      | none => some (false, m)
      | some (pg, m) =>
        match try_map va pg m with
        | none => none
        | some (false, m) => some (false, m.kfree pg)
        | some (true, m) => allocPages end_mem n (va + PAGESIZE) m
    else some (true, m)

/-- The bytes of one `get_page` are copied, page by page: where this ends in memory and in the file. -/
def copyData (data : List UInt8) (req_off end_file : ℕ) : ℕ → ℕ → ℕ → Space → Option (ℕ × ℕ × Space)
  | 0, _, _, _ => none
  | n + 1, va, off, m =>
    let last_off := req_off + data.length
    if off < last_off ∧ va < end_file then
      let it := find m.pt va
      let datapg_sz := last_off - off
      let va_sz := min it.last_va end_file - va
      let copy_sz := min datapg_sz va_sz
      match it.pa with
      | none => none
      | some pa =>
        copyData data req_off end_file n (va + copy_sz) (off + copy_sz)
          (m.memcpy pa ((data.drop (off - req_off)).take copy_sz))
    else some (va, off, m)

/-- The loop over the data between `va` and `end_file`. -/
def loadData (ld : ProcLoader) (end_file : ℕ) : ℕ → ℕ → ℕ → Space → Option (ℤ × Space)
  | 0, _, _, _ => none
  | n + 1, va, off, m =>
    if va < end_file then
      let req_off := off - off % PAGESIZE
      match ld.get_page req_off with
      | .error e => some (e, m)
      | .ok data =>
        if req_off + data.length ≤ off then some (E_NOEXEC, m)
        else match copyData data req_off end_file (end_file - va + 1) va off m with
          | none => none
          | some (va, off, m) => loadData ld end_file n va off m
    else some (0, m)

/-- The memory between `va` and `end_mem` is set to zero. -/
def clearTail (end_mem : ℕ) : ℕ → ℕ → Space → Option Space
  | 0, _, _ => none
  | n + 1, va, m =>
    if va < end_mem then
      let it := find m.pt va
      let sz := min it.last_va end_mem - va
      match it.pa with
      | none => none
      | some pa => clearTail end_mem n (va + sz) (m.memcpy pa (List.replicate sz 0))
    else some m

/-- `load_segment(ph, ld)` -/
def load_segment (ld : ProcLoader) (ph : ElfProgram) (m : Space) : Option (ℤ × Space) :=
  let va := ph.p_va
  let end_file := va + ph.p_filesz
  let end_mem := va + ph.p_memsz
  if VA_LOWEND < va ∨ VA_LOWEND - va < ph.p_memsz ∨ ph.p_memsz < ph.p_filesz then some (E_NOEXEC, m)
  else if ld.pagetable_ = false then some (E_NOMEM, m)
  else match allocPages end_mem (ph.p_memsz + 2) (va - va % PAGESIZE) m with
    | none => none
    | some (false, m) => some (E_NOMEM, m)
    | some (true, m) =>
      match loadData ld end_file (ph.p_filesz + 1) va ph.p_offset m with
      | none => none
      | some (r, m) =>
        if r < 0 then some (r, m)
        else (clearTail end_mem (ph.p_memsz - ph.p_filesz + 1) end_file m).map fun m => (0, m)

/-! ## `proc::load` -/

/-- The loop of `load` over the segments. -/
def loadSegments (ld : ProcLoader) : List ElfProgram → Space → Option (ℤ × Space)
  | [], m => some (0, m)
  | ph :: phs, m =>
    if ph.p_type = ELF_PTYPE_LOAD then
      match load_segment ld ph m with
      | none => none
      | some (r, m) => if r < 0 then some (r, m) else loadSegments ld phs m
    else loadSegments ld phs m

/-- The bytes at `headerpg` -/
def page (data : List UInt8) : Block := fun i => data.getD i 0

/-- The program headers that `load` copies. -/
def programs (b : Block) : List ElfProgram :=
  (List.range (getLE b 0x38 2)).map fun i => elfProgramAt b (getLE b 0x20 8 + 56 * i)

/-- `proc::load(ld)` -/
def load (ld : ProcLoader) (m : Space) : Option (ℤ × Space) :=
  match ld.get_page 0 with
  | .error e => some (e, m)
  | .ok data =>
    if data.length < 64 ∨ elfOk (page data) data.length = false then some (E_NOEXEC, m)
    else loadSegments ld (programs (page data)) { m with entry_rip_ := getLE (page data) 0x18 8 }

end Chickadee.Elf
