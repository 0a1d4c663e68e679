import Chickadee.Chkfs.Inode

/-!
# Path names and directory entries

A directory entry has an inum, which is 0 in a free slot, and a name, which ends at the first zero byte.
A free slot may still show an old name.
-/

namespace Chickadee.Chkfs

open Lib Fs

/-! ## Path names -/

/-- The delimiter of path names. -/
abbrev dlm : UInt8 := 47

/-- A path name without one leading delimiter. -/
def skipFirst : Str → Str
  | [] => []
  | c :: s => if c = dlm then s else c :: s

/-- A path name without one trailing delimiter. -/
def skipLast (s : Str) : Str := if s.getLast? = some dlm then s.dropLast else s

/-- The names between the delimiters; none for the root directory. -/
def components (pathname : Str) : List Str :=
  let s := skipLast (skipFirst pathname)
  if s = [] then [] else s.splitOn dlm

/--
`path_find_last(s)`: the name after the last delimiter, or after the first character if there is none left.
It takes a trailing delimiter off `s` itself, whose new value comes first.
-/
def path_find_last (s : Str) : Str × Str :=
  if dlm ∉ s then (s, s)
  else
    let s := skipLast s
    let last_delim_index := (s.length - 1) - s.reverse.idxOf dlm
    (s, s.drop (last_delim_index + 1))

/-! ## Directory entries -/

structure Dirent where
  inum : ℕ
  name : Str
  deriving DecidableEq

/-- The string from byte `a` of a block on. -/
def cstr (b : Block) (a : ℕ) : Str :=
  ((List.range (blocksize - a)).map fun j => b (a + j)).takeWhile (· ≠ 0)

/-- `strcpy` to byte `a` of a block. -/
def strcpy (b : Block) (a : ℕ) (s : Str) : Block :=
  copyTo b a (s.length + 1) fun j => s.getD j 0

/-- The directory entry at index `i` of a block. -/
def direntAt (b : Block) (i : ℕ) : Dirent := ⟨getLE b (direntsize * i) 4, cstr b (direntsize * i + 4)⟩

/-- The first `n` directory entries of a block. -/
def dirents (b : Block) (n : ℕ) : List Dirent := (List.range n).map (direntAt b)

/-- `dirent->name` is replaced. -/
def setName (b : Block) (i : ℕ) (s : Str) : Block := strcpy b (direntsize * i + 4) s

/-- `dirent->inum` is replaced. -/
def setInum (b : Block) (i inum : ℕ) : Block := putLE b (direntsize * i) 4 inum

end Chickadee.Chkfs
