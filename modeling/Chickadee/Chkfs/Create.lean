import Chickadee.Chkfs.Resolve
import Chickadee.Chkfs.Slot
import Chickadee.Chkfs.Tree

/-!
# Creation that fails: `mkdir` and `create_file`

A call that reports failure should leave everything as it was, except that its directory may have got blocks,
with nothing in them. `mkdir` gives back a lock that it has not taken when there is no inode. `create_file` adds
the blocks to the directory before it looks for an inode, and what a block held before counts for its entries.
-/

namespace Chickadee.Chkfs

open Lib Fs

variable {k₀ k k' : Kernel} {d d' d₁ : Disk} {ino i p n : ℕ} {path : Str} {own : Multiset Token}

/-! ## Locks -/

/-- An inode is locked. -/
def Kernel.locked (k : Kernel) (i : ℕ) : Kernel :=
  { k with mlock := Function.update k.mlock (.inode i) .writer }

/-- A directory in order: its blocks are marked, and its indirect block is none of them. -/
structure SoundDir (d : Disk) (ino : ℕ) : Prop where
  dirOk : DirOk d ino
  inOrder : InOrder d ino
  held : ∀ b ∈ flat d ino, d.fbb.bit b = false
  apart : (d.inode ino).indirect.count = 1 → (d.inode ino).indirect.first ∉ flat d ino
  bounded : (d.inode ino).size ≤ blocksize * bitsperblock

theorem Added.of_same {m : ℕ} (h : Added d ino m d₁) (hsame : d₁.Same d') : Added d ino m d' := by
  obtain ⟨hok, htouched, hle, hflat, hsize, htaken, htook, hindirect, hbuf⟩ := h
  have hinode := hsame.inode
  refine ⟨hok.same hsame, htouched.trans (.of_inode hsame.sb hinode), hle, by rwa [flat_same hsame], by rwa [hinode],
    by rwa [hsame.fbb], by rwa [hsame.fbb, hinode], by rwa [hinode], by rwa [hinode, hsame.buf]⟩

section

variable {m : ℕ} (h : Added d ino m d') (hdir : SoundDir d ino)

include h

include hdir

end

section

variable {r : ℕ × ℕ} (h : Gives d ino 0 i r d') (hdir : SoundDir d ino)

include h

include hdir

end

/-! ## All or nothing -/

/-- The directory in which a path name is to be created. -/
def parent (d : Disk) (pathname : Str) : Option ℕ := reach d (visited pathname false) 1

/--
A file system in order, used by a task alone: every inode that can be locked is free, and there is a cache entry
for every block.
-/
structure Sound (k : Kernel) : Prop where
  root : IsDir k.disk 1
  dirs : ∀ i, IsDir k.disk i → SoundDir k.disk i
  boot : k.disk.fbb.bit 0 = false
  inums : k.disk.sb.ninodes < 2 ^ 32
  avail : k.disk.AllAvail
  unlocked : ∀ i, k.mlock (.inode i) = .readers 0
  settled : ∀ i, Valid k.disk i → Settled k i

/-- There is a directory of this name already. -/
def AlreadyDir (d : Disk) (pathname : Str) : Prop := (reach d (components pathname) 1).isSome = true

/-- The name is that of an entry, be it a free one. -/
def Shown (d : Disk) (p : ℕ) (pathname : Str) : Prop := ∃ e ∈ entries d p, e.name = (path_find_last pathname).2

/-- `mkdir` fails before it does anything. -/
def Refused (d : Disk) (pathname : Str) : Prop :=
  AlreadyDir d pathname ∨ ∀ p, parent d pathname = some p → Shown d p pathname

end Chickadee.Chkfs
