import Chickadee.Chkfs.Lookup
import Chickadee.Lib.Ends

/-!
# What a lookup leaves alone

`lookup_directory` takes references, and `inode::put` may even free an inode. The name of the working directory
is not touched by any of it.
-/

namespace Chickadee.Chkfs

open Lib Fs

variable {α σ : Type}

/-- `x` leaves the working directory alone. -/
abbrev KeepsName (x : M α) : Prop := Keeps Kernel.name x

theorem name_assert (p : Prop) [Decidable p] : KeepsName (assert p) := by
  unfold assert
  split
  · exact .pure
  · exact .throw

theorem name_get_disk_entry (e : Entry) : KeepsName (get_disk_entry e) := by
  intro k r k' h
  cases h
  rfl

theorem name_put (e : Entry) : KeepsName (put e) := by
  intro k r k' h
  unfold put at h
  split at h
  · cases h
  · cases h
    rfl

theorem name_lock_write (l : Lock) : KeepsName (lock_write l) := by
  intro k r k' h
  unfold lock_write at h
  split at h
  · cases h
    rfl
  · cases h

theorem name_unlock_write (l : Lock) : KeepsName (unlock_write l) := by
  intro k r k' h
  unfold unlock_write at h
  split at h
  · cases h
    rfl
  · cases h

theorem name_set_inode (i : ℕ) (f : Inode → Inode) : KeepsName (set_inode i f) := .modify fun _ => rfl

theorem name_superblock : KeepsName superblock :=
  (name_get_disk_entry _).bind fun _ => (name_assert _).bind fun _ => name_put _

theorem name_free_extent (first count : ℕ) : KeepsName (free_extent first count) := by
  refine name_superblock.bind fun _ => (name_get_disk_entry _).bind fun ok => ?_
  split
  swap
  · exact .throw
  refine .get fun k => ?_
  split
  · exact Keeps.bind (.modify fun _ => rfl) fun _ => name_put _
  · exact .throw

theorem name_get_inode (i : ℕ) : KeepsName (get_inode i) := by
  refine name_superblock.bind fun _ => .get fun k => ?_
  split
  swap
  · exact .pure
  refine (name_get_disk_entry _).bind fun ok => ?_
  split
  · exact .pure
  · exact .pure

/-! ## `inode::put` -/

theorem name_freeDirect (i n eidx : ℕ) : KeepsName (freeDirect i n eidx) := by
  induction n generalizing eidx with
  | zero => exact .pure
  | succ n ih =>
    refine .get fun k => ?_
    dsimp only
    split
    · exact .pure
    · exact (name_free_extent _ _).bind fun _ => (name_set_inode _ _).bind fun _ => ih _

theorem name_freeIndirect (i eidx : ℕ) : KeepsName (freeIndirect i eidx) := by
  refine .get fun k => ?_
  dsimp only
  split
  swap
  · exact .pure
  refine (name_assert _).bind fun _ => (name_get_disk_entry _).bind fun _ => (name_assert _).bind fun _ => ?_
  exact (name_free_extent _ _).bind fun _ => name_put _

theorem name_free_inode_in (dirino i : ℕ) : KeepsName (free_inode_in dirino i) := by
  refine (name_assert _).bind fun _ => (name_lock_write _).bind fun _ => (name_freeDirect _ _ _).bind fun _ => ?_
  refine (name_freeIndirect _ _).bind fun _ => (name_set_inode _ _).bind fun _ => ?_
  exact (name_unlock_write _).bind fun _ => .pure

theorem name_putWith {free : ℕ → M ℤ} (hfree : ∀ i, KeepsName (free i)) (i : ℕ) (user_file : Bool) :
    KeepsName (putWith free i user_file) := by
  have hdrop : KeepsName (dropCount i user_file) := by
    unfold dropCount
    split
    · exact name_set_inode _ _
    · exact .pure
  have hrelease : KeepsName (release free i user_file) := by
    refine .get fun k => ?_
    split
    swap
    · exact .pure
    refine (name_lock_write _).bind fun _ => hdrop.bind fun _ => .get fun k => ?_
    dsimp only
    split
    · exact (name_unlock_write _).bind fun _ => (hfree i).bind fun _ => name_assert _
    · exact name_unlock_write _
  exact hrelease.bind fun _ => name_put _

theorem name_ino_to_inum (i : ℕ) : KeepsName (ino_to_inum i) := name_superblock.bind fun _ => .pure

theorem name_free_unlinked (i : ℕ) : KeepsName (free_unlinked i) := by
  refine (name_ino_to_inum i).bind fun inum => ?_
  split
  · exact .pure
  refine (name_get_inode 1).bind fun root => ?_
  split
  · exact .pure
  refine (name_assert _).bind fun _ => .get fun k => (name_assert _).bind fun _ => (name_lock_write _).bind fun _ => ?_
  refine (name_set_inode _ _).bind fun _ => (name_unlock_write _).bind fun _ => (name_ino_to_inum _).bind fun _ => ?_
  refine (name_free_inode_in _ _).bind fun _ => Keeps.bind (name_putWith ?_ _ _) fun _ => .pure
  exact fun i => (name_ino_to_inum i).bind fun _ => .pure

theorem name_inode_put (i : ℕ) (user_file : Bool) : KeepsName (inode_put i user_file) :=
  name_putWith name_free_unlinked i user_file

/-! ## The blocks of a directory -/

theorem name_put_indirect (it : Fileiter) : KeepsName it.put_indirect := by
  unfold Fileiter.put_indirect
  split
  · exact (name_put _).bind fun _ => .pure
  · exact .pure

theorem name_destroy (it : Fileiter) : KeepsName it.destroy := by
  unfold Fileiter.destroy
  split
  · exact name_put _
  · exact .pure

theorem name_findLoop (n : ℕ) (it : Fileiter) : KeepsName (Fileiter.findLoop n it) := by
  induction n generalizing it with
  | zero => exact .throw
  | succ n ih =>
    unfold Fileiter.findLoop
    split
    · exact .throw
    refine .get fun k => ?_
    dsimp only
    split_ifs
    · exact .pure
    · exact .pure
    · exact ih _
    · refine (name_put_indirect _).bind fun it' => .get fun k' => ?_
      split
      · exact .pure
      refine (name_get_disk_entry _).bind fun ok => ?_
      split
      · exact ih _
      · exact .pure
    · exact ih _

theorem name_find (it : Fileiter) (off : ℕ) : KeepsName (it.find off) := by
  refine .get fun k => ?_
  dsimp only
  split
  · exact (name_put_indirect _).bind fun _ => name_findLoop _ _
  · exact name_findLoop _ _

theorem name_entry (it : Fileiter) : KeepsName it.get_disk_entry := by
  refine .get fun k => ?_
  dsimp only
  split
  · exact .pure
  refine (name_get_disk_entry _).bind fun ok => ?_
  split
  · exact .pure
  · exact .pure

theorem name_scanLoop {body : σ → ℕ → ℕ → M (α ⊕ σ)} {missing : σ → M α}
    (hbody : ∀ s bn n, KeepsName (body s bn n)) (hmissing : ∀ s, KeepsName (missing s)) (n : ℕ) (it : Fileiter)
    (diroff : ℕ) (s : σ) : KeepsName (scanLoop body missing n it diroff s) := by
  induction n generalizing it diroff s with
  | zero => exact .throw
  | succ n ih =>
    refine (name_find it diroff).bind fun it => (name_entry it).bind fun e => ?_
    split
    · refine .get fun k => (hbody _ _ _).bind fun r => ?_
      split
      · exact (name_destroy it).bind fun _ => .pure
      · exact ih _ _ _
    · exact (hmissing s).bind fun _ => (name_destroy it).bind fun _ => .pure

theorem name_findName (dirino : ℕ) (name : Str) : KeepsName (findName dirino name) := by
  refine .get fun k => name_scanLoop (fun _ bn n => .get fun k => ?_) (fun _ => .pure) _ _ _ _
  refine (name_put _).bind fun _ => ?_
  split
  · exact .pure
  · exact .pure

/-! ## The walk -/

theorem name_walk (is_file : Bool) (names : List Str) (curdir : ℕ) : KeepsName (walk is_file names curdir) := by
  induction names generalizing curdir with
  | nil => exact .pure
  | cons s names ih =>
    refine (name_findName _ _).bind fun inum => ?_
    split
    · exact (name_inode_put _ _).bind fun _ => .pure
    refine (name_inode_put _ _).bind fun _ => (name_get_inode _).bind fun next => ?_
    split
    · exact .pure
    refine .get fun k => ?_
    split
    · exact (name_inode_put _ _).bind fun _ => .pure
    · exact ih _

/-- **A lookup leaves the working directory alone.** -/
theorem name_lookup_directory (pathname : Str) (access_last is_file : Bool) :
    KeepsName (lookup_directory pathname access_last is_file) := by
  refine (name_get_inode 1).bind fun root => ?_
  split
  · exact .pure
  dsimp only
  split
  · exact (name_inode_put _ _).bind fun _ => .pure
  · exact name_walk _ _ _

end Chickadee.Chkfs
