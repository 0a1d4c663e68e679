import Chickadee.Chkfs.Lookup

/-!
# Changing a directory: `allocate_direntry`, `rename_direntry`, `free_direntry`, `free_inode(ino)`

The caller of `allocate_direntry` gets a reference to the entry that the new directory entry lies in.
-/

namespace Chickadee.Chkfs

open Lib Fs

/-! ## A new directory entry -/

/-- One more block for a directory whose blocks are all full: the iterator after `insert`. -/
def growDirectory (it : Fileiter) : M Fileiter := do
  let first ← allocate_extent 1
  if u32 E_MINERROR ≤ first then return it
  else
    let (it, r) ← it.insert first 1
    if r < 0 then
      free_extent first 1
      return it
    else return it

/--
The loop of `allocate_direntry`: the block and the index of a free directory entry. The size grows whether
or not there is a new block, and the same offset is tried again.
-/
def allocateDirentryLoop (dirino : ℕ) : ℕ → Fileiter → ℕ → M (ℕ × ℕ)
  | 0, _, _ => throw .fuel
  | n + 1, it, diroff => do
    let it ← it.find diroff
    match ← it.get_disk_entry with
    | some bn =>
      let k ← get
      let ds := dirents (k.disk.buf bn) (ndirents (k.disk.inode dirino).size diroff)
      match ds.findIdx? fun de => de.inum = 0 with
      | some i =>
        it.destroy
        return (bn, i)
      | none =>
        put (.data bn)
        allocateDirentryLoop dirino n it (diroff + blocksize)
    | none =>
      let it ← growDirectory it
      set_inode dirino fun ino => { ino with size := u32 (ino.size + blocksize) }
      allocateDirentryLoop dirino n it diroff

/-- `allocate_direntry(dirino, de)` -/
def allocate_direntry (fuel dirino : ℕ) : M (ℕ × ℕ) :=
  allocateDirentryLoop dirino fuel (fileiter dirino) 0

theorem moves_growDirectory (it : Fileiter) :
    ledger.Moves it.own (growDirectory it) Fileiter.own := by
  refine (moves_allocate_extent _).skip fun first => ?_
  split
  · exact .pure rfl
  refine (it.moves_insert _ _).bind fun r => ?_
  dsimp only
  split
  · exact (moves_free_extent _ _).skip fun _ => .pure rfl
  · exact .pure rfl

theorem moves_allocateDirentryLoop (dirino n : ℕ) (it : Fileiter) (diroff : ℕ) :
    ledger.Moves it.own (allocateDirentryLoop dirino n it diroff) fun r => {.ref (.data r.1)} := by
  induction n generalizing it diroff with
  | zero => exact .throw id
  | succ n ih =>
    refine (it.moves_find diroff).bind fun it => ?_
    refine it.moves_get_disk_entry.call (zero_add _).symm fun e => ?_
    cases e with
    | none =>
      rw [Fileiter.entry, zero_add]
      refine (moves_growDirectory _).bind fun it => (moves_set_inode _ _).skip fun _ => ih it _
    | some bn =>
      refine .get fun k => ?_
      dsimp only
      split
      · exact it.moves_destroy.call (add_comm _ _) fun _ => .pure (zero_add _)
      · refine (moves_put _).call rfl fun _ => ?_
        rw [zero_add]
        exact ih it _

theorem moves_allocate_direntry (fuel dirino : ℕ) :
    ledger.Moves 0 (allocate_direntry fuel dirino) fun r => {.ref (.data r.1)} :=
  moves_allocateDirentryLoop dirino fuel (fileiter dirino) 0

/-! ## A new name -/

/-- What `rename_direntry` finds in the directory entries of a block. -/
inductive RenameFound
  | name_already_exists
  | found (i : ℕ)
  | missing

/-- The loop over the entries of a block: it ends at `newname`, and the last `oldname` before counts. -/
def renameScan (oldname newname : Str) (ds : List Dirent) : RenameFound :=
  if ds.any fun de => de.name = newname then .name_already_exists
  else match ds.reverse.findIdx? fun de => de.inum ≠ 0 ∧ de.name = oldname with
    | some i => .found (ds.length - 1 - i)
    | none => .missing

/-- `rename_direntry(dirino, oldname, newname)` -/
def rename_direntry_in (dirino : ℕ) (oldname newname : Str) : M ℤ :=
  scan dirino (fun () bn n => do
    match renameScan oldname newname (dirents ((← get).disk.buf bn) n) with
    | .name_already_exists =>
      put (.data bn)
      return .inl E_SAMENAME
    | .found i =>
      set_buf bn fun b => setName b i newname
      put (.data bn)
      return .inl 0
    | .missing =>
      put (.data bn)
      return .inr ()) (fun _ => return E_NOENT) ()

/-- `rename_direntry(oldname, newname)` -/
def rename_direntry (oldname newname : Str) : M ℤ := do
  match ← lookup_directory oldname false true with
  | none => return E_NOENT
  | some dirino =>
    lock_write (.inode dirino)
    let r ← rename_direntry_in dirino oldname newname
    unlock_write (.inode dirino)
    inode_put dirino false
    return r

theorem moves_rename_direntry_in (dirino : ℕ) (oldname newname : Str) :
    ledger.Moves 0 (rename_direntry_in dirino oldname newname) fun _ => 0 := by
  refine moves_scan_unit (fun bn n => ?_) ?_ dirino
  swap
  · exact .pure rfl
  refine .get fun k => ?_
  split
  · exact (moves_put _).bind fun _ => .pure rfl
  · exact (moves_set_buf _ _).skip fun _ => (moves_put _).bind fun _ => .pure rfl
  · exact (moves_put _).bind fun _ => .pure rfl

theorem moves_rename_direntry (oldname newname : Str) :
    ledger.Moves 0 (rename_direntry oldname newname) fun _ => 0 := by
  refine (moves_lookup_directory _ _ _).bind fun dirino => ?_
  cases dirino with
  | none => exact .pure rfl
  | some dirino =>
    refine (moves_lock_write _).call (zero_add _).symm fun _ => (moves_rename_direntry_in _ _ _).skip fun r => ?_
    refine (moves_unlock_write _).call rfl fun _ => ?_
    rw [zero_add]
    exact (moves_inode_put _ _).bind fun _ => .pure rfl

/-! ## A directory entry is freed -/

/-- `free_direntry(dirino, ino)` -/
def free_direntry_in (dirino i : ℕ) : M ℤ := do
  let inum ← ino_to_inum i
  scan dirino (fun () bn n => do
    match (dirents ((← get).disk.buf bn) n).findIdx? fun de => de.inum = inum with
    | some i =>
      set_buf bn fun b => setName (setInum b i 0) i []
      put (.data bn)
      return .inl 0
    | none =>
      put (.data bn)
      return .inr ()) (fun _ => return E_NOENT) ()

/-- `free_direntry(ino)`. The directory is the first of the path that the search returns. -/
def free_direntry (fuel i : ℕ) : M ℤ := do
  match ← get_inode 1 with
  | none => return E_NOENT
  | some root_dirino =>
    let found ← search fuel root_dirino i
    inode_put root_dirino false
    match found with
    | none => return E_NOENT
    | some path =>
      let dirino := path.headD root_dirino
      lock_write (.inode dirino)
      let r ← free_direntry_in dirino i
      let inum ← ino_to_inum dirino
      putOther inum dirino
      unlock_write (.inode dirino)
      return r
where
  /-- The root directory was put before. -/
  putOther (inum dirino : ℕ) : M Unit := if inum ≠ 1 then inode_put dirino false else return

/-- The search ends at the root directory or at one of its entries. -/
def Shallow : List ℕ → Prop
  | [] => True
  | [dirino] => dirino ≠ 1
  | _ => False

instance : DecidablePred Shallow
  | [] => isTrue trivial
  | [dirino] => inferInstanceAs (Decidable (dirino ≠ 1))
  | _ :: _ :: _ => isFalse id

/-- `free_direntry(ino)` finds the inode deeper in the tree. -/
def Deep (fuel i : ℕ) (k : Kernel) : Prop :=
  ∃ root_dirino k₁ path k₂, Returns (get_inode 1) k (some root_dirino) k₁ ∧
    Returns (search fuel root_dirino i) k₁ (some path) k₂ ∧ ¬ Shallow path

theorem moves_free_direntry_in (dirino i : ℕ) : ledger.Moves 0 (free_direntry_in dirino i) fun _ => 0 := by
  refine (moves_ino_to_inum _).skip fun inum => moves_scan_unit (fun bn n => ?_) ?_ dirino
  swap
  · exact .pure rfl
  refine .get fun k => ?_
  split
  · exact (moves_set_buf _ _).skip fun _ => (moves_put _).bind fun _ => .pure rfl
  · exact (moves_put _).bind fun _ => .pure rfl

/-- The directories whose references `free_direntry(ino)` keeps. -/
def kept : List ℕ → List ℕ
  | [] => []
  | dirino :: path => if dirino ≠ 1 then path else dirino :: path

theorem kept_eq_nil_iff (path : List ℕ) : kept path = [] ↔ Shallow path := by
  match path with
  | [] => exact ⟨fun _ => trivial, fun _ => rfl⟩
  | [dirino] => simp [kept, Shallow]
  | dirino :: d :: ds =>
    show (if dirino ≠ 1 then d :: ds else dirino :: d :: ds) = [] ↔ False
    split <;> simp

theorem moves_putOther (path : List ℕ) :
    ledger.Moves (refs path) (free_direntry.putOther (path.headD 1) (path.headD 1)) fun _ =>
      refs (kept path) := by
  cases path with
  | nil => exact .pure rfl
  | cons dirino path =>
    have hkept : kept (dirino :: path) = if dirino ≠ 1 then path else dirino :: path := rfl
    unfold free_direntry.putOther
    rw [List.headD_cons, hkept]
    split
    · rw [refs_cons]
      exact ((moves_inode_put _ _).frame _).congr rfl fun _ => zero_add _
    · exact .pure rfl

/-- **`free_direntry(ino)` keeps references exactly if it finds the inode deeper in the tree.** -/
theorem at_free_direntry (fuel i : ℕ) (k : Kernel) :
    ledger.At k 0 (free_direntry fuel i) fun _ m => OnlyRefs m ∧ (m ≠ 0 ↔ Deep fuel i k) := by
  refine (moves_get_inode 1 k).bind fun root k₁ m hroot hm => ?_
  subst hm
  cases root with
  | none =>
    refine .pure ⟨onlyRefs_zero, fun h => absurd rfl h, ?_⟩
    rintro ⟨_, _, _, _, hroot', -⟩
    exact absurd (Returns.unique hroot hroot').1 (by simp)
  | some root_dirino =>
    obtain rfl := get_inode_eq hroot
    refine .call (moves_search _ _ _) (zero_add _).symm fun found k₂ hfound => ?_
    refine .call (moves_inode_put _ _) (add_comm _ _) fun _ _ _ => ?_
    rw [zero_add]
    have hdeep : ∀ path, found = some path → (Deep fuel i k ↔ ¬ Shallow path) := by
      rintro path rfl
      refine ⟨?_, fun h => ⟨_, _, _, _, hroot, hfound, h⟩⟩
      rintro ⟨_, _, path', _, hroot', hfound', h⟩
      obtain ⟨h₁, rfl⟩ := Returns.unique hroot hroot'
      cases h₁
      obtain ⟨h₂, -⟩ := Returns.unique hfound hfound'
      cases h₂
      exact h
    cases found with
    | none =>
      refine .pure ⟨onlyRefs_zero, fun h => absurd rfl h, ?_⟩
      rintro ⟨_, _, path', _, hroot', hfound', -⟩
      obtain ⟨h₁, rfl⟩ := Returns.unique hroot hroot'
      cases h₁
      exact absurd (Returns.unique hfound hfound').1 (by simp)
    | some path =>
      rw [hdeep path rfl]
      refine .call (moves_lock_write _) (zero_add _).symm fun _ _ _ => ?_
      refine .skip (moves_free_direntry_in _ _) fun r _ _ => .skip (moves_ino_to_inum _) fun inum _ hinum => ?_
      obtain rfl := ino_to_inum_eq hinum
      refine .call (moves_putOther path) (add_comm _ _) fun _ _ _ => ?_
      refine .call (moves_unlock_write _) (add_comm _ _) fun _ _ _ => .pure ?_
      rw [zero_add, ← kept_eq_nil_iff, ← refs_eq_zero_iff]
      exact ⟨onlyRefs_refs _, Iff.rfl⟩

end Chickadee.Chkfs
