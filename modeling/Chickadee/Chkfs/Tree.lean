import Chickadee.Chkfs.Direntry

/-!
# Directories and files: `free_inode(ino)`, `mkdir`, `rm`, `ls`, `tree`, `create_file`

These run under `fstlock`. `mkdir` and `create_file` are split at `allocate_inode`, which may keep
references.
-/

namespace Chickadee.Chkfs

open Lib Fs

/-! ## `free_inode(ino)` -/

/-- The directory of a file that has a name is searched for; one without a name gets its bit back. -/
def freeLookup (fuel root_dirino i : ℕ) : M (Option (List ℕ)) := do
  if ((← get).disk.inode i).type = type_regular then
    lock_write (.inode i)
    let found ← dirOf
    unlock_write (.inode i)
    return found
  else return some []
where
  dirOf : M (Option (List ℕ)) := do
    if ((← get).disk.inode i).flags % 2 = linked then search fuel root_dirino i
    else
      set_inode i fun ino => { ino with flags := ino.flags / 2 * 2 + linked }
      return some []

/-- `free_inode(ino)`. A missing directory is followed as a null pointer. -/
def free_inode (fuel i : ℕ) : M ℤ := do
  let inum ← ino_to_inum i
  if inum ≤ 1 then return E_INVAL
  else match ← get_inode 1 with
    | none => return E_NOENT
    | some root_dirino =>
      assert (i ≠ root_dirino)
      assert (((← get).disk.inode i).type ≠ 0)
      match ← freeLookup fuel root_dirino i with
      | none => throw .assertion
      | some path =>
        let dirino := path.headD root_dirino
        let inum ← ino_to_inum dirino
        free_direntry.putOther inum root_dirino
        let r ← free_inode_in dirino i
        inode_put dirino false
        return r

theorem moves_freeLookup (fuel root_dirino i : ℕ) :
    ledger.Moves 0 (freeLookup fuel root_dirino i) pathRefs := by
  have hdir : ledger.Moves 0 (freeLookup.dirOf fuel root_dirino i) pathRefs := by
    refine .get fun k => ?_
    split
    · exact moves_search _ _ _
    · exact (moves_set_inode _ _).skip fun _ => .pure rfl
  refine .get fun k => ?_
  split
  · refine (moves_lock_write _).bind fun _ => hdir.call (zero_add _).symm fun found => ?_
    exact (moves_unlock_write _).call (add_comm _ _) fun _ => .pure (zero_add _)
  · exact .pure rfl

/-- What `free_inode(ino)` keeps are references. -/
theorem at_free_inode (fuel i : ℕ) (k : Kernel) :
    ledger.At k 0 (free_inode fuel i) fun _ m => OnlyRefs m := by
  refine .skip (moves_ino_to_inum _) fun inum _ _ => ?_
  split
  · exact .pure onlyRefs_zero
  refine (moves_get_inode 1 _).bind fun root _ m hroot hm => ?_
  subst hm
  cases root with
  | none => exact .pure onlyRefs_zero
  | some root_dirino =>
    obtain rfl := get_inode_eq hroot
    refine .skip (moves_assert _) fun _ _ _ => .get (.skip (moves_assert _) fun _ _ _ => ?_)
    refine .call (moves_freeLookup _ _ _) (zero_add _).symm fun found _ _ => ?_
    cases found with
    | none => exact .throw id
    | some path =>
      refine .skip (moves_ino_to_inum _) fun inum _ hinum => ?_
      obtain rfl := ino_to_inum_eq hinum
      cases path with
      | nil =>
        -- the directory is the root directory
        refine .skip (.pure rfl) fun _ _ _ => .skip (moves_free_inode_in _ _) fun r _ _ => ?_
        refine .call (moves_inode_put _ _) (add_comm _ _) fun _ _ _ => .pure ?_
        exact onlyRefs_zero.add onlyRefs_zero
      | cons dirino path =>
        have hput : ledger.Moves {.ref (inodeEntry 1)}
            (free_direntry.putOther ((dirino :: path).headD 1) 1) fun _ =>
              if dirino ≠ 1 then 0 else {.ref (inodeEntry 1)} := by
          unfold free_direntry.putOther
          rw [List.headD_cons]
          split
          · exact moves_inode_put _ _
          · exact .pure rfl
        refine .call hput (add_comm _ _) fun _ _ _ => .skip (moves_free_inode_in _ _) fun r _ _ => ?_
        refine .call (R := refs path + if dirino ≠ 1 then 0 else {.ref (inodeEntry 1)})
          (moves_inode_put dirino false) ?_ fun _ _ _ => .pure ?_
        · rw [pathRefs, refs_cons]
          abel
        · refine onlyRefs_zero.add ((onlyRefs_refs path).add ?_)
          split
          · exact onlyRefs_zero
          · exact onlyRefs_singleton _

/-! ## `mkdir` -/

/-- `mkdir` up to the allocation of the inode: the parent directory, and the path as it is then. -/
def mkdirParent (path : Str) : M (ℤ ⊕ ℕ × Str) := do
  match ← lookup_directory path true false with
  | some r =>
    inode_put r false
    return .inl E_SAMENAME
  | none =>
    match ← lookup_directory path false true with
    | none => return .inl E_NOENT
    | some dirino =>
      let (path, name) := path_find_last path
      if (← contains_name dirino name) = true then
        inode_put dirino false
        return .inl E_SAMENAME
      else return .inr (dirino, path)

/-- `mkdir` from step 3 on. -/
def mkdirEntry (fuel dirino : ℕ) (path : Str) (inum : ℕ) : M ℤ := do
  lock_write (.inode dirino)
  let (bn, i) ← allocate_direntry fuel dirino
  set_buf bn fun b => setName (setInum b i inum) i (path_find_last path).2
  put (.data bn)
  unlock_write (.inode dirino)
  inode_put dirino false
  return 0

/-- `mkdir(path)`. Without an inode the lock of the directory is given back, which was not taken. -/
def mkdir (fuel : ℕ) (path : Str) : M ℤ := do
  match ← mkdirParent path with
  | .inl r => return r
  | .inr (dirino, path) =>
    let inum ← allocate_inode type_directory
    if inum = 0 then
      unlock_write (.inode dirino)
      inode_put dirino false
      return E_NOSPC
    else mkdirEntry fuel dirino path inum

/-- The reference to the parent directory. -/
def parentRef : ℤ ⊕ ℕ × Str → Multiset Token
  | .inl _ => 0
  | .inr (dirino, _) => {.ref (inodeEntry dirino)}

theorem moves_mkdirParent (path : Str) : ledger.Moves 0 (mkdirParent path) parentRef := by
  refine (moves_lookup_directory _ _ _).bind fun r => ?_
  cases r with
  | some r => exact (moves_inode_put _ _).bind fun _ => .pure rfl
  | none =>
    refine (moves_lookup_directory _ _ _).bind fun dirino => ?_
    cases dirino with
    | none => exact .pure rfl
    | some dirino =>
      refine (moves_containsWith _ _).skip fun r => ?_
      split
      · exact (moves_inode_put _ _).bind fun _ => .pure rfl
      · exact .pure rfl

theorem moves_mkdirEntry (fuel dirino : ℕ) (path : Str) (inum : ℕ) :
    ledger.Moves {.ref (inodeEntry dirino)} (mkdirEntry fuel dirino path inum) fun _ => 0 := by
  refine (moves_lock_write _).call (zero_add _).symm fun _ => ?_
  refine (moves_allocate_direntry _ _).call (zero_add _).symm fun r => ?_
  refine (moves_set_buf _ _).skip fun _ => (moves_put _).call rfl fun _ => ?_
  rw [zero_add]
  refine (moves_unlock_write _).call rfl fun _ => ?_
  rw [zero_add]
  exact (moves_inode_put _ _).bind fun _ => .pure rfl

/-! ## `create_file` -/

/-- `create_file` up to the allocation of the inode: the locked directory and the new directory entry. -/
def createEntry (fuel : ℕ) (filename : Str) : M (Option (ℕ × ℕ × ℕ)) := do
  match ← lookup_directory filename true false with
  | some r =>
    inode_put r false
    return none
  | none =>
    match ← lookup_directory filename false true with
    | none => return none
    | some dirino =>
      lock_write (.inode dirino)
      let de ← allocate_direntry fuel dirino
      return some (dirino, de)

/-- `create_file` from `allocate_inode` on. -/
def createInode (filename : Str) (dirino bn i inum : ℕ) : M (Option ℕ) := do
  if inum = 0 then
    put (.data bn)
    unlock_write (.inode dirino)
    inode_put dirino false
    return none
  else match ← get_inode inum with
    | none => throw .assertion
    | some ino =>
      set_buf bn fun b => setName (setInum b i inum) i (path_find_last filename).2
      put (.data bn)
      unlock_write (.inode dirino)
      inode_put dirino false
      let empty ← directory_empty dirino
      assert (empty = false)
      return some ino

/-- `disk_vnode::create_file(filename)`. If the new inode cannot be fetched, null is freed. -/
def create_file (fuel : ℕ) (filename : Str) : M (Option ℕ) := do
  match ← createEntry fuel filename with
  | none => return none
  | some (dirino, bn, i) =>
    let inum ← allocate_inode type_regular
    createInode filename dirino bn i inum

/-- What `create_file` owns while it looks for an inode. -/
def entryRefs : Option (ℕ × ℕ × ℕ) → Multiset Token
  | none => 0
  | some (dirino, bn, _) => {.ref (.data bn)} + ({.write (.inode dirino)} + {.ref (inodeEntry dirino)})

theorem moves_createEntry (fuel : ℕ) (filename : Str) :
    ledger.Moves 0 (createEntry fuel filename) entryRefs := by
  refine (moves_lookup_directory _ _ _).bind fun r => ?_
  cases r with
  | some r => exact (moves_inode_put _ _).bind fun _ => .pure rfl
  | none =>
    refine (moves_lookup_directory _ _ _).bind fun dirino => ?_
    cases dirino with
    | none => exact .pure rfl
    | some dirino =>
      refine (moves_lock_write _).call (zero_add _).symm fun _ => ?_
      exact (moves_allocate_direntry _ _).call (zero_add _).symm fun de => .pure rfl

theorem moves_createInode (filename : Str) (dirino bn i inum : ℕ) :
    ledger.Moves (entryRefs (some (dirino, bn, i))) (createInode filename dirino bn i inum) inodeRef := by
  unfold createInode
  by_cases hzero : inum = 0
  · rw [if_pos hzero]
    refine (moves_put _).call rfl fun _ => ?_
    rw [zero_add]
    refine (moves_unlock_write _).call rfl fun _ => ?_
    rw [zero_add]
    exact (moves_inode_put _ _).bind fun _ => .pure rfl
  · rw [if_neg hzero]
    refine (moves_get_inode _).call (zero_add _).symm fun ino => ?_
    cases ino with
    | none => exact .throw id
    | some ino =>
      refine (moves_set_buf _ _).skip fun _ => ?_
      refine (moves_put _).call (R := {.write (.inode dirino)} + {.ref (inodeEntry dirino)} +
        inodeRef (some ino)) ?_ fun _ => ?_
      · abel
      rw [zero_add, add_assoc]
      refine (moves_unlock_write _).call rfl fun _ => ?_
      rw [zero_add]
      refine (moves_inode_put _ _).call rfl fun _ => ?_
      rw [zero_add]
      exact (moves_directory_empty _).skip fun _ => (moves_assert _).skip fun _ => .pure rfl

/-! ## `rm` -/

/-- `rm` up to `lookup_inode`: the parent directory and the directory. -/
def rmTarget (path : Str) : M (ℤ ⊕ ℕ × ℕ) := do
  if path = [dlm] then return .inl E_PERM
  else match ← lookup_directory path true false with
    | none => return .inl E_NOENT
    | some dir =>
      if (← directory_empty dir) = false then
        inode_put dir false
        return .inl E_NONEMPTY
      else
        inode_put dir false
        match ← lookup_directory path false true with
        | none => return .inl E_IO
        | some parent_dirino =>
          match ← lookup_inode_in parent_dirino (path_find_last path).2 with
          | none =>
            inode_put parent_dirino false
            return .inl E_IO
          | some dirino => return .inr (parent_dirino, dirino)

/-- `rm(path)`. The result of `free_inode` is compared with 0 before it is stored. -/
def rm (fuel : ℕ) (path : Str) : M ℤ := do
  match ← rmTarget path with
  | .inl r => return r
  | .inr (parent_dirino, dirino) =>
    let r ← free_direntry_in parent_dirino dirino
    inode_put parent_dirino false
    if r ≠ 0 then return r
    else
      let r ← free_inode fuel dirino
      return if r < 0 then 1 else 0

/-- The references to the parent directory and to the directory. -/
def targetRefs : ℤ ⊕ ℕ × ℕ → Multiset Token
  | .inl _ => 0
  | .inr (parent_dirino, dirino) => {.ref (inodeEntry parent_dirino)} + {.ref (inodeEntry dirino)}

theorem moves_rmTarget (path : Str) : ledger.Moves 0 (rmTarget path) targetRefs := by
  unfold rmTarget
  split
  · exact .pure rfl
  refine (moves_lookup_directory _ _ _).bind fun dir => ?_
  cases dir with
  | none => exact .pure rfl
  | some dir =>
    refine (moves_directory_empty _).skip fun empty => ?_
    split
    · exact (moves_inode_put _ _).bind fun _ => .pure rfl
    refine (moves_inode_put _ _).bind fun _ => (moves_lookup_directory _ _ _).bind fun parent => ?_
    cases parent with
    | none => exact .pure rfl
    | some parent_dirino =>
      refine (moves_lookup_inode_in _ _).call (zero_add _).symm fun dirino => ?_
      cases dirino with
      | none => exact (moves_inode_put _ _).call (add_comm _ _) fun _ => .pure rfl
      | some dirino => exact .pure (add_comm _ _)

/-- What `rm` keeps: with a directory to remove, its reference and maybe more. -/
theorem at_rm (fuel : ℕ) (path : Str) (k : Kernel) :
    ledger.At k 0 (rm fuel path) fun _ m => OnlyRefs m ∧
      (m ≠ 0 ↔ ∃ parent_dirino dirino k₁, Returns (rmTarget path) k (.inr (parent_dirino, dirino)) k₁) := by
  refine (moves_rmTarget path k).bind fun target k₁ m htarget hm => ?_
  subst hm
  cases target with
  | inl r =>
    refine .pure ⟨onlyRefs_zero, fun h => absurd rfl h, ?_⟩
    rintro ⟨_, _, _, h⟩
    exact absurd (Returns.unique htarget h).1 (by simp)
  | inr target =>
    obtain ⟨parent_dirino, dirino⟩ := target
    have hreached : ∃ parent_dirino dirino k₁,
        Returns (rmTarget path) k (.inr (parent_dirino, dirino)) k₁ := ⟨_, _, _, htarget⟩
    have hne : ∀ m : Multiset Token, m + {.ref (inodeEntry dirino)} ≠ 0 := fun m h => by
      have := congrArg Multiset.card h
      simp at this
    refine .skip (moves_free_direntry_in _ _) fun r _ _ => ?_
    refine .call (moves_inode_put _ _) rfl fun _ _ _ => ?_
    rw [zero_add]
    split
    · refine .pure ⟨onlyRefs_singleton _, fun _ => hreached, fun _ h => hne 0 ?_⟩
      rw [zero_add]
      exact h
    · refine ((at_free_inode _ _ _).keep _).bind fun r _ _ _ hfreed => ?_
      obtain ⟨m, hm, hkept⟩ := hfreed
      refine .pure ?_
      rw [hkept]
      exact ⟨hm.add (onlyRefs_singleton _), fun _ => hreached, fun _ => hne m⟩

/-! ## `ls` -/

/-- The end of a line. -/
abbrev newline : UInt8 := 10

/-- The names of a block, each with a line end, behind `out`, and whether one did not fit. -/
def lsNames (bufsz : ℕ) : List Dirent → Str → Str × Bool
  | [], out => (out, false)
  | de :: ds, out =>
    if de.inum = 0 then lsNames bufsz ds out
    else if bufsz < out.length + de.name.length + 2 then (out, true)
    else lsNames bufsz ds (out ++ de.name ++ [newline])

/-- The loop of `ls`: what is in the buffer, and `buf_full`. -/
def lsLoop (dirino bufsz : ℕ) : M (Str × Bool) :=
  if bufsz = 0 then return ([], false)
  else scan dirino (fun (out, buf_full) bn n => do
    let (out, full) := lsNames bufsz (dirents ((← get).disk.buf bn) n) out
    put (.data bn)
    if out.length < bufsz then return .inr (out, buf_full || full)
    else return .inl (out, buf_full || full)) (fun s => return s) ([], false)

/-- `ls(pathname, buf, bufsz)`: the result, and the string in the buffer. The directory is never put. -/
def ls (pathname : Str) (bufsz : ℕ) : M (ℤ × Str) := do
  match ← lookup_directory pathname true false with
  | none => throw .assertion
  | some dirino =>
    let (out, buf_full) ← lsLoop dirino bufsz
    assert (out = [] ∨ out.getLast? = some newline)
    return (if buf_full = true then E_FBIG else 0, out)

theorem moves_lsLoop (dirino bufsz : ℕ) : ledger.Moves 0 (lsLoop dirino bufsz) fun _ => 0 := by
  have hscan : ∀ (body : Str × Bool → ℕ → ℕ → M ((Str × Bool) ⊕ (Str × Bool))) (s : Str × Bool),
      (∀ s bn n, ledger.Moves ({.ref (.data bn)} + 0) (body s bn n) (goes (fun _ => 0) fun _ => 0)) →
        ledger.Moves 0 (scan dirino body (fun s => return s) s) fun _ => 0 :=
    fun body s hbody => moves_scan hbody (fun _ => .pure rfl) dirino s
  unfold lsLoop
  split
  · exact .pure rfl
  refine hscan _ _ fun s bn n => .get fun k => ?_
  dsimp only
  refine (moves_put _).call rfl fun _ => ?_
  split
  · exact .pure rfl
  · exact .pure rfl

/-- **`ls` never returns without keeping the reference to the directory.** -/
theorem at_ls (pathname : Str) (bufsz : ℕ) (k : Kernel) :
    ledger.At k 0 (ls pathname bufsz) fun _ m => OnlyRefs m ∧ m ≠ 0 := by
  refine (moves_lookup_directory _ _ _ k).bind fun dirino _ m _ hm => ?_
  subst hm
  cases dirino with
  | none => exact .throw id
  | some dirino =>
    refine .skip (moves_lsLoop _ _) fun r _ _ => .skip (moves_assert _) fun _ _ _ => .pure ?_
    exact ⟨onlyRefs_singleton _, Multiset.singleton_ne_zero _⟩

/-! ## `tree` -/

/-- The buffer and the counters of `tree`. -/
structure Out where
  buf : Block
  off : ℕ
  nfile : ℕ
  ndir : ℕ

/-- `s` is written to the buffer from `a` on. -/
def blit (buf : Block) (a : ℕ) (s : Str) : Block := copyTo buf a s.length fun j => s.getD j 0

/-- One line of the output: of the three blanks behind the dashes one stays. -/
def treeLine (depth : ℕ) (name : Str) (o : Out) : Out :=
  let dashes : Str := (List.replicate depth [124, 32, 32, 32, 32]).flatten ++ [124, 45, 45, 45]
  let off := o.off + dashes.length + 1
  { o with
    buf := blit (blit o.buf o.off (dashes ++ [32, 32, 32])) off (name ++ [newline])
    off := off + name.length + 1 }

variable {σ : Type}

/-- A loop over the directory entries of a block, which goes on as long as `step` says so. -/
def foldEntries (step : σ → Dirent → M (σ × Bool)) (bn : ℕ) : List ℕ → σ → M σ
  | [], s => return s
  | i :: is, s => do
    let (s, go) ← step s (direntAt ((← get).disk.buf bn) i)
    if go = true then foldEntries step bn is s else return s

/-- What `tree_dfs` does at a directory entry, where `dfs` goes on in a directory. -/
def treeEntry (dfs : ℕ → Out → M (ℤ × Out)) (bufsz depth : ℕ) (o : Out) (de : Dirent) : M (Out × Bool) := do
  if de.inum = 0 then return (o, true)
  else if bufsz ≤ o.off + de.name.length + 5 * depth + 9 then return ({ o with off := bufsz }, false)
  else
    match ← get_inode de.inum with
    | none => throw .assertion
    | some ino =>
      let o ← below ino (treeLine depth de.name o)
      inode_put ino false
      return (o, true)
where
  /-- A file is counted; into a directory the walk goes down. -/
  below (ino : ℕ) (o : Out) : M Out := do
    if ((← get).disk.inode ino).type = type_directory then
      let (_, o) ← dfs ino { o with ndir := o.ndir + 1 }
      return o
    else return { o with nfile := o.nfile + 1 }

/-- `tree_dfs(dirino, buf, bufsz, off, nfile, ndir, depth)` -/
def tree_dfs (bufsz : ℕ) : ℕ → ℕ → ℕ → Out → M (ℤ × Out)
  | 0, _, _, _ => throw .fuel
  | fuel + 1, depth, dirino, o =>
    if bufsz ≤ o.off then return (E_NOSPC, o)
    else scan dirino (fun o bn n => do
      let dfs := tree_dfs bufsz fuel (depth + 1)
      let o ← foldEntries (treeEntry dfs bufsz depth) bn (List.range n) o
      put (.data bn)
      if bufsz ≤ o.off then return .inl (0, o)
      else return .inr o) (fun o => return (0, o)) o

/-- `tree(pathname, buf, bufsz, nfile, ndir)` -/
def tree (fuel : ℕ) (pathname : Str) (buf : Block) (bufsz : ℕ) : M (ℤ × Out) := do
  match ← lookup_directory pathname true false with
  | none => return (E_NOENT, ⟨buf, 0, 0, 0⟩)
  | some start =>
    let (r, o) ← tree_dfs bufsz fuel 0 start ⟨blit buf 0 [46, newline], 2, 0, 0⟩
    inode_put start false
    return (r, { o with buf := blit o.buf o.off [0] })

theorem moves_foldEntries {step : σ → Dirent → M (σ × Bool)}
    (hstep : ∀ s de, ledger.Moves 0 (step s de) fun _ => 0) (bn : ℕ) (is : List ℕ) (s : σ) :
    ledger.Moves 0 (foldEntries step bn is s) fun _ => 0 := by
  induction is generalizing s with
  | nil => exact .pure rfl
  | cons i is ih =>
    refine .get fun k => (hstep s _).skip fun r => ?_
    split
    split
    · exact ih _
    · exact .pure rfl

theorem moves_treeEntry {dfs : ℕ → Out → M (ℤ × Out)}
    (hdfs : ∀ ino o, ledger.Moves 0 (dfs ino o) fun _ => 0) (bufsz depth : ℕ) (o : Out) (de : Dirent) :
    ledger.Moves 0 (treeEntry dfs bufsz depth o de) fun _ => 0 := by
  unfold treeEntry
  split_ifs
  · exact .pure rfl
  · exact .pure rfl
  refine (moves_get_inode _).bind fun ino => ?_
  cases ino with
  | none => exact .throw id
  | some ino =>
    have hbelow : ∀ o, ledger.Moves 0 (treeEntry.below dfs ino o) fun _ => 0 := fun o => by
      refine .get fun k => ?_
      split
      · exact (hdfs _ _).skip fun r => .pure rfl
      · exact .pure rfl
    exact (hbelow _).skip fun o => (moves_inode_put _ _).bind fun _ => .pure rfl

theorem moves_tree_dfs (bufsz fuel depth dirino : ℕ) (o : Out) :
    ledger.Moves 0 (tree_dfs bufsz fuel depth dirino o) fun _ => 0 := by
  induction fuel generalizing depth dirino o with
  | zero => exact .throw id
  | succ fuel ih =>
    have hscan : ∀ (body : Out → ℕ → ℕ → M ((ℤ × Out) ⊕ Out)),
        (∀ o bn n, ledger.Moves ({.ref (.data bn)} + 0) (body o bn n) (goes (fun _ => 0) fun _ => 0)) →
          ledger.Moves 0 (scan dirino body (fun o => return (0, o)) o) fun _ => 0 :=
      fun body hbody => moves_scan hbody (fun _ => .pure rfl) dirino o
    unfold tree_dfs
    split
    · exact .pure rfl
    refine hscan _ fun o bn n => ?_
    refine (moves_foldEntries (moves_treeEntry (fun ino o => ih _ ino o) _ _) bn _ o).skip fun o => ?_
    refine (moves_put _).call rfl fun _ => ?_
    split
    · exact .pure rfl
    · exact .pure rfl

/-- **`tree` gives back what it takes.** -/
theorem moves_tree (fuel : ℕ) (pathname : Str) (buf : Block) (bufsz : ℕ) :
    ledger.Moves 0 (tree fuel pathname buf bufsz) fun _ => 0 := by
  refine (moves_lookup_directory _ _ _).bind fun start => ?_
  cases start with
  | none => exact .pure rfl
  | some start =>
    exact (moves_tree_dfs _ _ _ _ _).skip fun r => (moves_inode_put _ _).bind fun _ => .pure rfl

end Chickadee.Chkfs
